import Mathlib.Tactic.Common
import UtxoLedger.Pool
import UtxoLedger.Proofs.StoredRecords

/-!
# What the pool claims

The index of the pool is exact: an outpoint is claimed by the pooled transaction that spends it, and
by no other. So a new transaction that claims nothing of what is claimed keeps the index exact, and
whoever spends an outpoint that a block spends can be found and taken out. What a pool lets in was
judged against the committed state, input by input.
-/
namespace UtxoLedger

namespace Transaction

/-- What the inputs name, in order. -/
def prevouts (tx : Transaction) : List OutPoint := tx.inputs.map TxInput.prevout

lemma prevoutFault?_eq_none {i : Nat} {seen : Std.ExtTreeSet OutPoint} {inputs : List TxInput} :
    prevoutFault? i seen inputs = none ↔ (∀ input ∈ inputs, input.prevout.isNull = false) ∧
      (inputs.map TxInput.prevout).Nodup ∧
      ∀ input ∈ inputs, seen.contains input.prevout = false := by
  induction inputs generalizing i seen with
  | nil => simp [prevoutFault?]
  | cons input rest ih =>
    rw [prevoutFault?, List.forall_mem_cons, List.forall_mem_cons, List.map_cons, List.nodup_cons,
      List.mem_map]
    by_cases hnull : input.prevout.isNull = true
    · simp [hnull]
    by_cases hseen : seen.contains input.prevout = true
    · simp [hnull, hseen]
    rw [if_neg hnull, if_neg hseen, ih]
    simp only [Std.ExtTreeSet.contains_insert, Bool.or_eq_false_iff, beq_eq_false_iff_ne, ne_eq,
      Std.LawfulEqOrd.compare_eq_iff_eq]
    grind

/-- A transaction within its limits names no outpoint twice, unless it is a coinbase. -/
lemma prevouts_nodup {tx : Transaction} (h : tx.fault? = none) (spends : tx.isCoinbase = false) :
    tx.prevouts.Nodup := by
  unfold fault? at h
  split at h
  · exact nomatch h
  · split at h
    · exact nomatch h
    · simp only [spends, Bool.false_eq_true, if_false] at h
      split at h
      · exact nomatch h
      · split at h
        · exact nomatch h
        · split at h
          · exact nomatch h
          · exact (prevoutFault?_eq_none.1 h).2.1

end Transaction

namespace Pool

section Index

variable {m : Std.ExtTreeMap OutPoint Hash} {inputs : List TxInput} {o : OutPoint} {name : Hash}

lemma getElem?_claim : (inputs.foldl (fun m input => m.insert input.prevout name) m)[o]? =
    if o ∈ inputs.map TxInput.prevout then some name else m[o]? := by
  induction inputs generalizing m with
  | nil => simp
  | cons input rest ih =>
    simp only [List.foldl_cons, ih, Std.ExtTreeMap.getElem?_insert,
      Std.LawfulEqOrd.compare_eq_iff_eq, List.map_cons, List.mem_cons]
    by_cases hrest : o ∈ rest.map TxInput.prevout
    · simp only [hrest, or_true, if_true]
    · simp only [hrest, or_false, if_false, eq_comm]

lemma getElem?_free : (inputs.foldl (fun m input => m.erase input.prevout) m)[o]? =
    if o ∈ inputs.map TxInput.prevout then none else m[o]? := by
  induction inputs generalizing m with
  | nil => simp
  | cons input rest ih =>
    simp only [List.foldl_cons, ih, Std.ExtTreeMap.getElem?_erase,
      Std.LawfulEqOrd.compare_eq_iff_eq, List.map_cons, List.mem_cons]
    by_cases hrest : o ∈ rest.map TxInput.prevout
    · simp only [hrest, or_true, if_true]
    · simp only [hrest, or_false, if_false, eq_comm]

end Index

/-- Every pooled transaction stands under its own name and has passed what is asked without a look
at the store, and the index leads from each outpoint to the one that spends it. -/
structure Sound (p : Pool) : Prop where
  named : ∀ (name : Hash) (t : PooledTx), p.txs[name]? = some t → t.hash = name ∧ t.tx.hash = name
  spends : ∀ (name : Hash) (t : PooledTx), p.txs[name]? = some t →
    t.tx.isCoinbase = false ∧ t.tx.fault? = none
  spenders : ∀ (o : OutPoint) (name : Hash), p.spenders[o]? = some name ↔
    ∃ t, p.txs[name]? = some t ∧ o ∈ t.tx.prevouts

variable {p p' : Pool} {t t' : PooledTx} {tx : Transaction} {name name' : Hash} {o : OutPoint}

lemma sound_empty : empty.Sound := by
  constructor
  · intro name t h
    simp [empty] at h
  · intro name t h
    simp [empty] at h
  · simp [empty]

/-- No two pooled transactions share an outpoint. -/
lemma Sound.name_eq (hs : p.Sound) (h : p.txs[name]? = some t) (h' : p.txs[name']? = some t')
    (ho : o ∈ t.tx.prevouts) (ho' : o ∈ t'.tx.prevouts) : name = name' := by
  have hspender := (hs.spenders o name).2 ⟨t, h, ho⟩
  rw [(hs.spenders o name').2 ⟨t', h', ho'⟩] at hspender
  exact (Option.some.inj hspender).symm

lemma txs_insert : (p.insert t).txs[name]? = if t.hash = name then some t else p.txs[name]? := by
  simp only [insert, Std.ExtTreeMap.getElem?_insert, Std.LawfulEqOrd.compare_eq_iff_eq]

lemma spenders_insert : (p.insert t).spenders[o]? =
    if o ∈ t.tx.prevouts then some t.hash else p.spenders[o]? := getElem?_claim

lemma rejection?_eq_none : p.rejection? tx name = none ↔
    p.txs[name]? = none ∧ ∀ o ∈ tx.prevouts, p.spenders[o]? = none := by
  have hpooled : p.txs.contains name = false ↔ p.txs[name]? = none := by
    rw [← Bool.not_eq_true, ← Std.ExtTreeMap.isSome_getElem?_eq_contains, Bool.not_eq_true,
      Option.isSome_eq_false_iff, Option.isNone_iff_eq_none]
  have hclaimed : (tx.inputs.any fun input => p.spenders.contains input.prevout) = false ↔
      ∀ o ∈ tx.prevouts, p.spenders[o]? = none := by
    simp [Transaction.prevouts]
  rw [← hpooled, ← hclaimed, rejection?]
  cases p.txs.contains name with
  | true => simp
  | false =>
    cases tx.inputs.any fun input => p.spenders.contains input.prevout with
    | true => simp
    | false => simp

/-- A transaction that claims nothing of what is claimed comes in. -/
lemma Sound.insert (hs : p.Sound) (named : t.tx.hash = t.hash) (spends : t.tx.isCoinbase = false)
    (limits : t.tx.fault? = none) (new : p.rejection? t.tx t.hash = none) :
    (p.insert t).Sound := by
  obtain ⟨hnew, hfree⟩ := rejection?_eq_none.1 new
  constructor
  · intro name t' h
    rw [txs_insert] at h
    split at h
    next hname =>
      cases h
      exact ⟨hname, named.trans hname⟩
    · exact hs.named name t' h
  · intro name t' h
    rw [txs_insert] at h
    split at h
    · cases h
      exact ⟨spends, limits⟩
    · exact hs.spends name t' h
  · intro o name
    rw [spenders_insert, txs_insert]
    by_cases hname : t.hash = name
    · subst hname
      have hold : p.spenders[o]? ≠ some t.hash := by
        rw [Ne, hs.spenders, hnew]
        simp
      split_ifs <;> simp_all
    · by_cases ho : o ∈ t.tx.prevouts
      · have hold : ¬ ∃ t', p.txs[name]? = some t' ∧ o ∈ t'.tx.prevouts := by
          rw [← hs.spenders, hfree o ho]
          simp
        simp [ho, hname, hold]
      · rw [if_neg ho, if_neg hname, hs.spenders]

lemma txs_remove : (p.remove name').txs[name]? =
    if name' = name then none else p.txs[name]? := by
  unfold remove get?
  cases h : p.txs[name']? with
  | none =>
    dsimp only
    split
    next hname => rw [← hname, h]
    · rfl
  | some t => simp only [Std.ExtTreeMap.getElem?_erase, Std.LawfulEqOrd.compare_eq_iff_eq]

lemma txs_remove_eq_some : (p.remove name').txs[name]? = some t ↔
    name' ≠ name ∧ p.txs[name]? = some t := by
  rw [txs_remove]
  split
  next h => simp [h]
  next h => simp [h]

lemma Sound.spenders_remove (hs : p.Sound) :
    (p.remove name').spenders[o]? = some name ↔ name' ≠ name ∧ p.spenders[o]? = some name := by
  unfold Pool.remove get?
  cases h : p.txs[name']? with
  | none =>
    refine (and_iff_right_of_imp fun hspender hname => ?_).symm
    obtain ⟨t, ht, -⟩ := (hs.spenders o name).1 hspender
    rw [hname, ht] at h
    exact nomatch h
  | some t =>
    have hown : p.spenders[o]? = some name' ↔ o ∈ t.tx.prevouts := by
      rw [hs.spenders, h]
      simp
    change (t.tx.inputs.foldl _ p.spenders)[o]? = _ ↔ _
    rw [getElem?_free]
    split
    next ho =>
      rw [hown.2 ho, Option.some.injEq]
      simp
    next ho =>
      refine (and_iff_right_of_imp fun hspender hname => ?_).symm
      rw [← hname] at hspender
      exact ho (hown.1 hspender)

lemma Sound.remove (hs : p.Sound) (name' : Hash) : (p.remove name').Sound := by
  constructor
  · intro name t h
    exact hs.named name t (txs_remove_eq_some.1 h).2
  · intro name t h
    exact hs.spends name t (txs_remove_eq_some.1 h).2
  · intro o name
    simp only [txs_remove_eq_some, and_assoc, exists_and_left]
    rw [← hs.spenders, hs.spenders_remove]

/-- Who spends what the inputs spend is taken out, and nobody else. -/
lemma Sound.evict (hs : p.Sound) (evicted : List Hash) (inputs : List TxInput) :
    (p.evict evicted inputs).1.Sound ∧
      ∀ (name : Hash) (t : PooledTx), (p.evict evicted inputs).1.txs[name]? = some t ↔
        p.txs[name]? = some t ∧ ∀ input ∈ inputs, input.prevout ∉ t.tx.prevouts := by
  induction inputs generalizing p evicted with
  | nil =>
    refine ⟨hs, fun name t => ?_⟩
    simp [Pool.evict]
  | cons input rest ih =>
    unfold Pool.evict
    cases hspender : p.spenders[input.prevout]? with
    | none =>
      obtain ⟨hsound, htxs⟩ := ih hs evicted
      refine ⟨hsound, fun name t => ?_⟩
      rw [htxs, List.forall_mem_cons]
      refine and_congr_right fun ht => (and_iff_right fun ho => ?_).symm
      rw [(hs.spenders _ name).2 ⟨t, ht, ho⟩] at hspender
      exact nomatch hspender
    | some rival =>
      obtain ⟨hsound, htxs⟩ := ih (hs.remove rival) (evicted ++ [rival])
      refine ⟨hsound, fun name t => ?_⟩
      rw [htxs, txs_remove_eq_some, List.forall_mem_cons, and_comm (a := rival ≠ name), and_assoc]
      refine and_congr_right fun ht => and_congr_left fun _ => ?_
      rw [Ne, ← Option.some.injEq, ← hspender, hs.spenders]
      simp [ht]

section Block

variable {c : Confirmation} {rest : List Transaction}

lemma confirmTxs_of_pooled (h : p.txs[tx.hash]? = some t) : p.confirmTxs c (tx :: rest) =
    (p.remove tx.hash).confirmTxs
      { c with confirmed := c.confirmed.insert tx.hash t } rest := by
  simp only [Pool.confirmTxs, get?, h]

lemma confirmTxs_of_coinbase (h : p.txs[tx.hash]? = none) (coinbase : tx.isCoinbase = true) :
    p.confirmTxs c (tx :: rest) = p.confirmTxs c rest := by
  simp only [Pool.confirmTxs, get?, h, coinbase, if_true]

lemma confirmTxs_of_spends (h : p.txs[tx.hash]? = none) (spends : tx.isCoinbase = false) :
    p.confirmTxs c (tx :: rest) = (p.evict c.conflicted tx.inputs).1.confirmTxs
      { c with conflicted := (p.evict c.conflicted tx.inputs).2 } rest := by
  simp only [Pool.confirmTxs, get?, h, spends, Bool.false_eq_true, if_false]

end Block

/-- A block leaves the index exact. -/
lemma Sound.confirmTxs (hs : p.Sound) (c : Confirmation) (txs : List Transaction) :
    (p.confirmTxs c txs).1.Sound := by
  induction txs generalizing p c with
  | nil => exact hs
  | cons tx rest ih =>
    cases hget : p.txs[tx.hash]? with
    | some t =>
      rw [confirmTxs_of_pooled hget]
      exact ih (hs.remove _) _
    | none =>
      cases hcoinbase : tx.isCoinbase with
      | true =>
        rw [confirmTxs_of_coinbase hget hcoinbase]
        exact ih hs _
      | false =>
        rw [confirmTxs_of_spends hget hcoinbase]
        exact ih (hs.evict c.conflicted tx.inputs).1 _

/-- A block takes out its own transactions and those that share an outpoint with one of them that
spends, if the pool has no other transactions under the names of the block. -/
lemma Sound.txs_confirmTxs (hs : p.Sound) (c : Confirmation) {txs : List Transaction}
    (apart : ∀ tx ∈ txs, ∀ t, p.txs[tx.hash]? = some t → t.tx = tx) (name : Hash) (t : PooledTx) :
    (p.confirmTxs c txs).1.txs[name]? = some t ↔
      p.txs[name]? = some t ∧ ∀ tx ∈ txs, tx.hash ≠ name ∧
        (tx.isCoinbase = false → ∀ o ∈ tx.prevouts, o ∉ t.tx.prevouts) := by
  induction txs generalizing p c with
  | nil => simp [Pool.confirmTxs]
  | cons tx rest ih =>
    obtain ⟨hown, hrest⟩ := List.forall_mem_cons.1 apart
    cases hget : p.txs[tx.hash]? with
    | some t₀ =>
      have htxs := ih (hs.remove tx.hash)
        { c with confirmed := c.confirmed.insert tx.hash t₀ }
        fun tx' htx' t ht => hrest tx' htx' t (txs_remove_eq_some.1 ht).2
      rw [confirmTxs_of_pooled hget, htxs, txs_remove_eq_some, List.forall_mem_cons,
        and_comm (a := tx.hash ≠ name), and_assoc]
      refine and_congr_right fun ht => and_congr_left fun _ => ?_
      -- No rival of the transaction is pooled beside it.
      refine (and_iff_left_of_imp fun hne _ o ho ho' => hne ?_).symm
      rw [← hown t₀ hget] at ho
      exact hs.name_eq hget ht ho ho'
    | none =>
      have hne : ∀ {name t}, p.txs[name]? = some t → tx.hash ≠ name := by
        rintro name t ht rfl
        exact nomatch hget.symm.trans ht
      cases hcoinbase : tx.isCoinbase with
      | true =>
        rw [confirmTxs_of_coinbase hget hcoinbase, ih hs c hrest, List.forall_mem_cons]
        refine and_congr_right fun ht => (and_iff_right ⟨hne ht, ?_⟩).symm
        simp [hcoinbase]
      | false =>
        obtain ⟨hevicted, hleft⟩ := hs.evict c.conflicted tx.inputs
        have htxs := ih hevicted { c with conflicted := (p.evict c.conflicted tx.inputs).2 }
          fun tx' htx' t ht => hrest tx' htx' t ((hleft _ t).1 ht).1
        rw [confirmTxs_of_spends hget hcoinbase, htxs, hleft, List.forall_mem_cons, and_assoc]
        refine and_congr_right fun ht => and_congr_left fun _ => ?_
        simp [hne ht, hcoinbase, Transaction.prevouts]

end Pool

/-- The outpoint is an unspent output in the store. -/
def Tables.Offers (t : Tables) (o : OutPoint) : Prop :=
  ∃ u, t.unspent? o.hash = .ok (some u) ∧ u.states.get? o.index.toNat = some .unspent

/-- The outpoint is an unspent output of the state, and the archive has `output` for it. -/
def Snapshot.Lends (s : Snapshot) (archive : Archive) (o : OutPoint) (output : TxOutput) : Prop :=
  ∃ u, s.tables.unspent? o.hash = .ok (some u) ∧ u.states.get? o.index.toNat = some .unspent ∧
    Pool.loadOutput archive s u o.index = .ok output

lemma Snapshot.Lends.offers {s : Snapshot} {archive : Archive} {o : OutPoint} {output : TxOutput}
    (h : s.Lends archive o output) : s.tables.Offers o := by
  obtain ⟨u, hread, hget, -⟩ := h
  exact ⟨u, hread, hget⟩

namespace Pool

variable {archive : Archive} {rules : Rules} {db : Database} {s : Snapshot} {p p' : Pool}
  {tx : Transaction} {t : PooledTx}

lemma prevOutputs_eq_ok {i : Nat} {inputs : List TxInput} {spent : List TxOutput} :
    prevOutputs archive s i inputs = .ok spent ↔
      List.Forall₂ (fun input output => s.Lends archive input.prevout output) inputs spent := by
  induction inputs generalizing i spent with
  | nil => simp [prevOutputs, eq_comm]
  | cons input rest ih =>
    rw [prevOutputs, bind_eq_ok]
    constructor
    · rintro ⟨u?, hread, h⟩
      cases u? with
      | none => exact nomatch h
      | some u =>
        dsimp only at h
        split at h
        · exact nomatch h
        next hget =>
          obtain ⟨output, hload, h⟩ := bind_eq_ok.1 h
          obtain ⟨more, hmore, h⟩ := bind_eq_ok.1 h
          cases h
          exact .cons ⟨u, mapError_eq_ok.1 hread, not_not.1 hget, mapError_eq_ok.1 hload⟩
            (ih.1 hmore)
    · intro h
      cases h with
      | cons first more =>
        obtain ⟨u, hread, hget, hload⟩ := first
        refine ⟨some u, mapError_eq_ok.2 hread, ?_⟩
        dsimp only
        rw [if_neg (not_not.2 hget)]
        exact bind_eq_ok.2 ⟨_, mapError_eq_ok.2 hload, bind_eq_ok.2 ⟨_, ih.2 more, rfl⟩⟩

lemma judge_eq_ok {name : Hash} : judge archive rules db tx name = .ok t ↔
    ∃ s spent fee, Snapshot.take db = .ok s ∧
      List.Forall₂ (fun input output => s.Lends archive input.prevout output) tx.inputs spent ∧
      feeOver tx spent = .ok fee ∧ askScripts rules.verify s.chain.tip tx name 0 spent = .ok () ∧
      t = ⟨tx, name, fee, s.chain.tip.height⟩ := by
  unfold judge
  constructor
  · intro h
    obtain ⟨s, htake, h⟩ := bind_eq_ok.1 h
    obtain ⟨spent, hprev, h⟩ := bind_eq_ok.1 h
    obtain ⟨fee, hfee, h⟩ := bind_eq_ok.1 h
    obtain ⟨⟨⟩, hscripts, h⟩ := bind_eq_ok.1 h
    cases h
    exact ⟨s, spent, fee, mapError_eq_ok.1 htake, prevOutputs_eq_ok.1 hprev, mapError_eq_ok.1 hfee,
      hscripts, rfl⟩
  · rintro ⟨s, spent, fee, htake, hprev, hfee, hscripts, rfl⟩
    refine bind_eq_ok.2 ⟨s, mapError_eq_ok.2 htake, ?_⟩
    refine bind_eq_ok.2 ⟨spent, prevOutputs_eq_ok.2 hprev, ?_⟩
    exact bind_eq_ok.2 ⟨fee, mapError_eq_ok.2 hfee, bind_eq_ok.2 ⟨(), hscripts, rfl⟩⟩

lemma accept_eq_ok : p.accept archive rules db tx = (.ok (), p') ↔
    tx.isCoinbase = false ∧ tx.fault? = none ∧ p.rejection? tx tx.hash = none ∧
      ∃ t, judge archive rules db tx tx.hash = .ok t ∧ p' = p.insert t := by
  unfold accept
  dsimp only
  cases hcoinbase : tx.isCoinbase with
  | true => simp
  | false =>
    cases hfault : tx.fault? with
    | some fault => simp
    | none =>
      cases hrejection : p.rejection? tx tx.hash with
      | some rejection => simp
      | none =>
        cases hjudge : judge archive rules db tx tx.hash with
        | error refusal => simp
        | ok t => simp [eq_comm]

/-- Wherever the call is refused, it hands back the pool that it was given. -/
lemma accept_refused {refusal : Refusal} (h : p.accept archive rules db tx = (.error refusal, p')) :
    p' = p := by
  unfold accept at h
  dsimp only at h
  split at h
  · exact (Prod.mk.inj h).2.symm
  split at h
  · exact (Prod.mk.inj h).2.symm
  split at h
  · exact (Prod.mk.inj h).2.symm
  split at h
  · exact (Prod.mk.inj h).2.symm
  · cases h

/-- Whatever comes in keeps the index exact. -/
lemma Sound.accept (hs : p.Sound) (h : p.accept archive rules db tx = (.ok (), p')) :
    p'.Sound := by
  obtain ⟨spends, limits, new, t, hjudge, rfl⟩ := accept_eq_ok.1 h
  obtain ⟨s, spent, fee, -, -, -, -, rfl⟩ := judge_eq_ok.1 hjudge
  exact hs.insert rfl spends limits new

end Pool
end UtxoLedger

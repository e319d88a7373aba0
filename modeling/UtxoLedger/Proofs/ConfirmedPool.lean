import Mathlib.Tactic.Common
import UtxoLedger.Proofs.PoolIndex

/-!
# What a block takes out of the pool

A pool that is told of a block walks through its transactions and takes out what it finds pooled,
and of the others whoever lost an input to them. At every point of the walk each transaction that
was pooled at first is still there, or confirmed, or listed as conflicted, and only one of these. A
transaction of the block is confirmed unless an earlier one took an input from it; so if no two of
them spend the same, all that were pooled are confirmed.
-/
namespace UtxoLedger

/-- Some transaction of the block, not a coinbase, spends an outpoint that `tx` spends. -/
def Block.Rivals (b : Block) (tx : Transaction) : Prop :=
  ∃ rival ∈ b.txs, rival.isCoinbase = false ∧ ∃ o ∈ rival.prevouts, o ∈ tx.prevouts

/-- Coinbases apart, no outpoint is spent by two different ones of the transactions. -/
def Unrivalled (txs : List Transaction) : Prop :=
  ∀ a ∈ txs, ∀ b ∈ txs, a.isCoinbase = false → b.isCoinbase = false →
    ∀ o ∈ a.prevouts, o ∈ b.prevouts → a = b

lemma Unrivalled.of_cons {tx : Transaction} {txs : List Transaction}
    (h : Unrivalled (tx :: txs)) : Unrivalled txs :=
  fun a ha b hb => h a (List.mem_cons_of_mem _ ha) b (List.mem_cons_of_mem _ hb)

lemma Unrivalled.perm {txs txs' : List Transaction} (h : Unrivalled txs)
    (same : txs'.Perm txs) : Unrivalled txs' :=
  fun a ha b hb => h a (same.subset ha) b (same.subset hb)

namespace Pool

/-- What has become, in the pool `p` and the confirmation `c`, of the transaction that was pooled
under a name, if there was one. -/
inductive Fate (p : Pool) (c : Confirmation) (name : Hash) : Option PooledTx → Prop
  | absent (left : p.txs[name]? = none) (confirmed : c.confirmed[name]? = none)
      (conflicted : name ∉ c.conflicted) : Fate p c name none
  | kept {t : PooledTx} (left : p.txs[name]? = some t) (confirmed : c.confirmed[name]? = none)
      (conflicted : name ∉ c.conflicted) : Fate p c name (some t)
  | confirmed {t : PooledTx} (left : p.txs[name]? = none) (confirmed : c.confirmed[name]? = some t)
      (conflicted : name ∉ c.conflicted) : Fate p c name (some t)
  | evicted {t : PooledTx} (left : p.txs[name]? = none) (confirmed : c.confirmed[name]? = none)
      (conflicted : name ∈ c.conflicted) : Fate p c name (some t)

/-- The transactions of `start` are those that are left in `p`, those that are confirmed and those
that are listed as conflicted, and no transaction is among two of these or listed twice. -/
structure Accounts (start p : Pool) (c : Confirmation) : Prop where
  fate : ∀ name : Hash, Fate p c name start.txs[name]?
  once : c.conflicted.Nodup

section Fates

variable {start p p' : Pool} {c c' : Confirmation} {name : Hash} {t : PooledTx}
  {t? : Option PooledTx}

lemma Fate.congr (h : Fate p c name t?) (left : p'.txs[name]? = p.txs[name]?)
    (confirmed : c'.confirmed[name]? = c.confirmed[name]?)
    (conflicted : name ∈ c'.conflicted ↔ name ∈ c.conflicted) : Fate p' c' name t? := by
  cases h with
  | absent h₁ h₂ h₃ => exact .absent (left.trans h₁) (confirmed.trans h₂) (mt conflicted.1 h₃)
  | kept h₁ h₂ h₃ => exact .kept (left.trans h₁) (confirmed.trans h₂) (mt conflicted.1 h₃)
  | confirmed h₁ h₂ h₃ => exact .confirmed (left.trans h₁) (confirmed.trans h₂) (mt conflicted.1 h₃)
  | evicted h₁ h₂ h₃ => exact .evicted (left.trans h₁) (confirmed.trans h₂) (conflicted.2 h₃)

/-- Who is still pooled was pooled, and nothing has happened to it. -/
lemma Fate.of_pooled (h : Fate p c name t?) (pooled : p.txs[name]? = some t) :
    t? = some t ∧ c.confirmed[name]? = none ∧ name ∉ c.conflicted := by
  cases h with
  | kept left confirmed conflicted => exact ⟨left.symm.trans pooled, confirmed, conflicted⟩
  | absent left | confirmed left | evicted left => exact nomatch left.symm.trans pooled

lemma accounts_start (p : Pool) (header : ChainedHeader) : Accounts p p ⟨header, ∅, []⟩ := by
  refine ⟨fun name => ?_, List.nodup_nil⟩
  cases h : p.txs[name]? with
  | none => exact .absent h (by simp) List.not_mem_nil
  | some t => exact .kept h (by simp) List.not_mem_nil

lemma Accounts.confirm (h : Accounts start p c) (pooled : p.txs[name]? = some t) :
    Accounts start (p.remove name) { c with confirmed := c.confirmed.insert name t } := by
  refine ⟨fun name' => ?_, h.once⟩
  by_cases hname : name = name'
  · subst hname
    obtain ⟨hstart, -, hconflicted⟩ := (h.fate name).of_pooled pooled
    rw [hstart]
    exact .confirmed (by rw [txs_remove, if_pos rfl]) (by simp) hconflicted
  · refine (h.fate name').congr (by rw [txs_remove, if_neg hname]) ?_ Iff.rfl
    simp [Std.ExtTreeMap.getElem?_insert, hname]

lemma Accounts.reject (h : Accounts start p c) (pooled : p.txs[name]? = some t) :
    Accounts start (p.remove name) { c with conflicted := c.conflicted ++ [name] } := by
  obtain ⟨hstart, hconfirmed, hconflicted⟩ := (h.fate name).of_pooled pooled
  refine ⟨fun name' => ?_, ?_⟩
  · by_cases hname : name = name'
    · subst hname
      rw [hstart]
      exact .evicted (by rw [txs_remove, if_pos rfl]) hconfirmed (by simp)
    · refine (h.fate name').congr (by rw [txs_remove, if_neg hname]) rfl ?_
      simp [Ne.symm hname]
  · rw [List.nodup_append]
    refine ⟨h.once, List.nodup_singleton _, fun a ha b hb hab => hconflicted ?_⟩
    rwa [← List.mem_singleton.1 hb, ← hab]

lemma Accounts.evict (hs : p.Sound) (h : Accounts start p c) (inputs : List TxInput) :
    Accounts start (p.evict c.conflicted inputs).1
      { c with conflicted := (p.evict c.conflicted inputs).2 } := by
  induction inputs generalizing p c with
  | nil => exact h
  | cons input rest ih =>
    unfold Pool.evict
    cases hspender : p.spenders[input.prevout]? with
    | none => exact ih hs h
    | some rival =>
      obtain ⟨t, ht, -⟩ := (hs.spenders _ _).1 hspender
      exact ih (hs.remove rival) (h.reject ht)

/-- The walk through a block keeps the account. -/
lemma Accounts.confirmTxs (hs : p.Sound) (h : Accounts start p c) (txs : List Transaction) :
    Accounts start (p.confirmTxs c txs).1 (p.confirmTxs c txs).2 := by
  induction txs generalizing p c with
  | nil => exact h
  | cons tx rest ih =>
    cases hget : p.txs[tx.hash]? with
    | some t =>
      rw [confirmTxs_of_pooled hget]
      exact ih (hs.remove _) (h.confirm hget)
    | none =>
      cases hcoinbase : tx.isCoinbase with
      | true =>
        rw [confirmTxs_of_coinbase hget hcoinbase]
        exact ih hs h
      | false =>
        rw [confirmTxs_of_spends hget hcoinbase]
        exact ih (hs.evict c.conflicted tx.inputs).1 (h.evict hs tx.inputs)

end Fates

section Confirmed

variable {p : Pool} {c : Confirmation} {name : Hash} {t : PooledTx} {tx : Transaction}
  {txs : List Transaction}

/-- A pooled transaction is known by its name, if the names tell the transactions apart. -/
lemma Sound.tx_eq_iff (hs : p.Sound)
    (apart : ∀ t : PooledTx, p.txs[tx.hash]? = some t → t.tx = tx)
    (pooled : p.txs[name]? = some t) : t.tx = tx ↔ tx.hash = name := by
  constructor
  · rintro rfl
    exact (hs.named name t pooled).2
  · rintro rfl
    exact apart t pooled

/-- If no two transactions spend the same, the pooled ones among them are confirmed: none of them
loses an input to another one before its turn. -/
lemma Sound.confirmed_confirmTxs (hs : p.Sound)
    (apart : ∀ tx ∈ txs, ∀ t : PooledTx, p.txs[tx.hash]? = some t → t.tx = tx)
    (unrivalled : Unrivalled txs)
    (new : ∀ (name : Hash) (t : PooledTx), p.txs[name]? = some t → c.confirmed[name]? = none)
    (name : Hash) (t : PooledTx) :
    (p.confirmTxs c txs).2.confirmed[name]? = some t ↔
      c.confirmed[name]? = some t ∨ p.txs[name]? = some t ∧ t.tx ∈ txs := by
  induction txs generalizing p c with
  | nil => simp [Pool.confirmTxs]
  | cons tx rest ih =>
    obtain ⟨hown, hrest⟩ := List.forall_mem_cons.1 apart
    cases hget : p.txs[tx.hash]? with
    | some t₀ =>
      have hnew : ∀ (name : Hash) (t : PooledTx), (p.remove tx.hash).txs[name]? = some t →
          (c.confirmed.insert tx.hash t₀)[name]? = none := by
        intro name t ht
        obtain ⟨hne, ht⟩ := txs_remove_eq_some.1 ht
        simpa [Std.ExtTreeMap.getElem?_insert, hne] using new name t ht
      have hconfirmed := ih (hs.remove tx.hash)
        (fun tx' htx' t ht => hrest tx' htx' t (txs_remove_eq_some.1 ht).2) unrivalled.of_cons
        (c := { c with confirmed := c.confirmed.insert tx.hash t₀ }) hnew
      rw [confirmTxs_of_pooled hget, hconfirmed, txs_remove_eq_some,
        Std.ExtTreeMap.getElem?_insert, List.mem_cons]
      by_cases hname : tx.hash = name
      · subst hname
        have hfirst := new _ _ hget
        have htx := hown t₀ hget
        simp only [Std.LawfulEqOrd.compare_eq_iff_eq, if_true, Option.some.injEq, ne_eq,
          not_true_eq_false, false_and, or_false, hfirst, hget, reduceCtorEq, false_or]
        exact ⟨fun h => ⟨h, .inl (h ▸ htx)⟩, And.left⟩
      · simp only [Std.LawfulEqOrd.compare_eq_iff_eq, hname, if_false, ne_eq, not_false_eq_true,
          true_and]
        refine or_congr_right (and_congr_right fun ht => ?_)
        rw [hs.tx_eq_iff hown ht]
        simp [hname]
    | none =>
      have hne : ∀ {name : Hash} {t : PooledTx}, p.txs[name]? = some t → t.tx ≠ tx := by
        intro name t ht htx
        rw [(hs.tx_eq_iff hown ht).1 htx, ht] at hget
        cases hget
      cases hcoinbase : tx.isCoinbase with
      | true =>
        rw [confirmTxs_of_coinbase hget hcoinbase, ih hs hrest unrivalled.of_cons new]
        refine or_congr_right (and_congr_right fun ht => ?_)
        simp [hne ht]
      | false =>
        obtain ⟨hevicted, hleft⟩ := hs.evict c.conflicted tx.inputs
        have hconfirmed := ih hevicted
          (fun tx' htx' t ht => hrest tx' htx' t ((hleft _ t).1 ht).1) unrivalled.of_cons
          (c := { c with conflicted := (p.evict c.conflicted tx.inputs).2 })
          fun name t ht => new name t ((hleft _ t).1 ht).1
        rw [confirmTxs_of_spends hget hcoinbase, hconfirmed, hleft, and_assoc]
        refine or_congr_right (and_congr_right fun ht => ?_)
        -- Whoever is evicted here shares an outpoint with `tx`, so it is not one of the others.
        have hspares : t.tx ∈ rest → ∀ input ∈ tx.inputs, input.prevout ∉ t.tx.prevouts := by
          intro hmem input hinput ho
          refine hne ht (unrivalled _ (List.mem_cons_of_mem _ hmem) _ List.mem_cons_self
            (hs.spends name t ht).1 hcoinbase _ ho ?_)
          exact List.mem_map_of_mem hinput
        rw [List.mem_cons, or_iff_right (hne ht)]
        exact ⟨And.right, fun hmem => ⟨hspares hmem, hmem⟩⟩

end Confirmed

/-- What telling a pool of a block does. -/
structure Settles (p : Pool) (header : ChainedHeader) (block : Block) : Prop where
  /-- The pool as it was is the disjoint union of what is left, what is confirmed and what is listed
  as conflicted, each once. -/
  accounts : Accounts p (p.confirm header block).1 (p.confirm header block).2
  /-- Taken out are the transactions of the block and those that share an outpoint with one of them,
  not a coinbase. -/
  removed : ∀ (name : Hash) (t : PooledTx), p.txs[name]? = some t →
    ((p.confirm header block).1.txs[name]? = none ↔ t.tx ∈ block.txs ∨ block.Rivals t.tx)
  /-- If no two transactions of the block spend the same, the confirmed ones are those of the block,
  in whatever order it has them. -/
  confirmed : Unrivalled block.txs → ∀ ordered : Block, ordered.txs.Perm block.txs →
    ∀ (name : Hash) (t : PooledTx), (p.confirm header ordered).2.confirmed[name]? = some t ↔
      p.txs[name]? = some t ∧ t.tx ∈ block.txs

/-- A block takes out of the pool what it must, and nothing else, if no pooled transaction bears the
name of another one in the block. -/
theorem block_settles_pool {p : Pool} (run : p.Run) (header : ChainedHeader) {block : Block}
    (apart : ∀ tx ∈ block.txs, ∀ t : PooledTx, p.txs[tx.hash]? = some t → t.tx = tx) :
    p.Settles header block where
  accounts := (accounts_start p header).confirmTxs run.sound block.txs
  removed name t ht := by
    have htxs := run.sound.txs_confirmTxs ⟨header, ∅, []⟩ apart name
    have hnone : (p.confirm header block).1.txs[name]? = none ↔
        (p.confirm header block).1.txs[name]? ≠ some t := by
      constructor
      · intro h
        simp [h]
      · intro h
        refine Option.eq_none_iff_forall_ne_some.2 fun t' ht' => h ?_
        rw [ht', ← ((htxs t').1 ht').1, ht]
    rw [hnone, Ne, confirm, htxs, and_iff_right ht, Block.Rivals]
    have hmem : t.tx ∈ block.txs ↔ ∃ tx ∈ block.txs, tx.hash = name := by
      constructor
      · exact fun h => ⟨t.tx, h, (run.sound.named name t ht).2⟩
      · rintro ⟨tx, htx, hname⟩
        rwa [(run.sound.tx_eq_iff (apart tx htx) ht).2 hname]
    rw [hmem]
    push Not
    constructor
    · rintro ⟨tx, htx, h⟩
      by_cases hname : tx.hash = name
      · exact .inl ⟨tx, htx, hname⟩
      · exact .inr ⟨tx, htx, h hname⟩
    · rintro (⟨tx, htx, hname⟩ | ⟨tx, htx, h⟩)
      · exact ⟨tx, htx, fun hne => absurd hname hne⟩
      · exact ⟨tx, htx, fun _ => h⟩
  confirmed unrivalled ordered same name t := by
    have hconfirmed := run.sound.confirmed_confirmTxs (c := ⟨header, ∅, []⟩)
      (fun tx htx => apart tx (same.subset htx)) (unrivalled.perm same)
      (fun name t _ => by simp) name t
    rw [same.mem_iff] at hconfirmed
    exact hconfirmed.trans (or_iff_right (by simp))

/-- Two coins. -/
def twinCoins : Transaction := ⟨1, [⟨.null, [], 0xffffffff⟩], [⟨1, []⟩, ⟨1, []⟩], 0⟩

/-- Spends one of the coins; the lock time tells rivals apart. -/
def twinClaim (index lockTime : UInt32) : Transaction :=
  ⟨1, [⟨⟨twinCoins.hash, index⟩, [], 0xffffffff⟩], [⟨1, []⟩], lockTime⟩

def twinArchive : Archive := .add .empty ⟨soleGenesis.header, [twinCoins]⟩

/-- Both coins are there. -/
def twinTables : Tables :=
  (Tables.empty.insert .headers (Height.key 0) soleGenesis.encode).insert .unspent
    twinCoins.hash.bytes (UnspentTx.encode ⟨twinCoins.hash, 0, 0, .filled 2 .unspent⟩)

def twinDatabase : Database := { Database.fresh with committed := ⟨twinTables, 2⟩ }

/-- Each coin is claimed. -/
def twinPool : Pool :=
  (empty.offer twinArchive (.permissive fun _ => .accepted) twinDatabase (twinClaim 0 0)).offer
    twinArchive (.permissive fun _ => .accepted) twinDatabase (twinClaim 1 0)

/-- A rival of the second claim stands before the first one. -/
def twinBlock : Block := ⟨soleGenesis.header, [twinCoins, twinClaim 1 1, twinClaim 0 0]⟩

lemma twin_evaluated :
    twinPool.txs[(twinClaim 0 0).hash]? = some ⟨twinClaim 0 0, (twinClaim 0 0).hash, 0, 0⟩ ∧
    twinPool.txs[(twinClaim 1 0).hash]? = some ⟨twinClaim 1 0, (twinClaim 1 0).hash, 0, 0⟩ ∧
    (∀ tx ∈ twinBlock.txs, ∀ t ∈ twinPool.txs[tx.hash]?, t.tx = tx) ∧
    (∀ a ∈ twinBlock.txs, ∀ b ∈ twinBlock.txs, a.isCoinbase = false → b.isCoinbase = false →
      ∀ o ∈ a.prevouts, o ∈ b.prevouts → a = b) ∧
    (twinClaim 1 1).isCoinbase = false ∧ twinClaim 1 0 ∉ twinBlock.txs := by decide +kernel

lemma twinPool_run : twinPool.Run := by
  unfold twinPool
  exact (Run.empty.offered _ _ _ _).offered _ _ _ _

/-- The first claim is confirmed, the second one is in conflict, and neither is left. -/
theorem block_settles_pool_twins :
    (twinPool.confirm soleGenesis twinBlock).2.confirmed[(twinClaim 0 0).hash]? =
      some ⟨twinClaim 0 0, (twinClaim 0 0).hash, 0, 0⟩ ∧
    (twinClaim 1 0).hash ∈ (twinPool.confirm soleGenesis twinBlock).2.conflicted ∧
    (twinPool.confirm soleGenesis twinBlock).1.txs[(twinClaim 0 0).hash]? = none ∧
    (twinPool.confirm soleGenesis twinBlock).1.txs[(twinClaim 1 0).hash]? = none := by
  obtain ⟨hfirst, hsecond, hapart, hunrivalled, hspends, hout⟩ := twin_evaluated
  have settles := block_settles_pool twinPool_run soleGenesis hapart
  have hmem : twinClaim 0 0 ∈ twinBlock.txs := by simp [twinBlock]
  have hrivals : twinBlock.Rivals (twinClaim 1 0) :=
    ⟨twinClaim 1 1, by simp [twinBlock], hspends, _, List.mem_cons_self, List.mem_cons_self⟩
  have hgone := (settles.removed _ _ hsecond).2 (.inr hrivals)
  have hconfirmed := settles.confirmed hunrivalled twinBlock (.refl _)
  refine ⟨(hconfirmed _ _).2 ⟨hfirst, hmem⟩, ?_, (settles.removed _ _ hfirst).2 (.inl hmem), hgone⟩
  have hfate := settles.accounts.fate (twinClaim 1 0).hash
  rw [hsecond] at hfate
  cases hfate with
  | kept left => exact nomatch left.symm.trans hgone
  | confirmed _ confirmed => exact absurd ((hconfirmed _ _).1 confirmed).2 hout
  | evicted _ _ conflicted => exact conflicted

end Pool
end UtxoLedger

import Mathlib.Tactic.Common
import UtxoLedger.Proofs.MinedPool

/-!
# The index of the pool

The pool keeps two maps, from names to transactions and from outpoints to the names of those who
spend them. However transactions are offered and blocks are told of, the two say the same, and no
outpoint stands twice among the inputs of the pool. So the index alone decides who conflicts with
the pool, and the store is not asked for that.
-/
namespace UtxoLedger
namespace Pool

section Conflict

variable {archive : Archive} {rules : Rules} {db : Database} {s : Snapshot} {p : Pool}
  {tx : Transaction} {name : Hash}

lemma prevOutputs_ne_conflict {i : Nat} {inputs : List TxInput} :
    prevOutputs archive s i inputs ≠ .error (.rejected .conflict) := by
  intro h
  induction inputs generalizing i with
  | nil => cases h
  | cons input rest ih =>
    rw [prevOutputs, bind_eq_error] at h
    obtain h | ⟨u?, -, h⟩ := h
    · obtain ⟨e, -, he⟩ := mapError_eq_error.1 h
      cases he
    cases u? with
    | none => cases h
    | some u =>
      dsimp only at h
      split at h
      · cases h
      obtain h | ⟨output, -, h⟩ := bind_eq_error.1 h
      · obtain ⟨fault, -, he⟩ := mapError_eq_error.1 h
        cases he
      obtain h | ⟨more, -, h⟩ := bind_eq_error.1 h
      · exact ih h
      · cases h

lemma feeOver_ne_conflict {spent : List TxOutput} : feeOver tx spent ≠ .error .conflict := by
  unfold feeOver
  split
  · exact nofun
  · split
    · exact nofun
    · split <;> exact nofun

lemma askScripts_ne_conflict {verify : ScriptVerifier} {tip : ChainedHeader} {i : Nat}
    {spent : List TxOutput} :
    askScripts verify tip tx name i spent ≠ .error (.rejected .conflict) := by
  induction spent generalizing i with
  | nil => exact nofun
  | cons o rest ih =>
    unfold askScripts
    split
    · exact ih
    · exact nofun
    · exact nofun

/-- Judging a transaction against the store finds no conflict with the pool. -/
lemma judge_ne_conflict : judge archive rules db tx name ≠ .error (.rejected .conflict) := by
  intro h
  obtain h | ⟨s, -, h⟩ := bind_eq_error.1 h
  · obtain ⟨e, -, he⟩ := mapError_eq_error.1 h
    cases he
  obtain h | ⟨spent, -, h⟩ := bind_eq_error.1 h
  · exact prevOutputs_ne_conflict h
  obtain h | ⟨fee, -, h⟩ := bind_eq_error.1 h
  · obtain ⟨rejection, hfee, he⟩ := mapError_eq_error.1 h
    cases he
    exact feeOver_ne_conflict hfee
  obtain h | ⟨⟨⟩, -, h⟩ := bind_eq_error.1 h
  · exact askScripts_ne_conflict h
  · cases h

lemma rejection?_eq_conflict : p.rejection? tx name = some .conflict ↔
    p.txs[name]? = none ∧ ∃ o ∈ tx.prevouts, ∃ spender, p.spenders[o]? = some spender := by
  have hpooled : p.txs.contains name = true ↔ p.txs[name]? ≠ none := by
    rw [← Std.ExtTreeMap.isSome_getElem?_eq_contains, Option.isSome_iff_ne_none]
  have hclaimed : (tx.inputs.any fun input => p.spenders.contains input.prevout) = true ↔
      ∃ o ∈ tx.prevouts, ∃ spender, p.spenders[o]? = some spender := by
    simp [Transaction.prevouts, ← Std.ExtTreeMap.isSome_getElem?_eq_contains,
      Option.isSome_iff_exists]
  rw [← hclaimed, rejection?]
  by_cases hname : p.txs.contains name = true
  · rw [if_pos hname]
    simp [hpooled.1 hname]
  · rw [if_neg hname, and_iff_right (not_not.1 (mt hpooled.2 hname))]
    split <;> simp_all

/-- A transaction is refused for a conflict if the pool itself says so. -/
lemma accept_eq_conflict :
    (p.accept archive rules db tx).1 = .error (.rejected .conflict) ↔
      tx.isCoinbase = false ∧ tx.fault? = none ∧ p.rejection? tx tx.hash = some .conflict := by
  unfold accept
  dsimp only
  cases tx.isCoinbase with
  | true => simp
  | false =>
    cases tx.fault? with
    | some fault => simp
    | none =>
      cases p.rejection? tx tx.hash with
      | some rejection => simp
      | none =>
        simp only [Bool.false_eq_true, if_false, true_and, reduceCtorEq, iff_false]
        cases hjudge : judge archive rules db tx tx.hash with
        | ok t => exact nofun
        | error refusal =>
          rintro ⟨⟩
          exact judge_ne_conflict hjudge

end Conflict

/-- The transaction is pooled under its name. -/
def Holds (p : Pool) (tx : Transaction) : Prop := ∃ t, p.txs[tx.hash]? = some t

/-- The pooled transaction `t` spends the outpoint with its input at position `i`. -/
def SpentAt (p : Pool) (o : OutPoint) (t : PooledTx) (i : Nat) : Prop :=
  p.txs[t.hash]? = some t ∧ t.tx.prevouts[i]? = some o

/-- What holds of a pool, whatever was done with it, and what the next call does to it. -/
structure Exact (p : Pool) : Prop where
  /-- Every transaction stands under its own name. -/
  named : ∀ (name : Hash) (t : PooledTx), p.txs[name]? = some t → t.hash = name ∧ t.tx.hash = name
  /-- No outpoint is spent by two inputs, be they of two transactions or of one. -/
  once : ∀ o t i t' i', p.SpentAt o t i → p.SpentAt o t' i' → t = t' ∧ i = i'
  /-- The index maps the prevouts of the pooled transactions, and nothing else, each to the one that
  spends it. -/
  index : ∀ (o : OutPoint) (name : Hash), p.spenders[o]? = some name ↔
    ∃ t i, t.hash = name ∧ p.SpentAt o t i
  /-- A transaction within its limits conflicts exactly if it is not pooled and shares an outpoint
  with a pooled one; the store has no say in this. -/
  conflict : ∀ archive rules db tx, tx.isCoinbase = false → tx.fault? = none →
    ((p.accept archive rules db tx).1 = .error (.rejected .conflict) ↔
      ¬ p.Holds tx ∧ ∃ o ∈ tx.prevouts, ∃ t i, p.SpentAt o t i)
  /-- What is taken in is that transaction, and nothing else changes. -/
  entered : ∀ archive rules db tx p', p.accept archive rules db tx = (.ok (), p') →
    p.offer archive rules db tx = p' ∧
      ∃ t : PooledTx, t.tx = tx ∧ ∀ name : Hash,
        p'.txs[name]? = if tx.hash = name then some t else p.txs[name]?
  /-- A call that refuses the transaction, fails or crashes leaves the pool as it was. -/
  refused : ∀ archive rules db tx refusal, (p.accept archive rules db tx).1 = .error refusal →
    p.offer archive rules db tx = p

variable {p : Pool}

lemma Sound.once (hs : p.Sound) {o : OutPoint} {t t' : PooledTx} {i i' : Nat}
    (h : p.SpentAt o t i) (h' : p.SpentAt o t' i') : t = t' ∧ i = i' := by
  obtain ⟨ht, hi⟩ := h
  obtain ⟨ht', hi'⟩ := h'
  have hname := hs.name_eq ht ht' (List.mem_of_getElem? hi) (List.mem_of_getElem? hi')
  rw [hname, ht', Option.some.injEq] at ht
  subst ht
  obtain ⟨spends, limits⟩ := hs.spends _ _ ht'
  obtain ⟨hlt, hget⟩ := List.getElem?_eq_some_iff.1 hi
  obtain ⟨hlt', hget'⟩ := List.getElem?_eq_some_iff.1 hi'
  have hnodup := Transaction.prevouts_nodup limits spends
  exact ⟨rfl, (hnodup.getElem_inj_iff).1 (hget.trans hget'.symm)⟩

lemma Sound.exists_spentAt (hs : p.Sound) {o : OutPoint} {name : Hash} :
    p.spenders[o]? = some name ↔ ∃ t i, t.hash = name ∧ p.SpentAt o t i := by
  rw [hs.spenders]
  constructor
  · rintro ⟨t, ht, ho⟩
    obtain ⟨i, hi⟩ := List.getElem?_of_mem ho
    obtain ⟨rfl, -⟩ := hs.named name t ht
    exact ⟨t, i, rfl, ht, hi⟩
  · rintro ⟨t, i, rfl, ht, hi⟩
    exact ⟨t, ht, List.mem_of_getElem? hi⟩

/-- The index of a pool is exact after any calls: whatever transactions were offered to it, under
any rules and against any committed states, and whatever blocks it was told of, valid or not. -/
theorem pool_index_exact (run : p.Run) : p.Exact where
  named := run.sound.named
  once o t i t' i' h h' := run.sound.once h h'
  index o name := run.sound.exists_spentAt
  conflict archive rules db tx spends limits := by
    rw [accept_eq_conflict, and_iff_right spends, and_iff_right limits, rejection?_eq_conflict]
    have hpooled : p.txs[tx.hash]? = none ↔ ¬ p.Holds tx := by
      rw [Holds, ← Option.isSome_iff_exists, Bool.not_eq_true, Option.isSome_eq_false_iff,
        Option.isNone_iff_eq_none]
    simp only [hpooled, run.sound.exists_spentAt]
    simp
  entered archive rules db tx p' h := by
    obtain ⟨-, -, -, t, hjudge, rfl⟩ := accept_eq_ok.1 h
    obtain ⟨s, spent, fee, -, -, -, -, rfl⟩ := judge_eq_ok.1 hjudge
    exact ⟨congrArg Prod.snd h, _, rfl, fun name => txs_insert⟩
  refused archive rules db tx refusal h := accept_refused (Prod.ext h rfl)

/-- It spends what a pooled transaction spends. -/
def feeRival : Transaction := { feePaying 0 with lockTime := 1 }

/-- The rival of a pooled transaction is refused, whatever the store says, and the pool stays. -/
theorem pool_index_exact_rival : ∃ p : Pool, p.Run ∧
    p.spenders[(⟨feeCoins.hash, 0⟩ : OutPoint)]? = some (feePaying 0).hash ∧
    ∀ archive rules db, p.accept archive rules db feeRival = (.error (.rejected .conflict), p) := by
  obtain ⟨hpooled, hnew, spends, limits⟩ : feePoolFull.txs[(feePaying 0).hash]? =
      some (feePooled 0) ∧ feePoolFull.txs[feeRival.hash]? = none ∧
      feeRival.isCoinbase = false ∧ feeRival.fault? = none := by decide +kernel
  have exact := pool_index_exact feePoolFull_run
  have hspends : feePoolFull.SpentAt ⟨feeCoins.hash, 0⟩ (feePooled 0) 0 := ⟨hpooled, rfl⟩
  have hout : ¬ feePoolFull.Holds feeRival := by
    rintro ⟨t, ht⟩
    exact nomatch hnew.symm.trans ht
  refine ⟨_, feePoolFull_run, (exact.index _ _).2 ⟨_, _, rfl, hspends⟩, fun archive rules db => ?_⟩
  have hconflict := (exact.conflict archive rules db feeRival spends limits).2
    ⟨hout, ⟨feeCoins.hash, 0⟩, List.mem_cons_self, _, _, hspends⟩
  have hsame := exact.refused archive rules db feeRival _ hconflict
  exact Prod.ext hconflict hsame

end Pool
end UtxoLedger

import Mathlib.Tactic.Common
import UtxoLedger.Proofs.LedgerCalls

/-!
# Errors of a single step

A block that comes in or goes may be refused for many reasons. One of the inconsistencies is none of
them: that another header came off than the one that a navigation wanted. The instances follow the
definitions, down to the checks and reads that a step is made of; the rules of a ledger may word
their errors as they like.
-/
namespace UtxoLedger

/-- An inconsistency that a block may run into. -/
def Inconsistency.OfStep : Inconsistency → Prop
  | otherRolledBack _ _ => False
  | _ => True

/-- An error that a block may be refused with. -/
def LedgerError.OfStep : LedgerError → Prop
  | inconsistent fault => fault.OfStep
  | _ => True

/-- A check that fails with nothing else. -/
class ChecksStep {α : Type} (r : Except Inconsistency α) : Prop where
  ofStep : ∀ {fault}, r = .error fault → fault.OfStep

/-- A read that fails with nothing else. -/
class ReadsStep {α : Type} (r : Except LedgerError α) : Prop where
  ofStep : ∀ {e}, r = .error e → e.OfStep

section Reads

variable {α β : Type}

instance (a : α) : ReadsStep (.ok a : Except LedgerError α) := ⟨fun h => nomatch h⟩

instance (a : α) : ReadsStep (pure a : Except LedgerError α) := ⟨fun h => nomatch h⟩

instance (r : Except LedgerError α) (f : α → Except LedgerError β) [h : ReadsStep r]
    [hf : ∀ a, ReadsStep (f a)] : ReadsStep (r >>= f) where
  ofStep := by
    intro e he
    cases r with
    | error e' =>
      cases he
      exact h.ofStep rfl
    | ok a => exact (hf a).ofStep he

instance (r : Except LedgerError α) (f : α → β) [h : ReadsStep r] : ReadsStep (r.map f) where
  ofStep := by
    intro e he
    cases r with
    | error e' =>
      cases he
      exact h.ofStep rfl
    | ok a => exact nomatch he

namespace Tables

instance (name : TableName) (key : Bytes) (r : Except DecodeFault α) :
    ReadsStep (located name key r) where
  ofStep := by
    intro e he
    cases r with
    | error fault =>
      cases he
      trivial
    | ok a => exact nomatch he

instance (t : Tables) (name : TableName) (key : Bytes) (decode : Bytes → Except DecodeFault α) :
    ReadsStep (t.record? name key decode) := by
  unfold record?
  split <;> infer_instance

instance (t : Tables) (tx : Hash) : ReadsStep (t.unspent? tx) := by
  unfold unspent?
  infer_instance

instance (t : Tables) (height : Height) : ReadsStep (t.headerAt? height) := by
  unfold headerAt?
  infer_instance

instance (t : Tables) (height : Height) : ReadsStep (t.spent? height) := by
  unfold spent?
  infer_instance

instance (t : Tables) (block : Hash) : ReadsStep (t.unminted? block) := by
  unfold unminted?
  infer_instance

instance (t : Tables) : ReadsStep t.tip? := by
  unfold tip?
  split <;> infer_instance

instance (t : Tables) (c : Counter) : ReadsStep (t.counter c) where
  ofStep := by
    intro e he
    unfold counter at he
    split at he
    · exact nomatch he
    · split at he
      · exact nomatch he
      · cases he
        trivial

instance (t : Tables) : ReadsStep t.readCounters := by
  unfold readCounters
  infer_instance

end Tables

instance (t : Tables) (h : ChainedHeader) : ReadsStep (Journal.find? t h) where
  ofStep := by
    intro e he
    unfold Journal.find? at he
    cases hspent : t.spent? h.height with
    | error e' =>
      rw [hspent] at he
      cases he
      exact ReadsStep.ofStep hspent
    | ok spent =>
      cases hunminted : t.unminted? h.hash with
      | error e' =>
        rw [hspent, hunminted] at he
        cases he
        exact ReadsStep.ofStep hunminted
      | ok unminted =>
        rw [hspent, hunminted] at he
        cases spent <;> cases unminted <;> cases he <;> trivial

instance (t : Tables) (h : ChainedHeader) : ReadsStep (Journal.load t h) where
  ofStep := by
    intro e he
    unfold Journal.load at he
    cases hfind : Journal.find? t h with
    | error e' =>
      rw [hfind] at he
      cases he
      exact ReadsStep.ofStep hfind
    | ok found =>
      rw [hfind] at he
      cases found <;> cases he
      trivial

instance (r : ScriptReport) : ReadsStep r.result where
  ofStep := by
    intro e he
    unfold ScriptReport.result at he
    split at he <;> cases he
    trivial

end Reads

section Checks

instance (archive : Archive) (header : ChainedHeader) (block : Block) :
    ChecksStep (Locator.make archive header block) where
  ofStep := by
    intro fault hf
    unfold Locator.make at hf
    split at hf
    · exact nomatch hf
    · cases hf
      trivial

instance (l : Locator) (chain : Chain) (u : UnspentTx) : ChecksStep (l.placeOf chain u) where
  ofStep := by
    intro fault hf
    unfold Locator.placeOf at hf
    split at hf
    · exact nomatch hf
    · split at hf
      · exact nomatch hf
      · cases hf
        trivial

instance (l : Locator) (place : TxLocation) (tx : Hash) : ChecksStep (l.resolve place tx) where
  ofStep := by
    intro fault hf
    unfold Locator.resolve at hf
    dsimp only at hf
    repeat' split at hf
    all_goals cases hf <;> trivial

instance (cs : Counters) (c : Counter) (n : Nat) : ChecksStep (cs.lower c n) where
  ofStep := by
    intro fault hf
    unfold Counters.lower at hf
    split at hf <;> cases hf
    trivial

instance (u : UnspentTx) (o : OutPoint) : ChecksStep (Connecting.spentStates u o) where
  ofStep := by
    intro fault hf
    unfold Connecting.spentStates at hf
    split at hf <;> cases hf <;> trivial

instance (u : UnspentTx) (o : OutPoint) : ChecksStep (Disconnecting.unspentStates u o) where
  ofStep := by
    intro fault hf
    unfold Disconnecting.unspentStates at hf
    split at hf <;> cases hf
    trivial

lemma LoadedTx.ofStep_of_scriptItemsFrom {l : LoadedTx} {header : ChainedHeader}
    {inputs : List TxInput} {i : Nat} {fault : Inconsistency}
    (h : l.scriptItemsFrom header i inputs = .error fault) : fault.OfStep := by
  induction inputs generalizing i with
  | nil => exact nomatch h
  | cons input rest ih =>
    unfold scriptItemsFrom at h
    split at h
    · cases h
      trivial
    · split at h
      next hrest =>
        cases h
        exact ih hrest
      · exact nomatch h

instance (l : LoadedTx) (header : ChainedHeader) : ChecksStep (l.scriptItems header) where
  ofStep := by
    intro fault hf
    unfold LoadedTx.scriptItems at hf
    split at hf
    · exact nomatch hf
    · exact LoadedTx.ofStep_of_scriptItemsFrom hf

lemma Journal.ofStep_of_entryFault? {us : UnmintedList} {txs : List Transaction} {i : Nat}
    {fault : Inconsistency} (h : entryFault? i us txs = some fault) : fault.OfStep := by
  induction us generalizing i txs with
  | nil => exact nomatch h
  | cons u us ih =>
    cases txs with
    | nil => exact nomatch h
    | cons tx txs =>
      unfold entryFault? at h
      split at h
      · exact ih h
      · cases h
        trivial

instance (j : Journal) (b : Block) : ChecksStep (j.verify b) where
  ofStep := by
    intro fault hf
    unfold Journal.verify at hf
    split at hf
    · cases hf
      trivial
    · split at hf
      next hentry =>
        cases hf
        exact Journal.ofStep_of_entryFault? hentry
      · exact nomatch hf

end Checks

namespace StoreM

variable {α β : Type}

/-- Work that fails with nothing else. -/
class WorksStep (act : StoreM α) : Prop where
  ofStep : ∀ {s s' e}, act.on s = (.error e, s') → e.OfStep

/-- What the first part does not fail with, the second does. -/
lemma WorksStep.of_bind {act : StoreM α} (h : WorksStep act) {f : α → StoreM β} {s s' : Session}
    {e : LedgerError} (he : (act >>= f).on s = (.error e, s')) :
    e.OfStep ∨ ∃ a s₁, (f a).on s₁ = (.error e, s') := by
  rw [on_bind] at he
  split at he
  next a s₁ hact => exact .inr ⟨a, s₁, he⟩
  next e' s₁ hact =>
    cases he
    exact .inl (h.ofStep hact)

lemma WorksStep.bind {act : StoreM α} {f : α → StoreM β} (h : WorksStep act)
    (hf : ∀ a, WorksStep (f a)) : WorksStep (act >>= f) where
  ofStep he := by
    rcases h.of_bind he with hstep | ⟨a, s₁, he⟩
    · exact hstep
    · exact (hf a).ofStep he

instance (act : StoreM α) (f : α → StoreM β) [h : WorksStep act] [hf : ∀ a, WorksStep (f a)] :
    WorksStep (act >>= f) := h.bind hf

instance (p : Prop) [Decidable p] (act act' : StoreM α) [WorksStep act] [WorksStep act'] :
    WorksStep (if p then act else act') := by
  split <;> infer_instance

instance (f : Tables → Except LedgerError α) [h : ∀ t, ReadsStep (f t)] : WorksStep (read f) where
  ofStep he := (h _).ofStep (congrArg Prod.fst he)

instance (r : Except LedgerError α) [h : ReadsStep r] : WorksStep (lift r) :=
  inferInstanceAs (WorksStep (read fun _ => r))

instance (a : α) : WorksStep (pure a : StoreM α) :=
  inferInstanceAs (WorksStep (lift (.ok a)))

lemma worksStep_fail {e : LedgerError} (h : e.OfStep) : WorksStep (fail e : StoreM α) where
  ofStep he := by
    cases he
    exact h

instance (r : Except Inconsistency α) [h : ChecksStep r] : WorksStep (consistent r) where
  ofStep := by
    intro s s' e he
    cases r with
    | error fault =>
      cases he
      exact h.ofStep rfl
    | ok a => exact nomatch he

lemma worksStep_require {ok : Bool} {fault : Inconsistency} (h : fault.OfStep) :
    WorksStep (require ok fault) := by
  cases ok
  · exact worksStep_fail (e := .inconsistent fault) h
  · exact inferInstanceAs (WorksStep (lift (.ok ())))

instance (op : WriteOp) : WorksStep (touch op) where
  ofStep := by
    rintro ⟨db, cursor⟩ s' e he
    cases cursor <;> cases he <;> trivial

instance (f : Tables → Tables) : WorksStep (stage f) where
  ofStep := by
    rintro ⟨db, cursor⟩ s' e he
    cases cursor <;> cases he

instance (readOnly : Bool) : WorksStep (begin readOnly) where
  ofStep := by
    rintro ⟨db, cursor⟩ s' e he
    cases cursor with
    | idle =>
      cases readOnly with
      | true => exact nomatch he
      | false =>
        change (if db.writerOpen then _ else _) = _ at he
        split at he <;> cases he
        trivial
    | reading | writing =>
      cases he
      trivial

instance : WorksStep commit where
  ofStep := by
    rintro ⟨db, cursor⟩ s' e he
    cases cursor <;> cases he
    trivial

/-- What opening and closing a write transaction do not fail with, its work does. -/
lemma ofStep_of_atomically {body : StoreM α} {s s' : Session} {e : LedgerError}
    (he : (atomically body).on s = (.error e, s')) :
    e.OfStep ∨ ∃ s₁ s₂, body.on s₁ = (.error e, s₂) := by
  rw [on_atomically] at he
  split at he
  next s₁ hbegin =>
    split at he
    · exact nomatch he
    next e' s₂ hwork =>
      cases he
      rw [on_bind] at hwork
      split at hwork
      next a s₂ hbody => exact .inl (WorksStep.ofStep hwork)
      next e' s₂ hbody =>
        cases hwork
        exact .inr ⟨_, _, hbody⟩
  next e' s₁ hbegin =>
    cases he
    exact .inl (WorksStep.ofStep hbegin)

instance (op : WriteOp) (name : TableName) (key value : Bytes) :
    WorksStep (tryInsert op name key value) := by
  unfold tryInsert
  infer_instance

instance (op : WriteOp) (name : TableName) (key : Bytes) : WorksStep (tryErase op name key) := by
  unfold tryErase
  infer_instance

instance (h : ChainedHeader) : WorksStep (addHeader h) :=
  .bind inferInstance fun _ => worksStep_require trivial

instance (h : ChainedHeader) : WorksStep (removeHeader h) :=
  .bind inferInstance fun stored => by
    cases stored with
    | none => exact worksStep_fail trivial
    | some stored => exact .bind (worksStep_require trivial) fun _ => inferInstance

instance (u : UnspentTx) : WorksStep (tryAddUnspent u) := by
  unfold tryAddUnspent
  infer_instance

instance (tx : Hash) : WorksStep (tryRemoveUnspent tx) := by
  unfold tryRemoveUnspent
  infer_instance

instance (u : UnspentTx) : WorksStep (tryUpdateUnspent u) :=
  .bind inferInstance fun _ => .bind inferInstance fun stored => by
    cases stored <;> infer_instance

instance (values : Counters) (cs : List Counter) : WorksStep (writeEach values cs) := by
  induction cs with
  | nil => exact inferInstanceAs (WorksStep (pure ()))
  | cons c cs ih =>
    have hwrite : WorksStep (writeCounter c (values.get c)) := by
      unfold writeCounter
      infer_instance
    exact hwrite.bind fun _ => ih

instance (expected : Hash) (height : Height) : WorksStep (checkTip expected height) :=
  .bind inferInstance fun tip => by
    cases tip with
    | none => exact worksStep_fail trivial
    | some tip => exact worksStep_require trivial

end StoreM

open StoreM (WorksStep worksStep_fail worksStep_require)

instance {σ α : Type} (work : σ → α → StoreM (LoadedTx × σ)) [∀ s a, WorksStep (work s a)]
    (state : σ) (items : List α) : WorksStep (Progress.workOff work state items) := by
  induction items generalizing state with
  | nil => exact inferInstanceAs (WorksStep (pure state))
  | cons a rest ih => exact .bind inferInstance fun _ => ih _

namespace Journal

instance (j : Journal) (h : ChainedHeader) : WorksStep (j.write h) := by
  have hspent : WorksStep (writeSpent h.height j.spent) := by
    unfold writeSpent StoreM.tryAddSpent
    exact .bind inferInstance fun added => by
      cases added
      · exact .bind inferInstance fun _ => worksStep_require trivial
      · exact inferInstanceAs (WorksStep (pure ()))
  have hunminted : WorksStep (writeUnminted h.hash j.unminted) := by
    unfold writeUnminted StoreM.tryAddUnminted
    exact .bind inferInstance fun added => by
      cases added
      · exact .bind inferInstance fun _ => worksStep_require trivial
      · exact inferInstanceAs (WorksStep (pure ()))
  exact hspent.bind fun _ => hunminted

instance (h : ChainedHeader) : WorksStep (erase h) := by
  unfold erase StoreM.tryRemoveSpent StoreM.tryRemoveUnminted
  infer_instance

instance (h : ChainedHeader) : WorksStep (prune h) := by
  unfold prune
  infer_instance

instance (h : ChainedHeader) : WorksStep (remove h) :=
  .bind inferInstance fun _ => worksStep_require trivial

end Journal

namespace Connecting

instance (archive : Archive) (chain : Chain) (header : ChainedHeader) (block : Block) :
    WorksStep (start archive chain header block) := by
  unfold start
  split
  · exact .bind (worksStep_fail trivial) fun _ => inferInstance
  · infer_instance

instance (c : Connecting) (o : OutPoint) : WorksStep (c.spend o) :=
  .bind inferInstance fun found => by
    cases found with
    | none => exact worksStep_fail trivial
    | some u =>
      refine .bind inferInstance fun states => .bind inferInstance fun counters =>
        .bind inferInstance fun place => ?_
      split
      · exact .bind inferInstance fun _ => .bind (worksStep_require trivial) fun _ =>
          inferInstance
      · exact .bind inferInstance fun _ => .bind (worksStep_require trivial) fun _ =>
          inferInstance

instance (c : Connecting) (inputs : List TxInput) : WorksStep (c.spendAll inputs) := by
  induction inputs generalizing c with
  | nil => exact inferInstanceAs (WorksStep (pure _))
  | cons input rest ih => exact .bind inferInstance fun _ => .bind (ih _) fun _ => inferInstance

instance (c : Connecting) (tx : Transaction) (hash : Hash) : WorksStep (c.mint tx hash) := by
  unfold mint
  split
  · infer_instance
  · exact .bind inferInstance fun _ => .bind (worksStep_require trivial) fun _ => inferInstance

instance (c : Connecting) (tx : Transaction) : WorksStep (c.connect tx) :=
  .bind inferInstance fun _ => .bind (worksStep_require trivial) fun _ => inferInstance

instance (c : Connecting) : WorksStep c.close := by
  unfold close StoreM.writeCounters
  infer_instance

end Connecting

namespace Disconnecting

instance (l : Locator) (places : Std.ExtTreeMap Hash TxLocation) (counters : Counters)
    (txs : SpentList) : WorksStep (restore l places counters txs) := by
  induction txs generalizing counters with
  | nil => exact inferInstanceAs (WorksStep (pure counters))
  | cons tx rest ih =>
    unfold restore
    cases places[tx]? with
    | none => exact worksStep_fail trivial
    | some place =>
      exact .bind inferInstance fun _ => .bind inferInstance fun _ =>
        .bind (worksStep_require trivial) fun _ => ih _

instance (archive : Archive) (header : ChainedHeader) (block : Block) :
    WorksStep (start archive header block) := by
  unfold start
  infer_instance

instance (d : Disconnecting) (tx : Transaction) (hash : Hash) : WorksStep (d.unmint tx hash) := by
  unfold unmint
  split
  · infer_instance
  · exact .bind inferInstance fun found => by
      cases found with
      | none => exact worksStep_fail trivial
      | some u => exact .bind (worksStep_require trivial) fun _ => inferInstance

instance (d : Disconnecting) (o : OutPoint) (place : TxLocation) :
    WorksStep (d.unspend o place) :=
  .bind inferInstance fun found => by
    cases found with
    | none => exact worksStep_fail trivial
    | some u => infer_instance

instance (d : Disconnecting) (spent : List (TxInput × TxLocation)) :
    WorksStep (d.unspendAll spent) := by
  induction spent generalizing d with
  | nil => exact inferInstanceAs (WorksStep (pure _))
  | cons s rest ih => exact .bind inferInstance fun _ => .bind (ih _) fun _ => inferInstance

instance (d : Disconnecting) (item : Transaction × Nat) : WorksStep (d.disconnect item) := by
  unfold disconnect
  infer_instance

instance (txs : SpentList) : WorksStep (checkRestored txs) := by
  induction txs with
  | nil => exact inferInstanceAs (WorksStep (pure ()))
  | cons tx rest ih =>
    exact .bind inferInstance fun found => by
      cases found with
      | none => exact ih
      | some u => exact .bind (worksStep_require trivial) fun _ => ih

instance (d : Disconnecting) : WorksStep d.close := by
  unfold close StoreM.writeCounters
  infer_instance

instance (d : Disconnecting) : WorksStep (finish d.progress) :=
  .bind (inferInstanceAs (WorksStep (Progress.workOff disconnect d _))) fun _ => inferInstance

end Disconnecting

namespace Ledger

variable {archive : Archive} {header : ChainedHeader} {s s' : LedgerSession} {e : LedgerError}

instance (header : ChainedHeader) (c : Connecting) (txs : List Transaction) :
    WorksStep (loadAll header c txs) := by
  induction txs generalizing c with
  | nil => exact inferInstanceAs (WorksStep (pure _))
  | cons tx rest ih =>
    exact .bind inferInstance fun _ => .bind inferInstance fun _ => .bind (ih _) fun _ =>
      inferInstance

/-- A block is refused on the way in with what its rules say, or with an error of the step. -/
lemma ofStep_of_connectBlock {l : Ledger} {block : Block} {s s' : Session}
    (he : (l.connectBlock archive header block).on s = (.error e, s')) :
    e.OfStep ∨ ∃ loaded, l.rules.checkBlock header block loaded = .error e := by
  unfold connectBlock at he
  rcases WorksStep.of_bind inferInstance he with hstep | ⟨c, s₁, he⟩
  · exact .inl hstep
  rcases WorksStep.of_bind inferInstance he with hstep | ⟨⟨loaded, items, c⟩, s₁, he⟩
  · exact .inl hstep
  rcases WorksStep.of_bind inferInstance he with hstep | ⟨-, s₁, he⟩
  · exact .inl hstep
  rcases WorksStep.of_bind inferInstance he with hstep | ⟨-, s₁, he⟩
  · exact .inl hstep
  cases hrules : l.rules.checkBlock header block loaded with
  | error e' =>
    rw [hrules] at he
    cases he
    exact .inr ⟨loaded, hrules⟩
  | ok =>
    rw [hrules] at he
    rcases WorksStep.of_bind inferInstance he with hstep | ⟨-, s₁, he⟩
    · exact .inl hstep
    split at he
    · rcases WorksStep.of_bind inferInstance he with hstep | ⟨-, s₁, he⟩
      · exact .inl hstep
      · cases he
    · cases he

instance (archive : Archive) (header : ChainedHeader) (block : Block) :
    WorksStep (disconnectBlock archive header block) := by
  unfold disconnectBlock
  infer_instance

lemma on_countBlock_ne_error (s : LedgerSession) : countBlock.on s ≠ (.error e, s') := by
  have hcount : countBlock.on s =
      (if 0 < s.ledger.settings.flushInterval.toNat ∧
          s.ledger.settings.flushInterval.toNat ≤ s.ledger.blocksSinceFlush + 1 then flush
        else pure ()).on
        { s with ledger.blocksSinceFlush := s.ledger.blocksSinceFlush + 1 } := rfl
  rw [hcount]
  split <;> exact fun h => nomatch h

/-- What the store refuses to a ledger, it refuses to a session. -/
lemma exists_of_on_store {α : Type} {act : StoreM α}
    (he : (LedgerM.store act).on s = (.error e, s')) :
    ∃ s₁, act.on ⟨s.db, s.ledger.cursor⟩ = (.error e, s₁) := by
  have hfst : (act.on ⟨s.db, s.ledger.cursor⟩).1 = .error e := congrArg Prod.fst he
  exact ⟨_, Prod.ext hfst rfl⟩

/-- A ledger that brings a block in fails with what its rules say, or with an error of the step. -/
theorem ofStep_of_add (he : (add archive header).on s = (.error e, s')) :
    e.OfStep ∨ ∃ block loaded, s.ledger.rules.checkBlock header block loaded = .error e := by
  unfold add at he
  cases hfound : archive.block? header.hash with
  | none =>
    rw [LedgerM.on_bind_of_error (on_fetch_of_none hfound s)] at he
    cases he
    exact .inl trivial
  | some block =>
    rw [LedgerM.on_bind_of_ok (on_fetch_of_some hfound s),
      LedgerM.on_bind_of_ok (LedgerM.on_ledger s), LedgerM.on_bind] at he
    split at he
    next s₁ hstore =>
      cases hchain : s.ledger.chain.add header with
      | error fault =>
        rw [hchain] at he
        cases he
        exact .inl trivial
      | ok chain =>
        rw [hchain] at he
        exact absurd he (on_countBlock_ne_error _)
    next e' s₁ hstore =>
      cases he
      obtain ⟨s₂, hon⟩ := exists_of_on_store hstore
      rcases StoreM.ofStep_of_atomically hon with hstep | ⟨s₃, s₄, hbody⟩
      · exact .inl hstep
      rcases ofStep_of_connectBlock hbody with hstep | ⟨loaded, hrules⟩
      · exact .inl hstep
      · exact .inr ⟨block, loaded, hrules⟩

theorem ofStep_of_removeTip (he : (removeTip archive).on s = (.error e, s')) : e.OfStep := by
  rw [removeTip, LedgerM.on_bind_of_ok (LedgerM.on_ledger s)] at he
  dsimp only at he
  split at he
  · cases he
    trivial
  · cases hfound : archive.block? s.ledger.chain.tip.hash with
    | none =>
      rw [LedgerM.on_bind_of_error (on_fetch_of_none hfound s)] at he
      cases he
      trivial
    | some block =>
      rw [LedgerM.on_bind_of_ok (on_fetch_of_some hfound s), LedgerM.on_bind] at he
      split at he
      next s₁ hstore =>
        cases hchain : s.ledger.chain.remove s.ledger.chain.tip with
        | error fault =>
          rw [hchain] at he
          cases he
          trivial
        | ok chain =>
          rw [hchain] at he
          cases he
      next e' s₁ hstore =>
        cases he
        obtain ⟨s₂, hon⟩ := exists_of_on_store hstore
        rcases StoreM.ofStep_of_atomically hon with hstep | ⟨s₃, s₄, hbody⟩
        · exact hstep
        · exact WorksStep.ofStep hbody

end Ledger
end UtxoLedger

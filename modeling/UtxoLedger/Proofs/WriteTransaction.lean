import Mathlib.Tactic.Common
import UtxoLedger.Ledger

/-!
# Work inside a write transaction

Work that only reads and stages sees nothing of a session but the staged tables. Its result and the
tables that it leaves are then a function of the tables that it starts from, the database keeps as
it is, and the transaction stays open, also after an error. `Staging` is this property, and
`staged` is that function. A write transaction around such work publishes the tables that it leaves
or restores the session.
-/
namespace UtxoLedger

lemma bind_eq_ok {ε α β : Type} {x : Except ε α} {f : α → Except ε β} {b : β} :
    (x >>= f) = .ok b ↔ ∃ a, x = .ok a ∧ f a = .ok b := by
  cases x <;> simp [bind, Except.bind]

lemma bind_eq_error {ε α β : Type} {x : Except ε α} {f : α → Except ε β} {e : ε} :
    (x >>= f) = .error e ↔ x = .error e ∨ ∃ a, x = .ok a ∧ f a = .error e := by
  cases x <;> simp [bind, Except.bind]

lemma map_eq_ok {ε α β : Type} {x : Except ε α} {f : α → β} {b : β} :
    x.map f = .ok b ↔ ∃ a, x = .ok a ∧ f a = b := by
  cases x <;> simp [Except.map]

lemma mapError_eq_ok {ε ε' α : Type} {x : Except ε α} {f : ε → ε'} {a : α} :
    x.mapError f = .ok a ↔ x = .ok a := by
  cases x <;> simp [Except.mapError]

lemma mapError_eq_error {ε ε' α : Type} {x : Except ε α} {f : ε → ε'} {e : ε'} :
    x.mapError f = .error e ↔ ∃ e', x = .error e' ∧ f e' = e := by
  cases x <;> simp [Except.mapError]

lemma toOption_eq_some {ε α : Type} {x : Except ε α} {a : α} :
    x.toOption = some a ↔ x = .ok a := by
  cases x <;> simp [Except.toOption]

namespace StoreM

variable {α β : Type}

@[simp] lemma on_pure (a : α) (s : Session) : (pure a : StoreM α).on s = (.ok a, s) := rfl

@[simp] lemma on_lift (r : Except LedgerError α) (s : Session) : (lift r).on s = (r, s) := rfl

@[simp] lemma on_fail (e : LedgerError) (s : Session) :
    (fail e : StoreM α).on s = (.error e, s) := rfl

lemma on_bind (act : StoreM α) (f : α → StoreM β) (s : Session) :
    (act >>= f).on s = match act.on s with
      | (.ok a, s') => (f a).on s'
      | (.error e, s') => (.error e, s') := by
  change (ExceptT.bindCont f (act.on s).1) (act.on s).2 = _
  rcases act.on s with ⟨_ | a, s'⟩ <;> rfl

lemma on_bind_eq_ok {act : StoreM α} {f : α → StoreM β} {s s' : Session} {b : β} :
    (act >>= f).on s = (.ok b, s') ↔
      ∃ a s₁, act.on s = (.ok a, s₁) ∧ (f a).on s₁ = (.ok b, s') := by
  rw [on_bind]
  rcases act.on s with ⟨_ | a, s₁⟩ <;> simp

lemma on_eq_of_fst {act : StoreM α} {s : Session} {a : α} (h : (act.on s).1 = .ok a) :
    act.on s = (.ok a, (act.on s).2) := Prod.ext h rfl

/-- What work in a write transaction over `t` returns, with the tables that it leaves staged. -/
def staged (act : StoreM α) (t : Tables) : Except LedgerError (α × Tables) :=
  match act.on ⟨.fresh, .writing t true⟩ with
  | (.ok a, s) => .ok (a, s.view)
  | (.error e, _) => .error e

/-- The session `x` comes from staging over `db`: `r` says what came out. A transaction that was
touched stays touched, and one that failed is still open, over tables that do not matter any
more. -/
def Outcome (r : Except LedgerError (α × Tables)) (db : Database) (touched : Bool)
    (x : Except LedgerError α × Session) : Prop :=
  match r with
  | .ok (a, t) => ∃ touched', (touched = true → touched' = true) ∧
      x = (.ok a, ⟨db, .writing t touched'⟩)
  | .error e => ∃ t touched', x = (.error e, ⟨db, .writing t touched'⟩)

/-- In a write transaction the work sees the staged tables alone, and changes nothing else. -/
class Staging (act : StoreM α) : Prop where
  outcome (db : Database) (t : Tables) (touched : Bool) :
    Outcome (act.staged t) db touched (act.on ⟨db, .writing t touched⟩)

lemma staged_of_outcome {act : StoreM α} {t : Tables} {r : Except LedgerError (α × Tables)}
    (h : Outcome r .fresh true (act.on ⟨.fresh, .writing t true⟩)) : act.staged t = r := by
  unfold staged
  cases r with
  | ok p =>
    obtain ⟨touched, -, h⟩ := h
    rw [h]
    rfl
  | error e =>
    obtain ⟨t', touched, h⟩ := h
    rw [h]

/-- Work is staging if one function of the tables says what comes out of it in every session. -/
lemma Staging.of_outcome {act : StoreM α} (r : Tables → Except LedgerError (α × Tables))
    (h : ∀ db t touched, Outcome (r t) db touched (act.on ⟨db, .writing t touched⟩)) :
    Staging act where
  outcome db t touched := by
    rw [staged_of_outcome (h .fresh t true)]
    exact h db t touched

section Session

variable {act : StoreM α} [Staging act] {db : Database} {t t' : Tables} {touched : Bool} {a : α}

lemma staged_of_on {s : Session} (h : act.on ⟨db, .writing t touched⟩ = (.ok a, s)) :
    ∃ t' touched', act.staged t = .ok (a, t') ∧ s = ⟨db, .writing t' touched'⟩ := by
  have hout := ‹Staging act›.outcome db t touched
  cases hr : act.staged t with
  | ok p =>
    rw [hr] at hout
    obtain ⟨touched', -, hon⟩ := hout
    cases h.symm.trans hon
    exact ⟨p.2, touched', rfl, rfl⟩
  | error e =>
    rw [hr] at hout
    obtain ⟨t', touched', hon⟩ := hout
    exact nomatch h.symm.trans hon

lemma on_of_staged (h : act.staged t = .ok (a, t')) (db : Database) (touched : Bool) :
    ∃ touched', act.on ⟨db, .writing t touched⟩ = (.ok a, ⟨db, .writing t' touched'⟩) := by
  have hout := ‹Staging act›.outcome db t touched
  rw [h] at hout
  obtain ⟨touched', -, hon⟩ := hout
  exact ⟨touched', hon⟩

end Session

lemma staged_bind (act : StoreM α) (f : α → StoreM β) [Staging act] (t : Tables) :
    (act >>= f).staged t = act.staged t >>= fun p => (f p.1).staged p.2 := by
  have h := ‹Staging act›.outcome .fresh t true
  unfold staged
  rw [on_bind]
  cases hr : act.staged t with
  | ok p =>
    rw [hr] at h
    obtain ⟨touched, htouched, h⟩ := h
    cases htouched rfl
    rw [h]
    rfl
  | error e =>
    rw [hr] at h
    obtain ⟨t', touched, h⟩ := h
    rw [h]
    rfl

lemma staged_bind_eq_ok {act : StoreM α} {f : α → StoreM β} [Staging act] {t t' : Tables} {b : β} :
    (act >>= f).staged t = .ok (b, t') ↔
      ∃ a u, act.staged t = .ok (a, u) ∧ (f a).staged u = .ok (b, t') := by
  rw [staged_bind, bind_eq_ok]
  exact ⟨fun ⟨p, h⟩ => ⟨p.1, p.2, h⟩, fun ⟨a, u, h⟩ => ⟨(a, u), h⟩⟩

lemma Staging.bind {act : StoreM α} {f : α → StoreM β} (h : Staging act)
    (hf : ∀ a, Staging (f a)) : Staging (act >>= f) where
  outcome db t touched := by
    have h := h.outcome db t touched
    rw [staged_bind, on_bind]
    cases hr : act.staged t with
    | ok p =>
      rw [hr] at h
      obtain ⟨touched', htouched, h⟩ := h
      rw [h]
      have h' := (hf p.1).outcome db p.2 touched'
      change Outcome ((f p.1).staged p.2) db touched ((f p.1).on ⟨db, .writing p.2 touched'⟩)
      cases hr' : (f p.1).staged p.2 with
      | ok q =>
        rw [hr'] at h'
        obtain ⟨touched'', htouched', h'⟩ := h'
        exact ⟨touched'', htouched' ∘ htouched, h'⟩
      | error e =>
        rw [hr'] at h'
        exact h'
    | error e =>
      rw [hr] at h
      obtain ⟨t', touched', h⟩ := h
      rw [h]
      exact ⟨t', touched', rfl⟩

instance (act : StoreM α) (f : α → StoreM β) [h : Staging act] [hf : ∀ a, Staging (f a)] :
    Staging (act >>= f) := h.bind hf

section Steps

variable {t t' : Tables}

instance (p : Prop) [Decidable p] (act act' : StoreM α) [Staging act] [Staging act'] :
    Staging (if p then act else act') := by
  split <;> infer_instance

instance (a : α) : Staging (pure a : StoreM α) :=
  .of_outcome (fun t => .ok (a, t)) fun _ _ touched => ⟨touched, id, rfl⟩

@[simp] lemma staged_pure (a : α) : (pure a : StoreM α).staged t = .ok (a, t) := rfl

lemma outcome_read (f : Tables → Except LedgerError α) (db : Database) (t : Tables)
    (touched : Bool) :
    Outcome ((f t).map (·, t)) db touched ((read f).on ⟨db, .writing t touched⟩) := by
  change Outcome _ db touched (f t, _)
  cases f t with
  | ok a => exact ⟨touched, id, rfl⟩
  | error e => exact ⟨t, touched, rfl⟩

instance (f : Tables → Except LedgerError α) : Staging (read f) := .of_outcome _ (outcome_read f)

lemma staged_read (f : Tables → Except LedgerError α) : (read f).staged t = (f t).map (·, t) :=
  staged_of_outcome (outcome_read f .fresh t true)

@[simp] lemma staged_read_eq_ok {f : Tables → Except LedgerError α} {a : α} :
    (read f).staged t = .ok (a, t') ↔ f t = .ok a ∧ t' = t := by
  rw [staged_read, map_eq_ok]
  constructor
  · rintro ⟨b, hb, heq⟩
    cases heq
    exact ⟨hb, rfl⟩
  · rintro ⟨hf, rfl⟩
    exact ⟨a, hf, rfl⟩

lemma lift_eq_read (r : Except LedgerError α) : lift r = read fun _ => r := rfl

instance (r : Except LedgerError α) : Staging (lift r) := by
  rw [lift_eq_read]
  infer_instance

@[simp] lemma staged_lift_eq_ok {r : Except LedgerError α} {a : α} :
    (lift r).staged t = .ok (a, t') ↔ r = .ok a ∧ t' = t := by
  rw [lift_eq_read, staged_read_eq_ok]

instance (e : LedgerError) : Staging (fail e : StoreM α) :=
  inferInstanceAs (Staging (lift (.error e)))

@[simp] lemma staged_fail (e : LedgerError) : (fail e : StoreM α).staged t = .error e := rfl

instance (r : Except Inconsistency α) : Staging (consistent r) :=
  inferInstanceAs (Staging (lift _))

@[simp] lemma staged_consistent_eq_ok {r : Except Inconsistency α} {a : α} :
    (consistent r).staged t = .ok (a, t') ↔ r = .ok a ∧ t' = t := by
  rw [consistent, staged_lift_eq_ok, mapError_eq_ok]

instance (ok : Bool) (fault : Inconsistency) : Staging (require ok fault) := by
  unfold require
  infer_instance

@[simp] lemma staged_require_eq_ok {ok : Bool} {fault : Inconsistency} {u : Unit} :
    (require ok fault).staged t = .ok (u, t') ↔ ok = true ∧ t' = t := by
  cases ok <;> simp [require]

instance (op : WriteOp) : Staging (touch op) :=
  .of_outcome (fun t => .ok ((), t)) fun _ _ _ => ⟨true, fun _ => rfl, rfl⟩

@[simp] lemma staged_touch (op : WriteOp) : (touch op).staged t = .ok ((), t) := rfl

instance (f : Tables → Tables) : Staging (stage f) :=
  .of_outcome (fun t => .ok ((), f t)) fun _ _ touched => ⟨touched, id, rfl⟩

instance (op : WriteOp) (name : TableName) (key value : Bytes) :
    Staging (tryInsert op name key value) := by
  unfold tryInsert
  infer_instance

/-- An insertion takes place exactly if the key is free. -/
@[simp] lemma staged_tryInsert (op : WriteOp) (name : TableName) (key value : Bytes) :
    (tryInsert op name key value).staged t = .ok (if t.contains name key then (false, t)
      else (true, t.insert name key value)) := by
  unfold tryInsert
  rw [staged_bind, staged_touch]
  change (read _ >>= _).staged t = _
  rw [staged_bind, staged_read]
  change (if t.contains name key then _ else _ : StoreM Bool).staged t = _
  split <;> rfl

instance (op : WriteOp) (name : TableName) (key : Bytes) : Staging (tryErase op name key) := by
  unfold tryErase
  infer_instance

end Steps

section Sequels

variable {t t' : Tables} {b : β}

lemma staged_fail_bind (e : LedgerError) (f : α → StoreM β) (t : Tables) :
    (fail e >>= f).staged t = .error e := rfl

lemma staged_read_bind_eq_ok {g : Tables → Except LedgerError α} {f : α → StoreM β} :
    (read g >>= f).staged t = .ok (b, t') ↔ ∃ a, g t = .ok a ∧ (f a).staged t = .ok (b, t') := by
  simp only [staged_bind_eq_ok, staged_read_eq_ok]
  constructor
  · rintro ⟨a, u, ⟨hg, rfl⟩, h⟩
    exact ⟨a, hg, h⟩
  · rintro ⟨a, hg, h⟩
    exact ⟨a, t, ⟨hg, rfl⟩, h⟩

lemma staged_lift_bind_eq_ok {r : Except LedgerError α} {f : α → StoreM β} :
    (lift r >>= f).staged t = .ok (b, t') ↔ ∃ a, r = .ok a ∧ (f a).staged t = .ok (b, t') := by
  rw [lift_eq_read, staged_read_bind_eq_ok]

lemma staged_consistent_bind_eq_ok {r : Except Inconsistency α} {f : α → StoreM β} :
    (consistent r >>= f).staged t = .ok (b, t') ↔
      ∃ a, r = .ok a ∧ (f a).staged t = .ok (b, t') := by
  simp only [consistent, staged_lift_bind_eq_ok, mapError_eq_ok]

lemma staged_require_bind_eq_ok {ok : Bool} {fault : Inconsistency} {f : Unit → StoreM β} :
    (require ok fault >>= f).staged t = .ok (b, t') ↔
      ok = true ∧ (f ()).staged t = .ok (b, t') := by
  simp only [staged_bind_eq_ok, staged_require_eq_ok]
  constructor
  · rintro ⟨x, u, ⟨hok, rfl⟩, h⟩
    exact ⟨hok, h⟩
  · rintro ⟨hok, h⟩
    exact ⟨(), t, ⟨hok, rfl⟩, h⟩

lemma staged_touch_bind (op : WriteOp) (f : Unit → StoreM β) (t : Tables) :
    (touch op >>= f).staged t = (f ()).staged t := rfl

lemma staged_tryInsert_bind (op : WriteOp) (name : TableName) (key value : Bytes)
    (f : Bool → StoreM β) (t : Tables) :
    (tryInsert op name key value >>= f).staged t = if t.contains name key then (f false).staged t
      else (f true).staged (t.insert name key value) := by
  rw [staged_bind, staged_tryInsert]
  split <;> rfl

lemma staged_tryErase_bind (op : WriteOp) (name : TableName) (key : Bytes) (f : Bool → StoreM β)
    (t : Tables) : (tryErase op name key >>= f).staged t =
      (f (t.contains name key)).staged (t.erase name key) := rfl

end Sequels

lemma on_commit (db : Database) (t : Tables) (touched : Bool) :
    ∃ n, commit.on ⟨db, .writing t touched⟩ =
      (.ok (), ⟨{ db with committed := ⟨t, n⟩, writerOpen := false }, .idle⟩) :=
  ⟨_, rfl⟩

lemma on_atomically (body : StoreM α) (s : Session) :
    (atomically body).on s = match (begin false).on s with
      | (.ok _, s') => (match (body >>= fun a => commit >>= fun _ => pure a).on s' with
        | (.ok a, s) => (.ok a, s)
        | (.error e, s) => (.error e, s.release))
      | (.error e, s') => (.error e, s') := by
  rw [atomically, on_bind]
  rcases (begin false).on s with ⟨_ | _, s'⟩ <;> rfl

lemma on_atomically_busy {db : Database} (busy : db.writerOpen = true) (body : StoreM α) :
    (atomically body).on ⟨db, .idle⟩ = (.error (.transactionState .writerBusy), ⟨db, .idle⟩) := by
  have h : (begin false).on ⟨db, .idle⟩ =
      (.error (.transactionState .writerBusy), ⟨db, .idle⟩) := by
    change (if db.writerOpen then _ else _) = _
    rw [if_pos busy]
  rw [on_atomically, h]

/-- A write transaction publishes what its body leaves staged; if the body fails, the session is as
before. -/
lemma on_atomically_free {db : Database} (free : db.writerOpen = false) (body : StoreM α)
    [Staging body] :
    (∃ a t n, body.staged db.committed.tables = .ok (a, t) ∧
      (atomically body).on ⟨db, .idle⟩ = (.ok a, ⟨{ db with committed := ⟨t, n⟩ }, .idle⟩)) ∨
    (∃ e, body.staged db.committed.tables = .error e ∧
      (atomically body).on ⟨db, .idle⟩ = (.error e, ⟨db, .idle⟩)) := by
  obtain ⟨committed, flushed, writerOpen, flushes⟩ := db
  subst free
  have hb : (begin false).on ⟨⟨committed, flushed, false, flushes⟩, .idle⟩ =
      (.ok (), ⟨⟨committed, flushed, true, flushes⟩, .writing committed.tables false⟩) := rfl
  rw [on_atomically, hb]
  dsimp only
  have h := ‹Staging body›.outcome ⟨committed, flushed, true, flushes⟩ committed.tables false
  cases hr : body.staged committed.tables with
  | ok p =>
    rw [hr] at h
    obtain ⟨touched, -, h⟩ := h
    obtain ⟨n, hn⟩ := on_commit ⟨committed, flushed, true, flushes⟩ p.2 touched
    exact .inl ⟨p.1, p.2, n, rfl, by simp only [on_bind, h, hn, on_pure]⟩
  | error e =>
    rw [hr] at h
    obtain ⟨t, touched, h⟩ := h
    refine .inr ⟨e, rfl, ?_⟩
    simp only [on_bind, h]
    rfl

end StoreM
end UtxoLedger

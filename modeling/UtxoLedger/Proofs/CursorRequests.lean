import Mathlib.Tactic.Common
import UtxoLedger.Proofs.WriteTransaction
import UtxoLedger.Store.Requests

/-!
# One request of a cursor

A request begins a transaction, ends one, changes the staged tables, makes what is committed
durable, or leaves the session as it is. Which of these it does is told here as a relation between
the sessions before and after, with what the request answers.
-/
namespace UtxoLedger

namespace StoreM

variable {α : Type} {db : Database} {t : Tables} {touched : Bool}

@[simp] lemma on_read (f : Tables → Except LedgerError α) (s : Session) :
    (read f).on s = (f s.view, s) := rfl

lemma on_require (ok : Bool) (fault : Inconsistency) (s : Session) :
    (require ok fault).on s = (if ok then .ok () else .error (.inconsistent fault), s) := by
  cases ok <;> rfl

@[simp] lemma on_touch_writing (op : WriteOp) :
    (touch op).on ⟨db, .writing t touched⟩ = (.ok (), ⟨db, .writing t true⟩) := rfl

lemma on_touch_of_not_writing {s : Session} (h : ∀ t touched, s.cursor ≠ .writing t touched)
    (op : WriteOp) : ∃ e, (touch op).on s = (.error e, s) := by
  obtain ⟨db, cursor⟩ := s
  cases cursor with
  | idle => exact ⟨_, rfl⟩
  | reading view => exact ⟨_, rfl⟩
  | writing t touched => exact absurd rfl (h t touched)

lemma on_tryInsert_writing (op : WriteOp) (name : TableName) (key value : Bytes) :
    (tryInsert op name key value).on ⟨db, .writing t touched⟩ =
      ((Mutation.added t name key value).1,
        ⟨db, .writing (Mutation.added t name key value).2 true⟩) := by
  have hview : (⟨db, .writing t true⟩ : Session).view = t := rfl
  simp only [tryInsert, on_bind, on_touch_writing, on_read, hview, Mutation.added]
  cases t.contains name key <;> rfl

lemma on_tryErase_writing (op : WriteOp) (name : TableName) (key : Bytes) :
    (tryErase op name key).on ⟨db, .writing t touched⟩ =
      ((Mutation.erased t name key).1, ⟨db, .writing (Mutation.erased t name key).2 true⟩) := rfl

/-- A guard ends as a write transaction of the work's own does. -/
lemma on_guarded (body : StoreM α) (s : Session) :
    (guarded body).on s = match (body >>= fun a => commit >>= fun _ => pure a).on s with
      | (.ok a, s) => (.ok a, s)
      | (.error e, s) => (.error e, s.release) := by
  rw [on_bind]
  simp only [guarded, on, of]
  rcases body s with ⟨e | a, db, cursor⟩
  · cases cursor <;> rfl
  · cases cursor <;> rfl

/-- Work in a write transaction of its own is work under a guard. -/
lemma atomically_eq_guarded (body : StoreM α) :
    atomically body = begin false >>= fun _ => guarded body := by
  funext s
  change (atomically body).on s = (begin false >>= fun _ => guarded body).on s
  rw [on_atomically, on_bind]
  rcases (begin false).on s with ⟨_ | _, s'⟩
  · rfl
  · exact (on_guarded body s').symm

end StoreM

namespace Mutation

open StoreM

variable {db : Database} {t : Tables} {touched : Bool}

/-- A change answers, and leaves, what its function of the staged tables says. -/
lemma on_act_writing (m : Mutation) (db : Database) (t : Tables) (touched : Bool) :
    ∃ touched', m.act.on ⟨db, .writing t touched⟩ =
      ((m.apply t).1, ⟨db, .writing (m.apply t).2 touched'⟩) := by
  have hview : ∀ touched, (⟨db, .writing t touched⟩ : Session).view = t := fun _ => rfl
  cases m with
  | addHeader h =>
    refine ⟨true, ?_⟩
    simp only [act, apply, StoreM.addHeader, on_bind, on_tryInsert_writing, added]
    cases t.contains .headers (Height.key h.height) <;> rfl
  | removeHeader h =>
    simp only [act, apply, StoreM.removeHeader, on_bind, on_read, hview]
    cases t.headerAt? h.height with
    | error e => exact ⟨touched, rfl⟩
    | ok found =>
      cases found with
      | none => exact ⟨touched, rfl⟩
      | some stored =>
        dsimp only
        rw [on_bind, on_require]
        by_cases heq : stored.hash = h.hash
        · rw [decide_eq_true heq, if_pos rfl, if_pos heq]
          exact ⟨true, rfl⟩
        · rw [decide_eq_false heq, if_neg (by simp), if_neg heq]
          exact ⟨touched, rfl⟩
  | addUnspent u => exact ⟨true, on_tryInsert_writing _ _ _ _⟩
  | removeUnspent tx => exact ⟨true, on_tryErase_writing _ _ _⟩
  | updateUnspent u =>
    refine ⟨true, ?_⟩
    simp only [act, apply, StoreM.tryUpdateUnspent, on_bind, on_touch_writing, on_read, hview]
    cases t.unspent? u.hash with
    | error e => rfl
    | ok found => cases found <;> rfl
  | addSpent height txs => exact ⟨true, on_tryInsert_writing _ _ _ _⟩
  | removeSpent height => exact ⟨true, on_tryErase_writing _ _ _⟩
  | addUnminted block txs => exact ⟨true, on_tryInsert_writing _ _ _ _⟩
  | removeUnminted block => exact ⟨true, on_tryErase_writing _ _ _⟩
  | writeCounter c value => exact ⟨true, rfl⟩

/-- Outside a write transaction, a change is refused. -/
lemma on_act_of_not_writing (m : Mutation) {s : Session}
    (h : ∀ t touched, s.cursor ≠ .writing t touched) : ∃ e, m.act.on s = (.error e, s) := by
  have hrefused {α : Type} (op : WriteOp) (f : Unit → StoreM α) :
      ∃ e, (touch op >>= f).on s = (.error e, s) := by
    obtain ⟨e, he⟩ := on_touch_of_not_writing h op
    exact ⟨e, by rw [on_bind, he]⟩
  have hbound {α β : Type} {act : StoreM α} {f : α → StoreM β}
      (hact : ∃ e, act.on s = (.error e, s)) : ∃ e, (act >>= f).on s = (.error e, s) := by
    obtain ⟨e, he⟩ := hact
    exact ⟨e, by rw [on_bind, he]⟩
  cases m with
  | addHeader h => exact hbound (hbound (hrefused _ _))
  | removeHeader h =>
    refine hbound ?_
    rw [StoreM.removeHeader, on_bind, on_read]
    cases s.view.headerAt? h.height with
    | error e => exact ⟨e, rfl⟩
    | ok found =>
      cases found with
      | none => exact ⟨_, rfl⟩
      | some stored =>
        dsimp only
        rw [on_bind, on_require]
        by_cases heq : stored.hash = h.hash
        · rw [decide_eq_true heq, if_pos rfl]
          exact hbound (hrefused _ _)
        · rw [decide_eq_false heq, if_neg (by simp)]
          exact ⟨_, rfl⟩
  | addUnspent u => exact hrefused _ _
  | removeUnspent tx => exact hrefused _ _
  | updateUnspent u => exact hrefused _ _
  | addSpent height txs => exact hrefused _ _
  | removeSpent height => exact hrefused _ _
  | addUnminted block txs => exact hrefused _ _
  | removeUnminted block => exact hrefused _ _
  | writeCounter c value => exact hbound (hrefused _ _)

end Mutation

namespace Request

/-- The requests that end a transaction. -/
def Ends : Request → Prop
  | commit | rollback | conclude | abandon => True
  | _ => False

/-- Those of them that publish what a writer staged. -/
def Publishes : Request → Prop
  | commit | conclude => True
  | _ => False

lemma Publishes.ends {r : Request} (h : r.Publishes) : r.Ends := by
  cases r <;> trivial

/-- All that a request does on a session: what it answers, and the session after it. -/
inductive Effect : Session → Request → Except LedgerError Bool × Session → Prop
  | beginsReading (db : Database) : Effect ⟨db, .idle⟩ (.begin true)
      (.ok true, ⟨db, .reading db.committed.tables⟩)
  | beginsWriting {db : Database} (free : db.writerOpen = false) : Effect ⟨db, .idle⟩ (.begin false)
      (.ok true, ⟨{ db with writerOpen := true }, .writing db.committed.tables false⟩)
  | busy {db : Database} (taken : db.writerOpen = true) : Effect ⟨db, .idle⟩ (.begin false)
      (.error (.transactionState .writerBusy), ⟨db, .idle⟩)
  | alreadyOpen {s : Session} (opened : s.cursor.inTransaction = true) (readOnly : Bool) :
      Effect s (.begin readOnly) (.error (.transactionState .alreadyOpen), s)
  | endsReading {db : Database} {view : Tables} {r : Request} (ends : r.Ends) :
      Effect ⟨db, .reading view⟩ r (.ok true, ⟨db, .idle⟩)
  | publishes {db : Database} {t : Tables} {touched : Bool} {r : Request} (n : Nat)
      (publishing : r.Publishes) : Effect ⟨db, .writing t touched⟩ r
        (.ok true, ⟨{ db with committed := ⟨t, n⟩, writerOpen := false }, .idle⟩)
  | discards {db : Database} {t : Tables} {touched : Bool} {r : Request} (ends : r.Ends)
      (discarding : ¬ r.Publishes) : Effect ⟨db, .writing t touched⟩ r
        (.ok true, ⟨{ db with writerOpen := false }, .idle⟩)
  | nothingOpen {db : Database} {r : Request} (ends : r.Ends) (answer : Except LedgerError Bool) :
      Effect ⟨db, .idle⟩ r (answer, ⟨db, .idle⟩)
  | changes (db : Database) (t : Tables) (touched touched' : Bool) (m : Mutation) :
      Effect ⟨db, .writing t touched⟩ (.mutate m)
        ((m.apply t).1, ⟨db, .writing (m.apply t).2 touched'⟩)
  | refused {s : Session} (readOnly : ∀ t touched, s.cursor ≠ .writing t touched) (e : LedgerError)
      (m : Mutation) : Effect s (.mutate m) (.error e, s)
  | flushes (s : Session) : Effect s .flush
      (.ok true, { s with db := { s.db with
        flushed := s.db.committed, flushes := s.db.flushes + 1 } })
  | defragments (s : Session) : Effect s .defragment (.ok true, s)

lemma effect_begin (s : Session) (readOnly : Bool) :
    Effect s (.begin readOnly) ((begin readOnly).act.on s) := by
  obtain ⟨db, cursor⟩ := s
  cases cursor with
  | idle =>
    cases readOnly with
    | true => exact .beginsReading db
    | false =>
      obtain ⟨committed, flushed, writerOpen, flushes⟩ := db
      cases writerOpen with
      | true => exact .busy rfl
      | false => exact .beginsWriting rfl
  | reading view => exact .alreadyOpen rfl readOnly
  | writing t touched => exact .alreadyOpen rfl readOnly

lemma effect_end (s : Session) {r : Request} (ends : r.Ends) : Effect s r (r.act.on s) := by
  obtain ⟨db, cursor⟩ := s
  cases cursor with
  | idle =>
    cases r with
    | commit | rollback | conclude | abandon => exact .nothingOpen ends _
    | begin | flush | defragment | mutate => exact ends.elim
  | reading view =>
    cases r with
    | commit | rollback | conclude | abandon => exact .endsReading ends
    | begin | flush | defragment | mutate => exact ends.elim
  | writing t touched =>
    cases r with
    | commit | conclude => exact .publishes _ trivial
    | rollback | abandon => exact .discards trivial id
    | begin | flush | defragment | mutate => exact ends.elim

/-- Every request does one of these things. -/
lemma effect (s : Session) (r : Request) : Effect s r (r.act.on s) := by
  cases r with
  | begin readOnly => exact effect_begin s readOnly
  | commit | rollback | conclude | abandon => exact effect_end s trivial
  | flush => exact .flushes s
  | defragment => exact .defragments s
  | mutate m =>
    by_cases h : ∀ t touched, s.cursor ≠ .writing t touched
    · obtain ⟨e, he⟩ := m.on_act_of_not_writing h
      exact he.symm ▸ Effect.refused h e m
    · simp only [not_forall, not_not] at h
      obtain ⟨t, touched, hcursor⟩ := h
      obtain ⟨db, cursor⟩ := s
      obtain rfl : cursor = .writing t touched := hcursor
      obtain ⟨touched', hact⟩ := m.on_act_writing db t touched
      exact hact.symm ▸ Effect.changes db t touched touched' m

end Request

end UtxoLedger

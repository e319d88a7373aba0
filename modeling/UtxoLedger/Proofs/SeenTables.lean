import Mathlib.Data.List.Induction
import Mathlib.Logic.Function.Basic
import UtxoLedger.Proofs.SnapshotIsolation

/-!
# What holds of all tables

Tables come about by changes only: what holds of the empty tables, and is kept by every change that
is asked for, holds of all that are committed, pinned or staged, and so of whatever a cursor sees.
-/
namespace UtxoLedger

/-- The tables of the cursor's own, if it has any, have the property. -/
def Cursor.Holds (P : Tables → Prop) : Cursor → Prop
  | idle => True
  | reading view => P view
  | writing staged _ => P staged

lemma Session.view_holds {P : Tables → Prop} {s : Session} (committed : P s.db.committed.tables)
    (own : s.cursor.Holds P) : P s.view := by
  obtain ⟨db, cursor⟩ := s
  cases cursor with
  | idle => exact committed
  | reading | writing => exact own

/-- A change that the event asks for keeps the property. -/
def CursorEvent.Keeps (P : Tables → Prop) (e : CursorEvent) : Prop :=
  ∀ i m, e = .asked i (.mutate m) → ∀ t, P t → P (m.apply t).2

lemma Request.Effect.holds {P : Tables → Prop} {s x : Session} {r : Request}
    {answer : Except LedgerError Bool} (h : r.Effect s (answer, x))
    (committed : P s.db.committed.tables) (own : s.cursor.Holds P)
    (keeps : ∀ m, r = .mutate m → ∀ t, P t → P (m.apply t).2) :
    P x.db.committed.tables ∧ x.cursor.Holds P := by
  cases h with
  | beginsReading | beginsWriting => exact ⟨committed, committed⟩
  | publishes => exact ⟨own, trivial⟩
  | endsReading | discards => exact ⟨committed, trivial⟩
  | changes _ _ _ _ m => exact ⟨committed, keeps m rfl _ own⟩
  | busy | alreadyOpen | nothingOpen | refused | flushes | defragments => exact ⟨committed, own⟩

namespace SharedDatabase

variable {P : Tables → Prop} {s : SharedDatabase} {i : Nat} {e : CursorEvent} {t : Tables}

/-- All tables that there are have the property. -/
structure Throughout (P : Tables → Prop) (s : SharedDatabase) : Prop where
  committed : P s.db.committed.tables
  own : ∀ i c, s.cursors i = some c → c.Holds P

namespace Throughout

lemma update (h : s.Throughout P) {db : Database} {c? : Option Cursor}
    (committed : P db.committed.tables) (own : ∀ c, c? = some c → c.Holds P) :
    Throughout P ⟨db, Function.update s.cursors i c?⟩ := by
  refine ⟨committed, fun j c hc => ?_⟩
  by_cases hj : j = i
  · subst hj
    exact own c (by simpa using hc)
  · exact h.own j c (by simpa [hj] using hc)

lemma step (h : s.Throughout P) (keeps : e.Keeps P) : (s.step e).Throughout P := by
  have hstep := s.steps e
  generalize s.step e = s' at hstep ⊢
  cases hstep with
  | still => exact h
  | opens =>
    refine h.update h.committed fun c hc => ?_
    rw [← Option.some.inj hc]
    trivial
  | drops =>
    refine h.update ?_ fun c hc => nomatch hc
    rw [(release_committed _).1]
    exact h.committed
  | @asks j c r answer x isOpen effect =>
    have hr : ∀ m, r = .mutate m → ∀ t, P t → P (m.apply t).2 := fun m hm => keeps j m (hm ▸ rfl)
    obtain ⟨hcommitted, hown⟩ := effect.holds h.committed (h.own j c isOpen) hr
    refine h.update hcommitted fun c' hc => ?_
    rwa [← Option.some.inj hc]

lemma view {c : Cursor} (h : s.Throughout P) (hc : s.cursors i = some c) :
    P (Session.mk s.db c).view := Session.view_holds h.committed (h.own i c hc)

lemma of_sees (h : s.Throughout P) (sees : s.Sees i t) : P t := by
  obtain ⟨c, hc, rfl⟩ := sees.exists_view
  exact h.view hc

end Throughout

lemma throughout_fresh (empty : P .empty) : fresh.Throughout P := ⟨empty, fun _ _ hc => nomatch hc⟩

/-- Every interleaving of requests keeps what the changes in it keep. -/
lemma throughout_after {events : List CursorEvent} (empty : P .empty)
    (keeps : ∀ e ∈ events, e.Keeps P) : (after events).Throughout P := by
  induction events using List.reverseRecOn with
  | nil => exact throughout_fresh empty
  | append_singleton events e ih =>
    rw [after_concat]
    refine (ih fun e' he' => keeps e' (List.mem_append_left _ he')).step ?_
    exact keeps e (List.mem_append_right _ (List.mem_singleton_self e))

end SharedDatabase
end UtxoLedger

import Mathlib.Tactic.Common
import UtxoLedger.Proofs.LedgerCalls

/-!
# A failed block leaves nothing behind

Connecting and disconnecting a block stage changes from their first steps on, and can fail at any
step after them. Whatever the store holds and wherever the failure comes from, the session after it
is the session before it.
-/
namespace UtxoLedger
namespace Ledger

/-- Nothing of a call shows. The databases are equal, so committed and flushed revision are, and the
right to write is held by whoever held it; the ledger itself holds none. -/
structure Untouched (s s' : LedgerSession) : Prop where
  ledger : s'.ledger = s.ledger
  db : s'.db = s.db
  tables : s'.db.committed.tables = s.db.committed.tables
  chain : s'.ledger.chain = s.ledger.chain
  /-- What any cursor on the database sees, inside a transaction or outside. -/
  views : ∀ cursor : Cursor, (Session.mk s'.db cursor).view = (Session.mk s.db cursor).view
  snapshot : Snapshot.take s'.db = Snapshot.take s.db
  closed : s'.ledger.cursor.inTransaction = false
  writer : s'.db.writerOpen = s.db.writerOpen

lemma Untouched.refl {s : LedgerSession} (idle : s.ledger.cursor = .idle) : Untouched s s :=
  ⟨rfl, rfl, rfl, rfl, fun _ => rfl, rfl, by rw [idle]; rfl, rfl⟩

/-- A block that cannot be connected, and a tip that cannot be disconnected, change nothing: for
every database, every archive, every header and every ledger that is in use. -/
theorem failed_block_untouched {l : Ledger} (hl : l.InUse) (db : Database) (archive : Archive) :
    (∀ header e s', (add archive header).on ⟨l, db⟩ = (.error e, s') → Untouched ⟨l, db⟩ s') ∧
      ∀ e s', (removeTip archive).on ⟨l, db⟩ = (.error e, s') → Untouched ⟨l, db⟩ s' := by
  have idle := hl.idle
  constructor
  · intro header e s' h
    have hadded := added (s := ⟨l, db⟩) idle archive header
    rw [h] at hadded
    cases hadded with
    | refused => exact .refl idle
  · intro e s' h
    have hremoved := removed (s := ⟨l, db⟩) idle archive
    rw [h] at hremoved
    cases hremoved with
    | refused => exact .refl idle

/-- A genesis header with a name of its own, and an archive that keeps an empty block under it. -/
def soleHeader : ChainedHeader := ⟨⟨1, .zero, .zero, 0, 0x207fffff, 0⟩, .zero, 0, .zero⟩

def soleArchive : Archive := ⟨(∅ : Std.ExtTreeMap Hash Block).insert .zero ⟨soleHeader.header, []⟩⟩

lemma soleArchive_block? : soleArchive.block? soleHeader.hash = some ⟨soleHeader.header, []⟩ := by
  simp [soleArchive, soleHeader, Archive.block?]

/-- A stored block under a header that does not extend the tip: the transaction is opened, then
given up. -/
theorem failed_block_untouched_wrong_tip :
    ∃ (l : Ledger) (db : Database) (e : LedgerError) (s' : LedgerSession), l.InUse ∧
      db.writerOpen = false ∧ (soleArchive.block? soleHeader.hash).isSome ∧
      (add soleArchive soleHeader).on ⟨l, db⟩ = (.error e, s') ∧ Untouched ⟨l, db⟩ s' := by
  have height : soleHeader.height = 0 := rfl
  obtain ⟨chain, db, hchain, -, free, hopen⟩ :=
    openOn_fresh (.permissive fun _ => .accepted) .default height
  have hl := InUse.opened hopen
  have htip : chain.tip = soleHeader := by simp [Chain.tip, hchain]
  have hadded := added (s := ⟨_, db⟩) hl.idle soleArchive soleHeader
  generalize hon : (add soleArchive soleHeader).on _ = r at hadded
  cases hadded with
  | connected _ _ staged _ _ =>
    have hx := (connected_of_staged staged).extends.1
    rw [htip] at hx
    exact absurd hx (by decide)
  | @refused e =>
    exact ⟨_, db, e, _, hl, free, by rw [soleArchive_block?]; rfl, hon,
      (failed_block_untouched hl db soleArchive).1 soleHeader e _ hon⟩

end Ledger
end UtxoLedger

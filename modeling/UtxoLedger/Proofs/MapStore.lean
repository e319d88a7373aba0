import UtxoLedger.Proofs.RecordMaps

/-!
# The store as a store of maps

A store of record maps commits, pins and changes maps where the byte store does so with tables. The
cursors of both are asked for the same things in the same order; then the tables that a cursor sees
show the maps that it sees, and each change is answered as the maps answer it.
-/
namespace UtxoLedger

/-- Where a cursor stands over record maps. -/
inductive MapCursor
  | idle
  | reading (view : RecordMaps)
  | writing (staged : RecordMaps)

/-- A store of record maps with the cursors that are open on it. -/
structure MapStore where
  committed : RecordMaps
  writerOpen : Bool
  cursors : Nat → Option MapCursor

namespace MapStore

def fresh : MapStore := ⟨.empty, false, fun _ => none⟩

/-- Cursor `i` moves on to `c`. -/
def moved (s : MapStore) (i : Nat) (c : MapCursor) : MapStore :=
  { s with cursors := Function.update s.cursors i (some c) }

/-- What becomes of the store when cursor `i`, which stands at `c`, is asked for something. -/
def ask (s : MapStore) (i : Nat) : MapCursor → Request → MapStore
  | .idle, .begin true => s.moved i (.reading s.committed)
  | .idle, .begin false =>
    if s.writerOpen then s else { s.moved i (.writing s.committed) with writerOpen := true }
  | .reading _, .commit => s.moved i .idle
  | .reading _, .rollback => s.moved i .idle
  | .reading _, .conclude => s.moved i .idle
  | .reading _, .abandon => s.moved i .idle
  | .writing staged, .mutate mu => s.moved i (.writing (staged.change mu).2)
  | .writing staged, .commit => { s.moved i .idle with committed := staged, writerOpen := false }
  | .writing staged, .conclude => { s.moved i .idle with committed := staged, writerOpen := false }
  | .writing _, .rollback => { s.moved i .idle with writerOpen := false }
  | .writing _, .abandon => { s.moved i .idle with writerOpen := false }
  | _, _ => s

def step (s : MapStore) : CursorEvent → MapStore
  | .opened i =>
    match s.cursors i with
    | none => s.moved i .idle
    | some _ => s
  | .dropped i =>
    match s.cursors i with
    | none => s
    | some (.writing _) => ⟨s.committed, false, Function.update s.cursors i none⟩
    | some _ => { s with cursors := Function.update s.cursors i none }
  | .asked i r =>
    match s.cursors i with
    | none => s
    | some c => s.ask i c r

/-- The store after the steps of an interleaving. -/
def after (events : List CursorEvent) : MapStore := events.foldl step fresh

/-- The maps that a cursor sees. -/
def view (s : MapStore) : MapCursor → RecordMaps
  | .idle => s.committed
  | .reading view => view
  | .writing staged => staged

/-- Cursor `i` is open and sees these maps. -/
def Sees (s : MapStore) (i : Nat) (m : RecordMaps) : Prop :=
  ∃ c, s.cursors i = some c ∧ s.view c = m

end MapStore

/-- The two cursors stand at the same point, with tables that show the maps. -/
inductive Cursor.Shows : Cursor → MapCursor → Prop
  | idle : Shows .idle .idle
  | reading {t : Tables} {m : RecordMaps} (h : t.Show m) : Shows (.reading t) (.reading m)
  | writing {t : Tables} {m : RecordMaps} (h : t.Show m) (touched : Bool) :
      Shows (.writing t touched) (.writing m)

/-- Only a change may bring a record with it. -/
def CursorEvent.Fits : CursorEvent → Prop
  | asked _ (.mutate m) => m.Fits
  | _ => True

namespace SharedDatabase

variable {s : SharedDatabase} {a : MapStore} {i : Nat} {c : Cursor} {d : MapCursor} {r : Request}
  {e : CursorEvent} {events : List CursorEvent} {t : Tables} {m : RecordMaps}

/-- Everything committed or seen in the one store shows what is so in the other. -/
structure Shows (s : SharedDatabase) (a : MapStore) : Prop where
  committed : s.db.committed.tables.Show a.committed
  lock : s.db.writerOpen = a.writerOpen
  cursors : ∀ i, Option.Rel Cursor.Shows (s.cursors i) (a.cursors i)

namespace Shows

lemma update (h : s.Shows a) (i : Nat) {db : Database} {c? : Option Cursor}
    {d? : Option MapCursor} (committed : db.committed.tables.Show m)
    (cursor : Option.Rel Cursor.Shows c? d?) :
    Shows ⟨db, Function.update s.cursors i c?⟩
      ⟨m, db.writerOpen, Function.update a.cursors i d?⟩ where
  committed := committed
  lock := rfl
  cursors j := by
    simp only [Function.update_apply]
    split
    · exact cursor
    · exact h.cursors j

/-- One cursor moves on, and nothing else happens. -/
lemma move (h : s.Shows a) (i : Nat) {c? : Option Cursor} {d? : Option MapCursor}
    (cursor : Option.Rel Cursor.Shows c? d?) :
    Shows ⟨s.db, Function.update s.cursors i c?⟩
      { a with cursors := Function.update a.cursors i d? } := by
  have hmoved := h.update i h.committed cursor
  rwa [h.lock] at hmoved

/-- A cursor stays where it is, and so do the committed tables and the lock. -/
lemma stay (h : s.Shows a) (hd : a.cursors i = some d) (cursor : c.Shows d) {db : Database}
    (committed : db.committed = s.db.committed) (lock : db.writerOpen = s.db.writerOpen) :
    Shows ⟨db, Function.update s.cursors i (some c)⟩ a where
  committed := committed ▸ h.committed
  lock := lock.trans h.lock
  cursors j := by
    have hstay : Function.update a.cursors i (some d) j = a.cursors j := by
      rw [← hd, Function.update_eq_self]
    rw [← hstay]
    exact (h.move i (.some cursor)).cursors j

/-- Asked for the same thing, both stores do the same. -/
lemma ask {x : Session} {answer : Except LedgerError Bool} (h : s.Shows a)
    (hd : a.cursors i = some d) (cursor : c.Shows d) (effect : r.Effect ⟨s.db, c⟩ (answer, x))
    (fits : ∀ mu, r = .mutate mu → mu.Fits) :
    Shows ⟨x.db, Function.update s.cursors i (some x.cursor)⟩ (a.ask i d r) := by
  cases effect with
  | beginsReading =>
    cases cursor
    exact h.move i (.some (.reading h.committed))
  | beginsWriting free =>
    cases cursor
    rw [h.lock] at free
    rw [MapStore.ask, if_neg (by simp [free])]
    exact h.update i h.committed (.some (.writing h.committed false))
  | busy taken =>
    cases cursor
    rw [h.lock] at taken
    rw [MapStore.ask, if_pos taken]
    exact h.stay hd .idle rfl rfl
  | alreadyOpen opened readOnly =>
    cases cursor with
    | idle => exact nomatch opened
    | reading shown => exact h.stay hd (.reading shown) rfl rfl
    | writing shown touched => exact h.stay hd (.writing shown touched) rfl rfl
  | endsReading ends =>
    cases cursor
    have hmoved := h.move i (.some .idle)
    cases r with
    | commit | rollback | conclude | abandon => exact hmoved
    | begin | flush | defragment | mutate => exact ends.elim
  | publishes n publishing =>
    cases cursor with
    | writing shown touched =>
      cases r with
      | commit | conclude => exact h.update i shown (.some .idle)
      | begin | rollback | flush | defragment | mutate | abandon => exact publishing.elim
  | discards ends discarding =>
    cases cursor
    cases r with
    | rollback | abandon => exact h.update i h.committed (.some .idle)
    | commit | conclude => exact absurd trivial discarding
    | begin | flush | defragment | mutate => exact ends.elim
  | nothingOpen ends =>
    cases cursor
    have hstay := h.stay hd .idle rfl rfl
    cases r with
    | commit | rollback | conclude | abandon => exact hstay
    | begin | flush | defragment | mutate => exact ends.elim
  | changes _ _ touched touched' mu =>
    cases cursor with
    | writing shown =>
      exact h.move i (.some (.writing (shown.change (fits mu rfl)).2 touched'))
  | refused readOnly =>
    cases cursor with
    | idle => exact h.stay hd .idle rfl rfl
    | reading shown => exact h.stay hd (.reading shown) rfl rfl
    | writing => exact absurd rfl (readOnly _ _)
  | flushes => cases cursor <;> exact h.stay hd (by constructor <;> assumption) rfl rfl
  | defragments => cases cursor <;> exact h.stay hd (by constructor <;> assumption) rfl rfl

/-- Where a cursor of the one store is open, so is that of the other. -/
lemma cursor (h : s.Shows a) (hc : s.cursors i = some c) :
    ∃ d, a.cursors i = some d ∧ c.Shows d := by
  have hi := h.cursors i
  rw [hc] at hi
  generalize a.cursors i = d? at hi
  cases hi with
  | some cursor => exact ⟨_, rfl, cursor⟩

lemma step (h : s.Shows a) (fits : e.Fits) : (s.step e).Shows (a.step e) := by
  cases e with
  | opened i =>
    have hi := h.cursors i
    simp only [SharedDatabase.step, MapStore.step]
    generalize s.cursors i = c?, a.cursors i = d? at hi
    cases hi with
    | some => exact h
    | none => exact h.move i (.some .idle)
  | dropped i =>
    have hi := h.cursors i
    simp only [SharedDatabase.step, MapStore.step]
    generalize s.cursors i = c?, a.cursors i = d? at hi
    cases hi with
    | none => exact h
    | some cursor =>
      cases cursor with
      | idle | reading => exact h.move i .none
      | writing => exact h.update i h.committed .none
  | asked i r =>
    cases hc : s.cursors i with
    | none =>
      have hi := h.cursors i
      rw [hc] at hi
      generalize hd : a.cursors i = d? at hi
      cases hi
      simpa only [SharedDatabase.step, MapStore.step, hc, hd] using h
    | some c =>
      obtain ⟨d, hd, cursor⟩ := h.cursor hc
      have hr : ∀ mu, r = .mutate mu → mu.Fits := by
        rintro mu rfl
        exact fits
      rw [step_asked hc, show a.step (.asked i r) = a.ask i d r by simp only [MapStore.step, hd]]
      exact h.ask hd cursor (r.effect ⟨s.db, c⟩) hr

end Shows

/-- Whatever was asked of the cursors, the byte store shows the store of maps. -/
lemma shows_after (fits : ∀ e ∈ events, e.Fits) : (after events).Shows (MapStore.after events) := by
  induction events using List.reverseRecOn with
  | nil => exact ⟨Tables.show_empty, rfl, fun _ => .none⟩
  | append_singleton events e ih =>
    rw [after_concat, MapStore.after, List.foldl_append]
    exact (ih fun e' he' => fits e' (List.mem_append_left _ he')).step (fits e (by simp))

/-- A cursor sees tables that show the maps it sees. -/
lemma Shows.sees (h : s.Shows a) (sees : s.Sees i t) : ∃ m, a.Sees i m ∧ t.Show m := by
  obtain ⟨c, hc, rfl⟩ := sees.exists_view
  obtain ⟨d, hd, cursor⟩ := h.cursor hc
  refine ⟨a.view d, ⟨d, hd, rfl⟩, ?_⟩
  cases cursor with
  | idle => exact h.committed
  | reading shown | writing shown => exact shown

/-- What a change leaves of the tables `t` that read as `m`, if it leaves `t'`. -/
structure Changed (t : Tables) (m : RecordMaps) (mu : Mutation) (t' : Tables) : Prop where
  /-- What is read next is what the change made of the maps. -/
  reads : t'.ReadAs (m.change mu).2
  /-- What does not take place leaves every table as it was. -/
  kept : (m.change mu).1 ≠ .ok true → t' = t
  /-- No entry under another key or in another table changes. -/
  frame : ∀ name key, mu.target ≠ (name, key) → (t'.get name)[key]? = (t.get name)[key]?

/-- What holds of a store after any steps of its cursors. -/
structure ActsAsMaps (events : List CursorEvent) : Prop where
  /-- Whatever a cursor reads, it reads from the maps that it sees. -/
  reads : ∀ i t, (after events).Sees i t → ∃ m, (MapStore.after events).Sees i m ∧ t.ReadAs m
  /-- In a write transaction a change is answered as the maps answer it, and does to the tables what
  it does to the maps. -/
  changes : ∀ i t touched, (after events).cursors i = some (.writing t touched) →
    ∀ mu : Mutation, mu.Fits → ∃ m t', (MapStore.after events).Sees i m ∧
      (after events).answer? i (.mutate mu) = some (m.change mu).1 ∧
      (after (events ++ [.asked i (.mutate mu)])).Sees i t' ∧ Changed t m mu t'

/-- The byte store behaves as typed maps: built through cursors alone, it cannot be told from a
store that keeps the records themselves. -/
theorem store_acts_as_maps {events : List CursorEvent} (fits : ∀ e ∈ events, e.Fits) :
    ActsAsMaps events where
  reads i t sees := by
    obtain ⟨m, hm, shown⟩ := (shows_after fits).sees sees
    exact ⟨m, hm, shown.readAs⟩
  changes i t touched hc mu hmu := by
    obtain ⟨m, hm, shown⟩ := (shows_after fits).sees (sees_view hc)
    have hstep : ∃ touched', (after (events ++ [.asked i (.mutate mu)])).cursors i =
        some (.writing (mu.apply t).2 touched') := by
      obtain ⟨answer, x, effect, -, -, hx⟩ := asked hc (.mutate mu)
      rw [after_concat, hx]
      cases effect with
      | changes _ _ _ touched' => exact ⟨touched', rfl⟩
      | refused readOnly => exact absurd rfl (readOnly _ _)
      | publishes _ ends | discards ends => exact ends.elim
    obtain ⟨touched', hc'⟩ := hstep
    obtain ⟨hanswer, shown'⟩ := shown.change hmu
    refine ⟨m, _, hm, ?_, sees_view hc', shown'.readAs, fun refused => ?_, fun name key other => ?_⟩
    · rw [answer?_mutate hc, ← hanswer]
      rfl
    · exact shown.apply_of_ne fun done => refused (hanswer.symm.trans done)
    · exact shown.getElem?_apply other

/-- A header that does not bear the name of its fields. -/
def misnamedHeader : ChainedHeader := ⟨⟨1, .zero, .zero, 1, 2, 3⟩, .zero, 258, ⟨5, by decide⟩⟩

/-- A record is added, put into another state, and cannot be added once more. -/
def recordedEvents : List CursorEvent := [.opened 0, .asked 0 (.begin false),
  .asked 0 (.mutate (.addHeader misnamedHeader)),
  .asked 0 (.mutate (.addUnspent ⟨.zero, 7, 1, .filled 9 .spent⟩)),
  .asked 0 (.mutate (.updateUnspent ⟨.zero, 0, 0, .filled 2 .unspent⟩)),
  .asked 0 (.mutate (.addUnspent ⟨.zero, 5, 5, .filled 1 .spent⟩))]

/-- The record keeps its height and its place, and the header is read back with its proper name. -/
theorem store_acts_as_maps_recorded : ∃ t, (after recordedEvents).Sees 0 t ∧
    t.unspent? .zero = .ok (some ⟨.zero, 7, 1, .filled 2 .unspent⟩) ∧
    t.headerAt? 258 = .ok (some misnamedHeader.rehashed) := by
  have hfits : ∀ e ∈ recordedEvents, e.Fits := by
    have hheight : 0 ≤ misnamedHeader.height.toInt := by decide
    simp [recordedEvents, CursorEvent.Fits, Mutation.Fits, OutputStates.filled, hheight]
  obtain ⟨c, hc⟩ : ∃ c, (after recordedEvents).cursors 0 = some c := ⟨_, rfl⟩
  obtain ⟨m, ⟨d, hd, hm⟩, reads⟩ := (store_acts_as_maps hfits).reads 0 _ (sees_view hc)
  obtain ⟨staged, hstaged, hunspent, hheader⟩ :
      ∃ staged, (MapStore.after recordedEvents).cursors 0 = some (.writing staged) ∧
        staged.unspent .zero = some ⟨.zero, 7, 1, .filled 2 .unspent⟩ ∧
        staged.headers 258 = some misnamedHeader.rehashed := ⟨_, rfl, rfl, rfl⟩
  obtain rfl : d = .writing staged := Option.some.inj (hd.symm.trans hstaged)
  obtain rfl : staged = m := hm
  refine ⟨_, sees_view hc, ?_, ?_⟩
  · rw [reads.unspent?, hunspent]
  · rw [reads.headerAt?, hheader]

end SharedDatabase
end UtxoLedger

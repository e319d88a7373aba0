import Mathlib.Data.List.Induction
import Mathlib.Logic.Function.Basic
import UtxoLedger.Proofs.CursorRequests

/-!
# Snapshot isolation

Any number of cursors work on one database, their requests interleaved in any way. What a
transaction sees is settled when it begins: the tables committed then, with its own changes so far.
The copy that a writer works on is still the committed one when it commits, since the lock keeps all
others from publishing in between; so every commit adds its own changes to what was committed
before, and none is lost.
-/
namespace UtxoLedger

/-- A database with the cursors that are open on it. -/
structure SharedDatabase where
  db : Database
  cursors : Nat → Option Cursor

/-- A step of an interleaving. -/
inductive CursorEvent
  | opened (i : Nat)
  | dropped (i : Nat)
  | asked (i : Nat) (r : Request)

namespace CursorEvent

/-- The cursor that takes the step. -/
def cursor : CursorEvent → Nat
  | opened i => i
  | dropped i => i
  | asked i _ => i

/-- The steps that end a transaction of their cursor. -/
def Ends : CursorEvent → Prop
  | opened _ => False
  | dropped _ => True
  | asked _ r => r.Ends

/-- The change that cursor `i` is asked for. -/
def change? (i : Nat) : CursorEvent → Option Mutation
  | asked j (.mutate m) => if j = i then some m else none
  | _ => none

/-- The changes that cursor `i` was asked for, in order. -/
def changes (i : Nat) (events : List CursorEvent) : List Mutation := events.filterMap (change? i)

lemma change?_of_ne {i : Nat} {e : CursorEvent} (h : e.cursor ≠ i) : e.change? i = none := by
  cases e with
  | opened | dropped => rfl
  | asked j r =>
    cases r with
    | mutate m => exact if_neg h
    | _ => rfl

lemma append_changes {i : Nat} {e : CursorEvent} (h : e.change? i = none) (ms : List Mutation) :
    ms ++ changes i [e] = ms := by simp [changes, h]

end CursorEvent

open CursorEvent (changes)

namespace SharedDatabase

variable {s : SharedDatabase} {i j : Nat} {e : CursorEvent} {c : Cursor} {r : Request}

/-- A fresh database, and no cursor. -/
def fresh : SharedDatabase := ⟨.fresh, fun _ => none⟩

/-- A cursor is opened under a number that is free; only an open one can be dropped or asked. -/
def step (s : SharedDatabase) : CursorEvent → SharedDatabase
  | .opened i =>
    match s.cursors i with
    | none => ⟨s.db, Function.update s.cursors i (some .idle)⟩
    | some _ => s
  | .dropped i =>
    match s.cursors i with
    | none => s
    | some c => ⟨(Session.mk s.db c).release.db, Function.update s.cursors i none⟩
  | .asked i r =>
    match s.cursors i with
    | none => s
    | some c =>
      let x := (r.act.on ⟨s.db, c⟩).2
      ⟨x.db, Function.update s.cursors i (some x.cursor)⟩

/-- What cursor `i` answers to a request, if it is open. -/
def answer? (s : SharedDatabase) (i : Nat) (r : Request) : Option (Except LedgerError Bool) :=
  (s.cursors i).map fun c => (r.act.on ⟨s.db, c⟩).1

/-- Cursor `i` is in a write transaction. -/
def Writes (s : SharedDatabase) (i : Nat) : Prop :=
  ∃ t touched, s.cursors i = some (.writing t touched)

/-- The step commits a write transaction. -/
def Commits (s : SharedDatabase) (e : CursorEvent) : Prop :=
  ∃ i r, e = .asked i r ∧ r.Publishes ∧ s.Writes i

/-- Every read of cursor `i` reads these tables. -/
def Sees (s : SharedDatabase) (i : Nat) (t : Tables) : Prop :=
  ∃ c, s.cursors i = some c ∧ ∀ {α : Type} (f : Tables → Except LedgerError α),
    (StoreM.read f).on ⟨s.db, c⟩ = (f t, ⟨s.db, c⟩)

lemma step_asked (h : s.cursors i = some c) (r : Request) : s.step (.asked i r) =
    ⟨(r.act.on ⟨s.db, c⟩).2.db,
      Function.update s.cursors i (some (r.act.on ⟨s.db, c⟩).2.cursor)⟩ := by
  simp only [step, h]

/-- What an open cursor answers to a request, and where the step leaves it. -/
lemma asked (h : s.cursors i = some c) (r : Request) :
    ∃ answer x, r.Effect ⟨s.db, c⟩ (answer, x) ∧ s.answer? i r = some answer ∧
      (s.step (.asked i r)).db = x.db ∧ (s.step (.asked i r)).cursors i = some x.cursor := by
  refine ⟨(r.act.on ⟨s.db, c⟩).1, (r.act.on ⟨s.db, c⟩).2, r.effect ⟨s.db, c⟩, ?_, ?_, ?_⟩
  · rw [answer?, h, Option.map_some]
  · rw [step_asked h]
  · rw [step_asked h]
    exact Function.update_self i _ _

/-- All that a step does. -/
inductive Steps (s : SharedDatabase) : CursorEvent → SharedDatabase → Prop
  | still (e : CursorEvent) : Steps s e s
  | opens {i : Nat} (closed : s.cursors i = none) :
      Steps s (.opened i) ⟨s.db, Function.update s.cursors i (some .idle)⟩
  | drops {i : Nat} {c : Cursor} (isOpen : s.cursors i = some c) :
      Steps s (.dropped i) ⟨(Session.mk s.db c).release.db, Function.update s.cursors i none⟩
  | asks {i : Nat} {c : Cursor} {r : Request} {answer : Except LedgerError Bool} {x : Session}
      (isOpen : s.cursors i = some c) (effect : r.Effect ⟨s.db, c⟩ (answer, x)) :
      Steps s (.asked i r) ⟨x.db, Function.update s.cursors i (some x.cursor)⟩

lemma steps (s : SharedDatabase) (e : CursorEvent) : s.Steps e (s.step e) := by
  cases e with
  | opened i =>
    cases h : s.cursors i with
    | none => simpa only [step, h] using Steps.opens h
    | some c => simpa only [step, h] using Steps.still _
  | dropped i =>
    cases h : s.cursors i with
    | none => simpa only [step, h] using Steps.still _
    | some c => simpa only [step, h] using Steps.drops h
  | asked i r =>
    cases h : s.cursors i with
    | none => simpa only [step, h] using Steps.still _
    | some c =>
      rw [step_asked h]
      exact .asks h (r.effect ⟨s.db, c⟩)

/-- Other cursors stay as they are. -/
lemma cursors_step_of_ne (s : SharedDatabase) (h : e.cursor ≠ j) :
    (s.step e).cursors j = s.cursors j := by
  have hs := s.steps e
  generalize s.step e = s' at hs ⊢
  cases hs with
  | still => rfl
  | opens | drops | asks => exact Function.update_of_ne (Ne.symm h) _ _

lemma release_committed (x : Session) :
    x.release.db.committed = x.db.committed ∧ x.release.db.flushed = x.db.flushed := by
  obtain ⟨db, cursor⟩ := x
  cases cursor <;> exact ⟨rfl, rfl⟩

/-- Only a commit publishes. -/
lemma committed_step (h : ¬ s.Commits e) : (s.step e).db.committed = s.db.committed := by
  have hs := s.steps e
  generalize s.step e = s' at hs ⊢
  cases hs with
  | still | opens => rfl
  | drops => exact (release_committed _).1
  | asks isOpen effect =>
    cases effect with
    | publishes n publishing => exact absurd ⟨_, _, rfl, publishing, _, _, isOpen⟩ h
    | _ => rfl

/-- Only a flush makes anything durable, and that is what is committed. -/
lemma flushed_step (s : SharedDatabase) (e : CursorEvent) :
    (s.step e).db.flushed = s.db.flushed ∨ (s.step e).db.flushed = s.db.committed := by
  have hs := s.steps e
  generalize s.step e = s' at hs ⊢
  cases hs with
  | still | opens => exact .inl rfl
  | drops => exact .inl (release_committed _).2
  | asks isOpen effect =>
    cases effect with
    | flushes => exact .inr rfl
    | _ => exact .inl rfl

end SharedDatabase

/-- Whether a cursor is in a write transaction. -/
def Cursor.isWriting : Cursor → Bool
  | writing _ _ => true
  | _ => false

/-- How the lock goes with a cursor that writes before, or does not, and after. -/
inductive Locks (db : Database) (before : Bool) (db' : Database) (after : Bool) : Prop
  | keeps (same : after = before) (lock : db'.writerOpen = db.writerOpen)
  | takes (waits : before = false) (free : db.writerOpen = false) (writes : after = true)
      (taken : db'.writerOpen = true)
  | gives (writes : before = true) (waits : after = false) (free : db'.writerOpen = false)

lemma Request.Effect.locks {s x : Session} {r : Request} {answer : Except LedgerError Bool}
    (h : r.Effect s (answer, x)) : Locks s.db s.cursor.isWriting x.db x.cursor.isWriting := by
  cases h with
  | beginsWriting free => exact .takes rfl free rfl rfl
  | publishes | discards => exact .gives rfl rfl rfl
  | beginsReading | busy | alreadyOpen | endsReading | nothingOpen | changes | refused | flushes
  | defragments => exact .keeps rfl rfl

lemma Session.locks_release (x : Session) : Locks x.db x.cursor.isWriting x.release.db false := by
  obtain ⟨db, cursor⟩ := x
  cases cursor with
  | idle | reading => exact .keeps rfl rfl
  | writing => exact .gives rfl rfl rfl

namespace SharedDatabase

variable {s : SharedDatabase} {i j : Nat} {e : CursorEvent} {c : Cursor} {r : Request}

/-- The lock is taken exactly while a cursor writes, and there is no second one. -/
structure Sound (s : SharedDatabase) : Prop where
  lock : s.db.writerOpen = true ↔ ∃ i, s.Writes i
  single : ∀ i j, s.Writes i → s.Writes j → i = j

lemma writes_iff : s.Writes i ↔ (s.cursors i).any Cursor.isWriting = true := by
  unfold Writes
  cases s.cursors i with
  | none => simp
  | some c => cases c <;> simp [Cursor.isWriting]

lemma Sound.update (hs : s.Sound) {db : Database} {c? : Option Cursor}
    (h : Locks s.db ((s.cursors i).any Cursor.isWriting) db (c?.any Cursor.isWriting)) :
    Sound ⟨db, Function.update s.cursors i c?⟩ := by
  have hat : Writes ⟨db, Function.update s.cursors i c?⟩ i ↔ c?.any Cursor.isWriting = true := by
    rw [writes_iff]
    simp
  have helse : ∀ j, j ≠ i → (Writes ⟨db, Function.update s.cursors i c?⟩ j ↔ s.Writes j) := by
    intro j hj
    rw [writes_iff, writes_iff]
    simp [hj]
  cases h with
  | keeps same lock =>
    have hall : ∀ j, Writes ⟨db, Function.update s.cursors i c?⟩ j ↔ s.Writes j := by
      intro j
      by_cases hj : j = i
      · rw [hj, hat, same, ← writes_iff]
      · exact helse j hj
    refine ⟨?_, fun j k hj hk => hs.single j k ((hall j).1 hj) ((hall k).1 hk)⟩
    simp only [hall]
    rw [← hs.lock, ← lock]
  | takes waits free writes taken =>
    -- Nobody wrote before, so only this one does now.
    have hnone : ∀ j, ¬ s.Writes j := fun j hj => by simp [hs.lock.2 ⟨j, hj⟩] at free
    have honly : ∀ j, Writes ⟨db, Function.update s.cursors i c?⟩ j → j = i := fun j hj =>
      by_contra fun hne => hnone j ((helse j hne).1 hj)
    exact ⟨⟨fun _ => ⟨i, hat.2 writes⟩, fun _ => taken⟩, fun j k hj hk =>
      (honly j hj).trans (honly k hk).symm⟩
  | gives writes waits free =>
    have hnone : ∀ j, ¬ Writes ⟨db, Function.update s.cursors i c?⟩ j := by
      intro j hj
      by_cases hne : j = i
      · rw [hne, hat, waits] at hj
        exact nomatch hj
      · exact hne (hs.single j i ((helse j hne).1 hj) (writes_iff.2 writes))
    exact ⟨⟨fun hopen => by simp [show db.writerOpen = false from free] at hopen,
      fun ⟨j, hj⟩ => absurd hj (hnone j)⟩, fun j _ hj _ => absurd hj (hnone j)⟩

/-- Every step keeps the lock sound. -/
lemma Sound.step (hs : s.Sound) (e : CursorEvent) : (s.step e).Sound := by
  have hstep := s.steps e
  generalize s.step e = s' at hstep ⊢
  cases hstep with
  | still => exact hs
  | opens closed => exact hs.update (.keeps (by rw [closed]; rfl) rfl)
  | @drops i c isOpen =>
    refine hs.update ?_
    rw [isOpen]
    exact Session.locks_release ⟨s.db, c⟩
  | asks isOpen effect =>
    refine hs.update ?_
    rw [isOpen]
    exact effect.locks

/-- A step that does not end a transaction of cursor `i` leaves that cursor as it is, or asks it for
something. -/
lemma kept_or_asked (h : s.cursors i = some c) (still : ¬ (e.cursor = i ∧ e.Ends)) :
    (s.step e).cursors i = some c ∧ e.change? i = none ∨ ∃ r, e = .asked i r ∧ ¬ r.Ends := by
  by_cases hown : e.cursor = i
  · subst hown
    cases e with
    | opened j =>
      have hj : s.cursors j = some c := h
      exact .inl ⟨by simp only [SharedDatabase.step, hj]; exact hj, rfl⟩
    | dropped j => exact absurd ⟨rfl, trivial⟩ still
    | asked j r => exact .inr ⟨r, rfl, fun ends => still ⟨rfl, ends⟩⟩
  · rw [cursors_step_of_ne s hown]
    exact .inl ⟨h, CursorEvent.change?_of_ne hown⟩

/-- Cursor `i` is in a write transaction that began over `base` and was asked for the changes `ms`.
-/
structure Working (s : SharedDatabase) (i : Nat) (base : Tables) (ms : List Mutation) : Prop where
  sound : s.Sound
  committed : s.db.committed.tables = base
  staged : ∃ touched, s.cursors i = some (.writing (Mutation.applyAll ms base) touched)

/-- Nobody else commits while a writer is at work, so all that changes is what it changes itself. -/
lemma Working.step {base : Tables} {ms : List Mutation} (h : s.Working i base ms)
    (still : ¬ (e.cursor = i ∧ e.Ends)) : (s.step e).Working i base (ms ++ changes i [e]) := by
  obtain ⟨touched, hcursor⟩ := h.staged
  have hcommits : ¬ s.Commits e := by
    rintro ⟨j, r, rfl, publishing, hwrites⟩
    exact still ⟨h.sound.single j i hwrites ⟨_, _, hcursor⟩, publishing.ends⟩
  refine ⟨h.sound.step e, by rw [committed_step hcommits, h.committed], ?_⟩
  rcases kept_or_asked hcursor still with ⟨hkept, hchange⟩ | ⟨r, rfl, hends⟩
  · exact ⟨touched, by rw [hkept, CursorEvent.append_changes hchange]⟩
  · obtain ⟨answer, x, heffect, -, -, hx⟩ := asked hcursor r
    rw [hx]
    cases heffect with
    | alreadyOpen | flushes | defragments =>
      exact ⟨touched, by rw [CursorEvent.append_changes rfl]⟩
    | changes _ _ _ touched' m =>
      exact ⟨touched', by simp [CursorEvent.changes, CursorEvent.change?, Mutation.applyAll]⟩
    | refused readOnly => exact absurd rfl (readOnly _ _)
    | publishes _ publishing => exact absurd publishing.ends hends
    | discards ends => exact absurd ends hends

lemma Working.run {base : Tables} {ms : List Mutation} {during : List CursorEvent}
    (h : s.Working i base ms) (still : ∀ e ∈ during, ¬ (e.cursor = i ∧ e.Ends)) :
    (during.foldl SharedDatabase.step s).Working i base (ms ++ changes i during) := by
  induction during generalizing s ms with
  | nil => simpa [changes] using h
  | cons e rest ih =>
    have hstep := h.step (still e List.mem_cons_self)
    have hrest := ih hstep fun e' he => still e' (List.mem_cons_of_mem _ he)
    rw [List.append_assoc, changes, changes, ← List.filterMap_append] at hrest
    exact hrest

/-- A read transaction keeps its view. -/
lemma reading_step {view : Tables} (h : s.cursors i = some (.reading view))
    (still : ¬ (e.cursor = i ∧ e.Ends)) : (s.step e).cursors i = some (.reading view) := by
  rcases kept_or_asked h still with ⟨hkept, -⟩ | ⟨r, rfl, hends⟩
  · exact hkept
  · obtain ⟨answer, x, heffect, -, -, hx⟩ := asked h r
    rw [hx]
    cases heffect with
    | alreadyOpen | refused | flushes | defragments => rfl
    | endsReading ends => exact absurd ends hends

lemma reading_run {view : Tables} {during : List CursorEvent}
    (h : s.cursors i = some (.reading view)) (still : ∀ e ∈ during, ¬ (e.cursor = i ∧ e.Ends)) :
    (during.foldl SharedDatabase.step s).cursors i = some (.reading view) := by
  induction during generalizing s with
  | nil => exact h
  | cons e rest ih =>
    exact ih (reading_step h (still e List.mem_cons_self))
      fun e' he => still e' (List.mem_cons_of_mem _ he)

/-- The shared database after the steps of an interleaving. -/
def after (events : List CursorEvent) : SharedDatabase := events.foldl SharedDatabase.step fresh

variable {events before during : List CursorEvent} {readOnly : Bool}

lemma after_append (before more : List CursorEvent) :
    after (before ++ more) = more.foldl SharedDatabase.step (after before) :=
  List.foldl_append

lemma after_concat (before : List CursorEvent) (e : CursorEvent) :
    after (before ++ [e]) = (after before).step e := after_append before [e]

lemma sound_after (events : List CursorEvent) : (after events).Sound := by
  induction events using List.reverseRecOn with
  | nil => exact ⟨by simp [after, fresh, Database.fresh, Writes], by simp [after, fresh, Writes]⟩
  | append_singleton events e ih =>
    rw [after_concat]
    exact ih.step e

/-- `during` is what happens right after cursor `i` began a transaction, which came after `before`,
as long as that transaction is open. -/
structure Span (before : List CursorEvent) (i : Nat) (readOnly : Bool)
    (during : List CursorEvent) : Prop where
  begun : (after before).answer? i (.begin readOnly) = some (.ok true)
  still : ∀ e ∈ during, ¬ (e.cursor = i ∧ e.Ends)

namespace Span

/-- A cursor that begins a transaction sees what is committed, and goes on seeing that. -/
lemma start (h : Span before i readOnly during) :
    ((after before).step (.asked i (.begin readOnly))).cursors i =
      some (if readOnly then .reading (after before).db.committed.tables
        else .writing (after before).db.committed.tables false) := by
  obtain ⟨c, hcursor, -⟩ := Option.map_eq_some_iff.1 h.begun
  obtain ⟨answer, x, heffect, hanswer, -, hx⟩ := asked hcursor (.begin readOnly)
  obtain rfl : answer = .ok true := Option.some.inj (hanswer.symm.trans h.begun)
  rw [hx]
  cases heffect with
  | beginsReading | beginsWriting => rfl
  | endsReading ends | publishes _ ends | discards ends | nothingOpen ends => exact ends.elim

lemma reading (h : Span before i true during) :
    (after (before ++ .asked i (.begin true) :: during)).cursors i =
      some (.reading (after before).db.committed.tables) := by
  rw [after_append, List.foldl_cons]
  exact reading_run h.start h.still

lemma working (h : Span before i false during) :
    (after (before ++ .asked i (.begin false) :: during)).Working i
      (after before).db.committed.tables (changes i during) := by
  have hcommits : ¬ (after before).Commits (.asked i (.begin false)) := by
    rintro ⟨j, r, heq, publishing, -⟩
    cases heq
    exact publishing.elim
  have hstart : ((after before).step (.asked i (.begin false))).Working i
      (after before).db.committed.tables [] :=
    ⟨(sound_after before).step _, by rw [committed_step hcommits], false, h.start⟩
  rw [after_append, List.foldl_cons]
  exact hstart.run h.still

end Span

lemma Span.concat (h : Span before i readOnly during) (still : ¬ (e.cursor = i ∧ e.Ends)) :
    Span before i readOnly (during ++ [e]) := by
  refine ⟨h.begun, fun e' he => ?_⟩
  rcases List.mem_append.1 he with he | he
  · exact h.still e' he
  · rwa [List.mem_singleton.1 he]

/-- A cursor in a transaction was in it before the step, or has begun it with the step. -/
lemma inTransaction_before (h : (s.step e).cursors i = some c) (opened : c.inTransaction = true) :
    (∃ c', s.cursors i = some c' ∧ c'.inTransaction = true ∧ ¬ (e.cursor = i ∧ e.Ends)) ∨
      ∃ readOnly, e = .asked i (.begin readOnly) ∧
        s.answer? i (.begin readOnly) = some (.ok true) := by
  by_cases hown : e.cursor = i
  · cases e with
    | opened j =>
      obtain rfl : j = i := hown
      cases hj : s.cursors j with
      | none =>
        simp only [SharedDatabase.step, hj, Function.update_self, Option.some.injEq] at h
        subst h
        exact nomatch opened
      | some c' =>
        simp only [SharedDatabase.step, hj, Option.some.injEq] at h
        exact .inl ⟨c', rfl, h ▸ opened, fun h => h.2⟩
    | dropped j =>
      obtain rfl : j = i := hown
      cases hj : s.cursors j <;> simp [SharedDatabase.step, hj] at h
    | asked j r =>
      obtain rfl : j = i := hown
      cases hj : s.cursors j with
      | none => simp [SharedDatabase.step, hj] at h
      | some c' =>
        obtain ⟨answer, x, heffect, hanswer, -, hx⟩ := asked hj r
        obtain rfl : x.cursor = c := Option.some.inj (hx.symm.trans h)
        cases heffect with
        | beginsReading => exact .inr ⟨true, rfl, hanswer⟩
        | beginsWriting => exact .inr ⟨false, rfl, hanswer⟩
        | busy | endsReading | publishes | discards | nothingOpen => exact nomatch opened
        | alreadyOpen => exact .inl ⟨_, rfl, opened, fun h => h.2⟩
        | changes => exact .inl ⟨_, rfl, rfl, fun h => h.2⟩
        | refused | flushes | defragments => exact .inl ⟨_, rfl, opened, fun h => h.2⟩
  · rw [cursors_step_of_ne s hown] at h
    exact .inl ⟨c, h, opened, fun h => hown h.1⟩

/-- Whoever is in a transaction has begun it at some step. -/
lemma exists_span (events : List CursorEvent) (h : (after events).cursors i = some c)
    (opened : c.inTransaction = true) : ∃ before readOnly during,
      events = before ++ .asked i (.begin readOnly) :: during ∧ Span before i readOnly during := by
  induction events using List.reverseRecOn generalizing c with
  | nil => exact nomatch h
  | append_singleton events e ih =>
    rw [after_concat] at h
    rcases inTransaction_before h opened with ⟨c', hc', hopen, still⟩ | ⟨readOnly, rfl, begun⟩
    · obtain ⟨before, readOnly, during, rfl, hspan⟩ := ih hc' hopen
      exact ⟨before, readOnly, during ++ [e], by simp, hspan.concat still⟩
    · exact ⟨events, readOnly, [], rfl, begun, by simp⟩

variable {s' : SharedDatabase} {t : Tables}

lemma sees_view (h : s.cursors i = some c) : s.Sees i (Session.mk s.db c).view :=
  ⟨c, h, fun _ => rfl⟩

lemma Sees.exists_view (h : s.Sees i t) :
    ∃ c, s.cursors i = some c ∧ (Session.mk s.db c).view = t := by
  obtain ⟨c, hc, hread⟩ := h
  have hview := congrArg Prod.fst (hread fun t => .ok t)
  rw [StoreM.on_read] at hview
  exact ⟨c, hc, Except.ok.inj hview⟩

/-- What a cursor sees depends on the cursor and on what is committed. -/
lemma Sees.congr (h : s.Sees i t) (cursor : s'.cursors i = s.cursors i)
    (committed : s'.db.committed = s.db.committed) : s'.Sees i t := by
  obtain ⟨c, hcursor, rfl⟩ := h.exists_view
  have hview : (Session.mk s.db c).view = (Session.mk s'.db c).view := by
    cases c <;> simp only [Session.view, committed]
  rw [hview]
  exact sees_view (cursor.trans hcursor)

/-- Beginning to write is refused while some cursor writes, or if a transaction is open. -/
lemma Sound.answer?_begin (hs : s.Sound) (h : s.cursors i = some c) :
    (∃ e, s.answer? i (.begin false) = some (.error e)) ↔
      (∃ j, s.Writes j) ∨ c.inTransaction = true := by
  obtain ⟨answer, x, heffect, hanswer, -, -⟩ := asked h (.begin false)
  rw [hanswer, ← hs.lock]
  cases heffect with
  | beginsWriting free => simp [free, Cursor.inTransaction]
  | busy taken => simp [taken]
  | alreadyOpen opened => simpa using .inr opened
  | endsReading ends | publishes _ ends | discards ends | nothingOpen ends => exact ends.elim

lemma answer?_mutate {touched : Bool} (h : s.cursors i = some (.writing t touched)) (m : Mutation) :
    s.answer? i (.mutate m) = some (m.apply t).1 := by
  obtain ⟨touched', hact⟩ := m.on_act_writing s.db t touched
  rw [answer?, h, Option.map_some, Request.act, hact]

/-- A commit of a writer publishes what it staged. -/
lemma committed_step_of_publishes {touched : Bool} {r : Request}
    (h : s.cursors i = some (.writing t touched)) (publishing : r.Publishes) :
    (s.step (.asked i r)).db.committed.tables = t := by
  obtain ⟨answer, x, heffect, -, hx, -⟩ := asked h r
  rw [hx]
  cases heffect with
  | publishes => rfl
  | discards _ discarding => exact absurd publishing discarding
  | alreadyOpen | changes | refused | flushes | defragments => exact publishing.elim

/-- A request that ends a transaction leaves the cursor idle. -/
lemma cursors_step_of_ends {r : Request} (h : s.cursors i = some c) (ends : r.Ends) :
    (s.step (.asked i r)).cursors i = some .idle := by
  obtain ⟨answer, x, heffect, -, -, hx⟩ := asked h r
  rw [hx]
  cases heffect with
  | endsReading | publishes | discards | nothingOpen => rfl
  | beginsReading | beginsWriting | busy | alreadyOpen | changes | refused | flushes
  | defragments => exact ends.elim

lemma Sound.lock_step_of_ends {r : Request} (hs : s.Sound) (h : s.cursors i = some c)
    (ends : r.Ends) : (s.step (.asked i r)).db.writerOpen = true ↔ ∃ j, j ≠ i ∧ s.Writes j := by
  rw [(hs.step _).lock]
  have hidle := cursors_step_of_ends h ends
  have hother : ∀ j, j ≠ i → ((s.step (.asked i r)).Writes j ↔ s.Writes j) := by
    intro j hj
    rw [writes_iff, writes_iff, cursors_step_of_ne s (Ne.symm hj)]
  constructor
  · rintro ⟨j, hj⟩
    have hne : j ≠ i := by
      rintro rfl
      rw [writes_iff, hidle] at hj
      exact nomatch hj
    exact ⟨j, hne, (hother j hne).1 hj⟩
  · rintro ⟨j, hne, hj⟩
    exact ⟨j, (hother j hne).2 hj⟩

/-- The tables are the empty ones, or those that some commit left. -/
def Completed (events : List CursorEvent) (t : Tables) : Prop :=
  t = .empty ∨ ∃ before e rest, events = before ++ e :: rest ∧ (after before).Commits e ∧
    t = (after (before ++ [e])).db.committed.tables

lemma Completed.concat (h : Completed events t) (e : CursorEvent) :
    Completed (events ++ [e]) t := by
  rcases h with h | ⟨before, e', rest, rfl, hcommits, ht⟩
  · exact .inl h
  · exact .inr ⟨before, e', rest ++ [e], by simp, hcommits, ht⟩

/-- What is committed, and what is durable, comes from a commit. -/
lemma completed_after (events : List CursorEvent) :
    Completed events (after events).db.committed.tables ∧
      Completed events (after events).db.flushed.tables := by
  induction events using List.reverseRecOn with
  | nil => exact ⟨.inl rfl, .inl rfl⟩
  | append_singleton events e ih =>
    obtain ⟨hcommitted, hflushed⟩ := ih
    constructor
    · by_cases hcommits : (after events).Commits e
      · exact .inr ⟨events, e, [], rfl, hcommits, rfl⟩
      · rw [after_concat, committed_step hcommits]
        exact hcommitted.concat e
    · rw [after_concat]
      rcases flushed_step (after events) e with heq | heq <;> rw [heq]
      · exact hflushed.concat e
      · exact hcommitted.concat e

/-- What holds of a database after any steps of any cursors. -/
structure Isolated (events : List CursorEvent) : Prop where
  /-- At most one cursor is in a write transaction. -/
  single : ∀ i j, (after events).Writes i → (after events).Writes j → i = j
  /-- An open cursor is refused a write transaction exactly if some cursor is in one, or if it has a
  transaction itself. -/
  admission : ∀ i c, (after events).cursors i = some c →
    ((∃ e, (after events).answer? i (.begin false) = some (.error e)) ↔
      (∃ j, (after events).Writes j) ∨ c.inTransaction = true)
  /-- Whoever is in a transaction has begun it at some step, and has not ended it since. -/
  begun : ∀ i c, (after events).cursors i = some c → c.inTransaction = true →
    ∃ before readOnly during, events = before ++ .asked i (.begin readOnly) :: during ∧
      Span before i readOnly during
  /-- Outside a transaction a cursor sees what was committed last. -/
  outside : ∀ i, (after events).cursors i = some .idle →
    (after events).Sees i (after events).db.committed.tables
  /-- In a read transaction it sees what was committed when that began. -/
  reading : ∀ before i during, events = before ++ .asked i (.begin true) :: during →
    Span before i true during → (after events).Sees i (after before).db.committed.tables
  /-- In a write transaction it sees this with its own changes made in order; the next change is
  answered accordingly. -/
  writing : ∀ before i during, events = before ++ .asked i (.begin false) :: during →
    Span before i false during →
      (after events).Sees i
        (Mutation.applyAll (changes i during) (after before).db.committed.tables) ∧
      ∀ m, (after events).answer? i (.mutate m) = some
        (m.apply (Mutation.applyAll (changes i during) (after before).db.committed.tables)).1
  /-- Its commit makes just these changes, in order, to what was committed until then. -/
  committing : ∀ before i during r, events = before ++ .asked i (.begin false) :: during →
    Span before i false during → r.Publishes →
      (after (events ++ [.asked i r])).db.committed.tables =
        Mutation.applyAll (changes i during) (after events).db.committed.tables
  /-- No other step changes what is committed, or what another cursor sees. -/
  hidden : ∀ e, ¬ (after events).Commits e →
    (after (events ++ [e])).db.committed = (after events).db.committed ∧
      ∀ j t, j ≠ e.cursor → (after events).Sees j t → (after (events ++ [e])).Sees j t
  /-- What is durable is what some commit left, or the empty tables. -/
  durable : Completed events (after events).db.flushed.tables
  /-- A guard that has ended, whatever became of its transaction before, leaves its cursor idle, and
  the lock free unless another cursor holds it. -/
  ended : ∀ i c r, r = .conclude ∨ r = .abandon → (after events).cursors i = some c →
    (after (events ++ [.asked i r])).cursors i = some .idle ∧
      ((after (events ++ [.asked i r])).db.writerOpen = true ↔
        ∃ j, j ≠ i ∧ (after events).Writes j)

/-- Cursors are isolated from each other in every interleaving of their requests. The work of a
ledger is among these: what it does in a write transaction of its own, a cursor does under a guard
(`StoreM.atomically_eq_guarded`). -/
theorem snapshot_isolation (events : List CursorEvent) : Isolated events where
  single := (sound_after events).single
  admission i c hcursor := (sound_after events).answer?_begin hcursor
  begun i c hcursor opened := exists_span events hcursor opened
  outside i hidle := sees_view hidle
  reading before i during hevents hspan := by
    subst hevents
    exact sees_view hspan.reading
  writing before i during hevents hspan := by
    subst hevents
    obtain ⟨touched, hcursor⟩ := hspan.working.staged
    exact ⟨sees_view hcursor, answer?_mutate hcursor⟩
  committing before i during r hevents hspan publishing := by
    subst hevents
    obtain ⟨touched, hcursor⟩ := hspan.working.staged
    rw [after_concat, committed_step_of_publishes hcursor publishing, hspan.working.committed]
  hidden e hcommits := by
    rw [after_concat]
    refine ⟨committed_step hcommits, fun j t hj hsees => ?_⟩
    exact hsees.congr (cursors_step_of_ne _ (Ne.symm hj)) (committed_step hcommits)
  durable := (completed_after events).2
  ended i c r hr hcursor := by
    have ends : r.Ends := by rcases hr with rfl | rfl <;> trivial
    rw [after_concat]
    exact ⟨cursors_step_of_ends hcursor ends, (sound_after events).lock_step_of_ends hcursor ends⟩

/-- While one cursor writes, another one may read but not write. -/
example : (after [.opened 0, .opened 1, .asked 0 (.begin false)]).answer? 1 (.begin true) =
      some (.ok true) ∧
    (after [.opened 0, .opened 1, .asked 0 (.begin false)]).answer? 1 (.begin false) =
      some (.error (.transactionState .writerBusy)) := ⟨rfl, rfl⟩

end SharedDatabase
end UtxoLedger

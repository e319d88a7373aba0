import Mathlib.Tactic.Common
import UtxoLedger.Proofs.Navigation
import UtxoLedger.Proofs.StaleLedgers
import UtxoLedger.Proofs.StepErrors
import UtxoLedger.Proofs.StoredChain

/-!
# Navigations

A navigation works out its way in advance and then asks for one block after the other. Each block is
committed as a whole or not at all, so wherever a navigation stops, the store is that of a chain on
the way: the target if every step was taken, and otherwise the chain before the step that was
refused. That a header comes off which the way does not name is out of the question, since the way
starts at the chain of the ledger and each step of it names the tip that it takes off.
-/
namespace UtxoLedger

open Chain (Step Leads SharedAt route)

namespace Chain.Step

/-- What a step asks of a ledger. -/
def call (step : Step) : Ledger.Call :=
  match step.direction with
  | .backward => .removeTip
  | .forward => .add step.header

/-- The headers of the steps in one direction. -/
def headersAlong (direction : Direction) (steps : List Step) : List ChainedHeader :=
  (steps.filter (·.direction = direction)).map Step.header

lemma headersAlong_append (direction : Direction) (xs ys : List Step) :
    headersAlong direction (xs ++ ys) = headersAlong direction xs ++ headersAlong direction ys := by
  simp [headersAlong]

lemma headersAlong_map (direction d : Direction) (hs : List ChainedHeader) :
    headersAlong direction (hs.map (⟨d, ·⟩)) = if d = direction then hs else [] := by
  induction hs with
  | nil => simp [headersAlong]
  | cons h hs ih =>
    simp only [headersAlong, List.map_cons, List.filter_cons] at ih ⊢
    by_cases hd : d = direction <;> simp_all

end Chain.Step

/-- The record of a walk after more steps. -/
def Reorganization.after (r : Reorganization) (steps : List Step) : Reorganization :=
  { r with
    disconnected := r.disconnected ++ Step.headersAlong .backward steps
    connected := r.connected ++ Step.headersAlong .forward steps }

namespace Reorganization

variable (r : Reorganization) (h : ChainedHeader) (step : Step) (steps : List Step)

lemma after_nil : r.after [] = r := by simp [after, Step.headersAlong]

lemma after_cons : r.after (step :: steps) = (r.after [step]).after steps := by
  rw [← List.singleton_append, after, Step.headersAlong_append, Step.headersAlong_append,
    ← List.append_assoc, ← List.append_assoc]
  rfl

lemma after_down : r.after [⟨.backward, h⟩] = { r with disconnected := r.disconnected ++ [h] } := by
  simp [after, Step.headersAlong]

lemma after_up : r.after [⟨.forward, h⟩] = { r with connected := r.connected ++ [h] } := by
  simp [after, Step.headersAlong]

/-- The record of the whole way lists the headers above the fork. -/
lemma after_route (ancestor : ChainedHeader) (source target : Chain) (f : Nat) :
    (Reorganization.mk ancestor [] []).after (route source target f) =
      ⟨ancestor, (source.headers.drop (f + 1)).reverse, target.headers.drop (f + 1)⟩ := by
  simp only [after, route, Step.headersAlong_append, Step.headersAlong_map]
  simp

end Reorganization

namespace Ledger

variable {archive : Archive} {s : LedgerSession} {step : Step} {steps : List Step}

/-- What becomes of a step to the chain `next`: it is refused and nothing has changed, or the ledger
has gone there, and a walk goes on from it. -/
inductive Stepped (archive : Archive) (s : LedgerSession) (step : Step) (next : Chain) : Prop
  | refused {e : LedgerError} (run : (step.call.run archive).on s = (.error e, s))
      (walk : ∀ r rest, (follow archive r (step :: rest)).on s = (.error e, s))
      (why : e.OfStep ∨
        ∃ header block loaded, s.ledger.rules.checkBlock header block loaded = .error e)
  | taken {s₁ : LedgerSession} (run : (step.call.run archive).on s = (.ok (), s₁))
      (walk : ∀ r rest, (follow archive r (step :: rest)).on s =
        (follow archive (r.after [step]) rest).on s₁)
      (rules : s₁.ledger.rules = s.ledger.rules) (chain : s₁.ledger.chain = next)
      (idle : s₁.ledger.cursor = .idle)

lemma stepped_down (idle : s.ledger.cursor = .idle) {below : Chain} {h : ChainedHeader}
    (shrunk : s.ledger.chain.headers = below.headers ++ [h]) :
    Stepped archive s ⟨.backward, h⟩ below := by
  have htip : s.ledger.chain.tip = h := Chain.tip_of_grown shrunk
  have hremoved := removed idle archive
  generalize hon : (removeTip archive).on s = result at hremoved
  cases hremoved with
  | refused =>
    refine .refused (LedgerM.on_bind_of_error hon) (fun r rest => ?_) ?_
    · rw [follow]
      exact LedgerM.on_bind_of_error hon
    · exact .inl (ofStep_of_removeTip hon)
  | @disconnected block t chain s₁ above found free staged removed moved =>
    obtain rfl := Chain.eq_of_removed above removed (htip ▸ shrunk)
    refine .taken (LedgerM.on_bind_of_ok hon) (fun r rest => ?_) moved.rules moved.chain moved.idle
    rw [r.after_down, follow]
    dsimp only
    rw [LedgerM.on_bind_of_ok hon, htip, if_neg (not_not.2 rfl)]

lemma stepped_up (idle : s.ledger.cursor = .idle) {above : Chain} {h : ChainedHeader}
    (grown : above.headers = s.ledger.chain.headers ++ [h]) :
    Stepped archive s ⟨.forward, h⟩ above := by
  have hadded := added idle archive h
  generalize hon : (add archive h).on s = result at hadded
  cases hadded with
  | refused =>
    refine .refused hon (fun r rest => ?_) ?_
    · rw [follow]
      exact LedgerM.on_bind_of_error hon
    · rcases ofStep_of_add hon with hstep | hrules
      · exact .inl hstep
      · exact .inr ⟨h, hrules⟩
  | @connected block t chain s₁ found free staged added moved =>
    obtain rfl : chain = above :=
      Chain.ext_headers ((Chain.add_eq_ok.1 added).2.trans grown.symm)
    refine .taken hon (fun r rest => ?_) moved.rules moved.chain moved.idle
    rw [r.after_up, follow]
    exact LedgerM.on_bind_of_ok hon

/-- How following steps ends: behind the last of them, or before one that was refused. -/
inductive Followed (s : LedgerSession) (r : Reorganization) (steps : List Step) :
    Except LedgerError Reorganization × LedgerSession → Prop
  | arrived {s' : LedgerSession} (leads : Leads s.ledger.chain steps s'.ledger.chain) :
      Followed s r steps (.ok (r.after steps), s')
  | stopped {taken rest : List Step} {step : Step} {e : LedgerError} {s' : LedgerSession}
      (split : steps = taken ++ step :: rest)
      (leads : Leads s.ledger.chain taken s'.ledger.chain)
      (why : e.OfStep ∨
        ∃ header block loaded, s.ledger.rules.checkBlock header block loaded = .error e) :
      Followed s r steps (.error e, s')

/-- A step, and what comes after it if it is taken. -/
lemma Stepped.followed {next : Chain} (stepped : Stepped archive s step next)
    (leads : ∀ {taken c}, Leads next taken c → Leads s.ledger.chain (step :: taken) c)
    (more : ∀ s₁ r, s₁.ledger.cursor = .idle → s₁.ledger.chain = next →
      Followed s₁ r steps ((follow archive r steps).on s₁)) (r : Reorganization) :
    Followed s r (step :: steps) ((follow archive r (step :: steps)).on s) := by
  cases stepped with
  | refused _ walk why =>
    rw [walk]
    exact .stopped (List.nil_append _).symm (.here _) why
  | @taken s₁ _ walk rules chain idle =>
    have rest := more s₁ (r.after [step]) idle chain
    rw [walk]
    generalize (follow archive (r.after [step]) steps).on s₁ = result at rest
    cases rest with
    | arrived hleads =>
      rw [← r.after_cons]
      exact .arrived (leads (chain ▸ hleads))
    | stopped split hleads why =>
      rw [rules] at why
      exact .stopped (by rw [split, List.cons_append]) (leads (chain ▸ hleads)) why

/-- Steps that lead somewhere are followed to their end or up to a step that is refused. -/
theorem followed (idle : s.ledger.cursor = .idle) {last : Chain}
    (leads : Leads s.ledger.chain steps last) (r : Reorganization) :
    Followed s r steps ((follow archive r steps).on s) := by
  generalize hc : s.ledger.chain = c at leads
  induction leads generalizing s r with
  | here c =>
    have harrived : Followed s r [] (.ok (r.after []), s) := .arrived (.here _)
    rwa [r.after_nil] at harrived
  | down shrunk _ ih =>
    rw [← hc] at shrunk
    exact (stepped_down idle shrunk).followed (.down shrunk) (fun s₁ r idle => ih idle r) r
  | up grown _ ih =>
    rw [← hc] at grown
    exact (stepped_up idle grown).followed (.up grown) (fun s₁ r idle => ih idle r) r

end Ledger

/-- The nodes that come out of a run with one ledger at a time on a store that is empty at first.
Blocks come into the archive at any time, but the body under a name never changes. Headers may go by
names that are not theirs; a ledger is let go only while the name of its tip is right, since another
one would not find that tip. -/
inductive Attended (genesis : ChainedHeader) (H : ChainedHeader → Prop) : Node → Prop
  | fresh : Attended genesis H ⟨.fresh, .empty, none⟩
  | stored {db : Database} {archive : Archive} {ledger? : Option Ledger}
      (before : Attended genesis H ⟨db, archive, ledger?⟩) (block : Block)
      (bounds : block.InBounds)
      (same : ∀ old, archive.block? block.hash = some old → old = block) :
      Attended genesis H ⟨db, archive.add block, ledger?⟩
  | opened {db : Database} {archive : Archive} (before : Attended genesis H ⟨db, archive, none⟩)
      (rules : Rules) (settings : Settings) :
      Attended genesis H ⟨(Ledger.openOn db rules settings genesis).2, archive,
        (Ledger.openOn db rules settings genesis).1.toOption⟩
  | called {db : Database} {archive : Archive} {l : Ledger}
      (before : Attended genesis H ⟨db, archive, some l⟩) {call : Ledger.Call}
      (known : ∀ h ∈ call.headers, H h) :
      Attended genesis H ⟨((call.run archive).on ⟨l, db⟩).2.db, archive,
        some ((call.run archive).on ⟨l, db⟩).2.ledger⟩
  | dropped {db : Database} {archive : Archive} {l : Ledger}
      (before : Attended genesis H ⟨db, archive, some l⟩)
      (real : l.chain.tip.hash = l.chain.tip.header.hash) :
      Attended genesis H ⟨l.closeOn db, archive, none⟩

/-- Runs with right names throughout are such runs, under whatever rules and settings. -/
lemma Reachable.attended {genesis : ChainedHeader} {H : ChainedHeader → Prop}
    {P : Rules → Settings → Prop} (gen : GenuineHeaders genesis H) {n : Node}
    (run : Reachable genesis H P n) : Attended genesis H n := by
  induction run with
  | fresh => exact .fresh
  | stored _ block bounds same ih => exact ih.stored block bounds same
  | opened _ _ ih => exact ih.opened _ _
  | @dropped db archive l before ih =>
    have hf := (before.sound gen).follows l rfl
    exact ih.dropped (gen.real _ (hf.known _ (List.getLast_mem _)))
  | called _ known ih => exact ih.called known

/-- The committed headers, unspent set and counters are those of an empty store into which the chain
was built: genesis, then every block above it, once, in order. -/
def Database.HoldsReplay (db : Database) (archive : Archive) (chain : Chain) : Prop :=
  ∃ s : Session, (chain.rebuild archive).on ⟨.fresh, .idle⟩ = (.ok chain, s) ∧
    db.committed.tables.headers = s.db.committed.tables.headers ∧
    db.committed.tables.unspent = s.db.committed.tables.unspent ∧
    db.committed.tables.counters = s.db.committed.tables.counters

/-- A ledger whose store is that of its chain, with right names below the tip. -/
structure Tracks (genesis : ChainedHeader) (H : ChainedHeader → Prop) (archive : Archive)
    (s : LedgerSession) : Prop where
  stores : Ledger.Stores genesis s
  known : ∀ h ∈ s.ledger.chain.headers, H h
  built : ∃ t, Built archive s.ledger.chain t ∧ Agrees False s.db.committed.tables t

namespace Tracks

variable {genesis header : ChainedHeader} {H : ChainedHeader → Prop} {archive : Archive}
  {s s' : LedgerSession}

lemma genuineBelow (told : ToldApart H) (ht : Tracks genesis H archive s) :
    s.ledger.chain.GenuineBelow := ⟨ht.stores.lists.real, told.distinct _ ht.known⟩

lemma holdsReplay (told : ToldApart H) (sound : archive.Sound) (ht : Tracks genesis H archive s) :
    s.db.HoldsReplay archive s.ledger.chain := by
  obtain ⟨t, built, agrees⟩ := ht.built
  obtain ⟨db, rfl, -, hon⟩ := built.on_rebuild_of_below sound (ht.genuineBelow told)
  exact ⟨_, hon, agrees.headers, agrees.unspent, agrees.counters⟩

lemma add (told : ToldApart H) (sound : archive.Sound) (ht : Tracks genesis H archive s)
    (hH : H header) (hon : (Ledger.add archive header).on s = (.ok (), s')) :
    Tracks genesis H archive s' := by
  have stores := ht.stores.add hon
  have hadded := Ledger.added ht.stores.idle archive header
  rw [hon] at hadded
  cases hadded with
  | @connected block live' chain s' found free staged grown moved =>
    obtain ⟨t, built, agrees⟩ := ht.built
    have grown := (Chain.add_eq_ok.1 grown).2
    have known := (Chain.forall_mem_iff_of_grown grown).2 ⟨ht.known, hH⟩
    rw [← moved.chain] at grown known
    have genuine : s'.ledger.chain.GenuineBelow :=
      ⟨stores.lists.real, told.distinct _ known⟩
    obtain ⟨cs, loaded, c, U, hcs, connects, -, agrees'⟩ := built.connect sound genuine agrees
      False.elim grown staged
    refine ⟨stores, known, _, .above built found hcs connects grown, ?_⟩
    rw [moved.tables]
    exact agrees'

lemma removeTip (told : ToldApart H) (sound : archive.Sound) (ht : Tracks genesis H archive s)
    (hon : (Ledger.removeTip archive).on s = (.ok header, s')) : Tracks genesis H archive s' := by
  have stores := ht.stores.removeTip hon
  have genuine := (ht.genuineBelow told).genuine (ht.stores.real_of_removeTip hon)
  have hremoved := Ledger.removed ht.stores.idle archive
  rw [hon] at hremoved
  cases hremoved with
  | @disconnected block live' chain s' above found free staged shrunk moved =>
    obtain ⟨t, built, agrees⟩ := ht.built
    obtain ⟨below, block', t₀, built₀, grown, found', hsucceeds, -⟩ :=
      built.undo sound genuine agrees above
    cases found.symm.trans found'
    obtain ⟨cs, hwhole⟩ := Ledger.staged_disconnectBlock.1 staged
    obtain ⟨-, agrees₀, -⟩ := hsucceeds cs live' hwhole
    obtain rfl := Chain.eq_of_removed above shrunk grown
    refine ⟨stores, ?_, ?_⟩
    · rw [moved.chain]
      exact ((Chain.forall_mem_iff_of_grown grown).1 ht.known).1
    · rw [moved.chain, moved.tables]
      exact ⟨t₀, built₀, agrees₀⟩

/-- Every call keeps the store that of the chain. -/
lemma kept (told : ToldApart H) (sound : archive.Sound) :
    Ledger.Kept archive H (Tracks genesis H archive) where
  idle ht := ht.stores.idle
  add hH ht hon := ht.add told sound hH hon
  removeTip ht hon := ht.removeTip told sound hon
  flush ht := ⟨(Ledger.Stores.kept archive genesis).flush ht.stores, ht.known, ht.built⟩

lemma within {a : Archive} (ht : Tracks genesis H archive s) (hw : archive.Within a) :
    Tracks genesis H a s := by
  obtain ⟨t, built, agrees⟩ := ht.built
  exact ⟨ht.stores, ht.known, t, built.within hw, agrees⟩

end Tracks

/-- A store that no ledger works on is empty, or that of a chain with right names. -/
def LiesReady (H : ChainedHeader → Prop) (archive : Archive) (t : Tables) : Prop :=
  t = .empty ∨ ∃ chain full, (∀ h ∈ chain.headers, H h) ∧ chain.Genuine ∧
    Built archive chain full ∧ Agrees False t full

lemma LiesReady.within {H : ChainedHeader → Prop} {archive a : Archive} {t : Tables}
    (h : LiesReady H archive t) (hw : archive.Within a) : LiesReady H a t := by
  rcases h with hempty | ⟨chain, full, known, genuine, built, agrees⟩
  · exact .inl hempty
  · exact .inr ⟨chain, full, known, genuine, built.within hw, agrees⟩

/-- Opening seeds an empty store, and takes the chain of a filled one over. -/
lemma LiesReady.opened {H : ChainedHeader → Prop} {archive : Archive} {db : Database}
    (h : LiesReady H archive db.committed.tables) (sound : archive.Sound) (rules : Rules)
    (settings : Settings) {genesis : ChainedHeader} (known : H genesis) :
    match Ledger.openOn db rules settings genesis with
    | (.ok l, db') => (∀ h ∈ l.chain.headers, H h) ∧
        ∃ t, Built archive l.chain t ∧ Agrees False db'.committed.tables t
    | (.error _, db') => LiesReady H archive db'.committed.tables := by
  have hstored {chain : Chain} {full : Tables} (genuine : chain.Genuine)
      (built : Built archive chain full) (agrees : Agrees False db.committed.tables full) :
      db.committed.tables.chainHeaders = .ok chain.headers := by
    have hheaders := (built.solid sound genuine).chainHeaders genuine
    simp only [Tables.chainHeaders, Tables.records, Tables.get] at hheaders ⊢
    rw [agrees.headers, hheaders]
  have hopened := Ledger.opening db rules settings genesis
  generalize Ledger.openOn db rules settings genesis = r at hopened ⊢
  cases hopened with
  | @seeded t chain n height empty free staged headers =>
    rcases h with hempty | ⟨chain₀, full, -, genuine, built, agrees⟩
    · rw [hempty] at staged
      cases (Ledger.staged_seeding genesis).symm.trans staged
      refine ⟨fun h hh => ?_, _, .genesis headers, .refl _ _⟩
      rw [headers, List.mem_singleton] at hh
      rw [hh]
      exact known
    · have hlist := Except.ok.inj ((hstored genuine built agrees).symm.trans empty)
      exact absurd hlist chain₀.nonempty
  | @loaded chain height stored same =>
    rcases h with hempty | ⟨chain₀, full, hknown, genuine, built, agrees⟩
    · rw [hempty] at stored
      exact absurd (Except.ok.inj stored).symm chain.nonempty
    · have hlist := Except.ok.inj ((hstored genuine built agrees).symm.trans stored)
      obtain rfl := Chain.ext_headers hlist
      exact ⟨hknown, full, built, agrees⟩
  | refused => exact h

namespace Attended

variable {genesis : ChainedHeader} {H : ChainedHeader → Prop} {n : Node}

lemma alone (run : Attended genesis H n) : Alone n.db (n.ledger?.map (genesis, ·)) := by
  induction run with
  | fresh => exact .fresh
  | stored _ _ _ _ ih => exact ih
  | opened _ rules settings ih => exact ih.opened rules settings genesis
  | called _ _ ih => exact ih.called _ _
  | dropped _ _ ih => exact ih.dropped

/-- What such a run keeps. -/
theorem sound (told : ToldApart H) (known : H genesis) (run : Attended genesis H n) :
    n.archive.Sound ∧ match n.ledger? with
      | some l => Tracks genesis H n.archive ⟨l, n.db⟩
      | none => LiesReady H n.archive n.db.committed.tables := by
  induction run with
  | fresh =>
    refine ⟨fun hash block hfound => ?_, .inl rfl⟩
    simp [Archive.block?, Archive.empty] at hfound
  | @stored db archive ledger? before block bounds same ih =>
    have hw := Archive.within_add same
    refine ⟨ih.1.add bounds, ?_⟩
    cases ledger? with
    | some l => exact ih.2.within hw
    | none => exact ih.2.within hw
  | @opened db archive before rules settings ih =>
    have stores := (before.opened rules settings).alone.storesChain
    have hopened := ih.2.opened ih.1 rules settings known
    refine ⟨ih.1, ?_⟩
    generalize Ledger.openOn db rules settings genesis = r at stores hopened ⊢
    obtain ⟨_ | l, db'⟩ := r
    · exact hopened
    · exact ⟨stores, hopened.1, hopened.2⟩
  | called before hcall ih => exact ⟨ih.1, (Tracks.kept told ih.1).after_call hcall ih.2⟩
  | @dropped db archive l before real ih =>
    obtain ⟨hsound, ht⟩ := ih
    obtain ⟨t, built, agrees⟩ := ht.built
    rw [Ledger.closeOn_of_idle ht.stores.idle]
    exact ⟨hsound, .inr ⟨_, t, ht.known, (ht.genuineBelow told).genuine real, built, agrees⟩⟩

end Attended

/-- The part of a chain up to a height is a chain. -/
lemma Chain.exists_take (c : Chain) {f : Nat} (hf : f < c.headers.length) :
    ∃ low : Chain, low.headers = c.headers.take (f + 1) ∧ low.tip = c.headers[f] := by
  obtain ⟨low, -, hlow⟩ := c.leads_down (Nat.succ_pos f) hf
  have hlength : f + 1 = low.headers.length := by
    rw [hlow, List.length_take]
    omega
  refine ⟨low, hlow, ?_⟩
  rw [low.tip_eq_getElem (by omega) hlength]
  simp only [hlow, List.getElem_take]

/-- Known chains that share a name at a height are the same up to there. -/
lemma ToldApart.take_eq {H : ChainedHeader → Prop} (told : ToldApart H) {a b : Chain}
    (ha : ∀ h ∈ a.headers, H h) (hb : ∀ h ∈ b.headers, H h) {f : Nat} (shared : SharedAt a b f) :
    a.headers.take (f + 1) = b.headers.take (f + 1) := by
  obtain ⟨hfa, hfb⟩ := shared.lt_length
  obtain ⟨x, y, hx, hy, same⟩ := Chain.sharedAt_iff.1 shared
  obtain ⟨_, rfl⟩ := List.getElem?_eq_some_iff.1 hx
  obtain ⟨_, rfl⟩ := List.getElem?_eq_some_iff.1 hy
  obtain ⟨low, hlow, htip⟩ := a.exists_take hfa
  obtain ⟨low', hlow', htip'⟩ := b.exists_take hfb
  have hheight : low.tip.height = low'.tip.height := by
    rw [← Int32.toInt_inj, htip, htip', a.heights f hfa, b.heights f hfb]
  have heq : low = low' := by
    refine told.chain_eq (fun h hh => ha h ?_) (fun h hh => hb h ?_) ?_ hheight
    · rw [hlow] at hh
      exact List.take_subset _ _ hh
    · rw [hlow'] at hh
      exact List.take_subset _ _ hh
    · rw [htip, htip', same]
  rw [← hlow, ← hlow', heq]

/-- A navigation of a ledger that no other one disturbs either succeeds or stops between two blocks.
If it succeeds, the chain of the ledger is the target, and the result lists the old headers above
the fork, newest first, and those of the target, oldest first; the depth is the number of the
former. If it fails, the chain is the old one after the steps before the refused one, none if the
chains do not meet. In both cases the committed unspent set and counters are those of that chain
built anew. No navigation takes off another header than it wants to, so that error can only be one
that the rules of the ledger brought up themselves.

Headers made one above the other are told apart by their names, as `MadeHeaders.traceable` has it;
the ones given to the ledger need not be made so. -/
theorem navigation_exact_or_stopped {genesis : ChainedHeader} {H : ChainedHeader → Prop}
    (told : ToldApart H) (known : H genesis) {db : Database} {archive : Archive} {l : Ledger}
    (run : Attended genesis H ⟨db, archive, some l⟩) {target : Chain}
    (headers : ∀ h ∈ target.headers, H h) :
    match (Ledger.navigateTo archive target).on ⟨l, db⟩ with
    | (.ok r, s) =>
      s.ledger.chain = target ∧ s.db.HoldsReplay archive target ∧
      ∃ f, SharedAt l.chain target f ∧ (∀ n, SharedAt l.chain target n → n ≤ f) ∧
        l.chain.headers.take (f + 1) = target.headers.take (f + 1) ∧
        l.chain.headers[f]? = some r.ancestor ∧
        r.disconnected = (l.chain.headers.drop (f + 1)).reverse ∧
        r.connected = target.headers.drop (f + 1) ∧
        r.depth = l.chain.headers.length - (f + 1)
    | (.error e, s) =>
      s.db.HoldsReplay archive s.ledger.chain ∧
      ((∀ n, ¬ SharedAt l.chain target n) ∧ s = ⟨l, db⟩ ∨
        ∃ f, SharedAt l.chain target f ∧ (∀ n, SharedAt l.chain target n → n ≤ f) ∧
          ∃ k < (route l.chain target f).length,
            l.chain.through ((route l.chain target f).take k) = .ok s.ledger.chain) ∧
      ∀ removed wanted, e = .inconsistent (.otherRolledBack removed wanted) →
        ∃ header block loaded, l.rules.checkBlock header block loaded = .error e := by
  obtain ⟨sound, ht⟩ := run.sound told known
  have hafter := (Tracks.kept told sound).after_navigateTo headers ht
  have replayed := hafter.holdsReplay told sound
  have hspec := Chain.Path.between_spec l.chain target
  rw [Ledger.on_navigateTo] at replayed ⊢
  cases hpath : Chain.Path.between l.chain target with
  | error e =>
    simp only [hpath] at hspec replayed ⊢
    obtain ⟨rfl, apart⟩ := hspec
    exact ⟨replayed, .inl ⟨apart, trivial⟩, fun _ _ h => nomatch h⟩
  | ok path =>
    simp only [hpath] at hspec replayed ⊢
    obtain ⟨f, shared, greatest, hancestor, -, -, placed, hrest⟩ := hspec
    obtain ⟨last, leads, hlast⟩ := Chain.leads_route shared
    have hfollowed : Ledger.Followed ⟨l, db⟩ ⟨path.ancestor, [], []⟩ (route l.chain target f)
        ((Ledger.follow archive ⟨path.ancestor, [], []⟩ (route l.chain target f)).on ⟨l, db⟩) :=
      Ledger.followed ht.stores.idle leads _
    rw [Chain.Path.steps_eq placed, hrest] at replayed ⊢
    generalize (Ledger.follow archive ⟨path.ancestor, [], []⟩ _).on ⟨l, db⟩ = result
      at hfollowed replayed ⊢
    cases hfollowed with
    | @arrived s arrived =>
      have hend : s.ledger.chain = target := by
        have hlast' := Except.ok.inj (arrived.through.symm.trans leads.through)
        rw [hlast']
        apply Chain.ext_headers
        rw [hlast, told.take_eq ht.known headers shared, List.take_append_drop]
      rw [hend] at replayed
      rw [Reorganization.after_route]
      refine ⟨hend, replayed, f, shared, greatest, told.take_eq ht.known headers shared, hancestor,
        rfl, rfl, ?_⟩
      rw [Reorganization.depth, List.length_reverse, List.length_drop]
    | @stopped taken rest step e s split leads why =>
      refine ⟨replayed, .inr ⟨f, shared, greatest, taken.length, ?_, ?_⟩, fun _ _ he => ?_⟩
      · rw [split, List.length_append, List.length_cons]
        omega
      · rw [split, List.take_left]
        exact leads.through
      · rcases why with hstep | hrules
        · rw [he] at hstep
          exact False.elim hstep
        · exact hrules

/-- Back to genesis, from the block of a coin. -/
lemma coinRetreat_evaluated : ((Ledger.navigateTo coinArchive soleChain).on
    (Ledger.Call.runAll coinArchive coinCalls coinStart)).1.toOption.isSome = true := by
  decide +kernel

theorem navigation_exact_or_stopped_coins : ∃ db l r s,
    Attended soleGenesis (· ∈ coinHeaders) ⟨db, coinArchive, some l⟩ ∧
    l.chain.headers = [soleGenesis, coinHeader] ∧
    (Ledger.navigateTo coinArchive soleChain).on ⟨l, db⟩ = (.ok r, s) ∧
    s.ledger.chain = soleChain ∧ s.db.HoldsReplay coinArchive soleChain ∧
    r.disconnected = [coinHeader] ∧ r.connected = [] := by
  obtain ⟨s₀, run, hheaders, hsome⟩ : ∃ s₀ : LedgerSession,
      Attended soleGenesis (· ∈ coinHeaders) ⟨s₀.db, coinArchive, some s₀.ledger⟩ ∧
      s₀.ledger.chain.headers = [soleGenesis, coinHeader] ∧
      ((Ledger.navigateTo coinArchive soleChain).on s₀).1.toOption.isSome = true :=
    ⟨_, coinRun_reachable.attended coinHeaders_genuine, coinRun_evaluated.1, coinRetreat_evaluated⟩
  have hsole : ∀ h ∈ soleChain.headers, h ∈ coinHeaders := by simp [soleChain, coinHeaders]
  have hnav := navigation_exact_or_stopped coinHeaders_made.traceable.toldApart
    coinHeaders_genuine.genesis run hsole
  cases hon : (Ledger.navigateTo coinArchive soleChain).on s₀ with
  | mk result s =>
    rw [hon] at hnav hsome
    cases result with
    | error e => exact absurd hsome Bool.false_ne_true
    | ok r =>
      obtain ⟨hchain, replayed, f, shared, -, -, -, hdown, hup, -⟩ := hnav
      obtain rfl : f = 0 := Nat.lt_one_iff.1 shared.lt_length.2
      rw [hheaders] at hdown
      exact ⟨_, _, r, s, run, hheaders, hon, hchain, replayed, hdown, hup⟩

end UtxoLedger

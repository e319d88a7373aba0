import Mathlib.Tactic.Common
import UtxoLedger.Proofs.RebuiltStore

/-!
# What the work on a block yields

Connecting and disconnecting a block yield one loaded transaction after the other, and a caller may
look at any number of them before it finishes. Both load the sources from places: connecting notes
its places in the journal, and disconnecting takes them from there.
-/
namespace UtxoLedger

open StoreM

namespace Progress

variable {σ α : Type} {work : σ → α → StoreM (LoadedTx × σ)} {state state' : σ} {items : List α}
  {t t' : Tables} {loaded : List LoadedTx}

/-- What comes of the next items, at most `n`, in a session. -/
def outcomes (work : σ → α → StoreM (LoadedTx × σ)) (n : Nat) (p : Progress σ α) (s : Session) :
    List (Except LedgerError LoadedTx) := (p.advance work n s).1.1

/-- The items are worked off in order, and this is what they yield. -/
inductive Yields (work : σ → α → StoreM (LoadedTx × σ)) :
    σ → List α → Tables → List LoadedTx → σ → Tables → Prop
  | nil (state : σ) (t : Tables) : Yields work state [] t [] state t
  | cons {state state₁ state₂ : σ} {a : α} {rest : List α} {t t₁ t₂ : Tables} {ld : LoadedTx}
      {loaded : List LoadedTx} (first : (work state a).staged t = .ok ((ld, state₁), t₁))
      (more : Yields work state₁ rest t₁ loaded state₂ t₂) :
      Yields work state (a :: rest) t (ld :: loaded) state₂ t₂

lemma staged_workOff_iff_yields [∀ s a, Staging (work s a)] :
    (workOff work state items).staged t = .ok (state', t') ↔
      ∃ loaded, Yields work state items t loaded state' t' := by
  induction items generalizing state t with
  | nil =>
    constructor
    · intro h
      cases h
      exact ⟨[], .nil _ _⟩
    · rintro ⟨loaded, h⟩
      cases h
      rfl
  | cons a rest ih =>
    refine staged_bind_eq_ok.trans ?_
    constructor
    · rintro ⟨⟨ld, state₁⟩, t₁, first, h⟩
      obtain ⟨loaded, more⟩ := ih.1 h
      exact ⟨ld :: loaded, .cons first more⟩
    · rintro ⟨loaded, h⟩
      cases h with
      | cons first more => exact ⟨_, _, first, ih.2 ⟨_, more⟩⟩

section Advance

variable {n : Nat} {p : Progress σ α} {a : α} {more : List α} {s s' : Session} {e : LedgerError}
  {ld : LoadedTx}

lemma advance_of_ok (hon : (work state a).on s = (.ok (ld, state'), s')) :
    advance work (n + 1) ⟨state, a :: more, false⟩ s =
      let (r, s'') := advance work n ⟨state', more, false⟩ s'
      ((.ok ld :: r.1, r.2), s'') := by
  simp only [advance, bind, StateT.bind, next?, hon]
  rfl

lemma advance_of_error (hon : (work state a).on s = (.error e, s')) :
    advance work (n + 1) ⟨state, a :: more, false⟩ s =
      let (r, s'') := advance work n ⟨state, more, true⟩ s'
      ((.error e :: r.1, r.2), s'') := by
  simp only [advance, bind, StateT.bind, next?, hon]
  rfl

end Advance

/-- A caller sees as much of it as it asks for. -/
lemma outcomes_of_yields [∀ s a, Staging (work s a)]
    (h : Yields work state items t loaded state' t') (db : Database) (touched : Bool) (n : Nat) :
    outcomes work n (start state items) ⟨db, .writing t touched⟩ = (loaded.map .ok).take n := by
  induction h generalizing touched n with
  | nil => cases n <;> rfl
  | cons first _ ih =>
    cases n with
    | zero => rfl
    | succ n =>
      obtain ⟨touched', hon⟩ := on_of_staged first db touched
      have hrest := ih touched' n
      simp only [outcomes, start] at hrest ⊢
      rw [advance_of_ok hon, List.map_cons, List.take_succ_cons, ← hrest]
      rfl

/-- However much a caller has looked at before it gets to the end: the whole work gets there too. -/
lemma finish_of_advance {fault : Inconsistency} {n : Nat} {p rest : Progress σ α}
    {seen : List (Except LedgerError LoadedTx)} {s s₁ s₂ : Session} {last : σ}
    (advanced : p.advance work n s = ((seen, rest), s₁))
    (finished : (rest.finish work fault).on s₁ = (.ok last, s₂)) :
    (p.finish work fault).on s = (.ok last, s₂) := by
  induction n generalizing p s seen with
  | zero =>
    cases advanced
    exact finished
  | succ n ih =>
    obtain ⟨state, pending, failed⟩ := p
    match failed, pending with
    | true, _ | false, [] =>
      cases advanced
      exact finished
    | false, a :: more =>
      change (work state a >>= fun r => finish work fault ⟨r.2, more, false⟩).on s = _
      rw [on_bind]
      rcases hon : (work state a).on s with ⟨e | ⟨ld, state₁⟩, s'⟩
      · -- A failed step ends the walk, and after that nothing can be finished.
        rw [advance_of_error hon] at advanced
        cases advanced
        have hfailed := ih rfl
        simp [finish] at hfailed
      · rw [advance_of_ok hon] at advanced
        cases advanced
        exact ih rfl

end Progress

namespace Locator

variable {l l' : Locator} {spent : List (TxInput × TxLocation)}
  {sources sources' : List Transaction} {tx : Transaction} {index : Nat}
  {places : List TxLocation} {ld ld' : LoadedTx}

/-- The sources stand at their places. -/
def Finds (l : Locator) (spent : List (TxInput × TxLocation)) (sources : List Transaction) : Prop :=
  List.Forall₂ (fun e source => l.resolve e.2 e.1.prevout.hash = .ok source) spent sources

/-- How a transaction of the block is loaded, with the sources that stand at the places. -/
structure Loads (l : Locator) (tx : Transaction) (index : Nat) (places : List TxLocation)
    (ld : LoadedTx) : Prop where
  fields : ld = ⟨tx, tx.hash, index, tx.isCoinbase, ld.sources⟩
  length : places.length = tx.spending.length
  sources : l.Finds (tx.spending.zip places) ld.sources

lemma Covers.finds (h : l'.Covers l) (found : l.Finds spent sources) : l'.Finds spent sources :=
  found.imp fun _ _ => h.resolve

lemma Covers.loads (h : l'.Covers l) (loads : l.Loads tx index places ld) :
    l'.Loads tx index places ld := ⟨loads.fields, loads.length, h.finds loads.sources⟩

lemma Finds.unique (found : l.Finds spent sources) (found' : l.Finds spent sources') :
    sources = sources' := by
  refine List.right_unique_forall₂' (fun e a b ha hb => ?_) found found'
  cases ha.symm.trans hb
  rfl

/-- The places determine what is loaded. -/
lemma Loads.unique (loads : l.Loads tx index places ld) (loads' : l.Loads tx index places ld') :
    ld = ld' := by
  rw [loads.fields, loads'.fields, loads.sources.unique loads'.sources]

end Locator

namespace Connecting

variable {c c' : Connecting} {U U' : Table} {tx : Transaction} {inputs : List TxInput}
  {txs sources : List Transaction} {places : List TxLocation} {ld : LoadedTx}
  {loaded loaded' : List LoadedTx}

lemma SpendsAll.finds (h : SpendsAll c inputs U sources places c' U') :
    c.locator.Finds (inputs.zip places) sources := by
  induction h with
  | nil => exact .nil
  | @cons c c₁ _ _ _ _ _ _ _ _ _ _ first _ ih =>
    have hlocator : c₁.locator = c.locator := first.sameBlock.locator
    rw [hlocator] at ih
    refine .cons ?_ ih
    cases first with
    | last _ _ _ _ _ _ _ _ resolved => exact resolved
    | more _ _ _ _ _ _ _ _ resolved => exact resolved

lemma SpendsAll.loads {minted : Std.ExtTreeSet Hash}
    (h : SpendsAll { c with minted } tx.spending U sources places c' U') :
    c.locator.Loads tx c.position places ⟨tx, tx.hash, c.position, tx.isCoinbase, sources⟩ :=
  ⟨rfl, h.length_eq, h.finds⟩

/-- A connected transaction was loaded from the places that the journal keeps. -/
lemma Connects.loads (h : Connects c tx U ld c' U') (hafter : After c tx places c') :
    c.locator.Loads tx c.position places ld := by
  obtain ⟨-, -, spends, mints⟩ := h
  rename_i sources found c₁ c₂ U₁
  have hblock := spends.sameBlock.trans mints.sameBlock.1
  have hfound : found = places := by
    have heq : c₂.journal.unminted ++ [⟨tx.hash, found⟩] = _ := hafter.unminted
    rw [hblock.unminted] at heq
    simpa using heq
  subst hfound
  rw [hblock.position]
  exact spends.loads

/-- The journal keeps, position by position, where the sources of a connected block stand. -/
theorem ConnectsAll.loads (h : ConnectsAll c txs U loaded c' U')
    (hposition : c.journal.unminted.length = c.position) :
    List.Forall₂ (fun e ld => ∃ u, c'.journal.unminted[e.2]? = some u ∧
      c.locator.Loads e.1 e.2 u.sources ld) (txs.zipIdx c.position) loaded := by
  induction h with
  | nil => exact .nil
  | @cons c c₁ c₂ tx rest U U₁ U₂ ld loaded first more ih =>
    obtain ⟨places, hafter⟩ := first.after
    have hrest := ih (by simp [hafter.unminted, hafter.position, hposition])
    rw [hafter.locator, hafter.position] at hrest
    refine .cons ⟨⟨tx.hash, places⟩, ?_, first.loads hafter⟩ hrest
    obtain ⟨later, hlater⟩ := more.unminted_prefix
    rw [← hlater, hafter.unminted, List.append_assoc, ← hposition]
    simp

/-- The journal of a block describes it, also where a transaction comes back. -/
lemma ConnectsAll.describes (h : ConnectsAll c txs U loaded c' U') :
    ∃ entries, c'.journal.unminted = c.journal.unminted ++ entries ∧
      Journal.Describes entries txs := by
  induction h with
  | nil => exact ⟨[], by simp, .nil⟩
  | @cons _ _ _ tx _ _ _ _ _ _ first _ ih =>
    obtain ⟨places, hafter⟩ := first.after
    obtain ⟨entries, hentries, hdescribes⟩ := ih
    refine ⟨⟨tx.hash, places⟩ :: entries, ?_, .cons ⟨rfl, hafter.length⟩ hdescribes⟩
    simp [hentries, hafter.unminted]

lemma Connects.unique {ld' : LoadedTx} {c'' : Connecting} {U'' : Table}
    (h : Connects c tx U ld c' U') (h' : Connects c tx U ld' c'' U'') :
    ld = ld' ∧ c' = c'' ∧ U' = U'' := by
  have hstaged := (staged_connect_eq_ok (t := { Tables.empty with unspent := U })).2 ⟨_, h, rfl⟩
  have hstaged' := (staged_connect_eq_ok (t := { Tables.empty with unspent := U })).2 ⟨_, h', rfl⟩
  have heq := hstaged.symm.trans hstaged'
  simp only [Except.ok.injEq, Prod.mk.injEq, Tables.mk.injEq] at heq
  exact ⟨heq.1.1, heq.1.2, by simpa using heq.2⟩

/-- A block is connected in one way only. -/
lemma ConnectsAll.unique {c'' : Connecting} {U'' : Table} (h : ConnectsAll c txs U loaded c' U')
    (h' : ConnectsAll c txs U loaded' c'' U'') : loaded = loaded' ∧ c' = c'' ∧ U' = U'' := by
  induction h generalizing loaded' with
  | nil =>
    cases h'
    exact ⟨rfl, rfl, rfl⟩
  | cons first _ ih =>
    cases h' with
    | cons first' more' =>
      obtain ⟨rfl, rfl, rfl⟩ := first.unique first'
      obtain ⟨rfl, rfl, rfl⟩ := ih more'
      exact ⟨rfl, rfl, rfl⟩

/-- Connecting yields what it loads. -/
lemma ConnectsAll.yields (h : ConnectsAll c txs U loaded c' U') (t : Tables) :
    Progress.Yields connect c txs { t with unspent := U } loaded c' { t with unspent := U' } := by
  induction h with
  | nil => exact .nil _ _
  | cons first _ ih => exact .cons (staged_connect_eq_ok.2 ⟨_, first, rfl⟩) ih

section Applied

variable {archive : Archive} {chain : Chain} {header : ChainedHeader} {block : Block}
  {rest : Progress Connecting Transaction} {seen : List (Except LedgerError LoadedTx)} {n : Nat}
  {counters : Counters} {s s₁ s₂ s₃ : Session} {t t' : Tables}

/-- However much a caller has looked at, what it finishes is the whole block. -/
lemma on_whole_of_finish (begun : (start archive chain header block).on s = (.ok c, s₁))
    (looked : c.progress.advance connect n s₁ = ((seen, rest), s₂))
    (finished : (finish rest).on s₂ = (.ok counters, s₃)) :
    (whole archive chain header block).on s = (.ok counters, s₃) := by
  obtain ⟨last, s', hwork, hclose⟩ := on_bind_eq_ok.1 finished
  refine on_bind_eq_ok.2 ⟨c, s₁, begun, on_bind_eq_ok.2 ⟨last, s', ?_, hclose⟩⟩
  exact Progress.finish_of_advance looked hwork

/-- Where the block has no journal yet, its transactions were connected to the stored records. -/
lemma connectsAll_of_staged_whole
    (hspent : t.spent[Height.key header.height]? = none)
    (hunminted : t.unminted[header.hash.bytes]? = none)
    (staged : (whole archive chain header block).staged t = .ok (counters, t')) :
    ∃ cs loaded c' U, t.readCounters = .ok cs ∧
      ConnectsAll (taken archive chain header block cs) block.txs t.unspent loaded c' U ∧
      t' = c'.closed { t with unspent := U } := by
  obtain ⟨cs, loaded, c', U, hstart, connects, -, -, rfl⟩ :=
    (staged_whole_eq_ok hspent hunminted).1 staged
  obtain ⟨-, -, -, cs', hcs, heq, -⟩ := staged_start_eq_ok.1 hstart
  cases heq
  exact ⟨cs, loaded, c', U, hcs, connects, rfl⟩

/-- If such a block is finished, a caller sees what was loaded. -/
lemma connects_of_finish {now : Database} {touched : Bool}
    (hspent : t.spent[Height.key header.height]? = none)
    (hunminted : t.unminted[header.hash.bytes]? = none)
    (begun : (start archive chain header block).on ⟨now, .writing t touched⟩ = (.ok c, s₁))
    (looked : c.progress.advance connect n s₁ = ((seen, rest), s₂))
    (finished : (finish rest).on s₂ = (.ok counters, s₃)) :
    ∃ cs loaded c' U, t.readCounters = .ok cs ∧
      ConnectsAll (taken archive chain header block cs) block.txs t.unspent loaded c' U ∧
      (∀ k, Progress.outcomes connect k c.progress s₁ = (loaded.map .ok).take k) ∧
      s₃.view = c'.closed { t with unspent := U } := by
  obtain ⟨t₃, touched₃, hwhole, rfl⟩ := staged_of_on (on_whole_of_finish begun looked finished)
  obtain ⟨cs, loaded, c', U, hcs, connects, rfl⟩ :=
    connectsAll_of_staged_whole hspent hunminted hwhole
  obtain ⟨t₁, touched₁, hbegun, rfl⟩ := staged_of_on begun
  obtain ⟨-, -, -, cs', hcs', rfl, rfl⟩ := staged_start_eq_ok.1 hbegun
  cases hcs.symm.trans hcs'
  exact ⟨cs, loaded, c', U, hcs, connects,
    fun k => Progress.outcomes_of_yields (connects.yields _) now touched₁ k, rfl⟩

end Applied

end Connecting

namespace Disconnecting

variable {d d' : Disconnecting} {t t' : Tables} {o : OutPoint} {place : TxLocation}
  {source tx : Transaction} {spent : List (TxInput × TxLocation)} {sources : List Transaction}
  {items : List (Transaction × Nat)} {index : Nat} {ld : LoadedTx} {loaded : List LoadedTx}

/-- The two are at the same block, with the same journal. -/
def SameJournal (d d' : Disconnecting) : Prop := d'.locator = d.locator ∧ d'.journal = d.journal

lemma sameJournal_of_staged_unmint {name : Hash}
    (h : (d.unmint tx name).staged t = .ok (d', t')) : SameJournal d d' := by
  unfold unmint at h
  split at h
  · cases h
    exact ⟨rfl, rfl⟩
  · obtain ⟨u?, -, h⟩ := staged_read_bind_eq_ok.1 h
    cases u? with
    | none => exact nomatch h
    | some u =>
      obtain ⟨-, h⟩ := staged_require_bind_eq_ok.1 h
      obtain ⟨_, _, -, h⟩ := staged_bind_eq_ok.1 h
      obtain ⟨lowered, -, h⟩ := staged_consistent_bind_eq_ok.1 h
      obtain ⟨counters, -, h⟩ := staged_consistent_bind_eq_ok.1 h
      cases h
      exact ⟨rfl, rfl⟩

lemma resolved_of_staged_unspend (h : (d.unspend o place).staged t = .ok ((source, d'), t')) :
    d.locator.resolve place o.hash = .ok source ∧ SameJournal d d' := by
  obtain ⟨u?, -, h⟩ := staged_read_bind_eq_ok.1 h
  cases u? with
  | none => exact nomatch h
  | some u =>
    obtain ⟨states, -, h⟩ := staged_consistent_bind_eq_ok.1 h
    obtain ⟨_, _, -, h⟩ := staged_bind_eq_ok.1 h
    obtain ⟨source', resolved, h⟩ := staged_consistent_bind_eq_ok.1 h
    cases h
    exact ⟨resolved, rfl, rfl⟩

lemma finds_of_staged_unspendAll (h : (d.unspendAll spent).staged t = .ok ((sources, d'), t')) :
    d.locator.Finds spent sources ∧ SameJournal d d' := by
  induction spent generalizing d t sources with
  | nil =>
    cases h
    exact ⟨.nil, rfl, rfl⟩
  | cons e rest ih =>
    obtain ⟨⟨source, d₁⟩, t₁, hfirst, h⟩ := staged_bind_eq_ok.1 h
    obtain ⟨⟨more, d₂⟩, t₂, hmore, h⟩ := staged_bind_eq_ok.1 h
    cases h
    obtain ⟨resolved, hlocator, hjournal⟩ := resolved_of_staged_unspend hfirst
    obtain ⟨found, hlocator', hjournal'⟩ := ih hmore
    rw [hlocator] at found
    exact ⟨.cons resolved found, hlocator'.trans hlocator, hjournal'.trans hjournal⟩

/-- A disconnected transaction comes with its sources, from where the journal says that they are. -/
lemma fields_of_staged_disconnect
    (h : (d.disconnect (tx, index)).staged t = .ok ((ld, d'), t')) :
    ld = ⟨tx, tx.hash, index, tx.isCoinbase, ld.sources⟩ ∧
      d.locator.Finds (if tx.isCoinbase then [] else tx.inputs.zip
        ((d.journal.sources? index).getD [])) ld.sources ∧ SameJournal d d' := by
  obtain ⟨d₁, t₁, hunmint, h⟩ := staged_bind_eq_ok.1 h
  obtain ⟨⟨back, d₂⟩, t₂, hunspend, h⟩ := staged_bind_eq_ok.1 h
  obtain ⟨a, -, h⟩ := staged_consistent_bind_eq_ok.1 h
  obtain ⟨b, -, h⟩ := staged_consistent_bind_eq_ok.1 h
  obtain ⟨counters, -, h⟩ := staged_consistent_bind_eq_ok.1 h
  cases h
  obtain ⟨hlocator, hjournal⟩ := sameJournal_of_staged_unmint hunmint
  obtain ⟨found, hlocator', hjournal'⟩ := finds_of_staged_unspendAll hunspend
  rw [hlocator, hjournal] at found
  refine ⟨rfl, ?_, hlocator'.trans hlocator, hjournal'.trans hjournal⟩
  simpa [Locator.Finds] using List.forall₂_reverse_iff.2 found

/-- Where the journal has an entry, it is loaded from the places of that. -/
lemma loads_of_staged_disconnect {u : UnmintedTx}
    (h : (d.disconnect (tx, index)).staged t = .ok ((ld, d'), t'))
    (entry : d.journal.unminted[index]? = some u) (length : u.sources.length = tx.spending.length) :
    d.locator.Loads tx index u.sources ld := by
  obtain ⟨fields, found, -⟩ := fields_of_staged_disconnect h
  have hspent : (if tx.isCoinbase then [] else tx.inputs.zip
      ((d.journal.sources? index).getD [])) = tx.spending.zip u.sources := by
    rw [Journal.sources?, entry, Transaction.spending]
    split <;> rfl
  rw [hspent] at found
  exact ⟨fields, length, found⟩

lemma sameJournal_of_yields (h : Progress.Yields disconnect d items t loaded d' t') :
    SameJournal d d' := by
  induction h with
  | nil => exact ⟨rfl, rfl⟩
  | cons first _ ih =>
    obtain ⟨-, -, hlocator, hjournal⟩ := fields_of_staged_disconnect first
    exact ⟨ih.1.trans hlocator, ih.2.trans hjournal⟩

/-- Disconnecting yields what is loaded from the places of the journal. -/
lemma eq_of_yields {loaded' : List LoadedTx}
    (h : Progress.Yields disconnect d items t loaded d' t')
    (loads : List.Forall₂ (fun e ld => ∃ u, d.journal.unminted[e.2]? = some u ∧
      d.locator.Loads e.1 e.2 u.sources ld) items loaded') : loaded = loaded' := by
  induction h generalizing loaded' with
  | nil =>
    cases loads
    rfl
  | @cons d d₁ _ e rest _ _ _ ld loaded first _ ih =>
    cases loads with
    | cons hentry hrest =>
      obtain ⟨u, entry, hloads⟩ := hentry
      have hloads' := loads_of_staged_disconnect first entry hloads.length
      obtain ⟨-, -, hlocator, hjournal⟩ := fields_of_staged_disconnect first
      rw [hloads'.unique hloads, ih (by rwa [hlocator, hjournal])]

/-- A block that is undone to the end yields, last first, what is loaded from the places of its
journal, however much of it a caller looks at. -/
lemma outcomes_of_finish {archive : Archive} {header : ChainedHeader} {block : Block} {j : Journal}
    (only : ∀ j', Journal.find? t header = .ok (some j') → j' = j)
    (loads : List.Forall₂ (fun e ld => ∃ u, j.unminted[e.2]? = some u ∧
      (Locator.mk archive header block).Loads e.1 e.2 u.sources ld) block.txs.zipIdx loaded)
    {now : Database} {touched : Bool} {s s₁ s₂ : Session} {n : Nat}
    {seen : List (Except LedgerError LoadedTx)}
    {rest : Progress Disconnecting (Transaction × Nat)} {counters : Counters}
    (begun : (start archive header block).on ⟨now, .writing t touched⟩ = (.ok d, s))
    (looked : d.progress.advance disconnect n s = ((seen, rest), s₁))
    (finished : (finish rest).on s₁ = (.ok counters, s₂)) (k : Nat) :
    Progress.outcomes disconnect k d.progress s = (loaded.reverse.map .ok).take k := by
  obtain ⟨t₁, touched₁, hbegun, rfl⟩ := staged_of_on begun
  obtain ⟨-, -, j', cs, V, hload, -, -, -, rfl, rfl⟩ := staged_start_eq_ok.1 hbegun
  obtain rfl := only j' (Journal.load_eq_ok_iff_find?.1 hload)
  obtain ⟨last, s', hwork, -⟩ := on_bind_eq_ok.1 finished
  obtain ⟨t₂, touched₂, hstaged, rfl⟩ := staged_of_on (Progress.finish_of_advance looked hwork)
  obtain ⟨loaded', yields⟩ := Progress.staged_workOff_iff_yields.1 hstaged
  obtain rfl := eq_of_yields yields (List.forall₂_reverse_iff.2 loads)
  exact Progress.outcomes_of_yields yields now touched₁ k

end Disconnecting
end UtxoLedger

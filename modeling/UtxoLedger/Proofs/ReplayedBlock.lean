import Mathlib.Data.List.Induction
import Mathlib.Tactic.Common
import UtxoLedger.Block.Replay
import UtxoLedger.Proofs.BlockYields

/-!
# What a replay yields

A replay finds the places of the sources in the journal of the block. Where there is none, the block
comes next, and the places are those that connecting it goes through: a record is either one of the
snapshot, perhaps with more outputs spent, or one of a transaction earlier in the block.
-/
namespace UtxoLedger

/-- A list in the direction of a walk. -/
def Direction.order {α : Type} : Direction → List α → List α
  | .forward, l => l
  | .backward, l => l.reverse

/-- No name comes twice in a block that is connected. -/
lemma Connecting.ConnectsAll.distinct {c c' : Connecting} {txs : List Transaction} {U U' : Table}
    {loaded : List LoadedTx} (h : ConnectsAll c txs U loaded c' U') :
    (txs.map Transaction.hash).Nodup ∧ ∀ tx ∈ txs, c.minted.contains tx.hash = false := by
  induction h with
  | nil => simp
  | @cons c c₁ _ tx rest _ _ _ _ _ first _ ih =>
    obtain ⟨hnodup, hnew⟩ := ih
    have hminted := first.minted
    obtain ⟨new, -, -, -⟩ := first
    have hrest {tx' : Transaction} (htx' : tx' ∈ rest) :
        tx.hash ≠ tx'.hash ∧ c.minted.contains tx'.hash = false := by
      have h := hnew tx' htx'
      rw [hminted, Std.ExtTreeSet.contains_insert, Bool.or_eq_false_iff] at h
      refine ⟨fun heq => ?_, h.2⟩
      simp [heq] at h
    rw [List.map_cons, List.nodup_cons]
    refine ⟨⟨fun hmem => ?_, hnodup⟩, ?_⟩
    · obtain ⟨tx', htx', heq⟩ := List.mem_map.1 hmem
      exact (hrest htx').1 heq.symm
    · intro tx' htx'
      rcases List.mem_cons.1 htx' with rfl | htx'
      · exact new
      · exact (hrest htx').2

namespace Replay

variable {r : Replay} {tx : Transaction} {index i : Nat} {ld : LoadedTx} {loaded : List LoadedTx}
  {inputs : List TxInput} {places : List TxLocation} {sources : List Transaction} {name : Hash}

lemma sources_of_finds (length : places.length = inputs.length)
    (located : ∀ k input place, inputs[k]? = some input → places[k]? = some place →
      r.locate index (i + k) input.prevout.hash = .ok place)
    (found : r.locator.Finds (inputs.zip places) sources) :
    r.sources index i inputs = .ok sources := by
  induction inputs generalizing i places sources with
  | nil =>
    cases found
    rfl
  | cons input rest ih =>
    match places, length with
    | place :: places, length =>
      cases found with
      | @cons _ source _ sources resolved found =>
        have hplace := located 0 input place rfl rfl
        have hlocated (k : Nat) (input' : TxInput) (place' : TxLocation)
            (hinput : rest[k]? = some input') (hplace' : places[k]? = some place') :
            r.locate index (i + 1 + k) input'.prevout.hash = .ok place' := by
          rw [Nat.add_assoc, Nat.add_comm 1 k]
          exact located (k + 1) input' place' hinput hplace'
        have hrest := ih (i := i + 1) (by simpa using length) hlocated found
        rw [Nat.add_zero] at hplace
        simp only [Replay.sources, hplace, resolved, hrest, bind, Except.bind, Except.mapError,
          pure, Except.pure]

lemma load_of_loads (loads : r.locator.Loads tx index places ld)
    (located : ∀ k input place, tx.spending[k]? = some input → places[k]? = some place →
      r.locate index k input.prevout.hash = .ok place) : r.load tx index = .ok ld := by
  have hsources : r.sources index 0 tx.spending = .ok ld.sources :=
    sources_of_finds loads.length (by simpa using located) loads.sources
  rw [Transaction.spending] at hsources
  rw [loads.fields, Replay.load, hsources]
  rfl

/-- With a journal, the places are those that it keeps. -/
lemma load_of_journal {j : Journal} {u : UnmintedTx} (journal : r.journal? = some j)
    (entry : j.unminted[index]? = some u) (loads : r.locator.Loads tx index u.sources ld) :
    r.load tx index = .ok ld := by
  refine load_of_loads loads fun k input place _ hplace => ?_
  simp [locate, journal, Journal.sources?, entry, hplace]

lemma sources_pending (r : Replay) (pending : List (Transaction × Nat)) (inputs : List TxInput) :
    ({ r with pending } : Replay).sources index i inputs = r.sources index i inputs := by
  induction inputs generalizing i with
  | nil => rfl
  | cons input rest ih =>
    simp only [Replay.sources, ih]
    rfl

/-- Once every pending transaction is known to load, so is what a caller gets. -/
lemma take_of_loads (going : r.failed = false)
    (h : List.Forall₂ (fun e ld => r.load e.1 e.2 = .ok ld) r.pending loaded) (n : Nat) :
    r.take n = (loaded.map .ok).take n := by
  induction n generalizing r loaded with
  | zero => rfl
  | succ n ih =>
    obtain ⟨snapshot, locator, journal?, positions, pending, failed⟩ := r
    cases going
    cases h with
    | nil => rfl
    | @cons e ld rest loaded first more =>
      have hrest : List.Forall₂ (fun e ld =>
          (⟨snapshot, locator, journal?, positions, rest, false⟩ : Replay).load e.1 e.2 = .ok ld)
          rest loaded := by
        refine more.imp fun e ld hload => ?_
        rw [← hload]
        simp only [Replay.load]
        rw [← sources_pending]
      simp only [take, next?, first, List.map_cons, List.take_succ_cons]
      rw [ih rfl hrest]

/-- Where the block holds a transaction; the last position counts. -/
def positionsOf (txs : List Transaction) : Std.ExtTreeMap Hash Nat :=
  txs.zipIdx.foldl (fun m e => m.insert e.1.hash e.2) ∅

lemma getElem?_foldl_positions {es : List (Transaction × Nat)}
    (distinct : (es.map fun e => e.1.hash).Nodup) {position : Nat} :
    (es.foldl (fun m e => m.insert e.1.hash e.2) (∅ : Std.ExtTreeMap Hash Nat))[name]? =
      some position ↔ ∃ tx, (tx, position) ∈ es ∧ tx.hash = name := by
  induction es using List.reverseRecOn with
  | nil => simp
  | append_singleton es e ih =>
    rw [List.map_append, List.nodup_append] at distinct
    obtain ⟨hdistinct, -, hnew⟩ := distinct
    rw [List.foldl_append, List.foldl_cons, List.foldl_nil, Std.ExtTreeMap.getElem?_insert]
    simp only [List.mem_append, List.mem_singleton]
    by_cases hname : e.1.hash = name
    · rw [hname, Std.ReflOrd.compare_self, if_pos rfl, Option.some.injEq]
      constructor
      · rintro rfl
        exact ⟨e.1, .inr rfl, hname⟩
      · rintro ⟨tx, hmem | heq, htx⟩
        · exact absurd (htx.trans hname.symm)
            (hnew _ (List.mem_map.2 ⟨_, hmem, rfl⟩) _ (List.mem_singleton_self _))
        · rw [← heq]
    · rw [if_neg fun heq => hname (Std.LawfulEqOrd.eq_of_compare heq), ih hdistinct]
      refine exists_congr fun tx => and_congr_left fun htx => (or_iff_left ?_).symm
      rintro rfl
      exact hname htx

/-- If no name comes twice, a position is where the name is. -/
lemma getElem?_positionsOf {txs : List Transaction} (distinct : (txs.map Transaction.hash).Nodup)
    {position : Nat} : (positionsOf txs)[name]? = some position ↔
      ∃ tx, txs[position]? = some tx ∧ tx.hash = name := by
  have hnames : txs.zipIdx.map (fun e => e.1.hash) = txs.map Transaction.hash := by
    rw [← List.zipIdx_map_fst 0 txs, List.map_map]
    simp
  simp only [positionsOf, getElem?_foldl_positions (hnames ▸ distinct),
    List.mem_zipIdx_iff_getElem?]

/-- The replay has no journal and is at the block of `l`, of which it knows every position. -/
structure Ahead (r : Replay) (l : Locator) : Prop where
  journal : r.journal? = none
  covers : r.locator.Covers l
  positions : ∀ (name : Hash) (position : Nat), r.positions[name]? = some position ↔
    ∃ tx, l.block.txs[position]? = some tx ∧ tx.hash = name

/-- Where the connection finds a record, the replay locates its transaction. -/
def Traces (r : Replay) (c : Connecting) (U : Table) : Prop :=
  ∀ (name : Hash) (u : UnspentTx) (place : TxLocation), U[name.bytes]? = some u.encode →
    u.states.size < 2 ^ 32 → c.locator.placeOf c.chain u = .ok place →
    ∀ input, r.locate c.position input name = .ok place

variable {c c' : Connecting} {U U' : Table} {o : OutPoint} {source : Transaction}
  {place : TxLocation} {txs : List Transaction}

open Connecting

lemma Ahead.locate_own {position : Nat} (ahead : r.Ahead c.locator)
    (hat : c.locator.block.txs[position]? = some tx) (hlt : position < index) (input : Nat) :
    r.locate index input tx.hash = .ok ⟨c.locator.header.hash, c.locator.header.height,
      Int32.ofNat position⟩ := by
  have hposition : (r.positions[tx.hash]?).filter (fun p => p < index) = some position := by
    simp [(ahead.positions tx.hash position).2 ⟨tx, hat, rfl⟩, hlt]
  simp only [locate, ahead.journal, hposition, ahead.covers.hash, ahead.covers.height]

/-- One more transaction of the block changes the place of no other name. -/
lemma Ahead.locate_succ {position : Nat} (ahead : r.Ahead c.locator)
    (hat : c.locator.block.txs[position]? = some tx) (hname : name ≠ tx.hash) (input : Nat) :
    r.locate (position + 1) input name = r.locate position input name := by
  have hfilter : (r.positions[name]?).filter (fun p => p < position + 1) =
      (r.positions[name]?).filter (fun p => p < position) := by
    cases hp : r.positions[name]? with
    | none => rfl
    | some p =>
      have hne : p ≠ position := by
        rintro rfl
        obtain ⟨tx', hat', htx'⟩ := (ahead.positions name p).1 hp
        cases hat.symm.trans hat'
        exact hname htx'.symm
      have hlt : p < position + 1 ↔ p < position := by omega
      simp only [Option.filter_some, decide_eq_true_eq, hlt]
  simp only [locate, ahead.journal, hfilter]

lemma Traces.spend (ht : r.Traces c U) (h : SpendsOwn c o U source place c' U') :
    (∀ input, r.locate c.position input o.hash = .ok place) ∧ r.Traces c' U' := by
  obtain ⟨u, states, lowered, own⟩ := h.spendable
  have hblock := h.spends.sameBlock
  refine ⟨ht _ u place own.found own.size_lt own.located, fun name v p hv hlt hp => ?_⟩
  rw [hblock.locator, hblock.chain] at hp
  rw [hblock.position]
  by_cases hname : name = o.hash
  · subst hname
    cases h with
    | last => simp at hv
    | @more u states _ own =>
      rw [Table.getElem?_insert, if_pos rfl, Option.some.injEq] at hv
      have hsize : states.size < 2 ^ 32 := size_of_spentStates own.spent ▸ own.size_lt
      obtain rfl : ({ u with states } : UnspentTx) = v := (UnspentTx.encode_inj hsize hlt).1 hv
      exact ht _ u p own.found own.size_lt (Locator.placeOf_congr rfl rfl hp)
  · rw [h.elsewhere fun hkey => hname (Hash.bytes_inj.1 hkey).symm] at hv
    exact ht name v p hv hlt hp

lemma Traces.spendAll (ht : r.Traces c U) (h : SpendsAllOwn c inputs U sources places c' U') :
    (∀ (k : Nat) (input : TxInput) (place : TxLocation), inputs[k]? = some input →
      places[k]? = some place → ∀ i, r.locate c.position i input.prevout.hash = .ok place) ∧
      r.Traces c' U' := by
  induction h with
  | nil => exact ⟨by simp, ht⟩
  | cons first _ ih =>
    obtain ⟨hfirst, ht₁⟩ := ht.spend first
    obtain ⟨hrest, ht₂⟩ := ih ht₁
    rw [first.spends.sameBlock.position] at hrest
    refine ⟨fun k input place hinput hplace => ?_, ht₂⟩
    cases k with
    | zero =>
      cases hinput
      cases hplace
      exact hfirst
    | succ k => exact hrest k input place hinput hplace

lemma Traces.mint (ht : r.Traces c U) (ahead : r.Ahead c.locator)
    (h : Mints c tx tx.hash U c' U') (free : U[tx.hash.bytes]? = none)
    (hat : c.locator.block.txs[c.position]? = some tx) (hlength : tx.outputs.length < 2 ^ 32) :
    r.Traces { c' with position := c'.position + 1 } U' := by
  have hblock := h.sameBlock.1
  intro name v p hv hlt hp input
  change c'.locator.placeOf c'.chain v = _ at hp
  rw [hblock.locator, hblock.chain] at hp
  change r.locate (c'.position + 1) input name = _
  rw [hblock.position]
  by_cases hname : name = tx.hash
  · subst hname
    cases h with
    | empty => exact nomatch free.symm.trans hv
    | enters =>
      rw [Table.getElem?_insert, if_pos rfl, Option.some.injEq] at hv
      obtain rfl : c.record tx tx.hash = v := (UnspentTx.encode_inj hlength hlt).1 hv
      cases (if_pos rfl : c.locator.placeOf c.chain (c.record tx tx.hash) = _).symm.trans hp
      exact ahead.locate_own hat (Nat.lt_succ_self _) input
  · rw [ahead.locate_succ hat hname]
    refine ht name v p ?_ hlt hp input
    cases h with
    | empty => exact hv
    | enters =>
      rw [Table.getElem?_insert] at hv
      rwa [if_neg fun hkey => hname (Hash.bytes_inj.1 hkey).symm] at hv

/-- A transaction is replayed as it is connected. -/
lemma Traces.connect (ht : r.Traces c U) (hg : Grounded c.locator c.chain U)
    (ahead : r.Ahead c.locator) (h : Connects c tx U ld c' U')
    (hat : c.locator.block.txs[c.position]? = some tx) (hlength : tx.outputs.length < 2 ^ 32) :
    r.load tx c.position = .ok ld ∧ r.Traces c' U' := by
  obtain ⟨-, free, spends, mints⟩ := h
  rename_i sources places c₁ c₂ U₁
  have hblock := spends.sameBlock
  have own := spends.own (by exact hg)
  obtain ⟨hplaces, ht₁⟩ := Traces.spendAll (by exact ht) own
  refine ⟨?_, ht₁.mint ?_ mints (own.free free).1 ?_ hlength⟩
  · rw [mints.sameBlock.1.position, hblock.position]
    refine load_of_loads (ahead.covers.loads spends.loads) fun k input place hinput hplace => ?_
    exact hplaces k input place hinput hplace k
  · rw [hblock.locator]
    exact ahead
  · rw [hblock.locator, hblock.position]
    exact hat

/-- A block is replayed as it is connected. -/
theorem Traces.connectAll (ht : r.Traces c U) (hg : Grounded c.locator c.chain U)
    (ahead : r.Ahead c.locator) (h : ConnectsAll c txs U loaded c' U')
    (hat : c.locator.block.txs.drop c.position = txs)
    (hcount : c.locator.block.txs.length ≤ 2 ^ 31)
    (hlength : ∀ tx ∈ txs, tx.outputs.length < 2 ^ 32) :
    List.Forall₂ (fun e ld => r.load e.1 e.2 = .ok ld) (txs.zipIdx c.position) loaded := by
  induction h with
  | nil => exact .nil
  | @cons c c₁ _ tx _ _ _ _ _ _ first _ ih =>
    obtain ⟨htx, hposition, hpending, hcount'⟩ := first.next hat hcount
    obtain ⟨places, hafter⟩ := first.after
    have hshort := hlength tx List.mem_cons_self
    obtain ⟨hload, ht₁⟩ := ht.connect hg ahead first htx hshort
    have hrest := ih ht₁ (first.grounded hg htx hposition hshort)
      (by rw [hafter.locator]; exact ahead) hpending hcount'
      fun tx htx => hlength tx (List.mem_cons_of_mem _ htx)
    rw [hafter.position] at hrest
    exact .cons hload hrest

/-- At the start of a block, the records are those of the snapshot. -/
lemma traces_taken {archive : Archive} {chain : Chain} {header : ChainedHeader} {block : Block}
    (ahead : r.Ahead ⟨archive, header, block⟩) (cs : Counters)
    (hchain : r.snapshot.chain = chain) :
    r.Traces (.taken archive chain header block cs) r.snapshot.tables.unspent := by
  intro name u place hu hlt hplace input
  have hread : r.snapshot.tables.unspent? name = .ok (some u) :=
    Tables.unspent?_eq_some.2 ⟨hu, hlt⟩
  have hnone : (r.positions[name]?).filter (fun p => decide (p < 0)) = none := by
    cases r.positions[name]? <;> rfl
  have hlocated : r.locator.placeOf r.snapshot.chain u = .ok place := by
    rw [ahead.covers.placeOf, hchain]
    exact hplace
  change r.locate 0 input name = _
  simp only [locate, ahead.journal, hnone, hread, hlocated]
  rfl

/-- A replay that has not yielded anything yet. -/
def taken (archive : Archive) (s : Snapshot) (header : ChainedHeader) (journal? : Option Journal)
    (block : Block) (direction : Direction) : Replay :=
  ⟨s, ⟨archive, header, block⟩, journal?, positionsOf block.txs, direction.order block.txs.zipIdx,
    false⟩

lemma start_eq_taken {archive : Archive} {s : Snapshot} {hash : Hash} {block : Block}
    {header : ChainedHeader} {journal? : Option Journal} (direction : Direction)
    (found : archive.block? hash = some block)
    (placed : Replay.place s hash block = .ok (header, journal?))
    (verified : ∀ j ∈ journal?, j.verify block = .ok ()) (named : block.hash = header.hash) :
    start archive s hash direction = .ok (taken archive s header journal? block direction) := by
  have hmake : Locator.make archive header block = .ok ⟨archive, header, block⟩ := if_pos named
  simp only [start, found, placed, hmake, bind, Except.bind, Except.mapError]
  cases journal? with
  | none =>
    cases direction <;> rfl
  | some j =>
    simp only [verified j rfl]
    cases direction <;> rfl

end Replay

lemma Chain.find?_of_mem {chain : Chain} {header : ChainedHeader}
    (distinct : (chain.headers.map ChainedHeader.hash).Nodup)
    (mem : header ∈ chain.headers) : chain.find? header.hash = some header := by
  unfold find?
  cases hfind : chain.headers.find? fun h => h.hash = header.hash with
  | none => simpa using List.find?_eq_none.1 hfind header mem
  | some h =>
    have hhash := List.find?_some hfind
    have hmem := List.mem_of_find?_eq_some hfind
    rw [List.inj_on_of_nodup_map distinct hmem mem (of_decide_eq_true hhash)]

/-- The block under a name can be replayed on the snapshot in either direction, and this is what it
yields, however much of it is asked for. -/
def Snapshot.Replays (s : Snapshot) (archive : Archive) (hash : Hash) (loaded : List LoadedTx) :
    Prop :=
  ∀ direction, ∃ r, Replay.start archive s hash direction = .ok r ∧
    ∀ n, r.take n = ((direction.order loaded).map .ok).take n

namespace Snapshot

variable {s : Snapshot} {archive : Archive} {header : ChainedHeader} {block : Block}
  {loaded : List LoadedTx} {hash : Hash}

/-- A snapshot of some tables is these and the chain that they hold. -/
lemma ofTables_eq_ok {t : Tables} :
    Snapshot.ofTables t = .ok s ↔ t.chainHeaders = .ok s.chain.headers ∧ s.tables = t := by
  obtain ⟨chain, tables⟩ := s
  simp only [ofTables, bind_eq_ok, mapError_eq_ok, pure, Except.pure, Except.ok.injEq, mk.injEq]
  constructor
  · rintro ⟨headers, hheaders, chain, hchain, rfl, rfl⟩
    exact ⟨by rw [Chain.headers_of_ofHeaders hchain, hheaders], rfl⟩
  · rintro ⟨hheaders, rfl⟩
    exact ⟨_, hheaders, chain, chain.ofHeaders_headers, rfl, rfl⟩

lemma replays_of_loads {journal? : Option Journal} (found : archive.block? hash = some block)
    (placed : Replay.place s hash block = .ok (header, journal?))
    (verified : ∀ j ∈ journal?, j.verify block = .ok ()) (named : block.hash = header.hash)
    (loads : ∀ direction, List.Forall₂ (fun e ld =>
      (Replay.taken archive s header journal? block direction).load e.1 e.2 = .ok ld)
      block.txs.zipIdx loaded) : s.Replays archive hash loaded := by
  intro direction
  refine ⟨_, Replay.start_eq_taken direction found placed verified named,
    Replay.take_of_loads rfl ?_⟩
  cases direction with
  | forward => exact loads .forward
  | backward => exact List.forall₂_reverse_iff.2 (loads .backward)

/-- A block on the chain is replayed from its journal. -/
lemma replays_of_journal {j : Journal} (found : archive.block? hash = some block)
    (on : s.chain.find? hash = some header)
    (journal : Journal.find? s.tables header = .ok (some j)) (verified : j.verify block = .ok ())
    (named : block.hash = header.hash)
    (loads : List.Forall₂ (fun e ld => ∃ u, j.unminted[e.2]? = some u ∧
      (Locator.mk archive header block).Loads e.1 e.2 u.sources ld) block.txs.zipIdx loaded) :
    s.Replays archive hash loaded := by
  have placed : Replay.place s hash block = .ok (header, some j) := by
    simp only [Replay.place, on, journal]
    rfl
  refine replays_of_loads found placed (by simpa using verified) named fun direction => ?_
  refine loads.imp ?_
  rintro e ld ⟨u, entry, hloads⟩
  exact Replay.load_of_journal rfl entry hloads

/-- The block above the tip is replayed without a journal, as it is connected. -/
lemma replays_of_connects {cs : Counters} {c : Connecting} {U : Table}
    (found : archive.block? header.hash = some block) (named : block.hash = header.hash)
    (fields : block.header = header.header)
    (above : header.Extends s.chain.tip) (new : ∀ h ∈ s.chain.headers, h.hash ≠ header.hash)
    (bounds : block.InBounds)
    (grounded : Connecting.Grounded ⟨archive, header, block⟩ s.chain s.tables.unspent)
    (connects : Connecting.ConnectsAll (.taken archive s.chain header block cs) block.txs
      s.tables.unspent loaded c U) : s.Replays archive header.hash loaded := by
  have absent : s.chain.find? header.hash = none := by
    simpa [Chain.find?] using new
  have prev : block.header.prev = s.chain.tip.hash := by
    rw [fields]
    exact above.2
  have placed : Replay.place s header.hash block =
      .ok (s.chain.tip.above block.header, none) := by
    simp only [Replay.place, absent, prev, if_true, ChainedHeader.onto_eq_ok.2 ⟨prev, rfl⟩]
    rfl
  have height : (s.chain.tip.above block.header).height = header.height := by
    have hheight : s.chain.tip.height.toInt = (s.chain.headers.length - 1 : Nat) :=
      s.chain.toInt_height
    have hlt := header.height.toInt_lt
    have hx := above.1
    rw [← Int32.toInt_inj, hx, ChainedHeader.toInt_height_above (by omega) (by omega)]
  refine replays_of_loads found placed (by simp) rfl fun direction => ?_
  have ahead : (Replay.taken archive s (s.chain.tip.above block.header) none block
      direction).Ahead ⟨archive, header, block⟩ :=
    ⟨rfl, ⟨named, height, rfl, fun _ _ h => h⟩,
      fun _ _ => Replay.getElem?_positionsOf connects.distinct.1⟩
  exact (Replay.traces_taken ahead cs rfl).connectAll grounded ahead connects rfl bounds.txs.le
    fun tx htx => (bounds.of_mem htx).2.trans (by decide)

end Snapshot
end UtxoLedger

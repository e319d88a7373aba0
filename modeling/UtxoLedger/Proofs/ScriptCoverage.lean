import Mathlib.Tactic.Common
import UtxoLedger.Proofs.PlainCoins
import UtxoLedger.Proofs.PooledSources
import UtxoLedger.Proofs.ScriptSchedules

/-!
# Every input is judged

A block whose transactions connect presents every input of every transaction but the coinbases to
the script verifier, once and with the output that it spends: on a state that ledgers bring about,
a record has as many flags as its transaction has outputs. So a block with failing scripts is
refused with all of the failures, in block order.
-/
namespace UtxoLedger

open StoreM

/-- The places of the inputs that spend something, in block order, from transaction `i` on. -/
def Transaction.inputPlaces (txs : List Transaction) (i : Nat) : List (Nat × Nat) :=
  (txs.zipIdx i).flatMap fun e => (List.range e.1.spending.length).map fun j => (e.2, j)

/-- The places of the inputs of a block, but for those of coinbases. -/
def Block.inputPlaces (b : Block) : List (Nat × Nat) := Transaction.inputPlaces b.txs 0

/-- The output of an item is the one that its input names. -/
def ScriptItem.Faithful (item : ScriptItem) : Prop :=
  ∃ (input : TxInput) (source : Transaction), item.tx.inputs[item.inputIndex]? = some input ∧
    source.hash = input.prevout.hash ∧
    source.outputs[input.prevout.index.toNat]? = some item.prevOutput

/-- An item shows an input of the block with the output that it spends. -/
structure ScriptItem.Presents (item : ScriptItem) (header : ChainedHeader) (block : Block) :
    Prop where
  header : item.header = header
  tx : block.txs[item.txIndex]? = some item.tx
  hash : item.hash = item.tx.hash
  faithful : item.Faithful

/-- One place comes before the other in a block. -/
def ScriptFailure.Before (f g : ScriptFailure) : Prop :=
  f.txIndex < g.txIndex ∨ f.txIndex = g.txIndex ∧ f.inputIndex < g.inputIndex

namespace LoadedTx

variable {header : ChainedHeader} {i : Nat} {inputs : List TxInput}

/-- Inputs that find their outputs become items, one by one. -/
lemma exists_scriptItemsFrom (l : LoadedTx) (hat : l.tx.inputs.drop i = inputs)
    (resolved : ∀ j, i ≤ j → j < l.tx.inputs.length → (l.prevOutput? j).isSome = true) :
    ∃ items, l.scriptItemsFrom header i inputs = .ok items ∧
      items.map ScriptItem.position = (List.range' i inputs.length).map (fun j => (l.index, j)) ∧
      ∀ item ∈ items, item.header = header ∧ item.tx = l.tx ∧ item.hash = l.hash ∧
        item.txIndex = l.index ∧ l.prevOutput? item.inputIndex = some item.prevOutput := by
  induction inputs generalizing i with
  | nil => exact ⟨[], rfl, rfl, by simp⟩
  | cons input rest ih =>
    obtain ⟨o, ho⟩ := Option.isSome_iff_exists.1 (resolved i le_rfl (lt_length_of_drop hat))
    obtain ⟨items, hitems, hplaces, hall⟩ :=
      ih (drop_succ_of_drop hat) fun j hj => resolved j (by omega)
    refine ⟨⟨header, l.tx, l.hash, l.index, i, o⟩ :: items, ?_, ?_, ?_⟩
    · rw [scriptItemsFrom, ho, hitems]
    · rw [List.map_cons, hplaces, List.length_cons, List.range'_succ, List.map_cons]
      rfl
    · rw [List.forall_mem_cons]
      exact ⟨⟨rfl, rfl, rfl, rfl, ho⟩, hall⟩

/-- The source of an input bears the name that the input gives, and has the output. -/
def Offers (input : TxInput) (source : Transaction) : Prop :=
  source.hash = input.prevout.hash ∧ input.prevout.index.toNat < source.outputs.length

/-- A transaction with its sources has an item for every input that spends something. -/
lemma exists_scriptItems (l : LoadedTx) (coinbase : l.isCoinbase = l.tx.isCoinbase)
    (found : List.Forall₂ Offers l.tx.spending l.sources) (header : ChainedHeader) :
    ∃ items, l.scriptItems header = .ok items ∧
      items.map ScriptItem.position =
        (List.range l.tx.spending.length).map (fun j => (l.index, j)) ∧
      ∀ item ∈ items, item.header = header ∧ item.tx = l.tx ∧ item.hash = l.hash ∧
        item.txIndex = l.index ∧ item.Faithful := by
  rw [scriptItems, coinbase]
  cases hcoinbase : l.tx.isCoinbase with
  | true =>
    refine ⟨[], rfl, ?_, by simp⟩
    simp [Transaction.spending, hcoinbase]
  | false =>
    have hspending : l.tx.spending = l.tx.inputs := by
      rw [Transaction.spending, hcoinbase, if_neg (by simp)]
    rw [hspending] at found ⊢
    -- Each input finds its source, and in it the output.
    have hread (j : Nat) (hj : j < l.tx.inputs.length) : ∃ input source,
        l.tx.inputs[j]? = some input ∧ l.sources[j]? = some source ∧ Offers input source := by
      have hj' : j < l.sources.length := found.length_eq ▸ hj
      exact ⟨_, _, List.getElem?_eq_getElem hj, List.getElem?_eq_getElem hj', found.get hj hj'⟩
    have hresolved (j : Nat) (_ : 0 ≤ j) (hj : j < l.tx.inputs.length) :
        (l.prevOutput? j).isSome = true := by
      obtain ⟨input, source, hinput, hsource, -, hlt⟩ := hread j hj
      simp [prevOutput?, hinput, hsource, hlt]
    obtain ⟨items, hitems, hplaces, hshown⟩ :=
      l.exists_scriptItemsFrom List.drop_zero hresolved
    refine ⟨items, hitems, ?_, fun item hitem => ?_⟩
    · rw [hplaces, List.range_eq_range']
    · obtain ⟨hheader, htx, hhash, hindex, hout⟩ := hshown item hitem
      obtain ⟨input, hinput, hout⟩ := Option.bind_eq_some_iff.1 hout
      obtain ⟨source, hsource, hout⟩ := Option.bind_eq_some_iff.1 hout
      obtain ⟨hj, -⟩ := List.getElem?_eq_some_iff.1 hinput
      obtain ⟨input', source', hinput', hsource', hname, -⟩ := hread _ hj
      cases hinput.symm.trans hinput'
      cases hsource.symm.trans hsource'
      rw [← htx] at hinput
      exact ⟨hheader, htx, hhash, hindex, input, source, hinput, hname, hout⟩

end LoadedTx

namespace Connecting

variable {c c' : Connecting} {U U' : Table} {tx : Transaction} {inputs : List TxInput}
  {sources txs : List Transaction} {places : List TxLocation} {ld : LoadedTx}
  {loaded : List LoadedTx}

/-- What an input spends among grounded records is an output of a transaction with that name. -/
lemma SpendsAll.offered (hg : Grounded c.locator c.chain U)
    (h : SpendsAll c inputs U sources places c' U') :
    List.Forall₂ LoadedTx.Offers inputs sources := by
  induction h with
  | nil => exact .nil
  | cons first _ ih =>
    have own := first.own hg
    obtain ⟨u, states, lowered, spendable⟩ := own.spendable
    obtain ⟨-, -, hname⟩ := Locator.resolve_eq_ok.1 spendable.resolved
    obtain ⟨hunspent, -⟩ := spentStates_eq_ok.1 spendable.spent
    have hlt := OutputStates.lt_size_of_get? hunspent
    rw [← spendable.length] at hlt
    exact .cons ⟨hname, hlt⟩ (ih (own.grounded hg))

/-- A connected transaction presents every input that spends something. -/
lemma Connects.exists_items (hg : Grounded c.locator c.chain U) (h : Connects c tx U ld c' U')
    (hat : c.locator.block.txs[c.position]? = some tx) (header : ChainedHeader) :
    ∃ items, ld.scriptItems header = .ok items ∧
      items.map ScriptItem.position =
        (List.range tx.spending.length).map (fun j => (c.position, j)) ∧
      ∀ item ∈ items, item.Presents header c.locator.block := by
  obtain ⟨-, -, spends, mints⟩ := h
  rename_i sources places c₁ c₂ U₁
  have hposition : c₂.position = c.position :=
    mints.sameBlock.1.position.trans spends.sameBlock.position
  obtain ⟨items, hitems, hplaces, hshown⟩ := LoadedTx.exists_scriptItems
    ⟨tx, tx.hash, c₂.position, tx.isCoinbase, sources⟩ rfl (spends.offered (by exact hg)) header
  dsimp only at hplaces hshown
  rw [hposition] at hplaces hshown
  refine ⟨items, hitems, hplaces, fun item hitem => ?_⟩
  obtain ⟨hheader, htx, hhash, hindex, hfaithful⟩ := hshown item hitem
  rw [← htx] at hhash hat
  rw [← hindex] at hat
  exact ⟨hheader, hat, hhash, hfaithful⟩

/-- All of them are presented, transaction by transaction. -/
lemma ConnectsAll.exists_items (h : ConnectsAll c txs U loaded c' U')
    (hg : Grounded c.locator c.chain U) (hat : c.locator.block.txs.drop c.position = txs)
    (hcount : c.locator.block.txs.length ≤ 2 ^ 31)
    (hlength : ∀ tx ∈ txs, tx.outputs.length < 2 ^ 32) (header : ChainedHeader) :
    ∃ parts, List.Forall₂ (fun ld part => ld.scriptItems header = .ok part) loaded parts ∧
      parts.flatten.map ScriptItem.position = Transaction.inputPlaces txs c.position ∧
      ∀ item ∈ parts.flatten, item.Presents header c.locator.block := by
  induction h with
  | nil => exact ⟨[], .nil, rfl, by simp⟩
  | cons first more ih =>
    rw [List.forall_mem_cons] at hlength
    obtain ⟨htx, hposition, hpending, hcount'⟩ := first.next hat hcount
    obtain ⟨places, hafter⟩ := first.after
    obtain ⟨part, hpart, hplaces, hshown⟩ := first.exists_items hg htx header
    obtain ⟨parts, hparts, hrest, hall⟩ :=
      ih (first.grounded hg htx hposition hlength.1) hpending hcount' hlength.2
    rw [hafter.locator] at hall
    rw [hafter.position] at hrest
    refine ⟨part :: parts, .cons hpart hparts, ?_, fun item hitem => ?_⟩
    · rw [List.flatten_cons, List.map_append, hplaces, hrest]
      rfl
    · rw [List.flatten_cons, List.mem_append] at hitem
      rcases hitem with hitem | hitem
      · exact hshown item hitem
      · exact hall item hitem

/-- A block that connects and closes, step by step. -/
lemma exists_of_staged_whole {archive : Archive} {chain : Chain} {header : ChainedHeader}
    {block : Block} {t t' : Tables} {counters : Counters}
    (staged : (whole archive chain header block).staged t = .ok (counters, t')) :
    ∃ cs loaded c' U, (start archive chain header block).staged t =
        .ok (taken archive chain header block cs, t) ∧
      ConnectsAll (taken archive chain header block cs) block.txs t.unspent loaded c' U ∧
      c'.close.staged { t with unspent := U } = .ok (counters, t') := by
  obtain ⟨c, t₁, hstart, hfinish⟩ := staged_bind_eq_ok.1 staged
  obtain ⟨-, -, -, cs, -, rfl, rfl⟩ := staged_start_eq_ok.1 hstart
  obtain ⟨c', t₂, hwork, hclose⟩ := staged_bind_eq_ok.1 hfinish
  obtain ⟨loaded, U, connects, rfl⟩ := staged_workOff_eq_ok.1 hwork
  exact ⟨cs, loaded, c', U, hstart, connects, hclose⟩

end Connecting

lemma Transaction.mem_inputPlaces {txs : List Transaction} {i : Nat} {place : Nat × Nat}
    (h : place ∈ inputPlaces txs i) : i ≤ place.1 := by
  obtain ⟨e, he, hplace⟩ := List.mem_flatMap.1 h
  obtain ⟨j, -, rfl⟩ := List.mem_map.1 hplace
  exact List.le_snd_of_mem_zipIdx he

/-- The places of the inputs ascend. -/
lemma Transaction.inputPlaces_sorted (txs : List Transaction) (i : Nat) :
    (inputPlaces txs i).Pairwise fun p q => p.1 < q.1 ∨ p.1 = q.1 ∧ p.2 < q.2 := by
  induction txs generalizing i with
  | nil => exact .nil
  | cons tx rest ih =>
    have hcons : inputPlaces (tx :: rest) i =
        (List.range tx.spending.length).map (fun j => (i, j)) ++ inputPlaces rest (i + 1) := rfl
    rw [hcons, List.pairwise_append, List.pairwise_map]
    refine ⟨?_, ih (i + 1), fun p hp q hq => ?_⟩
    · exact (List.pairwise_lt_range).imp fun hjk => .inr ⟨rfl, hjk⟩
    · obtain ⟨j, -, rfl⟩ := List.mem_map.1 hp
      exact .inl (mem_inputPlaces hq)

namespace Ledger

variable {l : Ledger} {archive : Archive} {header : ChainedHeader} {block : Block}
  {c c' : Connecting} {t t₁ t₂ : Tables} {loaded : List LoadedTx} {e : LedgerError}
  {items : List ScriptItem} {counters : Counters}

/-- A block that connects is refused if its scripts are. -/
lemma staged_connectBlock_of_scripts
    (start : (Connecting.start archive l.chain header block).staged t = .ok (c, t))
    (load : (loadAll header c block.txs).staged t = .ok ((loaded, items, c'), t₁))
    (close : c'.close.staged t₁ = .ok (counters, t₂))
    (scripts : (l.settings.workforce.validate l.rules.verify items).result = .error e) :
    (l.connectBlock archive header block).staged t = .error e := by
  rw [connectBlock, staged_bind, start]
  change (loadAll header c block.txs >>= _).staged t = _
  rw [staged_bind, load]
  change (c'.close >>= _).staged _ = _
  rw [staged_bind, close]
  change (StoreM.lift _ >>= _).staged _ = _
  rw [scripts]
  rfl

/-- What stops the block is what is returned, and nothing has changed. -/
lemma on_add_of_staged_error {s : LedgerSession} (idle : s.ledger.cursor = .idle)
    (free : s.db.writerOpen = false) (found : archive.block? header.hash = some block)
    (staged : (s.ledger.connectBlock archive header block).staged s.db.committed.tables =
      .error e) : (add archive header).on s = (.error e, s) := by
  rw [add, LedgerM.on_bind_of_ok (on_fetch_of_some found s),
    LedgerM.on_bind_of_ok (LedgerM.on_ledger s)]
  have htrans := LedgerM.transacted idle (s.ledger.connectBlock archive header block)
  generalize hstore : (LedgerM.store _).on s = r at htrans
  cases htrans with
  | published _ staged' => cases staged.symm.trans staged'
  | refused why =>
    cases staged.symm.trans (why free)
    rw [LedgerM.on_bind_of_error hstore]

end Ledger

/-- Failures of items in block order are in block order. -/
lemma ScriptItem.failures_sorted {verify : ScriptVerifier} {items : List ScriptItem}
    (sorted : (items.map ScriptItem.position).Pairwise fun p q =>
      p.1 < q.1 ∨ p.1 = q.1 ∧ p.2 < q.2) :
    (items.filterMap (ScriptItem.failure? verify)).Pairwise ScriptFailure.Before := by
  rw [List.pairwise_map] at sorted
  rw [List.pairwise_filterMap]
  refine sorted.imp fun h f hf g hg => ?_
  have hf := position_of_failure? hf
  have hg := position_of_failure? hg
  rw [← hf, ← hg] at h
  exact h

/-- Failures that are in block order are reported as they are. -/
lemma ScriptReport.failures_of_sorted {verify : ScriptVerifier} {items : List ScriptItem}
    (w : Workforce) (sorted : (items.filterMap (ScriptItem.failure? verify)).Pairwise
      ScriptFailure.Before) :
    (w.validate verify items).failures = items.filterMap (ScriptItem.failure? verify) := by
  rw [Workforce.validate_eq]
  refine List.mergeSort_of_pairwise (sorted.imp fun h => ?_)
  rw [ScriptFailure.notAfter_iff]
  exact h.imp_right fun h => ⟨h.1, h.2.le⟩

lemma ScriptReport.result_of_failures {verify : ScriptVerifier} {items : List ScriptItem}
    (w : Workforce) (sorted : (items.filterMap (ScriptItem.failure? verify)).Pairwise
      ScriptFailure.Before) (failing : items.filterMap (ScriptItem.failure? verify) ≠ []) :
    (w.validate verify items).result =
      .error (.scripts (items.filterMap (ScriptItem.failure? verify))) := by
  rw [result, failures_of_sorted w sorted, if_neg]
  rw [List.isEmpty_iff]
  exact failing

/-- On a state that ledgers bring about, a block whose replay succeeds presents each of its inputs
but those of coinbases once. -/
lemma Hub.Sound.exists_items {H : ChainedHeader → Prop} {P : Rules → Settings → Prop}
    (named : Traceable H) {db : Database} {archive : Archive} {ledgers : List Ledger}
    (sound : Hub.Sound H P ⟨db, archive, ledgers⟩) {l : Ledger} (hl : l ∈ ledgers)
    {header : ChainedHeader} (known : H header) {block : Block}
    (found : archive.block? header.hash = some block) {counters : Counters} {t' : Tables}
    (replayed : (Connecting.whole archive l.chain header block).staged db.committed.tables =
      .ok (counters, t')) :
    ∃ c loaded items c' U,
      (Connecting.start archive l.chain header block).staged db.committed.tables =
        .ok (c, db.committed.tables) ∧
      (Ledger.loadAll header c block.txs).staged db.committed.tables =
        .ok ((loaded, items, c'), { db.committed.tables with unspent := U }) ∧
      c'.close.staged { db.committed.tables with unspent := U } = .ok (counters, t') ∧
      items.map ScriptItem.position = block.inputPlaces ∧
      ∀ item ∈ items, item.Presents header block := by
  obtain ⟨cs, loaded, c', U, start, connects, close⟩ :=
    Connecting.exists_of_staged_whole replayed
  obtain ⟨hx, htip, -⟩ := Connecting.staged_start_eq_ok.1 start
  have serves := sound.serves l hl
  obtain ⟨t, vetted, agrees⟩ := sound.stored.of_tip named sound.archive serves.known htip
  obtain ⟨chain, hadd⟩ : ∃ chain, l.chain.add header = .ok chain := by simp [Chain.add, hx]
  have grown := (Chain.add_eq_ok.1 hadd).2
  have genuine := named.genuine ((Chain.forall_mem_iff_of_grown grown).2 ⟨serves.known, known⟩)
  obtain ⟨cs', -, start', standing, -⟩ :=
    vetted.built.start sound.archive agrees genuine grown found
  cases start.symm.trans start'
  have bounds := (sound.archive _ _ found).2
  obtain ⟨parts, hparts, hplaces, hshown⟩ := connects.exists_items standing.grounded rfl
    bounds.txs.le (fun tx htx => (bounds.of_mem htx).2.trans (by decide)) header
  exact ⟨_, loaded, parts.flatten, c', U, start,
    Ledger.staged_loadAll_eq_ok.2 ⟨U, parts, connects, hparts, rfl, rfl⟩, close, hplaces, hshown⟩

/-- Validation is exhaustive, and its schedule cannot be told from the report. A run of the workers
never goes on for ever, can always be brought to its end, and then reports how many items there are
and every failure, as often as it occurs, in block order; so does a validation in shares. Where the
items are at places of their own, neither the order in which they were submitted nor the number of
workers nor what each of them did makes a difference. And on any state that ledgers bring about, a
block whose replay succeeds presents every input of every transaction but the coinbases once: if one
of them fails, the block is refused with all of the failures, in block order. -/
theorem scripts_exhaustive :
    (∀ (verify : ScriptVerifier) (capacity : Nat),
      WellFounded fun r' r => ScriptRun.Step verify capacity r r') ∧
    (∀ (verify : ScriptVerifier) (capacity workers : Nat) (items : List ScriptItem)
      (r : ScriptRun), 0 < capacity →
      ScriptRun.Leads verify capacity (.start workers items) r →
      (∃ last, ScriptRun.Leads verify capacity r last ∧ last.Finished) ∧
      (r.Finished → r.report.Covers verify items)) ∧
    (∀ (w : Workforce) (verify : ScriptVerifier) (items : List ScriptItem),
      (w.validate verify items).Covers verify items) ∧
    (∀ (verify : ScriptVerifier) (capacity capacity' workers workers' : Nat)
      (items items' : List ScriptItem) (r r' : ScriptRun),
      ScriptRun.Leads verify capacity (.start workers items) r → r.Finished →
      ScriptRun.Leads verify capacity' (.start workers' items') r' → r'.Finished →
      items.Perm items' → (items.map ScriptItem.position).Nodup →
      r'.report = r.report ∧ r.report = Workforce.inline.validate verify items) ∧
    ∀ (H : ChainedHeader → Prop) (P : Rules → Settings → Prop), Traceable H →
      ∀ (db : Database) (archive : Archive) (ledgers : List Ledger),
      Hub.Reached H P ⟨db, archive, ledgers⟩ →
      ∀ l ∈ ledgers, ∀ header, H header → ∀ block, archive.block? header.hash = some block →
      ∀ counters t, (Connecting.whole archive l.chain header block).staged db.committed.tables =
        .ok (counters, t) →
      ∃ c loaded items c' t',
        (Connecting.start archive l.chain header block).staged db.committed.tables =
          .ok (c, db.committed.tables) ∧
        (Ledger.loadAll header c block.txs).staged db.committed.tables =
          .ok ((loaded, items, c'), t') ∧
        items.map ScriptItem.position = block.inputPlaces ∧
        (∀ item ∈ items, item.Presents header block) ∧
        (items.filterMap (ScriptItem.failure? l.rules.verify)).Pairwise ScriptFailure.Before ∧
        (items.filterMap (ScriptItem.failure? l.rules.verify) ≠ [] →
          (Ledger.add archive header).on ⟨l, db⟩ =
            (.error (.scripts (items.filterMap (ScriptItem.failure? l.rules.verify))),
              ⟨l, db⟩)) := by
  refine ⟨ScriptRun.wellFounded_step, ?_, ScriptReport.validate_covers, ?_, ?_⟩
  · intro verify capacity workers items r room leads
    exact ⟨ScriptRun.Leads.exists_finished room .refl, leads.covers⟩
  · intro verify capacity capacity' workers workers' items items' r r' leads ended leads' ended'
      reordered apart
    have hcovers := leads.covers ended
    exact ⟨((leads'.covers ended').of_perm reordered.symm).unique hcovers apart,
      hcovers.unique (ScriptReport.validate_covers _ _ _) apart⟩
  · intro H P named db archive ledgers run l hl header known block found counters t replayed
    have sound := run.sound named
    obtain ⟨c, loaded, items, c', U, start, load, close, hplaces, hshown⟩ :=
      sound.exists_items named hl known found replayed
    have hsorted : (items.filterMap (ScriptItem.failure? l.rules.verify)).Pairwise
        ScriptFailure.Before := by
      refine ScriptItem.failures_sorted ?_
      rw [hplaces]
      exact Transaction.inputPlaces_sorted _ _
    refine ⟨c, loaded, items, c', _, start, load, hplaces, hshown, hsorted, fun failing => ?_⟩
    have serves := sound.serves l hl
    exact Ledger.on_add_of_staged_error serves.idle sound.stored.free found
      (Ledger.staged_connectBlock_of_scripts start load close
        (ScriptReport.result_of_failures _ hsorted failing))

/-- Rejects everything. -/
def strictRules : Rules := .permissive fun _ => .rejected "refused"

/-- A second ledger on the store of the coin, under stricter rules. -/
def strictLedger : Ledger := ⟨strictRules, unprunedSettings, coinChain, .idle, 0⟩

/-- A further ledger may be opened on a stored chain. -/
lemma Hub.Reached.joined {H : ChainedHeader → Prop} {P : Rules → Settings → Prop} {db : Database}
    {archive : Archive} {ledgers : List Ledger} {chain : Chain} {rules : Rules}
    {settings : Settings} (before : Hub.Reached H P ⟨db, archive, ledgers⟩)
    (stored : db.committed.tables.chainHeaders = .ok chain.headers) (known : H chain.genesis)
    (height : chain.genesis.height = 0) (admitted : P rules settings) :
    Hub.Reached H P ⟨db, archive, ⟨rules, settings, chain, .idle, 0⟩ :: ledgers⟩ := by
  have opened := before.opened known admitted
  rw [Ledger.openOn_stored _ _ stored height rfl] at opened
  exact opened

lemma strictLedger_reached : Hub.Reached (· ∈ coinHeaders)
    (fun _ settings => settings.maxRollbackDepth = 0)
    ⟨(Ledger.Call.runAll coinArchive coinCalls coinStart).db, coinArchive,
      [strictLedger, (Ledger.Call.runAll coinArchive coinCalls coinStart).ledger]⟩ := by
  have first := coinRun_reachable.hub_singleton List.mem_cons_self
  have hgenesis : coinChain.genesis = soleGenesis := rfl
  have known : coinChain.genesis ∈ coinHeaders := by
    rw [hgenesis]
    exact List.mem_cons_self
  have height : coinChain.genesis.height = 0 := by
    rw [hgenesis]
    rfl
  exact @Hub.Reached.joined _ _ _ _ _ coinChain strictRules unprunedSettings first
    coinRun_chainHeaders known height rfl

/-- A block above the stored chain that obeys the plain rule is replayed. -/
lemma Hub.Sound.replays_of_rule {H : ChainedHeader → Prop} {P : Rules → Settings → Prop}
    (named : Traceable H) {db : Database} {archive : Archive} {ledgers : List Ledger}
    (sound : Hub.Sound H P ⟨db, archive, ledgers⟩) {chain : Chain}
    (stored : db.committed.tables.chainHeaders = .ok chain.headers) {header : ChainedHeader}
    (known : H header) (above : header.Extends chain.tip) {block : Block}
    (found : archive.block? header.hash = some block) {coins after : Coins}
    (held : db.committed.tables.coins = .ok coins)
    (rule : coins.connectAll [] block.txs = .ok after) :
    ∃ counters t, (Connecting.whole archive chain header block).staged db.committed.tables =
      .ok (counters, t) := by
  obtain ⟨hchain, t, vetted, agrees⟩ := sound.stored.of_chainHeaders named sound.archive stored
  obtain ⟨chain', hadd⟩ : ∃ chain', chain.add header = .ok chain' := by simp [Chain.add, above]
  have grown := (Chain.add_eq_ok.1 hadd).2
  have genuine := named.genuine ((Chain.forall_mem_iff_of_grown grown).2 ⟨hchain, known⟩)
  have obeys := vetted.built.whole_obeys sound.archive agrees genuine grown found
  have hkeyed : db.committed.tables.unspent.Keyed := by
    obtain ⟨-, -, -, -, hkeyed, -⟩ := vetted.built.exact sound.archive (named.genuine hchain)
    rwa [agrees.unspent]
  cases (Tables.coins_eq hkeyed).symm.trans held
  rw [rule] at obeys
  obtain ⟨counters, t', staged, -⟩ := obeys
  exact ⟨counters, t', staged⟩

lemma positions_of_strict (items : List ScriptItem) :
    (items.filterMap (ScriptItem.failure? strictRules.verify)).map ScriptFailure.position =
      items.map ScriptItem.position := by
  induction items with
  | nil => rfl
  | cons item rest ih =>
    have hfailure : item.failure? strictRules.verify =
        some ⟨item.hash, item.txIndex, item.inputIndex, "refused"⟩ := rfl
    rw [List.filterMap_cons, hfailure, List.map_cons, List.map_cons, ih]
    rfl

lemma spendingBlock_inputPlaces : spendingBlock.inputPlaces = [(1, 0), (2, 0)] := by
  decide +kernel

/-- Both inputs of the block fail, and three workers with a queue for one item report the same. -/
theorem scripts_exhaustive_strict : ∃ db ledgers failures items last,
    Hub.Reached (· ∈ coinHeaders) (fun _ settings => settings.maxRollbackDepth = 0)
      ⟨db, coinArchive, strictLedger :: ledgers⟩ ∧
    (Ledger.add coinArchive spendingHeader).on ⟨strictLedger, db⟩ =
      (.error (.scripts failures), ⟨strictLedger, db⟩) ∧
    failures.map ScriptFailure.position = [(1, 0), (2, 0)] ∧
    ScriptRun.Leads strictRules.verify 1 (.start 3 items) last ∧ last.Finished ∧
    last.report = Workforce.inline.validate strictRules.verify items ∧
    last.report.failures = failures := by
  have run := strictLedger_reached
  have named := coinHeaders_apart.traceable
  have known : spendingHeader ∈ coinHeaders := by simp [coinHeaders]
  have found : coinArchive.block? spendingHeader.hash = some spendingBlock :=
    Archive.block?_add _ spendingBlock
  obtain ⟨hheld, hrule⟩ := spendingBlock_plain
  rw [← Tables.coins_congr coinRun_evaluated.2.2.2] at hheld
  have stored := coinRun_chainHeaders
  generalize (Ledger.Call.runAll coinArchive coinCalls coinStart).db = db at run hheld stored
  obtain ⟨counters, t, replayed⟩ := (run.sound named).replays_of_rule named stored known
    ⟨by decide, rfl⟩ found (toOption_eq_some.1 hheld) hrule
  obtain ⟨-, hruns, -, hblind, hblocks⟩ := scripts_exhaustive
  obtain ⟨c, loaded, items, c', t', -, -, hplaces, -, hsorted, hrefused⟩ := hblocks _ _ named db
    coinArchive _ run strictLedger List.mem_cons_self spendingHeader known spendingBlock found
    counters t replayed
  have hverify : strictLedger.rules.verify = strictRules.verify := rfl
  rw [hverify] at hsorted hrefused
  rw [spendingBlock_inputPlaces] at hplaces
  have hpositions := (positions_of_strict items).trans hplaces
  obtain ⟨⟨last, leads, ended⟩, -⟩ := hruns strictRules.verify 1 3 items (.start 3 items)
    Nat.one_pos .refl
  have hsame := (hblind strictRules.verify 1 1 3 3 items items last last leads ended leads ended
    (.refl _) (by rw [hplaces]; decide)).2
  refine ⟨db, _, _, items, last, run, hrefused fun hnone => ?_, hpositions, leads, ended, hsame, ?_⟩
  · rw [hnone] at hpositions
    cases hpositions
  · rw [hsame]
    exact ScriptReport.failures_of_sorted _ hsorted

end UtxoLedger

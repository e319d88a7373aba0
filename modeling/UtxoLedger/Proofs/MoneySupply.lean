import Mathlib.Tactic.Common
import UtxoLedger.Proofs.FeeArithmetic
import UtxoLedger.Proofs.RecordLists
import UtxoLedger.Proofs.SharedLedgers
import UtxoLedger.Proofs.Unwinding

/-!
# The money supply

The unspent outputs are worth what the transactions behind the records say. A spend lowers this by
what it brings, a mint raises it by what the outputs take; so a transaction lowers it by its fee,
and a coinbase raises it by what it pays. Under the consensus rules a block adds no more than the
subsidy of its height, also when its coinbase is spent further down in the block and the fees that
pay for it come out of the coinbase itself.
-/
namespace UtxoLedger

namespace UnspentTx

variable {archive : Archive} {headers : List ChainedHeader} {u : UnspentTx} {tx : Transaction}

/-- The transaction that a record leads to on a chain with these headers. -/
def source? (archive : Archive) (headers : List ChainedHeader) (u : UnspentTx) :
    Option Transaction :=
  if 0 ≤ u.height.toInt ∧ 0 ≤ u.index.toInt then do
    let header ← headers[u.height.toInt.toNat]?
    let tx ← archive.tx? header.hash u.index.toInt.toNat
    if tx.hash = u.hash then some tx else none
  else none

/-- What the unspent outputs of a record are worth, if it leads to a transaction that has them. -/
def funds? (archive : Archive) (headers : List ChainedHeader) (u : UnspentTx) : Option Int := do
  let tx ← u.source? archive headers
  let outputs ← u.states.unspentIndices.mapM fun i => tx.outputs[i]?
  return (outputs.map fun o => o.value.toInt).sum

/-- The record leads to the transaction, which has an output for each of its states and none with a
negative amount. -/
structure Backed (archive : Archive) (headers : List ChainedHeader) (u : UnspentTx)
    (tx : Transaction) : Prop where
  source : u.source? archive headers = some tx
  length : tx.outputs.length = u.states.size
  sound : tx.Sound

lemma source?_of_get? {chain : Chain} {h : ChainedHeader} (hget : chain.get? u.height = some h)
    (hindex : 0 ≤ u.index.toInt) (htx : archive.tx? h.hash u.index.toInt.toNat = some tx)
    (hname : tx.hash = u.hash) : u.source? archive chain.headers = some tx := by
  unfold Chain.get? at hget
  split at hget
  next hheight =>
    rw [source?, if_pos ⟨hheight, hindex⟩, hget]
    change (archive.tx? h.hash _ >>= _) = _
    rw [htx]
    exact if_pos hname
  · exact nomatch hget

/-- More headers on top make no difference. -/
lemma source?_append (h : u.source? archive headers = some tx) (more : List ChainedHeader) :
    u.source? archive (headers ++ more) = some tx := by
  unfold source? at h ⊢
  split at h
  next hpos =>
    obtain ⟨header, hheader, h⟩ := Option.bind_eq_some_iff.1 h
    have hlt := (List.getElem?_eq_some_iff.1 hheader).1
    rw [if_pos hpos, List.getElem?_append_left hlt, hheader]
    exact h
  · exact nomatch h

lemma Backed.append (h : u.Backed archive headers tx) (more : List ChainedHeader) :
    u.Backed archive (headers ++ more) tx :=
  ⟨source?_append h.source more, h.length, h.sound⟩

/-- The outputs of a transaction behind a record are worth their amounts. -/
def fundsOf (u : UnspentTx) (tx : Transaction) : Int :=
  (u.states.unspentIndices.map tx.valueAt).sum

lemma mapM_outputs (is : List Nat) (h : ∀ i ∈ is, i < tx.outputs.length) :
    ∃ outputs, (is.mapM fun i => tx.outputs[i]?) = some outputs ∧
      outputs.map (fun o => o.value.toInt) = is.map tx.valueAt := by
  induction is with
  | nil => exact ⟨[], rfl, rfl⟩
  | cons i is ih =>
    obtain ⟨outputs, hmap, hvalues⟩ := ih fun j hj => h j (List.mem_cons_of_mem _ hj)
    obtain ⟨o, hi⟩ : ∃ o, tx.outputs[i]? = some o :=
      ⟨_, List.getElem?_eq_getElem (h i List.mem_cons_self)⟩
    refine ⟨o :: outputs, ?_, ?_⟩
    · simp [List.mapM_cons, hi, hmap]
    · rw [List.map_cons, List.map_cons, hvalues, Transaction.valueAt, hi]
      rfl

lemma Backed.funds? (h : u.Backed archive headers tx) :
    u.funds? archive headers = some (u.fundsOf tx) := by
  have hlt : ∀ i ∈ u.states.unspentIndices, i < tx.outputs.length := fun i hi => by
    rw [h.length]
    exact OutputStates.lt_size_of_get? (OutputStates.mem_unspentIndices.1 hi)
  obtain ⟨outputs, hmap, hvalues⟩ := mapM_outputs _ hlt
  simp [UnspentTx.funds?, h.source, hmap, hvalues, fundsOf]

end UnspentTx

/-- What all unspent outputs are worth. -/
def supply? (archive : Archive) (headers : List ChainedHeader) (us : List UnspentTx) :
    Option Int :=
  (us.mapM (UnspentTx.funds? archive headers)).map List.sum

section
variable {archive : Archive} {headers : List ChainedHeader} {us us' : List UnspentTx}
  {u : UnspentTx} {tx : Transaction} {total : Int}

lemma supply?_cons_eq_some : supply? archive headers (u :: us) = some total ↔
    ∃ funds rest, u.funds? archive headers = some funds ∧ supply? archive headers us = some rest ∧
      total = funds + rest := by
  unfold supply?
  rw [List.mapM_cons]
  cases u.funds? archive headers <;> cases us.mapM (UnspentTx.funds? archive headers) <;>
    simp [eq_comm]

lemma supply?_perm (h : us.Perm us') : supply? archive headers us = supply? archive headers us' := by
  ext total
  induction h generalizing total with
  | nil => rfl
  | cons u _ ih => simp only [supply?_cons_eq_some, ih]
  | swap u v us =>
    simp only [supply?_cons_eq_some]
    constructor <;>
    · rintro ⟨a, _, ha, ⟨b, rest, hb, hrest, rfl⟩, rfl⟩
      exact ⟨b, _, hb, ⟨a, rest, ha, hrest, rfl⟩, by omega⟩
  | trans _ _ ih₁ ih₂ => exact (ih₁ total).trans (ih₂ total)

/-- Records that are backed on a chain are so on a longer one, and worth the same. -/
lemma supply?_append (more : List ChainedHeader)
    (backed : ∀ u ∈ us, ∃ tx, u.Backed archive headers tx)
    (h : supply? archive headers us = some total) :
    supply? archive (headers ++ more) us = some total := by
  induction us generalizing total with
  | nil => exact h
  | cons u us ih =>
    obtain ⟨funds, rest, hfunds, hrest, rfl⟩ := supply?_cons_eq_some.1 h
    obtain ⟨tx, hu⟩ := backed u List.mem_cons_self
    refine supply?_cons_eq_some.2 ⟨funds, rest, ?_, ih (fun v hv => backed v (.tail _ hv)) hrest, rfl⟩
    rwa [(hu.append more).funds?, ← hu.funds?]

end

namespace Connecting

variable {archive : Archive} {headers : List ChainedHeader} {c c' : Connecting} {U U' : Table}
  {o : OutPoint} {source tx : Transaction} {place : TxLocation} {inputs : List TxInput}
  {sources txs : List Transaction} {places : List TxLocation} {l : LoadedTx}
  {loaded : List LoadedTx} {total : Int}

/-- All that the block at work locates is found on a chain with these headers, where the records are
worth `total`. -/
structure Funded (archive : Archive) (headers : List ChainedHeader) (c : Connecting) (U : Table)
    (total : Int) : Prop where
  leads : ∀ (u : UnspentTx) (place : TxLocation) (tx : Transaction),
    c.locator.placeOf c.chain u = .ok place → c.locator.resolve place u.hash = .ok tx →
      u.source? archive headers = some tx
  keyed : U.Keyed
  backed : ∀ u ∈ U.records, ∃ tx, u.Backed archive headers tx
  supply : supply? archive headers U.records = some total

/-- What a spend takes out of a record. -/
lemma Exchanges.fundsOf {u : UnspentTx} {states : OutputStates} {rest : List UnspentTx}
    (h : Exchanges c o U source place c' U' u states rest) : u.fundsOf source =
      source.valueAt o.index.toNat + ({ u with states } : UnspentTx).fundsOf source := by
  have hperm := (OutputStates.unspentIndices_set? h.get h.set).map source.valueAt
  rw [UnspentTx.fundsOf, hperm.sum_eq, List.map_cons, List.sum_cons]
  rfl

lemma Funded.spend (hf : Funded archive headers c U total) (h : Spends c o U source place c' U') :
    Funded archive headers c' U' (total - source.valueAt o.index.toNat) ∧ source.Sound := by
  obtain ⟨hkeyed, u, states, rest, hx⟩ := h.exchanges hf.keyed
  have hsame := h.sameBlock
  have hmem : ∀ v, v ∈ U.records ↔ v ∈ u :: rest := fun v => hx.before.mem_iff
  have hsource : u.source? archive headers = some source :=
    hf.leads u place source hx.located (hx.name ▸ hx.resolved)
  obtain ⟨tx, hbacked⟩ := hf.backed u ((hmem u).2 List.mem_cons_self)
  obtain rfl : tx = source := Option.some.inj (hbacked.source.symm.trans hsource)
  have hsupply := hf.supply
  rw [supply?_perm hx.before] at hsupply
  obtain ⟨funds, others, hfunds, hothers, rfl⟩ := supply?_cons_eq_some.1 hsupply
  obtain rfl := Option.some.inj (hfunds.symm.trans hbacked.funds?)
  have hvalue := hx.fundsOf
  have hafter : ({ u with states } : UnspentTx).Backed archive headers tx :=
    ⟨hsource, hbacked.length.trans (OutputStates.set?_eq_some hx.set).2.1.symm, hbacked.sound⟩
  have hrest : ∀ v ∈ rest, ∃ tx, v.Backed archive headers tx := fun v hv =>
    hf.backed v ((hmem v).2 (List.mem_cons_of_mem _ hv))
  refine ⟨⟨?_, hkeyed, fun v hv => ?_, ?_⟩, hbacked.sound⟩
  · rw [hsame.locator, hsame.chain]
    exact hf.leads
  · rw [hx.after.mem_iff] at hv
    split at hv
    · exact hrest v hv
    · rcases List.mem_cons.1 hv with rfl | hv
      · exact ⟨tx, hafter⟩
      · exact hrest v hv
  · rw [supply?_perm hx.after]
    split
    next hall =>
      -- The record goes with its last unspent output.
      have hnone : ({ u with states } : UnspentTx).fundsOf tx = 0 := by
        rw [UnspentTx.fundsOf, OutputStates.allSpent_iff_unspentIndices.1 hall]
        rfl
      rw [hothers]
      exact congrArg some (by omega)
    · exact supply?_cons_eq_some.2 ⟨_, others, hafter.funds?, hothers, by omega⟩

lemma Funded.spendAll (hf : Funded archive headers c U total)
    (h : SpendsAll c inputs U sources places c' U') :
    Funded archive headers c' U' (total - (List.zipWith LoadedTx.brought inputs sources).sum) ∧
      ∀ source ∈ sources, source.Sound := by
  induction h generalizing total with
  | nil => simpa using hf
  | @cons c c₁ c₂ input rest U U₁ U₂ source place sources places first more ih =>
    obtain ⟨hfirst, hsound⟩ := hf.spend first
    obtain ⟨hrest, hsounds⟩ := ih hfirst
    refine ⟨?_, by simpa using ⟨hsound, hsounds⟩⟩
    rw [List.zipWith_cons_cons, List.sum_cons, ← sub_sub]
    exact hrest

lemma Funded.mint (hf : Funded archive headers c U total) (h : Mints c tx tx.hash U c' U')
    (hsound : tx.Sound) (hat : c.locator.block.txs[c.position]? = some tx)
    (hposition : c.position < 2 ^ 31) (hlength : tx.outputs.length < 2 ^ 32) :
    Funded archive headers c' U' (total + tx.worth) := by
  obtain ⟨hkeyed, hperm⟩ := h.records_perm hf.keyed hlength
  have hsame := h.sameBlock.1
  obtain ⟨place, located, resolved⟩ := record_resolved hat hposition
  have hbacked : (c.record tx tx.hash).Backed archive headers tx :=
    ⟨hf.leads _ place tx located resolved, (OutputStates.size_filled _ _).symm, hsound⟩
  have hworth : (c.record tx tx.hash).fundsOf tx = tx.worth := by
    rw [tx.worth_eq, UnspentTx.fundsOf, record, OutputStates.unspentIndices_filled]
  refine ⟨?_, hkeyed, fun v hv => ?_, ?_⟩
  · rw [hsame.locator, hsame.chain]
    exact hf.leads
  · rw [hperm.mem_iff] at hv
    split at hv
    · exact hf.backed v hv
    · rcases List.mem_cons.1 hv with rfl | hv
      · exact ⟨tx, hbacked⟩
      · exact hf.backed v hv
  · rw [supply?_perm hperm]
    split
    next hnone => simpa [Transaction.worth, hnone] using hf.supply
    · refine supply?_cons_eq_some.2 ⟨_, total, hbacked.funds?, hf.supply, ?_⟩
      rw [hworth, Int.add_comm]

lemma Funded.connect (hf : Funded archive headers c U total) (h : Connects c tx U l c' U')
    (hsound : tx.Sound) (hat : c.locator.block.txs[c.position]? = some tx)
    (hposition : c.position < 2 ^ 31) (hlength : tx.outputs.length < 2 ^ 32) :
    Funded archive headers c' U' (total + l.gain) ∧ l.tx = tx ∧ l.isCoinbase = tx.isCoinbase ∧
      ∀ source ∈ l.sources, source.Sound := by
  obtain ⟨-, -, spends, mints⟩ := h
  rename_i sources places c₁ c₂ U₁
  have hstart : Funded archive headers { c with minted := c.minted.insert tx.hash } U total :=
    ⟨hf.leads, hf.keyed, hf.backed, hf.supply⟩
  obtain ⟨hspent, hsounds⟩ := hstart.spendAll spends
  have hsame := spends.sameBlock
  have hminted := hspent.mint mints hsound (by rw [hsame.locator, hsame.position]; exact hat)
    (by rw [hsame.position]; exact hposition) hlength
  refine ⟨⟨hminted.leads, hminted.keyed, hminted.backed, hminted.supply.trans ?_⟩, rfl, rfl, hsounds⟩
  rw [LoadedTx.gain, LoadedTx.taken]
  cases tx.isCoinbase
  · simp only [Bool.false_eq_true, if_false]
    exact congrArg some (by omega)
  · simp

lemma Funded.connectAll (hf : Funded archive headers c U total)
    (h : ConnectsAll c txs U loaded c' U') (hsound : ∀ tx ∈ txs, tx.Sound)
    (hat : c.locator.block.txs.drop c.position = txs) (hcount : c.locator.block.txs.length ≤ 2 ^ 31)
    (hlength : ∀ tx ∈ txs, tx.outputs.length < 2 ^ 32) :
    Funded archive headers c' U' (total + (loaded.map LoadedTx.gain).sum) ∧
      List.Forall₂ (fun l tx => l.tx = tx ∧ l.isCoinbase = tx.isCoinbase ∧
        ∀ source ∈ l.sources, source.Sound) loaded txs := by
  induction h generalizing total with
  | nil => exact ⟨by simpa using hf, .nil⟩
  | @cons c c₁ c₂ tx rest U U₁ U₂ l loaded first more ih =>
    obtain ⟨htx, hposition, hpending, hcount'⟩ := first.next hat hcount
    obtain ⟨hfirst, hl⟩ := hf.connect first (hsound tx List.mem_cons_self) htx hposition
      (hlength tx List.mem_cons_self)
    obtain ⟨hrest, hloaded⟩ := ih hfirst (fun t ht => hsound t (List.mem_cons_of_mem _ ht))
      hpending hcount' fun t ht => hlength t (List.mem_cons_of_mem _ ht)
    refine ⟨?_, .cons hl hloaded⟩
    rw [List.map_cons, List.sum_cons, ← add_assoc]
    exact hrest

end Connecting

/-- A block that breaks no rule adds no more than its subsidy. -/
lemma Rules.gain_le {header : ChainedHeader} {block : Block} {loaded : List LoadedTx}
    (h : blockFault header block loaded = .ok ())
    (hloaded : List.Forall₂ (fun l tx => l.tx = tx ∧ l.isCoinbase = tx.isCoinbase ∧
      ∀ source ∈ l.sources, source.Sound) loaded block.txs) :
    (loaded.map LoadedTx.gain).sum ≤ (Amount.subsidy header.height).toInt := by
  obtain ⟨-, coinbase, rest, htxs, hcoinbase, hrest, hpaid⟩ := of_blockFault h
  rw [htxs] at hloaded
  obtain ⟨l, ls, ⟨rfl, hl, -⟩, hls, rfl⟩ := List.forall₂_cons_right_iff.1 hloaded
  have hspending : ∀ l ∈ ls, l.isCoinbase = false ∧ ∀ source ∈ l.sources, source.Sound := by
    intro l hl
    obtain ⟨i, hi, rfl⟩ := List.mem_iff_getElem.1 hl
    have hi' : i < rest.length := hls.length_eq ▸ hi
    obtain ⟨-, hflag, hsources⟩ := hls.get hi hi'
    exact ⟨hflag.trans (hrest _ (List.getElem_mem hi')), hsources⟩
  have hgain : l.gain = l.tx.worth := by rw [LoadedTx.gain, hl, hcoinbase, if_pos rfl, sub_zero]
  rw [List.map_cons, List.sum_cons, hgain]
  exact hpaid hspending

/-- The height of the header on top of a chain. -/
lemma Chain.height_of_grown {chain below : Chain} {header : ChainedHeader}
    (grown : chain.headers = below.headers ++ [header]) :
    header.height = Int32.ofNat below.headers.length := by
  have hlength : chain.headers.length = below.headers.length + 1 := by simp [grown]
  have hheight := chain.toInt_height
  have hle := chain.length_le
  rw [height, tip_of_grown grown, hlength, Nat.add_sub_cancel] at hheight
  rw [← Int32.toInt_inj, hheight, Int32.toInt_ofNat_of_lt (by omega)]

/-- Under the consensus rules the records of a chain are worth no more than its blocks were allowed
to issue. -/
theorem Vetted.funded {P : Rules → Settings → Prop} {archive : Archive} {chain : Chain} {t : Tables}
    (h : Vetted P archive chain t)
    (strict : ∀ rules settings, P rules settings → ∃ verify, rules = .consensus verify)
    (sound : archive.Sound) (genuine : chain.Genuine) :
    t.unspent.Keyed ∧ (∀ u ∈ t.unspent.records, ∃ tx, u.Backed archive chain.headers tx) ∧
      ∃ total, supply? archive chain.headers t.unspent.records = some total ∧
        total ≤ Amount.issued (chain.headers.length - 1) := by
  induction h with
  | @genesis chain header sole =>
    have hunspent : (Ledger.seedTables header).unspent = ∅ := by
      simp [Ledger.seedTables, Tables.empty]
    rw [hunspent]
    exact ⟨Table.keyed_empty, by simp, 0, rfl, by simp [sole]⟩
  | @above chain below header block t cs loaded c U rules settings vetted found counters connects
      admitted passed grown ih =>
    obtain ⟨hbelow, -, hnew⟩ := genuine.of_grown grown
    obtain ⟨hkeyed, hbacked, total, hsupply, hle⟩ := ih hbelow
    obtain ⟨verify, rfl⟩ := strict _ _ admitted
    have hrules : Rules.blockFault header block loaded = .ok () := by
      have hpassed : (Rules.blockFault header block loaded).mapError _ = .ok () := passed
      cases hfault : Rules.blockFault header block loaded with
      | error fault => simp [hfault, Except.mapError] at hpassed
      | ok => rfl
    have bounds := (sound _ _ found).2
    have hstart : Connecting.Funded archive chain.headers (.taken archive below header block cs)
        t.unspent total := by
      refine ⟨fun u place tx located resolved => ?_, hkeyed, fun u hu => ?_, ?_⟩
      · obtain ⟨h, hget, hindex, htx, hname⟩ :=
          Locator.resolved_above found hnew grown located resolved
        exact UnspentTx.source?_of_get? hget hindex htx hname
      · obtain ⟨tx, hu⟩ := hbacked u hu
        exact ⟨tx, grown ▸ hu.append _⟩
      · rw [grown]
        exact supply?_append _ hbacked hsupply
    obtain ⟨hend, hloaded⟩ := hstart.connectAll connects (Rules.of_blockFault hrules).1 rfl
      bounds.txs.le fun tx htx => (bounds.of_mem htx).2.trans (by decide)
    have hgain := Rules.gain_le hrules hloaded
    have hunspent : (c.closed { t with unspent := U }).unspent = U := by simp [Connecting.closed]
    have hlength : chain.headers.length - 1 = below.headers.length - 1 + 1 := by
      have := below.length_pos
      simp only [grown, List.length_append, List.length_singleton]
      omega
    rw [hunspent]
    refine ⟨hend.keyed, hend.backed, _, hend.supply, ?_⟩
    rw [hlength, Amount.issued_succ, Nat.sub_add_cancel below.length_pos,
      ← Chain.height_of_grown grown]
    exact add_le_add hle hgain

/-- Whatever ledgers with the consensus rules did to a store, and whatever failed: every record
leads to its outputs, all unspent outputs together are worth no more than the subsidies of the
blocks above genesis, and these stay within the total supply. -/
theorem money_from_subsidies {H : ChainedHeader → Prop} {P : Rules → Settings → Prop}
    (named : NamedApart H)
    (strict : ∀ rules settings, P rules settings → ∃ verify, rules = .consensus verify)
    {db : Database} {archive : Archive} {ledgers : List Ledger}
    (run : Hub.Reached H P ⟨db, archive, ledgers⟩) :
    ∃ headers us total, db.committed.tables.chainHeaders = .ok headers ∧
      db.committed.tables.allUnspent = .ok us ∧ supply? archive headers us = some total ∧
      total ≤ ∑ k ∈ Finset.Icc 1 (headers.length - 1), (Amount.subsidy (Int32.ofNat k)).toInt ∧
      ∑ k ∈ Finset.Icc 1 (headers.length - 1), (Amount.subsidy (Int32.ofNat k)).toInt ≤
        Amount.maxMoney.toInt := by
  have sound := run.sound named
  rcases sound.stored.filled with hempty | ⟨chain, t, known, vetted, agrees⟩
  · exact ⟨[], [], 0, by rw [hempty]; rfl, by rw [hempty]; rfl, rfl, le_rfl, by decide⟩
  · obtain ⟨hheaders, -⟩ := Stored.chainHeaders_tip? named sound.archive known vetted agrees
    obtain ⟨hkeyed, -, total, hsupply, hle⟩ :=
      vetted.funded strict sound.archive (named.genuine known)
    rw [← agrees.unspent] at hkeyed hsupply
    have hlength := chain.length_le
    have hpos := chain.length_pos
    exact ⟨chain.headers, _, total, hheaders, Tables.allUnspent_eq hkeyed, hsupply, hle,
      Amount.issued_le_maxMoney (by omega)⟩

lemma returningHeaders_apart : NamedApart (· ∈ returningHeaders) where
  real := returningHeaders_genuine.real
  apart a b ha hb := returning_evaluated.2.1 a ha b hb

/-- A coinbase is spent in its own block, and comes in a second time after that. -/
theorem money_from_subsidies_returning : ∃ db ledgers headers us total,
    Hub.Reached (· ∈ returningHeaders) Strict ⟨db, returningArchive, ledgers⟩ ∧
    db.committed.tables.chainHeaders = .ok headers ∧ headers.getLast? = some returningHeader ∧
    db.committed.tables.allUnspent = .ok us ∧
    supply? returningArchive headers us = some total ∧ total ≤ 10000000000 := by
  obtain ⟨db, l, run, htip⟩ : ∃ db l, Reachable soleGenesis (· ∈ returningHeaders) Strict
      ⟨db, returningArchive, some l⟩ ∧ l.chain.tip = returningHeader :=
    ⟨_, _, returning_reachable, returning_evaluated.1⟩
  have hub := run.hub_singleton List.mem_cons_self
  obtain ⟨headers, us, total, hheaders, hus, hsupply, hle, -⟩ :=
    money_from_subsidies returningHeaders_apart (fun _ _ h => h.1) hub
  have hchain := run.chainHeaders returningHeaders_genuine
  cases hheaders.symm.trans hchain
  have hlast : l.chain.headers.getLast? = some returningHeader := by
    rw [List.getLast?_eq_some_getLast l.chain.nonempty]
    exact congrArg some htip
  have hlength : l.chain.headers.length - 1 = 2 := by
    have hheight := l.chain.toInt_height
    have htop : returningHeader.height.toInt = 2 := by decide +kernel
    rw [Chain.height, htip, htop] at hheight
    omega
  rw [hlength] at hle
  exact ⟨db, [l], l.chain.headers, us, total, hub, hheaders, hlast, hus, hsupply, hle⟩

end UtxoLedger

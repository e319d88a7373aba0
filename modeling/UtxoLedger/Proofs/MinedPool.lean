import Mathlib.Tactic.Common
import UtxoLedger.Proofs.BlockAcceptance
import UtxoLedger.Proofs.PoolFreshness
import UtxoLedger.Proofs.PooledSources
import UtxoLedger.Proofs.ReplayedBlock
import UtxoLedger.Proofs.Unwinding

/-!
# What the pool admits can be mined

Two judges look at a transaction, the pool and the ledger that connects its block. Whatever the pool
took in against the committed state, in whatever order, behind a coinbase that pays no more than it
may: the ledger takes it, too. The outpoints are there and nobody else in the block spends them, so
the block connects; what its inputs spend is what the pool saw, so the fees are those of the pool,
and the scripts are accepted.
-/
namespace UtxoLedger

/-- What comes out of any run of a pool: transactions are offered to it, against whatever state and
under whatever rules, and it is told of blocks. -/
inductive Pool.Run : Pool → Prop
  | empty : Run .empty
  | offered {p : Pool} (before : Run p) (archive : Archive) (rules : Rules) (db : Database)
      (tx : Transaction) : Run (p.offer archive rules db tx)
  | told {p : Pool} (before : Run p) (header : ChainedHeader) (block : Block) :
      Run (p.tell header block)

lemma Pool.Run.sound {p : Pool} (h : p.Run) : p.Sound := by
  induction h with
  | empty => exact sound_empty
  | offered _ archive rules db tx ih =>
    obtain haccept | hsame := entered_or_same _ archive rules db tx
    · exact ih.accept haccept
    · rwa [hsame]
  | told _ header block ih => exact ih.confirmTxs ⟨header, ∅, []⟩ block.txs

/-- It was accepted into a pool against this state and under these rules, when the archive held no
more than now. -/
def PooledTx.EnteredOn (t : PooledTx) (archive : Archive) (rules : Rules) (db : Database) : Prop :=
  ∃ earlier p p', earlier.Within archive ∧ Pool.accept p earlier rules db t.tx = (.ok (), p') ∧
    p'.get? t.hash = some t

lemma PooledTx.EnteredOn.judged {t : PooledTx} {archive : Archive} {rules : Rules} {db : Database}
    (h : t.EnteredOn archive rules db) (named : t.tx.hash = t.hash) :
    ∃ earlier s spent, earlier.Within archive ∧ Snapshot.take db = .ok s ∧
      List.Forall₂ (fun input output => s.Lends earlier input.prevout output) t.tx.inputs spent ∧
      Pool.feeOver t.tx spent = .ok t.fee ∧
      Pool.askScripts rules.verify s.chain.tip t.tx t.hash 0 spent = .ok () := by
  obtain ⟨earlier, p, p', hwithin, haccept, hget⟩ := h
  obtain ⟨-, -, -, t', hjudge, rfl⟩ := Pool.accept_eq_ok.1 haccept
  obtain ⟨s, spent, fee, htake, hlends, hfee, hscripts, rfl⟩ := Pool.judge_eq_ok.1 hjudge
  rw [Pool.get?, Pool.txs_insert, if_pos named] at hget
  have hsame : fee = t.fee := congrArg PooledTx.fee (Option.some.inj hget)
  rw [hsame] at hfee
  rw [named] at hscripts
  exact ⟨earlier, s, spent, hwithin, htake, hlends, hfee, hscripts⟩

/-- What it spends is there. -/
lemma PooledTx.EnteredOn.mem_coins {t : PooledTx} {archive : Archive} {rules : Rules}
    {db : Database} (h : t.EnteredOn archive rules db) (named : t.tx.hash = t.hash)
    (keyed : db.committed.tables.unspent.Keyed) :
    ∀ o ∈ t.tx.prevouts, o ∈ db.committed.tables.unspent.coins := by
  obtain ⟨earlier, s, spent, -, htake, hlends, -⟩ := h.judged named
  obtain ⟨-, htables⟩ := Snapshot.ofTables_eq_ok.1 htake
  intro o ho
  obtain ⟨input, hinput, rfl⟩ := List.mem_map.1 ho
  obtain ⟨i, hi, rfl⟩ := List.getElem_of_mem hinput
  have hoffers := (hlends.get hi (hlends.length_eq ▸ hi)).offers
  rw [htables] at hoffers
  exact (Tables.offers_iff keyed).1 hoffers

section Connect

variable {pool : Pool} {mined : List PooledTx} {coinbase : Transaction} {coins : Coins}

/-- Pooled transactions behind a coinbase obey the plain rule, if their outpoints are there and the
names are new. -/
lemma Pool.Sound.connectAll (hs : pool.Sound)
    (pooled : ∀ t ∈ mined, pool.txs[t.hash]? = some t) (first : coinbase.isCoinbase = true)
    (distinct : ((coinbase :: mined.map PooledTx.tx).map Transaction.hash).Nodup)
    (new : ∀ tx ∈ coinbase :: mined.map PooledTx.tx, ∀ o ∈ coins, o.hash ≠ tx.hash)
    (there : ∀ t ∈ mined, ∀ o ∈ t.tx.prevouts, o ∈ coins) :
    ∃ after, coins.connectAll [] (coinbase :: mined.map PooledTx.tx) = .ok after := by
  have hnone : coinbase.spentPoints = [] := by
    simp [Transaction.spentPoints, Transaction.spending, first]
  have hspent : ∀ t ∈ mined, t.tx.spentPoints = t.tx.prevouts := fun t ht =>
    Transaction.spentPoints_of_spends (hs.spends _ t (pooled t ht)).1
  refine Coins.connectAll_of_disjoint distinct (fun tx htx => ⟨List.not_mem_nil, new tx htx⟩) ?_ ?_
  · rw [List.forall_mem_cons, List.forall_mem_map, hnone]
    refine ⟨by simp, fun t ht => ?_⟩
    obtain ⟨spends, limits⟩ := hs.spends _ t (pooled t ht)
    rw [hspent t ht]
    exact ⟨Transaction.prevouts_nodup limits spends, there t ht⟩
  · rw [List.pairwise_cons, List.pairwise_map, hnone]
    refine ⟨by simp, ?_⟩
    rw [List.map_cons, List.nodup_cons, List.map_map, List.Nodup, List.pairwise_map] at distinct
    refine distinct.2.imp_of_mem fun {a b} ha hb hne o hoa hob => hne ?_
    rw [hspent a ha] at hoa
    rw [hspent b hb] at hob
    have hname := hs.name_eq (pooled a ha) (pooled b hb) hoa hob
    rw [Function.comp_apply, Function.comp_apply, (hs.named _ a (pooled a ha)).2,
      (hs.named _ b (pooled b hb)).2, hname]

end Connect

namespace LoadedTx

/-- A pooled transaction as it is loaded with its block: the fee and the scripts are those that the
pool has judged. -/
structure Admitted (verify : ScriptVerifier) (header : ChainedHeader) (t : PooledTx)
    (l : LoadedTx) : Prop where
  fee : l.fee = .ok t.fee
  nonneg : 0 ≤ t.fee.toInt
  items : ∃ part, l.scriptItems header = .ok part ∧ ∀ item ∈ part, item.failure? verify = none

lemma Resolves.admitted {verify : ScriptVerifier} (plain : verify.Plain)
    {header tip : ChainedHeader}
    {t : PooledTx} {l : LoadedTx} {outputs : List TxOutput} (h : l.Resolves outputs)
    (tx : l.tx = t.tx) (spends : l.isCoinbase = false)
    (fee : Pool.feeOver t.tx outputs = .ok t.fee)
    (scripts : Pool.askScripts verify tip t.tx t.hash 0 outputs = .ok ()) :
    Admitted verify header t l := by
  rw [← tx] at fee scripts
  obtain ⟨hfee, hnonneg⟩ := h.fee_of_feeOver spends fee
  exact ⟨hfee, hnonneg, _, h.scriptItems spends header, plain.accepts scripts⟩

variable {verify : ScriptVerifier} {header : ChainedHeader} {mined : List PooledTx}
  {loaded : List LoadedTx} {first : LoadedTx}

/-- The script items of a block of admitted transactions, none of which fails. -/
lemma exists_parts (hfirst : first.isCoinbase = true)
    (h : List.Forall₂ (Admitted verify header) mined loaded) :
    ∃ parts, List.Forall₂ (fun l part => l.scriptItems header = .ok part) (first :: loaded) parts ∧
      ∀ item ∈ parts.flatten, item.failure? verify = none := by
  have hrest : ∃ parts, List.Forall₂ (fun l part => l.scriptItems header = .ok part) loaded parts ∧
      ∀ item ∈ parts.flatten, item.failure? verify = none := by
    induction h with
    | nil => exact ⟨[], .nil, by simp⟩
    | cons hadmitted _ ih =>
      obtain ⟨parts, hparts, haccepted⟩ := ih
      obtain ⟨part, hpart, hall⟩ := hadmitted.items
      refine ⟨part :: parts, .cons hpart hparts, fun item hitem => ?_⟩
      rw [List.flatten_cons, List.mem_append] at hitem
      exact hitem.elim (hall item) (haccepted item)
  obtain ⟨parts, hparts, haccepted⟩ := hrest
  have hnone : first.scriptItems header = .ok [] := by rw [scriptItems, hfirst, if_pos rfl]
  exact ⟨[] :: parts, .cons hnone hparts, by simpa using haccepted⟩

/-- A block of admitted transactions breaks no rule, if its coinbase pays no more than the subsidy
and the pooled fees. -/
lemma blockFault_of_admitted {block : Block} {coinbase : Transaction}
    (h : List.Forall₂ (Admitted verify header) mined loaded)
    (txs : block.txs = coinbase :: mined.map PooledTx.tx) (only : coinbase.isCoinbase = true)
    (limits : coinbase.fault? = none)
    (pooled : ∀ t ∈ mined, t.tx.isCoinbase = false ∧ t.tx.fault? = none)
    (root : merkleRoot block.txs = block.header.merkleRoot)
    (pays : coinbase.worth ≤ (Amount.subsidy header.height).toInt +
      (mined.map fun t => t.fee.toInt).sum) :
    Rules.blockFault header block (first :: loaded) = .ok () := by
  have hfees : List.Forall₂ (fun l fee => l.fee = .ok fee) loaded (mined.map PooledTx.fee) := by
    rw [List.forall₂_map_right_iff]
    exact h.flip.imp fun _ _ hadmitted => hadmitted.fee
  have hnonneg : ∀ fee ∈ mined.map PooledTx.fee, 0 ≤ fee.toInt := by
    clear pays txs pooled hfees
    rw [List.forall_mem_map]
    induction h with
    | nil => simp
    | cons hadmitted _ ih => exact List.forall_mem_cons.2 ⟨hadmitted.nonneg, ih⟩
  have hzero : (0 : Amount).toInt = 0 := rfl
  obtain ⟨fees, htotal, hpos, hsum⟩ := Rules.exists_totalFees hfees hnonneg hzero.ge
  have hlength := h.length_eq
  obtain ⟨-, hworth⟩ := Transaction.sound_of_fault? limits
  have hsubsidy := Amount.toInt_subsidy_nonneg header.height
  have hallowed := Amount.toInt_saturatingAdd_eq hsubsidy hpos
  have hpaid := Int64.toInt_le (Rules.paid coinbase)
  rw [List.map_map, Function.comp_def] at hsum
  refine Rules.blockFault_eq_ok.2 ⟨coinbase, mined.map PooledTx.tx, fees, txs, only, ?_, ?_, root,
    ?_, htotal, by omega⟩
  · exact List.forall_mem_map.2 fun t ht => (pooled t ht).1
  · rw [txs, List.forall_mem_cons, List.forall_mem_map]
    exact ⟨limits, fun t ht => (pooled t ht).2⟩
  · simp [txs, hlength]

end LoadedTx

/-- How the transactions of a block above `below` are loaded: from the sources that the records of
the store led to before the block. -/
def Locator.LoadsFrom (loc : Locator) (below : Chain) (start : Table) (tx : Transaction)
    (l : LoadedTx) : Prop :=
  (l.tx = tx ∧ l.hash = tx.hash ∧ l.isCoinbase = tx.isCoinbase) ∧
    List.Forall₂ (fun input source => loc.Leads below start input.prevout source) tx.spending
      l.sources

section Mining

variable {archive : Archive} {below : Chain} {header : ChainedHeader} {block : Block}
  {db : Database} {rules : Rules} {mined : List PooledTx} {coinbase : Transaction}
  {loaded : List LoadedTx}

/-- A block of new names that obeys the plain rule connects above the tip of a chain, and can be
closed. -/
lemma Built.exists_connects {chain : Chain} {full : Prop} {live t : Tables} {after : Coins}
    (built : Built archive below t) (sound : archive.Sound) (agrees : Agrees full live t)
    (genuine : chain.Genuine) (grown : chain.headers = below.headers ++ [header])
    (found : archive.block? header.hash = some block)
    (absent : ∀ tx ∈ block.txs, live.unspent[tx.hash.bytes]? = none)
    (rule : live.unspent.coins.connectAll [] block.txs = .ok after) :
    ∃ c loaded c' U, (Connecting.start archive below header block).staged live = .ok (c, live) ∧
      Connecting.ConnectsAll c block.txs live.unspent loaded c' U ∧
      c'.close.staged { live with unspent := U } =
        .ok (c'.counters, c'.closed { live with unspent := U }) ∧
      List.Forall₂ ((⟨archive, header, block⟩ : Locator).LoadsFrom below live.unspent) block.txs
        loaded := by
  have hx := Chain.extends_of_grown grown
  obtain ⟨hbelow, -, hnew⟩ := genuine.of_grown grown
  have bounds := (sound _ _ found).2
  have hshort : ∀ tx ∈ block.txs, tx.outputs.length < 2 ^ 32 := fun tx htx =>
    (bounds.of_mem htx).2.trans (by decide)
  obtain ⟨cs, -, start, standing, room⟩ := built.start sound agrees genuine grown found
  obtain ⟨loaded, c, U, connects⟩ := standing.exists_connectsAll (by simp [Connecting.taken]) rfl
    bounds.txs.le room hshort rule
  have hlocator : c.locator = ⟨archive, header, block⟩ := connects.same.1
  have hfree := (built.solid sound hbelow).free_above hx hnew
  rw [← agrees.headers] at hfree
  obtain ⟨hheaders, hspent, hunminted⟩ := hfree
  refine ⟨_, loaded, c, U, start, connects, ?_,
    connects.leads (.refl _) standing.grounded absent rfl bounds.txs.le hshort⟩
  refine (Connecting.staged_close_eq_ok ?_ ?_).2 ⟨?_, rfl, rfl⟩
  · rw [hlocator]
    exact agrees.spent.eq_none hspent
  · rw [hlocator]
    exact agrees.unminted.eq_none hunminted
  · rw [hlocator]
    exact hheaders

/-- A pooled transaction is loaded with its block as the pool has judged it: what its inputs spend
is what the pool saw. -/
lemma PooledTx.EnteredOn.admitted {t : PooledTx} {l : LoadedTx}
    (entered : t.EnteredOn archive rules db) (plain : rules.verify.Plain)
    (stored : db.committed.tables.chainHeaders = .ok below.headers)
    (hx : header.Extends below.tip) (hnew : ∀ h ∈ below.headers, h.hash ≠ header.hash)
    (named : t.tx.hash = t.hash) (spends : t.tx.isCoinbase = false)
    (loads : (⟨archive, header, block⟩ : Locator).LoadsFrom below db.committed.tables.unspent
      t.tx l) : LoadedTx.Admitted rules.verify header t l := by
  obtain ⟨⟨tx, -, coinbase⟩, leads⟩ := loads
  obtain ⟨earlier, s, spent, hwithin, htake, hlends, hfee, hscripts⟩ := entered.judged named
  have htaken : Snapshot.take db = .ok ⟨below, db.committed.tables⟩ :=
    Snapshot.ofTables_eq_ok.2 ⟨stored, rfl⟩
  cases htaken.symm.trans htake
  rw [Transaction.spending, spends, if_neg (by simp), ← tx] at leads
  rw [← tx] at hlends
  have resolves : l.Resolves spent := .of_forall₂ leads hlends fun input source output hl hs =>
    hs.output_eq hwithin hx hnew hl
  exact resolves.admitted plain tx (coinbase.trans spends) hfee hscripts

end Mining

/-- What the pool admits can be mined. On any committed state that ledgers bring about, with a
ledger under the consensus rules and a plain verifier: take pooled transactions, each of which was
accepted against that state and under these rules, in any order, and put a coinbase within its
limits in front. If the block is stored under a header that extends the tip, has the right Merkle
root, has names that differ from each other and from those of the unspent set, and pays its coinbase
no more than the subsidy and the pooled fees, it is added. -/
theorem pooled_txs_mineable {genesis : ChainedHeader} {H : ChainedHeader → Prop}
    {P : Rules → Settings → Prop} (gen : GenuineHeaders genesis H) {db : Database}
    {archive : Archive} {l : Ledger} (run : Reachable genesis H P ⟨db, archive, some l⟩)
    {verify : ScriptVerifier} (consensus : l.rules = .consensus verify) (plain : verify.Plain)
    {pool : Pool} (kept : pool.Run) {mined : List PooledTx}
    (pooled : ∀ t ∈ mined, pool.get? t.hash = some t ∧ t.EnteredOn archive l.rules db)
    {header : ChainedHeader} (known : H header) (above : header.Extends l.chain.tip)
    {block : Block} (found : archive.block? header.hash = some block) {coinbase : Transaction}
    (txs : block.txs = coinbase :: mined.map PooledTx.tx) (first : coinbase.isCoinbase = true)
    (limits : coinbase.fault? = none) (root : merkleRoot block.txs = block.header.merkleRoot)
    (distinct : (block.txs.map Transaction.hash).Nodup)
    (absent : ∀ tx ∈ block.txs, db.committed.tables.unspent? tx.hash = .ok none)
    (pays : coinbase.worth ≤ (Amount.subsidy header.height).toInt +
      (mined.map fun t => t.fee.toInt).sum) :
    ∃ s', (Ledger.add archive header).on ⟨l, db⟩ = (.ok (), s') := by
  have sound := run.sound gen
  have follows := sound.follows l rfl
  have stored := run.chainHeaders gen
  obtain ⟨t, built, agrees⟩ : ∃ t, Built archive l.chain t ∧
    Agrees (Unpruned P) db.committed.tables t := follows.built
  obtain ⟨chain, hadd⟩ : ∃ chain, l.chain.add header = .ok chain := by simp [Chain.add, above]
  have grown := (Chain.add_eq_ok.1 hadd).2
  have genuine := gen.chain ((Chain.forall_mem_iff_of_grown grown).2 ⟨follows.known, known⟩)
  obtain ⟨-, -, hnew⟩ := genuine.of_grown grown
  obtain ⟨_, -, -, standing, -⟩ := built.start sound.archive agrees genuine grown found
  have hpool := kept.sound
  have hin : ∀ t ∈ mined, pool.txs[t.hash]? = some t := fun t ht => (pooled t ht).1
  have hnamed : ∀ t ∈ mined, t.tx.hash = t.hash := fun t ht => (hpool.named _ t (hin t ht)).2
  have hspends := fun t ht => hpool.spends _ t (hin t ht)
  -- The block obeys the plain rule, so it connects.
  have hfree : ∀ tx ∈ block.txs, db.committed.tables.unspent[tx.hash.bytes]? = none :=
    fun tx htx => Tables.unspent?_eq_none.1 (absent tx htx)
  have hnames : ∀ tx ∈ block.txs, ∀ o ∈ db.committed.tables.unspent.coins, o.hash ≠ tx.hash :=
    fun tx htx o ho hname => (Table.exists_mem_coins_iff standing.keyed standing.left tx.hash).1
      ⟨o, ho, hname⟩ (hfree tx htx)
  obtain ⟨after, hrule⟩ : ∃ after,
      db.committed.tables.unspent.coins.connectAll [] block.txs = .ok after := by
    rw [txs] at distinct hnames ⊢
    exact hpool.connectAll hin first distinct hnames fun t ht =>
      (pooled t ht).2.mem_coins (hnamed t ht) standing.keyed
  obtain ⟨c, loaded, c', U, start, connects, close, loads⟩ :=
    built.exists_connects sound.archive agrees genuine grown found hfree hrule
  -- Every pooled transaction is loaded as the pool has judged it.
  rw [txs] at loads
  obtain ⟨l₀, rest, ⟨⟨-, -, hl₀⟩, -⟩, hrest, rfl⟩ := List.forall₂_cons_left_iff.1 loads
  rw [List.forall₂_map_left_iff] at hrest
  have hverify : l.rules.verify.Plain := by
    rw [consensus]
    exact plain
  have hadmitted : List.Forall₂ (LoadedTx.Admitted l.rules.verify header) mined rest := by
    refine ((List.forall₂_and_left _ _).2 ⟨fun t ht => ht, hrest⟩).imp fun t l' h => ?_
    exact (pooled t h.1).2.admitted hverify stored above hnew (hnamed t h.1) (hspends t h.1).1 h.2
  obtain ⟨parts, hparts, hscripts⟩ := LoadedTx.exists_parts (hl₀.trans first) hadmitted
  have hrules : l.rules.checkBlock header block (l₀ :: rest) = .ok () := by
    rw [consensus]
    exact mapError_eq_ok.2
      (LoadedTx.blockFault_of_admitted hadmitted txs first limits hspends root pays)
  exact Ledger.on_add_of_staged follows.idle follows.free found
    (Ledger.staged_connectBlock start connects hparts close hscripts hrules)

/-- Two coins. -/
def feeCoins : Transaction :=
  ⟨1, [⟨.null, [1], 0xffffffff⟩], [⟨2500000000, [0x51]⟩, ⟨2500000000, [0x51]⟩], 0⟩

/-- Passes one of the coins on and leaves a fee. -/
def feePaying (coin : UInt32) : Transaction :=
  ⟨1, [⟨⟨feeCoins.hash, coin⟩, [], 0xffffffff⟩], [⟨2499999000, [0x51]⟩], 0⟩

/-- Takes the subsidy and both fees. -/
def feeCoinbase : Transaction :=
  ⟨1, [⟨.null, [2], 0xffffffff⟩], [⟨5000002000, [0x51]⟩], 0⟩

def feeCoinBlock : Block := blockAbove soleGenesis [feeCoins]

def feeCoinHeader : ChainedHeader := soleGenesis.above feeCoinBlock.header

def feeBlock : Block := blockAbove feeCoinHeader [feeCoinbase, feePaying 1, feePaying 0]

def feeHeader : ChainedHeader := feeCoinHeader.above feeBlock.header

def feeHeaders : List ChainedHeader := [soleGenesis, feeCoinHeader, feeHeader]

def feeArchive : Archive := (Archive.empty.add feeCoinBlock).add feeBlock

/-- The coins are there, under the consensus rules. -/
def feeSession : LedgerSession := Ledger.Call.runAll feeArchive [.add feeCoinHeader] returningStart

def feePooled (coin : UInt32) : PooledTx := ⟨feePaying coin, (feePaying coin).hash, 1000, 1⟩

/-- The first coin is claimed. -/
def feePool : Pool := Pool.empty.insert (feePooled 0)

/-- Both coins are claimed. -/
def feePoolFull : Pool := feePool.insert (feePooled 1)

lemma fee_evaluated :
    feeHeader.Extends feeSession.ledger.chain.tip ∧
    (∀ a ∈ feeHeaders, ∀ b ∈ feeHeaders, a.hash = b.hash → a = b) ∧
    (Archive.empty.add feeCoinBlock).block? feeBlock.hash = none ∧
    Pool.empty.accept feeArchive (.consensus fun _ => .accepted) feeSession.db (feePaying 0) =
      (.ok (), feePool) ∧
    feePool.accept feeArchive (.consensus fun _ => .accepted) feeSession.db (feePaying 1) =
      (.ok (), feePoolFull) ∧
    (feeBlock.txs.map Transaction.hash).Nodup ∧
    (∀ tx ∈ feeBlock.txs, feeSession.db.committed.tables.unspent? tx.hash = .ok none) ∧
    feePool.get? (feePooled 0).hash = some (feePooled 0) ∧
    feePoolFull.get? (feePooled 0).hash = some (feePooled 0) ∧
    feePoolFull.get? (feePooled 1).hash = some (feePooled 1) := by
  decide +kernel

lemma feeHeaders_genuine : GenuineHeaders soleGenesis (· ∈ feeHeaders) := by
  refine .of_list List.mem_cons_self ?_ fee_evaluated.2.1
  simp only [feeHeaders, List.forall_mem_cons]
  exact ⟨rfl, ChainedHeader.hash_above _ _, ChainedHeader.hash_above _ _, by simp⟩

lemma feeSession_reachable : Reachable soleGenesis (· ∈ feeHeaders)
    (fun rules _ => rules = .consensus fun _ => .accepted)
    ⟨feeSession.db, feeArchive, some feeSession.ledger⟩ := by
  have stored : Reachable soleGenesis (· ∈ feeHeaders)
      (fun rules _ => rules = .consensus fun _ => .accepted) ⟨.fresh, feeArchive, none⟩ := by
    refine (Reachable.fresh.stored feeCoinBlock ?_ ?_).stored feeBlock ?_ ?_
    · exact ⟨by decide, by decide, by decide⟩
    · simp [Archive.block?, Archive.empty]
    · exact ⟨by decide, by decide, by decide⟩
    · simp [fee_evaluated.2.2.1]
  have start : Reachable soleGenesis (· ∈ feeHeaders)
      (fun rules _ => rules = .consensus fun _ => .accepted)
      ⟨returningStart.db, feeArchive, some returningStart.ledger⟩ := stored.start rfl rfl rfl
  exact start.calls [.add feeCoinHeader] (by simp [feeHeaders, Ledger.Call.headers])

lemma feePoolFull_run : feePoolFull.Run := by
  obtain ⟨-, -, -, hfirst, hsecond, -⟩ := fee_evaluated
  have first := Pool.Run.empty.offered feeArchive (.consensus fun _ => .accepted) feeSession.db
    (feePaying 0)
  rw [Pool.offer, hfirst] at first
  have second := first.offered feeArchive (.consensus fun _ => .accepted) feeSession.db
    (feePaying 1)
  rwa [Pool.offer, hsecond] at second

/-- The pool takes two transactions in, which spend two outputs of one record, and the block that
holds them in the other order is added. -/
theorem pooled_txs_mineable_fees : ∃ db l s',
    Reachable soleGenesis (· ∈ feeHeaders) (fun rules _ => rules = .consensus fun _ => .accepted)
      ⟨db, feeArchive, some l⟩ ∧
    (∀ t ∈ [feePooled 1, feePooled 0], feePoolFull.get? t.hash = some t ∧
      t.EnteredOn feeArchive l.rules db) ∧
    feeBlock.txs = [feeCoinbase, feePaying 1, feePaying 0] ∧
    (Ledger.add feeArchive feeHeader).on ⟨l, db⟩ = (.ok (), s') := by
  have run := feeSession_reachable
  obtain ⟨habove, -, -, hfirst, hsecond, hdistinct, habsent, hget, hget₀, hget₁⟩ := fee_evaluated
  have follows := (run.sound feeHeaders_genuine).follows feeSession.ledger rfl
  have hrules := follows.admitted
  dsimp only at hrules
  have pooled : ∀ t ∈ [feePooled 1, feePooled 0], feePoolFull.get? t.hash = some t ∧
      t.EnteredOn feeArchive feeSession.ledger.rules feeSession.db := by
    rw [hrules, List.forall_mem_cons, List.forall_mem_singleton]
    exact ⟨⟨hget₁, feeArchive, _, _, fun _ _ h => h, hsecond, hget₁⟩,
      ⟨hget₀, feeArchive, _, _, fun _ _ h => h, hfirst, hget⟩⟩
  have known : feeHeader ∈ feeHeaders := by simp [feeHeaders]
  have found : feeArchive.block? feeHeader.hash = some feeBlock := Archive.block?_add _ feeBlock
  have txs : feeBlock.txs = feeCoinbase :: [feePooled 1, feePooled 0].map PooledTx.tx := rfl
  have pays : feeCoinbase.worth ≤ (Amount.subsidy feeHeader.height).toInt +
      ([feePooled 1, feePooled 0].map fun t => t.fee.toInt).sum := by decide
  obtain ⟨s', hadd⟩ := pooled_txs_mineable feeHeaders_genuine run hrules
    (fun _ _ _ _ _ => rfl) feePoolFull_run pooled known habove found txs rfl (by decide) rfl
    hdistinct habsent pays
  exact ⟨_, _, s', run, pooled, rfl, hadd⟩

end UtxoLedger

import Mathlib.Algebra.GroupWithZero.Nat
import Mathlib.Data.List.Forall2
import Mathlib.Tactic.Common
import UtxoLedger.Proofs.RecordLists
import UtxoLedger.Proofs.SharedLedgers

/-!
# Counters are exact

Two counters say how many records there are and how many unspent outputs they hold; three say what
the blocks above genesis consist of. A spend takes one output off, and one record with the last; a
mint puts its record on; and each transaction counts itself. No step wraps around, since no chain
is long enough to fill a counter.
-/
namespace UtxoLedger

namespace Counter

/-- What a counter should say of the records and of the transactions that led to them. -/
def amount (us : List UnspentTx) (txs : List Transaction) : Counter → Nat
  | .unspentTxs => us.length
  | .unspentOutputs => (us.map fun u => u.states.unspentCount).sum
  | .txs => txs.length
  | .inputs => (txs.flatMap Transaction.inputs).length
  | .outputs => (txs.flatMap Transaction.outputs).length

variable {us us' : List UnspentTx} (txs : List Transaction) (k : Counter)

lemma amount_perm (h : us.Perm us') : k.amount us txs = k.amount us' txs := by
  cases k with
  | unspentTxs => exact h.length_eq
  | unspentOutputs => exact (h.map _).sum_nat
  | txs | inputs | outputs => rfl

lemma amount_cons (u : UnspentTx) (us : List UnspentTx) : k.amount (u :: us) txs =
    k.amount us txs + (if k = unspentTxs then 1 else 0) +
      if k = unspentOutputs then u.states.unspentCount else 0 := by
  cases k <;> simp [amount, Nat.add_comm]

lemma amount_append (us : List UnspentTx) (tx : Transaction) :
    k.amount us (txs ++ [tx]) = k.amount us txs + tx.totals k := by
  cases k <;> simp [amount, Transaction.totals]

end Counter

namespace Connecting

variable {c c' : Connecting} {U U' : Table} {o : OutPoint} {source tx : Transaction}
  {place : TxLocation} {inputs : List TxInput} {sources pending : List Transaction}
  {places : List TxLocation} {ld : LoadedTx} {loaded : List LoadedTx} {txs : List Transaction}

/-- The counters say of `U` what they should, after the transactions of a chain and of the block so
far. -/
structure Exact (c : Connecting) (U : Table) (txs : List Transaction) : Prop where
  keyed : U.Keyed
  counters : ∀ k, (c.counters.get k).toNat = k.amount U.records txs

lemma Exact.spend (he : Exact c U txs) (h : Spends c o U source place c' U') : Exact c' U' txs := by
  obtain ⟨hkeyed, u, states, rest, hx⟩ := h.exchanges he.keyed
  have hcount : u.states.unspentCount = states.unspentCount + 1 := by
    rw [← OutputStates.length_unspentIndices, ← OutputStates.length_unspentIndices,
      (OutputStates.unspentIndices_set? hx.get hx.set).length_eq, List.length_cons]
  refine ⟨hkeyed, fun k => ?_⟩
  have hk := hx.counters k
  rw [he.counters k, k.amount_perm txs hx.before, k.amount_cons, hcount] at hk
  rw [k.amount_perm txs hx.after]
  split
  next hall =>
    -- The record goes, and with it the one output that it still had.
    have hzero : states.unspentCount = 0 := by simpa [OutputStates.allSpent] using hall
    simp only [hall, and_true, hzero, Nat.zero_add] at hk
    omega
  next hall =>
    rw [k.amount_cons]
    simp only [hall, Bool.false_eq_true, and_false, if_false] at hk
    by_cases houtputs : k = .unspentOutputs
    · simp only [houtputs, if_true] at hk ⊢
      omega
    · simp only [houtputs, if_false] at hk ⊢
      omega

lemma Exact.spendAll (he : Exact c U txs) (h : SpendsAll c inputs U sources places c' U') :
    Exact c' U' txs := by
  induction h with
  | nil => exact he
  | cons first _ ih => exact ih (he.spend first)

lemma Exact.mint (he : Exact c U txs) (h : Mints c tx tx.hash U c' U')
    (hlength : tx.outputs.length < 2 ^ 32)
    (htxs : (c.counters.get .unspentTxs).toNat + 1 < 2 ^ 64)
    (houtputs : (c.counters.get .unspentOutputs).toNat + tx.outputs.length < 2 ^ 64) :
    Exact c' U' txs := by
  obtain ⟨hkeyed, hperm⟩ := h.records_perm he.keyed hlength
  refine ⟨hkeyed, fun k => ?_⟩
  rw [h.toNat_get htxs houtputs k, he.counters k, k.amount_perm txs hperm]
  by_cases hnone : tx.outputs = []
  · simp [hnone]
  · have hall : (c.record tx tx.hash).states.unspentCount = tx.outputs.length := by
      rw [← OutputStates.length_unspentIndices, record, OutputStates.unspentIndices_filled,
        List.length_range]
    simp [hnone, k.amount_cons, hall]

lemma Exact.connect (he : Exact c U txs) (h : Connects c tx U ld c' U')
    (room : Room (2 ^ 64) c (tx :: pending)) (hlength : tx.outputs.length < 2 ^ 32) :
    Exact c' U' (txs ++ [tx]) := by
  obtain ⟨-, -, spends, mints⟩ := h
  obtain ⟨htxs, houtputs, htotals⟩ := room.steps spends mints
  have hstart : Exact { c with minted := c.minted.insert tx.hash } U txs := ⟨he.keyed, he.counters⟩
  have hspent := hstart.spendAll spends
  have hminted := hspent.mint mints hlength htxs houtputs
  refine ⟨hminted.keyed, fun k => ?_⟩
  rw [Counters.toNat_get_totals htotals, hminted.counters k, k.amount_append]

lemma Exact.connectAll (he : Exact c U txs) (h : ConnectsAll c pending U loaded c' U')
    (room : Room (2 ^ 64) c pending) (hlength : ∀ tx ∈ pending, tx.outputs.length < 2 ^ 32) :
    Exact c' U' (txs ++ pending) := by
  induction h generalizing txs with
  | nil => simpa using he
  | @cons c c₁ c₂ tx rest U U₁ U₂ l loaded first more ih =>
    have hfirst := he.connect first room (hlength tx List.mem_cons_self)
    rw [List.append_cons]
    exact ih hfirst (first.room room le_rfl) fun t ht => hlength t (List.mem_cons_of_mem _ ht)

end Connecting

/-- The counters of a chain say what they should of its records and of its blocks above genesis. -/
theorem Built.exact {archive : Archive} {chain : Chain} {t : Tables} (h : Built archive chain t)
    (sound : archive.Sound) (genuine : chain.Genuine) :
    ∃ blocks cs, List.Forall₂ (fun h b => archive.block? h.hash = some b) chain.headers.tail blocks ∧
      t.readCounters = .ok cs ∧ t.unspent.Keyed ∧
      ∀ k, (cs.get k).toNat = k.amount t.unspent.records (blocks.flatMap Block.txs) := by
  induction h with
  | @genesis chain header sole =>
    have hunspent : (Ledger.seedTables header).unspent = ∅ := by
      simp [Ledger.seedTables, Tables.empty]
    refine ⟨[], .zero, by simp [sole], Tables.readCounters_withCounters _ _, ?_, fun k => ?_⟩
    · rw [hunspent]
      exact Table.keyed_empty
    · rw [hunspent]
      cases k <;> rfl
  | @above chain below header block t cs loaded c U built found counters connects grown ih =>
    obtain ⟨hbelow, -, -⟩ := genuine.of_grown grown
    obtain ⟨blocks, cs', hblocks, hcs, hkeyed, hexact⟩ := ih hbelow
    cases counters.symm.trans hcs
    have bounds := (sound _ _ found).2
    have hlength := below.length_le
    have room := ((built.solid sound hbelow).room header counters bounds).mono
      (by omega : below.headers.length * 2 ^ 31 ≤ 2 ^ 64)
    have hstart : Connecting.Exact (.taken archive below header block cs) t.unspent
        (blocks.flatMap Block.txs) := ⟨hkeyed, hexact⟩
    have hend := hstart.connectAll connects room fun tx htx =>
      (bounds.of_mem htx).2.trans (by decide)
    refine ⟨blocks ++ [block], c.counters, ?_, Tables.readCounters_withCounters _ _, ?_,
      fun k => ?_⟩
    · rw [grown, List.tail_append_of_ne_nil below.nonempty]
      exact List.rel_append hblocks (.cons found .nil)
    · simpa [Connecting.closed] using hend.keyed
    · simpa [Connecting.closed] using hend.counters k

/-- Whatever a number of ledgers did to a store, and whatever failed: of what is committed, the
counters say exactly how many records there are, how many unspent outputs they hold, and how many
transactions, inputs and outputs there are in the blocks of the chain above genesis. -/
theorem counters_exact {H : ChainedHeader → Prop} {P : Rules → Settings → Prop}
    (named : NamedApart H) {db : Database} {archive : Archive} {ledgers : List Ledger}
    (run : Hub.Reached H P ⟨db, archive, ledgers⟩) :
    ∃ headers us blocks cs, db.committed.tables.chainHeaders = .ok headers ∧
      db.committed.tables.allUnspent = .ok us ∧ db.committed.tables.readCounters = .ok cs ∧
      List.Forall₂ (fun h b => archive.block? h.hash = some b) headers.tail blocks ∧
      cs.unspentTxs.toNat = us.length ∧
      cs.unspentOutputs.toNat = (us.map fun u => u.states.unspentCount).sum ∧
      cs.txs.toNat = (blocks.flatMap Block.txs).length ∧
      cs.inputs.toNat = ((blocks.flatMap Block.txs).flatMap Transaction.inputs).length ∧
      cs.outputs.toNat = ((blocks.flatMap Block.txs).flatMap Transaction.outputs).length := by
  have sound := run.sound named
  rcases sound.stored.filled with hempty | ⟨chain, t, known, vetted, agrees⟩
  · exact ⟨[], [], [], .zero, by rw [hempty]; rfl, by rw [hempty]; rfl, by rw [hempty]; rfl,
      .nil, rfl, rfl, rfl, rfl, rfl⟩
  · obtain ⟨hheaders, -⟩ := Stored.chainHeaders_tip? named sound.archive known vetted agrees
    obtain ⟨blocks, cs, hblocks, hcs, hkeyed, hexact⟩ :=
      vetted.built.exact sound.archive (named.genuine known)
    rw [← Tables.readCounters_congr agrees.counters] at hcs
    rw [← agrees.unspent] at hkeyed hexact
    exact ⟨_, _, blocks, cs, hheaders, Tables.allUnspent_eq hkeyed, hcs, hblocks,
      hexact .unspentTxs, hexact .unspentOutputs, hexact .txs, hexact .inputs, hexact .outputs⟩

theorem counters_exact_coins : ∃ db ledgers headers us blocks cs,
    Hub.Reached (· ∈ coinHeaders) (fun _ settings => settings.maxRollbackDepth = 0)
      ⟨db, coinArchive, ledgers⟩ ∧
    ledgers.map (fun l => l.chain.headers) = [[soleGenesis, coinHeader]] ∧
    db.committed.tables.chainHeaders = .ok headers ∧
    db.committed.tables.allUnspent = .ok us ∧ db.committed.tables.readCounters = .ok cs ∧
    List.Forall₂ (fun h b => coinArchive.block? h.hash = some b) headers.tail blocks ∧
    cs.unspentTxs.toNat = us.length ∧ cs.txs.toNat = (blocks.flatMap Block.txs).length := by
  have run := coinRun_reachable.hub_singleton List.mem_cons_self
  obtain ⟨headers, us, blocks, cs, hheaders, hus, hcs, hblocks, hrecords, -, htxs, -⟩ :=
    counters_exact coinHeaders_apart run
  refine ⟨_, _, headers, us, blocks, cs, run, ?_, hheaders, hus, hcs, hblocks, hrecords, htxs⟩
  simp [coinRun_evaluated.1]

end UtxoLedger

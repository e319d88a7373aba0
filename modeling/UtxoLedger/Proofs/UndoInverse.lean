import Mathlib.Tactic.Common
import UtxoLedger.Merkle
import UtxoLedger.Proofs.UndoneBlock

/-!
# Disconnecting inverts connecting

A block that was connected from start to close can be disconnected from start to close, and every
table is as it was before, unless a transaction of the block came back under a name that the block
had spent from before. In that case the undo stops at once: the journal lists the name as gone, but
it is there.
-/
namespace UtxoLedger

open StoreM

variable {archive : Archive} {chain : Chain} {header : ChainedHeader} {block : Block}
  {t t' v : Tables} {counters : Counters}

/-- The transactions of the block come back under no name that the block has spent from. -/
def Block.NoneReturns (b : Block) : Prop :=
  b.txs.Pairwise fun earlier later => later.outputs ≠ [] → later.hash ∉ earlier.sourceNames

lemma Block.noneReturns_iff : block.NoneReturns ↔ Transaction.NoneReturns [] block.txs := by
  simp [Transaction.noneReturns_iff, Block.NoneReturns]

namespace Connecting

variable {c c' : Connecting} {U U' : Table}

/-- No record is fully spent. -/
def Left (U : Table) : Prop :=
  ∀ (k : Bytes) (u : UnspentTx), U[k]? = some u.encode → u.states.size < 2 ^ 32 →
    u.states.allSpent = false

/-- A block from start to close. -/
def whole (archive : Archive) (chain : Chain) (header : ChainedHeader) (block : Block) :
    StoreM Counters := do
  let c ← start archive chain header block
  finish c.progress

instance : Staging (whole archive chain header block) := by
  unfold whole
  infer_instance

/-- A block that has been taken up and not worked on yet. -/
def taken (archive : Archive) (chain : Chain) (header : ChainedHeader) (block : Block)
    (counters : Counters) : Connecting :=
  ⟨chain, ⟨archive, header, block⟩, .empty, counters, ∅, 0⟩

lemma ConnectsAll.same {txs : List Transaction} {loaded : List LoadedTx}
    (h : ConnectsAll c txs U loaded c' U') : c'.locator = c.locator ∧ c'.chain = c.chain := by
  induction h with
  | nil => exact ⟨rfl, rfl⟩
  | cons first _ ih =>
    obtain ⟨places, hafter⟩ := first.after
    exact ⟨ih.1.trans hafter.locator, ih.2.trans hafter.chain⟩

/-- Where the block has no journal yet, connecting it is connecting its transactions and closing. -/
lemma staged_whole_eq_ok (hspent : t.spent[Height.key header.height]? = none)
    (hunminted : t.unminted[header.hash.bytes]? = none) :
    (whole archive chain header block).staged t = .ok (counters, t') ↔
      ∃ cs loaded c U, (start archive chain header block).staged t =
          .ok (taken archive chain header block cs, t) ∧
        ConnectsAll (taken archive chain header block cs) block.txs t.unspent loaded c U ∧
        t.headers[Height.key header.height]? = none ∧ counters = c.counters ∧
        t' = c.closed { t with unspent := U } := by
  have hclose {c : Connecting} {cs : Counters} {loaded : List LoadedTx} {U : Table}
      (connects : ConnectsAll (taken archive chain header block cs) block.txs t.unspent loaded
        c U) :
      c.close.staged { t with unspent := U } = .ok (counters, t') ↔
        t.headers[Height.key header.height]? = none ∧ counters = c.counters ∧
          t' = c.closed { t with unspent := U } := by
    have hlocator : c.locator.header = header := by rw [connects.same.1]; rfl
    have hc : c.close.staged { t with unspent := U } = .ok (counters, t') ↔
        t.headers[Height.key c.locator.header.height]? = none ∧ counters = c.counters ∧
          t' = c.closed { t with unspent := U } :=
      staged_close_eq_ok (by rw [hlocator]; exact hspent) (by rw [hlocator]; exact hunminted)
    rwa [hlocator] at hc
  unfold whole
  constructor
  · intro h
    obtain ⟨c₀, t₀, hstart, h⟩ := staged_bind_eq_ok.1 h
    obtain ⟨c, t₁, hwork, h⟩ := staged_bind_eq_ok.1 h
    obtain ⟨-, -, -, cs, -, hc₀, ht₀⟩ := staged_start_eq_ok.1 hstart
    subst hc₀ ht₀
    obtain ⟨loaded, U, connects, rfl⟩ := staged_workOff_eq_ok.1 hwork
    exact ⟨cs, loaded, c, U, hstart, connects, (hclose connects).1 h⟩
  · rintro ⟨cs, loaded, c, U, hstart, connects, hclosed⟩
    refine staged_bind_eq_ok.2 ⟨_, _, hstart, ?_⟩
    refine staged_bind_eq_ok.2 ⟨c, _, staged_workOff_eq_ok.2 ⟨loaded, U, connects, rfl⟩, ?_⟩
    exact (hclose connects).2 hclosed

lemma settled_taken (hg : Grounded ⟨archive, header, block⟩ chain U) (cs : Counters) :
    Settled U [] (taken archive chain header block cs) U where
  grounded := hg
  gone := by simp [taken, Journal.empty]
  nodup := List.nodup_nil
  mentioned := by simp
  agree := by simp
  resolved := by simp
  listed := by simp [taken, Journal.empty]
  since _ h := h
  readable := by simp [taken, Journal.empty]

/-- What a whole block leaves: nothing comes back and the journal describes the block, or some name
is doubled. -/
lemma ConnectsAll.outcome {cs : Counters} {loaded : List LoadedTx}
    (h : ConnectsAll (taken archive chain header block cs) block.txs U loaded c U')
    (hg : Grounded ⟨archive, header, block⟩ chain U) (bounds : block.InBounds) :
    (block.NoneReturns ∧ Journal.Describes c.journal.unminted block.txs ∧
      Settled U (Journal.mentions block.txs c.journal.unminted) c U') ∨
    (¬ block.NoneReturns ∧ ∃ name, Doubled name c U') := by
  have hlength : ∀ tx ∈ block.txs, tx.outputs.length < 2 ^ 32 :=
    fun tx htx => (bounds.of_mem htx).2.trans (by decide)
  have hcount : block.txs.length ≤ 2 ^ 31 := bounds.txs.le
  rw [Block.noneReturns_iff]
  rcases h.settled_or_doubled (settled_taken hg cs) rfl hcount hlength with
    ⟨hnone, entries, hunminted, hdescribes, -, -, hsettled⟩ | h
  · have hentries : c.journal.unminted = entries := hunminted
    rw [hentries]
    exact .inl ⟨hnone, hdescribes, hsettled⟩
  · exact .inr h

end Connecting

namespace Disconnecting

open Connecting

variable {c : Connecting} {cs : Counters} {U U' : Table} {loaded : List LoadedTx}

/-- The undo of a block from start to close. -/
def whole (archive : Archive) (header : ChainedHeader) (block : Block) : StoreM Counters := do
  let d ← start archive header block
  finish d.progress

instance : Staging (whole archive header block) := by
  unfold whole
  infer_instance

/-- The tables hold a connected block at their top. -/
structure Holds (v : Tables) (c : Connecting) (U : Table) : Prop where
  unspent : v.unspent = U
  counters : v.readCounters = .ok c.counters
  tip : ∃ tip, v.tip? = .ok (some tip) ∧ tip.hash = c.locator.header.hash ∧
    tip.height = c.locator.header.height
  stored : ∃ stored, v.headerAt? c.locator.header.height = .ok (some stored) ∧
    stored.hash = c.locator.header.hash
  spent : v.spent[Height.key c.locator.header.height]? = some c.journal.spent.encode
  unminted : v.unminted[c.locator.header.hash.bytes]? = some c.journal.unminted.encode

/-- The tables without a block that is undone, over the unspent set and the counters from before. -/
def reopened (header : ChainedHeader) (U : Table) (cs : Counters) (v : Tables) : Tables :=
  { v.withoutJournal header with
    unspent := U
    headers := v.headers.erase (Height.key header.height) }.withCounters cs

lemma spent?_of_entry
    (h : ConnectsAll (taken archive chain header block cs) block.txs U loaded c U')
    (bounds : block.InBounds)
    (entry : v.spent[Height.key header.height]? = some c.journal.spent.encode) :
    v.spent? header.height = .ok (some c.journal.spent) := by
  have hlength : c.journal.spent.length ≤ 0 + _ := h.spent_length
  have hinputs := bounds.inputs
  exact Tables.record?_eq_some.2 ⟨_, entry, SpentList.decode_encode (by omega)⟩

lemma unminted?_of_entry (hd : Journal.Describes c.journal.unminted block.txs)
    (bounds : block.InBounds)
    (entry : v.unminted[header.hash.bytes]? = some c.journal.unminted.encode) :
    v.unminted? header.hash = .ok (some c.journal.unminted) := by
  have hlength : c.journal.unminted.length = block.txs.length := List.Forall₂.length_eq hd
  have htxs := bounds.txs
  refine Tables.record?_eq_some.2 ⟨_, entry, UnmintedList.decode_encode (by omega) ?_⟩
  intro u hu
  obtain ⟨tx, htx, -, hsources⟩ := hd.exists_of_mem hu
  have hinputs := (bounds.of_mem htx).1
  have hspending := tx.length_spending_le
  omega

lemma spent?_of_holds
    (h : ConnectsAll (taken archive chain header block cs) block.txs U loaded c U')
    (bounds : block.InBounds) (holds : Holds v c U') :
    v.spent? header.height = .ok (some c.journal.spent) := by
  have entry := holds.spent
  rw [h.same.1] at entry
  exact spent?_of_entry h bounds entry

lemma unminted?_of_holds
    (h : ConnectsAll (taken archive chain header block cs) block.txs U loaded c U')
    (hd : Journal.Describes c.journal.unminted block.txs) (bounds : block.InBounds)
    (holds : Holds v c U') : v.unminted? header.hash = .ok (some c.journal.unminted) := by
  have entry := holds.unminted
  rw [h.same.1] at entry
  exact unminted?_of_entry hd bounds entry

/-- The undo takes up a connected block with everything that it needs: every source that went is
located where it was found. -/
lemma exists_start_of_holds
    (h : ConnectsAll (taken archive chain header block cs) block.txs U loaded c U')
    (hd : Journal.Describes c.journal.unminted block.txs)
    (hs : Settled U (Journal.mentions block.txs c.journal.unminted) c U')
    (hhash : block.hash = header.hash) (bounds : block.InBounds)
    (room : Room (2 ^ 64) (taken archive chain header block cs) block.txs) (holds : Holds v c U') :
    (∀ e ∈ Journal.mentions block.txs c.journal.unminted,
      (c.journal.locations block)[e.1]? = some e.2) ∧
    ∃ d V, (start archive header block).staged v = .ok (d, { v with unspent := V }) ∧
      Undoing c.journal (c.journal.locations block) (fun _ => 0) c U' d V := by
  have hlocator : c.locator = ⟨archive, header, block⟩ := h.same.1
  have hplaces : ∀ e ∈ Journal.mentions block.txs c.journal.unminted,
      (c.journal.locations block)[e.1]? = some e.2 := fun e he =>
    Journal.getElem?_locations hd he (hs.agree e.1)
  have hsources : ∀ name ∈ c.journal.spent, ∃ place source,
      (c.journal.locations block)[name]? = some place ∧
        (Locator.mk archive header block).resolve place name = .ok source := by
    intro name hname
    obtain ⟨place, hplace⟩ := hs.listed name hname
    obtain ⟨source, hsource⟩ := hs.resolved name place hplace
    rw [hlocator] at hsource
    exact ⟨place, source, hplaces _ hplace, hsource⟩
  obtain ⟨V, hrestores, hframe, hback⟩ := exists_restores hs.nodup hs.gone hsources
  have hload : Journal.load v header = .ok c.journal :=
    Journal.load_eq_ok.2 ⟨spent?_of_holds h bounds holds, unminted?_of_holds h hd bounds holds⟩
  obtain ⟨tip, htip⟩ := holds.tip
  rw [hlocator] at htip
  have hstart := staged_start_eq_ok.2 ⟨⟨tip, htip⟩, hhash, c.journal, c.counters, V, hload,
    Journal.verify_of_describes hd, holds.counters, by rw [holds.unspent]; exact hrestores,
    rfl, rfl⟩
  have hroom := h.room room le_rfl .unspentTxs
  simp only [if_true, Transaction.raises, List.length_nil, Nat.add_zero] at hroom
  refine ⟨hplaces, _, V, hstart, hlocator.symm, rfl,
    fun k => Counters.toNat_get_raise hroom k, hframe, ?_⟩
  rw [hlocator]
  exact hback

/-- Back at the start of the block nothing is left fully spent, and the undo can be closed. -/
lemma staged_close_of_holds {d : Disconnecting} {mentions : List (Hash × TxLocation)}
    (hs : Settled U mentions c U') (hleft : Left U) (hlocator : d.locator = c.locator)
    (hjournal : d.journal = c.journal) (holds : Holds v c U') :
    d.close.staged { v with unspent := U } =
      .ok (d.counters, reopened c.locator.header U d.counters v) := by
  have hrestored : (checkRestored d.journal.spent).staged { v with unspent := U } =
      .ok ((), { v with unspent := U }) := by
    refine staged_checkRestored fun name hname => ?_
    rw [hjournal] at hname
    cases hfound : U[name.bytes]? with
    | none => exact .inl rfl
    | some bytes =>
      obtain ⟨u, rfl, hlt⟩ := hs.readable name hname bytes hfound
      exact .inr ⟨u, rfl, hlt, hleft _ u hfound hlt⟩
  obtain ⟨stored, hstored, hname⟩ := holds.stored
  have hspent := Table.contains_eq_true.2 ⟨_, holds.spent⟩
  have hunminted := Table.contains_eq_true.2 ⟨_, holds.unminted⟩
  rw [← hlocator] at hstored hname hspent hunminted
  rw [staged_close hrestored hspent hunminted hstored hname, ← hlocator]
  rfl

/-- A connected block in which no transaction comes back is undone to where it began. -/
theorem staged_whole_of_holds
    (h : ConnectsAll (taken archive chain header block cs) block.txs U loaded c U')
    (hg : Grounded ⟨archive, header, block⟩ chain U)
    (hleft : Left U) (hhash : block.hash = header.hash) (bounds : block.InBounds)
    (room : Room (2 ^ 64) (taken archive chain header block cs) block.txs)
    (hnone : block.NoneReturns) (holds : Holds v c U') :
    (whole archive header block).staged v = .ok (cs, reopened header U cs v) := by
  obtain ⟨-, hdescribes, hsettled⟩ | ⟨hnot, -⟩ := h.outcome hg bounds
  swap
  · exact absurd hnone hnot
  obtain ⟨hplaces, d', V', hstart, hend⟩ :=
    exists_start_of_holds h hdescribes hsettled hhash bounds room holds
  obtain ⟨d, V, hwork, hbegin⟩ := Undoing.disconnectAll (w := v) h
    (settled_taken hg cs) (Block.noneReturns_iff.1 hnone) rfl
    bounds.txs.le (fun tx htx => (bounds.of_mem htx).2.trans (by decide)) room rfl
    (List.prefix_refl _) hplaces hend
  obtain rfl : V = U :=
    Std.ExtTreeMap.ext_getElem? fun k => hbegin.frame k (by simp [taken, Journal.empty])
  have hcounters : d.counters = cs := Counters.ext_toNat fun k => by
    have hk := hbegin.counters k
    simpa [taken, Journal.empty] using hk
  have hlocator : c.locator = ⟨archive, header, block⟩ := h.same.1
  have hclose := staged_close_of_holds hsettled hleft
    (hbegin.locator.trans hlocator.symm) hbegin.journal holds
  rw [hcounters, hlocator] at hclose
  have hd' : d'.locator.block = block := by rw [hend.locator, hlocator]
  refine staged_bind_eq_ok.2 ⟨d', _, hstart, ?_⟩
  refine staged_bind_eq_ok.2 ⟨d, _, ?_, hclose⟩
  rw [progress, Progress.start, hd']
  exact hwork

/-- A connected block in which some transaction comes back is not undone, from whatever archive and
body: the journal lists a name that is there, or lists one twice. -/
theorem staged_whole_ne_of_returns {stock : Archive} {body : Block}
    (h : ConnectsAll (taken archive chain header block cs) block.txs U loaded c U')
    (hg : Grounded ⟨archive, header, block⟩ chain U) (bounds : block.InBounds)
    (hreturns : ¬ block.NoneReturns) (holds : Holds v c U') (r : Counters × Tables) :
    (whole stock header body).staged v ≠ .ok r := by
  intro hok
  obtain ⟨hnone, -⟩ | ⟨-, name, hdoubled⟩ := h.outcome hg bounds
  · exact hreturns hnone
  obtain ⟨d, t, hstart, -⟩ := staged_bind_eq_ok.1 hok
  obtain ⟨-, -, j, _, V, hload, -, -, hrestores, -⟩ := staged_start_eq_ok.1 hstart
  have hspent : j.spent = c.journal.spent := by
    have hentry := spent?_of_holds h bounds holds
    rw [(Journal.load_eq_ok.1 hload).1] at hentry
    simpa using hentry
  obtain ⟨hnodup, hfree⟩ := hrestores.nodup
  rw [hspent] at hnodup hfree
  rw [holds.unspent] at hfree
  have htwice := hdoubled.2 (hfree name hdoubled.1)
  have honce := List.nodup_iff_count_le_one.1 hnodup name
  omega

/-- An undo that succeeds, from whatever archive and body, has found a body with the transactions of
the connected block by name, none of which has come back. -/
lemma body_of_staged_whole {stock : Archive} {body : Block} {r : Counters × Tables}
    (h : ConnectsAll (taken archive chain header block cs) block.txs U loaded c U')
    (hg : Grounded ⟨archive, header, block⟩ chain U) (bounds : block.InBounds)
    (holds : Holds v c U') (staged : (whole stock header body).staged v = .ok r) :
    block.NoneReturns ∧ body.txs.map Transaction.hash = block.txs.map Transaction.hash := by
  obtain ⟨hnone, hdescribes, -⟩ | ⟨hreturns, -⟩ := h.outcome hg bounds
  · obtain ⟨d, t, hstart, -⟩ := staged_bind_eq_ok.1 staged
    obtain ⟨-, -, j, _, V, hload, hverify, -⟩ := staged_start_eq_ok.1 hstart
    have hunminted : j.unminted = c.journal.unminted := by
      have hentry := unminted?_of_holds h hdescribes bounds holds
      rw [(Journal.load_eq_ok.1 hload).2] at hentry
      simpa using hentry
    refine ⟨hnone, ?_⟩
    rw [← Journal.map_hash_of_verify hverify, hunminted, hdescribes.map_hash]
  · exact absurd staged (staged_whole_ne_of_returns h hg bounds hreturns holds r)

/-- A header above the tip comes behind all stored headers. -/
lemma toList_headers_closed
    (h : ConnectsAll (taken archive chain header block cs) block.txs U loaded c U')
    (hx : header.Extends chain.tip)
    (hlast : ∃ bytes, t.headers.toList.getLast? = some (Height.key chain.tip.height, bytes)) :
    (c.closed { t with unspent := U' }).headers =
        t.headers.insert (Height.key header.height) header.encode ∧
      (c.closed { t with unspent := U' }).headers.toList =
        t.headers.toList ++ [(Height.key header.height, header.encode)] := by
  obtain ⟨bytes, hlast⟩ := hlast
  have hheight : chain.tip.height.toInt = (chain.headers.length - 1 : Nat) := chain.toInt_height
  have hbehind : compare (Height.key chain.tip.height) (Height.key header.height) = .lt :=
    Height.compare_key_of_lt (by omega) (by rw [hx.1]; omega)
  have hheaders : (c.closed { t with unspent := U' }).headers =
      t.headers.insert (Height.key header.height) header.encode := by
    simp [closed, h.same.1, taken]
  refine ⟨hheaders, ?_⟩
  rw [hheaders, Table.toList_insert_last (Table.lt_of_getLast? hlast hbehind)]

/-- A header that bears the name of its fields is read back as the tip once its block is closed. -/
lemma holds_closed
    (h : ConnectsAll (taken archive chain header block cs) block.txs U loaded c U')
    (hx : header.Extends chain.tip) (real : header.hash = header.header.hash)
    (hlast : ∃ bytes, t.headers.toList.getLast? = some (Height.key chain.tip.height, bytes)) :
    Holds (c.closed { t with unspent := U' }) c U' := by
  have hlocator : c.locator = ⟨archive, header, block⟩ := h.same.1
  have hread : ChainedHeader.decode header.encode = .ok header := by
    rw [ChainedHeader.decode_encode, ← real]
  obtain ⟨hheaders, hlist⟩ := toList_headers_closed h hx hlast
  refine ⟨?_, Tables.readCounters_withCounters _ _, ⟨header, ?_, ?_, ?_⟩, ⟨header, ?_, ?_⟩, ?_, ?_⟩
  · simp [closed]
  · refine Tables.tip?_eq_some.2 ⟨Height.key header.height, header.encode, ?_, hread⟩
    rw [hlist]
    exact List.getLast?_concat
  · rw [hlocator]
  · rw [hlocator]
  · refine Tables.record?_eq_some.2 ⟨header.encode, ?_, hread⟩
    rw [hlocator]
    show (c.closed _).headers[_]? = _
    rw [hheaders, Table.getElem?_insert, if_pos rfl]
  · rw [hlocator]
  · rw [closed, Tables.spent_withCounters, Table.getElem?_insert, if_pos rfl]
  · rw [closed, Tables.unminted_withCounters, Table.getElem?_insert, if_pos rfl]

end Disconnecting

/-- The unspent records lead to their transactions, none of which is fully spent, and the header
behind all others is stored at the height of the tip. -/
structure Tables.Anchored (t : Tables) (archive : Archive) (chain : Chain) : Prop where
  records : ∀ (k bytes : Bytes) (u : UnspentTx), t.unspent[k]? = some bytes →
    UnspentTx.decode bytes = .ok u → u.states.allSpent = false ∧
      ∃ h tx, chain.get? u.height = some h ∧ 0 ≤ u.index.toInt ∧
        archive.tx? h.hash u.index.toInt.toNat = some tx ∧ tx.hash = u.hash ∧
        tx.outputs.length = u.states.size
  tip : ∃ bytes, t.headers.toList.getLast? = some (Height.key chain.tip.height, bytes)

/-- Every read of `t'` gives what it gives of `t`. -/
structure Tables.ReadsAs (t' t : Tables) : Prop where
  headers : t'.headers = t.headers
  unspent : t'.unspent = t.unspent
  spent : t'.spent = t.spent
  unminted : t'.unminted = t.unminted
  counters : ∀ c, t'.counter c = t.counter c

/-- The tables of a block that was closed and taken back, over the unspent set and the counters from
before, read as before: its header and its journal have come and gone. -/
lemma Disconnecting.reopened_readsAs {c : Connecting} {cs : Counters} {U : Table}
    (located : c.locator = ⟨archive, header, block⟩)
    (headers : t.headers[Height.key header.height]? = none)
    (spent : t.spent[Height.key header.height]? = none)
    (unminted : t.unminted[header.hash.bytes]? = none) (counters : t.readCounters = .ok cs) :
    (reopened header t.unspent cs (c.closed { t with unspent := U })).ReadsAs t where
  headers := by
    simp only [reopened, Connecting.closed, Tables.headers_withCounters, located]
    exact Table.erase_insert headers
  unspent := by simp only [reopened, Tables.unspent_withCounters]
  spent := by
    simp only [reopened, Tables.withoutJournal, Connecting.closed, Tables.spent_withCounters,
      located]
    exact Table.erase_insert spent
  unminted := by
    simp only [reopened, Tables.withoutJournal, Connecting.closed, Tables.unminted_withCounters,
      located]
    exact Table.erase_insert unminted
  counters k := by
    rw [reopened, Tables.counter_withCounters, Tables.readCounters_eq_ok.1 counters k]

namespace Tables.Anchored

variable {t : Tables}

lemma left (ha : t.Anchored archive chain) : Connecting.Left t.unspent :=
  fun k u found size_lt => (ha.records k _ u found (UnspentTx.decode_encode size_lt)).1

lemma grounded (ha : t.Anchored archive chain) (hx : header.Extends chain.tip)
    (hnew : ∀ h ∈ chain.headers, h.hash ≠ header.hash) (block : Block) :
    Connecting.Grounded ⟨archive, header, block⟩ chain t.unspent := by
  intro k u found size_lt
  obtain ⟨-, h, tx, hget, hindex, htx, hname, hlength⟩ :=
    ha.records k _ u found (UnspentTx.decode_encode size_lt)
  have hheight : chain.tip.height.toInt = (chain.headers.length - 1 : Nat) := chain.toInt_height
  have hpos := chain.length_pos
  have hat : 0 ≤ u.height.toInt ∧ chain.headers[u.height.toInt.toNat]? = some h := by
    unfold Chain.get? at hget
    split at hget
    next h0 => exact ⟨h0, hget⟩
    · exact nomatch hget
  have hlt := (List.getElem?_eq_some_iff.1 hat.2).1
  have hbelow : u.height ≠ header.height := by
    intro heq
    have hext := hx.1
    rw [← heq] at hext
    omega
  refine ⟨⟨h.hash, u.height, u.index⟩, tx, ?_, ?_, hlength⟩
  · rw [Locator.placeOf, if_neg hbelow, hget]
  · refine Locator.resolve_eq_ok.2 ⟨hindex, ?_, hname⟩
    rw [Locator.txAt?, if_neg (hnew h (List.mem_of_getElem? hat.2))]
    exact htx

end Tables.Anchored

/-- The counters of a store leave room for a block: none of them wraps while it is applied. -/
def Tables.LeavesRoom (t : Tables) (block : Block) : Prop :=
  ∀ c value, t.counter c = .ok value →
    value.toNat + Transaction.raises block.txs c < 2 ^ 64

/-- A block may come in above a chain: the store is anchored and has no journal of the block, its
hash is new, its lists are in bounds, and no transaction of it comes back under a name that the
block has spent from. -/
structure Tables.Awaits (t : Tables) (archive : Archive) (chain : Chain) (header : ChainedHeader)
    (block : Block) : Prop where
  anchored : t.Anchored archive chain
  spent : t.containsSpent header.height = false
  unminted : t.containsUnminted header.hash = false
  new : ∀ h ∈ chain.headers, h.hash ≠ header.hash
  bounds : block.InBounds
  none : block.NoneReturns

/-- Whatever the store holds: if a block that it awaits is connected from start to close, under a
header that bears the hash of its own fields and with counters that do not wrap, then disconnecting
it from start to close succeeds, and everything reads as before. -/
theorem disconnect_inverts_connect {t : Tables} (awaits : t.Awaits archive chain header block)
    (real : header.hash = header.header.hash) (room : t.LeavesRoom block)
    {db : Database} {touched : Bool} {s : Session}
    (applied : (Connecting.whole archive chain header block).on ⟨db, .writing t touched⟩ =
      (.ok counters, s)) :
    ∃ before t' touched', (Disconnecting.whole archive header block).on s =
        (.ok before, ⟨db, .writing t' touched'⟩) ∧
      t.readCounters = .ok before ∧ t'.ReadsAs t := by
  obtain ⟨anchored, spent, unminted, new, bounds, none⟩ := awaits
  have hspent := Table.contains_eq_false.1 spent
  have hunminted := Table.contains_eq_false.1 unminted
  obtain ⟨t₁, touched₁, hstaged, rfl⟩ := StoreM.staged_of_on applied
  obtain ⟨cs, loaded, c, U, hstart, connects, hfree, -, rfl⟩ :=
    (Connecting.staged_whole_eq_ok hspent hunminted).1 hstaged
  obtain ⟨hx, -, hname, cs', hcounters, heq, -⟩ := Connecting.staged_start_eq_ok.1 hstart
  cases heq
  have hroom : Connecting.Room (2 ^ 64) (Connecting.taken archive chain header block cs)
      block.txs := by
    intro k
    have hk := room k _ (Tables.readCounters_eq_ok.1 hcounters k)
    simpa [Connecting.taken, Journal.empty] using hk
  have hundo := Disconnecting.staged_whole_of_holds connects (anchored.grounded hx new block)
    anchored.left hname bounds hroom none
    (Disconnecting.holds_closed connects hx real anchored.tip)
  obtain ⟨touched', hon⟩ := StoreM.on_of_staged hundo db touched₁
  have hlocator : c.locator = ⟨archive, header, block⟩ := connects.same.1
  exact ⟨cs, _, touched', hon, hcounters,
    Disconnecting.reopened_readsAs hlocator hfree hspent hunminted hcounters⟩

/-- A coinbase that pays one output; coinbases differ in their tags. -/
def coinbase (tag : UInt8) : Transaction :=
  ⟨1, [⟨.null, [tag], 0xffffffff⟩], [⟨5000000000, [0x51]⟩], 0⟩

/-- Spends the only output of `source` and pays it on. -/
def passOn (source : Transaction) : Transaction :=
  ⟨1, [⟨⟨source.hash, 0⟩, [], 0xffffffff⟩], [⟨5000000000, [0x51]⟩], 0⟩

/-- A block above `parent`. -/
def blockAbove (parent : ChainedHeader) (txs : List Transaction) : Block :=
  ⟨⟨1, parent.hash, merkleRoot txs, 0, 0x207fffff, 0⟩, txs⟩

def soleGenesis : ChainedHeader := .genesis ⟨1, .zero, .zero, 0, 0x207fffff, 0⟩

def coinBlock : Block := blockAbove soleGenesis [coinbase 1]

def coinHeader : ChainedHeader := soleGenesis.above coinBlock.header

def coinChain : Chain where
  headers := [soleGenesis, coinHeader]
  nonempty := List.cons_ne_nil _ _
  heights := by decide +kernel
  linked i hi := by
    obtain rfl : i = 0 := Nat.lt_one_iff.1 (Nat.succ_lt_succ_iff.1 hi)
    rfl

/-- The coin is spent, and what came of it is passed on in the same block. -/
def spendingBlock : Block :=
  blockAbove coinHeader [coinbase 2, passOn (coinbase 1), passOn (passOn (coinbase 1))]

def spendingHeader : ChainedHeader := coinHeader.above spendingBlock.header

def coinArchive : Archive := (Archive.empty.add coinBlock).add spendingBlock

def coinRecord : UnspentTx := ⟨(coinbase 1).hash, 1, 0, .filled 1 .unspent⟩

/-- A store that holds the coin, with given counters. -/
def coinTablesCounting (counters : Counters) : Tables :=
  { Tables.empty with
    headers := (Tables.empty.headers.insert (Height.key 0) soleGenesis.encode).insert
      (Height.key 1) coinHeader.encode
    unspent := Tables.empty.unspent.insert (coinbase 1).hash.bytes coinRecord.encode
  }.withCounters counters

def coinTables : Tables := coinTablesCounting ⟨1, 1, 1, 1, 1⟩

/-- What the example takes from evaluation; the names of its blocks and transactions are worked out
once. -/
lemma spending_evaluated :
    ((Connecting.whole coinArchive coinChain spendingHeader spendingBlock).on
      ⟨.fresh, .writing coinTables false⟩).1 = .ok ⟨2, 2, 4, 4, 4⟩ ∧
    coinArchive.tx? coinHeader.hash 0 = some (coinbase 1) ∧
    (∀ h ∈ coinChain.headers, h.hash ≠ spendingHeader.hash) ∧
    spendingBlock.txs.Pairwise (fun earlier later =>
      later.outputs ≠ [] → later.hash ∉ earlier.sourceNames) := by decide +kernel

lemma coinTablesCounting_anchored (counters : Counters) :
    (coinTablesCounting counters).Anchored coinArchive coinChain where
  records k bytes u found hu := by
    have hread : UnspentTx.decode coinRecord.encode = .ok coinRecord :=
      UnspentTx.decode_encode (by decide)
    rw [coinTablesCounting, Tables.unspent_withCounters, Table.getElem?_insert] at found
    split at found
    · cases found
      cases hread.symm.trans hu
      exact ⟨by decide, coinHeader, coinbase 1, rfl, by decide, spending_evaluated.2.1, rfl, rfl⟩
    · simp [Tables.empty] at found
  tip := by
    have hfirst : (Tables.empty.headers.insert (Height.key 0) soleGenesis.encode).toList =
        [(Height.key 0, soleGenesis.encode)] := by
      rw [Table.toList_insert_last (by simp [Tables.empty])]
      simp [Tables.empty]
    refine ⟨coinHeader.encode, ?_⟩
    rw [coinTablesCounting, Tables.headers_withCounters, Table.toList_insert_last, hfirst]
    · rfl
    · simp only [hfirst, List.mem_singleton, forall_eq]
      decide

/-- The spending block may come in under any header with its hash, whatever the counters. -/
lemma coinTablesCounting_awaits (counters : Counters)
    (named : header.hash = spendingHeader.hash) :
    (coinTablesCounting counters).Awaits coinArchive coinChain header spendingBlock where
  anchored := coinTablesCounting_anchored counters
  spent := by
    simp [Tables.containsSpent, Tables.contains, Tables.get, coinTablesCounting, Tables.empty]
  unminted := by
    simp [Tables.containsUnminted, Tables.contains, Tables.get, coinTablesCounting, Tables.empty]
  new := by
    rw [named]
    exact spending_evaluated.2.2.1
  bounds := ⟨by decide, by decide, by decide⟩
  none := spending_evaluated.2.2.2

lemma coinTables_leavesRoom : coinTables.LeavesRoom spendingBlock := by
  intro c value hvalue
  have hone : coinTables.counter c = .ok (Counters.get ⟨1, 1, 1, 1, 1⟩ c) := by
    rw [coinTables, coinTablesCounting, Tables.counter_withCounters]
  cases hone.symm.trans hvalue
  cases c <;> decide

lemma ChainedHeader.hash_above (parent : ChainedHeader) (h : BlockHeader) :
    (parent.above h).hash = (parent.above h).header.hash := rfl

theorem disconnect_inverts_connect_spending :
    coinTables.Awaits coinArchive coinChain spendingHeader spendingBlock ∧
      spendingHeader.hash = spendingHeader.header.hash ∧ coinTables.LeavesRoom spendingBlock ∧
    ∃ counters before s t' touched',
      (Connecting.whole coinArchive coinChain spendingHeader spendingBlock).on
        ⟨.fresh, .writing coinTables false⟩ = (.ok counters, s) ∧
      (Disconnecting.whole coinArchive spendingHeader spendingBlock).on s =
        (.ok before, ⟨.fresh, .writing t' touched'⟩) ∧
      coinTables.readCounters = .ok before ∧ t'.ReadsAs coinTables := by
  have awaits : coinTables.Awaits coinArchive coinChain spendingHeader spendingBlock :=
    coinTablesCounting_awaits _ rfl
  have real := ChainedHeader.hash_above coinHeader spendingBlock.header
  have applied := StoreM.on_eq_of_fst spending_evaluated.1
  obtain ⟨before, t', touched', undone, hcounters, hreads⟩ :=
    disconnect_inverts_connect awaits real coinTables_leavesRoom applied
  exact ⟨awaits, real, coinTables_leavesRoom, _, before, _, t', touched', applied, undone,
    hcounters, hreads⟩

/-- The spending block under a header with its hash and its place, but another time. -/
def misdatedHeader : ChainedHeader :=
  { spendingHeader with header := { spendingBlock.header with time := 1 } }

/-- A store that counts as many transactions as it can. -/
def countedOut : Tables := coinTablesCounting ⟨1, 1, 0xffffffffffffffff, 1, 1⟩

/-- The spending block is connected under a header and disconnected at once. -/
def thereAndBack (header : ChainedHeader) (t : Tables) :
    Except LedgerError Counters × Except LedgerError Counters :=
  let (connected, s) := (Connecting.whole coinArchive coinChain header spendingBlock).on
    ⟨.fresh, .writing t false⟩
  (connected, ((Disconnecting.whole coinArchive header spendingBlock).on s).1)

lemma thereAndBack_evaluated :
    thereAndBack misdatedHeader coinTables = (.ok ⟨2, 2, 4, 4, 4⟩,
      .error (.inconsistent (.tipDiffers misdatedHeader.header.hash 2 misdatedHeader.hash 2))) ∧
    thereAndBack spendingHeader countedOut = (.ok ⟨2, 2, 2, 4, 4⟩,
      .error (.inconsistent (.counterBelowZero .txs))) := by decide +kernel

lemma thereAndBack_eq {t : Tables} {connected disconnected : Except LedgerError Counters}
    (h : thereAndBack header t = (connected, disconnected)) :
    ∃ s s', (Connecting.whole coinArchive coinChain header spendingBlock).on
        ⟨.fresh, .writing t false⟩ = (connected, s) ∧
      (Disconnecting.whole coinArchive header spendingBlock).on s = (disconnected, s') := by
  obtain ⟨hconnected, hdisconnected⟩ := Prod.mk.inj h
  exact ⟨_, _, Prod.ext hconnected rfl, Prod.ext hdisconnected rfl⟩

/-- A connected block is not disconnected if its header bears another hash than that of its fields,
since the tip reads back under the other name, nor if a counter has run over. -/
theorem connected_not_disconnected :
    coinTables.Awaits coinArchive coinChain misdatedHeader spendingBlock ∧
    (∃ counters s s',
      (Connecting.whole coinArchive coinChain misdatedHeader spendingBlock).on
        ⟨.fresh, .writing coinTables false⟩ = (.ok counters, s) ∧
      (Disconnecting.whole coinArchive misdatedHeader spendingBlock).on s =
        (.error (.inconsistent
          (.tipDiffers misdatedHeader.header.hash 2 misdatedHeader.hash 2)), s')) ∧
    countedOut.Awaits coinArchive coinChain spendingHeader spendingBlock ∧
    ∃ counters s s',
      (Connecting.whole coinArchive coinChain spendingHeader spendingBlock).on
        ⟨.fresh, .writing countedOut false⟩ = (.ok counters, s) ∧
      (Disconnecting.whole coinArchive spendingHeader spendingBlock).on s =
        (.error (.inconsistent (.counterBelowZero .txs)), s') := by
  obtain ⟨misdated, counted⟩ := thereAndBack_evaluated
  exact ⟨coinTablesCounting_awaits _ rfl, ⟨_, thereAndBack_eq misdated⟩,
    coinTablesCounting_awaits _ rfl, ⟨_, thereAndBack_eq counted⟩⟩

end UtxoLedger

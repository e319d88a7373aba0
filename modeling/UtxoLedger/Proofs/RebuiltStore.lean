import Mathlib.Algebra.Group.Int.Defs
import Mathlib.Tactic.Common
import UtxoLedger.Proofs.LedgerCalls
import UtxoLedger.Proofs.UndoInverse

/-!
# The store of a chain

A chain and an archive determine a store: genesis is written into an empty one, then every block
above it is connected once, in order. The store that comes out is listed here table by table; more
blocks in the archive do not change it.
-/
namespace UtxoLedger

open StoreM

namespace Archive

variable {a b : Archive}

/-- Every block of `a` is in `b`, under the same name. -/
def Within (a b : Archive) : Prop :=
  ∀ hash block, a.block? hash = some block → b.block? hash = some block

lemma Within.tx? (h : Within a b) {hash : Hash} {index : Nat} {tx : Transaction}
    (htx : a.tx? hash index = some tx) : b.tx? hash index = some tx := by
  obtain ⟨block, hblock, hat⟩ := Option.bind_eq_some_iff.1 htx
  exact Option.bind_eq_some_iff.2 ⟨block, h hash block hblock, hat⟩

/-- Blocks are stored under their names, and their lists are short enough to be counted. -/
def Sound (a : Archive) : Prop :=
  ∀ hash block, a.block? hash = some block → block.hash = hash ∧ block.InBounds

end Archive

namespace Locator

variable {l l' : Locator}

/-- `l'` works on the block of `l` at the same place, and has every stored block that `l` has. -/
structure Covers (l' l : Locator) : Prop where
  hash : l'.header.hash = l.header.hash
  height : l'.header.height = l.header.height
  block : l'.block = l.block
  archive : l.archive.Within l'.archive

lemma Covers.placeOf (h : l'.Covers l) (chain : Chain) (u : UnspentTx) :
    l'.placeOf chain u = l.placeOf chain u := by
  simp only [Locator.placeOf, h.hash, h.height]

lemma Covers.resolve (h : l'.Covers l) {place : TxLocation} {name : Hash} {source : Transaction}
    (found : l.resolve place name = .ok source) : l'.resolve place name = .ok source := by
  rw [resolve_eq_ok] at found ⊢
  obtain ⟨hindex, htx, hname⟩ := found
  refine ⟨hindex, ?_, hname⟩
  unfold txAt? at htx ⊢
  rw [h.hash, h.block]
  split
  next hown => rwa [if_pos hown] at htx
  next hown =>
    rw [if_neg hown] at htx
    exact h.archive.tx? htx

end Locator

namespace Connecting

variable {c c' : Connecting} {U U' : Table} {o : OutPoint} {source tx : Transaction}
  {place : TxLocation} {a : Archive}

/-- The same work with another archive behind it. -/
def backedBy (a : Archive) (c : Connecting) : Connecting :=
  { c with locator := { c.locator with archive := a } }

/-- A spend whose source another archive has at the same place. -/
lemma Spends.backedBy_of_resolve (h : Spends c o U source place c' U')
    (resolved : (c.backedBy a).locator.resolve place o.hash = .ok source) :
    Spends (c.backedBy a) o U source place (c'.backedBy a) U' := by
  cases h with
  | last found size_lt spent outputs located gone present txs =>
    exact .last found size_lt spent outputs located gone present txs resolved
  | more found size_lt spent outputs located left present stored_lt =>
    exact .more found size_lt spent outputs located left present stored_lt resolved

lemma Spends.resolved (h : Spends c o U source place c' U') :
    c.locator.resolve place o.hash = .ok source := by
  cases h <;> assumption

lemma Spends.backedBy (hw : c.locator.archive.Within a) (h : Spends c o U source place c' U') :
    Spends (c.backedBy a) o U source place (c'.backedBy a) U' := by
  have covers : (c.backedBy a).locator.Covers c.locator := ⟨rfl, rfl, rfl, hw⟩
  exact h.backedBy_of_resolve (covers.resolve h.resolved)

lemma SpendsAll.backedBy {inputs : List TxInput} {sources : List Transaction}
    {places : List TxLocation} (hw : c.locator.archive.Within a)
    (h : SpendsAll c inputs U sources places c' U') :
    SpendsAll (c.backedBy a) inputs U sources places (c'.backedBy a) U' := by
  induction h with
  | nil => exact .nil _ _
  | cons first _ ih =>
    refine .cons (first.backedBy hw) (ih ?_)
    rw [first.sameBlock.locator]
    exact hw

lemma Mints.backedBy {name : Hash} (h : Mints c tx name U c' U') :
    Mints (c.backedBy a) tx name U (c'.backedBy a) U' := by
  cases h with
  | empty none => exact .empty none
  | enters some free => exact .enters some free

lemma Connects.backedBy {l : LoadedTx} (hw : c.locator.archive.Within a)
    (h : Connects c tx U l c' U') : Connects (c.backedBy a) tx U l (c'.backedBy a) U' := by
  obtain ⟨new, free, spends, mints⟩ := h
  have hspends := SpendsAll.backedBy (by exact hw) spends
  exact Connects.intro (c := c.backedBy a) new free hspends mints.backedBy

/-- Blocks that come into the archive later make no difference. -/
lemma ConnectsAll.backedBy {txs : List Transaction} {loaded : List LoadedTx}
    (hw : c.locator.archive.Within a) (h : ConnectsAll c txs U loaded c' U') :
    ConnectsAll (c.backedBy a) txs U loaded (c'.backedBy a) U' := by
  induction h with
  | nil => exact .nil _ _
  | cons first _ ih =>
    obtain ⟨places, hafter⟩ := first.after
    refine .cons (first.backedBy hw) (ih ?_)
    rw [hafter.locator]
    exact hw

lemma Spends.left (hl : Left U) (h : Spends c o U source place c' U') : Left U' := by
  intro k v hk hv
  cases h with
  | last =>
    rw [Table.getElem?_erase] at hk
    split at hk
    · simp at hk
    · exact hl k v hk hv
  | @more u stored states _ _ _ _ size_lt spent _ _ left =>
    rw [Table.getElem?_insert] at hk
    split at hk
    · have hsize := size_of_spentStates spent
      have heq : ({ stored with states } : UnspentTx) = v :=
        (UnspentTx.encode_inj (by simpa [hsize] using size_lt) hv).1 (Option.some.inj hk)
      subst heq
      exact left
    · exact hl k v hk hv

lemma SpendsAll.left {inputs : List TxInput} {sources : List Transaction}
    {places : List TxLocation} (hl : Left U) (h : SpendsAll c inputs U sources places c' U') :
    Left U' := by
  induction h with
  | nil => exact hl
  | cons first _ ih => exact ih (first.left hl)

lemma Mints.left {name : Hash} (hl : Left U) (h : Mints c tx name U c' U')
    (hlength : tx.outputs.length < 2 ^ 32) : Left U' := by
  cases h with
  | empty => exact hl
  | enters some =>
    intro k v hk hv
    rw [Table.getElem?_insert] at hk
    split at hk
    · have heq : c.record tx name = v := (UnspentTx.encode_inj hlength hv).1 (Option.some.inj hk)
      subst heq
      by_contra hall
      rw [Bool.not_eq_false, OutputStates.allSpent_iff] at hall
      have hpos := List.length_pos_iff.2 some
      have hfirst := hall 0 hpos
      rw [record, OutputStates.get?_filled hpos] at hfirst
      simp at hfirst
    · exact hl k v hk hv

lemma Connects.grounded {l : LoadedTx} (hg : Grounded c.locator c.chain U)
    (h : Connects c tx U l c' U') (hat : c.locator.block.txs[c.position]? = some tx)
    (hposition : c.position < 2 ^ 31) (hlength : tx.outputs.length < 2 ^ 32) :
    Grounded c'.locator c'.chain U' := by
  obtain ⟨-, -, spends, mints⟩ := h
  rename_i sources places c₁ c₂ U₁
  have hblock := spends.sameBlock
  have hspent : Grounded c₁.locator c₁.chain U₁ :=
    SpendsAllOwn.grounded (by exact hg) (spends.own (by exact hg))
  have hminted : Grounded c₂.locator c₂.chain U' := by
    refine mints.grounded hspent ?_ ?_ hlength
    · rw [hblock.locator, hblock.position]
      exact hat
    · rw [hblock.position]
      exact hposition
  exact hminted

lemma Connects.left {l : LoadedTx} (hl : Left U) (h : Connects c tx U l c' U')
    (hlength : tx.outputs.length < 2 ^ 32) : Left U' := by
  obtain ⟨-, -, spends, mints⟩ := h
  exact mints.left (spends.left hl) hlength

/-- What a list of connected transactions leaves is grounded, and nothing of it fully spent, also
where a transaction has come back. -/
lemma ConnectsAll.grounded_left {txs : List Transaction} {loaded : List LoadedTx}
    (hg : Grounded c.locator c.chain U) (hl : Left U) (h : ConnectsAll c txs U loaded c' U')
    (hat : c.locator.block.txs.drop c.position = txs)
    (hcount : c.locator.block.txs.length ≤ 2 ^ 31)
    (hlength : ∀ tx ∈ txs, tx.outputs.length < 2 ^ 32) :
    Grounded c'.locator c'.chain U' ∧ Left U' := by
  induction h with
  | nil => exact ⟨hg, hl⟩
  | @cons c c₁ c₂ tx rest U U₁ U₂ l loaded first more ih =>
    obtain ⟨htx, hposition, hpending, hcount'⟩ := first.next hat hcount
    have hshort := hlength tx List.mem_cons_self
    exact ih (first.grounded hg htx hposition hshort) (first.left hl hshort) hpending hcount'
      fun t ht => hlength t (List.mem_cons_of_mem _ ht)

end Connecting

namespace ChainedHeader

variable {parent made : ChainedHeader} {h : BlockHeader}

lemma onto_eq_ok : parent.onto h = .ok made ↔ h.prev = parent.hash ∧ made = parent.above h := by
  unfold onto
  split
  next same => simp [same, eq_comm]
  next other => simp [other]

lemma toInt_height_above (nonneg : 0 ≤ parent.height.toInt)
    (room : parent.height.toInt + 1 < 2 ^ 31) :
    (parent.above h).height.toInt = parent.height.toInt + 1 := by
  have hadd : (parent.above h).height.toInt = (parent.height + 1).toInt := rfl
  rw [hadd, Int32.toInt_add]
  exact Int.bmod_eq_of_le (by simp; omega) (by simp; omega)

/-- A header as it is read back: its name is that of its fields. -/
def rehashed (h : ChainedHeader) : ChainedHeader := { h with hash := h.header.hash }

lemma rehashed_eq_self {h : ChainedHeader} : h.rehashed = h ↔ h.hash = h.header.hash := by
  cases h
  simp [rehashed, eq_comm]

lemma map_rehashed_eq_self {hs : List ChainedHeader} :
    hs.map rehashed = hs ↔ ∀ h ∈ hs, h.hash = h.header.hash := by
  conv_lhs => rhs; rw [← List.map_id hs]
  simp only [List.map_inj_left, id_eq, rehashed_eq_self]

end ChainedHeader

/-- The headers that a table lists are read back with their names worked out again. -/
lemma Tables.chainHeaders_of_toList {t : Tables} {hs : List ChainedHeader}
    (listed : t.headers.toList = hs.map fun h => (Height.key h.height, h.encode)) :
    t.chainHeaders = .ok (hs.map ChainedHeader.rehashed) := by
  have hlist : t.chainHeaders = decodeAll .headers ChainedHeader.decode t.headers.toList := rfl
  rw [hlist, listed]
  clear hlist listed
  induction hs with
  | nil => rfl
  | cons h hs ih =>
    simp [decodeAll, located, ChainedHeader.decode_encode, ih, Except.map, ChainedHeader.rehashed]

/-- The headers of a chain bear the names of their fields, each its own. -/
structure Chain.Genuine (chain : Chain) : Prop where
  real : ∀ h ∈ chain.headers, h.hash = h.header.hash
  distinct : (chain.headers.map ChainedHeader.hash).Nodup

/-- So do those below the tip, and the name of the tip is a new one at least. -/
structure Chain.GenuineBelow (chain : Chain) : Prop where
  real : ∀ h ∈ chain.headers.dropLast, h.hash = h.header.hash
  distinct : (chain.headers.map ChainedHeader.hash).Nodup

/-- The tables of a chain: those of its genesis, or those of the chain below its tip after the block
under the tip was connected and closed. -/
inductive Built (archive : Archive) : Chain → Tables → Prop
  | genesis {chain : Chain} {header : ChainedHeader} (sole : chain.headers = [header]) :
      Built archive chain (Ledger.seedTables header)
  | above {chain below : Chain} {header : ChainedHeader} {block : Block} {t : Tables}
      {cs : Counters} {loaded : List LoadedTx} {c : Connecting} {U : Table}
      (built : Built archive below t) (found : archive.block? header.hash = some block)
      (counters : t.readCounters = .ok cs)
      (connects : Connecting.ConnectsAll (.taken archive below header block cs) block.txs t.unspent
        loaded c U)
      (grown : chain.headers = below.headers ++ [header]) :
      Built archive chain (c.closed { t with unspent := U })

/-- What there is in the tables of a chain. -/
structure Solid (archive : Archive) (chain : Chain) (t : Tables) : Prop where
  anchored : t.Anchored archive chain
  headers : t.headers.toList = chain.headers.map fun h => (Height.key h.height, h.encode)
  spent : ∀ height : Height, chain.tip.height.toInt < height.toInt →
    t.spent[Height.key height]? = none
  unminted : ∀ hash : Hash, (∀ h ∈ chain.headers, h.hash ≠ hash) → t.unminted[hash.bytes]? = none
  counters : ∃ cs, t.counters = (Tables.empty.withCounters cs).counters ∧
    ∀ k, (cs.get k).toNat ≤ (chain.headers.length - 1) * 2 ^ 31

namespace Chain

variable {chain below : Chain} {header : ChainedHeader}

lemma forall_mem_iff_of_grown {H : ChainedHeader → Prop}
    (grown : chain.headers = below.headers ++ [header]) :
    (∀ h ∈ chain.headers, H h) ↔ (∀ h ∈ below.headers, H h) ∧ H header := by
  rw [grown, List.forall_mem_append, List.forall_mem_singleton]

lemma genesis_of_grown (grown : chain.headers = below.headers ++ [header]) :
    chain.genesis = below.genesis := by
  simp only [genesis, grown]
  exact List.head_append_of_ne_nil below.nonempty

lemma length_le (chain : Chain) : chain.headers.length ≤ 2 ^ 31 := by
  have hheight : chain.tip.height.toInt = (chain.headers.length - 1 : Nat) := chain.toInt_height
  have hlt := chain.tip.height.toInt_lt
  omega

lemma get?_of_grown (grown : chain.headers = below.headers ++ [header]) {height : Height}
    {h : ChainedHeader} (hget : below.get? height = some h) : chain.get? height = some h := by
  unfold get? at hget ⊢
  split at hget
  next h0 =>
    have hlt := (List.getElem?_eq_some_iff.1 hget).1
    rw [if_pos h0, grown, List.getElem?_append_left hlt, hget]
  · simp at hget

lemma get?_tip (chain : Chain) : chain.get? chain.tip.height = some chain.tip := by
  have hpos := chain.length_pos
  have hheight : chain.tip.height.toInt = (chain.headers.length - 1 : Nat) := chain.toInt_height
  have htip : chain.tip = chain.headers[chain.headers.length - 1] :=
    chain.tip_eq_getElem _ (by omega)
  rw [get?, if_pos (by omega), hheight, Int.toNat_natCast, htip]
  exact List.getElem?_eq_getElem _

lemma GenuineBelow.of_grown (genuine : chain.GenuineBelow)
    (grown : chain.headers = below.headers ++ [header]) :
    below.Genuine ∧ ∀ h ∈ below.headers, h.hash ≠ header.hash := by
  have hdistinct := genuine.distinct
  rw [grown, List.map_append, List.nodup_append] at hdistinct
  refine ⟨⟨fun h hh => genuine.real h (by simp [grown, hh]), hdistinct.1⟩, fun h hh => ?_⟩
  exact hdistinct.2.2 h.hash (List.mem_map_of_mem hh) header.hash (by simp)

lemma Genuine.genuineBelow (genuine : chain.Genuine) : chain.GenuineBelow :=
  ⟨fun h hh => genuine.real h (List.dropLast_subset _ hh), genuine.distinct⟩

lemma GenuineBelow.genuine (below : chain.GenuineBelow)
    (tip : chain.tip.hash = chain.tip.header.hash) : chain.Genuine := by
  refine ⟨fun h hh => ?_, below.distinct⟩
  rw [← List.dropLast_append_getLast chain.nonempty, List.mem_append, List.mem_singleton] at hh
  rcases hh with hh | rfl
  · exact below.real h hh
  · exact tip

lemma Genuine.of_grown (genuine : chain.Genuine)
    (grown : chain.headers = below.headers ++ [header]) :
    below.Genuine ∧ header.hash = header.header.hash ∧
      ∀ h ∈ below.headers, h.hash ≠ header.hash := by
  obtain ⟨hbelow, hnew⟩ := genuine.genuineBelow.of_grown grown
  exact ⟨hbelow, genuine.real header (by simp [grown]), hnew⟩

end Chain

/-- What a block at work finds by a place is there on the longer chain. -/
lemma Locator.resolved_above {archive : Archive} {chain below : Chain} {header : ChainedHeader}
    {block : Block} {u : UnspentTx} {place : TxLocation} {name : Hash} {tx : Transaction}
    (found : archive.block? header.hash = some block)
    (hnew : ∀ h ∈ below.headers, h.hash ≠ header.hash)
    (grown : chain.headers = below.headers ++ [header])
    (located : (⟨archive, header, block⟩ : Locator).placeOf below u = .ok place)
    (resolved : (⟨archive, header, block⟩ : Locator).resolve place name = .ok tx) :
    ∃ h, chain.get? u.height = some h ∧ 0 ≤ u.index.toInt ∧
      archive.tx? h.hash u.index.toInt.toNat = some tx ∧ tx.hash = name := by
  obtain ⟨hindex, htx, hname⟩ := resolve_eq_ok.1 resolved
  rw [(placeOf_fields located).2] at hindex
  unfold placeOf at located
  dsimp only at located
  by_cases hheight : u.height = header.height
  · -- The block itself minted the record.
    rw [if_pos hheight] at located
    cases located
    refine ⟨header, ?_, hindex, ?_, hname⟩
    · have hget := chain.get?_tip
      rwa [Chain.tip_of_grown grown, ← hheight] at hget
    · rw [txAt?, if_pos rfl] at htx
      exact Option.bind_eq_some_iff.2 ⟨block, found, htx⟩
  · rw [if_neg hheight] at located
    cases hget : below.get? u.height with
    | none => simp [hget] at located
    | some h =>
      rw [hget] at located
      cases located
      have hmem : h ∈ below.headers := by
        unfold Chain.get? at hget
        split at hget
        · exact List.mem_of_getElem? hget
        · simp at hget
      refine ⟨h, Chain.get?_of_grown grown hget, hindex, ?_, hname⟩
      rwa [txAt?, if_neg (hnew h hmem)] at htx

lemma Block.InBounds.raises_lt {b : Block} (h : b.InBounds) (k : Counter) :
    Transaction.raises b.txs k < 2 ^ 31 := by
  cases k with
  | unspentTxs | txs => exact h.txs
  | unspentOutputs | outputs => exact h.outputs
  | inputs => exact h.inputs

namespace Solid

variable {archive : Archive} {chain : Chain} {header : ChainedHeader} {block : Block} {t : Tables}
  {cs : Counters}

/-- The counters of a chain leave room for another block. -/
lemma room (hs : Solid archive chain t) (header : ChainedHeader) (hcs : t.readCounters = .ok cs)
    (bounds : block.InBounds) :
    Connecting.Room (chain.headers.length * 2 ^ 31) (.taken archive chain header block cs)
      block.txs := by
  obtain ⟨stored, hstored, hle⟩ := hs.counters
  have heq := Tables.readCounters_congr hstored
  rw [hcs, Tables.readCounters_withCounters] at heq
  cases heq
  have hpos := chain.length_pos
  intro k
  have hk := hle k
  have hraises := bounds.raises_lt k
  simp only [Connecting.taken, Journal.empty, List.length_nil, ite_self]
  omega

/-- The last entry of the headers is that of the tip. -/
lemma getLast?_headers
    (headers : t.headers.toList = chain.headers.map fun h => (Height.key h.height, h.encode)) :
    t.headers.toList.getLast? = some (Height.key chain.tip.height, chain.tip.encode) := by
  rw [headers, List.getLast?_map, List.getLast?_eq_some_getLast chain.nonempty]
  rfl

/-- The tables of a genesis header. -/
lemma seed (archive : Archive) (sole : chain.headers = [header]) :
    Solid archive chain (Ledger.seedTables header) := by
  have headers : (Ledger.seedTables header).headers.toList =
      chain.headers.map fun h => (Height.key h.height, h.encode) := by
    simp only [Ledger.seedTables, Tables.headers_withCounters, sole, List.map_cons, List.map_nil]
    rw [Table.toList_insert_last (by simp [Tables.empty])]
    simp [Tables.empty]
  refine ⟨⟨fun k bytes u found => ?_, _, getLast?_headers headers⟩, headers, ?_, ?_, .zero, rfl, ?_⟩
  · simp [Ledger.seedTables, Tables.empty] at found
  · simp [Ledger.seedTables, Tables.empty]
  · simp [Ledger.seedTables, Tables.empty]
  · intro k
    cases k <;> simp [Counters.zero, Counters.get]

variable {below : Chain} {loaded : List LoadedTx} {c : Connecting} {U : Table}

/-- The records that a connected block leaves lead to their transactions on the longer chain. -/
lemma records_above (hs : Solid archive below t) (genuine : chain.Genuine) (sound : archive.Sound)
    (found : archive.block? header.hash = some block)
    (connects : Connecting.ConnectsAll (.taken archive below header block cs) block.txs t.unspent
      loaded c U)
    (grown : chain.headers = below.headers ++ [header]) (k bytes : Bytes) (u : UnspentTx)
    (stored : U[k]? = some bytes) (hu : UnspentTx.decode bytes = .ok u) :
    u.states.allSpent = false ∧ ∃ h tx, chain.get? u.height = some h ∧ 0 ≤ u.index.toInt ∧
      archive.tx? h.hash u.index.toInt.toNat = some tx ∧ tx.hash = u.hash ∧
      tx.outputs.length = u.states.size := by
  obtain ⟨-, bounds⟩ := sound _ _ found
  obtain ⟨-, -, hnew⟩ := genuine.of_grown grown
  have hx := Chain.extends_of_grown grown
  have hlocator : c.locator = ⟨archive, header, block⟩ := connects.same.1
  have hchain : c.chain = below := connects.same.2
  obtain ⟨hg, hl⟩ := connects.grounded_left (hs.anchored.grounded hx hnew block) hs.anchored.left
    rfl bounds.txs.le fun tx htx => (bounds.of_mem htx).2.trans (by decide)
  have hlt := UnspentTx.size_lt_of_decode hu
  rw [UnspentTx.eq_encode_of_decode hu] at stored
  obtain ⟨place, tx, located, resolved, hlength⟩ := hg k u stored hlt
  rw [hlocator, hchain] at located
  rw [hlocator] at resolved
  obtain ⟨h, hget, hindex, htx, hname⟩ :=
    Locator.resolved_above found hnew grown located resolved
  exact ⟨hl k u stored hlt, h, tx, hget, hindex, htx, hname, hlength⟩

/-- One more block. -/
lemma above (hs : Solid archive below t) (genuine : chain.Genuine) (sound : archive.Sound)
    (found : archive.block? header.hash = some block) (hcs : t.readCounters = .ok cs)
    (connects : Connecting.ConnectsAll (.taken archive below header block cs) block.txs t.unspent
      loaded c U)
    (grown : chain.headers = below.headers ++ [header]) :
    Solid archive chain (c.closed { t with unspent := U }) := by
  have hx := Chain.extends_of_grown grown
  have htip := Chain.tip_of_grown grown
  have hlocator : c.locator = ⟨archive, header, block⟩ := connects.same.1
  have headers : (c.closed { t with unspent := U }).headers.toList =
      chain.headers.map fun h => (Height.key h.height, h.encode) := by
    rw [(Disconnecting.toList_headers_closed connects hx hs.anchored.tip).2, hs.headers, grown,
      List.map_append, List.map_singleton]
  refine ⟨⟨fun k bytes u stored => ?_, _, getLast?_headers headers⟩, headers, ?_, ?_, ?_⟩
  · refine records_above hs genuine sound found connects grown k bytes u ?_
    simpa [Connecting.closed] using stored
  · intro height hheight
    rw [htip] at hheight
    have hne : Height.key header.height ≠ Height.key height := by
      rw [Ne, Height.key_inj]
      rintro rfl
      omega
    have hbelow := hs.spent height (by have := hx.1; omega)
    simp [Connecting.closed, hlocator, Table.getElem?_insert, hne, hbelow]
  · intro hash hhash
    have hne : header.hash.bytes ≠ hash.bytes := by
      rw [Ne, Hash.bytes_inj]
      exact hhash header (by simp [grown])
    have hbelow := hs.unminted hash fun h hh => hhash h (by simp [grown, hh])
    simp [Connecting.closed, hlocator, Table.getElem?_insert, hne, hbelow]
  · obtain ⟨stored, hstored, -⟩ := hs.counters
    have hpos := below.length_pos
    have hle := below.length_le
    have hlength : chain.headers.length = below.headers.length + 1 := by simp [grown]
    have hroom := hs.room header hcs (sound _ _ found).2
    refine ⟨c.counters, Tables.counters_withCounters hstored _, fun k => ?_⟩
    have hk := connects.room hroom (by omega) k
    omega

end Solid

/-- Every chain of genuine headers has solid tables. -/
theorem Built.solid {archive : Archive} {chain : Chain} {t : Tables} (sound : archive.Sound)
    (h : Built archive chain t) (genuine : chain.Genuine) : Solid archive chain t := by
  induction h with
  | genesis sole => exact .seed archive sole
  | above _ found counters connects grown ih =>
    exact (ih (genuine.of_grown grown).1).above genuine sound found counters connects grown

/-- The tables of a chain stay what they are when blocks come into the archive. -/
lemma Built.within {archive a : Archive} {chain : Chain} {t : Tables} (h : Built archive chain t)
    (hw : archive.Within a) : Built a chain t := by
  induction h with
  | genesis sole => exact .genesis sole
  | @above chain below header block t cs loaded c U built found counters connects grown ih =>
    have hconnects : Connecting.ConnectsAll (.taken a below header block cs) block.txs t.unspent
        loaded (c.backedBy a) U := connects.backedBy hw
    have h := Built.above ih (hw _ _ found) counters hconnects grown
    exact h

namespace Solid

variable {archive : Archive} {chain below : Chain} {header : ChainedHeader} {block : Block}
  {t : Tables} {cs : Counters} {loaded : List LoadedTx} {c : Connecting} {U : Table}

lemma chainHeaders (hs : Solid archive chain t) (genuine : chain.Genuine) :
    t.chainHeaders = .ok chain.headers := by
  have hread := Tables.chainHeaders_of_toList hs.headers
  rwa [ChainedHeader.map_rehashed_eq_self.2 genuine.real] at hread

lemma tip? (hs : Solid archive chain t) (genuine : chain.Genuine) :
    t.tip? = .ok (some chain.tip) := by
  refine Tables.tip?_eq_some.2 ⟨_, _, getLast?_headers hs.headers, ?_⟩
  rw [ChainedHeader.decode_encode, ← genuine.real chain.tip (List.getLast_mem _)]

/-- The place of the next header is free, and so are those of its journal. -/
lemma free_above (hs : Solid archive below t) (hx : header.Extends below.tip)
    (hnew : ∀ h ∈ below.headers, h.hash ≠ header.hash) :
    t.headers[Height.key header.height]? = none ∧ t.spent[Height.key header.height]? = none ∧
      t.unminted[header.hash.bytes]? = none := by
  have hheight : below.tip.height.toInt = (below.headers.length - 1 : Nat) := below.toInt_height
  have hbehind : compare (Height.key below.tip.height) (Height.key header.height) = .lt :=
    Height.compare_key_of_lt (by omega) (by rw [hx.1]; omega)
  refine ⟨?_, hs.spent _ (by rw [hx.1]; omega), hs.unminted _ hnew⟩
  exact Table.getElem?_of_lt (Table.lt_of_getLast? (getLast?_headers hs.headers) hbehind)

lemma staged_whole (hs : Solid archive below t) (genuine : chain.GenuineBelow)
    (sound : archive.Sound) (found : archive.block? header.hash = some block)
    (hcs : t.readCounters = .ok cs)
    (connects : Connecting.ConnectsAll (.taken archive below header block cs) block.txs t.unspent
      loaded c U)
    (grown : chain.headers = below.headers ++ [header]) :
    (Connecting.whole archive below header block).staged t =
      .ok (c.counters, c.closed { t with unspent := U }) := by
  have hx := Chain.extends_of_grown grown
  obtain ⟨hbelow, hnew⟩ := genuine.of_grown grown
  obtain ⟨hheaders, hspent, hunminted⟩ := hs.free_above hx hnew
  refine (Connecting.staged_whole_eq_ok hspent hunminted).2
    ⟨cs, loaded, c, U, ?_, connects, hheaders, rfl, rfl⟩
  exact Connecting.staged_start_eq_ok.2 ⟨hx, ⟨below.tip, hs.tip? hbelow, rfl, rfl⟩,
    (sound _ _ found).1, cs, hcs, rfl, rfl⟩

end Solid

/-- Connects the stored blocks under the headers one after the other, each in a transaction of its
own. -/
def Connecting.each (archive : Archive) (chain : Chain) : List ChainedHeader → StoreM Chain
  | [] => return chain
  | header :: rest => do
    match archive.block? header.hash with
    | none => StoreM.fail (.blockNotFound (.notStored header.hash))
    | some block =>
      let _ ← StoreM.atomically (whole archive chain header block)
      let chain ← StoreM.lift ((chain.add header).mapError .chain)
      each archive chain rest

/-- Fills an empty store with a chain: genesis first, then every block above it, once, in order. -/
def Chain.rebuild (archive : Archive) (chain : Chain) : StoreM Chain := do
  let below ← Ledger.seed chain.genesis
  Connecting.each archive below chain.headers.tail

lemma Connecting.each_append (archive : Archive) (chain : Chain) (hs rest : List ChainedHeader) :
    each archive chain (hs ++ rest) =
      each archive chain hs >>= fun chain => each archive chain rest := by
  induction hs generalizing chain with
  | nil => simp [each]
  | cons header hs ih =>
    simp only [List.cons_append, each]
    cases archive.block? header.hash with
    | none => rfl
    | some block => simp [ih]

lemma Chain.rebuild_of_grown {archive : Archive} {chain below : Chain} {header : ChainedHeader}
    (grown : chain.headers = below.headers ++ [header]) : chain.rebuild archive =
      below.rebuild archive >>= fun c => Connecting.each archive c [header] := by
  have hgenesis := genesis_of_grown grown
  have htail : chain.headers.tail = below.headers.tail ++ [header] := by
    rw [grown, List.tail_append_of_ne_nil below.nonempty]
  simp [rebuild, hgenesis, htail, Connecting.each_append]

/-- Building the store of a chain succeeds, with just these tables. -/
theorem Built.on_rebuild_of_below {archive : Archive} {chain : Chain} {t : Tables}
    (h : Built archive chain t) (sound : archive.Sound) (genuine : chain.GenuineBelow) :
    ∃ db : Database, db.committed.tables = t ∧ db.writerOpen = false ∧
      (chain.rebuild archive).on ⟨.fresh, .idle⟩ = (.ok chain, ⟨db, .idle⟩) := by
  induction h with
  | @genesis chain header sole =>
    have hgenesis : chain.genesis = header := by simp [Chain.genesis, sole]
    have hheight : header.height = 0 := by
      have h0 := chain.heights 0 chain.length_pos
      rw [← Int32.toInt_inj]
      simpa [sole] using h0
    obtain ⟨chain', hchain, hheaders⟩ := Chain.ofGenesis_eq_ok hheight
    obtain rfl : chain' = chain := Chain.ext_headers (by rw [hheaders, sole])
    rcases Ledger.on_seed hchain .fresh with ⟨t, n, free, hstaged, hon⟩ | ⟨e, hstaged, -⟩
    · cases (Ledger.staged_seeding header).symm.trans hstaged
      refine ⟨{ Database.fresh with committed := ⟨Ledger.seedTables header, n⟩ }, rfl, rfl, ?_⟩
      rw [Chain.rebuild, StoreM.on_bind, hgenesis, hon, sole]
      rfl
    · exact nomatch (Ledger.staged_seeding header).symm.trans (hstaged rfl)
  | @above chain below header block t cs loaded c U built found counters connects grown ih =>
    obtain ⟨hbelow, -⟩ := genuine.of_grown grown
    obtain ⟨db, rfl, free, hon⟩ := ih hbelow.genuineBelow
    have hwhole := (built.solid sound hbelow).staged_whole genuine sound found counters connects
      grown
    rw [Chain.rebuild_of_grown grown, StoreM.on_bind, hon]
    simp only [Connecting.each, found, StoreM.on_bind]
    rcases StoreM.on_atomically_free free (Connecting.whole archive below header block) with
      ⟨a, t', n, hstaged, hatomic⟩ | ⟨e, hstaged, -⟩
    · cases hwhole.symm.trans hstaged
      have hadd := Chain.add_eq_ok.2 ⟨Chain.extends_of_grown grown, grown⟩
      refine ⟨{ db with committed := ⟨_, n⟩ }, rfl, free, ?_⟩
      rw [hatomic, hadd]
      rfl
    · simp [hwhole] at hstaged

theorem Built.on_rebuild {archive : Archive} {chain : Chain} {t : Tables}
    (h : Built archive chain t) (sound : archive.Sound) (genuine : chain.Genuine) :
    ∃ db : Database, db.committed.tables = t ∧ db.writerOpen = false ∧
      (chain.rebuild archive).on ⟨.fresh, .idle⟩ = (.ok chain, ⟨db, .idle⟩) :=
  h.on_rebuild_of_below sound genuine.genuineBelow

end UtxoLedger

import Mathlib.Tactic.Common
import UtxoLedger.Proofs.ConnectSteps
import UtxoLedger.Proofs.CounterArithmetic
import UtxoLedger.Proofs.OutputFlags

/-!
# What holds while a block is connected

Every record points at its transaction, so a spend works on the record of the transaction that it
names. A source mentioned so far is either still recorded at the place it was mentioned with, or
listed as spent, and never both. The one way out of this is a transaction that comes back under a
name already spent from; then one name is listed as spent and recorded, or listed twice, for good.
-/
namespace UtxoLedger

lemma getElem?_of_drop {α : Type} {l rest : List α} {n : Nat} {a : α} (h : l.drop n = a :: rest) :
    l[n]? = some a := by
  rw [← Nat.add_zero n, ← List.getElem?_drop, h]
  rfl

namespace Locator

variable {l : Locator} {chain : Chain} {place : TxLocation}

/-- The transaction that stands at a place. -/
def txAt? (l : Locator) (place : TxLocation) : Option Transaction :=
  if place.block = l.header.hash then l.block.txs[place.index.toInt.toNat]?
  else l.archive.tx? place.block place.index.toInt.toNat

lemma resolve_eq_ok {name : Hash} {tx : Transaction} : l.resolve place name = .ok tx ↔
    0 ≤ place.index.toInt ∧ l.txAt? place = some tx ∧ tx.hash = name := by
  unfold resolve txAt?
  dsimp only
  split
  next h => simp [Int.not_le.2 h]
  next h =>
    generalize (if place.block = l.header.hash then _ else _ : Option Transaction) = found
    cases found with
    | none => simp
    | some t =>
      dsimp only
      split
      next ht =>
        rw [Except.ok.injEq, Option.some.injEq]
        exact ⟨fun heq => ⟨Int.not_lt.1 h, heq, heq ▸ ht⟩, fun heq => heq.2.1⟩
      next ht =>
        simp only [reduceCtorEq, Option.some.injEq, false_iff]
        rintro ⟨-, rfl, heq⟩
        exact ht heq

/-- A place follows from height and position alone. -/
lemma placeOf_congr {u v : UnspentTx} (hheight : v.height = u.height) (hindex : v.index = u.index)
    (h : l.placeOf chain u = .ok place) : l.placeOf chain v = .ok place := by
  unfold placeOf at h ⊢
  rw [hheight, hindex]
  split
  next heq => rwa [if_pos heq] at h
  next heq =>
    rw [if_neg heq] at h
    cases hget : chain.get? u.height with
    | none =>
      rw [hget] at h
      exact nomatch h
    | some header =>
      rw [hget] at h
      exact h

end Locator

namespace Transaction

/-- The inputs that spend something. -/
def spending (tx : Transaction) : List TxInput := if tx.isCoinbase then [] else tx.inputs

lemma length_spending_le (tx : Transaction) : tx.spending.length ≤ tx.inputs.length := by
  unfold spending
  split <;> simp

/-- The names of the transactions that are spent from, input by input. -/
def sourceNames (tx : Transaction) : List Hash := tx.spending.map fun input => input.prevout.hash

/-- The sources of a transaction with their places. -/
def mentions (tx : Transaction) (places : List TxLocation) : List (Hash × TxLocation) :=
  tx.sourceNames.zip places

/-- No transaction that leaves a record bears a name of the list, or one that a transaction before
it spends from. -/
def NoneReturns (names : List Hash) : List Transaction → Prop
  | [] => True
  | tx :: rest => (tx.outputs ≠ [] → tx.hash ∉ names) ∧ NoneReturns (names ++ tx.sourceNames) rest

lemma noneReturns_iff {names : List Hash} {txs : List Transaction} : NoneReturns names txs ↔
    (∀ tx ∈ txs, tx.outputs ≠ [] → tx.hash ∉ names) ∧
      txs.Pairwise fun earlier later => later.outputs ≠ [] → later.hash ∉ earlier.sourceNames := by
  induction txs generalizing names with
  | nil => simp [NoneReturns]
  | cons tx rest ih =>
    simp only [NoneReturns, ih, List.mem_append, not_or, List.forall_mem_cons, List.pairwise_cons]
    constructor
    · rintro ⟨hfirst, hrest, hpairs⟩
      exact ⟨⟨hfirst, fun t ht ho => (hrest t ht ho).1⟩, fun t ht ho => (hrest t ht ho).2, hpairs⟩
    · rintro ⟨⟨hfirst, hnames⟩, hsources, hpairs⟩
      exact ⟨hfirst, fun t ht ho => ⟨hnames t ht ho, hsources t ht ho⟩, hpairs⟩

end Transaction

namespace Journal

/-- The sources of a list of transactions with the places that a journal keeps for them. -/
def mentions (txs : List Transaction) (entries : UnmintedList) : List (Hash × TxLocation) :=
  (txs.zip entries).flatMap fun e => e.1.mentions e.2.sources

/-- The entries are those of the transactions. -/
def Describes (entries : UnmintedList) (txs : List Transaction) : Prop :=
  List.Forall₂ (fun u tx => u.hash = tx.hash ∧ u.sources.length = tx.spending.length) entries txs

lemma Describes.exists_of_mem {entries : UnmintedList} {txs : List Transaction} {u : UnmintedTx}
    (h : Describes entries txs) (hu : u ∈ entries) :
    ∃ tx ∈ txs, u.hash = tx.hash ∧ u.sources.length = tx.spending.length := by
  induction h with
  | nil => simp at hu
  | cons hentry _ ih =>
    rcases List.mem_cons.1 hu with rfl | hu
    · exact ⟨_, List.mem_cons_self, hentry⟩
    · obtain ⟨tx, htx, h⟩ := ih hu
      exact ⟨tx, List.mem_cons_of_mem _ htx, h⟩

end Journal

namespace Connecting

variable {c c' : Connecting} {start U U' : Table} {o : OutPoint} {source tx : Transaction}
  {place : TxLocation} {name : Hash} {inputs : List TxInput} {sources txs : List Transaction}
  {places : List TxLocation} {mentions : List (Hash × TxLocation)} {ld : LoadedTx}
  {loaded : List LoadedTx}

lemma spentStates_eq_ok {u : UnspentTx} {states : OutputStates} :
    spentStates u o = .ok states ↔ u.states.get? o.index.toNat = some .unspent ∧
      u.states.set? o.index.toNat .spent = some states := by
  unfold spentStates
  cases u.states.get? o.index.toNat with
  | none => simp
  | some v =>
    cases v with
    | spent => simp
    | unspent => cases u.states.set? o.index.toNat .spent <;> simp

lemma size_of_spentStates {u : UnspentTx} {states : OutputStates}
    (h : spentStates u o = .ok states) : states.size = u.states.size :=
  (OutputStates.set?_eq_some (spentStates_eq_ok.1 h).2).2.1

/-- Every record stands where its transaction is, with as many states as that has outputs. -/
def Grounded (l : Locator) (chain : Chain) (U : Table) : Prop :=
  ∀ (k : Bytes) (u : UnspentTx), U[k]? = some u.encode → u.states.size < 2 ^ 32 →
    ∃ place tx, l.placeOf chain u = .ok place ∧ l.resolve place u.hash = .ok tx ∧
      tx.outputs.length = u.states.size

/-- What a spend finds: the record of the very transaction that the outpoint names. -/
structure Spendable (c : Connecting) (o : OutPoint) (U : Table) (u : UnspentTx)
    (states : OutputStates) (lowered : Counters) (source : Transaction) (place : TxLocation) :
    Prop where
  name : u.hash = o.hash
  found : U[o.hash.bytes]? = some u.encode
  size_lt : u.states.size < 2 ^ 32
  spent : spentStates u o = .ok states
  outputs : c.counters.lower .unspentOutputs 1 = .ok lowered
  located : c.locator.placeOf c.chain u = .ok place
  resolved : c.locator.resolve place o.hash = .ok source
  length : source.outputs.length = u.states.size

/-- A spend among grounded records. -/
inductive SpendsOwn (c : Connecting) (o : OutPoint) (U : Table) (source : Transaction)
    (place : TxLocation) : Connecting → Table → Prop
  | last {u : UnspentTx} {states : OutputStates} {lowered counters : Counters}
      (own : Spendable c o U u states lowered source place) (gone : states.allSpent = true)
      (txs : lowered.lower .unspentTxs 1 = .ok counters) : SpendsOwn c o U source place
        { c with counters, journal := c.journal.noteSpent o.hash } (U.erase o.hash.bytes)
  | more {u : UnspentTx} {states : OutputStates} {lowered : Counters}
      (own : Spendable c o U u states lowered source place) (left : states.allSpent = false) :
      SpendsOwn c o U source place { c with counters := lowered }
        (U.insert o.hash.bytes { u with states }.encode)

lemma Grounded.spendable (hg : Grounded c.locator c.chain U) {u : UnspentTx}
    {states : OutputStates} {lowered : Counters} (found : U[o.hash.bytes]? = some u.encode)
    (size_lt : u.states.size < 2 ^ 32) (spent : spentStates u o = .ok states)
    (outputs : c.counters.lower .unspentOutputs 1 = .ok lowered)
    (located : c.locator.placeOf c.chain u = .ok place)
    (resolved : c.locator.resolve place o.hash = .ok source) :
    Spendable c o U u states lowered source place := by
  obtain ⟨place', tx, hplace, hresolve, hlength⟩ := hg _ u found size_lt
  cases located.symm.trans hplace
  obtain ⟨-, htx, hname⟩ := Locator.resolve_eq_ok.1 hresolve
  obtain ⟨-, hsource, hname'⟩ := Locator.resolve_eq_ok.1 resolved
  cases htx.symm.trans hsource
  exact ⟨hname.symm.trans hname', found, size_lt, spent, outputs, located, resolved, hlength⟩

lemma Spends.own (hg : Grounded c.locator c.chain U) (h : Spends c o U source place c' U') :
    SpendsOwn c o U source place c' U' := by
  cases h with
  | last found size_lt spent outputs located gone present txs resolved =>
    have own := hg.spendable found size_lt spent outputs located resolved
    rw [own.name]
    exact .last own gone txs
  | @more u _ _ _ _ _ found size_lt spent outputs located left present stored_lt resolved =>
    have own := hg.spendable found size_lt spent outputs located resolved
    rw [own.name, found, Option.some.injEq, UnspentTx.encode_inj size_lt stored_lt] at present
    subst present
    have hkey : u.hash.bytes = o.hash.bytes := by rw [own.name]
    rw [hkey]
    exact .more own left

lemma SpendsOwn.spendable (h : SpendsOwn c o U source place c' U') :
    ∃ u states lowered, Spendable c o U u states lowered source place := by
  cases h with
  | last own => exact ⟨_, _, _, own⟩
  | more own => exact ⟨_, _, _, own⟩

/-- A spend touches no other record. -/
lemma SpendsOwn.elsewhere {k : Bytes} (h : SpendsOwn c o U source place c' U')
    (hk : o.hash.bytes ≠ k) : U'[k]? = U[k]? := by
  cases h with
  | last => rw [Table.getElem?_erase, if_neg hk]
  | more => rw [Table.getElem?_insert, if_neg hk]

/-- The two connections are at the same block and have listed the same transactions of it. -/
structure SameBlock (c c' : Connecting) : Prop where
  locator : c'.locator = c.locator
  chain : c'.chain = c.chain
  unminted : c'.journal.unminted = c.journal.unminted
  minted : c'.minted = c.minted
  position : c'.position = c.position

lemma SameBlock.trans {c₁ c₂ c₃ : Connecting} (h : SameBlock c₁ c₂) (h' : SameBlock c₂ c₃) :
    SameBlock c₁ c₃ :=
  ⟨h'.locator.trans h.locator, h'.chain.trans h.chain, h'.unminted.trans h.unminted,
    h'.minted.trans h.minted, h'.position.trans h.position⟩

lemma Spends.sameBlock (h : Spends c o U source place c' U') : SameBlock c c' := by
  cases h <;> exact ⟨rfl, rfl, rfl, rfl, rfl⟩

lemma SpendsAll.sameBlock (h : SpendsAll c inputs U sources places c' U') : SameBlock c c' := by
  induction h with
  | nil => exact ⟨rfl, rfl, rfl, rfl, rfl⟩
  | cons first _ ih => exact first.sameBlock.trans ih

lemma SpendsAll.length_eq (h : SpendsAll c inputs U sources places c' U') :
    places.length = inputs.length := by
  induction h with
  | nil => rfl
  | cons _ _ ih => simp [ih]

lemma Mints.sameBlock (h : Mints c tx name U c' U') : SameBlock c c' ∧ c'.journal = c.journal := by
  cases h <;> exact ⟨⟨rfl, rfl, rfl, rfl, rfl⟩, rfl⟩

lemma SpendsOwn.grounded (hg : Grounded c.locator c.chain U)
    (h : SpendsOwn c o U source place c' U') : Grounded c'.locator c'.chain U' := by
  intro k v hk hv
  cases h with
  | last own =>
    rw [Table.getElem?_erase] at hk
    split at hk
    · exact nomatch hk
    · exact hg k v hk hv
  | @more u states _ own =>
    rw [Table.getElem?_insert] at hk
    split at hk
    · have hsize := size_of_spentStates own.spent
      have heq : ({ u with states } : UnspentTx) = v :=
        (UnspentTx.encode_inj (hsize ▸ own.size_lt) hv).1 (Option.some.inj hk)
      subst heq
      refine ⟨place, source, Locator.placeOf_congr rfl rfl own.located, ?_, ?_⟩
      · rw [own.name]
        exact own.resolved
      · rw [own.length, ← hsize]
    · exact hg k v hk hv

/-- The next record leads to the next transaction. -/
lemma record_resolved (hat : c.locator.block.txs[c.position]? = some tx)
    (hposition : c.position < 2 ^ 31) :
    ∃ place, c.locator.placeOf c.chain (c.record tx tx.hash) = .ok place ∧
      c.locator.resolve place tx.hash = .ok tx := by
  have hindex : (Int32.ofNat c.position).toInt = c.position := Int32.toInt_ofNat_of_lt hposition
  refine ⟨⟨c.locator.header.hash, c.locator.header.height, Int32.ofNat c.position⟩, if_pos rfl, ?_⟩
  rw [Locator.resolve_eq_ok, hindex]
  refine ⟨Int.natCast_nonneg _, ?_, rfl⟩
  rw [Locator.txAt?, if_pos rfl, hindex, Int.toNat_natCast, hat]

lemma Mints.grounded (hg : Grounded c.locator c.chain U) (h : Mints c tx tx.hash U c' U')
    (hat : c.locator.block.txs[c.position]? = some tx) (hposition : c.position < 2 ^ 31)
    (hlength : tx.outputs.length < 2 ^ 32) : Grounded c'.locator c'.chain U' := by
  cases h with
  | empty => exact hg
  | enters =>
    intro k u hk hu
    rw [Table.getElem?_insert] at hk
    split at hk
    · have heq : c.record tx tx.hash = u := (UnspentTx.encode_inj hlength hu).1 (Option.some.inj hk)
      subst heq
      obtain ⟨place, located, resolved⟩ := record_resolved hat hposition
      exact ⟨place, tx, located, resolved, rfl⟩
    · exact hg k u hk hu

/-- Spends of a list of inputs among grounded records. -/
inductive SpendsAllOwn : Connecting → List TxInput → Table → List Transaction →
    List TxLocation → Connecting → Table → Prop
  | nil (c : Connecting) (U : Table) : SpendsAllOwn c [] U [] [] c U
  | cons {c c₁ c₂ : Connecting} {input : TxInput} {rest : List TxInput} {U U₁ U₂ : Table}
      {source : Transaction} {place : TxLocation} {sources : List Transaction}
      {places : List TxLocation} (first : SpendsOwn c input.prevout U source place c₁ U₁)
      (more : SpendsAllOwn c₁ rest U₁ sources places c₂ U₂) :
      SpendsAllOwn c (input :: rest) U (source :: sources) (place :: places) c₂ U₂

lemma SpendsAll.own (hg : Grounded c.locator c.chain U)
    (h : SpendsAll c inputs U sources places c' U') :
    SpendsAllOwn c inputs U sources places c' U' := by
  induction h with
  | nil => exact .nil _ _
  | cons first _ ih =>
    have hfirst := first.own hg
    exact .cons hfirst (ih (hfirst.grounded hg))

lemma SpendsAllOwn.grounded (hg : Grounded c.locator c.chain U)
    (h : SpendsAllOwn c inputs U sources places c' U') : Grounded c'.locator c'.chain U' := by
  induction h with
  | nil => exact hg
  | cons first _ ih => exact ih (first.grounded hg)

/-- A name that is not recorded is not spent from, and spending does not bring it back. -/
lemma SpendsAllOwn.free (h : SpendsAllOwn c inputs U sources places c' U')
    (free : U[name.bytes]? = none) :
    U'[name.bytes]? = none ∧ ∀ input ∈ inputs, input.prevout.hash ≠ name := by
  induction h with
  | nil => exact ⟨free, by simp⟩
  | @cons c c₁ c₂ input rest U U₁ U₂ _ _ _ _ first _ ih =>
    obtain ⟨u, states, lowered, own⟩ := first.spendable
    have hne : input.prevout.hash ≠ name := by
      rintro rfl
      exact nomatch free.symm.trans own.found
    have hfirst : U₁[name.bytes]? = none := by
      rw [first.elsewhere fun hkey => hne (Hash.bytes_inj.1 hkey), free]
    obtain ⟨hfree, hrest⟩ := ih hfirst
    exact ⟨hfree, by simpa using ⟨hne, hrest⟩⟩

/-- An entry under the key is a record. -/
def Readable (U : Table) (k : Bytes) : Prop :=
  ∀ bytes, U[k]? = some bytes → ∃ u : UnspentTx, bytes = u.encode ∧ u.states.size < 2 ^ 32

lemma readable_of_found {u : UnspentTx} {k : Bytes} (found : U[k]? = some u.encode)
    (size_lt : u.states.size < 2 ^ 32) : Readable U k := by
  intro bytes hbytes
  cases found.symm.trans hbytes
  exact ⟨u, rfl, size_lt⟩

/-- The block that began at `start` has mentioned its sources so far with these places. -/
structure Settled (start : Table) (mentions : List (Hash × TxLocation)) (c : Connecting)
    (U : Table) : Prop where
  grounded : Grounded c.locator c.chain U
  gone : ∀ name ∈ c.journal.spent, U[name.bytes]? = none
  nodup : c.journal.spent.Nodup
  mentioned : ∀ name place, (name, place) ∈ mentions → name ∈ c.journal.spent ∨
    ∃ u : UnspentTx, U[name.bytes]? = some u.encode ∧ u.states.size < 2 ^ 32 ∧
      c.locator.placeOf c.chain u = .ok place
  agree : ∀ name place place', (name, place) ∈ mentions → (name, place') ∈ mentions →
    place = place'
  resolved : ∀ name place, (name, place) ∈ mentions →
    ∃ source, c.locator.resolve place name = .ok source
  listed : ∀ name ∈ c.journal.spent, ∃ place, (name, place) ∈ mentions
  since : ∀ k, Readable U k → Readable start k
  readable : ∀ name ∈ c.journal.spent, Readable start name.bytes

lemma Settled.notMem (hs : Settled start mentions c U) {v : Bytes}
    (found : U[name.bytes]? = some v) : name ∉ c.journal.spent :=
  fun hmem => nomatch (hs.gone name hmem).symm.trans found

/-- Counting, and listing transactions of the block, does not touch the invariant. -/
lemma Settled.congr (hs : Settled start mentions c U) (hlocator : c'.locator = c.locator)
    (hchain : c'.chain = c.chain) (hspent : c'.journal.spent = c.journal.spent) :
    Settled start mentions c' U := by
  obtain ⟨h1, h2, h3, h4, h5, h6, h7, h8, h9⟩ := hs
  constructor <;> simpa only [hlocator, hchain, hspent]

/-- A source that is still recorded was mentioned with the place of its record. -/
lemma Settled.place_eq (hs : Settled start mentions c U) {u : UnspentTx}
    {place place' : TxLocation} (found : U[name.bytes]? = some u.encode)
    (size_lt : u.states.size < 2 ^ 32) (located : c.locator.placeOf c.chain u = .ok place)
    (hmem : (name, place') ∈ mentions) : place' = place := by
  rcases hs.mentioned name place' hmem with hspent | ⟨v, hv, hlt, hplace⟩
  · exact absurd hspent (hs.notMem found)
  · rw [found, Option.some.injEq, UnspentTx.encode_inj size_lt hlt] at hv
    subst hv
    exact Except.ok.inj (hplace.symm.trans located)

lemma Settled.agree_append (hs : Settled start mentions c U) {u : UnspentTx} {place : TxLocation}
    (found : U[name.bytes]? = some u.encode) (size_lt : u.states.size < 2 ^ 32)
    (located : c.locator.placeOf c.chain u = .ok place) :
    ∀ n p p', (n, p) ∈ mentions ++ [(name, place)] → (n, p') ∈ mentions ++ [(name, place)] →
      p = p' := by
  intro n p p' hp hp'
  simp only [List.mem_append, List.mem_singleton, Prod.mk.injEq] at hp hp'
  rcases hp with hp | ⟨rfl, rfl⟩ <;> rcases hp' with hp' | ⟨hn, rfl⟩
  · exact hs.agree n p p' hp hp'
  · subst hn
    exact hs.place_eq found size_lt located hp
  · exact (hs.place_eq found size_lt located hp').symm
  · rfl

/-- Spending makes nothing readable that was not. -/
lemma Settled.since_spend (hs : Settled start mentions c U)
    (h : SpendsOwn c o U source place c' U') : ∀ k, Readable U' k → Readable start k := by
  obtain ⟨u, states, lowered, own⟩ := h.spendable
  intro k hk
  by_cases hkey : o.hash.bytes = k
  · exact hs.since k (hkey ▸ readable_of_found own.found own.size_lt)
  · exact hs.since k fun bytes hbytes => hk bytes (by rw [h.elsewhere hkey, hbytes])

/-- The sources mentioned under other names are where they were. -/
lemma Settled.mentioned_spend (hs : Settled start mentions c U)
    (h : SpendsOwn c o U source place c' U') {p : TxLocation} (hname : name ≠ o.hash)
    (hmem : (name, p) ∈ mentions ++ [(o.hash, place)]) :
    name ∈ c.journal.spent ∨ ∃ v : UnspentTx, U'[name.bytes]? = some v.encode ∧
      v.states.size < 2 ^ 32 ∧ c.locator.placeOf c.chain v = .ok p := by
  rw [h.elsewhere fun hkey => hname (Hash.bytes_inj.1 hkey).symm]
  simp only [List.mem_append, List.mem_singleton, Prod.mk.injEq, hname, false_and, or_false]
    at hmem
  exact hs.mentioned name p hmem

lemma Settled.spend (hs : Settled start mentions c U) (h : SpendsOwn c o U source place c' U') :
    Settled start (mentions ++ [(o.hash, place)]) c' U' := by
  obtain ⟨u, states, lowered, own⟩ := h.spendable
  have hgrounded := h.grounded hs.grounded
  have hsince := hs.since_spend h
  have hagree := hs.agree_append own.found own.size_lt own.located
  have hnew := hs.notMem own.found
  have hothers : ∀ name p, name ≠ o.hash → (name, p) ∈ mentions ++ [(o.hash, place)] → _ :=
    fun name p => hs.mentioned_spend h
  have hresolved : ∀ name p, (name, p) ∈ mentions ++ [(o.hash, place)] →
      ∃ source, c.locator.resolve p name = .ok source := by
    intro name p hmem
    simp only [List.mem_append, List.mem_singleton, Prod.mk.injEq] at hmem
    rcases hmem with hmem | ⟨rfl, rfl⟩
    · exact hs.resolved name p hmem
    · exact ⟨source, own.resolved⟩
  have hlisted : ∀ name ∈ c.journal.spent, ∃ p, (name, p) ∈ mentions ++ [(o.hash, place)] := by
    intro name hname
    obtain ⟨p, hp⟩ := hs.listed name hname
    exact ⟨p, List.mem_append_left _ hp⟩
  have hlast : (o.hash, place) ∈ mentions ++ [(o.hash, place)] :=
    List.mem_append_right _ (List.mem_singleton_self _)
  cases h with
  | last =>
    refine ⟨hgrounded, ?_, ?_, ?_, hagree, hresolved, ?_, hsince, ?_⟩
    · intro name hname
      rw [Table.getElem?_erase]
      split
      · rfl
      next hne =>
        rcases List.mem_append.1 hname with hname | hname
        · exact hs.gone name hname
        · rw [List.mem_singleton.1 hname] at hne
          exact absurd rfl hne
    · exact List.nodup_append.2 ⟨hs.nodup, List.nodup_singleton _, fun a ha b hb heq =>
        hnew (List.mem_singleton.1 hb ▸ heq ▸ ha)⟩
    · intro name p hmem
      by_cases hname : name = o.hash
      · exact .inl (List.mem_append_right _ (List.mem_singleton.2 hname))
      · exact (hothers name p hname hmem).imp (List.mem_append_left _) id
    · intro name hname
      rcases List.mem_append.1 hname with hname | hname
      · exact hlisted name hname
      · rw [List.mem_singleton.1 hname]
        exact ⟨place, hlast⟩
    · intro name hname
      rcases List.mem_append.1 hname with hname | hname
      · exact hs.readable name hname
      · rw [List.mem_singleton.1 hname]
        exact hs.since _ (readable_of_found own.found own.size_lt)
  | @more u states lowered own =>
    refine ⟨hgrounded, ?_, hs.nodup, ?_, hagree, hresolved, hlisted, hsince, hs.readable⟩
    · intro name hname
      rw [Table.getElem?_insert, if_neg, hs.gone name hname]
      intro hkey
      rw [← Hash.bytes_inj.1 hkey] at hname
      exact hnew hname
    · intro name p hmem
      by_cases hname : name = o.hash
      · subst hname
        obtain rfl := hagree _ _ _ hmem hlast
        have hsize := size_of_spentStates own.spent
        refine .inr ⟨{ u with states }, ?_, hsize ▸ own.size_lt, ?_⟩
        · rw [Table.getElem?_insert, if_pos rfl]
        · exact Locator.placeOf_congr rfl rfl own.located
      · exact hothers name p hname hmem

lemma Settled.spendAll (hs : Settled start mentions c U)
    (h : SpendsAllOwn c inputs U sources places c' U') :
    Settled start (mentions ++ (inputs.map fun input => input.prevout.hash).zip places) c' U' := by
  induction h generalizing mentions with
  | nil => simpa using hs
  | cons first _ ih => simpa using ih (hs.spend first)

lemma Settled.mint (hs : Settled start mentions c U) (h : Mints c tx tx.hash U c' U')
    (hnew : tx.outputs ≠ [] → tx.hash ∉ mentions.map Prod.fst)
    (hat : c.locator.block.txs[c.position]? = some tx) (hposition : c.position < 2 ^ 31)
    (hlength : tx.outputs.length < 2 ^ 32) : Settled start mentions c' U' := by
  have hgrounded := h.grounded hs.grounded hat hposition hlength
  cases h with
  | empty => exact hs
  | enters some free =>
    have hne {name : Hash} {p : TxLocation} (hmem : (name, p) ∈ mentions) :
        tx.hash.bytes ≠ name.bytes := by
      intro heq
      have hname := Hash.bytes_inj.1 heq
      exact hnew some (List.mem_map.2 ⟨_, hmem, hname.symm⟩)
    refine ⟨hgrounded, ?_, hs.nodup, ?_, hs.agree, hs.resolved, hs.listed, ?_, hs.readable⟩
    · intro name hname
      obtain ⟨p, hp⟩ := hs.listed name hname
      rw [Table.getElem?_insert, if_neg (hne hp), hs.gone name hname]
    · intro name p hmem
      rcases hs.mentioned name p hmem with hspent | ⟨v, hv, hlt, hplace⟩
      · exact .inl hspent
      · refine .inr ⟨v, ?_, hlt, hplace⟩
        rw [Table.getElem?_insert, if_neg (hne hmem), hv]
    · intro k hk
      refine hs.since k fun bytes hbytes => hk bytes ?_
      rw [Table.getElem?_insert, if_neg, hbytes]
      rintro rfl
      exact nomatch free.symm.trans hbytes

/-- What a connected transaction leaves behind, beside the records. -/
structure After (c : Connecting) (tx : Transaction) (places : List TxLocation) (c' : Connecting) :
    Prop where
  locator : c'.locator = c.locator
  chain : c'.chain = c.chain
  position : c'.position = c.position + 1
  unminted : c'.journal.unminted = c.journal.unminted ++ [⟨tx.hash, places⟩]
  length : places.length = tx.spending.length

lemma After.names (h : After c tx places c') (mentions : List (Hash × TxLocation)) :
    (mentions ++ tx.mentions places).map Prod.fst = mentions.map Prod.fst ++ tx.sourceNames := by
  rw [List.map_append, Transaction.mentions, List.map_fst_zip]
  rw [h.length, Transaction.sourceNames, List.length_map]

lemma After.pending (h : After c tx places c')
    (hat : c.locator.block.txs.drop c.position = tx :: txs) :
    c'.locator.block.txs.drop c'.position = txs := by
  rw [h.locator, h.position, ← List.tail_drop, hat]
  rfl

/-- The spends and the mint of a transaction that does not come back under a name already spent
from. -/
lemma Settled.spend_mint {c₁ c₂ : Connecting} {U₁ U₂ : Table} (hs : Settled start mentions c U)
    (free : U[tx.hash.bytes]? = none)
    (spends : SpendsAll { c with minted := c.minted.insert tx.hash } tx.spending U sources places
      c₁ U₁) (mints : Mints c₁ tx tx.hash U₁ c₂ U₂)
    (hnew : tx.outputs ≠ [] → tx.hash ∉ mentions.map Prod.fst)
    (hat : c.locator.block.txs[c.position]? = some tx) (hposition : c.position < 2 ^ 31)
    (hlength : tx.outputs.length < 2 ^ 32) :
    SpendsAllOwn { c with minted := c.minted.insert tx.hash } tx.spending U sources places c₁ U₁ ∧
      Settled start (mentions ++ tx.mentions places) c₂ U₂ := by
  have hblock := spends.sameBlock
  have own := spends.own (by exact hs.grounded)
  have hnames : tx.hash ∉ tx.sourceNames := by
    intro hmem
    obtain ⟨input, hinput, heq⟩ := List.mem_map.1 hmem
    exact (own.free free).2 input hinput heq
  have hs₀ : Settled start mentions { c with minted := c.minted.insert tx.hash } U :=
    hs.congr rfl rfl rfl
  refine ⟨own, (hs₀.spendAll own).mint mints (fun ho hmem => ?_) ?_ ?_ hlength⟩
  · rw [List.map_append, List.mem_append] at hmem
    rcases hmem with hmem | hmem
    · exact hnew ho hmem
    · obtain ⟨⟨name, p⟩, hp, heq⟩ := List.mem_map.1 hmem
      exact hnames (heq ▸ (List.of_mem_zip hp).1)
  · rw [hblock.locator, hblock.position]
    exact hat
  · rw [hblock.position]
    exact hposition

lemma Connects.after (h : Connects c tx U ld c' U') : ∃ places, After c tx places c' := by
  obtain ⟨-, -, spends, mints⟩ := h
  rename_i sources places c₁ c₂ U₁
  have hblock := spends.sameBlock
  have hblock' := mints.sameBlock.1
  refine ⟨places, ?_, ?_, ?_, ?_, spends.length_eq⟩
  · exact hblock'.locator.trans hblock.locator
  · exact hblock'.chain.trans hblock.chain
  · exact congrArg (· + 1) (hblock'.position.trans hblock.position)
  · exact congrArg (· ++ [_]) (hblock'.unminted.trans hblock.unminted)

lemma Connects.minted (h : Connects c tx U ld c' U') : c'.minted = c.minted.insert tx.hash := by
  obtain ⟨-, -, spends, mints⟩ := h
  exact mints.sameBlock.1.minted.trans spends.sameBlock.minted

/-- Of what is left of the block, the first transaction is at hand, and the rest follows. -/
lemma Connects.next (h : Connects c tx U ld c' U')
    (hat : c.locator.block.txs.drop c.position = tx :: txs)
    (hcount : c.locator.block.txs.length ≤ 2 ^ 31) :
    c.locator.block.txs[c.position]? = some tx ∧ c.position < 2 ^ 31 ∧
      c'.locator.block.txs.drop c'.position = txs ∧ c'.locator.block.txs.length ≤ 2 ^ 31 := by
  obtain ⟨places, hafter⟩ := h.after
  have htx := getElem?_of_drop hat
  refine ⟨htx, (List.getElem?_eq_some_iff.1 htx).1.trans_le hcount, hafter.pending hat, ?_⟩
  rw [hafter.locator]
  exact hcount

lemma ConnectsAll.unminted_prefix (h : ConnectsAll c txs U loaded c' U') :
    c.journal.unminted <+: c'.journal.unminted := by
  induction h with
  | nil => exact List.prefix_refl _
  | cons first _ ih =>
    obtain ⟨places, hafter⟩ := first.after
    rw [hafter.unminted] at ih
    exact (List.prefix_append _ _).trans ih

/-- A transaction that does not come back under a name already spent from keeps the invariant. -/
lemma Settled.connect (hs : Settled start mentions c U) (h : Connects c tx U ld c' U')
    (hafter : After c tx places c') (hnew : tx.outputs ≠ [] → tx.hash ∉ mentions.map Prod.fst)
    (hat : c.locator.block.txs[c.position]? = some tx) (hposition : c.position < 2 ^ 31)
    (hlength : tx.outputs.length < 2 ^ 32) :
    Settled start (mentions ++ tx.mentions places) c' U' := by
  obtain ⟨-, free, spends, mints⟩ := h
  rename_i sources found c₁ c₂ U₁
  have hs₂ := (hs.spend_mint free spends mints hnew hat hposition hlength).2
  have hunminted : c₂.journal.unminted = c.journal.unminted :=
    mints.sameBlock.1.unminted.trans spends.sameBlock.unminted
  have hfound : found = places := by
    have heq := hafter.unminted
    change c₂.journal.unminted ++ [⟨tx.hash, found⟩] = _ at heq
    rw [hunminted] at heq
    simpa using List.append_cancel_left heq
  subst hfound
  exact hs₂.congr rfl rfl rfl

/-- A name is listed as spent, and recorded again or listed a second time. -/
def Doubled (name : Hash) (c : Connecting) (U : Table) : Prop :=
  name ∈ c.journal.spent ∧ (U[name.bytes]? = none → 2 ≤ c.journal.spent.count name)

lemma Doubled.spend (hd : Doubled name c U) (h : Spends c o U source place c' U') :
    Doubled name c' U' := by
  cases h with
  | @last u _ _ _ _ _ _ _ _ _ _ gone present =>
    refine ⟨List.mem_append_left _ hd.1, fun hnone => ?_⟩
    rw [Table.getElem?_erase] at hnone
    change 2 ≤ (c.journal.spent ++ [u.hash]).count name
    rw [List.count_append]
    by_cases hu : u.hash = name
    · have hpos := List.count_pos_iff.2 hd.1
      rw [hu, List.count_singleton_self]
      omega
    · rw [if_neg (fun h => hu (Hash.bytes_inj.1 h))] at hnone
      exact Nat.le_add_right_of_le (hd.2 hnone)
  | more =>
    refine ⟨hd.1, fun hnone => hd.2 ?_⟩
    rw [Table.getElem?_insert] at hnone
    split at hnone
    · exact nomatch hnone
    · exact hnone

lemma Doubled.spendAll (hd : Doubled name c U) (h : SpendsAll c inputs U sources places c' U') :
    Doubled name c' U' := by
  induction h with
  | nil => exact hd
  | cons first _ ih => exact ih (hd.spend first)

lemma Doubled.connect (hd : Doubled name c U) (h : Connects c tx U ld c' U') :
    Doubled name c' U' := by
  obtain ⟨-, -, spends, mints⟩ := h
  have hd₁ := Doubled.spendAll (by exact hd) spends
  cases mints with
  | empty => exact hd₁
  | enters =>
    refine ⟨hd₁.1, fun hnone => hd₁.2 ?_⟩
    rw [Table.getElem?_insert] at hnone
    split at hnone
    · exact nomatch hnone
    · exact hnone

lemma Doubled.connectAll (hd : Doubled name c U) (h : ConnectsAll c txs U loaded c' U') :
    Doubled name c' U' := by
  induction h with
  | nil => exact hd
  | cons first _ ih => exact ih (hd.connect first)

lemma SpendsAll.spent_subset (h : SpendsAll c inputs U sources places c' U') :
    c.journal.spent ⊆ c'.journal.spent := by
  induction h with
  | nil => exact List.Subset.refl _
  | cons first _ ih =>
    refine List.Subset.trans ?_ ih
    cases first with
    | last => exact List.subset_append_left _ _
    | more => exact List.Subset.refl _

/-- A transaction that comes back under a name already spent from: the record of that name had to be
gone, and is there again. -/
lemma Settled.doubled (hs : Settled start mentions c U) (h : Connects c tx U ld c' U')
    (houtputs : tx.outputs ≠ []) (hmem : tx.hash ∈ mentions.map Prod.fst) :
    Doubled tx.hash c' U' := by
  obtain ⟨-, free, spends, mints⟩ := h
  obtain ⟨⟨name, p⟩, hp, hname⟩ := List.mem_map.1 hmem
  cases hname
  have hspent : tx.hash ∈ c.journal.spent := by
    rcases hs.mentioned tx.hash p hp with hspent | ⟨u, hu, -, -⟩
    · exact hspent
    · exact nomatch free.symm.trans hu
  cases mints with
  | empty none => exact absurd none houtputs
  | enters =>
    refine ⟨spends.spent_subset hspent, fun hnone => ?_⟩
    rw [Table.getElem?_insert, if_pos rfl] at hnone
    exact nomatch hnone

/-- Over a whole block, either nothing comes back and the invariant holds to the end, or some name
is doubled. -/
theorem ConnectsAll.settled_or_doubled (h : ConnectsAll c txs U loaded c' U')
    (hs : Settled start mentions c U) (hat : c.locator.block.txs.drop c.position = txs)
    (hcount : c.locator.block.txs.length ≤ 2 ^ 31)
    (hlength : ∀ tx ∈ txs, tx.outputs.length < 2 ^ 32) :
    (Transaction.NoneReturns (mentions.map Prod.fst) txs ∧
      ∃ entries, c'.journal.unminted = c.journal.unminted ++ entries ∧
        Journal.Describes entries txs ∧ c'.locator = c.locator ∧ c'.chain = c.chain ∧
        Settled start (mentions ++ Journal.mentions txs entries) c' U') ∨
    (¬ Transaction.NoneReturns (mentions.map Prod.fst) txs ∧ ∃ name, Doubled name c' U') := by
  induction h generalizing mentions with
  | nil =>
    exact .inl ⟨trivial, [], by simp, .nil, rfl, rfl, by simpa [Journal.mentions] using hs⟩
  | @cons c c₁ c₂ tx rest U U₁ U₂ ld loaded first more ih =>
    by_cases hnew : tx.outputs ≠ [] → tx.hash ∉ mentions.map Prod.fst
    · obtain ⟨htx, hposition, hpending, hcount'⟩ := first.next hat hcount
      obtain ⟨places, hafter⟩ := first.after
      have hs₁ := hs.connect first hafter hnew htx hposition (hlength tx List.mem_cons_self)
      have hrest := ih hs₁ hpending hcount' fun t ht => hlength t (.tail _ ht)
      rw [hafter.names] at hrest
      rcases hrest with ⟨hnone, entries, hunminted, hdescribes, hlocator, hchain, hs₂⟩ | ⟨hnot, hd⟩
      · refine .inl ⟨⟨hnew, hnone⟩, ⟨tx.hash, places⟩ :: entries, ?_, ?_, ?_, ?_, ?_⟩
        · rw [hunminted, hafter.unminted, List.append_assoc]
          rfl
        · exact .cons ⟨rfl, hafter.length⟩ hdescribes
        · rw [hlocator, hafter.locator]
        · rw [hchain, hafter.chain]
        · simpa [Journal.mentions] using hs₂
      · exact .inr ⟨fun h => hnot h.2, hd⟩
    · refine .inr ⟨fun h => hnew h.1, tx.hash, ?_⟩
      simp only [ne_eq, Classical.not_imp, not_not] at hnew
      exact (hs.doubled first hnew.1 hnew.2).connectAll more

end Connecting
end UtxoLedger

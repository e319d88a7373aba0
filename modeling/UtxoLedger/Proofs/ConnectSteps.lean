import Mathlib.Tactic.Common
import UtxoLedger.Proofs.BlockWork
import UtxoLedger.Proofs.StoredRecords

/-!
# The steps of connecting a block

Up to the close, connecting a block touches the unspent table alone. Each step is told here as a
relation between that table before and after, together with everything that the step checked, and
the staged work succeeds exactly along these relations.
-/
namespace UtxoLedger

open StoreM

namespace StoreM

variable {t t' : Tables}

lemma staged_checkTip_bind_eq_ok {α : Type} {expected : Hash} {height : Height}
    {f : Unit → StoreM α} {a : α} : (checkTip expected height >>= f).staged t = .ok (a, t') ↔
      (∃ tip, t.tip? = .ok (some tip) ∧ tip.hash = expected ∧ tip.height = height) ∧
        (f ()).staged t = .ok (a, t') := by
  rw [checkTip, bind_assoc, staged_read_bind_eq_ok]
  constructor
  · rintro ⟨tip?, htip, h⟩
    cases tip? with
    | none => exact nomatch h
    | some tip =>
      obtain ⟨hok, h⟩ := staged_require_bind_eq_ok.1 h
      exact ⟨⟨tip, htip, of_decide_eq_true hok⟩, h⟩
  · rintro ⟨⟨tip, htip, hok⟩, h⟩
    exact ⟨some tip, htip, staged_require_bind_eq_ok.2 ⟨decide_eq_true hok, h⟩⟩

/-- An update takes place if there is a record to update. -/
lemma staged_tryUpdateUnspent_bind_eq_ok {α : Type} {u : UnspentTx} {f : Bool → StoreM α} {a : α} :
    (tryUpdateUnspent u >>= f).staged t = .ok (a, t') ↔
      (t.unspent? u.hash = .ok none ∧ (f false).staged t = .ok (a, t')) ∨
      ∃ stored : UnspentTx, t.unspent? u.hash = .ok (some stored) ∧
        (f true).staged (t.insert .unspent stored.hash.bytes
          { stored with states := u.states }.encode) = .ok (a, t') := by
  rw [tryUpdateUnspent, bind_assoc, staged_touch_bind, bind_assoc, staged_read_bind_eq_ok]
  constructor
  · rintro ⟨stored?, hstored, h⟩
    cases stored? with
    | none => exact .inl ⟨hstored, h⟩
    | some stored => exact .inr ⟨stored, hstored, h⟩
  · rintro (⟨hnone, h⟩ | ⟨stored, hstored, h⟩)
    · exact ⟨none, hnone, h⟩
    · exact ⟨some stored, hstored, h⟩

lemma staged_writeEach (values : Counters) (cs : List Counter) (t : Tables) :
    (writeEach values cs).staged t = .ok ((), t.writtenEach values cs) := by
  induction cs generalizing t with
  | nil => rfl
  | cons c cs ih =>
    have h : (writeEach values (c :: cs)).staged t = (writeEach values cs).staged
        (t.insert .counters (Bytes.ofText c.key) (Bytes.ofUInt64 (values.get c))) := rfl
    rw [h, ih]
    rfl

lemma staged_writeCounters (values : Counters) (t : Tables) :
    (writeCounters values).staged t = .ok ((), t.withCounters values) :=
  staged_writeEach values Counter.all t

lemma staged_addHeader_bind_eq_ok {α : Type} {h : ChainedHeader} {f : Unit → StoreM α} {a : α} :
    (addHeader h >>= f).staged t = .ok (a, t') ↔ t.headers[Height.key h.height]? = none ∧
      (f ()).staged { t with headers := t.headers.insert (Height.key h.height) h.encode } =
        .ok (a, t') := by
  rw [addHeader, bind_assoc, staged_tryInsert_bind]
  constructor
  · intro hadd
    split at hadd
    · exact nomatch (staged_require_bind_eq_ok.1 hadd).1
    next hfree =>
      have hfree := Table.contains_eq_false.1 (Bool.eq_false_iff.2 hfree)
      exact ⟨hfree, (staged_require_bind_eq_ok.1 hadd).2⟩
  · rintro ⟨hfree, hadd⟩
    refine (if_neg (Tables.not_contains hfree)).trans ?_
    exact staged_require_bind_eq_ok.2 ⟨rfl, hadd⟩

end StoreM

namespace Journal

variable {t : Tables}

lemma staged_writeSpent_of_free {height : Height} (h : t.spent[Height.key height]? = none)
    (txs : SpentList) : (writeSpent height txs).staged t =
      .ok ((), { t with spent := t.spent.insert (Height.key height) txs.encode }) := by
  rw [writeSpent, tryAddSpent, staged_tryInsert_bind]
  exact (if_neg (Tables.not_contains h)).trans rfl

lemma staged_writeUnminted_of_free {block : Hash} (h : t.unminted[block.bytes]? = none)
    (txs : UnmintedList) : (writeUnminted block txs).staged t =
      .ok ((), { t with unminted := t.unminted.insert block.bytes txs.encode }) := by
  rw [writeUnminted, tryAddUnminted, staged_tryInsert_bind]
  exact (if_neg (Tables.not_contains h)).trans rfl

lemma staged_write_of_free {header : ChainedHeader}
    (hspent : t.spent[Height.key header.height]? = none)
    (hunminted : t.unminted[header.hash.bytes]? = none) (j : Journal) :
    (j.write header).staged t = .ok ((), { t with
      spent := t.spent.insert (Height.key header.height) j.spent.encode
      unminted := t.unminted.insert header.hash.bytes j.unminted.encode }) := by
  rw [write, staged_bind, staged_writeSpent_of_free hspent]
  change (writeUnminted _ _).staged _ = _
  exact staged_writeUnminted_of_free (by exact hunminted) _

lemma staged_erase (header : ChainedHeader) (t : Tables) : (erase header).staged t =
    .ok ((t.containsSpent header.height, t.containsUnminted header.hash),
      t.withoutJournal header) := rfl

end Journal

lemma Locator.make_eq_ok {archive : Archive} {header : ChainedHeader} {block : Block}
    {l : Locator} : Locator.make archive header block = .ok l ↔
      block.hash = header.hash ∧ l = ⟨archive, header, block⟩ := by
  unfold make
  split
  next h => simp [h, eq_comm]
  next h => simp [h]

namespace Connecting

variable {c c' : Connecting} {t t' : Tables}

lemma staged_start_eq_ok {archive : Archive} {chain : Chain} {header : ChainedHeader}
    {block : Block} : (start archive chain header block).staged t = .ok (c, t') ↔
      header.Extends chain.tip ∧
      (∃ tip, t.tip? = .ok (some tip) ∧ tip.hash = chain.tip.hash ∧
        tip.height = chain.tip.height) ∧
      block.hash = header.hash ∧
      ∃ counters, t.readCounters = .ok counters ∧
        c = ⟨chain, ⟨archive, header, block⟩, .empty, counters, ∅, 0⟩ ∧ t' = t := by
  unfold start
  by_cases hx : header.Extends chain.tip
  · simp only [hx, not_true_eq_false, if_false, staged_checkTip_bind_eq_ok,
      staged_consistent_bind_eq_ok, staged_read_bind_eq_ok, Locator.make_eq_ok, staged_pure,
      Except.ok.injEq, Prod.mk.injEq, true_and]
    constructor
    · rintro ⟨htip, l, ⟨hhash, rfl⟩, counters, hcounters, rfl, rfl⟩
      exact ⟨htip, hhash, counters, hcounters, rfl, rfl⟩
    · rintro ⟨htip, hhash, counters, hcounters, rfl, rfl⟩
      exact ⟨htip, _, ⟨hhash, rfl⟩, counters, hcounters, rfl, rfl⟩
  · simp only [hx, not_false_eq_true, if_true, staged_fail_bind, false_and, reduceCtorEq]

/-- One output is spent out of `U`: the record goes with its last output, or stays with one output
less. -/
inductive Spends (c : Connecting) (o : OutPoint) (U : Table) :
    Transaction → TxLocation → Connecting → Table → Prop
  | last {u : UnspentTx} {states : OutputStates} {lowered counters : Counters}
      {place : TxLocation} {source : Transaction}
      (found : U[o.hash.bytes]? = some u.encode) (size_lt : u.states.size < 2 ^ 32)
      (spent : spentStates u o = .ok states)
      (outputs : c.counters.lower .unspentOutputs 1 = .ok lowered)
      (located : c.locator.placeOf c.chain u = .ok place)
      (gone : states.allSpent = true) (present : U.contains u.hash.bytes = true)
      (txs : lowered.lower .unspentTxs 1 = .ok counters)
      (resolved : c.locator.resolve place o.hash = .ok source) :
      Spends c o U source place { c with counters, journal := c.journal.noteSpent u.hash }
        (U.erase u.hash.bytes)
  | more {u stored : UnspentTx} {states : OutputStates} {lowered : Counters}
      {place : TxLocation} {source : Transaction}
      (found : U[o.hash.bytes]? = some u.encode) (size_lt : u.states.size < 2 ^ 32)
      (spent : spentStates u o = .ok states)
      (outputs : c.counters.lower .unspentOutputs 1 = .ok lowered)
      (located : c.locator.placeOf c.chain u = .ok place)
      (left : states.allSpent = false)
      (present : U[u.hash.bytes]? = some stored.encode) (stored_lt : stored.states.size < 2 ^ 32)
      (resolved : c.locator.resolve place o.hash = .ok source) :
      Spends c o U source place { c with counters := lowered }
        (U.insert stored.hash.bytes { stored with states }.encode)

lemma staged_spend_eq_ok {o : OutPoint} {source : Transaction} {place : TxLocation} :
    (c.spend o).staged t = .ok ((source, place, c'), t') ↔
      ∃ U, Spends c o t.unspent source place c' U ∧ t' = { t with unspent := U } := by
  rw [spend, staged_read_bind_eq_ok]
  constructor
  · rintro ⟨u?, hu, h⟩
    cases u? with
    | none => exact nomatch h
    | some u =>
      obtain ⟨found, size_lt⟩ := Tables.unspent?_eq_some.1 hu
      obtain ⟨states, spent, h⟩ := staged_consistent_bind_eq_ok.1 h
      obtain ⟨lowered, outputs, h⟩ := staged_consistent_bind_eq_ok.1 h
      obtain ⟨place', located, h⟩ := staged_consistent_bind_eq_ok.1 h
      cases hall : states.allSpent with
      | true =>
        rw [if_pos hall, tryRemoveUnspent, staged_tryErase_bind] at h
        obtain ⟨present, h⟩ := staged_require_bind_eq_ok.1 h
        obtain ⟨counters, txs, h⟩ := staged_consistent_bind_eq_ok.1 h
        obtain ⟨s, resolved, h⟩ := staged_consistent_bind_eq_ok.1 h
        cases h
        exact ⟨_, .last found size_lt spent outputs located hall present txs resolved, rfl⟩
      | false =>
        rw [if_neg (Bool.eq_false_iff.1 hall)] at h
        rcases staged_tryUpdateUnspent_bind_eq_ok.1 h with ⟨-, h⟩ | ⟨stored, hstored, h⟩
        · exact nomatch (staged_require_bind_eq_ok.1 h).1
        · obtain ⟨present, stored_lt⟩ := Tables.unspent?_eq_some.1 hstored
          obtain ⟨-, h⟩ := staged_require_bind_eq_ok.1 h
          obtain ⟨s, resolved, h⟩ := staged_consistent_bind_eq_ok.1 h
          cases h
          exact ⟨_, .more found size_lt spent outputs located hall present stored_lt resolved, rfl⟩
  · rintro ⟨U, h, rfl⟩
    cases h with
    | @last u states lowered counters place source found size_lt spent outputs located gone present
        txs resolved =>
      refine ⟨some u, Tables.unspent?_eq_some.2 ⟨found, size_lt⟩, ?_⟩
      refine staged_consistent_bind_eq_ok.2 ⟨states, spent, ?_⟩
      refine staged_consistent_bind_eq_ok.2 ⟨lowered, outputs, ?_⟩
      refine staged_consistent_bind_eq_ok.2 ⟨place, located, ?_⟩
      rw [if_pos gone, tryRemoveUnspent, staged_tryErase_bind]
      refine staged_require_bind_eq_ok.2 ⟨present, ?_⟩
      refine staged_consistent_bind_eq_ok.2 ⟨counters, txs, ?_⟩
      exact staged_consistent_bind_eq_ok.2 ⟨source, resolved, rfl⟩
    | @more u stored states lowered place source found size_lt spent outputs located left present
        stored_lt resolved =>
      refine ⟨some u, Tables.unspent?_eq_some.2 ⟨found, size_lt⟩, ?_⟩
      refine staged_consistent_bind_eq_ok.2 ⟨states, spent, ?_⟩
      refine staged_consistent_bind_eq_ok.2 ⟨lowered, outputs, ?_⟩
      refine staged_consistent_bind_eq_ok.2 ⟨place, located, ?_⟩
      rw [if_neg (Bool.eq_false_iff.1 left)]
      refine staged_tryUpdateUnspent_bind_eq_ok.2 (.inr ⟨stored, ?_, ?_⟩)
      · exact Tables.unspent?_eq_some.2 ⟨present, stored_lt⟩
      · refine staged_require_bind_eq_ok.2 ⟨rfl, ?_⟩
        exact staged_consistent_bind_eq_ok.2 ⟨source, resolved, rfl⟩

/-- The outputs of a list of inputs are spent one after the other. -/
inductive SpendsAll : Connecting → List TxInput → Table → List Transaction → List TxLocation →
    Connecting → Table → Prop
  | nil (c : Connecting) (U : Table) : SpendsAll c [] U [] [] c U
  | cons {c c₁ c₂ : Connecting} {input : TxInput} {rest : List TxInput} {U U₁ U₂ : Table}
      {source : Transaction} {place : TxLocation} {sources : List Transaction}
      {places : List TxLocation} (first : Spends c input.prevout U source place c₁ U₁)
      (more : SpendsAll c₁ rest U₁ sources places c₂ U₂) :
      SpendsAll c (input :: rest) U (source :: sources) (place :: places) c₂ U₂

lemma staged_spendAll_eq_ok {inputs : List TxInput} {sources : List Transaction}
    {places : List TxLocation} : (c.spendAll inputs).staged t = .ok ((sources, places, c'), t') ↔
      ∃ U, SpendsAll c inputs t.unspent sources places c' U ∧ t' = { t with unspent := U } := by
  induction inputs generalizing c t sources places with
  | nil =>
    constructor
    · intro h
      cases h
      exact ⟨_, .nil _ _, rfl⟩
    · rintro ⟨U, h, rfl⟩
      cases h
      rfl
  | cons input rest ih =>
    refine staged_bind_eq_ok.trans ?_
    constructor
    · rintro ⟨⟨source, place, c₁⟩, t1, hfirst, h⟩
      obtain ⟨U₁, first, rfl⟩ := staged_spend_eq_ok.1 hfirst
      obtain ⟨⟨sources, places, c₂⟩, t2, hmore, h⟩ := staged_bind_eq_ok.1 h
      cases h
      obtain ⟨U₂, more, rfl⟩ := ih.1 hmore
      exact ⟨U₂, .cons first more, rfl⟩
    · rintro ⟨U₂, h, rfl⟩
      cases h with
      | cons first more =>
        refine ⟨_, _, staged_spend_eq_ok.2 ⟨_, first, rfl⟩, ?_⟩
        exact staged_bind_eq_ok.2 ⟨_, _, ih.2 ⟨_, more, rfl⟩, rfl⟩

/-- The record that the next transaction starts with. -/
def record (c : Connecting) (tx : Transaction) (hash : Hash) : UnspentTx :=
  ⟨hash, c.locator.header.height, Int32.ofNat c.position, .filled tx.outputs.length .unspent⟩

/-- The outputs of a transaction enter `U`. -/
inductive Mints (c : Connecting) (tx : Transaction) (hash : Hash) (U : Table) :
    Connecting → Table → Prop
  | empty (none : tx.outputs = []) : Mints c tx hash U c U
  | enters (some : tx.outputs ≠ []) (free : U[hash.bytes]? = none) : Mints c tx hash U
      { c with counters := (c.counters.raise .unspentTxs 1).raise .unspentOutputs
                 tx.outputs.length }
      (U.insert hash.bytes (c.record tx hash).encode)

lemma staged_mint_eq_ok {tx : Transaction} {hash : Hash} :
    (c.mint tx hash).staged t = .ok (c', t') ↔
      ∃ U, Mints c tx hash t.unspent c' U ∧ t' = { t with unspent := U } := by
  unfold mint
  by_cases hempty : tx.outputs = []
  · rw [if_pos (by simp [hempty])]
    constructor
    · intro h
      cases h
      exact ⟨_, .empty hempty, rfl⟩
    · rintro ⟨U, h, rfl⟩
      cases h with
      | empty => rfl
      | enters some => exact absurd hempty some
  · rw [if_neg (by simpa using hempty)]
    change (tryInsert _ _ _ (c.record tx hash).encode >>= _).staged t = _ ↔ _
    rw [staged_tryInsert_bind]
    constructor
    · intro h
      split at h
      · exact nomatch (staged_require_bind_eq_ok.1 h).1
      next hfree =>
        cases (staged_require_bind_eq_ok.1 h).2
        have hfree := Table.contains_eq_false.1 (Bool.eq_false_iff.2 hfree)
        exact ⟨_, .enters hempty hfree, rfl⟩
    · rintro ⟨U, h, rfl⟩
      cases h with
      | empty none => exact absurd none hempty
      | enters some free =>
        refine (if_neg (Tables.not_contains free)).trans ?_
        exact staged_require_bind_eq_ok.2 ⟨rfl, rfl⟩

/-- The next transaction is connected. -/
inductive Connects (c : Connecting) (tx : Transaction) (U : Table) :
    LoadedTx → Connecting → Table → Prop
  | intro {sources : List Transaction} {places : List TxLocation} {c₁ c₂ : Connecting}
      {U₁ U₂ : Table} (new : c.minted.contains tx.hash = false)
      (free : U[tx.hash.bytes]? = none)
      (spends : SpendsAll { c with minted := c.minted.insert tx.hash }
        (if tx.isCoinbase then [] else tx.inputs) U sources places c₁ U₁)
      (mints : Mints c₁ tx tx.hash U₁ c₂ U₂) :
      Connects c tx U ⟨tx, tx.hash, c₂.position, tx.isCoinbase, sources⟩
        { c₂ with
          counters := ((c₂.counters.raise .txs 1).raise .inputs tx.inputs.length).raise .outputs
            tx.outputs.length
          journal := c₂.journal.noteUnminted ⟨tx.hash, places⟩
          position := c₂.position + 1 } U₂

lemma staged_connect_eq_ok {tx : Transaction} {l : LoadedTx} :
    (c.connect tx).staged t = .ok ((l, c'), t') ↔
      ∃ U, Connects c tx t.unspent l c' U ∧ t' = { t with unspent := U } := by
  simp only [connect, staged_read_bind_eq_ok, staged_require_bind_eq_ok]
  constructor
  · rintro ⟨present, hpresent, hnew, h⟩
    cases hpresent
    rw [Bool.and_eq_true, Bool.not_eq_true', Bool.not_eq_true'] at hnew
    obtain ⟨⟨sources, places, c₁⟩, t₁, hspends, h⟩ := staged_bind_eq_ok.1 h
    obtain ⟨U₁, spends, rfl⟩ := staged_spendAll_eq_ok.1 hspends
    obtain ⟨c₂, t₂, hmints, h⟩ := staged_bind_eq_ok.1 h
    obtain ⟨U₂, mints, rfl⟩ := staged_mint_eq_ok.1 hmints
    cases h
    exact ⟨U₂, .intro hnew.1 (Tables.containsUnspent_eq_false.1 hnew.2) spends mints, rfl⟩
  · rintro ⟨U, h, rfl⟩
    cases h with
    | intro new free spends mints =>
      refine ⟨false, by rw [Tables.containsUnspent_eq_false.2 free], by rw [new]; rfl, ?_⟩
      refine staged_bind_eq_ok.2 ⟨_, _, staged_spendAll_eq_ok.2 ⟨_, spends, rfl⟩, ?_⟩
      exact staged_bind_eq_ok.2 ⟨_, _, staged_mint_eq_ok.2 ⟨_, mints, rfl⟩, rfl⟩

/-- A list of transactions is connected in order. -/
inductive ConnectsAll : Connecting → List Transaction → Table → List LoadedTx → Connecting →
    Table → Prop
  | nil (c : Connecting) (U : Table) : ConnectsAll c [] U [] c U
  | cons {c c₁ c₂ : Connecting} {tx : Transaction} {rest : List Transaction} {U U₁ U₂ : Table}
      {l : LoadedTx} {loaded : List LoadedTx} (first : Connects c tx U l c₁ U₁)
      (more : ConnectsAll c₁ rest U₁ loaded c₂ U₂) :
      ConnectsAll c (tx :: rest) U (l :: loaded) c₂ U₂

lemma staged_workOff_eq_ok {txs : List Transaction} :
    (Progress.workOff connect c txs).staged t = .ok (c', t') ↔
      ∃ loaded U, ConnectsAll c txs t.unspent loaded c' U ∧ t' = { t with unspent := U } := by
  induction txs generalizing c t with
  | nil =>
    constructor
    · intro h
      cases h
      exact ⟨_, _, .nil _ _, rfl⟩
    · rintro ⟨loaded, U, h, rfl⟩
      cases h
      rfl
  | cons tx rest ih =>
    refine staged_bind_eq_ok.trans ?_
    constructor
    · rintro ⟨⟨l, c₁⟩, t₁, hfirst, h⟩
      obtain ⟨U₁, first, rfl⟩ := staged_connect_eq_ok.1 hfirst
      obtain ⟨loaded, U₂, more, rfl⟩ := ih.1 h
      exact ⟨_, _, .cons first more, rfl⟩
    · rintro ⟨loaded, U₂, h, rfl⟩
      cases h with
      | cons first more =>
        exact ⟨_, _, staged_connect_eq_ok.2 ⟨_, first, rfl⟩, ih.2 ⟨_, _, more, rfl⟩⟩

/-- The tables after a block is closed: the journal under its two keys, the header, the counters. -/
def closed (c : Connecting) (t : Tables) : Tables :=
  { t with
    spent := t.spent.insert (Height.key c.locator.header.height) c.journal.spent.encode
    unminted := t.unminted.insert c.locator.header.hash.bytes c.journal.unminted.encode
    headers := t.headers.insert (Height.key c.locator.header.height) c.locator.header.encode
  }.withCounters c.counters

/-- Where no journal is recorded, closing a block takes a free place for its header, and nothing
else. -/
lemma staged_close_eq_ok (hspent : t.spent[Height.key c.locator.header.height]? = none)
    (hunminted : t.unminted[c.locator.header.hash.bytes]? = none) {counters : Counters} :
    c.close.staged t = .ok (counters, t') ↔
      t.headers[Height.key c.locator.header.height]? = none ∧ counters = c.counters ∧
        t' = c.closed t := by
  rw [close, staged_bind, Journal.staged_write_of_free hspent hunminted]
  change (addHeader _ >>= _).staged _ = _ ↔ _
  rw [staged_addHeader_bind_eq_ok, staged_bind, staged_writeCounters]
  refine and_congr_right fun _ => ?_
  constructor
  · intro h
    cases h
    exact ⟨rfl, rfl⟩
  · rintro ⟨rfl, rfl⟩
    rfl

end Connecting

namespace Ledger

/-- Loading a block for validation connects it just the same. -/
lemma connectsAll_of_staged_loadAll {header : ChainedHeader} {c c' : Connecting}
    {t t' : Tables} {txs : List Transaction} {loaded : List LoadedTx} {items : List ScriptItem}
    (h : (loadAll header c txs).staged t = .ok ((loaded, items, c'), t')) :
    ∃ U, Connecting.ConnectsAll c txs t.unspent loaded c' U ∧ t' = { t with unspent := U } := by
  induction txs generalizing c t loaded items with
  | nil =>
    cases h
    exact ⟨_, .nil _ _, rfl⟩
  | cons tx rest ih =>
    obtain ⟨⟨l, c₁⟩, t₁, hfirst, h⟩ := staged_bind_eq_ok.1 h
    obtain ⟨U₁, first, rfl⟩ := Connecting.staged_connect_eq_ok.1 hfirst
    obtain ⟨is, -, h⟩ := staged_consistent_bind_eq_ok.1 h
    obtain ⟨⟨ls, more, c₂⟩, t₂, hmore, h⟩ := staged_bind_eq_ok.1 h
    cases h
    obtain ⟨U₂, more, rfl⟩ := ih hmore
    exact ⟨U₂, .cons first more, rfl⟩

/-- The tables after journals that fall out of the rollback window were dropped. -/
def pruned (l : Ledger) (header : ChainedHeader) (t : Tables) : Tables :=
  match prunable? l.chain l.settings.maxRollbackDepth header.height with
  | some old => t.withoutJournal old
  | none => t

/-- What a block has passed when it is connected, and the tables that it leaves. -/
inductive Connected (l : Ledger) (archive : Archive) (header : ChainedHeader) (block : Block)
    (t : Tables) : Tables → Prop
  | intro {c c' : Connecting} {loaded : List LoadedTx} {items : List ScriptItem} {U : Table}
      {counters : Counters} {t₁ : Tables}
      (start : (Connecting.start archive l.chain header block).staged t = .ok (c, t))
      (connects : Connecting.ConnectsAll c block.txs t.unspent loaded c' U)
      (close : c'.close.staged { t with unspent := U } = .ok (counters, t₁))
      (scripts : (l.settings.workforce.validate l.rules.verify items).result = .ok ())
      (rules : l.rules.checkBlock header block loaded = .ok ()) :
      Connected l archive header block t (l.pruned header t₁)

lemma connected_of_staged {l : Ledger} {archive : Archive} {header : ChainedHeader} {block : Block}
    {t t' : Tables} {x : Unit} (hblock : (l.connectBlock archive header block).staged t =
      .ok (x, t')) : l.Connected archive header block t t' := by
  obtain ⟨c, t₁, hstart, hrest⟩ := staged_bind_eq_ok.1 hblock
  obtain ⟨-, -, -, -, -, -, rfl⟩ := Connecting.staged_start_eq_ok.1 hstart
  obtain ⟨⟨loaded, items, c'⟩, t₂, hload, h⟩ := staged_bind_eq_ok.1 hrest
  obtain ⟨U, connects, rfl⟩ := connectsAll_of_staged_loadAll hload
  obtain ⟨counters, t₃, hclose, h⟩ := staged_bind_eq_ok.1 h
  obtain ⟨⟨⟩, hscripts, h⟩ := staged_lift_bind_eq_ok.1 h
  obtain ⟨⟨⟩, hrules, h⟩ := staged_lift_bind_eq_ok.1 h
  suffices ht : t' = l.pruned header t₃ from
    ht ▸ .intro hstart connects hclose hscripts hrules
  unfold pruned
  cases hp : prunable? l.chain l.settings.maxRollbackDepth header.height with
  | none =>
    rw [hp] at h
    cases h
    rfl
  | some old =>
    rw [hp] at h
    cases h
    rfl

end Ledger
end UtxoLedger

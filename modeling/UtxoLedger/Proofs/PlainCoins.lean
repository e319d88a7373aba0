import Mathlib.Data.Finset.Basic
import Mathlib.Data.Finset.Lattice.Lemmas
import Mathlib.Tactic.Common
import UtxoLedger.Proofs.CounterExactness

/-!
# The plain rule

Seen from outside, the unspent set is a set of outpoints. A transaction whose name is new takes its
sources out of the set, each of which must be there, and puts its outputs in. Connecting a block to
a store that ledgers have filled does just this: it succeeds when the plain rule does, with the same
set, and else it fails where the plain rule fails, for the same reason.
-/
namespace UtxoLedger

open StoreM

/-- The outpoints that may be spent. -/
abbrev Coins := Finset OutPoint

/-- What breaks the plain rule. -/
inductive Refused
  | duplicate (tx : Hash)
  | missing (o : OutPoint)
  deriving DecidableEq

/-- The outpoints of the outputs of a transaction. -/
def Transaction.created (tx : Transaction) : Coins :=
  ((List.range tx.outputs.length).map fun i => ⟨tx.hash, UInt32.ofNat i⟩).toFinset

namespace Coins

/-- Takes outpoints out one by one, up to the first that is not there. -/
def takeAll (coins : Coins) : List OutPoint → Except Refused Coins
  | [] => .ok coins
  | o :: rest => if o ∈ coins then takeAll (coins.erase o) rest else .error (.missing o)

/-- One transaction: its name must be new to the block and to the set. -/
def connect (earlier : List Hash) (coins : Coins) (tx : Transaction) : Except Refused Coins :=
  if tx.hash ∈ earlier ∨ ∃ o ∈ coins, o.hash = tx.hash then .error (.duplicate tx.hash)
  else (coins.takeAll (tx.spending.map TxInput.prevout)).map (· ∪ tx.created)

/-- The transactions of a block in order, behind those with the `earlier` names. -/
def connectAll (earlier : List Hash) (coins : Coins) : List Transaction → Except Refused Coins
  | [] => .ok coins
  | tx :: rest => do
    let coins ← coins.connect earlier tx
    connectAll (earlier ++ [tx.hash]) coins rest

end Coins

/-- A fault that tells what broke the plain rule. -/
inductive Inconsistency.Tells : Inconsistency → Refused → Prop
  | duplicateTx (tx block : Hash) : Tells (.duplicateTx tx block) (.duplicate tx)
  | notUnspent (o : OutPoint) : Tells (.notUnspent o) (.missing o)
  | alreadySpent (o : OutPoint) : Tells (.alreadySpent o) (.missing o)
  | outOfRange (o : OutPoint) (outputs : Nat) : Tells (.outOfRange o outputs) (.missing o)

/-- The outpoints of the unspent outputs of a record. -/
def UnspentTx.outPoints (u : UnspentTx) : List OutPoint :=
  u.states.unspentIndices.map fun i => ⟨u.hash, UInt32.ofNat i⟩

/-- The outpoints of all unspent outputs in an unspent table. -/
def Table.coins (U : Table) : Coins := (U.records.flatMap UnspentTx.outPoints).toFinset

/-- The outpoints of all unspent outputs in a store. -/
def Tables.coins (t : Tables) : Except LedgerError Coins :=
  t.allUnspent.map fun us => (us.flatMap UnspentTx.outPoints).toFinset

lemma Tables.coins_eq {t : Tables} (h : t.unspent.Keyed) : t.coins = .ok t.unspent.coins := by
  rw [coins, allUnspent_eq h]
  rfl

lemma Tables.coins_congr {s t : Tables} (h : s.unspent = t.unspent) : s.coins = t.coins := by
  simp only [coins, allUnspent, records, get, h]

namespace Table

variable {U U' : Table} {o : OutPoint} {u : UnspentTx}

lemma mem_coins (h : U.Keyed) : o ∈ U.coins ↔ ∃ u : UnspentTx,
    U[o.hash.bytes]? = some u.encode ∧ u.states.size < 2 ^ 32 ∧
      u.states.get? o.index.toNat = some .unspent := by
  simp only [coins, List.mem_toFinset, List.mem_flatMap, h.mem_records, UnspentTx.outPoints,
    List.mem_map, OutputStates.mem_unspentIndices]
  constructor
  · rintro ⟨u, ⟨found, hsize⟩, i, hi, rfl⟩
    have hlt := (OutputStates.lt_size_of_get? hi).trans hsize
    exact ⟨u, found, hsize, by rwa [UInt32.toNat_ofNat_of_lt' hlt]⟩
  · rintro ⟨u, found, hsize, hi⟩
    have hname := h.name_eq found hsize
    refine ⟨u, ⟨by rwa [hname], hsize⟩, o.index.toNat, hi, ?_⟩
    rw [hname, UInt32.ofNat_toNat]

/-- The record under a name that is not fully spent lends its name to an outpoint of the set. -/
lemma exists_mem_coins_iff (h : U.Keyed) (hl : Connecting.Left U) (name : Hash) :
    (∃ o ∈ U.coins, o.hash = name) ↔ U[name.bytes]? ≠ none := by
  simp only [mem_coins h]
  constructor
  · rintro ⟨o, ⟨u, found, -⟩, rfl⟩
    simp [found]
  · intro hne
    obtain ⟨bytes, hbytes⟩ := Option.ne_none_iff_exists'.1 hne
    obtain ⟨u, rfl, hsize, -⟩ := h _ _ hbytes
    have hleft := Bool.eq_false_iff.1 (hl _ u hbytes hsize)
    rw [Ne, OutputStates.allSpent_iff_unspentIndices] at hleft
    obtain ⟨i, hi⟩ := List.exists_mem_of_ne_nil _ hleft
    rw [OutputStates.mem_unspentIndices] at hi
    have hlt := (OutputStates.lt_size_of_get? hi).trans hsize
    exact ⟨⟨name, UInt32.ofNat i⟩, ⟨u, hbytes, hsize, by rwa [UInt32.toNat_ofNat_of_lt' hlt]⟩, rfl⟩

end Table

namespace Connecting

variable {c c' : Connecting} {U U' : Table} {o : OutPoint} {source tx : Transaction}
  {place : TxLocation} {inputs : List TxInput} {sources pending txs : List Transaction}
  {places : List TxLocation} {ld : LoadedTx} {t : Tables} {earlier : List Hash}

lemma Mints.coins (hU : U.Keyed) (h : Mints c tx tx.hash U c' U')
    (hlength : tx.outputs.length < 2 ^ 32) : U'.coins = U.coins ∪ tx.created := by
  obtain ⟨-, hperm⟩ := h.records_perm hU hlength
  rw [Table.coins, List.toFinset_eq_of_perm _ _ (hperm.flatMap_right UnspentTx.outPoints)]
  split
  next hnone => simp [Table.coins, Transaction.created, hnone]
  next hsome =>
    rw [List.flatMap_cons, List.toFinset_append, Finset.union_comm, Table.coins,
      Transaction.created, UnspentTx.outPoints, record, OutputStates.unspentIndices_filled]

lemma Exchanges.outPoints_perm {u : UnspentTx} {states : OutputStates} {rest : List UnspentTx}
    (h : Exchanges c o U source place c' U' u states rest) :
    u.outPoints.Perm (o :: ({ u with states } : UnspentTx).outPoints) := by
  have hperm := (OutputStates.unspentIndices_set? h.get h.set).map fun i =>
    (⟨u.hash, UInt32.ofNat i⟩ : OutPoint)
  rwa [List.map_cons, UInt32.ofNat_toNat, show (⟨u.hash, o.index⟩ : OutPoint) = o by rw [h.name]]
    at hperm

/-- What a spend leaves, and its outpoint, make up the set before. -/
lemma Exchanges.coins {u : UnspentTx} {states : OutputStates} {rest : List UnspentTx}
    (h : Exchanges c o U source place c' U' u states rest) : U.coins = insert o U'.coins := by
  have hbefore : U.coins = insert o (({ u with states } : UnspentTx).outPoints ++
      rest.flatMap UnspentTx.outPoints).toFinset := by
    rw [Table.coins, List.toFinset_eq_of_perm _ _ (h.before.flatMap_right UnspentTx.outPoints),
      List.flatMap_cons, List.toFinset_eq_of_perm _ _ (h.outPoints_perm.append_right _),
      List.cons_append, List.toFinset_cons]
  rw [hbefore, Table.coins, List.toFinset_eq_of_perm _ _ (h.after.flatMap_right UnspentTx.outPoints)]
  split
  next hall =>
    have hnone := OutputStates.allSpent_iff_unspentIndices.1 hall
    simp [UnspentTx.outPoints, hnone]
  · rw [List.flatMap_cons]

/-- A spend takes its outpoint out of the set. -/
lemma Spends.coins (hU : U.Keyed) (hg : Grounded c.locator c.chain U)
    (h : Spends c o U source place c' U') : U'.coins = U.coins.erase o := by
  obtain ⟨hU', u, states, rest, hx⟩ := h.exchanges hU
  have hgone : o ∉ U'.coins := by
    rw [Table.mem_coins hU']
    rintro ⟨v, found, hsize, hget⟩
    cases h.own hg with
    | last => simp at found
    | @more u states _ own =>
      have hstates := spentStates_eq_ok.1 own.spent
      obtain ⟨hlt, hsame, hflags⟩ := OutputStates.set?_eq_some hstates.2
      rw [Table.getElem?_insert, if_pos rfl, Option.some.injEq] at found
      have hlt' : ({ u with states } : UnspentTx).states.size < 2 ^ 32 := hsame ▸ own.size_lt
      obtain rfl := (UnspentTx.encode_inj hlt' hsize).1 found
      have hspent := hflags _ hlt
      rw [if_pos rfl] at hspent
      exact nomatch hspent.symm.trans hget
  rw [hx.coins, Finset.erase_insert hgone]

/-- What a step needs to find: exact counters, and records that lead to their transactions and are
not fully spent. -/
structure Standing (c : Connecting) (U : Table) : Prop where
  exact : ∃ txs, Exact c U txs
  grounded : Grounded c.locator c.chain U
  left : Left U

lemma Standing.keyed (hs : Standing c U) : U.Keyed := by
  obtain ⟨txs, he⟩ := hs.exact
  exact he.keyed

lemma Standing.spend (hs : Standing c U) (h : Spends c o U source place c' U') :
    Standing c' U' := by
  obtain ⟨txs, he⟩ := hs.exact
  exact ⟨⟨txs, he.spend h⟩, (h.own hs.grounded).grounded hs.grounded, h.left hs.left⟩

/-- An outpoint of the set can be spent. -/
lemma Standing.exists_spends (hs : Standing c U) (ho : o ∈ U.coins) :
    ∃ source place c' U', Spends c o U source place c' U' := by
  obtain ⟨u, found, hsize, hget⟩ := (Table.mem_coins hs.keyed).1 ho
  obtain ⟨txs, he⟩ := hs.exact
  have hname := he.keyed.name_eq found hsize
  obtain ⟨states, hset⟩ := OutputStates.exists_set? (OutputStates.lt_size_of_get? hget) .spent
  have spent := spentStates_eq_ok.2 ⟨hget, hset⟩
  obtain ⟨place, source, located, resolved, -⟩ := hs.grounded _ u found hsize
  rw [hname] at resolved
  have hperm := Table.records_erase_perm found hsize
  have hcount : u.states.unspentCount = states.unspentCount + 1 := by
    rw [← OutputStates.length_unspentIndices, ← OutputStates.length_unspentIndices,
      (OutputStates.unspentIndices_set? hget hset).length_eq, List.length_cons]
  have houtputs : 1 ≤ (c.counters.get .unspentOutputs).toNat := by
    rw [he.counters, Counter.amount_perm txs _ hperm, Counter.amount_cons, if_pos rfl]
    omega
  obtain ⟨lowered, outputs⟩ := Counters.exists_lower c.counters .unspentOutputs houtputs
  cases hall : states.allSpent with
  | true =>
    have hrecords : 1 ≤ (lowered.get .unspentTxs).toNat := by
      have hlowered := Counters.toNat_get_of_lower outputs .unspentTxs
      rw [he.counters, Counter.amount_perm txs _ hperm, Counter.amount_cons, if_pos rfl] at hlowered
      simp only [reduceCtorEq, if_false] at hlowered
      omega
    obtain ⟨counters, records⟩ := Counters.exists_lower lowered .unspentTxs hrecords
    have present : U.contains u.hash.bytes = true := by
      rw [hname]
      exact Table.contains_eq_true.2 ⟨_, found⟩
    exact ⟨source, place, _, _, .last found hsize spent outputs located hall present records
      resolved⟩
  | false =>
    have present : U[u.hash.bytes]? = some u.encode := by rwa [hname]
    exact ⟨source, place, _, _, .more found hsize spent outputs located hall present hsize resolved⟩

lemma Standing.spendAll (hs : Standing c U) (h : SpendsAll c inputs U sources places c' U') :
    Standing c' U' := by
  induction h with
  | nil => exact hs
  | cons first _ ih => exact ih (hs.spend first)

end Connecting

/-- Staged work that leaves the set the rule leaves, or fails for the reason the rule fails. -/
def StoreM.Obeys {α : Type} (act : StoreM α) (t : Tables) (rule : Except Refused Coins) : Prop :=
  match rule with
  | .ok coins => ∃ a U, act.staged t = .ok (a, { t with unspent := U }) ∧ U.coins = coins
  | .error refused =>
    ∃ fault, act.staged t = .error (.inconsistent fault) ∧ fault.Tells refused

namespace StoreM

variable {α β : Type} {act : StoreM α} {f : α → StoreM β} {t : Tables}
  {rule : Except Refused Coins} {g : Coins → Except Refused Coins}

lemma Obeys.of_staged_eq {act' : StoreM α} (h : act.staged t = act'.staged t)
    (h' : act'.Obeys t rule) : act.Obeys t rule := by
  unfold Obeys at h' ⊢
  rwa [h]

/-- The rule goes on where the work goes on. -/
lemma Obeys.bind [Staging act] (h : act.Obeys t rule)
    (hf : ∀ a U, act.staged t = .ok (a, { t with unspent := U }) →
      (f a).Obeys { t with unspent := U } (g U.coins)) :
    (act >>= f).Obeys t (rule >>= g) := by
  cases rule with
  | error refused =>
    obtain ⟨fault, hact, htells⟩ := h
    exact ⟨fault, by rw [staged_bind, hact]; rfl, htells⟩
  | ok coins =>
    obtain ⟨a, U, hact, rfl⟩ := h
    have hnext := hf a U hact
    have hbind : (act >>= f).staged t = (f a).staged { t with unspent := U } := by
      rw [staged_bind, hact]
      rfl
    change (act >>= f).Obeys t (g U.coins)
    unfold Obeys at hnext ⊢
    rwa [hbind]

lemma Obeys.map [Staging act] (h : act.Obeys t rule) (k : α → β) :
    (act >>= fun a => pure (k a)).Obeys t rule := by
  have hbind := h.bind (f := fun a => pure (k a)) (g := .ok) fun a U _ => ⟨k a, U, rfl, rfl⟩
  cases rule <;> exact hbind

end StoreM

namespace Coins

lemma takeAll_cons (coins : Coins) (o : OutPoint) (rest : List OutPoint) :
    coins.takeAll (o :: rest) = (coins.takeAll [o] >>= fun coins => takeAll coins rest) := by
  simp only [takeAll]
  split <;> rfl

end Coins

namespace Connecting

variable {c c' : Connecting} {U U' : Table} {o : OutPoint} {source tx : Transaction}
  {place : TxLocation} {inputs : List TxInput} {sources pending txs : List Transaction}
  {places : List TxLocation} {ld : LoadedTx} {t : Tables} {earlier : List Hash}

lemma spentStates_of_ne {u : UnspentTx} (h : u.states.get? o.index.toNat ≠ some .unspent) :
    ∃ fault, spentStates u o = .error fault ∧ fault.Tells (.missing o) := by
  unfold spentStates
  cases hget : u.states.get? o.index.toNat with
  | none => exact ⟨_, rfl, .outOfRange o _⟩
  | some state =>
    cases state with
    | unspent => exact absurd hget h
    | spent => exact ⟨_, rfl, .alreadySpent o⟩

/-- An outpoint outside the set is refused. -/
lemma staged_spend_of_notMem (hU : t.unspent.Keyed) (ho : o ∉ t.unspent.coins) :
    ∃ fault, (c.spend o).staged t = .error (.inconsistent fault) ∧ fault.Tells (.missing o) := by
  rw [Table.mem_coins hU] at ho
  cases hfound : t.unspent[o.hash.bytes]? with
  | none =>
    have hread := Tables.unspent?_eq_none.2 hfound
    refine ⟨.notUnspent o, ?_, .notUnspent o⟩
    rw [spend, staged_bind, staged_read, hread]
    rfl
  | some bytes =>
    obtain ⟨u, rfl, hsize, -⟩ := hU _ _ hfound
    have hread := Tables.unspent?_eq_some.2 ⟨hfound, hsize⟩
    obtain ⟨fault, hspent, htells⟩ := spentStates_of_ne fun hget => ho ⟨u, hfound, hsize, hget⟩
    refine ⟨fault, ?_, htells⟩
    rw [spend, staged_bind, staged_read, hread]
    change (consistent (spentStates u o) >>= _).staged t = _
    rw [staged_bind, hspent]
    rfl

lemma Standing.spend_obeys (hs : Standing c t.unspent) (o : OutPoint) :
    (c.spend o).Obeys t (t.unspent.coins.takeAll [o]) := by
  simp only [Coins.takeAll]
  split
  next ho =>
    obtain ⟨source, place, c', U', h⟩ := hs.exists_spends ho
    exact ⟨_, U', staged_spend_eq_ok.2 ⟨U', h, rfl⟩, h.coins hs.keyed hs.grounded⟩
  next ho => exact staged_spend_of_notMem hs.keyed ho

lemma Standing.spendAll_obeys (hs : Standing c t.unspent) (inputs : List TxInput) :
    (c.spendAll inputs).Obeys t (t.unspent.coins.takeAll (inputs.map TxInput.prevout)) := by
  induction inputs generalizing c t with
  | nil => exact ⟨_, _, rfl, rfl⟩
  | cons input rest ih =>
    rw [List.map_cons, Coins.takeAll_cons]
    refine (hs.spend_obeys input.prevout).bind ?_
    rintro ⟨source, place, c₁⟩ U₁ hfirst
    obtain ⟨U₁', first, heq⟩ := staged_spend_eq_ok.1 hfirst
    obtain rfl : U₁ = U₁' := congrArg Tables.unspent heq
    have hrest := ih (c := c₁) (t := { t with unspent := U₁ }) (hs.spend first)
    exact hrest.map _

lemma mint_obeys (hU : t.unspent.Keyed) (free : t.unspent[tx.hash.bytes]? = none)
    (hlength : tx.outputs.length < 2 ^ 32) :
    (c.mint tx tx.hash).Obeys t (.ok (t.unspent.coins ∪ tx.created)) := by
  by_cases hnone : tx.outputs = []
  · have h : Mints c tx tx.hash t.unspent c t.unspent := .empty hnone
    exact ⟨_, _, staged_mint_eq_ok.2 ⟨_, h, rfl⟩, h.coins hU hlength⟩
  · have h := Mints.enters (c := c) hnone free
    exact ⟨_, _, staged_mint_eq_ok.2 ⟨_, h, rfl⟩, h.coins hU hlength⟩

lemma Standing.connect_obeys (hs : Standing c t.unspent)
    (hminted : ∀ name, c.minted.contains name = true ↔ name ∈ earlier)
    (hlength : tx.outputs.length < 2 ^ 32) :
    (c.connect tx).Obeys t (t.unspent.coins.connect earlier tx) := by
  have hpresent := Table.exists_mem_coins_iff hs.keyed hs.left tx.hash
  have hnew : (!c.minted.contains tx.hash && !t.containsUnspent tx.hash) = true ↔
      ¬ (tx.hash ∈ earlier ∨ ∃ o ∈ t.unspent.coins, o.hash = tx.hash) := by
    rw [Bool.and_eq_true, Bool.not_eq_true', Bool.not_eq_true', Tables.containsUnspent_eq_false,
      Bool.eq_false_iff, Ne, hminted, hpresent, not_or, not_not]
  rw [Coins.connect]
  split
  next hdup =>
    have hbool := Bool.eq_false_iff.2 (mt hnew.1 (not_not.2 hdup))
    refine ⟨.duplicateTx tx.hash c.locator.header.hash, ?_, .duplicateTx _ _⟩
    change (require (!c.minted.contains tx.hash && !t.containsUnspent tx.hash) _ >>= _).staged t = _
    rw [hbool, staged_bind]
    rfl
  next hdup =>
    have hfree : t.unspent[tx.hash.bytes]? = none :=
      by_contra fun hne => hdup (.inr (hpresent.2 hne))
    have hstart : Standing { c with minted := c.minted.insert tx.hash } t.unspent :=
      ⟨hs.exact.imp fun _ he => ⟨he.keyed, he.counters⟩, hs.grounded, hs.left⟩
    -- Once the name is found to be new, what remains is to spend, to mint and to count.
    have hrest : (c.connect tx).staged t = (
        ({ c with minted := c.minted.insert tx.hash } : Connecting).spendAll tx.spending >>= fun p =>
        p.2.2.mint tx tx.hash >>= fun c =>
        pure ((⟨tx, tx.hash, c.position, tx.isCoinbase, p.1⟩ : LoadedTx), { c with
          counters := ((c.counters.raise .txs 1).raise .inputs tx.inputs.length).raise .outputs
            tx.outputs.length
          journal := c.journal.noteUnminted ⟨tx.hash, p.2.1⟩
          position := c.position + 1 })).staged t := by
      change (require (!c.minted.contains tx.hash && !t.containsUnspent tx.hash) _ >>= _).staged t = _
      rw [hnew.2 hdup, staged_bind]
      rfl
    refine Obeys.of_staged_eq hrest ((hstart.spendAll_obeys tx.spending).bind
      (g := fun coins => .ok (coins ∪ tx.created)) ?_)
    rintro ⟨sources, places, c₁⟩ U hspend
    obtain ⟨U', spends, heq⟩ := staged_spendAll_eq_ok.1 hspend
    obtain rfl : U = U' := congrArg Tables.unspent heq
    have hafter := hstart.spendAll spends
    exact (mint_obeys hafter.keyed ((spends.own hstart.grounded).free hfree).1 hlength).map _

lemma Standing.connect (hs : Standing c U) (h : Connects c tx U ld c' U')
    (hat : c.locator.block.txs[c.position]? = some tx) (hposition : c.position < 2 ^ 31)
    (room : Room (2 ^ 64) c (tx :: pending)) (hlength : tx.outputs.length < 2 ^ 32) :
    Standing c' U' := by
  obtain ⟨txs, he⟩ := hs.exact
  exact ⟨⟨_, he.connect h room hlength⟩, h.grounded hs.grounded hat hposition hlength,
    h.left hs.left hlength⟩

/-- The pending transactions of a block obey the plain rule. -/
theorem Standing.workOff_obeys (hs : Standing c t.unspent)
    (hminted : ∀ name, c.minted.contains name = true ↔ name ∈ earlier)
    (hat : c.locator.block.txs.drop c.position = pending)
    (hcount : c.locator.block.txs.length ≤ 2 ^ 31) (room : Room (2 ^ 64) c pending)
    (hlength : ∀ tx ∈ pending, tx.outputs.length < 2 ^ 32) :
    (Progress.workOff Connecting.connect c pending).Obeys t
      (t.unspent.coins.connectAll earlier pending) := by
  induction pending generalizing c t earlier with
  | nil => exact ⟨_, _, rfl, rfl⟩
  | cons tx rest ih =>
    have hshort := hlength tx List.mem_cons_self
    refine (hs.connect_obeys hminted hshort).bind ?_
    rintro ⟨l, c₁⟩ U₁ hconnect
    obtain ⟨U, first, heq⟩ := staged_connect_eq_ok.1 hconnect
    obtain rfl : U₁ = U := congrArg Tables.unspent heq
    obtain ⟨htx, hposition, hpending, hcount'⟩ := first.next hat hcount
    refine ih (t := { t with unspent := U₁ }) (hs.connect first htx hposition room hshort) ?_
      hpending hcount' (first.room room le_rfl) fun t ht => hlength t (List.mem_cons_of_mem _ ht)
    intro name
    rw [first.minted, Std.ExtTreeSet.contains_insert, Bool.or_eq_true, hminted, List.mem_append,
      List.mem_singleton, beq_iff_eq, Std.LawfulEqOrd.compare_eq_iff_eq, or_comm, eq_comm]

end Connecting

/-- The tables of a chain, where journals may be missing, are ready for the block above its tip. -/
lemma Built.start {archive : Archive} {chain chain' : Chain} {header : ChainedHeader}
    {block : Block} {full : Prop} {live t : Tables} (built : Built archive chain t)
    (sound : archive.Sound) (agrees : Agrees full live t) (genuine : chain'.Genuine)
    (grown : chain'.headers = chain.headers ++ [header])
    (found : archive.block? header.hash = some block) : ∃ cs, t.readCounters = .ok cs ∧
      (Connecting.start archive chain header block).staged live =
        .ok (.taken archive chain header block cs, live) ∧
      Connecting.Standing (.taken archive chain header block cs) live.unspent ∧
      Connecting.Room (2 ^ 64) (.taken archive chain header block cs) block.txs := by
  obtain ⟨hbelow, -, hnew⟩ := genuine.of_grown grown
  have solid := built.solid sound hbelow
  have hx := Chain.extends_of_grown grown
  obtain ⟨hhash, bounds⟩ := sound _ _ found
  obtain ⟨blocks, cs, -, hcs, hkeyed, hexact⟩ := built.exact sound hbelow
  have htip : live.tip? = .ok (some chain.tip) := by
    simpa only [Tables.tip?, agrees.headers] using solid.tip? hbelow
  have hlength := chain.length_le
  refine ⟨cs, hcs, ?_, ?_, (solid.room header hcs bounds).mono (by omega)⟩
  · exact Connecting.staged_start_eq_ok.2 ⟨hx, ⟨_, htip, rfl, rfl⟩, hhash, cs,
      (Tables.readCounters_congr agrees.counters).trans hcs, rfl, rfl⟩
  · rw [agrees.unspent]
    exact ⟨⟨_, hkeyed, hexact⟩, solid.anchored.grounded hx hnew block, solid.anchored.left⟩

/-- Connecting the block above the tip of a chain, from start to close, obeys the plain rule. -/
theorem Built.whole_obeys {archive : Archive} {chain chain' : Chain} {header : ChainedHeader}
    {block : Block} {full : Prop} {live t : Tables} (built : Built archive chain t)
    (sound : archive.Sound) (agrees : Agrees full live t) (genuine : chain'.Genuine)
    (grown : chain'.headers = chain.headers ++ [header])
    (found : archive.block? header.hash = some block) :
    match live.unspent.coins.connectAll [] block.txs with
    | .ok after => ∃ counters t', (Connecting.whole archive chain header block).staged live =
        .ok (counters, t') ∧ t'.coins = .ok after ∧ t'.Anchored archive chain'
    | .error refused => ∃ fault, (Connecting.whole archive chain header block).staged live =
        .error (.inconsistent fault) ∧ fault.Tells refused := by
  obtain ⟨cs, hcs, start, standing, room⟩ := built.start sound agrees genuine grown found
  obtain ⟨hbelow, -, hnew⟩ := genuine.of_grown grown
  have solid := built.solid sound hbelow
  have bounds := (sound _ _ found).2
  have hshort : ∀ tx ∈ block.txs, tx.outputs.length < 2 ^ 32 := fun tx htx =>
    (bounds.of_mem htx).2.trans (by decide)
  have hwork : (Progress.workOff Connecting.connect (.taken archive chain header block cs)
      block.txs).Obeys live (live.unspent.coins.connectAll [] block.txs) :=
    standing.workOff_obeys (by simp [Connecting.taken]) rfl bounds.txs.le room hshort
  cases hrule : live.unspent.coins.connectAll [] block.txs with
  | error refused =>
    rw [hrule] at hwork
    obtain ⟨fault, hstaged, htells⟩ := hwork
    refine ⟨fault, ?_, htells⟩
    rw [Connecting.whole, staged_bind, start]
    change (Progress.workOff Connecting.connect (.taken archive chain header block cs) block.txs
      >>= _).staged live = _
    rw [staged_bind, hstaged]
    rfl
  | ok after =>
    rw [hrule] at hwork
    obtain ⟨c, U, hstaged, hcoins⟩ := hwork
    obtain ⟨loaded, U', connects, heq⟩ := Connecting.staged_workOff_eq_ok.1 hstaged
    obtain rfl : U = U' := congrArg Tables.unspent heq
    obtain ⟨hheaders, hspent, hunminted⟩ :=
      solid.free_above (Chain.extends_of_grown grown) hnew
    obtain ⟨txs, exact⟩ := standing.exact
    have hkeyed := (exact.connectAll connects room hshort).keyed
    -- The tables that the block leaves agree with those of the longer chain.
    have agrees' := agrees.closed c U
    have solid' : Solid archive chain' (c.closed { t with unspent := U }) :=
      solid.above genuine sound found hcs (agrees.unspent ▸ connects) grown
    refine ⟨c.counters, c.closed { live with unspent := U }, ?_, ?_, ?_, ?_⟩
    · exact (Connecting.staged_whole_eq_ok (agrees.spent.eq_none hspent)
        (agrees.unminted.eq_none hunminted)).2
        ⟨cs, loaded, c, U, start, connects, by rwa [agrees.headers], rfl, rfl⟩
    · have hunspent : (c.closed { live with unspent := U }).unspent = U := by
        simp [Connecting.closed]
      rw [Tables.coins_eq (hunspent ▸ hkeyed), hunspent, hcoins]
    · rw [agrees'.unspent]
      exact solid'.anchored.records
    · rw [agrees'.headers]
      exact solid'.anchored.tip

/-- On any state that ledgers bring about, the next block comes to what the plain rule says of the
outpoints in the store. Where the rule goes through, so does the block: its tables hold the very
outpoints of the rule, no record is fully spent, and every record leads, on the longer chain, to a
transaction with its name and as many outputs. Where the rule stops, the block fails with a fault
that tells why; no other fault occurs. -/
theorem block_obeys_plain_rule {H : ChainedHeader → Prop} {P : Rules → Settings → Prop}
    (named : NamedApart H) {db : Database} {archive : Archive} {ledgers : List Ledger}
    (run : Hub.Reached H P ⟨db, archive, ledgers⟩) {chain : Chain}
    (stored : db.committed.tables.chainHeaders = .ok chain.headers) {header : ChainedHeader}
    (known : H header) (above : header.Extends chain.tip) {block : Block}
    (found : archive.block? header.hash = some block) (now : Database) (touched : Bool) :
    ∃ coins chain', db.committed.tables.coins = .ok coins ∧ chain.add header = .ok chain' ∧
      match coins.connectAll [] block.txs with
      | .ok after => ∃ counters t' touched',
          (Connecting.whole archive chain header block).on
            ⟨now, .writing db.committed.tables touched⟩ =
              (.ok counters, ⟨now, .writing t' touched'⟩) ∧
          t'.coins = .ok after ∧ t'.Anchored archive chain'
      | .error refused => ∃ fault s,
          (Connecting.whole archive chain header block).on
            ⟨now, .writing db.committed.tables touched⟩ = (.error (.inconsistent fault), s) ∧
          fault.Tells refused := by
  have sound := run.sound named
  obtain ⟨hchain, t, vetted, agrees⟩ := sound.stored.of_chainHeaders named sound.archive stored
  obtain ⟨chain', hadd⟩ : ∃ chain', chain.add header = .ok chain' := by simp [Chain.add, above]
  have grown := (Chain.add_eq_ok.1 hadd).2
  have genuine : chain'.Genuine := by
    refine named.genuine fun h hh => ?_
    rw [grown, List.mem_append, List.mem_singleton] at hh
    rcases hh with hh | rfl
    · exact hchain h hh
    · exact known
  have hkeyed : db.committed.tables.unspent.Keyed := by
    obtain ⟨-, -, -, -, hkeyed, -⟩ := vetted.built.exact sound.archive (named.genuine hchain)
    rwa [agrees.unspent]
  have hwhole := vetted.built.whole_obeys sound.archive agrees genuine grown found
  refine ⟨_, chain', Tables.coins_eq hkeyed, hadd, ?_⟩
  have hstaging : Staging (Connecting.whole archive chain header block) := inferInstance
  have houtcome := hstaging.outcome now db.committed.tables touched
  cases hrule : db.committed.tables.unspent.coins.connectAll [] block.txs with
  | ok after =>
    rw [hrule] at hwhole
    obtain ⟨counters, t', hstaged, hcoins, anchored⟩ := hwhole
    obtain ⟨touched', hon⟩ := on_of_staged hstaged now touched
    exact ⟨counters, t', touched', hon, hcoins, anchored⟩
  | error refused =>
    rw [hrule] at hwhole
    obtain ⟨fault, hstaged, htells⟩ := hwhole
    rw [hstaged] at houtcome
    obtain ⟨t', touched', hon⟩ := houtcome
    exact ⟨fault, _, hon, htells⟩

lemma spendingBlock_plain :
    coinTables.coins.toOption = some {⟨(coinbase 1).hash, 0⟩} ∧
    Coins.connectAll [] {⟨(coinbase 1).hash, 0⟩} spendingBlock.txs =
      .ok {⟨(coinbase 2).hash, 0⟩, ⟨(passOn (passOn (coinbase 1))).hash, 0⟩} := by decide +kernel

theorem block_obeys_plain_rule_spending : ∃ db ledgers counters t' touched',
    Hub.Reached (· ∈ coinHeaders) (fun _ settings => settings.maxRollbackDepth = 0)
      ⟨db, coinArchive, ledgers⟩ ∧
    db.committed.tables.coins = .ok {⟨(coinbase 1).hash, 0⟩} ∧
    (Connecting.whole coinArchive coinChain spendingHeader spendingBlock).on
      ⟨.fresh, .writing db.committed.tables false⟩ =
        (.ok counters, ⟨.fresh, .writing t' touched'⟩) ∧
    t'.coins = .ok {⟨(coinbase 2).hash, 0⟩, ⟨(passOn (passOn (coinbase 1))).hash, 0⟩} := by
  have run := coinRun_reachable.hub_singleton List.mem_cons_self
  have found : coinArchive.block? spendingHeader.hash = some spendingBlock :=
    Archive.block?_add _ spendingBlock
  obtain ⟨coins, chain', hcoins, -, hblock⟩ := block_obeys_plain_rule coinHeaders_apart run
    coinRun_chainHeaders (by simp [coinHeaders]) ⟨by decide, rfl⟩ found .fresh false
  obtain ⟨hbefore, hrule⟩ := spendingBlock_plain
  rw [← Tables.coins_congr coinRun_evaluated.2.2.2, hcoins] at hbefore
  obtain rfl := Option.some.inj hbefore
  rw [hrule] at hblock
  obtain ⟨counters, t', touched', hon, hafter, -⟩ := hblock
  exact ⟨_, _, counters, t', touched', run, hcoins, hon, hafter⟩

end UtxoLedger

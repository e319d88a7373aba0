import Mathlib.Tactic.Common
import UtxoLedger.Proofs.DisconnectSteps

/-!
# Undoing a connected block

The undo walks back over the points that the connection went through. At each of them its unspent
table is that of the connection, together with the records that the block had removed before that
point, all of them fully spent. At the start of the block none is left, and the tables agree.
-/
namespace UtxoLedger

namespace Locator

lemma placeOf_fields {l : Locator} {chain : Chain} {u : UnspentTx} {place : TxLocation}
    (h : l.placeOf chain u = .ok place) : place.height = u.height ∧ place.index = u.index := by
  unfold placeOf at h
  split at h
  · cases h
    exact ⟨rfl, rfl⟩
  · split at h
    · cases h
      exact ⟨rfl, rfl⟩
    · cases h

end Locator

/-- By how much transactions can raise the counters. -/
def Transaction.raises (txs : List Transaction) : Counter → Nat
  | .unspentTxs | .txs => txs.length
  | .unspentOutputs | .outputs => (txs.flatMap outputs).length
  | .inputs => (txs.flatMap inputs).length

/-- The lists of a block that the store counts or keeps are short. The inputs and the outputs of all
transactions count together: the journal of a block has one list of the records spent, which may be
as long as all its inputs, and 2^31 such blocks keep every counter below 2^64. -/
structure Block.InBounds (b : Block) : Prop where
  txs : b.txs.length < 2 ^ 31
  inputs : (b.txs.flatMap Transaction.inputs).length < 2 ^ 31
  outputs : (b.txs.flatMap Transaction.outputs).length < 2 ^ 31

lemma Block.InBounds.of_mem {b : Block} {tx : Transaction} (h : b.InBounds) (htx : tx ∈ b.txs) :
    tx.inputs.length < 2 ^ 31 ∧ tx.outputs.length < 2 ^ 31 := by
  have hle {α : Type} (f : Transaction → List α) : (f tx).length ≤ (b.txs.flatMap f).length := by
    rw [List.flatMap_def]
    exact (List.sublist_flatten_of_mem (List.mem_map_of_mem htx)).length_le
  exact ⟨(hle _).trans_lt h.inputs, (hle _).trans_lt h.outputs⟩

namespace Connecting

variable {c c' : Connecting} {U U' : Table} {o : OutPoint} {source tx : Transaction}
  {place : TxLocation} {inputs : List TxInput} {sources : List Transaction}
  {places : List TxLocation}

/-- No counter reaches the limit while the transactions are connected. -/
def Room (limit : Nat) (c : Connecting) (pending : List Transaction) : Prop :=
  ∀ k, (c.counters.get k).toNat + (if k = .unspentTxs then c.journal.spent.length else 0) +
    Transaction.raises pending k < limit

/-- Spending moves a record from the count to the list, takes outputs off, and counts nothing
else. -/
structure Paid (c c' : Connecting) : Prop where
  unspentTxs : (c'.counters.get .unspentTxs).toNat + c'.journal.spent.length =
    (c.counters.get .unspentTxs).toNat + c.journal.spent.length
  unspentOutputs : (c'.counters.get .unspentOutputs).toNat ≤ (c.counters.get .unspentOutputs).toNat
  others : ∀ k, k ≠ .unspentTxs → k ≠ .unspentOutputs → c'.counters.get k = c.counters.get k
  spent : c.journal.spent.length ≤ c'.journal.spent.length

lemma Spends.paid (h : Spends c o U source place c' U') :
    Paid c c' ∧ c'.journal.spent.length ≤ c.journal.spent.length + 1 ∧
      (c'.counters.get .unspentOutputs).toNat + 1 = (c.counters.get .unspentOutputs).toNat := by
  cases h with
  | @last u _ lowered counters _ _ _ _ _ outputs _ _ _ txs =>
    have houtputs := Counters.toNat_get_of_lower outputs
    have htxs := Counters.toNat_get_of_lower txs
    have hlength : (c.journal.noteSpent u.hash).spent.length = c.journal.spent.length + 1 :=
      List.length_append
    have h1 := houtputs .unspentTxs
    have h2 := htxs .unspentTxs
    have h3 := houtputs .unspentOutputs
    have h4 := htxs .unspentOutputs
    simp only [reduceCtorEq, if_false, if_true] at h1 h2 h3 h4
    refine ⟨⟨?_, ?_, fun k hk hk' => ?_, ?_⟩, hlength.le, ?_⟩
    · rw [hlength]
      dsimp only
      omega
    · dsimp only
      omega
    · have h5 := houtputs k
      have h6 := htxs k
      rw [if_neg hk', Nat.add_zero] at h5
      rw [if_neg hk, Nat.add_zero] at h6
      exact UInt64.toNat_inj.1 (h6.trans h5)
    · rw [hlength]
      omega
    · dsimp only
      omega
  | more _ _ _ outputs =>
    have houtputs := Counters.toNat_get_of_lower outputs
    have h1 := houtputs .unspentTxs
    have h2 := houtputs .unspentOutputs
    simp only [reduceCtorEq, if_false, if_true] at h1 h2
    refine ⟨⟨by dsimp only; omega, by dsimp only; omega, fun k hk hk' => ?_, le_rfl⟩,
      Nat.le_succ _, by dsimp only; omega⟩
    have h3 := houtputs k
    rw [if_neg hk', Nat.add_zero] at h3
    exact UInt64.toNat_inj.1 h3

lemma SpendsOwn.spends (h : SpendsOwn c o U source place c' U') :
    Spends c o U source place c' U' := by
  cases h with
  | last own gone txs =>
    rw [← own.name]
    refine .last own.found own.size_lt own.spent own.outputs own.located gone ?_ txs own.resolved
    rw [own.name]
    exact Table.contains_eq_true.2 ⟨_, own.found⟩
  | more own left =>
    rw [← own.name]
    refine .more own.found own.size_lt own.spent own.outputs own.located left ?_ own.size_lt
      own.resolved
    rw [own.name]
    exact own.found

lemma SpendsAll.paid (h : SpendsAll c inputs U sources places c' U') :
    Paid c c' ∧ c'.journal.spent.length ≤ c.journal.spent.length + inputs.length := by
  induction h with
  | nil => exact ⟨⟨rfl, le_rfl, fun _ _ _ => rfl, le_rfl⟩, le_rfl⟩
  | cons first _ ih =>
    obtain ⟨hfirst, hlength, -⟩ := first.paid
    obtain ⟨hrest, hlengths⟩ := ih
    refine ⟨⟨hrest.unspentTxs.trans hfirst.unspentTxs,
      hrest.unspentOutputs.trans hfirst.unspentOutputs,
      fun k hk hk' => (hrest.others k hk hk').trans (hfirst.others k hk hk'),
      hfirst.spent.trans hrest.spent⟩, ?_⟩
    rw [List.length_cons]
    omega

/-- The counters after a transaction is minted, as long as they stay below the limit. -/
lemma Mints.toNat_get {name : Hash} (h : Mints c tx name U c' U')
    (htxs : (c.counters.get .unspentTxs).toNat + 1 < 2 ^ 64)
    (houtputs : (c.counters.get .unspentOutputs).toNat + tx.outputs.length < 2 ^ 64) (k : Counter) :
    (c'.counters.get k).toNat = (c.counters.get k).toNat +
      (if tx.outputs ≠ [] ∧ k = .unspentTxs then 1 else 0) +
      if k = .unspentOutputs then tx.outputs.length else 0 := by
  cases h with
  | empty none =>
    simp [none]
  | enters some =>
    dsimp only
    rw [Counters.toNat_get_raise, Counters.toNat_get_raise htxs]
    · simp [some]
    · rw [Counters.toNat_get_raise htxs]
      simpa using houtputs

end Connecting

/-- What a transaction adds to the totals. -/
def Transaction.totals (tx : Transaction) : Counter → Nat
  | .txs => 1
  | .inputs => tx.inputs.length
  | .outputs => tx.outputs.length
  | _ => 0

namespace Counters

variable {cs : Counters} {tx : Transaction}

lemma toNat_get_totals (h : ∀ k, (cs.get k).toNat + tx.totals k < 2 ^ 64) (k : Counter) :
    ((((cs.raise .txs 1).raise .inputs tx.inputs.length).raise .outputs
      tx.outputs.length).get k).toNat = (cs.get k).toNat + tx.totals k := by
  have htxs : (cs.get .txs).toNat + 1 < 2 ^ 64 := h .txs
  have h1 := toNat_get_raise htxs
  have hinputs : ((cs.raise .txs 1).get .inputs).toNat + tx.inputs.length < 2 ^ 64 := by
    rw [h1]
    exact h .inputs
  have h2 := toNat_get_raise hinputs
  have houtputs : (((cs.raise .txs 1).raise .inputs tx.inputs.length).get .outputs).toNat +
      tx.outputs.length < 2 ^ 64 := by
    rw [h2, h1]
    exact h .outputs
  rw [toNat_get_raise houtputs, h2, h1]
  cases k <;> simp [Transaction.totals]

lemma exists_lower_totals (cs : Counters) (tx : Transaction)
    (h : ∀ k, tx.totals k ≤ (cs.get k).toNat) :
    ∃ a b c, cs.lower .txs 1 = .ok a ∧ a.lower .inputs tx.inputs.length = .ok b ∧
      b.lower .outputs tx.outputs.length = .ok c ∧
      ∀ k, (c.get k).toNat + tx.totals k = (cs.get k).toNat := by
  obtain ⟨a, ha⟩ := cs.exists_lower .txs (h .txs)
  have hna := toNat_get_of_lower ha
  obtain ⟨b, hb⟩ := a.exists_lower .inputs (n := tx.inputs.length) (by
    have := hna .inputs
    rw [if_neg (by decide), Nat.add_zero] at this
    rw [this]
    exact h .inputs)
  have hnb := toNat_get_of_lower hb
  obtain ⟨c, hc⟩ := b.exists_lower .outputs (n := tx.outputs.length) (by
    have h1 := hna .outputs
    have h2 := hnb .outputs
    rw [if_neg (by decide), Nat.add_zero] at h1 h2
    rw [h2, h1]
    exact h .outputs)
  have hnc := toNat_get_of_lower hc
  refine ⟨a, b, c, ha, hb, hc, fun k => ?_⟩
  have h1 := hna k
  have h2 := hnb k
  have h3 := hnc k
  cases k <;> simp [Transaction.totals] at * <;> omega

end Counters

namespace Connecting

variable {c c' : Connecting} {U U' : Table} {tx : Transaction} {ld : LoadedTx} {limit : Nat}
  {pending rest sources txs : List Transaction} {places : List TxLocation}
  {loaded : List LoadedTx}

lemma Room.mono {limit' : Nat} (room : Room limit c pending)
    (hle : limit ≤ limit') : Room limit' c pending := fun k => (room k).trans_le hle

/-- While there is room, nothing wraps within the next transaction. -/
lemma Room.steps {c₁ c₂ : Connecting} {U₁ U₂ : Table} (room : Room (2 ^ 64) c (tx :: rest))
    (spends : SpendsAll { c with minted := c.minted.insert tx.hash } tx.spending U sources places c₁
      U₁) (mints : Mints c₁ tx tx.hash U₁ c₂ U₂) :
    (c₁.counters.get .unspentTxs).toNat + 1 < 2 ^ 64 ∧
      (c₁.counters.get .unspentOutputs).toNat + tx.outputs.length < 2 ^ 64 ∧
      ∀ k, (c₂.counters.get k).toNat + tx.totals k < 2 ^ 64 := by
  have h1 := room .unspentTxs
  have h2 := room .unspentOutputs
  have h3 := room .txs
  have h4 := room .inputs
  have h5 := room .outputs
  simp only [Transaction.raises, List.length_cons, List.flatMap_cons, List.length_append,
    reduceCtorEq, if_false, if_true] at h1 h2 h3 h4 h5
  obtain ⟨⟨hpaid, houtputs, hothers, -⟩, -⟩ := spends.paid
  dsimp only at hpaid houtputs hothers
  have htxs : (c₁.counters.get .unspentTxs).toNat + 1 < 2 ^ 64 := by omega
  have houts : (c₁.counters.get .unspentOutputs).toNat + tx.outputs.length < 2 ^ 64 := by omega
  refine ⟨htxs, houts, fun k => ?_⟩
  have hminted := mints.toNat_get htxs houts k
  have hlt := (c₂.counters.get k).toNat_lt
  cases k with
  | unspentTxs => simpa [Transaction.totals] using hlt
  | unspentOutputs => simpa [Transaction.totals] using hlt
  | txs =>
    rw [hothers .txs (by decide) (by decide)] at hminted
    simp only [reduceCtorEq, and_false, if_false, Transaction.totals] at hminted ⊢
    omega
  | inputs =>
    rw [hothers .inputs (by decide) (by decide)] at hminted
    simp only [reduceCtorEq, and_false, if_false, Transaction.totals] at hminted ⊢
    omega
  | outputs =>
    rw [hothers .outputs (by decide) (by decide)] at hminted
    simp only [reduceCtorEq, and_false, if_false, Transaction.totals] at hminted ⊢
    omega

lemma Connects.room (h : Connects c tx U ld c' U') (room : Room limit c (tx :: rest))
    (hle : limit ≤ 2 ^ 64) : Room limit c' rest := by
  obtain ⟨-, -, spends, mints⟩ := h
  rename_i sources places c₁ c₂ U₁
  obtain ⟨htxs, houts, htotals⟩ := (room.mono hle).steps spends mints
  have h1 := room .unspentTxs
  have h2 := room .unspentOutputs
  have h3 := room .txs
  have h4 := room .inputs
  have h5 := room .outputs
  simp only [Transaction.raises, List.length_cons, List.flatMap_cons, List.length_append,
    reduceCtorEq, if_false, if_true] at h1 h2 h3 h4 h5
  obtain ⟨⟨hpaid, houtputs, hothers, -⟩, -⟩ := spends.paid
  dsimp only at hpaid houtputs hothers
  have hminted := mints.toNat_get htxs houts
  have hcounted := Counters.toNat_get_totals htotals
  have hspent : (c₂.journal.noteUnminted ⟨tx.hash, places⟩).spent.length =
      c₁.journal.spent.length := by
    rw [mints.sameBlock.2]
    rfl
  intro k
  dsimp only
  rw [hcounted, hminted, hspent]
  cases k with
  | unspentTxs =>
    simp only [Transaction.raises, Transaction.totals, and_true, if_true, reduceCtorEq, if_false]
    split <;> omega
  | unspentOutputs =>
    simp only [Transaction.raises, Transaction.totals, and_false, if_true, reduceCtorEq, if_false]
    omega
  | txs =>
    rw [hothers .txs (by decide) (by decide)]
    simp only [Transaction.raises, Transaction.totals, and_false, reduceCtorEq, if_false]
    omega
  | inputs =>
    rw [hothers .inputs (by decide) (by decide)]
    simp only [Transaction.raises, Transaction.totals, and_false, reduceCtorEq, if_false]
    omega
  | outputs =>
    rw [hothers .outputs (by decide) (by decide)]
    simp only [Transaction.raises, Transaction.totals, and_false, reduceCtorEq, if_false]
    omega

lemma ConnectsAll.room (h : ConnectsAll c txs U loaded c' U') (room : Room limit c txs)
    (hle : limit ≤ 2 ^ 64) : Room limit c' [] := by
  induction h with
  | nil => exact room
  | cons first _ ih => exact ih (first.room room hle)

lemma Connects.spent_length (h : Connects c tx U ld c' U') :
    c'.journal.spent.length ≤ c.journal.spent.length + tx.inputs.length := by
  obtain ⟨-, -, spends, mints⟩ := h
  rename_i sources places c₁ c₂ U₁
  have hspent : c₁.journal.spent.length ≤ c.journal.spent.length + tx.spending.length :=
    spends.paid.2
  have hspending := tx.length_spending_le
  change c₂.journal.spent.length ≤ _
  rw [mints.sameBlock.2]
  omega

lemma ConnectsAll.spent_length (h : ConnectsAll c txs U loaded c' U') :
    c'.journal.spent.length ≤ c.journal.spent.length + (txs.flatMap Transaction.inputs).length := by
  induction h with
  | nil => exact Nat.le_add_right _ _
  | cons first _ ih =>
    have hfirst := first.spent_length
    rw [List.flatMap_cons, List.length_append]
    omega

end Connecting

namespace Disconnecting

open StoreM Connecting

variable {c c' : Connecting} {d d' : Disconnecting} {start U U' V V' : Table} {o : OutPoint}
  {source tx : Transaction} {place : TxLocation} {txs : List Transaction} {ld : LoadedTx}
  {loaded : List LoadedTx} {w : Tables} {j : Journal} {places : Std.ExtTreeMap Hash TxLocation}
  {extra : Counter → Nat} {mentions : List (Hash × TxLocation)}

/-- The undo stands at the point of a connection: what the block had removed before that point is
back without an unspent output, and counted; everything else agrees. The totals are ahead by
`extra`. -/
structure Undoing (j : Journal) (places : Std.ExtTreeMap Hash TxLocation) (extra : Counter → Nat)
    (c : Connecting) (U : Table) (d : Disconnecting) (V : Table) : Prop where
  locator : d.locator = c.locator
  journal : d.journal = j
  counters : ∀ k, (d.counters.get k).toNat = (c.counters.get k).toNat +
    (if k = .unspentTxs then c.journal.spent.length else 0) + extra k
  frame : ∀ k, (∀ name ∈ c.journal.spent, name.bytes ≠ k) → V[k]? = U[k]?
  back : ∀ name ∈ c.journal.spent, ∃ place source, places[name]? = some place ∧
    c.locator.resolve place name = .ok source ∧
    V[name.bytes]? = some (skeleton name place source).encode

lemma unspentStates_of_spentStates {u : UnspentTx} {states : OutputStates}
    (h : spentStates u o = .ok states) : unspentStates { u with states } o = .ok u.states := by
  obtain ⟨hget, hset⟩ := spentStates_eq_ok.1 h
  obtain ⟨hi, hsize, hstates⟩ := OutputStates.set?_eq_some hset
  have hspent : states.get? o.index.toNat = some .spent := by rw [hstates _ hi, if_pos rfl]
  unfold unspentStates
  rw [hspent, OutputStates.set?_set? hget hset]

/-- The record that a spend leaves is there to be turned back, even if it was removed: then it is
the one that came back fully spent. -/
lemma Undoing.found (hs : Settled start mentions c U) (h : SpendsOwn c o U source place c' U')
    (hplace : places[o.hash]? = some place) (hu : Undoing j places extra c' U' d' V') :
    ∃ u states lowered, Spendable c o U u states lowered source place ∧
      V'[o.hash.bytes]? = some { u with states }.encode := by
  cases h with
  | @last u states lowered _ own gone _ =>
    refine ⟨u, states, lowered, own, ?_⟩
    have hmem : o.hash ∈ (c.journal.noteSpent o.hash).spent :=
      List.mem_append_right _ (List.mem_singleton_self _)
    obtain ⟨place', source', hplace', hsource', hV⟩ := hu.back _ hmem
    cases hplace.symm.trans hplace'
    cases own.resolved.symm.trans hsource'
    obtain ⟨hheight, hindex⟩ := Locator.placeOf_fields own.located
    have hstates : states = .filled source.outputs.length .spent := by
      rw [own.length, ← size_of_spentStates own.spent]
      exact OutputStates.eq_filled_of_allSpent gone
    rw [hV, skeleton, hheight, hindex, ← own.name, hstates]
  | @more u states lowered own left =>
    refine ⟨u, states, lowered, own, ?_⟩
    rw [hu.frame, Table.getElem?_insert, if_pos rfl]
    intro name hname hkey
    rw [Hash.bytes_inj.1 hkey] at hname
    exact hs.notMem own.found hname

/-- The counters of the undo fall back behind a spend. -/
lemma Undoing.counters_spend (h : SpendsOwn c o U source place c' U')
    (hextra : extra .unspentOutputs = 0) (hu : Undoing j places extra c' U' d' V') (k : Counter) :
    ((d'.counters.raise .unspentOutputs 1).get k).toNat = (c.counters.get k).toNat +
      (if k = .unspentTxs then c.journal.spent.length else 0) + extra k := by
  obtain ⟨⟨htxs, -, hothers, -⟩, -, houtputs⟩ := h.spends.paid
  have hlt := (c.counters.get .unspentOutputs).toNat_lt
  have hat := hu.counters .unspentOutputs
  rw [if_neg (by decide), hextra, Nat.add_zero] at hat
  rw [Counters.toNat_get_raise (by omega)]
  have hk := hu.counters k
  by_cases h1 : k = .unspentTxs
  · subst h1
    simp only [if_true, reduceCtorEq, if_false] at hk ⊢
    omega
  · by_cases h2 : k = .unspentOutputs
    · subst h2
      simp only [reduceCtorEq, if_true, if_false, hextra] at hk ⊢
      omega
    · rw [if_neg h1] at hk
      rw [hk, if_neg h1, if_neg h2, hothers k h1 h2, Nat.add_zero]

/-- One spend, turned back. -/
lemma Undoing.unspend (hs : Settled start mentions c U) (h : SpendsOwn c o U source place c' U')
    (hplace : places[o.hash]? = some place) (hextra : extra .unspentOutputs = 0)
    (hu : Undoing j places extra c' U' d' V') :
    ∃ d V, (d'.unspend o place).staged { w with unspent := V' } =
      .ok ((source, d), { w with unspent := V }) ∧ Undoing j places extra c U d V := by
  obtain ⟨u, states, lowered, own, hfound⟩ := hu.found hs h hplace
  have hsize := size_of_spentStates own.spent
  have hlocator : c'.locator = c.locator := by cases h <;> rfl
  have hunspend := staged_unspend (d := d') (t := { w with unspent := V' }) hfound
    (hsize ▸ own.size_lt) own.name (unspentStates_of_spentStates own.spent)
    (by rw [hu.locator, hlocator]; exact own.resolved)
  refine ⟨_, _, hunspend, hu.locator.trans hlocator, hu.journal, hu.counters_spend h hextra, ?_,
    ?_⟩
  · intro k hk
    rw [Table.getElem?_insert]
    split
    next hkey =>
      subst hkey
      exact own.found.symm
    next hkey =>
      cases h with
      | last =>
        rw [hu.frame k, Table.getElem?_erase, if_neg hkey]
        intro name hname
        rcases List.mem_append.1 hname with hname | hname
        · exact hk name hname
        · rwa [List.mem_singleton.1 hname]
      | more => rw [hu.frame k hk, Table.getElem?_insert, if_neg hkey]
  · intro name hname
    have hne : ¬ o.hash.bytes = name.bytes := by
      intro hkey
      rw [← Hash.bytes_inj.1 hkey] at hname
      exact hs.notMem own.found hname
    rw [Table.getElem?_insert, if_neg hne, ← hlocator]
    refine hu.back name ?_
    cases h with
    | last => exact List.mem_append_left _ hname
    | more => exact hname

/-- The spends of a transaction, turned back from the last to the first. -/
lemma Undoing.unspendAll {inputs : List TxInput} {sources : List Transaction}
    {found : List TxLocation} (hs : Settled start mentions c U)
    (h : SpendsAllOwn c inputs U sources found c' U')
    (hplaces : ∀ e ∈ (inputs.map fun input => input.prevout.hash).zip found,
      places[e.1]? = some e.2) (hextra : extra .unspentOutputs = 0)
    (hu : Undoing j places extra c' U' d' V') :
    ∃ back d V, (d'.unspendAll (inputs.zip found).reverse).staged { w with unspent := V' } =
      .ok ((back, d), { w with unspent := V }) ∧ Undoing j places extra c U d V := by
  induction h generalizing mentions with
  | nil => exact ⟨[], d', V', rfl, hu⟩
  | @cons c c₁ c₂ input rest U U₁ U₂ source place sources found first more ih =>
    obtain ⟨back, d₁, V₁, hrest, hu₁⟩ :=
      ih (hs.spend first) (fun e he => hplaces e (.tail _ he)) hu
    obtain ⟨d, V, hfirst, hu₀⟩ := hu₁.unspend (w := w) hs first
      (hplaces (input.prevout.hash, place) List.mem_cons_self) hextra
    refine ⟨back ++ [source], d, V, ?_, hu₀⟩
    rw [List.zip_cons_cons, List.reverse_cons]
    exact staged_unspendAll_append hrest (staged_bind_eq_ok.2 ⟨_, _, hfirst, rfl⟩)

/-- What a transaction left in the unspent set is taken out again. -/
lemma Undoing.unmint (hs : Settled start mentions c' U') (h : Mints c tx tx.hash U c' U')
    (htxs : (c.counters.get .unspentTxs).toNat + 1 < 2 ^ 64)
    (houtputs : (c.counters.get .unspentOutputs).toNat + tx.outputs.length < 2 ^ 64)
    (hlength : tx.outputs.length < 2 ^ 32) (hu : Undoing j places extra c' U' d' V') :
    ∃ d V, (d'.unmint tx tx.hash).staged { w with unspent := V' } =
      .ok (d, { w with unspent := V }) ∧ Undoing j places extra c U d V := by
  have hcounters := h.toNat_get htxs houtputs
  cases h with
  | empty none => exact ⟨d', V', staged_unmint_empty none _, hu⟩
  | enters some free =>
    have hnew : tx.hash ∉ c.journal.spent :=
      hs.notMem (U := U.insert _ _) (by rw [Table.getElem?_insert, if_pos rfl])
    have hne {name : Hash} (hname : name ∈ c.journal.spent) : name.bytes ≠ tx.hash.bytes :=
      fun hkey => hnew (Hash.bytes_inj.1 hkey ▸ hname)
    have hfound : V'[tx.hash.bytes]? = Option.some (c.record tx tx.hash).encode := by
      rw [hu.frame _ fun name hname => hne hname, Table.getElem?_insert, if_pos rfl]
    have hat := hu.counters
    obtain ⟨lowered, hlowered⟩ := d'.counters.exists_lower .unspentTxs
      (n := 1) (by
        rw [hat, hcounters]
        simp [some]
        omega)
    have hafter := Counters.toNat_get_of_lower hlowered
    obtain ⟨counters, hlower⟩ := lowered.exists_lower .unspentOutputs
      (n := tx.outputs.length) (by
        have := hafter .unspentOutputs
        rw [if_neg (by decide), Nat.add_zero, hat, hcounters] at this
        rw [this]
        simp
        omega)
    have hafter' := Counters.toNat_get_of_lower hlower
    have hunmint := staged_unmint (d := d') (t := { w with unspent := V' }) some hfound hlength
      (by rw [hu.locator]; rfl) (OutputStates.allUnspent_filled _) hlowered hlower
    refine ⟨_, _, hunmint, hu.locator, hu.journal, ?_, ?_, ?_⟩
    · intro k
      have h1 := hafter k
      have h2 := hafter' k
      have h3 := hat k
      rw [hcounters] at h3
      dsimp only at h1 h2 h3 ⊢
      cases k <;> simp [some] at h1 h2 h3 ⊢ <;> omega
    · intro k hk
      rw [Table.getElem?_erase]
      split
      next hkey => rw [← hkey, free]
      next hkey => rw [hu.frame k hk, Table.getElem?_insert, if_neg hkey]
    · intro name hname
      obtain ⟨place, source, hplace, hsource, hV⟩ := hu.back name hname
      refine ⟨place, source, hplace, hsource, ?_⟩
      rw [Table.getElem?_erase, if_neg (hne hname).symm, hV]

lemma mem_mentions {entries : UnmintedList} {i : Nat} {u : UnmintedTx} (htx : txs[i]? = some tx)
    (hu : entries[i]? = some u) {e : Hash × TxLocation} (he : e ∈ tx.mentions u.sources) :
    e ∈ Journal.mentions txs entries := by
  refine List.mem_flatMap.2 ⟨(tx, u), List.mem_iff_getElem?.2 ⟨i, ?_⟩, he⟩
  rw [List.getElem?_zip_eq_some]
  exact ⟨htx, hu⟩

/-- One transaction undone. In between, the totals of the undo are ahead by what the transaction
had added. -/
lemma Undoing.disconnect (hs : Settled start mentions c U) (h : Connects c tx U ld c' U')
    (hnew : tx.outputs ≠ [] → tx.hash ∉ mentions.map Prod.fst)
    (hat : c.locator.block.txs[c.position]? = some tx) (hbound : c.position < 2 ^ 31)
    (hlength : tx.outputs.length < 2 ^ 32) {rest : List Transaction}
    (room : Room (2 ^ 64) c (tx :: rest)) (hposition : c.journal.unminted.length = c.position)
    (hlisted : c'.journal.unminted <+: j.unminted)
    (hplaces : ∀ e ∈ Journal.mentions c.locator.block.txs j.unminted, places[e.1]? = some e.2)
    (hu : Undoing j places (fun _ => 0) c' U' d' V') :
    ∃ back d V, (d'.disconnect (tx, c.position)).staged { w with unspent := V' } =
      .ok ((back, d), { w with unspent := V }) ∧ Undoing j places (fun _ => 0) c U d V := by
  obtain ⟨-, free, spends, mints⟩ := h
  rename_i sources found c₁ c₂ U₁
  obtain ⟨htxs, houts, htotals⟩ := room.steps spends mints
  obtain ⟨own, hs₂⟩ := hs.spend_mint free spends mints hnew hat hbound hlength
  have hs₀ : Settled start mentions { c with minted := c.minted.insert tx.hash } U :=
    hs.congr rfl rfl rfl
  have hentry : j.unminted[c.position]? = some ⟨tx.hash, found⟩ := by
    obtain ⟨more, hmore⟩ := hlisted
    have hunminted : c₂.journal.unminted = c.journal.unminted :=
      mints.sameBlock.1.unminted.trans spends.sameBlock.unminted
    change (c₂.journal.unminted ++ [⟨tx.hash, found⟩]) ++ more = _ at hmore
    rw [hunminted, List.append_assoc] at hmore
    rw [← hmore, ← hposition, List.getElem?_append_right le_rfl, Nat.sub_self]
    rfl
  -- The state before the totals were counted.
  have hu₂ : Undoing j places tx.totals c₂ U' d' V' := by
    refine ⟨hu.locator, hu.journal, fun k => ?_, hu.frame, hu.back⟩
    have hk := hu.counters k
    rw [Counters.toNat_get_totals htotals] at hk
    rw [hk]
    change _ + tx.totals k + (if k = _ then c₂.journal.spent.length else 0) + 0 = _
    omega
  obtain ⟨d₁, V₁, hunmint, hu₁⟩ := hu₂.unmint (w := w) hs₂ mints htxs houts hlength
  obtain ⟨back, d₂, V, hunspend, hu₀⟩ := hu₁.unspendAll (w := w) hs₀ own
    (fun e he => hplaces e (mem_mentions hat hentry he)) rfl
  obtain ⟨a, b, counters, ha, hb, hc, hcounters⟩ :=
    d₂.counters.exists_lower_totals tx fun k => by
      rw [hu₀.counters k]
      omega
  have hspent : (if tx.isCoinbase then [] else tx.inputs.zip
      ((d₁.journal.sources? c.position).getD [])) = tx.spending.zip found := by
    have hsources : d₁.journal.sources? c.position = some found := by
      rw [hu₁.journal, Journal.sources?, hentry]
      rfl
    rw [hsources, Transaction.spending]
    split <;> rfl
  refine ⟨⟨tx, tx.hash, c.position, tx.isCoinbase, back.reverse⟩, { d₂ with counters }, V, ?_, ?_⟩
  · refine staged_bind_eq_ok.2 ⟨d₁, _, hunmint, ?_⟩
    refine staged_bind_eq_ok.2 ⟨(back, d₂), _, by rw [hspent]; exact hunspend, ?_⟩
    refine staged_consistent_bind_eq_ok.2 ⟨a, ha, ?_⟩
    refine staged_consistent_bind_eq_ok.2 ⟨b, hb, ?_⟩
    exact staged_consistent_bind_eq_ok.2 ⟨counters, hc, rfl⟩
  · refine ⟨hu₀.locator, hu₀.journal, fun k => ?_, hu₀.frame, hu₀.back⟩
    have hk := hcounters k
    rw [hu₀.counters k] at hk
    exact Nat.add_right_cancel hk

/-- A list of transactions undone from the last to the first. -/
theorem Undoing.disconnectAll (h : ConnectsAll c txs U loaded c' U')
    (hs : Settled start mentions c U)
    (hnone : Transaction.NoneReturns (mentions.map Prod.fst) txs)
    (hat : c.locator.block.txs.drop c.position = txs)
    (hcount : c.locator.block.txs.length ≤ 2 ^ 31)
    (hlength : ∀ tx ∈ txs, tx.outputs.length < 2 ^ 32) (room : Room (2 ^ 64) c txs)
    (hposition : c.journal.unminted.length = c.position)
    (hlisted : c'.journal.unminted <+: j.unminted)
    (hplaces : ∀ e ∈ Journal.mentions c.locator.block.txs j.unminted, places[e.1]? = some e.2)
    (hu : Undoing j places (fun _ => 0) c' U' d' V') :
    ∃ d V, (Progress.workOff Disconnecting.disconnect d'
        (txs.zipIdx c.position).reverse).staged { w with unspent := V' } =
          .ok (d, { w with unspent := V }) ∧
      Undoing j places (fun _ => 0) c U d V := by
  induction h generalizing mentions with
  | nil => exact ⟨d', V', rfl, hu⟩
  | @cons c c₁ c₂ tx rest U U₁ U₂ ld loaded first more ih =>
    have htx := getElem?_of_drop hat
    have hlt : c.position < c.locator.block.txs.length := (List.getElem?_eq_some_iff.1 htx).1
    obtain ⟨places, hafter⟩ := first.after
    have hs₁ := hs.connect first hafter hnone.1 htx (by omega) (hlength tx List.mem_cons_self)
    obtain ⟨d₁, V₁, hrest, hu₁⟩ := ih hs₁
      (by rw [hafter.names]; exact hnone.2) (hafter.pending hat)
      (by rw [hafter.locator]; exact hcount) (fun t ht => hlength t (.tail _ ht))
      (first.room room le_rfl)
      (by rw [hafter.unminted, hafter.position, List.length_append, hposition]; rfl) hlisted
      (by rw [hafter.locator]; exact hplaces) hu
    obtain ⟨back, d, V, hfirst, hu₀⟩ := hu₁.disconnect (w := w) hs first hnone.1 htx (by omega)
      (hlength tx List.mem_cons_self) room hposition (more.unminted_prefix.trans hlisted) hplaces
    refine ⟨d, V, ?_, hu₀⟩
    rw [List.zipIdx_cons, List.reverse_cons, ← hafter.position]
    refine staged_workOff_append hrest ?_
    exact staged_bind_eq_ok.2 ⟨_, _, hfirst, rfl⟩

end Disconnecting
end UtxoLedger

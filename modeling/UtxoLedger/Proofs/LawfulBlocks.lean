import Mathlib.Tactic.Common
import UtxoLedger.Proofs.FeeArithmetic
import UtxoLedger.Proofs.PoolClaims

/-!
# Lawful blocks

What the consensus rules ask of a block, said at once and of integers: where the amounts to be spent
are not negative, no sum that the rules form on the way wraps around, and the sum of the fees
saturates only where a coinbase cannot reach it anyway.
-/
namespace UtxoLedger

namespace Amount

variable {a b c total : Amount} {values : List Amount}

lemma exists_toInt_eq {z : Int} (nonneg : 0 ≤ z) (le : z ≤ maxMoney.toInt) :
    ∃ a : Amount, a.toInt = z := by
  rw [toInt_maxMoney] at le
  exact ⟨Int64.ofInt z, Int64.toInt_ofInt_of_le (by omega) (by omega)⟩

lemma addWithin_eq_some_iff : addWithin a b = some c ↔
    c.toInt = a.toInt + b.toInt ∧ c.toInt ≤ maxMoney.toInt := by
  constructor
  · exact toInt_of_addWithin
  · intro h
    have hrange : Int64.minValue.toInt ≤ a.toInt + b.toInt ∧
        a.toInt + b.toInt ≤ Int64.maxValue.toInt := by
      rw [← h.1]
      exact ⟨Int64.minValue_le_toInt c, Int64.toInt_le c⟩
    have hadd : checkedAdd a b = some c := by
      rw [checkedAdd, if_pos hrange, ← h.1, Int64.ofInt_toInt]
    rw [addWithin, hadd, Option.filter_eq_some_iff]
    exact ⟨rfl, decide_eq_true (Int64.le_iff_toInt_le.2 h.2)⟩

lemma sum_toInt_nonneg (nonneg : ∀ v ∈ values, 0 ≤ v.toInt) :
    0 ≤ (values.map Int64.toInt).sum :=
  List.sum_nonneg (List.forall_mem_map.2 nonneg)

/-- A sum of money is the sum of the integers, as long as this stays within the supply. -/
lemma sumFrom_eq_some_iff (htotal : 0 ≤ total.toInt) (hmax : total.toInt ≤ maxMoney.toInt) :
    sumFrom total values = some c ↔ (∀ v ∈ values, 0 ≤ v.toInt) ∧
      c.toInt = total.toInt + (values.map Int64.toInt).sum ∧ c.toInt ≤ maxMoney.toInt := by
  induction values generalizing total with
  | nil =>
    simp only [sumFrom, Option.some.injEq, ← Int64.toInt_inj]
    simp
    omega
  | cons v vs ih =>
    rw [sumFrom, List.forall_mem_cons, List.map_cons, List.sum_cons]
    by_cases hv : v < 0
    · rw [if_pos hv]
      have hneg : v.toInt < 0 := Int64.lt_iff_toInt_lt.1 hv
      simp
      omega
    · rw [if_neg hv]
      rw [Int64.lt_iff_toInt_lt, Int.not_lt] at hv
      have hv : 0 ≤ v.toInt := hv
      constructor
      · intro h
        split at h
        next t hadd =>
          obtain ⟨heq, hle⟩ := addWithin_eq_some_iff.1 hadd
          obtain ⟨hall, hsum, hc⟩ := (ih (by omega) hle).1 h
          exact ⟨⟨hv, hall⟩, by omega, hc⟩
        · cases h
      · intro h
        have hrest := sum_toInt_nonneg h.1.2
        obtain ⟨t, ht⟩ := exists_toInt_eq (z := total.toInt + v.toInt) (by omega) (by omega)
        have hadd : addWithin total v = some t := addWithin_eq_some_iff.2 ⟨ht, by omega⟩
        rw [hadd]
        exact (ih (by omega) (by omega)).2 ⟨h.1.2, by omega, h.2.2⟩

end Amount

namespace Transaction

variable {tx : Transaction}

/-- A transaction keeps the limits that hold whatever it spends. -/
structure WithinLimits (tx : Transaction) : Prop where
  inputs_ne : tx.inputs ≠ []
  outputs_ne : tx.outputs ≠ []
  inputs_le : tx.inputs.length ≤ maxInputs
  outputs_le : tx.outputs.length ≤ maxOutputs
  amounts : ∀ o ∈ tx.outputs, 0 ≤ o.value.toInt ∧ o.value.toInt ≤ Amount.maxMoney.toInt
  worth_le : tx.worth ≤ Amount.maxMoney.toInt
  size_le : tx.encode.length ≤ maxSize
  prevouts : tx.isCoinbase = false →
    (∀ input ∈ tx.inputs, input.prevout.isNull = false) ∧ tx.prevouts.Nodup

lemma outputFault?_eq_none_iff {i : Nat} {total : Amount} {os : List TxOutput}
    (htotal : 0 ≤ total.toInt) (hmax : total.toInt ≤ Amount.maxMoney.toInt) :
    outputFault? i total os = none ↔
      (∀ o ∈ os, 0 ≤ o.value.toInt ∧ o.value.toInt ≤ Amount.maxMoney.toInt) ∧
        total.toInt + (os.map fun o => o.value.toInt).sum ≤ Amount.maxMoney.toInt := by
  induction os generalizing i total with
  | nil => simpa [outputFault?] using hmax
  | cons o os ih =>
    have hzero : (0 : Amount).toInt = 0 := rfl
    rw [outputFault?, List.forall_mem_cons, List.map_cons, List.sum_cons]
    by_cases hrange : o.value < 0 ∨ Amount.maxMoney < o.value
    · rw [if_pos hrange]
      rw [Int64.lt_iff_toInt_lt, Int64.lt_iff_toInt_lt, hzero] at hrange
      simp
      omega
    · rw [if_neg hrange]
      rw [Int64.lt_iff_toInt_lt, Int64.lt_iff_toInt_lt, hzero] at hrange
      have hadd := Amount.toInt_add_of_le htotal (by omega) hmax (by omega : o.value.toInt ≤ _)
      by_cases hsum : Amount.maxMoney < total + o.value
      · rw [if_pos hsum]
        rw [Int64.lt_iff_toInt_lt, hadd] at hsum
        simp
        intro _ _ hall
        have hrest : 0 ≤ (os.map fun o => o.value.toInt).sum := by
          refine List.sum_nonneg (List.forall_mem_map.2 fun o ho => ?_)
          exact (hall o ho).1
        omega
      · rw [if_neg hsum]
        rw [Int64.lt_iff_toInt_lt, hadd] at hsum
        rw [ih (by omega) (by omega), hadd]
        constructor
        · intro h
          exact ⟨⟨by omega, h.1⟩, by omega⟩
        · intro h
          exact ⟨h.1.2, by omega⟩

/-- No limit is broken just if all of them are kept. -/
lemma fault?_eq_none_iff : tx.fault? = none ↔ tx.WithinLimits := by
  have houtputs : outputFault? 0 0 tx.outputs = none ↔
      (∀ o ∈ tx.outputs, 0 ≤ o.value.toInt ∧ o.value.toInt ≤ Amount.maxMoney.toInt) ∧
        tx.worth ≤ Amount.maxMoney.toInt := by
    have hiff : outputFault? 0 0 tx.outputs = none ↔ _ :=
      outputFault?_eq_none_iff (by decide) (by decide)
    have hzero : (0 : Amount).toInt = 0 := rfl
    rwa [hzero, Int.zero_add] at hiff
  constructor
  · intro h
    unfold fault? at h
    split at h
    · exact nomatch h
    next hlists =>
      rw [not_or, List.isEmpty_iff, List.isEmpty_iff] at hlists
      split at h
      · exact nomatch h
      next hnone =>
        obtain ⟨hamounts, hworth⟩ := houtputs.1 hnone
        dsimp only at h
        split at h
        · exact nomatch h
        next hinputs =>
          split at h
          · exact nomatch h
          next hcount =>
            split at h
            · exact nomatch h
            next hsize =>
              refine ⟨hlists.1, hlists.2, not_lt.1 hinputs, not_lt.1 hcount, hamounts, hworth,
                not_lt.1 hsize, fun spends => ?_⟩
              rw [spends, if_neg (by simp)] at h
              obtain ⟨hnull, hnodup, -⟩ := prevoutFault?_eq_none.1 h
              exact ⟨hnull, hnodup⟩
  · intro h
    have hlists : ¬ (tx.inputs.isEmpty = true ∨ tx.outputs.isEmpty = true) := by
      rw [not_or, List.isEmpty_iff, List.isEmpty_iff]
      exact ⟨h.inputs_ne, h.outputs_ne⟩
    rw [fault?, if_neg hlists, houtputs.2 ⟨h.amounts, h.worth_le⟩]
    dsimp only
    rw [if_neg (not_lt.2 h.inputs_le), if_neg (not_lt.2 h.outputs_le), if_neg (not_lt.2 h.size_le)]
    cases hcoinbase : tx.isCoinbase with
    | true => rfl
    | false =>
      obtain ⟨hnull, hnodup⟩ := h.prevouts hcoinbase
      exact prevoutFault?_eq_none.2 ⟨hnull, hnodup, by simp⟩

lemma Sound.worth_nonneg (h : tx.Sound) : 0 ≤ tx.worth :=
  List.sum_nonneg (List.forall_mem_map.2 h)

end Transaction

namespace LoadedTx

variable {l : LoadedTx} {spent fee total : Amount} {i : Nat} {inputs : List TxInput}

/-- The outputs that the inputs spend, as far as they are resolved, have no negative amount. -/
def Unsigned (l : LoadedTx) : Prop := ∀ i o, l.prevOutput? i = some o → 0 ≤ o.value.toInt

/-- A transaction can pay for its outputs. -/
structure Solvent (l : LoadedTx) : Prop where
  resolved : ∀ i < l.tx.inputs.length, (l.prevOutput? i).isSome = true
  sound : l.tx.Sound
  taken_le : l.taken ≤ Amount.maxMoney.toInt
  worth_le : l.tx.worth ≤ Amount.maxMoney.toInt
  covered : l.tx.worth ≤ l.taken

/-- What a transaction leaves to the coinbase. -/
def earned (l : LoadedTx) : Int := if l.isCoinbase then 0 else l.taken - l.tx.worth

lemma sum_brought_nonneg (unsigned : l.Unsigned) (hat : l.tx.inputs.drop i = inputs)
    (resolved : ∀ j, i ≤ j → j < l.tx.inputs.length → (l.prevOutput? j).isSome = true) :
    0 ≤ (List.zipWith brought inputs (l.sources.drop i)).sum := by
  induction inputs generalizing i with
  | nil => simp
  | cons input rest ih =>
    obtain ⟨o, ho⟩ := Option.isSome_iff_exists.1 (resolved i le_rfl (lt_length_of_drop hat))
    have hvalue := unsigned i o ho
    have hrest := ih (drop_succ_of_drop hat) fun j hj => resolved j (by omega)
    rw [sum_brought_cons hat ho]
    omega

/-- The inputs are summed up just if each is resolved and their sum is within the supply. -/
lemma spentFrom_eq_ok_iff (unsigned : l.Unsigned) (hat : l.tx.inputs.drop i = inputs)
    (htotal : 0 ≤ total.toInt) (hmax : total.toInt ≤ Amount.maxMoney.toInt) :
    l.spentFrom i total inputs = .ok spent ↔
      (∀ j, i ≤ j → j < l.tx.inputs.length → (l.prevOutput? j).isSome = true) ∧
      spent.toInt = total.toInt + (List.zipWith brought inputs (l.sources.drop i)).sum ∧
      spent.toInt ≤ Amount.maxMoney.toInt := by
  induction inputs generalizing i total with
  | nil =>
    have hlength : l.tx.inputs.length ≤ i := List.drop_eq_nil_iff.1 hat
    simp only [spentFrom, Except.ok.injEq, ← Int64.toInt_inj, List.zipWith_nil_left, List.sum_nil]
    constructor
    · intro h
      exact ⟨fun j hj hlt => by omega, by omega, by omega⟩
    · intro h
      omega
  | cons input rest ih =>
    have hlt := lt_length_of_drop hat
    rw [spentFrom]
    cases ho : l.prevOutput? i with
    | none =>
      constructor
      · intro h
        cases h
      · intro h
        have hsome := h.1 i le_rfl hlt
        rw [ho] at hsome
        cases hsome
    | some o =>
      have hvalue := unsigned i o ho
      have hnext := drop_succ_of_drop hat
      rw [sum_brought_cons hat ho]
      constructor
      · intro h
        dsimp only at h
        cases hadd : Amount.addWithin total o.value with
        | none => simp [hadd] at h
        | some t =>
          obtain ⟨heq, hle⟩ := Amount.addWithin_eq_some_iff.1 hadd
          rw [hadd] at h
          obtain ⟨hall, hsum, hspent⟩ := (ih hnext (by omega) hle).1 h
          refine ⟨fun j hj hlt => ?_, by omega, hspent⟩
          by_cases hji : j = i
          · rw [hji, ho]
            rfl
          · exact hall j (by omega) hlt
      · intro h
        have hall : ∀ j, i + 1 ≤ j → j < l.tx.inputs.length → (l.prevOutput? j).isSome = true :=
          fun j hj => h.1 j (by omega)
        have hrest := sum_brought_nonneg unsigned hnext hall
        obtain ⟨t, ht⟩ := Amount.exists_toInt_eq (z := total.toInt + o.value.toInt) (by omega)
          (by omega)
        have hadd : Amount.addWithin total o.value = some t :=
          Amount.addWithin_eq_some_iff.2 ⟨ht, by omega⟩
        dsimp only
        rw [hadd]
        exact (ih hnext (by omega) (by omega)).2 ⟨hall, by omega, h.2.2⟩

lemma moneySum_outputs_eq_some_iff {created : Amount} :
    Amount.moneySum (l.tx.outputs.map TxOutput.value) = some created ↔
      l.tx.Sound ∧ created.toInt = l.tx.worth ∧ created.toInt ≤ Amount.maxMoney.toInt := by
  rw [Amount.moneySum, Amount.sumFrom_eq_some_iff (by decide) (by decide), List.forall_mem_map,
    List.map_map]
  have hzero : (0 : Amount).toInt = 0 := rfl
  rw [hzero, Int.zero_add]
  rfl

lemma Solvent.taken_nonneg (h : l.Solvent) : 0 ≤ l.taken :=
  h.sound.worth_nonneg.trans h.covered

/-- There is a fee just for a coinbase and for a transaction that can pay. -/
lemma fee_eq_ok_iff (unsigned : l.Unsigned) :
    l.fee = .ok fee ↔ (l.isCoinbase = true ∨ l.Solvent) ∧ fee.toInt = l.earned := by
  have hzero : (0 : Amount).toInt = 0 := rfl
  cases hcoinbase : l.isCoinbase with
  | true =>
    rw [LoadedTx.fee, earned, hcoinbase, if_pos rfl, if_pos rfl, Except.ok.injEq, ← Int64.toInt_inj,
      hzero]
    simp [eq_comm]
  | false =>
    have hspent (spent : Amount) : l.spentFrom 0 0 l.tx.inputs = .ok spent ↔
        (∀ j, 0 ≤ j → j < l.tx.inputs.length → (l.prevOutput? j).isSome = true) ∧
          spent.toInt = l.taken ∧ spent.toInt ≤ Amount.maxMoney.toInt := by
      have hiff : l.spentFrom 0 0 l.tx.inputs = .ok spent ↔ _ :=
        spentFrom_eq_ok_iff unsigned List.drop_zero (by decide) (by decide)
      rwa [hzero, Int.zero_add, List.drop_zero] at hiff
    have hearned : l.earned = l.taken - l.tx.worth := by
      rw [earned, hcoinbase, if_neg (by simp)]
    rw [LoadedTx.fee, hcoinbase, if_neg (by simp)]
    constructor
    · intro h
      cases hs : l.spentFrom 0 0 l.tx.inputs with
      | error fault => simp [hs] at h
      | ok spent =>
        cases hcreated : Amount.moneySum (l.tx.outputs.map TxOutput.value) with
        | none => simp [hs, hcreated] at h
        | some created =>
          simp only [hs, hcreated] at h
          obtain ⟨hall, htaken, hle⟩ := (hspent spent).1 hs
          obtain ⟨hsound, hworth, hmax⟩ := moneySum_outputs_eq_some_iff.1 hcreated
          have hpos := hsound.worth_nonneg
          have hbrought : 0 ≤ l.taken := sum_brought_nonneg unsigned List.drop_zero hall
          have hsub := Amount.toInt_sub_of_le (a := spent) (b := created) (by omega) (by omega)
            hle hmax
          split at h
          · cases h
          next hfee =>
            cases h
            rw [Int64.lt_iff_toInt_lt, Int.not_lt, hzero] at hfee
            exact ⟨.inr ⟨fun i hi => hall i (Nat.zero_le i) hi, hsound, by omega, by omega,
              by omega⟩, by omega⟩
    · intro h
      have can : l.Solvent := h.1.resolve_left (by simp)
      obtain ⟨spent, hs⟩ := Amount.exists_toInt_eq can.taken_nonneg can.taken_le
      obtain ⟨created, hc⟩ := Amount.exists_toInt_eq can.sound.worth_nonneg can.worth_le
      have hcovered := can.covered
      have hpos := can.sound.worth_nonneg
      have hmax := can.taken_le
      have hsub := Amount.toInt_sub_of_le (a := spent) (b := created) (by omega) (by omega)
        (by omega) (by omega)
      have hfee : spent - created = fee := by
        rw [← Int64.toInt_inj]
        omega
      have hnonneg : ¬ fee < 0 := by
        rw [Int64.lt_iff_toInt_lt, hzero]
        omega
      rw [(hspent spent).2 ⟨fun j _ => can.resolved j, hs, by omega⟩,
        moneySum_outputs_eq_some_iff.2 ⟨can.sound, hc, by omega⟩]
      dsimp only
      rw [hfee, if_neg hnonneg]

lemma earned_nonneg (h : l.isCoinbase = true ∨ l.Solvent) : 0 ≤ l.earned := by
  unfold earned
  split
  · exact le_rfl
  next spends =>
    have hcovered := (h.resolve_left spends).covered
    omega

lemma earned_le (h : l.isCoinbase = true ∨ l.Solvent) :
    l.earned ≤ Amount.maxMoney.toInt := by
  unfold earned
  split
  · decide
  next spends =>
    have can := h.resolve_left spends
    have hpos := can.sound.worth_nonneg
    have hmax := can.taken_le
    omega

lemma sum_earned_nonneg {loaded : List LoadedTx}
    (h : ∀ l ∈ loaded, l.isCoinbase = true ∨ l.Solvent) : 0 ≤ (loaded.map earned).sum :=
  List.sum_nonneg (List.forall_mem_map.2 fun l hl => earned_nonneg (h l hl))

end LoadedTx

namespace Rules

/-- Each transaction has a fee, and the total stops at the largest amount. -/
lemma totalFees_eq_ok_iff {total fees : Amount} {loaded : List LoadedTx}
    (unsigned : ∀ l ∈ loaded, l.Unsigned) (htotal : 0 ≤ total.toInt) :
    totalFees total loaded = .ok fees ↔ (∀ l ∈ loaded, l.isCoinbase = true ∨ l.Solvent) ∧
      fees.toInt =
        min (total.toInt + (loaded.map LoadedTx.earned).sum) Int64.maxValue.toInt := by
  induction loaded generalizing total with
  | nil =>
    have hle := Int64.toInt_le total
    simp only [totalFees, Except.ok.injEq, ← Int64.toInt_inj]
    simp
    omega
  | cons l rest ih =>
    rw [List.forall_mem_cons] at unsigned
    rw [totalFees, List.forall_mem_cons, List.map_cons, List.sum_cons]
    constructor
    · intro h
      cases hfee : l.fee with
      | error fault => simp [hfee] at h
      | ok fee =>
        simp only [hfee] at h
        obtain ⟨hl, hearned⟩ := (LoadedTx.fee_eq_ok_iff unsigned.1).1 hfee
        have hpos := LoadedTx.earned_nonneg hl
        have hadd := Amount.toInt_saturatingAdd_eq htotal (by omega : 0 ≤ fee.toInt)
        have hnonneg := (Amount.toInt_saturatingAdd htotal (by omega : 0 ≤ fee.toInt)).1
        obtain ⟨hrest, hsum⟩ := (ih unsigned.2 hnonneg).1 h
        have hposrest := LoadedTx.sum_earned_nonneg hrest
        exact ⟨⟨hl, hrest⟩, by omega⟩
    · intro h
      have hpos := LoadedTx.earned_nonneg h.1.1
      have hposrest := LoadedTx.sum_earned_nonneg h.1.2
      obtain ⟨fee, hearned⟩ := Amount.exists_toInt_eq hpos (LoadedTx.earned_le h.1.1)
      have hadd := Amount.toInt_saturatingAdd_eq htotal (by omega : 0 ≤ fee.toInt)
      have hnonneg := (Amount.toInt_saturatingAdd htotal (by omega : 0 ≤ fee.toInt)).1
      rw [(LoadedTx.fee_eq_ok_iff unsigned.1).2 ⟨h.1.1, hearned⟩]
      exact (ih unsigned.2 hnonneg).2 ⟨h.1.2, by omega⟩

/-- What the rules ask of a block, given the loaded form of its transactions. -/
structure Lawful (header : ChainedHeader) (block : Block) (loaded : List LoadedTx) : Prop where
  nonempty : block.txs ≠ []
  placed : ∀ i tx, block.txs[i]? = some tx → (tx.isCoinbase = true ↔ i = 0)
  limits : ∀ tx ∈ block.txs, tx.WithinLimits
  committed : block.header.merkleRoot = merkleRoot block.txs
  counted : loaded.length = block.txs.length
  solvent : ∀ l ∈ loaded.drop 1, l.isCoinbase = true ∨ l.Solvent
  reward : ∀ coinbase, block.txs[0]? = some coinbase →
    coinbase.worth ≤ (Amount.subsidy header.height).toInt +
      ((loaded.drop 1).map LoadedTx.earned).sum

lemma placed_cons {first : Transaction} {rest : List Transaction} :
    (∀ i tx, (first :: rest)[i]? = some tx → (tx.isCoinbase = true ↔ i = 0)) ↔
      first.isCoinbase = true ∧ ∀ tx ∈ rest, tx.isCoinbase = false := by
  constructor
  · intro h
    refine ⟨(h 0 first rfl).2 rfl, fun tx htx => ?_⟩
    obtain ⟨i, hi⟩ := List.getElem?_of_mem htx
    have hne := mt (h (i + 1) tx hi).1 (Nat.succ_ne_zero i)
    exact Bool.eq_false_iff.2 hne
  · intro h i tx hi
    cases i with
    | zero =>
      cases hi
      simp [h.1]
    | succ i =>
      have hmem : tx ∈ rest := List.mem_of_getElem? hi
      simp [h.2 tx hmem]

/-- The consensus rules accept just the lawful blocks. -/
theorem checkBlock_eq_ok_iff_lawful {verify : ScriptVerifier} {header : ChainedHeader}
    {block : Block} {loaded : List LoadedTx} (unsigned : ∀ l ∈ loaded, l.Unsigned) :
    (consensus verify).checkBlock header block loaded = .ok () ↔ Lawful header block loaded := by
  have hfault : (consensus verify).checkBlock header block loaded = .ok () ↔
      blockFault header block loaded = .ok () := by
    unfold consensus
    dsimp only
    cases blockFault header block loaded with
    | error fault => simp [Except.mapError]
    | ok done => simp [Except.mapError]
  have hunsigned : ∀ l ∈ loaded.drop 1, l.Unsigned :=
    fun l hl => unsigned l (List.mem_of_mem_drop hl)
  have hfees (fees : Amount) : totalFees 0 (loaded.drop 1) = .ok fees ↔ _ :=
    totalFees_eq_ok_iff hunsigned (by decide)
  have hzero : (0 : Amount).toInt = 0 := rfl
  have hsubsidy := Amount.toInt_subsidy_nonneg header.height
  rw [hfault, blockFault_eq_ok]
  constructor
  · intro h
    obtain ⟨coinbase, rest, fees, htxs, hcoinbase, hrest, hlimits, hroot, hcount, htotal,
      hpaid⟩ := h
    have hmem : coinbase ∈ block.txs := htxs ▸ List.mem_cons_self
    have hworth := (Transaction.sound_of_fault? (hlimits coinbase hmem)).2
    obtain ⟨hsolvent, hsum⟩ := (hfees fees).1 htotal
    have hpos := LoadedTx.sum_earned_nonneg hsolvent
    have hmax : 0 ≤ Int64.maxValue.toInt := by decide
    have hallowed := Amount.toInt_saturatingAdd_eq hsubsidy (by omega : 0 ≤ fees.toInt)
    refine ⟨by simp [htxs], ?_, fun tx htx => Transaction.fault?_eq_none_iff.1 (hlimits tx htx),
      hroot.symm, hcount, hsolvent, fun first hfirst => ?_⟩
    · rw [htxs, placed_cons]
      exact ⟨hcoinbase, hrest⟩
    · rw [htxs] at hfirst
      cases hfirst
      omega
  · intro h
    cases htxs : block.txs with
    | nil => exact absurd htxs h.nonempty
    | cons coinbase rest =>
      have hplaced := h.placed
      rw [htxs, placed_cons] at hplaced
      have hlimits := fun tx htx => Transaction.fault?_eq_none_iff.2 (h.limits tx htx)
      have hmem : coinbase ∈ block.txs := htxs ▸ List.mem_cons_self
      have hworth := (Transaction.sound_of_fault? (hlimits coinbase hmem)).2
      have hle := (h.limits coinbase hmem).worth_le
      have hreward := h.reward coinbase (by rw [htxs]; rfl)
      have hpos := LoadedTx.sum_earned_nonneg h.solvent
      have hmax : Int64.maxValue.toInt = 2 ^ 63 - 1 := Int64.toInt_maxValue
      obtain ⟨fees, hsum⟩ : ∃ fees : Amount, fees.toInt =
          min (0 + ((loaded.drop 1).map LoadedTx.earned).sum) Int64.maxValue.toInt :=
        ⟨Int64.ofInt _, Int64.toInt_ofInt_of_le (by omega) (by omega)⟩
      have hallowed := Amount.toInt_saturatingAdd_eq hsubsidy (by omega : 0 ≤ fees.toInt)
      refine ⟨coinbase, rest, fees, rfl, hplaced.1, hplaced.2, ?_, ?_, ?_,
        (hfees fees).2 ⟨h.solvent, hsum⟩, ?_⟩
      · rwa [← htxs]
      · rw [← htxs, h.committed]
      · rw [← htxs, h.counted]
      · -- The total may saturate, but far above what a coinbase within its limits pays.
        rw [Amount.toInt_maxMoney] at hle
        omega

/-- Spends 1000 and pays 900 on. -/
def feeLeft : LoadedTx :=
  ⟨⟨1, [⟨⟨.zero, 0⟩, [], 0⟩], [⟨900, []⟩], 0⟩, .zero, 1, false, [⟨1, [], [⟨1000, []⟩], 0⟩]⟩

/-- A coinbase of some amount. -/
def payer (amount : Amount) : LoadedTx :=
  ⟨⟨1, [⟨.null, [1, 2], 0⟩], [⟨amount, []⟩], 0⟩, .zero, 0, true, []⟩

def payingBlock (amount : Amount) : Block :=
  ⟨⟨1, .zero, merkleRoot [(payer amount).tx, feeLeft.tx], 0, 0, 0⟩, [(payer amount).tx, feeLeft.tx]⟩

def payingHeader (amount : Amount) : ChainedHeader :=
  ⟨(payingBlock amount).header, .zero, 1, .zero⟩

lemma paying_unsigned (amount : Amount) : ∀ l ∈ [payer amount, feeLeft], l.Unsigned := by
  have hnone (i : Nat) : (payer amount).prevOutput? i = none := by
    cases i <;> rfl
  have hsome : feeLeft.Unsigned := by
    intro i o ho
    cases i with
    | zero =>
      cases ho
      decide
    | succ i => exact nomatch ho
  intro l hl
  simp only [List.mem_cons, List.not_mem_nil, or_false] at hl
  rcases hl with rfl | rfl
  · intro i o ho
    exact nomatch (hnone i).symm.trans ho
  · exact hsome

/-- The subsidy and the fee may be paid out, and not one unit more. -/
theorem checkBlock_eq_ok_iff_lawful_paying :
    (∀ l ∈ [payer 5000000100, feeLeft], l.Unsigned) ∧
    (∀ l ∈ [payer 5000000101, feeLeft], l.Unsigned) ∧
    (consensus fun _ => .accepted).checkBlock (payingHeader 5000000100) (payingBlock 5000000100)
      [payer 5000000100, feeLeft] = .ok () ∧
    (consensus fun _ => .accepted).checkBlock (payingHeader 5000000101) (payingBlock 5000000101)
      [payer 5000000101, feeLeft] ≠ .ok () := by
  have hpayer : (payer 5000000100).tx.WithinLimits := by
    refine ⟨by decide, by decide, by decide, by decide, by decide, by decide, by decide, ?_⟩
    intro spends
    exact nomatch spends
  have hfee : feeLeft.tx.WithinLimits := by
    exact ⟨by decide, by decide, by decide, by decide, by decide, by decide, by decide,
      fun _ => ⟨by decide, by decide⟩⟩
  have hsolvent : feeLeft.Solvent := by
    refine ⟨fun i hi => ?_, fun o ho => (hfee.amounts o ho).1, by decide, by decide, by decide⟩
    obtain rfl : i = 0 := Nat.lt_one_iff.1 hi
    rfl
  have lawful : Lawful (payingHeader 5000000100) (payingBlock 5000000100)
      [payer 5000000100, feeLeft] := by
    refine ⟨by simp [payingBlock], placed_cons.2 ⟨rfl, by decide⟩, ?_, rfl, rfl, ?_, ?_⟩
    · simp only [payingBlock, List.forall_mem_cons]
      exact ⟨hpayer, hfee, by simp⟩
    · simp only [List.drop_one, List.tail_cons, List.forall_mem_singleton]
      exact .inr hsolvent
    · intro coinbase hcoinbase
      cases hcoinbase
      decide
  have unlawful : ¬ Lawful (payingHeader 5000000101) (payingBlock 5000000101)
      [payer 5000000101, feeLeft] := by
    intro h
    exact absurd (h.reward _ rfl) (by decide)
  exact ⟨paying_unsigned _, paying_unsigned _,
    (checkBlock_eq_ok_iff_lawful (paying_unsigned _)).2 lawful,
    fun h => unlawful ((checkBlock_eq_ok_iff_lawful (paying_unsigned _)).1 h)⟩

end Rules

end UtxoLedger

import Mathlib.Algebra.BigOperators.Intervals
import Mathlib.Algebra.Order.BigOperators.Group.List
import Mathlib.Algebra.Order.Ring.GeomSum
import Mathlib.Tactic.Common
import UtxoLedger.Consensus.Rules

/-!
# Amounts add up

Amounts are 64-bit numbers, and what is said about them holds of the integers they stand for: a sum
that is checked is exact, and a sum that saturates is no more than the true one. From this follow
the fee of a transaction, the fees of a block, and what its coinbase may pay. All subsidies together
stay within the total supply.
-/
namespace UtxoLedger

namespace Amount

variable {a b c total : Amount} {values : List Amount}

lemma toInt_maxMoney : maxMoney.toInt = 2100000000000000 := by decide

/-- A sum within the supply does not wrap around. -/
lemma toInt_add_of_le (ha : 0 ≤ a.toInt) (hb : 0 ≤ b.toInt) (ha' : a.toInt ≤ maxMoney.toInt)
    (hb' : b.toInt ≤ maxMoney.toInt) : (a + b).toInt = a.toInt + b.toInt := by
  rw [toInt_maxMoney] at ha' hb'
  rw [Int64.toInt_add, Int.bmod_eq_of_le (by omega) (by omega)]

/-- Nor does a difference. -/
lemma toInt_sub_of_le (ha : 0 ≤ a.toInt) (hb : 0 ≤ b.toInt) (ha' : a.toInt ≤ maxMoney.toInt)
    (hb' : b.toInt ≤ maxMoney.toInt) : (a - b).toInt = a.toInt - b.toInt := by
  rw [toInt_maxMoney] at ha' hb'
  rw [Int64.toInt_sub, Int.bmod_eq_of_le (by omega) (by omega)]

lemma toInt_of_addWithin (h : addWithin a b = some c) :
    c.toInt = a.toInt + b.toInt ∧ c.toInt ≤ maxMoney.toInt := by
  obtain ⟨hadd, hle⟩ := Option.filter_eq_some_iff.1 h
  refine ⟨?_, Int64.le_iff_toInt_le.1 (of_decide_eq_true hle)⟩
  unfold checkedAdd at hadd
  dsimp only at hadd
  rw [Int64.toInt_minValue, Int64.toInt_maxValue] at hadd
  split at hadd
  next hrange =>
    rw [← Option.some.inj hadd, Int64.toInt_ofInt_of_le hrange.1 (by omega)]
  · exact nomatch hadd

lemma toInt_of_sumFrom (h : sumFrom total values = some c)
    (htotal : total.toInt ≤ maxMoney.toInt) :
    c.toInt = total.toInt + (values.map Int64.toInt).sum ∧ total.toInt ≤ c.toInt ∧
      c.toInt ≤ maxMoney.toInt := by
  induction values generalizing total with
  | nil =>
    cases h
    exact ⟨by simp, le_rfl, htotal⟩
  | cons v vs ih =>
    rw [sumFrom] at h
    split at h
    · exact nomatch h
    next hv =>
      rw [Int64.lt_iff_toInt_lt, Int.not_lt] at hv
      have hv : 0 ≤ v.toInt := hv
      cases hadd : addWithin total v with
      | none =>
        rw [hadd] at h
        exact nomatch h
      | some t =>
        rw [hadd] at h
        obtain ⟨heq, hle⟩ := toInt_of_addWithin hadd
        obtain ⟨hsum, hmono, hc⟩ := ih h hle
        exact ⟨by rw [hsum, heq, List.map_cons, List.sum_cons]; omega, by omega, hc⟩

/-- Amounts that are not negative add up exactly, or to the largest amount. -/
lemma toInt_saturatingAdd_eq (ha : 0 ≤ a.toInt) (hb : 0 ≤ b.toInt) :
    (saturatingAdd a b).toInt = min (a.toInt + b.toInt) Int64.maxValue.toInt := by
  unfold saturatingAdd
  dsimp only
  rw [Int64.toInt_minValue, Int64.toInt_maxValue]
  split
  · omega
  · split
    · rw [Int64.toInt_maxValue]
      omega
    · rw [Int64.toInt_ofInt_of_le (by omega) (by omega)]
      omega

/-- So they saturate below their true sum. -/
lemma toInt_saturatingAdd (ha : 0 ≤ a.toInt) (hb : 0 ≤ b.toInt) :
    0 ≤ (saturatingAdd a b).toInt ∧ (saturatingAdd a b).toInt ≤ a.toInt + b.toInt := by
  rw [toInt_saturatingAdd_eq ha hb, Int64.toInt_maxValue]
  omega

/-- The subsidy as a number. -/
lemma toInt_subsidy (height : Int32) : (subsidy height).toInt =
    ((if 64 ≤ height.toInt.toNat / halvingInterval then 0
      else initialSubsidy / 2 ^ (height.toInt.toNat / halvingInterval) : Nat) : Int) := by
  unfold subsidy
  dsimp only
  split
  · rfl
  · rw [Nat.shiftRight_eq_div_pow, Int64.toInt_ofNat_of_lt]
    exact (Nat.div_le_self _ _).trans_lt (by decide)

lemma toInt_subsidy_nonneg (height : Int32) : 0 ≤ (subsidy height).toInt := by
  rw [toInt_subsidy]
  exact Int.natCast_nonneg _

/-- All subsidies from the first block to the one at height `n`. -/
def issued (n : Nat) : Int := ∑ k ∈ Finset.Icc 1 n, (subsidy (Int32.ofNat k)).toInt

@[simp] lemma issued_zero : issued 0 = 0 := rfl

lemma issued_succ (n : Nat) :
    issued (n + 1) = issued n + (subsidy (Int32.ofNat (n + 1))).toInt :=
  Finset.sum_Icc_succ_top (by omega) _

/-- The blocks of one era after the other. -/
lemma sum_eras (f : Nat → Nat) (eras : Nat) : ∑ k ∈ Finset.range (eras * halvingInterval),
    f (k / halvingInterval) = halvingInterval * ∑ era ∈ Finset.range eras, f era := by
  induction eras with
  | zero => simp
  | succ eras ih =>
    have hera : ∀ k ∈ Finset.range halvingInterval,
        f ((eras * halvingInterval + k) / halvingInterval) = f eras := by
      intro k hk
      rw [Nat.mul_comm, Nat.mul_add_div (by decide), Nat.div_eq_of_lt (Finset.mem_range.1 hk),
        Nat.add_zero]
    rw [Nat.succ_mul, Finset.sum_range_add, ih, Finset.sum_congr rfl hera, Finset.sum_const,
      Finset.card_range, Finset.sum_range_succ, Nat.mul_add, nsmul_eq_mul, Nat.cast_id]

/-- What is ever issued stays within the total supply: the eras halve the subsidy, so together they
issue less than twice what the first one does. -/
theorem issued_le_maxMoney {n : Nat} (hn : n < 2 ^ 31) : issued n ≤ maxMoney.toInt := by
  have hterm : ∀ k ∈ Finset.Icc 1 n, (subsidy (Int32.ofNat k)).toInt ≤
      ((initialSubsidy / 2 ^ (k / halvingInterval) : Nat) : Int) := by
    intro k hk
    have hk := (Finset.mem_Icc.1 hk).2
    rw [toInt_subsidy, Int32.toInt_ofNat_of_lt (by omega), Int.toNat_natCast, Int.ofNat_le]
    split
    · exact Nat.zero_le _
    · exact le_rfl
  have hblocks : ∑ k ∈ Finset.Icc 1 n, initialSubsidy / 2 ^ (k / halvingInterval) ≤
      ∑ k ∈ Finset.range ((n + 1) * halvingInterval),
        initialSubsidy / 2 ^ (k / halvingInterval) := by
    refine Finset.sum_le_sum_of_subset fun k hk => ?_
    rw [Finset.mem_Icc] at hk
    rw [Finset.mem_range, halvingInterval]
    omega
  have heras : ∑ k ∈ Finset.range ((n + 1) * halvingInterval),
      initialSubsidy / 2 ^ (k / halvingInterval) ≤ 2100000000000000 := by
    rw [sum_eras fun era => initialSubsidy / 2 ^ era]
    exact Nat.mul_le_mul_left halvingInterval (Nat.geom_sum_le le_rfl initialSubsidy (n + 1))
  calc issued n
      ≤ ∑ k ∈ Finset.Icc 1 n, ((initialSubsidy / 2 ^ (k / halvingInterval) : Nat) : Int) :=
        Finset.sum_le_sum hterm
    _ = ((∑ k ∈ Finset.Icc 1 n, initialSubsidy / 2 ^ (k / halvingInterval) : Nat) : Int) := by
        rw [Nat.cast_sum]
    _ ≤ maxMoney.toInt := by
        rw [toInt_maxMoney]
        exact_mod_cast hblocks.trans heras

end Amount

namespace Transaction

/-- The amount of one output; nothing where there is none. -/
def valueAt (tx : Transaction) (i : Nat) : Int :=
  (tx.outputs[i]?.map fun o => o.value.toInt).getD 0

/-- What the outputs take together. -/
def worth (tx : Transaction) : Int := (tx.outputs.map fun o => o.value.toInt).sum

lemma worth_eq (tx : Transaction) :
    tx.worth = ((List.range tx.outputs.length).map tx.valueAt).sum := by
  rw [worth]
  congr 1
  refine List.ext_getElem (by simp) fun i h₁ h₂ => ?_
  rw [List.length_map] at h₁
  simp [valueAt, List.getElem?_eq_getElem h₁]

/-- No output has a negative amount. -/
def Sound (tx : Transaction) : Prop := ∀ o ∈ tx.outputs, 0 ≤ o.value.toInt

lemma Sound.valueAt_nonneg {tx : Transaction} (h : tx.Sound) (i : Nat) : 0 ≤ tx.valueAt i := by
  unfold valueAt
  cases ho : tx.outputs[i]? with
  | none => exact le_rfl
  | some o => exact h o (List.mem_of_getElem? ho)

lemma of_outputFault?_eq_none {i : Nat} {total : Amount} {os : List TxOutput}
    (h : outputFault? i total os = none) (htotal : 0 ≤ total.toInt)
    (hmax : total.toInt ≤ Amount.maxMoney.toInt) :
    (∀ o ∈ os, 0 ≤ o.value.toInt) ∧
      (os.foldl (fun sum o => sum + o.value) total).toInt =
        total.toInt + (os.map fun o => o.value.toInt).sum := by
  induction os generalizing i total with
  | nil => simp
  | cons o os ih =>
    rw [outputFault?] at h
    split at h
    · exact nomatch h
    next hrange =>
      rw [not_or, Int64.lt_iff_toInt_lt, Int64.lt_iff_toInt_lt, Int.not_lt, Int.not_lt] at hrange
      split at h
      · exact nomatch h
      next hsum =>
        have hvalue : 0 ≤ o.value.toInt := hrange.1
        have hadd := Amount.toInt_add_of_le htotal hvalue hmax hrange.2
        rw [Int64.lt_iff_toInt_lt, Int.not_lt] at hsum
        obtain ⟨hall, hfold⟩ := ih h (by omega) hsum
        refine ⟨by simpa using ⟨hvalue, hall⟩, ?_⟩
        rw [List.foldl_cons, hfold, hadd, List.map_cons, List.sum_cons]
        omega

lemma sound_of_fault? {tx : Transaction} (h : tx.fault? = none) :
    tx.Sound ∧ (Rules.paid tx).toInt = tx.worth := by
  unfold fault? at h
  split at h
  · exact nomatch h
  · cases houtputs : outputFault? 0 0 tx.outputs with
    | some fault =>
      rw [houtputs] at h
      exact nomatch h
    | none =>
      obtain ⟨hall, hfold⟩ := of_outputFault?_eq_none houtputs (by decide) (by decide)
      refine ⟨hall, hfold.trans ?_⟩
      rw [worth]
      simp

end Transaction

namespace LoadedTx

variable {l : LoadedTx} {spent fee total : Amount}

/-- What an input brings from its source. -/
def brought (input : TxInput) (source : Transaction) : Int :=
  source.valueAt input.prevout.index.toNat

/-- What the inputs bring from their sources. -/
def taken (l : LoadedTx) : Int := (List.zipWith brought l.tx.inputs l.sources).sum

/-- Input `i` brings the output it spends, and the inputs after it bring the rest. -/
lemma sum_brought_cons {i : Nat} {input : TxInput} {rest : List TxInput} {o : TxOutput}
    (hat : l.tx.inputs.drop i = input :: rest) (ho : l.prevOutput? i = some o) :
    (List.zipWith brought (input :: rest) (l.sources.drop i)).sum =
      o.value.toInt + (List.zipWith brought rest (l.sources.drop (i + 1))).sum := by
  obtain ⟨input', hinput, ho⟩ := Option.bind_eq_some_iff.1 ho
  obtain ⟨source, hsource, hout⟩ := Option.bind_eq_some_iff.1 ho
  have hnext : l.tx.inputs[i]? = some input := by
    rw [← Nat.add_zero i, ← List.getElem?_drop, hat]
    rfl
  cases hnext.symm.trans hinput
  obtain ⟨hi, hget⟩ := List.getElem?_eq_some_iff.1 hsource
  have hbrought : brought input source = o.value.toInt := by
    rw [brought, Transaction.valueAt, hout]
    rfl
  rw [List.drop_eq_getElem_cons hi, hget, List.zipWith_cons_cons, List.sum_cons, hbrought]

lemma drop_succ_of_drop {i : Nat} {input : TxInput} {rest : List TxInput}
    (hat : l.tx.inputs.drop i = input :: rest) : l.tx.inputs.drop (i + 1) = rest := by
  rw [← List.drop_drop, hat, List.drop_one, List.tail_cons]

lemma lt_length_of_drop {i : Nat} {input : TxInput} {rest : List TxInput}
    (hat : l.tx.inputs.drop i = input :: rest) : i < l.tx.inputs.length := by
  by_contra hge
  rw [List.drop_eq_nil_of_le (not_lt.1 hge)] at hat
  exact nomatch hat

lemma toInt_of_spentFrom {i : Nat} {inputs : List TxInput} (hat : l.tx.inputs.drop i = inputs)
    (h : l.spentFrom i total inputs = .ok spent) (htotal : total.toInt ≤ Amount.maxMoney.toInt) :
    spent.toInt = total.toInt + (List.zipWith brought inputs (l.sources.drop i)).sum ∧
      spent.toInt ≤ Amount.maxMoney.toInt := by
  induction inputs generalizing i total with
  | nil =>
    cases h
    simpa using htotal
  | cons input rest ih =>
    rw [spentFrom] at h
    cases ho : l.prevOutput? i with
    | none => simp [ho] at h
    | some o =>
      cases hadd : Amount.addWithin total o.value with
      | none => simp [ho, hadd] at h
      | some t =>
        simp only [ho, hadd] at h
        obtain ⟨heq, hle⟩ := Amount.toInt_of_addWithin hadd
        obtain ⟨hsum, hmax⟩ := ih (drop_succ_of_drop hat) h hle
        refine ⟨?_, hmax⟩
        rw [sum_brought_cons hat ho, hsum, heq]
        omega

lemma taken_nonneg (hsources : ∀ source ∈ l.sources, source.Sound) : 0 ≤ l.taken := by
  refine List.sum_nonneg fun v hv => ?_
  rw [← List.map_uncurry_zip_eq_zipWith] at hv
  obtain ⟨⟨input, source⟩, hmem, rfl⟩ := List.mem_map.1 hv
  exact (hsources source (List.of_mem_zip hmem).2).valueAt_nonneg _

/-- What a transaction adds to the money supply: what it mints less what it spends. -/
def gain (l : LoadedTx) : Int := l.tx.worth - if l.isCoinbase then 0 else l.taken

/-- The fee is what the inputs bring less what the outputs take, and never negative. -/
lemma toInt_of_fee (h : l.fee = .ok fee) (spends : l.isCoinbase = false)
    (hsources : ∀ source ∈ l.sources, source.Sound) :
    fee.toInt + l.gain = 0 ∧ 0 ≤ fee.toInt := by
  rw [gain, spends, if_neg (by simp)]
  rw [LoadedTx.fee, spends, if_neg (by simp)] at h
  cases hspent : l.spentFrom 0 0 l.tx.inputs with
  | error fault => simp [hspent] at h
  | ok spent =>
    cases hcreated : Amount.moneySum (l.tx.outputs.map TxOutput.value) with
    | none => simp [hspent, hcreated] at h
    | some created =>
      simp only [hspent, hcreated] at h
      obtain ⟨htaken, hspent⟩ := toInt_of_spentFrom (by simp) hspent (by decide)
      obtain ⟨hworth, hpos, hmax⟩ := Amount.toInt_of_sumFrom hcreated (by decide)
      have htaken : spent.toInt = l.taken := by simpa [taken] using htaken
      have hworth : created.toInt = l.tx.worth := by
        simpa [Transaction.worth, Function.comp_def] using hworth
      have hnonneg := taken_nonneg hsources
      have hpos : 0 ≤ created.toInt := hpos
      have hsub := Amount.toInt_sub_of_le (by omega) hpos hspent hmax
      split at h
      · exact nomatch h
      next hfee =>
        cases h
        rw [Int64.lt_iff_toInt_lt, Int.not_lt] at hfee
        exact ⟨by omega, hfee⟩

end LoadedTx

namespace Rules

/-- The fees of a block sum up to no more than what its transactions take off the supply. -/
lemma toInt_of_totalFees {total fees : Amount} {loaded : List LoadedTx}
    (h : totalFees total loaded = .ok fees) (htotal : 0 ≤ total.toInt)
    (hloaded : ∀ l ∈ loaded, l.isCoinbase = false ∧ ∀ source ∈ l.sources, source.Sound) :
    0 ≤ fees.toInt ∧ fees.toInt + (loaded.map LoadedTx.gain).sum ≤ total.toInt := by
  induction loaded generalizing total with
  | nil =>
    cases h
    simpa using htotal
  | cons l rest ih =>
    rw [totalFees] at h
    cases hfee : l.fee with
    | error fault => simp [hfee] at h
    | ok fee =>
      simp only [hfee] at h
      obtain ⟨spends, hsources⟩ := hloaded l List.mem_cons_self
      obtain ⟨heq, hpos⟩ := LoadedTx.toInt_of_fee hfee spends hsources
      obtain ⟨hsum, hle⟩ := Amount.toInt_saturatingAdd htotal hpos
      obtain ⟨hnonneg, hrest⟩ := ih h hsum fun l hl => hloaded l (List.mem_cons_of_mem _ hl)
      refine ⟨hnonneg, ?_⟩
      rw [List.map_cons, List.sum_cons]
      omega

/-- Fees that are not negative sum up exactly, or to the largest amount. -/
lemma exists_totalFees {total : Amount} {loaded : List LoadedTx} {fees : List Amount}
    (h : List.Forall₂ (fun l fee => l.fee = .ok fee) loaded fees)
    (hfees : ∀ fee ∈ fees, 0 ≤ fee.toInt) (htotal : 0 ≤ total.toInt) :
    ∃ sum, totalFees total loaded = .ok sum ∧ 0 ≤ sum.toInt ∧
      sum.toInt = min (total.toInt + (fees.map Int64.toInt).sum) Int64.maxValue.toInt := by
  induction h generalizing total with
  | nil =>
    have hle := Int64.toInt_le total
    refine ⟨total, rfl, htotal, ?_⟩
    rw [List.map_nil, List.sum_nil]
    omega
  | @cons l fee loaded fees hfee hrest ih =>
    rw [List.forall_mem_cons] at hfees
    have hadd := Amount.toInt_saturatingAdd_eq htotal hfees.1
    obtain ⟨sum, hsum, hnonneg, heq⟩ :=
      ih hfees.2 (Amount.toInt_saturatingAdd htotal hfees.1).1
    have hpos : 0 ≤ (fees.map Int64.toInt).sum :=
      List.sum_nonneg (List.forall_mem_map.2 hfees.2)
    refine ⟨sum, ?_, hnonneg, ?_⟩
    · rw [totalFees, hfee]
      exact hsum
    · rw [heq, hadd, List.map_cons, List.sum_cons]
      omega

lemma limitFault?_eq_none {i : Nat} {txs : List Transaction} :
    limitFault? i txs = none ↔ ∀ tx ∈ txs, tx.fault? = none := by
  induction txs generalizing i with
  | nil => simp [limitFault?]
  | cons tx rest ih =>
    rw [limitFault?, List.forall_mem_cons]
    cases hfault : tx.fault? with
    | some fault => simp
    | none => simpa using ih

/-- A block that breaks no rule: one coinbase in front, transactions within their limits, the
committed Merkle root, fees that can be told, and a coinbase that pays no more than is allowed. -/
lemma blockFault_eq_ok {header : ChainedHeader} {block : Block} {loaded : List LoadedTx} :
    blockFault header block loaded = .ok () ↔ ∃ coinbase rest fees,
      block.txs = coinbase :: rest ∧ coinbase.isCoinbase = true ∧
      (∀ tx ∈ rest, tx.isCoinbase = false) ∧ (∀ tx ∈ block.txs, tx.fault? = none) ∧
      merkleRoot block.txs = block.header.merkleRoot ∧ loaded.length = block.txs.length ∧
      totalFees 0 (loaded.drop 1) = .ok fees ∧
      (paid coinbase).toInt ≤
        (Amount.saturatingAdd (Amount.subsidy header.height) fees).toInt := by
  unfold blockFault
  cases htxs : block.txs with
  | nil => simp
  | cons coinbase rest =>
    have hextra : rest.findIdx? Transaction.isCoinbase = none ↔
        ∀ tx ∈ rest, tx.isCoinbase = false := by simp [List.findIdx?_eq_none_iff]
    constructor
    · intro h
      dsimp only at h
      split at h
      · exact nomatch h
      next hcoinbase =>
        split at h
        · exact nomatch h
        next hrest =>
          split at h
          · exact nomatch h
          next hlimits =>
            split at h
            · exact nomatch h
            next hroot =>
              split at h
              · exact nomatch h
              next hcount =>
                split at h
                · exact nomatch h
                next fees hfees =>
                  split at h
                  · exact nomatch h
                  next hpaid =>
                    rw [Int64.lt_iff_toInt_lt, Int.not_lt] at hpaid
                    exact ⟨coinbase, rest, fees, rfl, by simpa using hcoinbase, hextra.1 hrest,
                      limitFault?_eq_none.1 hlimits, not_not.1 hroot, not_not.1 hcount, hfees,
                      hpaid⟩
    · rintro ⟨_, _, fees, hcons, hcoinbase, hrest, hlimits, hroot, hcount, hfees, hpaid⟩
      cases hcons
      rw [← Int.not_lt, ← Int64.lt_iff_toInt_lt] at hpaid
      rw [List.drop_one] at hfees
      simp [hcoinbase, hextra.2 hrest, limitFault?_eq_none.2 hlimits, hroot, hcount, hfees, hpaid]

/-- What a block that breaks no rule pays: its one coinbase takes no more than the subsidy and what
the other transactions take off the supply. -/
theorem of_blockFault {header : ChainedHeader} {block : Block} {loaded : List LoadedTx}
    (h : blockFault header block loaded = .ok ()) :
    (∀ tx ∈ block.txs, tx.Sound) ∧ ∃ coinbase rest, block.txs = coinbase :: rest ∧
      coinbase.isCoinbase = true ∧ (∀ tx ∈ rest, tx.isCoinbase = false) ∧
      ((∀ l ∈ loaded.drop 1, l.isCoinbase = false ∧ ∀ source ∈ l.sources, source.Sound) →
        coinbase.worth + ((loaded.drop 1).map LoadedTx.gain).sum ≤
          (Amount.subsidy header.height).toInt) := by
  obtain ⟨coinbase, rest, fees, htxs, hcoinbase, hrest, hlimits, -, -, hfees, hpaid⟩ :=
    blockFault_eq_ok.1 h
  have hsound := fun tx htx => (Transaction.sound_of_fault? (hlimits tx htx)).1
  have hmem : coinbase ∈ block.txs := htxs ▸ List.mem_cons_self
  have hworth := (Transaction.sound_of_fault? (hlimits coinbase hmem)).2
  refine ⟨hsound, coinbase, rest, htxs, hcoinbase, hrest, fun hl => ?_⟩
  obtain ⟨hnonneg, hle⟩ := toInt_of_totalFees hfees (by decide) hl
  have hallowed := (Amount.toInt_saturatingAdd
    (Amount.toInt_subsidy_nonneg header.height) hnonneg).2
  have hzero : (0 : Amount).toInt = 0 := rfl
  omega

end Rules
end UtxoLedger

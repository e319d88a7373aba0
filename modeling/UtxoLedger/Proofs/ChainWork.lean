import Mathlib.Algebra.BigOperators.Group.List.Basic
import Mathlib.Algebra.Order.Floor.Semifield
import Mathlib.Data.Rat.Floor
import Mathlib.Tactic.Common
import Mathlib.Tactic.NormNum
import Mathlib.Tactic.Linarith
import Mathlib.Tactic.Positivity
import Mathlib.Tactic.Ring
import UtxoLedger.Proofs.HistoryIndependence

/-!
# The work of a chain

The target of a header is a rational number, and its work is the whole part of 2 ^ 256 divided by
that number, as far as 128 bits hold it. What `Work.ofBits` gives is this quotient, except where it
takes the dividend for too large before it divides: then a target above 2 ^ 128 is given the
greatest work. Along a chain work adds up and stops at the greatest.
-/
namespace UtxoLedger

namespace Work

/-- What 128 bits hold at most. -/
def greatest : Nat := 2 ^ 128 - 1

/-- The exponent of a compact target. -/
def exponent (bits : UInt32) : Nat := (bits >>> 24).toNat

/-- The mantissa of a compact target. -/
def mantissa (bits : UInt32) : Nat := (bits &&& 0x007fffff).toNat

/-- The target that compact bits encode. -/
def target (bits : UInt32) : ℚ := mantissa bits * 256 ^ ((exponent bits : Int) - 3)

/-- The work behind a target in exact arithmetic, as far as 128 bits hold it. -/
def exact (bits : UInt32) : Nat :=
  if mantissa bits = 0 then 0 else min greatest ⌊2 ^ 256 / target bits⌋₊

/-- The dividend of the shifted quotient passes 2 ^ 127, although the target is above 2 ^ 128. -/
def CutShort (bits : UInt32) : Prop := exponent bits < 20 ∧ 2 ^ 128 < target bits

instance (bits : UInt32) : Decidable (CutShort bits) := inferInstanceAs (Decidable (_ ∧ _))

/-- The work that is given for a header. -/
def given (bits : UInt32) : Nat := if CutShort bits then greatest else exact bits

variable {bits : UInt32}

lemma mantissa_lt (bits : UInt32) : mantissa bits < 2 ^ 23 := by
  rw [mantissa, UInt32.toNat_and]
  exact Nat.and_lt_two_pow _ (by decide)

lemma toNat_ofBits (bits : UInt32) : (ofBits bits).toNat =
    if mantissa bits = 0 then 0
    else if exponent bits < 20 then greatest
    else if 35 < exponent bits then 0
    else min greatest (2 ^ (280 - 8 * exponent bits) / mantissa bits) := by
  have hgreatest : (1 <<< 128) - 1 = greatest := rfl
  have hbits : ofBits bits = if mantissa bits = 0 then zero
      else if 127 < 256 - 8 * ((exponent bits : Int) - 3) then ofNat (1 <<< 128)
      else if 256 - 8 * ((exponent bits : Int) - 3) < 0 then zero
      else ofNat ((1 <<< (256 - 8 * ((exponent bits : Int) - 3)).toNat) / mantissa bits) := rfl
  generalize exponent bits = e at hbits ⊢
  have hcut : 127 < 256 - 8 * ((e : Int) - 3) ↔ e < 20 := by omega
  have hnone : 256 - 8 * ((e : Int) - 3) < 0 ↔ 35 < e := by omega
  have hshift : (256 - 8 * ((e : Int) - 3)).toNat = 280 - 8 * e := by omega
  rw [hbits, hshift]
  simp only [hcut, hnone]
  split
  · rfl
  · split
    · rfl
    · split
      · rfl
      · rw [toNat_ofNat, hgreatest, Nat.one_shiftLeft, Nat.min_comm]

/-- The target as a multiple of a power of two. -/
lemma target_eq (bits : UInt32) :
    target bits = mantissa bits * 2 ^ (8 * ((exponent bits : Int) - 3)) := by
  have hbase : (256 : ℚ) = 2 ^ (8 : Int) := by norm_num
  rw [target, hbase, ← zpow_mul]

/-- The quotient as a power of two over the mantissa. -/
lemma quotient_eq (bits : UInt32) :
    2 ^ 256 / target bits = 2 ^ (280 - 8 * (exponent bits : Int)) / (mantissa bits : ℚ) := by
  have hexp : 280 - 8 * (exponent bits : Int) = 256 - 8 * ((exponent bits : Int) - 3) := by ring
  rw [target_eq, hexp, zpow_sub₀ two_ne_zero, mul_comm, ← div_div]
  norm_cast

lemma floor_quotient (bits : UInt32) : ⌊2 ^ 256 / target bits⌋₊ =
    if 35 < exponent bits then 0 else 2 ^ (280 - 8 * exponent bits) / mantissa bits := by
  rw [quotient_eq]
  split
  next hnone =>
    rw [Nat.floor_eq_zero]
    have hpow : (2 : ℚ) ^ (280 - 8 * (exponent bits : Int)) < 1 :=
      zpow_lt_one_of_neg₀ one_lt_two (by omega)
    rcases Nat.eq_zero_or_pos (mantissa bits) with hm | hm
    · simp [hm]
    · have hone : (1 : ℚ) ≤ mantissa bits := by exact_mod_cast hm
      exact (div_lt_one (by linarith)).2 (by linarith)
  next hsome =>
    have hexp : 280 - 8 * (exponent bits : Int) = ((280 - 8 * exponent bits : Nat) : Int) := by
      omega
    rw [hexp, zpow_natCast, ← Nat.floor_div_eq_div (K := ℚ)]
    norm_cast

/-- Below exponent 20 a target passes 2 ^ 128 where the quotient falls below 2 ^ 128. -/
lemma cutShort_iff (bits : UInt32) : CutShort bits ↔ exponent bits < 20 ∧
    2 ^ (280 - 8 * exponent bits) < mantissa bits * 2 ^ 128 := by
  refine and_congr_right fun he => ?_
  have hscaled : target bits * 2 ^ (280 - 8 * exponent bits) = mantissa bits * 2 ^ 256 := by
    rw [target_eq, mul_assoc, ← zpow_natCast, ← zpow_add₀ two_ne_zero, ← zpow_natCast]
    congr 2
    omega
  have hpos : (0 : ℚ) < 2 ^ (280 - 8 * exponent bits) := by positivity
  rw [← mul_lt_mul_iff_left₀ hpos, hscaled]
  constructor
  · intro h
    have hmul : (2 ^ 128 * 2 ^ (280 - 8 * exponent bits) : ℚ) <
        2 ^ 128 * (mantissa bits * 2 ^ 128) := by linarith
    exact_mod_cast lt_of_mul_lt_mul_left hmul (by positivity)
  · intro h
    have h : (2 ^ (280 - 8 * exponent bits) : ℚ) < mantissa bits * 2 ^ 128 := by exact_mod_cast h
    linarith

/-- Where the quotient is cut short it is less than what is given for it. -/
lemma exact_lt_of_cutShort (cut : CutShort bits) : exact bits < greatest := by
  obtain ⟨he, hcut⟩ := (cutShort_iff bits).1 cut
  have hm := mantissa_lt bits
  obtain ⟨k, hk⟩ : ∃ k, 280 - 8 * exponent bits = 128 + k := ⟨152 - 8 * exponent bits, by omega⟩
  have hfloor := floor_quotient bits
  rw [if_neg (by omega)] at hfloor
  rw [hk, pow_add] at hcut hfloor
  have hpos : mantissa bits ≠ 0 := by
    intro h0
    simp [h0] at hcut
  rw [exact, if_neg hpos, hfloor]
  -- The mantissa is at least one above the power of two, and far below 2 ^ 128.
  generalize 2 ^ k = x at hcut ⊢
  generalize mantissa bits = m at hcut hm hpos ⊢
  have hquot : 2 ^ 128 * x / m < greatest := by
    rw [Nat.div_lt_iff_lt_mul (Nat.pos_of_ne_zero hpos), greatest]
    omega
  exact (min_le_right _ _).trans_lt hquot

/-- The work of a header is exact, unless its quotient is cut short. -/
lemma toNat_ofBits_eq_given (bits : UInt32) : (ofBits bits).toNat = given bits := by
  have hfloor := floor_quotient bits
  have hcut := cutShort_iff bits
  rw [toNat_ofBits, given, exact]
  by_cases hm : mantissa bits = 0
  · have huncut : ¬ CutShort bits := by simp [hcut, hm]
    rw [if_pos hm, if_neg huncut, if_pos hm]
  · rw [if_neg hm, if_neg hm]
    by_cases he : exponent bits < 20
    · rw [if_pos he]
      split
      · rfl
      next huncut =>
        -- The quotient is at least 2 ^ 128, so it saturates.
        have hle : mantissa bits * 2 ^ 128 ≤ 2 ^ (280 - 8 * exponent bits) := by
          by_contra hlt
          exact huncut (hcut.2 ⟨he, not_le.1 hlt⟩)
        have hquot : 2 ^ 128 ≤ 2 ^ (280 - 8 * exponent bits) / mantissa bits :=
          (Nat.le_div_iff_mul_le (Nat.pos_of_ne_zero hm)).2 (by rwa [mul_comm])
        rw [hfloor, if_neg (by omega), min_eq_left]
        exact (Nat.sub_le _ _).trans hquot
    · have huncut : ¬ CutShort bits := fun h => he (hcut.1 h).1
      rw [if_neg he, if_neg huncut, hfloor]
      split
      · simp
      · rfl

lemma given_eq_exact_iff (bits : UInt32) : given bits = exact bits ↔ ¬ CutShort bits := by
  rw [given]
  split
  next cut => simp [cut, (exact_lt_of_cutShort cut).ne']
  next uncut => simp [uncut]

lemma exact_le_given (bits : UInt32) : exact bits ≤ given bits := by
  rw [given]
  split
  next cut => exact (exact_lt_of_cutShort cut).le
  next => exact le_rfl

end Work

namespace Chain

/-- Chains that are made header by header: a genesis header, and then each header chained onto the
tip before it is added. -/
inductive Stacked : Chain → Prop
  | genesis {chain : Chain} {h : BlockHeader} (made : ofGenesis (.genesis h) = .ok chain) :
      Stacked chain
  | onto {chain below : Chain} {h : BlockHeader} {header : ChainedHeader} (before : Stacked below)
      (made : below.tip.onto h = .ok header) (grown : below.add header = .ok chain) :
      Stacked chain

/-- The work of the headers of a chain one by one, by whatever measure. -/
def totalWork (measure : UInt32 → Nat) (chain : Chain) : Nat :=
  (chain.headers.map fun h => measure h.header.bits).sum

variable {a b chain : Chain}

lemma totalWork_of_grown {below : Chain} {measure : UInt32 → Nat} {header : ChainedHeader}
    (h : chain.headers = below.headers ++ [header]) :
    chain.totalWork measure = below.totalWork measure + measure header.header.bits := by
  simp [totalWork, h]

lemma given_le_totalWork {h : ChainedHeader} (hh : h ∈ chain.headers) :
    Work.given h.header.bits ≤ chain.totalWork Work.given :=
  List.single_le_sum (by simp) _ (List.mem_map_of_mem hh)

lemma totalWork_exact_le_given (chain : Chain) :
    chain.totalWork Work.exact ≤ chain.totalWork Work.given :=
  List.sum_le_sum fun h _ => Work.exact_le_given h.header.bits

lemma totalWork_congr (uncut : ∀ h ∈ chain.headers, ¬ Work.CutShort h.header.bits) :
    chain.totalWork Work.given = chain.totalWork Work.exact := by
  have hmap : (chain.headers.map fun h => Work.given h.header.bits) =
      chain.headers.map fun h => Work.exact h.header.bits :=
    List.map_congr_left fun h hh => (Work.given_eq_exact_iff _).2 (uncut h hh)
  rw [totalWork, hmap, totalWork]

/-- One header that is cut short already brings the greatest work. -/
lemma capped_totalWork_eq_iff (chain : Chain) :
    min Work.greatest (chain.totalWork Work.given) =
        min Work.greatest (chain.totalWork Work.exact) ↔
      (∀ h ∈ chain.headers, ¬ Work.CutShort h.header.bits) ∨
        Work.greatest ≤ chain.totalWork Work.exact := by
  constructor
  · intro heq
    by_contra hneg
    push Not at hneg
    obtain ⟨⟨h, hh, cut⟩, hlt⟩ := hneg
    have hgiven := given_le_totalWork hh
    rw [Work.given, if_pos cut] at hgiven
    omega
  · intro h
    rcases h with uncut | full
    · rw [totalWork_congr uncut]
    · have hle := totalWork_exact_le_given chain
      omega

/-- Adding up and stopping at the greatest comes to stopping once at the end. -/
lemma Stacked.toNat_work (h : chain.Stacked) :
    chain.work.toNat = min Work.greatest (chain.totalWork Work.given) := by
  have hgreatest : (1 <<< 128) - 1 = Work.greatest := rfl
  induction h with
  | @genesis chain h made =>
    have hheaders : chain.headers = [.genesis h] := headers_of_ofHeaders made
    have htip : chain.work = Work.ofBits h.bits := by
      simp [work, tip, hheaders, ChainedHeader.genesis]
    have hle := Nat.le_sub_one_of_lt (Work.ofBits h.bits).isLt
    rw [hgreatest] at hle
    simp [totalWork, hheaders, htip, ChainedHeader.genesis, ← Work.toNat_ofBits_eq_given, hle]
  | @onto chain below h header before made grown ih =>
    obtain ⟨-, hheaders⟩ := add_eq_ok.1 grown
    obtain ⟨-, rfl⟩ := ChainedHeader.onto_eq_ok.1 made
    have htip : chain.work = below.work.add (Work.ofBits h.bits) := by
      rw [work, tip_of_grown hheaders]
      rfl
    have hbits : (below.tip.above h).header.bits = h.bits := rfl
    have hsum : chain.totalWork Work.given = _ := totalWork_of_grown hheaders
    rw [hbits] at hsum
    rw [htip, Work.toNat_add, ih, hsum, Work.toNat_ofBits_eq_given, hgreatest]
    omega

/-- Work is exact up to the greatest for every header that is not cut short, and along a chain
just if none of its headers is, or if it comes to the greatest anyway. So the choice between two
chains goes by the exact work if no header of either is cut short. -/
theorem work_exact_iff_uncut (ha : a.Stacked) (hb : b.Stacked) :
    (∀ bits, (Work.ofBits bits).toNat = if Work.CutShort bits then Work.greatest
      else Work.exact bits) ∧
    (∀ bits, (Work.ofBits bits).toNat = Work.exact bits ↔ ¬ Work.CutShort bits) ∧
    (a.work.toNat = min Work.greatest (a.totalWork Work.exact) ↔
      (∀ h ∈ a.headers, ¬ Work.CutShort h.header.bits) ∨
        Work.greatest ≤ a.totalWork Work.exact) ∧
    (a.better b = true ↔ min Work.greatest (a.totalWork Work.given) <
      min Work.greatest (b.totalWork Work.given)) ∧
    ((∀ h ∈ a.headers ++ b.headers, ¬ Work.CutShort h.header.bits) →
      (a.better b = true ↔ min Work.greatest (a.totalWork Work.exact) <
        min Work.greatest (b.totalWork Work.exact))) := by
  have hbetter : a.better b = true ↔ min Work.greatest (a.totalWork Work.given) <
      min Work.greatest (b.totalWork Work.given) := by
    simp [better, ha.toNat_work, hb.toNat_work]
  refine ⟨Work.toNat_ofBits_eq_given, fun bits => ?_, ?_, hbetter, fun uncut => ?_⟩
  · rw [Work.toNat_ofBits_eq_given, Work.given_eq_exact_iff]
  · rw [ha.toNat_work, capped_totalWork_eq_iff]
  · rw [hbetter, totalWork_congr fun h hh => uncut h (List.mem_append_left _ hh),
      totalWork_congr fun h hh => uncut h (List.mem_append_right _ hh)]

/-- A chain of two headers; the bits of the second are given. -/
def pairAbove (bits : UInt32) : ChainedHeader :=
  soleGenesis.above ⟨1, soleGenesis.hash, .zero, 0, bits, 0⟩

def pairChain (bits : UInt32) : Chain where
  headers := [soleGenesis, pairAbove bits]
  nonempty := List.cons_ne_nil _ _
  heights i hi := by
    have hcases : i = 0 ∨ i = 1 := by
      simp at hi
      omega
    obtain rfl | rfl := hcases
    · rfl
    · rfl
  linked i hi := by
    obtain rfl : i = 0 := Nat.lt_one_iff.1 (Nat.succ_lt_succ_iff.1 hi)
    rfl

lemma pairChain_stacked (bits : UInt32) : (pairChain bits).Stacked := by
  have hbase : ofGenesis soleGenesis = .ok soleChain := rfl
  exact .onto (.genesis hbase) (ChainedHeader.onto_eq_ok.2 ⟨rfl, rfl⟩)
    (add_eq_ok.2 ⟨⟨rfl, rfl⟩, rfl⟩)

lemma totalWork_pairChain (measure : UInt32 → Nat) (bits : UInt32) :
    (pairChain bits).totalWork measure = measure 0x207fffff + measure bits := by
  have hbits : (pairAbove bits).header.bits = bits := rfl
  have hgenesis : soleGenesis.header.bits = 0x207fffff := rfl
  simp [totalWork, pairChain, hbits, hgenesis]

/-- Two encodings of one target: the work behind them is the same, but one of them is cut short,
and a chain is left for another of no more work. -/
theorem work_exact_iff_uncut_same_target :
    Work.target 0x13000100 = Work.target 0x14000001 ∧
    (pairChain 0x14000001).Stacked ∧ (pairChain 0x13000100).Stacked ∧
    (pairChain 0x14000001).totalWork Work.exact = 2 + 2 ^ 120 ∧
    (pairChain 0x13000100).totalWork Work.exact = 2 + 2 ^ 120 ∧
    (pairChain 0x13000100).work.toNat ≠ 2 + 2 ^ 120 ∧
    (pairChain 0x14000001).better (pairChain 0x13000100) = true := by
  have hc := pairChain_stacked 0x13000100
  have hu := pairChain_stacked 0x14000001
  have hec : Work.exact 0x13000100 = 2 ^ 120 := by
    rw [Work.exact, Work.floor_quotient]
    decide +kernel
  have heu : Work.exact 0x14000001 = 2 ^ 120 := by
    rw [Work.exact, Work.floor_quotient]
    decide +kernel
  have heg : Work.exact 0x207fffff = 2 := by
    rw [Work.exact, Work.floor_quotient]
    decide +kernel
  have hcut : Work.CutShort 0x13000100 := by
    rw [Work.cutShort_iff]
    decide +kernel
  have huncut : ¬ Work.CutShort 0x14000001 := by
    rw [Work.cutShort_iff]
    decide +kernel
  have hguncut : ¬ Work.CutShort 0x207fffff := by
    rw [Work.cutShort_iff]
    decide +kernel
  have htarget : Work.target 0x13000100 = Work.target 0x14000001 := by
    have hc : Work.mantissa 0x13000100 = 256 ∧ Work.exponent 0x13000100 = 19 := by decide
    have hu : Work.mantissa 0x14000001 = 1 ∧ Work.exponent 0x14000001 = 20 := by decide
    rw [Work.target, Work.target, hc.1, hc.2, hu.1, hu.2]
    norm_num
  have htotal : (pairChain 0x13000100).totalWork Work.exact = 2 + 2 ^ 120 := by
    rw [totalWork_pairChain, heg, hec]
  obtain ⟨-, -, hexact, -, -⟩ := work_exact_iff_uncut hc hu
  obtain ⟨-, -, -, hbetter, -⟩ := work_exact_iff_uncut hu hc
  have hmem : pairAbove 0x13000100 ∈ (pairChain 0x13000100).headers := by simp [pairChain]
  refine ⟨htarget, hu, hc, ?_, htotal, fun heq => ?_, hbetter.2 ?_⟩
  · rw [totalWork_pairChain, heg, heu]
  · rw [htotal] at hexact
    have hmin : min Work.greatest (2 + 2 ^ 120) = 2 + 2 ^ 120 := by decide +kernel
    rcases hexact.1 (heq.trans hmin.symm) with hall | hfull
    · exact hall _ hmem hcut
    · exact absurd hfull (by decide +kernel)
  · rw [totalWork_pairChain, totalWork_pairChain, Work.given, Work.given, Work.given,
      if_neg hguncut, if_neg huncut, if_pos hcut, heg, heu]
    decide +kernel

end Chain
end UtxoLedger

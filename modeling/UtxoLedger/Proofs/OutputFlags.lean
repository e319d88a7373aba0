import Mathlib.Tactic.Common
import UtxoLedger.OutputStates

/-!
# Output states as flags

`get?` is the view of packed output states: it pins them down, a change of one output changes it
there alone, and the counts over whole bytes are counts of the flags that it shows.
-/
namespace UtxoLedger

namespace Bytes

lemma bitAt_cons_of_lt (b : UInt8) (bs : Bytes) {j : Nat} (hj : j < 8) :
    bitAt (b :: bs) j = b.toBitVec.getLsbD j := by
  have h0 : j / 8 = 0 := Nat.div_eq_of_lt hj
  simp [bitAt, h0, Nat.mod_eq_of_lt hj]

lemma bitAt_cons_add (b : UInt8) (bs : Bytes) (i : Nat) : bitAt (b :: bs) (8 + i) = bitAt bs i := by
  have hd : (8 + i) / 8 = i / 8 + 1 := by omega
  have hm : (8 + i) % 8 = i % 8 := by omega
  simp [bitAt, hd, hm]

/-- The bits of all bytes, one after the other, are the bits by position. -/
lemma flatMap_bits (bs : Bytes) :
    bs.flatMap bits = (List.range (8 * bs.length)).map (bitAt bs) := by
  induction bs with
  | nil => rfl
  | cons b bs ih =>
    have hl : 8 * (b :: bs).length = 8 + 8 * bs.length := by
      rw [List.length_cons]
      omega
    have hb : bits b = (List.range 8).map (bitAt (b :: bs)) :=
      List.map_congr_left fun j hj => (bitAt_cons_of_lt b bs (List.mem_range.1 hj)).symm
    have hbs : (List.range (8 * bs.length)).map (bitAt bs) =
        (List.range (8 * bs.length)).map (bitAt (b :: bs) ∘ (8 + ·)) :=
      List.map_congr_left fun i _ => (bitAt_cons_add b bs i).symm
    rw [List.flatMap_cons, ih, hl, List.range_add, List.map_append, List.map_map, hb, hbs]

/-- Byte strings of one length are equal if their bits are. -/
lemma ext_bitAt {as bs : Bytes} (hl : as.length = bs.length)
    (h : ∀ i, bitAt as i = bitAt bs i) : as = bs := by
  apply List.ext_getElem hl
  intro k hk hk'
  apply UInt8.toBitVec_inj.1
  apply BitVec.eq_of_getLsbD_eq
  intro j hj
  have hd : (8 * k + j) / 8 = k := by omega
  have hm : (8 * k + j) % 8 = j := by omega
  simpa [bitAt, hd, hm, hk, hk'] using h (8 * k + j)

end Bytes

namespace OutputStates

variable {s s' : OutputStates} {i n : Nat} {v : OutputState}

/-- The flags pin the packed states down. -/
lemma ext_get? (hsize : s.size = s'.size) (h : ∀ i, i < s.size → s.get? i = s'.get? i) :
    s = s' := by
  have hpacked : s.packed = s'.packed := by
    apply Bytes.ext_bitAt
    · rw [s.length_packed, s'.length_packed, hsize]
    · intro i
      by_cases hi : i < s.size
      · have hi' : i < s'.size := hsize ▸ hi
        have hg := h i hi
        simp only [get?, hi, hi', if_true, Option.some.injEq] at hg
        rw [← OutputState.bit_ofBit (s.packed.bitAt i), hg, OutputState.bit_ofBit]
      · rw [s.padding_clear i (by omega), s'.padding_clear i (by omega)]
  cases s
  cases s'
  simp_all

@[simp] lemma size_filled (n : Nat) (v : OutputState) : (filled n v).size = n := rfl

lemma bitAt_filled (hi : i < n) (v : OutputState) : (filled n v).packed.bitAt i = v.bit := by
  have hk : i / 8 < (n + 7) / 8 := by omega
  have hm : 8 * (i / 8) + i % 8 = i := by omega
  simp [filled, Bytes.bitAt, List.getD, hk,
    Bytes.getLsbD_ofBits _ (Nat.mod_lt i (by decide : 0 < 8)), hm, hi]

lemma get?_filled (hi : i < n) (v : OutputState) : (filled n v).get? i = some v := by
  rw [get?, size_filled, if_pos hi, bitAt_filled hi, OutputState.ofBit_bit]

lemma set?_eq_some (h : s.set? i v = some s') :
    i < s.size ∧ s'.size = s.size ∧
      ∀ j, j < s.size → s'.get? j = if j = i then some v else s.get? j := by
  unfold set? at h
  split at h
  next hi =>
    cases h
    refine ⟨hi, rfl, fun j hj => ?_⟩
    have hb := Bytes.bitAt_writeBit s.packed v.bit (i := i) (by rw [s.length_packed]; omega) j
    simp only [get?, hj, if_true, hb]
    by_cases hji : j = i
    · simp [hji]
    · simp [hji]
  · cases h

lemma exists_set? (h : i < s.size) (v : OutputState) : ∃ s', s.set? i v = some s' := by
  rw [set?, dif_pos h]
  exact ⟨_, rfl⟩

/-- Putting an output back into the state that it had undoes the change. -/
lemma set?_set? {w : OutputState} (hget : s.get? i = some w) (hset : s.set? i v = some s') :
    s'.set? i w = some s := by
  obtain ⟨hi, hsize, hs'⟩ := set?_eq_some hset
  obtain ⟨s'', hset'⟩ := exists_set? (s := s') (hsize ▸ hi) w
  obtain ⟨-, hsize', hs''⟩ := set?_eq_some hset'
  rw [hset']
  congr 1
  apply ext_get? (by rw [hsize', hsize])
  intro j hj
  rw [hs'' j (by omega), hs' j (by omega)]
  by_cases hji : j = i
  · rw [if_pos hji, hji, hget]
  · rw [if_neg hji, if_neg hji]

lemma unspentCount_eq (s : OutputStates) :
    s.unspentCount = (List.range s.size).countP s.packed.bitAt := by
  have hlen := s.length_packed
  have hsplit : 8 * s.packed.length = s.size + (8 * s.packed.length - s.size) := by omega
  have hpad : ((List.range (8 * s.packed.length - s.size)).map (s.size + ·)).countP
      s.packed.bitAt = 0 := by
    rw [List.countP_eq_zero]
    intro i hi
    obtain ⟨j, -, rfl⟩ := List.mem_map.1 hi
    rw [s.padding_clear _ (Nat.le_add_right _ _)]
    decide
  have heq : ((· == true) ∘ s.packed.bitAt) = s.packed.bitAt := by
    funext i
    simp
  rw [unspentCount, Bytes.flatMap_bits, List.count_eq_countP, List.countP_map, heq, hsplit,
    List.range_add, List.countP_append, hpad, Nat.add_zero]

lemma get?_eq_some_iff (hi : i < s.size) : s.get? i = some v ↔ s.packed.bitAt i = v.bit := by
  rw [get?, if_pos hi, Option.some.injEq]
  constructor
  · rintro rfl
    rw [OutputState.bit_ofBit]
  · intro h
    rw [h, OutputState.ofBit_bit]

lemma allSpent_iff : s.allSpent = true ↔ ∀ i, i < s.size → s.get? i = some .spent := by
  rw [allSpent, decide_eq_true_iff, unspentCount_eq, List.countP_eq_zero]
  refine forall_congr' fun i => ?_
  rw [List.mem_range]
  refine imp_congr_right fun hi => ?_
  rw [get?_eq_some_iff hi]
  simp [OutputState.bit]

lemma allUnspent_iff : s.allUnspent = true ↔ ∀ i, i < s.size → s.get? i = some .unspent := by
  have hlen : s.size = (List.range s.size).length := List.length_range.symm
  rw [allUnspent, decide_eq_true_iff, unspentCount_eq]
  conv_lhs => rhs; rw [hlen]
  rw [List.countP_eq_length]
  refine forall_congr' fun i => ?_
  rw [List.mem_range]
  refine imp_congr_right fun hi => ?_
  rw [get?_eq_some_iff hi]
  simp [OutputState.bit]

/-- States without an unspent output are those that a record starts with when it comes back. -/
lemma eq_filled_of_allSpent (h : s.allSpent = true) : s = filled s.size .spent :=
  ext_get? rfl fun i hi => by rw [allSpent_iff.1 h i hi, get?_filled hi]

lemma allUnspent_filled (n : Nat) : (filled n .unspent).allUnspent = true :=
  allUnspent_iff.2 fun _ hi => get?_filled hi _

end OutputStates
end UtxoLedger

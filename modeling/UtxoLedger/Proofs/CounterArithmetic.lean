import Mathlib.Algebra.Group.Nat.Defs
import Mathlib.Tactic.Common
import UtxoLedger.Store.Tables

/-!
# Counting up and down

Counters wrap at 2 ^ 64. As long as they stay below, raising adds and lowering subtracts, and one
undoes the other.
-/
namespace UtxoLedger
namespace Counters

variable {cs cs' : Counters} {a b : Counter} {m n : Nat}

lemma get_set (cs : Counters) (a b : Counter) (value : UInt64) :
    (cs.set a value).get b = if b = a then value else cs.get b := by
  by_cases h : b = a
  · rw [h, get_set_self, if_pos rfl]
  · rw [get_set_of_ne cs (Ne.symm h), if_neg h]

lemma ext_get (h : ∀ c, cs.get c = cs'.get c) : cs = cs' := by
  have h1 := h .unspentTxs
  have h2 := h .unspentOutputs
  have h3 := h .txs
  have h4 := h .inputs
  have h5 := h .outputs
  cases cs
  cases cs'
  simp_all [get]

lemma ext_toNat (h : ∀ c, (cs.get c).toNat = (cs'.get c).toNat) : cs = cs' :=
  ext_get fun c => UInt64.toNat_inj.1 (h c)

/-- Below the limit a counter goes up by what was counted. -/
lemma toNat_get_raise (h : (cs.get a).toNat + n < 2 ^ 64) (b : Counter) :
    ((cs.raise a n).get b).toNat = (cs.get b).toNat + if b = a then n else 0 := by
  rw [raise, get_set]
  split
  next hb =>
    subst hb
    rw [UInt64.toNat_add, UInt64.toNat_ofNat', Nat.add_mod_mod, Nat.mod_eq_of_lt h]
  · rw [Nat.add_zero]

lemma raise_zero (cs : Counters) (a : Counter) : cs.raise a 0 = cs := by
  apply ext_get
  intro c
  rw [raise, get_set]
  split
  next h => simp [h]
  · rfl

lemma raise_raise (cs : Counters) (a : Counter) (m n : Nat) :
    (cs.raise a m).raise a n = cs.raise a (m + n) := by
  apply ext_get
  intro c
  simp only [raise, get_set]
  split
  · rw [if_pos trivial, UInt64.ofNat_add, UInt64.add_assoc]
  · rfl

/-- Lowering takes off what was asked for, which must be there. -/
lemma toNat_get_of_lower (h : cs.lower a n = .ok cs') (b : Counter) :
    (cs'.get b).toNat + (if b = a then n else 0) = (cs.get b).toNat := by
  unfold lower at h
  split at h
  · exact nomatch h
  next hle =>
    cases h
    rw [get_set]
    split
    next hb =>
      subst hb
      have hlt : n < 2 ^ 64 := Nat.lt_of_le_of_lt (Nat.not_lt.1 hle) (cs.get b).toNat_lt
      have hn : (UInt64.ofNat n).toNat = n := UInt64.toNat_ofNat_of_lt' hlt
      rw [UInt64.toNat_sub_of_le _ _ (UInt64.le_iff_toNat_le.2 (by omega)), hn]
      omega
    · rw [Nat.add_zero]

lemma exists_lower (cs : Counters) (a : Counter) (h : n ≤ (cs.get a).toNat) :
    ∃ cs', cs.lower a n = .ok cs' := by
  rw [lower, if_neg (Nat.not_lt.2 h)]
  exact ⟨_, rfl⟩

end Counters
end UtxoLedger

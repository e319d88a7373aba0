/-!
# Proof of work

The work of a header is the expected number of hashes behind it: 2 ^ 256 divided by the target
that its compact `bits` encode. Work is kept in 128 bits and saturates there, for one header as
for the sum along a chain.
-/
namespace UtxoLedger

/-- An amount of work below 2 ^ 128. -/
structure Work where
  toNat : Nat
  isLt : toNat < 1 <<< 128
  deriving DecidableEq

namespace Work

/-- The largest amount; any excess is cut off here. -/
def ofNat (n : Nat) : Work := ⟨min n ((1 <<< 128) - 1), by omega⟩

theorem ext_toNat {a b : Work} (h : a.toNat = b.toNat) : a = b := by
  cases a; cases b; simp_all

@[simp] theorem toNat_ofNat (n : Nat) : (ofNat n).toNat = min n ((1 <<< 128) - 1) := rfl

def zero : Work := ⟨0, by decide⟩

instance : Inhabited Work := ⟨zero⟩

/-- The sum, cut off at the largest amount. -/
def add (a b : Work) : Work := ofNat (a.toNat + b.toNat)

@[simp] theorem toNat_add (a b : Work) :
    (a.add b).toNat = min (a.toNat + b.toNat) ((1 <<< 128) - 1) := rfl

/-- The work of one header. The compact target is `m * 256 ^ (e - 3)` with `m` in the low 23 bits
and `e` in the high byte; a zero target carries no work, a quotient below one counts as none, and
a target so small that the dividend passes 2 ^ 127 counts as the largest amount. -/
def ofBits (bits : UInt32) : Work :=
  let exponent : Int := (bits >>> 24).toNat
  let mantissa : Nat := (bits &&& 0x007fffff).toNat
  let shift : Int := 256 - 8 * (exponent - 3)
  if mantissa = 0 then zero
  else if 127 < shift then ofNat (1 <<< 128)
  else if shift < 0 then zero
  else ofNat ((1 <<< shift.toNat) / mantissa)

end Work
end UtxoLedger

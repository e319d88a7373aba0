import UtxoLedger.Bytes

/-!
# Output states

One bit for each output of a transaction says whether it is still unspent. Bit `i` is bit `i % 8`,
counted from the least significant, of byte `i / 8`. The bits behind the last output are clear, so
equal states have equal bytes.
-/
namespace UtxoLedger

inductive OutputState
  | unspent
  | spent
  deriving DecidableEq, Repr

namespace OutputState

def ofBit (b : Bool) : OutputState := if b then unspent else spent

def bit (s : OutputState) : Bool := s = unspent

@[simp] theorem ofBit_bit (s : OutputState) : ofBit s.bit = s := by cases s <;> rfl

@[simp] theorem bit_ofBit (b : Bool) : (ofBit b).bit = b := by cases b <;> rfl

end OutputState

namespace Bytes

/-- Bit `i` of a byte string; clear behind its end. -/
def bitAt (bs : Bytes) (i : Nat) : Bool := (bs.getD (i / 8) 0).toBitVec.getLsbD (i % 8)

/-- The eight bits of a byte, least significant first. -/
def bits (b : UInt8) : List Bool := (List.range 8).map b.toBitVec.getLsbD

/-- The byte whose bit `j` is `f j`. -/
def ofBits (f : Nat → Bool) : UInt8 :=
  ⟨BitVec.ofBoolListLE [f 0, f 1, f 2, f 3, f 4, f 5, f 6, f 7]⟩

def writeBitIn (b : UInt8) (k : Nat) (v : Bool) : UInt8 :=
  ⟨if v then b.toBitVec ||| BitVec.twoPow 8 k else b.toBitVec &&& ~~~BitVec.twoPow 8 k⟩

/-- Sets bit `i` to `v`; nothing happens behind the end. -/
def writeBit (bs : Bytes) (i : Nat) (v : Bool) : Bytes :=
  bs.modify (i / 8) (writeBitIn · (i % 8) v)

theorem getLsbD_ofBits (f : Nat → Bool) {j : Nat} (hj : j < 8) :
    (ofBits f).toBitVec.getLsbD j = f j := by
  match j, hj with
  | 0, _ | 1, _ | 2, _ | 3, _ | 4, _ | 5, _ | 6, _ | 7, _ =>
    exact BitVec.getLsbD_ofBoolListLE

theorem getLsbD_writeBitIn (b : UInt8) (k : Nat) (v : Bool) {j : Nat} (hj : j < 8) :
    (writeBitIn b k v).toBitVec.getLsbD j = if j = k then v else b.toBitVec.getLsbD j := by
  by_cases h : j = k
  · cases v <;> simp [writeBitIn, ← h, hj]
  · cases v <;> simp [writeBitIn, h, hj]

@[simp] theorem length_writeBit (bs : Bytes) (i : Nat) (v : Bool) :
    (writeBit bs i v).length = bs.length := by
  simp [writeBit]

theorem bitAt_of_length_le {bs : Bytes} {i : Nat} (h : bs.length ≤ i / 8) : bitAt bs i = false := by
  simp [bitAt, List.getD, List.getElem?_eq_none h]

/-- Writing a bit changes that bit alone. -/
theorem bitAt_writeBit (bs : Bytes) {i : Nat} (v : Bool) (h : i / 8 < bs.length) (j : Nat) :
    bitAt (writeBit bs i v) j = if j = i then v else bitAt bs j := by
  have hj : j % 8 < 8 := Nat.mod_lt _ (by decide)
  by_cases hb : i / 8 = j / 8
  · have hlt : j / 8 < bs.length := by omega
    have hiff : j % 8 = i % 8 ↔ j = i := by omega
    simp [bitAt, writeBit, List.getD, List.getElem?_eq_getElem hlt, hb,
      getLsbD_writeBitIn _ _ _ hj, hiff]
  · have : j ≠ i := fun e => hb (by rw [e])
    simp [bitAt, writeBit, List.getD, hb, this]

end Bytes

/-- The states of the `size` outputs of a transaction, packed. -/
structure OutputStates where
  size : Nat
  packed : Bytes
  length_packed : packed.length = (size + 7) / 8
  padding_clear : ∀ i, size ≤ i → packed.bitAt i = false
  deriving DecidableEq

namespace OutputStates

/-- `n` outputs in the same state. -/
def filled (n : Nat) (s : OutputState) : OutputStates where
  size := n
  packed := (List.range ((n + 7) / 8)).map fun k =>
    Bytes.ofBits fun j => s.bit && decide (8 * k + j < n)
  length_packed := by simp
  padding_clear i hi := by
    by_cases hk : i / 8 < (n + 7) / 8
    · simp [Bytes.bitAt, List.getD, hk, Bytes.getLsbD_ofBits _ (Nat.mod_lt i (by decide : 0 < 8))]
      omega
    · exact Bytes.bitAt_of_length_le (by simpa using hk)

/-- Accepts bytes of the right number whose padding bits are clear. -/
def ofPacked? (n : Nat) (packed : Bytes) : Option OutputStates :=
  if h : packed.length = (n + 7) / 8 ∧ ∀ j : Fin 8, packed.bitAt (n + j) = false then
    some ⟨n, packed, h.1, fun i hi => by
      by_cases hj : i < n + 8
      · have := h.2 ⟨i - n, by omega⟩
        rwa [Nat.add_sub_cancel' hi] at this
      · exact Bytes.bitAt_of_length_le (by omega)⟩
  else none

/-- The state of output `i`, if there is one. -/
def get? (s : OutputStates) (i : Nat) : Option OutputState :=
  if i < s.size then some (.ofBit (s.packed.bitAt i)) else none

/-- Puts output `i` into the state `v`; refused behind the last output. -/
def set? (s : OutputStates) (i : Nat) (v : OutputState) : Option OutputStates :=
  if h : i < s.size then
    some {
      size := s.size
      packed := s.packed.writeBit i v.bit
      length_packed := by simp [s.length_packed]
      padding_clear := fun j hj => by
        rw [Bytes.bitAt_writeBit _ _ (by rw [s.length_packed]; omega),
          if_neg (by omega), s.padding_clear j hj] }
  else none

/-- The states in output order. -/
def toList (s : OutputStates) : List OutputState :=
  ((s.packed.flatMap Bytes.bits).take s.size).map .ofBit

/-- The number of set bits. -/
def unspentCount (s : OutputStates) : Nat :=
  (s.packed.flatMap Bytes.bits).count true

def allSpent (s : OutputStates) : Bool := s.unspentCount = 0

def allUnspent (s : OutputStates) : Bool := s.unspentCount = s.size

end OutputStates
end UtxoLedger

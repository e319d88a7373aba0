import Std.Data.ExtTreeMap
import UtxoLedger.Bytes

/-!
# Hashes

A hash is a string of exactly 32 bytes. Hashes are ordered byte by byte, which is the order in
which the store keeps the records they name.
-/
namespace UtxoLedger

/-- A 256-bit hash in memory order. -/
structure Hash where
  bytes : Bytes
  size_eq : bytes.length = 32
  deriving DecidableEq

namespace Hash

theorem ext_bytes {a b : Hash} (h : a.bytes = b.bytes) : a = b := by
  cases a; cases b; simp_all

/-- The hash that stands for "no block" and "no transaction". -/
def zero : Hash := ⟨List.replicate 32 0, by simp⟩

instance : Inhabited Hash := ⟨zero⟩

/-- Accepts exactly the strings of 32 bytes. -/
def ofBytes? (bs : Bytes) : Option Hash :=
  if h : bs.length = 32 then some ⟨bs, h⟩ else none

@[simp] theorem ofBytes?_bytes (h : Hash) : ofBytes? h.bytes = some h := by
  simp [ofBytes?, h.size_eq]

/-- The text of a hash: 64 hexadecimal digits, never reversed. -/
def hex (h : Hash) : String := Bytes.toHex h.bytes

instance : Ord Hash := ⟨fun a b => compare a.bytes b.bytes⟩

theorem compare_def (a b : Hash) : compare a b = compare a.bytes b.bytes := rfl

instance : Std.TransOrd Hash :=
  inferInstanceAs (Std.TransCmp (compareOn Hash.bytes))

instance : Std.LawfulEqOrd Hash where
  eq_of_compare {a b} h := by
    rw [compare_def] at h
    exact ext_bytes (Std.LawfulEqOrd.eq_of_compare h)

end Hash
end UtxoLedger

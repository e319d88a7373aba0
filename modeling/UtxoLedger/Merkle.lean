import UtxoLedger.Header

/-!
# Merkle roots

A level of hashes is joined pair by pair, the last hash with itself when it is alone, until one
hash is left. The root of no transactions is the zero hash.
-/
namespace UtxoLedger
namespace Merkle

/-- The parent of two neighbours. -/
def join (l r : Hash) : Hash := doubleSha256 (l.bytes ++ r.bytes)

/-- The level above. -/
def pairUp : List Hash → List Hash
  | l :: r :: rest => join l r :: pairUp rest
  | [l] => [join l l]
  | [] => []

theorem length_pairUp (level : List Hash) : (pairUp level).length = (level.length + 1) / 2 := by
  fun_induction pairUp level with
  | case1 l r rest ih => simp [ih]; omega
  | case2 => simp
  | case3 => simp

/-- Climbs at most `levels` levels. -/
def climb : Nat → List Hash → List Hash
  | 0, level => level
  | n + 1, level => if level.length ≤ 1 then level else climb n (pairUp level)

/-- The root over a list of hashes; a level at least halves while it has two entries. -/
def root (hashes : List Hash) : Hash := (climb hashes.length hashes).headD Hash.zero

end Merkle

/-- The Merkle root of the names of the transactions. -/
def merkleRoot (txs : List Transaction) : Hash := Merkle.root (txs.map Transaction.hash)

end UtxoLedger

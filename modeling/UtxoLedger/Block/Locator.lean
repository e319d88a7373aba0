import UtxoLedger.Archive
import UtxoLedger.Chain

/-!
# Locating sources

While a block is replayed, the transactions that it spends from are found by their place: in the
block itself, or in the archive under the name of the block that confirmed them. Whatever is found
must bear the expected name.
-/
namespace UtxoLedger

/-- A block under its chained header, with the archive behind it. -/
structure Locator where
  archive : Archive
  header : ChainedHeader
  block : Block

namespace Locator

/-- Accepts a block only under the header that names it. -/
def make (archive : Archive) (header : ChainedHeader) (block : Block) :
    Except Inconsistency Locator :=
  if block.hash = header.hash then .ok ⟨archive, header, block⟩
  else .error (.blockDiffers block.hash header.hash)

/-- The place of an unspent transaction: in this block, or on the chain below it. -/
def placeOf (l : Locator) (chain : Chain) (u : UnspentTx) : Except Inconsistency TxLocation :=
  if u.height = l.header.height then .ok ⟨l.header.hash, u.height, u.index⟩
  else match chain.get? u.height with
    | some h => .ok ⟨h.hash, u.height, u.index⟩
    | none => .error (.beyondChain u.hash u.height chain.height)

/-- The transaction at a place, which must be `tx`. -/
def resolve (l : Locator) (place : TxLocation) (tx : Hash) : Except Inconsistency Transaction :=
  if place.index.toInt < 0 then .error (.negativeIndex place.index)
  else
    let index := place.index.toInt.toNat
    let found := if place.block = l.header.hash then l.block.txs[index]?
      else l.archive.tx? place.block index
    match found with
    | some t => if t.hash = tx then .ok t else .error (.otherTxAt index place.block tx)
    | none => .error (.noTxAt tx index place.block)

end Locator
end UtxoLedger

import UtxoLedger.Header
import UtxoLedger.OutputStates

/-!
# Stored records

What the store keeps about transactions: which outputs of a confirmed transaction are unspent, and,
for each block, what undoing it takes. Every record points into the chain by block and position.
-/
namespace UtxoLedger

/-- A confirmed transaction with its output states and its place in the chain. -/
structure UnspentTx where
  hash : Hash
  height : Height
  index : Int32
  states : OutputStates
  deriving DecidableEq

/-- The place of a transaction: a block, its height, and a position in it. -/
structure TxLocation where
  block : Hash
  height : Height
  index : Int32
  deriving DecidableEq

/-- Where the sources of one transaction of a block were confirmed, input by input. -/
structure UnmintedTx where
  hash : Hash
  sources : List TxLocation
  deriving DecidableEq

end UtxoLedger

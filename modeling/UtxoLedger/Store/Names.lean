/-!
# Names in the store

The five tables, the five counters and the ways to change a table, each with the name under which
it is stored or reported.
-/
namespace UtxoLedger

/-- The tables of the store. -/
inductive TableName
  | counters
  | headers
  | unspent
  | spent
  | unminted
  deriving DecidableEq

def TableName.text : TableName → String
  | counters => "globals"
  | headers => "chain"
  | unspent => "unspent_tx"
  | spent => "spent_txes"
  | unminted => "unminted_txes"

/-- Totals kept beside the records they sum up. -/
inductive Counter
  | unspentTxs
  | unspentOutputs
  | txs
  | inputs
  | outputs
  deriving DecidableEq

namespace Counter

/-- The key of a counter. -/
def key : Counter → String
  | unspentTxs => "UnspentTxCount"
  | unspentOutputs => "UnspentOutputCount"
  | txs => "TotalTxCount"
  | inputs => "TotalInputCount"
  | outputs => "TotalOutputCount"

/-- The words for a counter. -/
def text : Counter → String
  | unspentTxs => "unspent tx count"
  | unspentOutputs => "unspent output count"
  | txs => "total tx count"
  | inputs => "total input count"
  | outputs => "total output count"

/-- Every counter, in the order in which they are written. -/
def all : List Counter := [unspentTxs, unspentOutputs, txs, inputs, outputs]

theorem mem_all (c : Counter) : c ∈ all := by cases c <;> decide

end Counter

/-- The ways to change a table. -/
inductive WriteOp
  | addHeader
  | removeHeader
  | addUnspent
  | removeUnspent
  | updateUnspent
  | addSpent
  | removeSpent
  | addUnminted
  | removeUnminted
  | writeCounter
  deriving DecidableEq

def WriteOp.text : WriteOp → String
  | addHeader => "add chained header"
  | removeHeader => "remove chained header"
  | addUnspent => "add unspent tx"
  | removeUnspent => "remove unspent tx"
  | updateUnspent => "update unspent tx"
  | addSpent => "add block spent txes"
  | removeSpent => "remove block spent txes"
  | addUnminted => "add block unminted txes"
  | removeUnminted => "remove block unminted txes"
  | writeCounter => "write counter"

end UtxoLedger

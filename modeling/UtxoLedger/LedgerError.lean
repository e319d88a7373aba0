import UtxoLedger.Fault

/-!
# Errors of the ledger

Every operation that can fail ends in a `LedgerError`. Errors come in ten kinds; a caller may act on
the kind, and on whether the error means that the store itself is damaged.
-/
namespace UtxoLedger

/-- What sort of failure an error is. -/
inductive ErrorKind
  | transactionState
  | inconsistency
  | scripts
  | block
  | transaction
  | storage
  | serialization
  | noCommonAncestor
  | chain
  | blockNotFound
  deriving DecidableEq

namespace ErrorKind

/-- The opening words of an error of this kind. -/
def opening : ErrorKind → String
  | transactionState => "Invalid transaction state: "
  | inconsistency => "Consistency violation: "
  | scripts => "Script validation failed for "
  | block => "Block validation failed: "
  | transaction => "Transaction validation failed: "
  | storage => "Storage error during "
  | serialization => "Serialization error: "
  | noCommonAncestor => "No common ancestor: "
  | chain => "Invalid chain: "
  | blockNotFound => "Block not found: "

/-- Failures after which the store can no longer be trusted to match the chain. -/
def isFatal : ErrorKind → Bool
  | inconsistency | noCommonAncestor | storage | serialization => true
  | _ => false

end ErrorKind

/-- Why an operation failed. -/
inductive LedgerError
  | transactionState (fault : SessionFault)
  | inconsistent (fault : Inconsistency)
  | scripts (failures : List ScriptFailure)
  | block (block : Hash) (fault : BlockFault)
  | fee (fault : FeeFault)
  | storage (fault : StorageFault)
  | malformed (fault : DecodeFault)
  | noCommonAncestor (source target : Hash)
  | chain (fault : ChainFault)
  | blockNotFound (missing : MissingBlock)
  /-- An error worded by the caller, such as a rule set of its own. -/
  | worded (kind : ErrorKind) (text : String)
  deriving DecidableEq

namespace LedgerError

def kind : LedgerError → ErrorKind
  | transactionState _ => .transactionState
  | inconsistent _ => .inconsistency
  | scripts _ => .scripts
  | block _ _ => .block
  | fee _ => .transaction
  | storage _ => .storage
  | malformed _ => .serialization
  | noCommonAncestor _ _ => .noCommonAncestor
  | chain _ => .chain
  | blockNotFound _ => .blockNotFound
  | worded kind _ => kind

def isFatal (e : LedgerError) : Bool := e.kind.isFatal

/-- A failed access: what was tried, on which key, and what went wrong. -/
def storageText (operation key text : String) : String := s!"{operation} ({key}): {text}"

def feeText (f : FeeFault) : String := ErrorKind.transaction.opening ++ f.message

def malformedText (f : DecodeFault) : String := ErrorKind.serialization.opening ++ f.message

def blockText : BlockFault → String
  | .noTransactions => "no transactions"
  | .noCoinbase => "first transaction is not a coinbase"
  | .extraCoinbase index => s!"extra coinbase at index {index}"
  | .transaction index fault => s!"tx {index}: {fault.message}"
  | .merkleRoot => "merkle root mismatch"
  | .resolvedCount resolved inBlock => s!"{resolved} resolved transactions for {inBlock} in block"
  | .fee fault => feeText fault
  | .excessReward paid allowed => s!"coinbase pays {paid} but subsidy plus fees is {allowed}"

/-- The text behind the opening words. -/
def detail : LedgerError → String
  | transactionState fault => fault.message
  | inconsistent fault => fault.message
  | scripts failures => s!"{failures.length} input(s)"
  | block hash fault => s!"block {hash.hex}: {blockText fault}"
  | fee fault => fault.message
  | storage (.undecodable table key fault) =>
    storageText "decode" (table.text ++ "/" ++ Bytes.toHex key) (malformedText fault)
  | storage (.counterSize counter bytes) => storageText "read counter" counter.key s!"{bytes} bytes"
  | malformed fault => fault.message
  | noCommonAncestor source target =>
    s!"chains rooted at {source.hex} and {target.hex} share no header"
  | chain fault => fault.message
  | blockNotFound missing => missing.message
  | worded _ text => text

/-- The text of an error. -/
def message (e : LedgerError) : String := e.kind.opening ++ e.detail

end LedgerError
end UtxoLedger

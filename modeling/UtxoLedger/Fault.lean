import UtxoLedger.Record.Codec
import UtxoLedger.Store.Names

/-!
# Faults

One type for each kind of fault, one constructor for each cause, and the wording of every cause in
one place. How a fault is reported to the caller is said in `LedgerError`.
-/
namespace UtxoLedger

/-- A store transaction used in a state that does not allow it. -/
inductive SessionFault
  | readOnly (op : WriteOp)
  | noTransaction (op : WriteOp)
  | alreadyOpen
  | writerBusy
  | commitIdle
  | rollbackIdle
  deriving DecidableEq

def SessionFault.message : SessionFault → String
  | readOnly op => s!"{op.text} inside a read-only transaction"
  | noTransaction op => s!"{op.text} without an open write transaction"
  | alreadyOpen => "cursor already has an open transaction"
  | writerBusy => "another write transaction is already open"
  | commitIdle => "commit without an open transaction"
  | rollbackIdle => "rollback without an open transaction"

/-- A sign that the store no longer matches the chain. -/
inductive Inconsistency
  | headerStored (height : Height)
  | headerMissing (height : Height)
  | headerDiffers (height : Height) (stored given : Hash)
  | spentListConflict (height : Height)
  | unmintedListConflict (block : Hash)
  | journalPartial (block : Hash) (height : Height)
  | journalMissing (block : Hash) (height : Height)
  | journalVanished (block : Hash)
  | journalLength (listed inBlock : Nat)
  | journalEntry (index : Nat) (tx : Hash)
  | journalKeyMissing (input : Nat)
  | blockDiffers (block header : Hash)
  | beyondChain (tx : Hash) (height chainHeight : Height)
  | negativeIndex (index : Int32)
  | otherTxAt (index : Nat) (block tx : Hash)
  | noTxAt (tx : Hash) (index : Nat) (block : Hash)
  | counterBelowZero (counter : Counter)
  | tipDiffers (stored : Hash) (storedHeight : Height) (expected : Hash) (height : Height)
  | noTip
  | duplicateTx (tx block : Hash)
  | notUnspent (output : OutPoint)
  | alreadySpent (output : OutPoint)
  | outOfRange (output : OutPoint) (outputs : Nat)
  | vanishedOnSpend (tx : Hash)
  | alreadyPresent (tx : Hash)
  | connectFailed
  | spentNotInput (tx : Hash)
  | spentStillPresent (tx : Hash)
  | mintedMissing (tx : Hash)
  | mintedNotUnspent (tx : Hash) (height : Height)
  | sourceMissing (tx : Hash)
  | notSpent (output : OutPoint)
  | nothingRestored (tx : Hash)
  | disconnectFailed
  | unresolvable (tx : Hash)
  | unresolvedInput (tx : Hash) (input : Nat)
  | otherRolledBack (removed expected : Hash)
  | unspentBeyondChain (tx : Hash) (height : Height)
  | unspentNotInBlock (tx block : Hash)
  | unspentOutputMissing (tx : Hash) (output : UInt32)
  deriving DecidableEq

def Inconsistency.message : Inconsistency → String
  | headerStored height => s!"chained header already stored at height {height}"
  | headerMissing height => s!"no chained header stored at height {height}"
  | headerDiffers height stored given =>
    s!"header at height {height} is {stored.hex}, not {given.hex}"
  | spentListConflict height =>
    s!"conflicting spent-tx journal already recorded at height {height}"
  | unmintedListConflict block =>
    s!"conflicting unminted-tx journal already recorded for block {block.hex}"
  | journalPartial block height =>
    s!"journal for block {block.hex} at height {height} is only partially recorded"
  | journalMissing block height => s!"no undo journal for block {block.hex} at height {height}"
  | journalVanished block => s!"undo journal for block {block.hex} vanished during undo"
  | journalLength listed inBlock => s!"journal lists {listed} transactions, block has {inBlock}"
  | journalEntry index tx => s!"journal entry {index} does not match transaction {tx.hex}"
  | journalKeyMissing input => s!"journal has no key for input {input}"
  | blockDiffers block header => s!"block {block.hex} does not match header {header.hex}"
  | beyondChain tx height chainHeight =>
    s!"tx {tx.hex} confirmed at height {height} beyond chain height {chainHeight}"
  | negativeIndex index => s!"negative tx index {index}"
  | otherTxAt index block tx => s!"tx {index} of block {block.hex} is not {tx.hex}"
  | noTxAt tx index block => s!"previous tx {tx.hex} not found at index {index} of block {block.hex}"
  | counterBelowZero counter => s!"{counter.text} would drop below zero"
  | tipDiffers stored storedHeight expected height =>
    s!"stored tip is {stored.hex} at height {storedHeight}, expected {expected.hex} at height {height}"
  | noTip => "store has no chain tip"
  | duplicateTx tx block => s!"duplicate transaction {tx.hex} in block {block.hex}"
  | notUnspent output => s!"input spends {output.text} which is not in the unspent set"
  | alreadySpent output => s!"output {output.text} is already spent"
  | outOfRange output outputs => s!"output {output.text} is out of range ({outputs} outputs)"
  | vanishedOnSpend tx => s!"unspent tx {tx.hex} vanished while spending"
  | alreadyPresent tx => s!"unspent tx {tx.hex} already present"
  | connectFailed => "cannot finish a block whose replay failed"
  | spentNotInput tx => s!"spent tx {tx.hex} is not an input of the block"
  | spentStillPresent tx => s!"spent tx {tx.hex} is still in the unspent set"
  | mintedMissing tx => s!"minted tx {tx.hex} missing on undo"
  | mintedNotUnspent tx height => s!"minted tx {tx.hex} is not fully unspent at height {height}"
  | sourceMissing tx => s!"previous tx {tx.hex} missing on undo"
  | notSpent output => s!"output {output.text} is not spent on undo"
  | nothingRestored tx => s!"restored tx {tx.hex} has no unspent output"
  | disconnectFailed => "cannot finish a block whose undo failed"
  | unresolvable tx => s!"previous tx {tx.hex} cannot be resolved without a journal"
  | unresolvedInput tx input => s!"tx {tx.hex} input {input} has no resolved previous output"
  | otherRolledBack removed expected =>
    s!"rolled back {removed.hex} while navigating away from {expected.hex}"
  | unspentBeyondChain tx height => s!"unspent tx {tx.hex} at height {height} beyond the chain"
  | unspentNotInBlock tx block => s!"unspent tx {tx.hex} missing from block {block.hex}"
  | unspentOutputMissing tx output => s!"unspent tx {tx.hex} has no output {output}"

/-- A header that does not fit where it is put. -/
inductive ChainFault
  | otherParent (header parent : Hash)
  | noGenesis
  | wrongHeight (header : Hash) (position : Nat) (height : Height)
  | unlinked (header : Hash) (height : Height) (below : Hash)
  | notExtending (header : Hash) (height : Height) (tip : Hash) (tipHeight : Height)
  | genesisKept
  | notTip (header tip : Hash)
  | blockNotExtending (block : Hash) (height : Height) (tip : Hash)
  | genesisHeight (header : Hash) (height : Height)
  | otherGenesis (stored expected : Hash)
  | genesisNotUndone
  deriving DecidableEq

def ChainFault.message : ChainFault → String
  | otherParent header parent => s!"header {header.hex} does not build on {parent.hex}"
  | noGenesis => "chain has no genesis header"
  | wrongHeight header position height =>
    s!"header {header.hex} at position {position} has height {height}"
  | unlinked header height below =>
    s!"header {header.hex} at height {height} does not build on {below.hex}"
  | notExtending header height tip tipHeight =>
    s!"header {header.hex} at height {height} does not extend tip {tip.hex} at height {tipHeight}"
  | genesisKept => "cannot remove the genesis header"
  | notTip header tip => s!"header {header.hex} is not the tip {tip.hex}"
  | blockNotExtending block height tip =>
    s!"block {block.hex} at height {height} does not extend tip {tip.hex}"
  | genesisHeight header height => s!"genesis header {header.hex} has height {height}"
  | otherGenesis stored expected =>
    s!"stored chain is rooted at {stored.hex}, expected {expected.hex}"
  | genesisNotUndone => "cannot roll back the genesis block"

/-- A transaction that breaks a limit of its own, whatever it spends. -/
inductive TxFault
  | noInputsOrOutputs
  | outputValue (value : Int64) (index : Nat)
  | totalOutputValue
  | inputCount (count : Nat)
  | outputCount (count : Nat)
  | size (bytes : Nat)
  | nullPrevout (index : Nat)
  | duplicateInput (index : Nat)
  deriving DecidableEq

def TxFault.message : TxFault → String
  | noInputsOrOutputs => "Empty inputs or outputs"
  | outputValue value index => s!"Invalid output value {value} at index {index}"
  | totalOutputValue => "Total output value out of range"
  | inputCount count => s!"Too many inputs: {count}"
  | outputCount count => s!"Too many outputs: {count}"
  | size bytes => s!"Transaction too large: {bytes} bytes"
  | nullPrevout index => s!"Null prevout at input {index}"
  | duplicateInput index => s!"Duplicate input at index {index}"

/-- A transaction without a fee. -/
inductive FeeFault
  | unresolvedInput (tx : Hash) (input : Nat)
  | inputRange (tx : Hash)
  | outputRange (tx : Hash)
  | overspent (tx : Hash) (spent created : Int64)
  deriving DecidableEq

def FeeFault.message : FeeFault → String
  | unresolvedInput tx input => s!"tx {tx.hex} input {input} has no resolved previous output"
  | inputRange tx => s!"tx {tx.hex} input value out of range"
  | outputRange tx => s!"tx {tx.hex} output value out of range"
  | overspent tx spent created => s!"tx {tx.hex} spends {spent} but creates {created}"

/-- A block that breaks a consensus rule. -/
inductive BlockFault
  | noTransactions
  | noCoinbase
  | extraCoinbase (index : Nat)
  | transaction (index : Nat) (fault : TxFault)
  | merkleRoot
  | resolvedCount (resolved inBlock : Nat)
  | fee (fault : FeeFault)
  | excessReward (paid allowed : Int64)
  deriving DecidableEq

/-- A record that cannot be read back. -/
inductive StorageFault
  | undecodable (table : TableName) (key : Bytes) (fault : DecodeFault)
  | counterSize (counter : Counter) (bytes : Nat)
  deriving DecidableEq

/-- A block that is not where it is looked for. -/
inductive MissingBlock
  | notStored (block : Hash)
  | offChain (block : Hash)
  deriving DecidableEq

def MissingBlock.message : MissingBlock → String
  | notStored block => block.hex
  | offChain block => s!"{block.hex} is neither on the chain nor its next block"

/-- A script that did not accept its input. -/
structure ScriptFailure where
  tx : Hash
  txIndex : Nat
  inputIndex : Nat
  reason : String
  deriving DecidableEq

def ScriptFailure.text (f : ScriptFailure) : String :=
  s!"tx {f.tx.hex} (index {f.txIndex}) input {f.inputIndex}: {f.reason}"

end UtxoLedger

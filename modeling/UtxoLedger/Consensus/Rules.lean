import UtxoLedger.Merkle
import UtxoLedger.Script
import UtxoLedger.Transaction.Limits

/-!
# Block rules

A rule set says which blocks may be connected and which scripts accept. The consensus rules ask for
one coinbase in front, transactions within their limits, the committed Merkle root, fees that are
not negative, and a coinbase that pays at most the subsidy and the fees.
-/
namespace UtxoLedger

/-- What the ledger asks of a block whose transactions have been resolved, and of each input. -/
structure Rules where
  checkBlock : ChainedHeader → Block → List LoadedTx → Except LedgerError Unit
  verify : ScriptVerifier

namespace Rules

/-- Adds the fees of loaded transactions to a total; the sum saturates. -/
def totalFees (total : Amount) : List LoadedTx → Except FeeFault Amount
  | [] => .ok total
  | l :: rest =>
    match l.fee with
    | .error fault => .error fault
    | .ok fee => totalFees (Amount.saturatingAdd total fee) rest

/-- The first transaction, counted from `i`, that breaks a limit. -/
def limitFault? (i : Nat) : List Transaction → Option BlockFault
  | [] => none
  | tx :: rest =>
    match tx.fault? with
    | some fault => some (.transaction i fault)
    | none => limitFault? (i + 1) rest

/-- The sum of the outputs of a transaction; it wraps only beyond 64 bits. -/
def paid (tx : Transaction) : Amount := tx.outputs.foldl (fun sum o => sum + o.value) 0

/-- The first rule that a block breaks. -/
def blockFault (header : ChainedHeader) (block : Block) (loaded : List LoadedTx) :
    Except BlockFault Unit :=
  match block.txs with
  | [] => .error .noTransactions
  | coinbase :: rest =>
    if !coinbase.isCoinbase then .error .noCoinbase
    else match rest.findIdx? Transaction.isCoinbase with
    | some i => .error (.extraCoinbase (i + 1))
    | none =>
      match limitFault? 0 block.txs with
      | some fault => .error fault
      | none =>
        if merkleRoot block.txs ≠ block.header.merkleRoot then .error .merkleRoot
        else if loaded.length ≠ block.txs.length then
          .error (.resolvedCount loaded.length block.txs.length)
        else match totalFees 0 (loaded.drop 1) with
          | .error fault => .error (.fee fault)
          | .ok fees =>
            let allowed := Amount.saturatingAdd (Amount.subsidy header.height) fees
            if allowed < paid coinbase then .error (.excessReward (paid coinbase) allowed)
            else .ok ()

/-- The consensus rules with a script verifier of choice. -/
def consensus (verify : ScriptVerifier) : Rules where
  checkBlock header block loaded := (blockFault header block loaded).mapError (.block header.hash)
  verify := verify

/-- Rules that accept every block and leave the scripts to `verify`. -/
def permissive (verify : ScriptVerifier) : Rules where
  checkBlock _ _ _ := .ok ()
  verify := verify

end Rules
end UtxoLedger

import UtxoLedger.Amount
import UtxoLedger.LedgerError

/-!
# Loaded transactions

A transaction together with the transactions that its inputs spend from, as a replay resolves them,
and the fee that follows from the two.
-/
namespace UtxoLedger

/-- A transaction of a block with the source transaction of each input. -/
structure LoadedTx where
  tx : Transaction
  hash : Hash
  index : Nat
  isCoinbase : Bool
  sources : List Transaction
  deriving DecidableEq

namespace LoadedTx

/-- The output that input `i` spends. -/
def prevOutput? (l : LoadedTx) (i : Nat) : Option TxOutput := do
  let input ← l.tx.inputs[i]?
  let source ← l.sources[i]?
  source.outputs[input.prevout.index.toNat]?

/-- The amount that the inputs from position `i` on bring, on top of `total`. -/
def spentFrom (l : LoadedTx) (i : Nat) (total : Amount) :
    List TxInput → Except FeeFault Amount
  | [] => .ok total
  | _ :: rest =>
    match l.prevOutput? i with
    | none => .error (.unresolvedInput l.hash i)
    | some o =>
      match Amount.addWithin total o.value with
      | none => .error (.inputRange l.hash)
      | some t => l.spentFrom (i + 1) t rest

/-- What the inputs bring less what the outputs take; nothing for a coinbase. -/
def fee (l : LoadedTx) : Except FeeFault Amount :=
  if l.isCoinbase then .ok 0
  else match l.spentFrom 0 0 l.tx.inputs with
    | .error fault => .error fault
    | .ok spent =>
      match Amount.moneySum (l.tx.outputs.map TxOutput.value) with
      | none => .error (.outputRange l.hash)
      | some created =>
        let fee := spent - created
        if fee < 0 then .error (.overspent l.hash spent created) else .ok fee

end LoadedTx
end UtxoLedger

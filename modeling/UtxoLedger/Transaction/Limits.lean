import Std.Data.ExtTreeSet
import UtxoLedger.Amount
import UtxoLedger.Fault

/-!
# Limits of a transaction

What can be said against a transaction without looking at what it spends: missing or excessive
lists, amounts outside the money supply, an oversized wire form, and sources named twice.
-/
namespace UtxoLedger
namespace Transaction

def maxInputs : Nat := 100000

def maxOutputs : Nat := 100000

/-- The largest wire form, in bytes. -/
def maxSize : Nat := 1000000

/-- The first output, counted from `i`, whose amount is out of range by itself or together with
the `total` before it. -/
def outputFault? (i : Nat) (total : Amount) : List TxOutput → Option TxFault
  | [] => none
  | o :: os =>
    if o.value < 0 ∨ Amount.maxMoney < o.value then some (.outputValue o.value i)
    else if Amount.maxMoney < total + o.value then some .totalOutputValue
    else outputFault? (i + 1) (total + o.value) os

/-- The first input, counted from `i`, that spends the null outpoint or one `seen` before. -/
def prevoutFault? (i : Nat) (seen : Std.ExtTreeSet OutPoint) : List TxInput → Option TxFault
  | [] => none
  | input :: rest =>
    if input.prevout.isNull then some (.nullPrevout i)
    else if seen.contains input.prevout then some (.duplicateInput i)
    else prevoutFault? (i + 1) (seen.insert input.prevout) rest

/-- The first limit that a transaction breaks. -/
def fault? (tx : Transaction) : Option TxFault :=
  if tx.inputs.isEmpty ∨ tx.outputs.isEmpty then some .noInputsOrOutputs
  else match outputFault? 0 0 tx.outputs with
    | some fault => some fault
    | none =>
      let size := tx.encode.length
      if maxInputs < tx.inputs.length then some (.inputCount tx.inputs.length)
      else if maxOutputs < tx.outputs.length then some (.outputCount tx.outputs.length)
      else if maxSize < size then some (.size size)
      else if tx.isCoinbase then none
      else prevoutFault? 0 ∅ tx.inputs

end Transaction
end UtxoLedger

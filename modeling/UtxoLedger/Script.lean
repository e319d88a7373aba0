import UtxoLedger.LoadedTx

/-!
# Scripts

A script verifier judges one input against the output it spends. It may accept, reject with a
reason, or crash. In a block a crash counts against the input like a rejection; who asks the
verifier alone goes down with it.
-/
namespace UtxoLedger

/-- One input to be judged, in the block and transaction it belongs to. -/
structure ScriptItem where
  header : ChainedHeader
  tx : Transaction
  hash : Hash
  txIndex : Nat
  inputIndex : Nat
  prevOutput : TxOutput
  deriving DecidableEq

/-- The outcome of one verification. -/
inductive Verdict
  | accepted
  | rejected (reason : String)
  | crashed
  deriving DecidableEq

/-- Judges one input. -/
abbrev ScriptVerifier := ScriptItem → Verdict

namespace Verdict

/-- What is held against an input of a block; nothing against an accepted one. -/
def reason? : Verdict → Option String
  | accepted => none
  | rejected reason => some reason
  | crashed => some "script verifier panicked"

end Verdict

namespace ScriptItem

/-- The input under judgement. -/
def input? (item : ScriptItem) : Option TxInput := item.tx.inputs[item.inputIndex]?

/-- The place of an input in its block. -/
def position (item : ScriptItem) : Nat × Nat := (item.txIndex, item.inputIndex)

/-- The failure of an item that the verifier does not accept. -/
def failure? (verify : ScriptVerifier) (item : ScriptItem) : Option ScriptFailure :=
  (verify item).reason?.map fun reason => ⟨item.hash, item.txIndex, item.inputIndex, reason⟩

end ScriptItem

namespace LoadedTx

/-- The script items of the inputs from position `i` on. -/
def scriptItemsFrom (l : LoadedTx) (header : ChainedHeader) (i : Nat) :
    List TxInput → Except Inconsistency (List ScriptItem)
  | [] => .ok []
  | _ :: rest =>
    match l.prevOutput? i with
    | none => .error (.unresolvedInput l.hash i)
    | some o =>
      match l.scriptItemsFrom header (i + 1) rest with
      | .error fault => .error fault
      | .ok items => .ok (⟨header, l.tx, l.hash, l.index, i, o⟩ :: items)

/-- One script item for each input; a coinbase has none. -/
def scriptItems (l : LoadedTx) (header : ChainedHeader) :
    Except Inconsistency (List ScriptItem) :=
  if l.isCoinbase then .ok [] else l.scriptItemsFrom header 0 l.tx.inputs

end LoadedTx
end UtxoLedger

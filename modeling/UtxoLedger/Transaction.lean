import UtxoLedger.Sha256

/-!
# Transactions

A transaction spends outputs of earlier transactions, each named by an outpoint, and mints outputs
of its own. It is named by the double hash of its wire form, in which the two lists and every
script carry their length in front.
-/
namespace UtxoLedger

/-- One output of one transaction. -/
structure OutPoint where
  hash : Hash
  index : UInt32
  deriving DecidableEq

namespace OutPoint

/-- The outpoint that no transaction owns; a coinbase names it as its only source. -/
def null : OutPoint := ⟨Hash.zero, 0xffffffff⟩

def isNull (o : OutPoint) : Bool := o = null

/-- Ordered by index, then by hash: the cheap comparison comes first. -/
instance : Ord OutPoint := ⟨compareLex (compareOn OutPoint.index) (compareOn OutPoint.hash)⟩

instance : Std.TransOrd OutPoint :=
  inferInstanceAs (Std.TransCmp (compareLex (compareOn OutPoint.index) (compareOn OutPoint.hash)))

instance : Std.LawfulEqOrd OutPoint where
  eq_of_compare {a b} h := by
    have h' : (compare a.index b.index).then (compare a.hash b.hash) = .eq := h
    rw [Ordering.then_eq_eq] at h'
    obtain ⟨hi, hh⟩ := h'
    cases a; cases b
    simp_all

/-- The text of an outpoint. -/
def text (o : OutPoint) : String := o.hash.hex ++ ":" ++ toString o.index.toNat

end OutPoint

/-- An output being spent, with the script that claims it. -/
structure TxInput where
  prevout : OutPoint
  script : Bytes
  sequence : UInt32
  deriving DecidableEq

/-- An amount, with the script that guards it. -/
structure TxOutput where
  value : Int64
  script : Bytes
  deriving DecidableEq

structure Transaction where
  version : Int32
  inputs : List TxInput
  outputs : List TxOutput
  lockTime : UInt32
  deriving DecidableEq

namespace Bytes

/-- A length in one, three, five or nine bytes, the shortest that holds it. -/
def compactSize (n : Nat) : Bytes :=
  if n ≤ 0xfc then [UInt8.ofNat n]
  else if n ≤ 0xffff then 0xfd :: littleEndian 2 n
  else if n ≤ 0xffffffff then 0xfe :: littleEndian 4 n
  else 0xff :: littleEndian 8 n

def ofUInt32 (n : UInt32) : Bytes := littleEndian 4 n.toNat

def ofUInt64 (n : UInt64) : Bytes := littleEndian 8 n.toNat

/-- Two's complement. -/
def ofInt32 (n : Int32) : Bytes := ofUInt32 n.toUInt32

/-- Two's complement. -/
def ofInt64 (n : Int64) : Bytes := ofUInt64 n.toUInt64

/-- A byte string with its length in front. -/
def sized (bs : Bytes) : Bytes := compactSize bs.length ++ bs

end Bytes

def OutPoint.encode (o : OutPoint) : Bytes := o.hash.bytes ++ Bytes.ofUInt32 o.index

def TxInput.encode (i : TxInput) : Bytes :=
  i.prevout.encode ++ (Bytes.sized i.script ++ Bytes.ofUInt32 i.sequence)

def TxOutput.encode (o : TxOutput) : Bytes := Bytes.ofInt64 o.value ++ Bytes.sized o.script

namespace Transaction

/-- The wire form. -/
def encode (tx : Transaction) : Bytes :=
  Bytes.ofInt32 tx.version
    ++ (Bytes.compactSize tx.inputs.length ++ (tx.inputs.flatMap TxInput.encode
    ++ (Bytes.compactSize tx.outputs.length ++ (tx.outputs.flatMap TxOutput.encode
    ++ Bytes.ofUInt32 tx.lockTime))))

/-- The name of a transaction. -/
def hash (tx : Transaction) : Hash := doubleSha256 tx.encode

/-- A coinbase has exactly one input, and that input spends the null outpoint. -/
def isCoinbase (tx : Transaction) : Bool :=
  match tx.inputs with
  | [i] => i.prevout.isNull
  | _ => false

end Transaction
end UtxoLedger

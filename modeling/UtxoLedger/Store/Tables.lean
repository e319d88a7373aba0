import UtxoLedger.LedgerError

/-!
# Tables

The five tables hold byte strings under byte keys, in key order. Reading a record decodes what is
stored; a record that does not decode is a storage error that names its table and key.
-/
namespace UtxoLedger

/-- Byte strings under byte keys, in key order. -/
abbrev Table := Std.ExtTreeMap Bytes Bytes

/-- The content of a store. -/
structure Tables where
  counters : Table
  headers : Table
  unspent : Table
  spent : Table
  unminted : Table
  deriving DecidableEq

/-- The values of all counters. -/
structure Counters where
  unspentTxs : UInt64
  unspentOutputs : UInt64
  txs : UInt64
  inputs : UInt64
  outputs : UInt64
  deriving DecidableEq

namespace Counters

def zero : Counters := ⟨0, 0, 0, 0, 0⟩

def get (cs : Counters) : Counter → UInt64
  | .unspentTxs => cs.unspentTxs
  | .unspentOutputs => cs.unspentOutputs
  | .txs => cs.txs
  | .inputs => cs.inputs
  | .outputs => cs.outputs

def set (cs : Counters) (c : Counter) (value : UInt64) : Counters :=
  match c with
  | .unspentTxs => { cs with unspentTxs := value }
  | .unspentOutputs => { cs with unspentOutputs := value }
  | .txs => { cs with txs := value }
  | .inputs => { cs with inputs := value }
  | .outputs => { cs with outputs := value }

@[simp] theorem get_set_self (cs : Counters) (c : Counter) (value : UInt64) :
    (cs.set c value).get c = value := by cases c <;> rfl

theorem get_set_of_ne (cs : Counters) {a b : Counter} (h : a ≠ b) (value : UInt64) :
    (cs.set a value).get b = cs.get b := by
  cases a <;> cases b <;> simp_all [get, set]

/-- Counts `n` more. -/
def raise (cs : Counters) (c : Counter) (n : Nat) : Counters :=
  cs.set c (cs.get c + UInt64.ofNat n)

/-- Counts `n` less; no counter drops below zero. -/
def lower (cs : Counters) (c : Counter) (n : Nat) : Except Inconsistency Counters :=
  if (cs.get c).toNat < n then .error (.counterBelowZero c)
  else .ok (cs.set c (cs.get c - UInt64.ofNat n))

end Counters

/-- The bytes of a text. -/
def Bytes.ofText (s : String) : Bytes := s.toUTF8.data.toList

namespace Tables

def empty : Tables := ⟨∅, ∅, ∅, ∅, ∅⟩

def get (t : Tables) : TableName → Table
  | .counters => t.counters
  | .headers => t.headers
  | .unspent => t.unspent
  | .spent => t.spent
  | .unminted => t.unminted

def set (t : Tables) (name : TableName) (table : Table) : Tables :=
  match name with
  | .counters => { t with counters := table }
  | .headers => { t with headers := table }
  | .unspent => { t with unspent := table }
  | .spent => { t with spent := table }
  | .unminted => { t with unminted := table }

@[simp] theorem get_set_self (t : Tables) (name : TableName) (table : Table) :
    (t.set name table).get name = table := by cases name <;> rfl

theorem get_set_of_ne (t : Tables) {a b : TableName} (h : a ≠ b) (table : Table) :
    (t.set a table).get b = t.get b := by
  cases a <;> cases b <;> simp_all [get, set]

theorem ext_get {s t : Tables} (h : ∀ name, s.get name = t.get name) : s = t := by
  cases s; cases t
  have h1 := h .counters
  have h2 := h .headers
  have h3 := h .unspent
  have h4 := h .spent
  have h5 := h .unminted
  simp_all [get]

def contains (t : Tables) (name : TableName) (key : Bytes) : Bool := (t.get name).contains key

def insert (t : Tables) (name : TableName) (key value : Bytes) : Tables :=
  t.set name ((t.get name).insert key value)

def erase (t : Tables) (name : TableName) (key : Bytes) : Tables :=
  t.set name ((t.get name).erase key)

/-- Names the table and key of a record that does not decode. -/
def located (name : TableName) (key : Bytes) : Except DecodeFault α → Except LedgerError α
  | .ok a => .ok a
  | .error fault => .error (.storage (.undecodable name key fault))

/-- The record under a key. -/
def record? (t : Tables) (name : TableName) (key : Bytes) (decode : Bytes → Except DecodeFault α) :
    Except LedgerError (Option α) :=
  match (t.get name)[key]? with
  | none => .ok none
  | some bytes => (located name key (decode bytes)).map some

/-- The records of some entries of a table, up to the first that does not decode. -/
def decodeAll (name : TableName) (decode : Bytes → Except DecodeFault α) :
    List (Bytes × Bytes) → Except LedgerError (List α)
  | [] => .ok []
  | (key, bytes) :: rest =>
    match located name key (decode bytes) with
    | .error e => .error e
    | .ok a => (decodeAll name decode rest).map (a :: ·)

/-- Every record of a table in key order. -/
def records (t : Tables) (name : TableName) (decode : Bytes → Except DecodeFault α) :
    Except LedgerError (List α) :=
  decodeAll name decode (t.get name).toList

/-- The header stored at a height. -/
def headerAt? (t : Tables) (height : Height) : Except LedgerError (Option ChainedHeader) :=
  t.record? .headers (Height.key height) ChainedHeader.decode

/-- The stored headers in key order. -/
def chainHeaders (t : Tables) : Except LedgerError (List ChainedHeader) :=
  t.records .headers ChainedHeader.decode

/-- The header under the greatest key. -/
def tip? (t : Tables) : Except LedgerError (Option ChainedHeader) :=
  match t.headers.toList.getLast? with
  | none => .ok none
  | some (key, bytes) => (located .headers key (ChainedHeader.decode bytes)).map some

def containsUnspent (t : Tables) (tx : Hash) : Bool := t.contains .unspent tx.bytes

def unspent? (t : Tables) (tx : Hash) : Except LedgerError (Option UnspentTx) :=
  t.record? .unspent tx.bytes UnspentTx.decode

/-- The unspent set in ascending order of the hashes. -/
def allUnspent (t : Tables) : Except LedgerError (List UnspentTx) :=
  t.records .unspent UnspentTx.decode

def containsSpent (t : Tables) (height : Height) : Bool := t.contains .spent (Height.key height)

def spent? (t : Tables) (height : Height) : Except LedgerError (Option SpentList) :=
  t.record? .spent (Height.key height) SpentList.decode

def containsUnminted (t : Tables) (block : Hash) : Bool := t.contains .unminted block.bytes

def unminted? (t : Tables) (block : Hash) : Except LedgerError (Option UnmintedList) :=
  t.record? .unminted block.bytes UnmintedList.decode

/-- The value of a counter; zero before it is first written. -/
def counter (t : Tables) (c : Counter) : Except LedgerError UInt64 :=
  match t.counters[Bytes.ofText c.key]? with
  | none => .ok 0
  | some bytes =>
    if bytes.length = 8 then .ok (UInt64.ofNat (Bytes.ofLittleEndian bytes))
    else .error (.storage (.counterSize c bytes.length))

def readCounters (t : Tables) : Except LedgerError Counters := do
  let unspentTxs ← t.counter .unspentTxs
  let unspentOutputs ← t.counter .unspentOutputs
  let txs ← t.counter .txs
  let inputs ← t.counter .inputs
  let outputs ← t.counter .outputs
  return ⟨unspentTxs, unspentOutputs, txs, inputs, outputs⟩

/-- The forms of the unspent records, one after the other, in ascending order of the hashes. -/
def unspentBytes (t : Tables) : Except LedgerError Bytes :=
  t.allUnspent.map fun us => us.flatMap UnspentTx.encode

/-- The hash that commits to the unspent set. -/
def commitment (t : Tables) : Except LedgerError Hash := t.unspentBytes.map doubleSha256

end Tables
end UtxoLedger

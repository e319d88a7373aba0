import UtxoLedger.Record

/-!
# Byte forms of records

Each record has exactly one byte form. Numbers are little endian, lists carry a four-byte count,
and a reader refuses a record that ends early, leaves bytes over or sets a padding bit.
-/
namespace UtxoLedger

/-- The records that have a byte form of their own. -/
inductive RecordKind
  | unspentTx
  | spentJournal
  | unmintedJournal
  | chainedHeader
  deriving DecidableEq

def RecordKind.text : RecordKind → String
  | unspentTx => "unspent tx"
  | spentJournal => "spent tx journal"
  | unmintedJournal => "unminted tx journal"
  | chainedHeader => "chained header"

/-- Why a byte string is not the form of a record. -/
inductive DecodeFault
  | endOfData (wanted offset remaining : Nat)
  | trailing (count : Nat) (record : RecordKind)
  | paddingSet
  deriving DecidableEq

def DecodeFault.message : DecodeFault → String
  | endOfData wanted offset remaining =>
    s!"unexpected end of data: wanted {wanted} bytes at offset {offset}, {remaining} remain"
  | trailing count record => s!"{count} trailing bytes after {record.text}"
  | paddingSet => "output states padding bits set"

/-- What is left of a byte string, and how much of it has been read. -/
structure Reader where
  rest : Bytes
  offset : Nat

/-- Reads a value from the front. -/
abbrev Decoder (α : Type) := StateT Reader (Except DecodeFault) α

namespace Decoder

/-- The next `n` bytes. -/
def take (n : Nat) : Decoder { bs : Bytes // bs.length = n } := fun r =>
  if h : (r.rest.take n).length = n then
    .ok (⟨r.rest.take n, h⟩, ⟨r.rest.drop n, r.offset + n⟩)
  else .error (.endOfData n r.offset r.rest.length)

def hash : Decoder Hash := do
  let bs ← take 32
  return ⟨bs.1, bs.2⟩

def uint32 : Decoder UInt32 := do
  let bs ← take 4
  return UInt32.ofNat (Bytes.ofLittleEndian bs.1)

def int32 : Decoder Int32 := do
  let n ← uint32
  return n.toInt32

def work : Decoder Work := do
  let bs ← take 16
  return ⟨Bytes.ofLittleEndian bs.1, by
    have := Bytes.ofLittleEndian_lt bs.1
    rw [bs.2] at this
    exact Nat.lt_of_lt_of_le this (by decide)⟩

/-- `n` values, one after the other. -/
def repeated (n : Nat) (d : Decoder α) : Decoder (List α) :=
  match n with
  | 0 => return []
  | n + 1 => do
    let a ← d
    let as ← repeated n d
    return a :: as

/-- A count, then as many values. -/
def counted (d : Decoder α) : Decoder (List α) := do
  let n ← uint32
  repeated n.toNat d

/-- Reads a whole byte string, which must leave nothing over. -/
def runAll (kind : RecordKind) (d : Decoder α) (bs : Bytes) : Except DecodeFault α := do
  let (a, r) ← d ⟨bs, 0⟩
  match r.rest with
  | [] => return a
  | rest => throw (.trailing rest.length kind)

end Decoder

/-- A count in four bytes; longer lists than it can hold have no faithful form. -/
def Bytes.count (n : Nat) : Bytes := Bytes.littleEndian 4 n

namespace OutputStates

def encode (s : OutputStates) : Bytes := Bytes.count s.size ++ s.packed

def decoder : Decoder OutputStates := do
  let n ← Decoder.uint32
  let packed ← Decoder.take ((n.toNat + 7) / 8)
  match ofPacked? n.toNat packed.1 with
  | some s => return s
  | none => throw .paddingSet

end OutputStates

namespace UnspentTx

def encode (u : UnspentTx) : Bytes :=
  u.hash.bytes ++ (Bytes.ofInt32 u.height ++ (Bytes.ofInt32 u.index ++ u.states.encode))

def decoder : Decoder UnspentTx := do
  let hash ← Decoder.hash
  let height ← Decoder.int32
  let index ← Decoder.int32
  let states ← OutputStates.decoder
  return ⟨hash, height, index, states⟩

def decode (bs : Bytes) : Except DecodeFault UnspentTx := decoder.runAll .unspentTx bs

end UnspentTx

/-- The names of the transactions whose last output a block spent. -/
abbrev SpentList := List Hash

namespace SpentList

def encode (hs : SpentList) : Bytes := Bytes.count hs.length ++ hs.flatMap Hash.bytes

def decode (bs : Bytes) : Except DecodeFault SpentList :=
  (Decoder.counted Decoder.hash).runAll .spentJournal bs

end SpentList

namespace TxLocation

def encode (k : TxLocation) : Bytes :=
  k.block.bytes ++ (Bytes.ofInt32 k.height ++ Bytes.ofInt32 k.index)

def decoder : Decoder TxLocation := do
  let block ← Decoder.hash
  let height ← Decoder.int32
  let index ← Decoder.int32
  return ⟨block, height, index⟩

end TxLocation

namespace UnmintedTx

def encode (u : UnmintedTx) : Bytes :=
  u.hash.bytes ++ (Bytes.count u.sources.length ++ u.sources.flatMap TxLocation.encode)

def decoder : Decoder UnmintedTx := do
  let hash ← Decoder.hash
  let sources ← Decoder.counted TxLocation.decoder
  return ⟨hash, sources⟩

end UnmintedTx

/-- The transactions of a block with the places of their sources, in block order. -/
abbrev UnmintedList := List UnmintedTx

namespace UnmintedList

def encode (us : UnmintedList) : Bytes := Bytes.count us.length ++ us.flatMap UnmintedTx.encode

def decode (bs : Bytes) : Except DecodeFault UnmintedList :=
  (Decoder.counted UnmintedTx.decoder).runAll .unmintedJournal bs

end UnmintedList

def BlockHeader.decoder : Decoder BlockHeader := do
  let version ← Decoder.int32
  let prev ← Decoder.hash
  let merkleRoot ← Decoder.hash
  let time ← Decoder.uint32
  let bits ← Decoder.uint32
  let nonce ← Decoder.uint32
  return ⟨version, prev, merkleRoot, time, bits, nonce⟩

namespace ChainedHeader

/-- The name of the header is left out: it follows from the header. -/
def encode (h : ChainedHeader) : Bytes :=
  h.header.encode ++ (Bytes.ofInt32 h.height ++ Bytes.littleEndian 16 h.work.toNat)

def decoder : Decoder ChainedHeader := do
  let header ← BlockHeader.decoder
  let height ← Decoder.int32
  let work ← Decoder.work
  return ⟨header, header.hash, height, work⟩

def decode (bs : Bytes) : Except DecodeFault ChainedHeader := decoder.runAll .chainedHeader bs

end ChainedHeader

/-- The key of a height: most significant byte first, so that keys sort like heights from zero. -/
def Height.key (h : Height) : Bytes := Bytes.bigEndian 4 h.toUInt32.toNat

end UtxoLedger

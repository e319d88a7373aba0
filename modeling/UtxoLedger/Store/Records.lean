import UtxoLedger.Store.Session

/-!
# Changing records

Every change of a table is typed: it writes the one byte form of a record under the key of that
record. An addition never replaces, an update never creates, and each says whether it took place.
-/
namespace UtxoLedger
namespace StoreM

/-- Adds an entry unless its key is taken. -/
def tryInsert (op : WriteOp) (name : TableName) (key value : Bytes) : StoreM Bool := do
  touch op
  let taken ← read fun t => .ok (t.contains name key)
  if taken then return false
  else
    stage fun t => t.insert name key value
    return true

/-- Takes an entry away, if it is there. -/
def tryErase (op : WriteOp) (name : TableName) (key : Bytes) : StoreM Bool := do
  touch op
  let present ← read fun t => .ok (t.contains name key)
  stage fun t => t.erase name key
  return present

/-- Stores a header at its height, which must be free. -/
def addHeader (h : ChainedHeader) : StoreM Unit := do
  let added ← tryInsert .addHeader .headers (Height.key h.height) h.encode
  require added (.headerStored h.height)

/-- Takes a header away, which must be the one stored at its height. -/
def removeHeader (h : ChainedHeader) : StoreM Unit := do
  match ← read fun t => t.headerAt? h.height with
  | none => fail (.inconsistent (.headerMissing h.height))
  | some stored =>
    require (stored.hash = h.hash) (.headerDiffers h.height stored.hash h.hash)
    let _ ← tryErase .removeHeader .headers (Height.key h.height)
    return ()

def tryAddUnspent (u : UnspentTx) : StoreM Bool :=
  tryInsert .addUnspent .unspent u.hash.bytes u.encode

def tryRemoveUnspent (tx : Hash) : StoreM Bool :=
  tryErase .removeUnspent .unspent tx.bytes

/-- Replaces the output states of a record, and nothing else of it. -/
def tryUpdateUnspent (u : UnspentTx) : StoreM Bool := do
  touch .updateUnspent
  match ← read fun t => t.unspent? u.hash with
  | none => return false
  | some stored =>
    let updated := { stored with states := u.states }
    stage fun t => t.insert .unspent updated.hash.bytes updated.encode
    return true

def tryAddSpent (height : Height) (txs : SpentList) : StoreM Bool :=
  tryInsert .addSpent .spent (Height.key height) txs.encode

def tryRemoveSpent (height : Height) : StoreM Bool :=
  tryErase .removeSpent .spent (Height.key height)

def tryAddUnminted (block : Hash) (txs : UnmintedList) : StoreM Bool :=
  tryInsert .addUnminted .unminted block.bytes txs.encode

def tryRemoveUnminted (block : Hash) : StoreM Bool :=
  tryErase .removeUnminted .unminted block.bytes

def writeCounter (c : Counter) (value : UInt64) : StoreM Unit := do
  touch .writeCounter
  stage fun t => t.insert .counters (Bytes.ofText c.key) (Bytes.ofUInt64 value)

/-- Writes the listed counters one after the other. -/
def writeEach (values : Counters) : List Counter → StoreM Unit
  | [] => return ()
  | c :: rest => do
    writeCounter c (values.get c)
    writeEach values rest

def writeCounters (values : Counters) : StoreM Unit := writeEach values Counter.all

end StoreM
end UtxoLedger

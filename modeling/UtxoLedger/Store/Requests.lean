import UtxoLedger.Store.Records

/-!
# What a cursor is asked

Beside reads, a cursor takes the requests listed here. There are ten ways to change a table, and
what each answers and leaves is a function of the tables that it finds. A write transaction may be
held by a guard, which ends it in one of two ways; the transaction may have ended on the cursor
before, or another one may have begun.
-/
namespace UtxoLedger

namespace StoreM

/-- Lets go of a write transaction: whatever is still open on the cursor is rolled back. -/
def abandon : StoreM Unit := of fun s =>
  if s.cursor.inTransaction then (.ok (), (rollback.on s).2) else (.ok (), s)

/-- Ends a write transaction by commit; if that fails, it is let go. -/
def conclude : StoreM Unit := of fun s =>
  match commit.on s with
  | (.ok (), s) => (.ok (), s)
  | (.error e, s) => (.error e, (abandon.on s).2)

/-- Work under a guard that is open: the guard is concluded after it, or abandoned if it fails. -/
def guarded (body : StoreM α) : StoreM α := of fun s =>
  match body.on s with
  | (.ok a, s) => (conclude >>= fun _ => pure a).on s
  | (.error e, s) => (.error e, (abandon.on s).2)

end StoreM

/-- A change of one table. -/
inductive Mutation
  | addHeader (h : ChainedHeader)
  | removeHeader (h : ChainedHeader)
  | addUnspent (u : UnspentTx)
  | removeUnspent (tx : Hash)
  | updateUnspent (u : UnspentTx)
  | addSpent (height : Height) (txs : SpentList)
  | removeSpent (height : Height)
  | addUnminted (block : Hash) (txs : UnmintedList)
  | removeUnminted (block : Hash)
  | writeCounter (c : Counter) (value : UInt64)

namespace Mutation

/-- The work of a cursor on a change, which answers whether it took place. -/
def act : Mutation → StoreM Bool
  | addHeader h => do
    StoreM.addHeader h
    return true
  | removeHeader h => do
    StoreM.removeHeader h
    return true
  | addUnspent u => StoreM.tryAddUnspent u
  | removeUnspent tx => StoreM.tryRemoveUnspent tx
  | updateUnspent u => StoreM.tryUpdateUnspent u
  | addSpent height txs => StoreM.tryAddSpent height txs
  | removeSpent height => StoreM.tryRemoveSpent height
  | addUnminted block txs => StoreM.tryAddUnminted block txs
  | removeUnminted block => StoreM.tryRemoveUnminted block
  | writeCounter c value => do
    StoreM.writeCounter c value
    return true

/-- An entry that is added unless its key is taken. -/
def added (t : Tables) (name : TableName) (key value : Bytes) : Except LedgerError Bool × Tables :=
  if t.contains name key then (.ok false, t) else (.ok true, t.insert name key value)

/-- An entry that is taken away, if it is there. -/
def erased (t : Tables) (name : TableName) (key : Bytes) : Except LedgerError Bool × Tables :=
  (.ok (t.contains name key), t.erase name key)

/-- What a change answers on some tables, and the tables that it leaves. One that fails leaves them
as they are. -/
def apply (t : Tables) : Mutation → Except LedgerError Bool × Tables
  | addHeader h =>
    if t.contains .headers (Height.key h.height) then
      (.error (.inconsistent (.headerStored h.height)), t)
    else (.ok true, t.insert .headers (Height.key h.height) h.encode)
  | removeHeader h =>
    match t.headerAt? h.height with
    | .error e => (.error e, t)
    | .ok none => (.error (.inconsistent (.headerMissing h.height)), t)
    | .ok (some stored) =>
      if stored.hash = h.hash then (.ok true, t.erase .headers (Height.key h.height))
      else (.error (.inconsistent (.headerDiffers h.height stored.hash h.hash)), t)
  | addUnspent u => added t .unspent u.hash.bytes u.encode
  | removeUnspent tx => erased t .unspent tx.bytes
  | updateUnspent u =>
    match t.unspent? u.hash with
    | .error e => (.error e, t)
    | .ok none => (.ok false, t)
    | .ok (some stored) =>
      (.ok true, t.insert .unspent stored.hash.bytes { stored with states := u.states }.encode)
  | addSpent height txs => added t .spent (Height.key height) txs.encode
  | removeSpent height => erased t .spent (Height.key height)
  | addUnminted block txs => added t .unminted block.bytes txs.encode
  | removeUnminted block => erased t .unminted block.bytes
  | writeCounter c value =>
    (.ok true, t.insert .counters (Bytes.ofText c.key) (Bytes.ofUInt64 value))

/-- The tables after a list of changes, one after the other. -/
def applyAll (ms : List Mutation) (t : Tables) : Tables := ms.foldl (fun t m => (m.apply t).2) t

end Mutation

/-- What a cursor can be asked, beside reads. -/
inductive Request
  | begin (readOnly : Bool)
  | commit
  | rollback
  | flush
  | defragment
  | mutate (m : Mutation)
  /-- The end of a guard by commit. -/
  | conclude
  /-- The end of a guard that is let go. -/
  | abandon

/-- The work of a cursor on a request; only a change has anything to answer. -/
def Request.act : Request → StoreM Bool
  | begin readOnly => do
    StoreM.begin readOnly
    return true
  | commit => do
    StoreM.commit
    return true
  | rollback => do
    StoreM.rollback
    return true
  | flush => do
    StoreM.flush
    return true
  | defragment => do
    StoreM.defragment
    return true
  | mutate m => m.act
  | conclude => do
    StoreM.conclude
    return true
  | abandon => do
    StoreM.abandon
    return true

end UtxoLedger

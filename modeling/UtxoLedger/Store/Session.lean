import UtxoLedger.Store.Tables

/-!
# Sessions

A database publishes one revision of its tables at a time. A cursor outside a transaction sees the
revision published last; in a transaction it keeps what was published when it began, together with
its own changes if it writes. At most one cursor writes at a time, and only its commit publishes.
-/
namespace UtxoLedger

/-- Tables as published; changes raise the number. -/
structure Revision where
  tables : Tables
  number : Nat
  deriving DecidableEq

/-- What all cursors share. -/
structure Database where
  committed : Revision
  /-- The revision that the last flush made durable. -/
  flushed : Revision
  writerOpen : Bool
  flushes : Nat
  deriving DecidableEq

namespace Database

/-- A fresh database has published nothing that was flushed. -/
def fresh : Database := ⟨⟨.empty, 1⟩, ⟨.empty, 0⟩, false, 0⟩

/-- The last flush caught everything that is committed. -/
def isDurable (db : Database) : Bool := db.committed.number = db.flushed.number

end Database

/-- Where a cursor stands. -/
inductive Cursor
  | idle
  | reading (view : Tables)
  /-- `touched` says whether a change was attempted, even one that changed nothing. -/
  | writing (staged : Tables) (touched : Bool)
  deriving DecidableEq

def Cursor.inTransaction : Cursor → Bool
  | idle => false
  | _ => true

/-- A cursor at work on its database. -/
structure Session where
  db : Database
  cursor : Cursor
  deriving DecidableEq

/-- Work on a store. What was staged before an error stays staged. -/
abbrev StoreM := ExceptT LedgerError (StateM Session)

namespace Session

/-- The tables that the cursor sees. -/
def view (s : Session) : Tables :=
  match s.cursor with
  | .idle => s.db.committed.tables
  | .reading view => view
  | .writing staged _ => staged

/-- Ends a transaction without publishing anything. -/
def release (s : Session) : Session :=
  match s.cursor with
  | .writing _ _ => ⟨{ s.db with writerOpen := false }, .idle⟩
  | _ => ⟨s.db, .idle⟩

end Session

namespace StoreM

def of (f : Session → Except LedgerError α × Session) : StoreM α := f

/-- Runs work on a session. -/
def on (act : StoreM α) (s : Session) : Except LedgerError α × Session := act s

/-- Reads from what the cursor sees. -/
def read (f : Tables → Except LedgerError α) : StoreM α := of fun s => (f s.view, s)

/-- Goes on with the outcome of a pure computation. -/
def lift (r : Except LedgerError α) : StoreM α := of fun s => (r, s)

def fail (e : LedgerError) : StoreM α := of fun s => (.error e, s)

/-- Goes on unless the pure check found an inconsistency. -/
def consistent (r : Except Inconsistency α) : StoreM α := lift (r.mapError .inconsistent)

/-- Goes on only if the store and the chain still match. -/
def require (ok : Bool) (fault : Inconsistency) : StoreM Unit :=
  if ok then lift (.ok ()) else fail (.inconsistent fault)

/-- Opens a transaction. A writer needs the database to itself. -/
def begin (readOnly : Bool) : StoreM Unit := of fun s =>
  match s.cursor with
  | .idle =>
    if readOnly then (.ok (), { s with cursor := .reading s.db.committed.tables })
    else if s.db.writerOpen then (.error (.transactionState .writerBusy), s)
    else (.ok (), ⟨{ s.db with writerOpen := true }, .writing s.db.committed.tables false⟩)
  | _ => (.error (.transactionState .alreadyOpen), s)

/-- Ends a transaction; a writer publishes its tables, under a new number if it touched them. -/
def commit : StoreM Unit := of fun s =>
  match s.cursor with
  | .writing staged touched =>
    let n := s.db.committed.number
    (.ok (), ⟨{ s.db with
      committed := ⟨staged, if touched then n + 1 else n⟩, writerOpen := false }, .idle⟩)
  | .reading _ => (.ok (), { s with cursor := .idle })
  | .idle => (.error (.transactionState .commitIdle), s)

def rollback : StoreM Unit := of fun s =>
  if s.cursor.inTransaction then (.ok (), s.release)
  else (.error (.transactionState .rollbackIdle), s)

/-- Makes the committed revision durable. -/
def flush : StoreM Unit := of fun s =>
  (.ok (), { s with db := { s.db with flushed := s.db.committed, flushes := s.db.flushes + 1 } })

/-- Gives unused space back; these tables hold none. -/
def defragment : StoreM Unit := of fun s => (.ok (), s)

/-- Asks for the right to change tables. -/
def touch (op : WriteOp) : StoreM Unit := of fun s =>
  match s.cursor with
  | .writing staged _ => (.ok (), { s with cursor := .writing staged true })
  | .reading _ => (.error (.transactionState (.readOnly op)), s)
  | .idle => (.error (.transactionState (.noTransaction op)), s)

/-- Changes the staged tables; nothing happens outside a write transaction. -/
def stage (f : Tables → Tables) : StoreM Unit := of fun s =>
  match s.cursor with
  | .writing staged touched => (.ok (), { s with cursor := .writing (f staged) touched })
  | _ => (.ok (), s)

/-- Runs `body` in a write transaction of its own: it publishes everything or, after an error,
nothing. -/
def atomically (body : StoreM α) : StoreM α := do
  begin false
  of fun s =>
    match (do let a ← body; commit; pure a : StoreM α).on s with
    | (.ok a, s) => (.ok a, s)
    | (.error e, s) => (.error e, s.release)

end StoreM
end UtxoLedger

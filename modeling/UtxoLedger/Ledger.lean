import UtxoLedger.Block.Disconnect
import UtxoLedger.Chain.Path
import UtxoLedger.Consensus.Rules
import UtxoLedger.Settings
import UtxoLedger.Snapshot

/-!
# The ledger

A ledger moves a stored chain state from block to block. Each block is connected or disconnected in
one write transaction, which holds the replay, the scripts, the block rules and the pruning of
journals: all of it is committed, or nothing.
-/
namespace UtxoLedger

/-- What a ledger keeps between blocks. -/
structure Ledger where
  rules : Rules
  settings : Settings
  /-- The chain as this ledger left it. -/
  chain : Chain
  cursor : Cursor
  blocksSinceFlush : Nat

/-- A ledger at work on its database. -/
structure LedgerSession where
  ledger : Ledger
  db : Database

/-- Work of a ledger. What was committed before an error stays committed. -/
abbrev LedgerM := ExceptT LedgerError (StateM LedgerSession)

/-- The way a ledger went from one chain to another. -/
structure Reorganization where
  ancestor : ChainedHeader
  /-- Headers taken off, newest first. -/
  disconnected : List ChainedHeader
  /-- Headers put on, oldest first. -/
  connected : List ChainedHeader
  deriving DecidableEq

def Reorganization.depth (r : Reorganization) : Nat := r.disconnected.length

namespace LedgerM

def of (f : LedgerSession → Except LedgerError α × LedgerSession) : LedgerM α := f

/-- Runs work on a session. -/
def on (act : LedgerM α) (s : LedgerSession) : Except LedgerError α × LedgerSession := act s

def fail (e : LedgerError) : LedgerM α := of fun s => (.error e, s)

def ledger : LedgerM Ledger := of fun s => (.ok s.ledger, s)

def modify (f : Ledger → Ledger) : LedgerM Unit :=
  of fun s => (.ok (), { s with ledger := f s.ledger })

/-- Goes on with the outcome of a pure computation. -/
def lift (r : Except LedgerError α) : LedgerM α := of fun s => (r, s)

/-- Works on the store through the cursor of the ledger. -/
def store (act : StoreM α) : LedgerM α := of fun s =>
  let (r, after) := act.on ⟨s.db, s.ledger.cursor⟩
  (r, ⟨{ s.ledger with cursor := after.cursor }, after.db⟩)

end LedgerM

namespace Ledger

/-- Writes the genesis header and zero counters into an empty store. -/
def seed (genesis : ChainedHeader) : StoreM Chain := do
  StoreM.atomically do
    StoreM.addHeader genesis
    StoreM.writeCounters .zero
  StoreM.lift ((Chain.ofGenesis genesis).mapError .chain)

/-- The chain of a store, which an empty store gets from `genesis`. Genesis brings a header only:
its outputs never enter the unspent set. -/
def loadChain (genesis : ChainedHeader) : StoreM Chain := do
  let headers ← StoreM.read Tables.chainHeaders
  if headers.isEmpty then seed genesis
  else
    let chain ← StoreM.lift ((Chain.ofHeaders headers).mapError .chain)
    if chain.genesis.hash = genesis.hash then return chain
    else StoreM.fail (.chain (.otherGenesis chain.genesis.hash genesis.hash))

/-- Opens a ledger on a database. -/
def openOn (db : Database) (rules : Rules) (settings : Settings) (genesis : ChainedHeader) :
    Except LedgerError Ledger × Database :=
  if genesis.height ≠ 0 then
    (.error (.chain (.genesisHeight genesis.hash genesis.height)), db)
  else match (loadChain genesis).on ⟨db, .idle⟩ with
    | (.ok chain, s) => (.ok ⟨rules, settings, chain, s.cursor, 0⟩, s.db)
    | (.error e, s) => (.error e, s.release.db)

/-- Gives the cursor back; what it staged is lost. -/
def closeOn (l : Ledger) (db : Database) : Database := (Session.mk db l.cursor).release.db

/-- Connects the pending transactions of a block and collects their script items. -/
def loadAll (header : ChainedHeader) (c : Connecting) :
    List Transaction → StoreM (List LoadedTx × List ScriptItem × Connecting)
  | [] => return ([], [], c)
  | tx :: rest => do
    let (l, c) ← c.connect tx
    let items ← StoreM.consistent (l.scriptItems header)
    let (ls, more, c) ← loadAll header c rest
    return (l :: ls, items ++ more, c)

/-- The header whose journal falls out of the rollback window when a block at `height` comes in.
Genesis has no journal, and no depth at all keeps every journal. -/
def prunable? (chain : Chain) (depth : UInt32) (height : Height) : Option ChainedHeader :=
  let below := height.toInt - depth.toNat - 1
  if depth = 0 ∨ below < 1 then none else chain.headers[below.toNat]?

/-- One block forward: replay, scripts, block rules, pruning. -/
def connectBlock (l : Ledger) (archive : Archive) (header : ChainedHeader) (block : Block) :
    StoreM Unit := do
  let c ← Connecting.start archive l.chain header block
  let (loaded, items, c) ← loadAll header c block.txs
  let _ ← c.close
  StoreM.lift (l.settings.workforce.validate l.rules.verify items).result
  StoreM.lift (l.rules.checkBlock header block loaded)
  match prunable? l.chain l.settings.maxRollbackDepth header.height with
  | some old =>
    let _ ← Journal.prune old
    return ()
  | none => return ()

/-- One block backward. -/
def disconnectBlock (archive : Archive) (header : ChainedHeader) (block : Block) :
    StoreM Unit := do
  let d ← Disconnecting.start archive header block
  let _ ← Disconnecting.finish d.progress
  return ()

/-- The stored block under a name. -/
def fetch (archive : Archive) (hash : Hash) : LedgerM Block :=
  match archive.block? hash with
  | some block => return block
  | none => LedgerM.fail (.blockNotFound (.notStored hash))

/-- Makes what is committed durable. -/
def flush : LedgerM Unit := do
  LedgerM.store StoreM.flush
  LedgerM.modify fun l => { l with blocksSinceFlush := 0 }

def defragment : LedgerM Unit := LedgerM.store StoreM.defragment

/-- Counts a connected block and flushes when the interval is full. -/
def countBlock : LedgerM Unit := do
  LedgerM.modify fun l => { l with blocksSinceFlush := l.blocksSinceFlush + 1 }
  let l ← LedgerM.ledger
  let interval := l.settings.flushInterval.toNat
  if 0 < interval ∧ interval ≤ l.blocksSinceFlush then flush

/-- Connects the stored block under `header` on top of the tip. -/
def add (archive : Archive) (header : ChainedHeader) : LedgerM Unit := do
  let block ← fetch archive header.hash
  let l ← LedgerM.ledger
  LedgerM.store (StoreM.atomically (l.connectBlock archive header block))
  let chain ← LedgerM.lift ((l.chain.add header).mapError .chain)
  LedgerM.modify fun l => { l with chain }
  countBlock

/-- Disconnects the tip block and returns its header. -/
def removeTip (archive : Archive) : LedgerM ChainedHeader := do
  let l ← LedgerM.ledger
  let tip := l.chain.tip
  if tip.height = 0 then LedgerM.fail (.chain .genesisNotUndone)
  else
    let block ← fetch archive tip.hash
    LedgerM.store (StoreM.atomically (disconnectBlock archive tip block))
    let chain ← LedgerM.lift ((l.chain.remove tip).mapError .chain)
    LedgerM.modify fun l => { l with chain }
    return tip

/-- Takes steps one by one and keeps the headers they moved. The first failing step ends the walk;
the steps before it stay taken. -/
def follow (archive : Archive) (r : Reorganization) : List Chain.Step → LedgerM Reorganization
  | [] => return r
  | step :: rest => do
    match step.direction with
    | .backward =>
      let removed ← removeTip archive
      if removed.hash ≠ step.header.hash then
        LedgerM.fail (.inconsistent (.otherRolledBack removed.hash step.header.hash))
      follow archive { r with disconnected := r.disconnected ++ [removed] } rest
    | .forward =>
      add archive step.header
      follow archive { r with connected := r.connected ++ [step.header] } rest

/-- Walks to the chain `target`, one committed block at a time. -/
def navigateTo (archive : Archive) (target : Chain) : LedgerM Reorganization := do
  let l ← LedgerM.ledger
  let path ← LedgerM.lift (Chain.Path.between l.chain target)
  follow archive ⟨path.ancestor, [], []⟩ path.steps

/-- Walks to a candidate only if it carries more work. -/
def reorganizeIfBetter (archive : Archive) (candidate : Chain) :
    LedgerM (Option Reorganization) := do
  let l ← LedgerM.ledger
  if l.chain.better candidate then
    let r ← navigateTo archive candidate
    return some r
  else return none

/-- The counters as committed last. -/
def counters : LedgerM Counters := LedgerM.store (StoreM.read Tables.readCounters)

/-- A snapshot of the committed state. -/
def snapshot : LedgerM Snapshot := LedgerM.of fun s => (Snapshot.take s.db, s)

/-- The hash that commits to the committed unspent set. -/
def commitment : LedgerM Hash := do
  let s ← snapshot
  LedgerM.lift s.tables.commitment

end Ledger
end UtxoLedger

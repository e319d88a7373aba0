import UtxoLedger.Block.Locator
import UtxoLedger.Chain.Path
import UtxoLedger.Journal
import UtxoLedger.LoadedTx
import UtxoLedger.Snapshot

/-!
# Replaying a block

A block on the chain of a snapshot, or right above its tip, is replayed without touching the store:
its transactions are loaded with their sources, in block order or against it. The journal of the
block says where the sources are; without one they are in the block itself, before the transaction
that spends them, or in the unspent set.
-/
namespace UtxoLedger

/-- A replay on its way. -/
structure Replay where
  snapshot : Snapshot
  locator : Locator
  journal? : Option Journal
  /-- Where the block holds a transaction; the last position counts. -/
  positions : Std.ExtTreeMap Hash Nat
  pending : List (Transaction × Nat)
  failed : Bool

namespace Replay

/-- The chained header of a block and its journal, if it has one. -/
def place (s : Snapshot) (hash : Hash) (block : Block) :
    Except LedgerError (ChainedHeader × Option Journal) :=
  match s.chain.find? hash with
  | some h => (Journal.find? s.tables h).map fun j => (h, j)
  | none =>
    if block.header.prev = s.chain.tip.hash then
      ((ChainedHeader.onto s.chain.tip block.header).mapError .chain).map fun h => (h, none)
    else .error (.blockNotFound (.offChain hash))

/-- Takes up a block by name. -/
def start (archive : Archive) (s : Snapshot) (hash : Hash) (direction : Direction) :
    Except LedgerError Replay := do
  match archive.block? hash with
  | none => throw (.blockNotFound (.notStored hash))
  | some block =>
    let (header, journal?) ← place s hash block
    match journal? with
    | some journal => (journal.verify block).mapError .inconsistent
    | none => pure ()
    let locator ← (Locator.make archive header block).mapError .inconsistent
    let txs := block.txs.zipIdx
    let positions := txs.foldl (fun m (tx, i) => m.insert tx.hash i) ∅
    let pending := match direction with
      | .forward => txs
      | .backward => txs.reverse
    return ⟨s, locator, journal?, positions, pending, false⟩

/-- The place of the source of one input. -/
def locate (r : Replay) (index input : Nat) (source : Hash) : Except LedgerError TxLocation :=
  match r.journal? with
  | some journal =>
    match (journal.sources? index).bind fun places => places[input]? with
    | some place => .ok place
    | none => .error (.inconsistent (.journalKeyMissing input))
  | none =>
    match (r.positions[source]?).filter fun position => position < index with
    | some position =>
      let h := r.locator.header
      .ok ⟨h.hash, h.height, Int32.ofNat position⟩
    | none =>
      match r.snapshot.tables.unspent? source with
      | .error e => .error e
      | .ok none => .error (.inconsistent (.unresolvable source))
      | .ok (some u) => (r.locator.placeOf r.snapshot.chain u).mapError .inconsistent

/-- The sources of the inputs from position `i` on. -/
def sources (r : Replay) (index i : Nat) : List TxInput → Except LedgerError (List Transaction)
  | [] => .ok []
  | input :: rest => do
    let place ← r.locate index i input.prevout.hash
    let source ← (r.locator.resolve place input.prevout.hash).mapError .inconsistent
    let more ← r.sources index (i + 1) rest
    return source :: more

/-- Loads the transaction at a position of the block. -/
def load (r : Replay) (tx : Transaction) (index : Nat) : Except LedgerError LoadedTx := do
  let coinbase := tx.isCoinbase
  let sources ← r.sources index 0 (if coinbase then [] else tx.inputs)
  return ⟨tx, tx.hash, index, coinbase, sources⟩

/-- The next loaded transaction; a failure ends the replay. -/
def next? (r : Replay) : Option (Except LedgerError LoadedTx × Replay) :=
  match r.failed, r.pending with
  | false, (tx, index) :: rest =>
    match r.load tx index with
    | .ok l => some (.ok l, { r with pending := rest })
    | .error e => some (.error e, { r with pending := rest, failed := true })
  | _, _ => none

/-- At most `n` loaded transactions. -/
def take : Nat → Replay → List (Except LedgerError LoadedTx)
  | 0, _ => []
  | n + 1, r =>
    match r.next? with
    | none => []
    | some (l, r) => l :: take n r

end Replay
end UtxoLedger

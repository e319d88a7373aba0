import Std.Data.ExtTreeSet
import UtxoLedger.Block.Locator
import UtxoLedger.Block.Progress
import UtxoLedger.Journal

/-!
# Connecting a block

A block is connected transaction by transaction inside a write transaction of the caller: every
input takes an output out of the unspent set, every output enters it, and the journal notes what
undoing takes. The first failure ends the work, and the caller has to roll back.
-/
namespace UtxoLedger

namespace StoreM

/-- The stored tip must be the given header. -/
def checkTip (expected : Hash) (height : Height) : StoreM Unit := do
  match ← read Tables.tip? with
  | some tip =>
    require (tip.hash = expected ∧ tip.height = height)
      (.tipDiffers tip.hash tip.height expected height)
  | none => fail (.inconsistent .noTip)

end StoreM

/-- A block on its way into the store. -/
structure Connecting where
  /-- The chain below the block. -/
  chain : Chain
  locator : Locator
  journal : Journal
  counters : Counters
  /-- The names of the transactions taken up so far. -/
  minted : Std.ExtTreeSet Hash
  /-- The position of the next transaction. -/
  position : Nat

namespace Connecting

/-- Takes up a block on top of `chain`, whose tip must also be the stored tip. -/
def start (archive : Archive) (chain : Chain) (header : ChainedHeader) (block : Block) :
    StoreM Connecting := do
  if ¬ header.Extends chain.tip then
    StoreM.fail (.chain (.blockNotExtending header.hash header.height chain.tip.hash))
  StoreM.checkTip chain.tip.hash chain.tip.height
  let locator ← StoreM.consistent (Locator.make archive header block)
  let counters ← StoreM.read Tables.readCounters
  return ⟨chain, locator, .empty, counters, ∅, 0⟩

/-- The states left after output `o` of a record is spent. -/
def spentStates (u : UnspentTx) (o : OutPoint) : Except Inconsistency OutputStates :=
  match u.states.get? o.index.toNat, u.states.set? o.index.toNat .spent with
  | some .unspent, some states => .ok states
  | some .spent, _ => .error (.alreadySpent o)
  | _, _ => .error (.outOfRange o u.states.size)

/-- Spends one output. The record goes when its last output does. -/
def spend (c : Connecting) (o : OutPoint) :
    StoreM (Transaction × TxLocation × Connecting) := do
  match ← StoreM.read fun t => t.unspent? o.hash with
  | none => StoreM.fail (.inconsistent (.notUnspent o))
  | some u =>
    let states ← StoreM.consistent (spentStates u o)
    let counters ← StoreM.consistent (c.counters.lower .unspentOutputs 1)
    let place ← StoreM.consistent (c.locator.placeOf c.chain u)
    if states.allSpent then
      let removed ← StoreM.tryRemoveUnspent u.hash
      StoreM.require removed (.vanishedOnSpend u.hash)
      let counters ← StoreM.consistent (counters.lower .unspentTxs 1)
      let source ← StoreM.consistent (c.locator.resolve place o.hash)
      return (source, place, { c with counters, journal := c.journal.noteSpent u.hash })
    else
      let updated ← StoreM.tryUpdateUnspent { u with states }
      StoreM.require updated (.vanishedOnSpend u.hash)
      let source ← StoreM.consistent (c.locator.resolve place o.hash)
      return (source, place, { c with counters })

/-- Spends the outputs of a list of inputs in order. -/
def spendAll (c : Connecting) :
    List TxInput → StoreM (List Transaction × List TxLocation × Connecting)
  | [] => return ([], [], c)
  | input :: rest => do
    let (source, place, c) ← c.spend input.prevout
    let (sources, places, c) ← c.spendAll rest
    return (source :: sources, place :: places, c)

/-- Enters the outputs of a transaction into the unspent set; one without outputs leaves no record.
-/
def mint (c : Connecting) (tx : Transaction) (hash : Hash) : StoreM Connecting := do
  if tx.outputs.isEmpty then return c
  else
    let n := tx.outputs.length
    let added ← StoreM.tryAddUnspent
      ⟨hash, c.locator.header.height, Int32.ofNat c.position, .filled n .unspent⟩
    StoreM.require added (.alreadyPresent hash)
    return { c with counters := (c.counters.raise .unspentTxs 1).raise .unspentOutputs n }

/-- Connects the next transaction. Its name must be new to the block and to the unspent set, and it
spends before it mints, so it never spends itself. -/
def connect (c : Connecting) (tx : Transaction) : StoreM (LoadedTx × Connecting) := do
  let hash := tx.hash
  let present ← StoreM.read fun t => .ok (t.containsUnspent hash)
  StoreM.require (!c.minted.contains hash && !present) (.duplicateTx hash c.locator.header.hash)
  let c := { c with minted := c.minted.insert hash }
  let coinbase := tx.isCoinbase
  let (sources, places, c) ← c.spendAll (if coinbase then [] else tx.inputs)
  let c ← c.mint tx hash
  let counters := ((c.counters.raise .txs 1).raise .inputs tx.inputs.length).raise .outputs
    tx.outputs.length
  return (⟨tx, hash, c.position, coinbase, sources⟩,
    { c with counters, journal := c.journal.noteUnminted ⟨hash, places⟩,
             position := c.position + 1 })

/-- Writes the journal, the header and the counters of a block all of whose transactions are in. -/
def close (c : Connecting) : StoreM Counters := do
  c.journal.write c.locator.header
  StoreM.addHeader c.locator.header
  StoreM.writeCounters c.counters
  return c.counters

/-- The whole block still to be connected. -/
def progress (c : Connecting) : Progress Connecting Transaction := .start c c.locator.block.txs

/-- Connects what is left, then closes the block; refused after a failure. -/
def finish (p : Progress Connecting Transaction) : StoreM Counters := do
  let c ← p.finish connect .connectFailed
  c.close

end Connecting
end UtxoLedger

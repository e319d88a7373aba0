import UtxoLedger.Block.Connect

/-!
# Disconnecting a block

The tip block is undone from its journal inside a write transaction of the caller. First every
record that the block removed comes back with all outputs spent; then, transaction by transaction
from the last to the first, what it minted goes and what it spent becomes unspent again.
-/
namespace UtxoLedger

/-- A block on its way out of the store. -/
structure Disconnecting where
  locator : Locator
  journal : Journal
  counters : Counters

namespace Disconnecting

/-- Brings back the records that went with their last output, still fully spent. -/
def restore (l : Locator) (places : Std.ExtTreeMap Hash TxLocation) (counters : Counters) :
    SpentList → StoreM Counters
  | [] => return counters
  | tx :: rest => do
    match places[tx]? with
    | none => StoreM.fail (.inconsistent (.spentNotInput tx))
    | some place =>
      let source ← StoreM.consistent (l.resolve place tx)
      let added ← StoreM.tryAddUnspent
        ⟨tx, place.height, place.index, .filled source.outputs.length .spent⟩
      StoreM.require added (.spentStillPresent tx)
      restore l places (counters.raise .unspentTxs 1) rest

/-- Takes up the block under the stored tip. -/
def start (archive : Archive) (header : ChainedHeader) (block : Block) :
    StoreM Disconnecting := do
  StoreM.checkTip header.hash header.height
  let locator ← StoreM.consistent (Locator.make archive header block)
  let journal ← StoreM.read fun t => Journal.load t header
  StoreM.consistent (journal.verify block)
  let counters ← StoreM.read Tables.readCounters
  let counters ← restore locator (journal.locations block) counters journal.spent
  return ⟨locator, journal, counters⟩

/-- Takes the outputs of a transaction out of the unspent set; all of them must still be there. -/
def unmint (d : Disconnecting) (tx : Transaction) (hash : Hash) : StoreM Disconnecting := do
  if tx.outputs.isEmpty then return d
  else
    match ← StoreM.read fun t => t.unspent? hash with
    | none => StoreM.fail (.inconsistent (.mintedMissing hash))
    | some u =>
      let height := d.locator.header.height
      StoreM.require (u.height = height && u.states.allUnspent) (.mintedNotUnspent hash height)
      let _ ← StoreM.tryRemoveUnspent hash
      let counters ← StoreM.consistent (d.counters.lower .unspentTxs 1)
      let counters ← StoreM.consistent (counters.lower .unspentOutputs tx.outputs.length)
      return { d with counters }

/-- The states left after output `o` of a record is unspent again. -/
def unspentStates (u : UnspentTx) (o : OutPoint) : Except Inconsistency OutputStates :=
  match u.states.get? o.index.toNat, u.states.set? o.index.toNat .unspent with
  | some .spent, some states => .ok states
  | _, _ => .error (.notSpent o)

/-- Makes one spent output unspent again. -/
def unspend (d : Disconnecting) (o : OutPoint) (place : TxLocation) :
    StoreM (Transaction × Disconnecting) := do
  match ← StoreM.read fun t => t.unspent? o.hash with
  | none => StoreM.fail (.inconsistent (.sourceMissing o.hash))
  | some u =>
    let states ← StoreM.consistent (unspentStates u o)
    let _ ← StoreM.tryUpdateUnspent { u with states }
    let source ← StoreM.consistent (d.locator.resolve place o.hash)
    return (source, { d with counters := d.counters.raise .unspentOutputs 1 })

/-- Makes the outputs of a list of inputs unspent again, in the order of the list. -/
def unspendAll (d : Disconnecting) :
    List (TxInput × TxLocation) → StoreM (List Transaction × Disconnecting)
  | [] => return ([], d)
  | (input, place) :: rest => do
    let (source, d) ← d.unspend input.prevout place
    let (sources, d) ← d.unspendAll rest
    return (source :: sources, d)

/-- Undoes one transaction: its outputs first, then its inputs from the last to the first. -/
def disconnect (d : Disconnecting) (item : Transaction × Nat) :
    StoreM (LoadedTx × Disconnecting) := do
  let (tx, index) := item
  let hash := tx.hash
  let d ← d.unmint tx hash
  let coinbase := tx.isCoinbase
  let spent := if coinbase then [] else tx.inputs.zip ((d.journal.sources? index).getD [])
  let (sources, d) ← d.unspendAll spent.reverse
  let counters ← StoreM.consistent (d.counters.lower .txs 1)
  let counters ← StoreM.consistent (counters.lower .inputs tx.inputs.length)
  let counters ← StoreM.consistent (counters.lower .outputs tx.outputs.length)
  return (⟨tx, hash, index, coinbase, sources.reverse⟩, { d with counters })

/-- A record that came back must have got an output back. -/
def checkRestored : SpentList → StoreM Unit
  | [] => return ()
  | tx :: rest => do
    match ← StoreM.read fun t => t.unspent? tx with
    | some u => StoreM.require (!u.states.allSpent) (.nothingRestored tx)
    | none => pure ()
    checkRestored rest

/-- Takes the journal and the header of an undone block away and writes the counters. -/
def close (d : Disconnecting) : StoreM Counters := do
  checkRestored d.journal.spent
  Journal.remove d.locator.header
  StoreM.removeHeader d.locator.header
  StoreM.writeCounters d.counters
  return d.counters

/-- The whole block still to be undone: its transactions with their positions, last first. -/
def progress (d : Disconnecting) : Progress Disconnecting (Transaction × Nat) :=
  .start d d.locator.block.txs.zipIdx.reverse

/-- Undoes what is left, then closes the block; refused after a failure. -/
def finish (p : Progress Disconnecting (Transaction × Nat)) : StoreM Counters := do
  let d ← p.finish disconnect .disconnectFailed
  d.close

end Disconnecting
end UtxoLedger

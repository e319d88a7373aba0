import UtxoLedger.Store.Records

/-!
# Undo journals

What undoing a block takes beside the block itself: the transactions whose record went when the
block spent their last output, kept under the height of the block, and the places of the sources of
every transaction of the block, kept under its name.
-/
namespace UtxoLedger

structure Journal where
  spent : SpentList
  unminted : UnmintedList
  deriving DecidableEq

namespace Journal

def empty : Journal := ⟨[], []⟩

/-- Notes a record that went with its last output. -/
def noteSpent (j : Journal) (tx : Hash) : Journal := { j with spent := j.spent ++ [tx] }

/-- Notes a transaction of the block with the places of its sources. -/
def noteUnminted (j : Journal) (u : UnmintedTx) : Journal := { j with unminted := j.unminted ++ [u] }

/-- Writes the list of spent transactions; a list that is already there must be the same. -/
def writeSpent (height : Height) (txs : SpentList) : StoreM Unit := do
  let added ← StoreM.tryAddSpent height txs
  if added then return ()
  else
    let existing ← StoreM.read fun t => t.spent? height
    StoreM.require (existing = some txs) (.spentListConflict height)

/-- Writes the list of minted transactions; a list that is already there must be the same. -/
def writeUnminted (block : Hash) (txs : UnmintedList) : StoreM Unit := do
  let added ← StoreM.tryAddUnminted block txs
  if added then return ()
  else
    let existing ← StoreM.read fun t => t.unminted? block
    StoreM.require (existing = some txs) (.unmintedListConflict block)

/-- Writes both entries of a block. -/
def write (j : Journal) (h : ChainedHeader) : StoreM Unit := do
  writeSpent h.height j.spent
  writeUnminted h.hash j.unminted

/-- Both entries of a block, or none; one without the other is a damaged store. -/
def find? (t : Tables) (h : ChainedHeader) : Except LedgerError (Option Journal) := do
  let spent ← t.spent? h.height
  let unminted ← t.unminted? h.hash
  match spent, unminted with
  | some spent, some unminted => return some ⟨spent, unminted⟩
  | none, none => return none
  | _, _ => throw (.inconsistent (.journalPartial h.hash h.height))

/-- Both entries of a block that is to be undone. -/
def load (t : Tables) (h : ChainedHeader) : Except LedgerError Journal := do
  match ← find? t h with
  | some j => return j
  | none => throw (.inconsistent (.journalMissing h.hash h.height))

/-- Takes both entries away, and says which of them were there. -/
def erase (h : ChainedHeader) : StoreM (Bool × Bool) := do
  let spent ← StoreM.tryRemoveSpent h.height
  let unminted ← StoreM.tryRemoveUnminted h.hash
  return (spent, unminted)

/-- Takes the entries of an undone block away; both must be there. -/
def remove (h : ChainedHeader) : StoreM Unit := do
  let (spent, unminted) ← erase h
  StoreM.require (spent && unminted) (.journalVanished h.hash)

/-- Drops what there is for a block that will not be undone any more. -/
def prune (h : ChainedHeader) : StoreM Bool := do
  let (spent, unminted) ← erase h
  return spent || unminted

/-- The number of sources that the journal keeps for a transaction. -/
def sourceCount (tx : Transaction) : Nat := if tx.isCoinbase then 0 else tx.inputs.length

/-- The first entry, counted from `i`, that does not describe its transaction. -/
def entryFault? (i : Nat) : UnmintedList → List Transaction → Option Inconsistency
  | u :: us, tx :: txs =>
    if u.hash = tx.hash ∧ u.sources.length = sourceCount tx then entryFault? (i + 1) us txs
    else some (.journalEntry i u.hash)
  | _, _ => none

/-- Checks that the journal describes a block, transaction by transaction. -/
def verify (j : Journal) (b : Block) : Except Inconsistency Unit :=
  if j.unminted.length ≠ b.txs.length then
    .error (.journalLength j.unminted.length b.txs.length)
  else match entryFault? 0 j.unminted b.txs with
    | some fault => .error fault
    | none => .ok ()

/-- The places of the sources of the transaction at a position. -/
def sources? (j : Journal) (index : Nat) : Option (List TxLocation) :=
  (j.unminted[index]?).map UnmintedTx.sources

/-- The place of every source of a block by name; the last mention counts. -/
def locations (j : Journal) (b : Block) : Std.ExtTreeMap Hash TxLocation :=
  ((b.txs.zip j.unminted).flatMap fun (tx, u) => tx.inputs.zip u.sources).foldl
    (fun m (input, place) => m.insert input.prevout.hash place) ∅

end Journal
end UtxoLedger

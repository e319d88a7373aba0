import UtxoLedger.Header

/-!
# The block archive

Blocks under the names of their headers. A block put under a name that is taken replaces the block
there, so one header may lead to different bodies at different times.
-/
namespace UtxoLedger

/-- Stored blocks by name. -/
structure Archive where
  blocks : Std.ExtTreeMap Hash Block

namespace Archive

def empty : Archive := ⟨∅⟩

def add (a : Archive) (b : Block) : Archive := ⟨a.blocks.insert b.hash b⟩

def size (a : Archive) : Nat := a.blocks.size

def block? (a : Archive) (hash : Hash) : Option Block := a.blocks[hash]?

/-- The transaction at a position of a stored block. -/
def tx? (a : Archive) (hash : Hash) (index : Nat) : Option Transaction := do
  let b ← a.block? hash
  b.txs[index]?

end Archive
end UtxoLedger

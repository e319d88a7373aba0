import UtxoLedger.Transaction
import UtxoLedger.Work

/-!
# Headers and blocks

A header names its predecessor and commits to its transactions through a Merkle root; its name is
the double hash of its eighty bytes. A chained header adds the place it takes in a chain and the
work accumulated up to it.
-/
namespace UtxoLedger

/-- A height in the four-byte signed form in which the store keeps it. -/
abbrev Height := Int32

structure BlockHeader where
  version : Int32
  prev : Hash
  merkleRoot : Hash
  time : UInt32
  bits : UInt32
  nonce : UInt32
  deriving DecidableEq

namespace BlockHeader

/-- The eighty bytes of a header. -/
def encode (h : BlockHeader) : Bytes :=
  Bytes.ofInt32 h.version ++ (h.prev.bytes ++ (h.merkleRoot.bytes
    ++ (Bytes.ofUInt32 h.time ++ (Bytes.ofUInt32 h.bits ++ Bytes.ofUInt32 h.nonce))))

/-- The name of a header, and of the block under it. -/
def hash (h : BlockHeader) : Hash := doubleSha256 h.encode

end BlockHeader

/-- A header with its transactions. -/
structure Block where
  header : BlockHeader
  txs : List Transaction
  deriving DecidableEq

def Block.hash (b : Block) : Hash := b.header.hash

/-- A header with its name, its height and the work of the chain that ends in it. -/
structure ChainedHeader where
  header : BlockHeader
  hash : Hash
  height : Height
  work : Work
  deriving DecidableEq

namespace ChainedHeader

/-- The name of the predecessor. -/
def prev (h : ChainedHeader) : Hash := h.header.prev

/-- A header that starts a chain. -/
def genesis (h : BlockHeader) : ChainedHeader := ⟨h, h.hash, 0, Work.ofBits h.bits⟩

/-- The header `h` placed on top of `parent`, whatever predecessor it names. -/
def above (parent : ChainedHeader) (h : BlockHeader) : ChainedHeader :=
  ⟨h, h.hash, parent.height + 1, parent.work.add (Work.ofBits h.bits)⟩

end ChainedHeader
end UtxoLedger

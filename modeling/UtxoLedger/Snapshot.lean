import UtxoLedger.Chain
import UtxoLedger.Store.Scan

/-!
# Snapshots

A snapshot is the committed state at one moment: the stored chain beside a pinned view of the
tables. Nothing that is committed later reaches it.
-/
namespace UtxoLedger

/-- A chain with the tables it was read from. -/
structure Snapshot where
  chain : Chain
  tables : Tables
  deriving DecidableEq

namespace Snapshot

/-- The state that the tables hold, if their headers form a chain. -/
def ofTables (t : Tables) : Except LedgerError Snapshot := do
  let headers ← t.chainHeaders
  let chain ← (Chain.ofHeaders headers).mapError .chain
  return ⟨chain, t⟩

/-- The state committed last. -/
def take (db : Database) : Except LedgerError Snapshot := ofTables db.committed.tables

end Snapshot
end UtxoLedger

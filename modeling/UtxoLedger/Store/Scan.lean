import UtxoLedger.Store.Records

/-!
# Scans

A scan walks one table of a pinned view in key order. It keeps no place in the table, only the last
key it returned, and looks for the next greater key at every step; what happens to the store in the
meantime does not reach it.
-/
namespace UtxoLedger

/-- A walk over a pinned table. -/
structure Scan where
  table : Table
  last? : Option Bytes

namespace Scan

/-- A scan of a table as it is now. -/
def start (table : Table) : Scan := ⟨table, none⟩

/-- The entry with the least key behind the last one. -/
def next? (s : Scan) : Option ((Bytes × Bytes) × Scan) :=
  let behind (key : Bytes) : Bool := match s.last? with
    | none => true
    | some last => compare last key = .lt
  (s.table.toList.find? fun e => behind e.1).map fun e => (e, { s with last? := some e.1 })

/-- At most `n` entries, and the scan behind them. -/
def take : Nat → Scan → List (Bytes × Bytes) × Scan
  | 0, s => ([], s)
  | n + 1, s =>
    match s.next? with
    | none => ([], s)
    | some (e, s) =>
      let (es, s) := take n s
      (e :: es, s)

/-- The entries that are left; there are no more than the table has. -/
def rest (s : Scan) : List (Bytes × Bytes) := (s.take s.table.size).1

end Scan
end UtxoLedger

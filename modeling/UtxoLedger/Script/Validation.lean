import UtxoLedger.Script

/-!
# Script validation

Validation is exhaustive: a failing input never stops the others. The work may be shared among
workers; each returns the failures of its share, and the report sorts them by their place in the
block, so that the sharing cannot be seen in it.
-/
namespace UtxoLedger

namespace ScriptFailure

def position (f : ScriptFailure) : Nat × Nat := (f.txIndex, f.inputIndex)

/-- Order of the places in a block: by transaction, then by input. -/
def notAfter (f g : ScriptFailure) : Bool :=
  f.txIndex < g.txIndex || (f.txIndex == g.txIndex && f.inputIndex ≤ g.inputIndex)

end ScriptFailure

/-- The number of inputs judged, and the failures in block order. -/
structure ScriptReport where
  checked : Nat
  failures : List ScriptFailure
  deriving DecidableEq

namespace ScriptReport

def isValid (r : ScriptReport) : Bool := r.failures.isEmpty

/-- All failures together are one error. -/
def result (r : ScriptReport) : Except LedgerError Unit :=
  if r.failures.isEmpty then .ok () else .error (.scripts r.failures)

/-- The report on what the workers found: how much each judged, and its failures as they came. -/
def collect (found : List (Nat × List ScriptFailure)) : ScriptReport :=
  ⟨(found.map Prod.fst).foldr (· + ·) 0, (found.flatMap Prod.snd).mergeSort ScriptFailure.notAfter⟩

end ScriptReport

/-- How validation runs: on the spot, or shared among a number of workers. -/
inductive Workforce
  | inline
  | workers (count : Nat)
  deriving DecidableEq

namespace Workforce

/-- Consecutive shares of equal size, the last one shorter. -/
def sharesOf (size : Nat) : Nat → List α → List (List α)
  | 0, _ => []
  | n + 1, items => items.take size :: sharesOf size n (items.drop size)

/-- The shares of the workers; every item is in exactly one, and no more workers are called than
there are items. -/
def shares (w : Workforce) (items : List α) : List (List α) :=
  match w with
  | inline => [items]
  | workers count =>
    let n := max 1 (min count items.length)
    sharesOf ((items.length + n - 1) / n) n items

/-- What one worker finds in its share. -/
def judge (verify : ScriptVerifier) (share : List ScriptItem) : Nat × List ScriptFailure :=
  (share.length, share.filterMap (ScriptItem.failure? verify))

/-- Judges every item. -/
def validate (w : Workforce) (verify : ScriptVerifier) (items : List ScriptItem) : ScriptReport :=
  ScriptReport.collect ((w.shares items).map (judge verify))

end Workforce
end UtxoLedger

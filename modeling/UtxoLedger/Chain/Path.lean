import UtxoLedger.Chain

/-!
# Paths between chains

The way from one chain to another goes down to the highest header that both hold and up again, one
header at a time. A path is walked lazily and knows how many steps it still has.
-/
namespace UtxoLedger

/-- Towards the tip or towards genesis. -/
inductive Direction
  | forward
  | backward
  deriving DecidableEq

def Direction.sign : Direction → Int
  | forward => 1
  | backward => -1

namespace Chain

/-- Both chains hold the same hash at position `n`. -/
def agreeAt (a b : Chain) (n : Nat) : Bool :=
  match a.headers[n]?, b.headers[n]? with
  | some x, some y => x.hash = y.hash
  | _, _ => false

/-- The highest position up to `n` at which the chains agree. -/
def fork? (a b : Chain) : Nat → Option Nat
  | 0 => if a.agreeAt b 0 then some 0 else none
  | n + 1 => if a.agreeAt b (n + 1) then some (n + 1) else a.fork? b n

/-- One header added at the tip, or taken off it. -/
structure Step where
  direction : Direction
  header : ChainedHeader
  deriving DecidableEq

def Step.apply (s : Step) (c : Chain) : Except ChainFault Chain :=
  match s.direction with
  | .backward => c.remove s.header
  | .forward => c.add s.header

/-- The rest of the way from `source` to `target`: positions of the source from `nextRemoval` down
to `fork`, then positions of the target from `nextAddition` up. -/
structure Path where
  source : Chain
  target : Chain
  ancestor : ChainedHeader
  fork : Nat
  nextRemoval : Nat
  nextAddition : Nat
  deriving DecidableEq

namespace Path

/-- The whole way from `source` to `target`; there is none between chains that share no header. -/
def between (source target : Chain) : Except LedgerError Path :=
  let lower := min (source.length - 1) (target.length - 1)
  match source.fork? target lower with
  | some n =>
    match source.headers[n]? with
    | some ancestor => .ok ⟨source, target, ancestor, n, source.length - 1, n + 1⟩
    | none => .error (.noCommonAncestor source.genesis.hash target.genesis.hash)
  | none => .error (.noCommonAncestor source.genesis.hash target.genesis.hash)

/-- The number of steps still to go. -/
def remaining (p : Path) : Nat := (p.nextRemoval - p.fork) + (p.target.length - p.nextAddition)

/-- The next step and the way behind it. -/
def next? (p : Path) : Option (Step × Path) :=
  if p.fork < p.nextRemoval then
    (p.source.headers[p.nextRemoval]?).map fun h =>
      (⟨.backward, h⟩, { p with nextRemoval := p.nextRemoval - 1 })
  else if p.nextAddition < p.target.length then
    (p.target.headers[p.nextAddition]?).map fun h =>
      (⟨.forward, h⟩, { p with nextAddition := p.nextAddition + 1 })
  else none

/-- At most `n` steps of the way, each with the number of steps that remained before it, and the
number that remain at the end. -/
def walk : Nat → Path → List (Nat × Step) × Nat
  | 0, p => ([], p.remaining)
  | n + 1, p =>
    match p.next? with
    | none => ([], p.remaining)
    | some (s, rest) =>
      let (steps, left) := walk n rest
      ((p.remaining, s) :: steps, left)

/-- Every step of the way; no way is longer than both chains together. -/
def steps (p : Path) : List Step :=
  ((walk (p.source.length + p.target.length) p).1).map Prod.snd

end Path
end Chain
end UtxoLedger

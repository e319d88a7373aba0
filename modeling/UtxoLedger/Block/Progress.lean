import UtxoLedger.LoadedTx
import UtxoLedger.Store.Session

/-!
# Progress through a block

Connecting and disconnecting go through a block one transaction at a time. The caller may stop at
any transaction and look at what was loaded; the first failure ends the work for good.
-/
namespace UtxoLedger

/-- What has been worked out so far, and what is still to be worked off. -/
structure Progress (σ α : Type) where
  state : σ
  pending : List α
  failed : Bool

namespace Progress

variable {σ α : Type}

def start (state : σ) (pending : List α) : Progress σ α := ⟨state, pending, false⟩

/-- Works the next item off, if one is left and none has failed. -/
def next? (work : σ → α → StoreM (LoadedTx × σ)) (p : Progress σ α) :
    StateM Session (Option (Except LedgerError LoadedTx) × Progress σ α) := fun s =>
  match p.failed, p.pending with
  | false, a :: rest =>
    match (work p.state a).on s with
    | (.ok (l, state), s) => ((some (.ok l), ⟨state, rest, false⟩), s)
    | (.error e, s) => ((some (.error e), ⟨p.state, rest, true⟩), s)
  | _, _ => ((none, p), s)

/-- Works at most `n` items off one by one. -/
def advance (work : σ → α → StoreM (LoadedTx × σ)) : Nat → Progress σ α →
    StateM Session (List (Except LedgerError LoadedTx) × Progress σ α)
  | 0, p => return ([], p)
  | n + 1, p => do
    match ← p.next? work with
    | (none, p) => return ([], p)
    | (some r, p) =>
      let (rs, p) ← advance work n p
      return (r :: rs, p)

/-- Works a list of items off, up to the first failure. -/
def workOff (work : σ → α → StoreM (LoadedTx × σ)) (state : σ) : List α → StoreM σ
  | [] => return state
  | a :: rest => do
    let (_, state) ← work state a
    workOff work state rest

/-- Works off what is left; after a failure there is nothing to go on with. -/
def finish (work : σ → α → StoreM (LoadedTx × σ)) (fault : Inconsistency) (p : Progress σ α) :
    StoreM σ :=
  if p.failed then StoreM.fail (.inconsistent fault)
  else workOff work p.state p.pending

end Progress
end UtxoLedger

import Mathlib.Tactic.Common
import UtxoLedger.Proofs.NavigatedLedger

/-!
# Trails

A navigation commits after each of its blocks, so a run of calls passes through more sessions than
those its calls end in. A trail has them all: every state of the store that anyone can have seen.
-/
namespace UtxoLedger

open Chain (Step)

variable {H : ChainedHeader → Prop} {P : Rules → Settings → Prop} {archive : Archive}

namespace Ledger

/-- A call other than a navigation. -/
def Call.Single : Call → Prop
  | navigateTo _ | reorganizeIfBetter _ => False
  | _ => True

end Ledger

namespace Chain.Step

lemma single_call (step : Step) : step.call.Single := by
  unfold call
  cases step.direction <;> trivial

lemma known_call (step : Step) (known : step.direction = .forward → H step.header) :
    ∀ h ∈ step.call.headers, H h := by
  unfold call
  cases hdir : step.direction with
  | backward => exact fun h hh => nomatch hh
  | forward =>
    intro h hh
    rw [List.mem_singleton.1 hh]
    exact known hdir

end Chain.Step

namespace Ledger

/-- The sessions after the steps one by one, up to the first that is refused. -/
def stops (archive : Archive) : List Step → LedgerSession → List LedgerSession
  | [], _ => []
  | step :: rest, s =>
    match (step.call.run archive).on s with
    | (.ok _, s') => s' :: stops archive rest s'
    | (.error _, s') => [s']

/-- The sessions on the way to `target`. -/
def stopsTo (archive : Archive) (target : Chain) (s : LedgerSession) : List LedgerSession :=
  match Chain.Path.between s.ledger.chain target with
  | .ok path => stops archive path.steps s
  | .error _ => []

/-- The sessions that a call leaves one after the other: a navigation one for each block, any other
call just one. -/
def Call.stops (archive : Archive) (s : LedgerSession) : Call → List LedgerSession
  | navigateTo target => stopsTo archive target s
  | reorganizeIfBetter candidate =>
    if s.ledger.chain.better candidate then stopsTo archive candidate s else []
  | call => [((call.run archive).on s).2]

variable {s : LedgerSession}

lemma Stepped.last_stop {step : Step} {steps : List Step} {next : Chain}
    (stepped : Stepped archive s step next)
    (more : ∀ s₁ r, s₁.ledger.cursor = .idle → s₁.ledger.chain = next →
      ((follow archive r steps).on s₁).2 = (stops archive steps s₁).getLast?.getD s₁)
    (r : Reorganization) : ((follow archive r (step :: steps)).on s).2 =
      (stops archive (step :: steps) s).getLast?.getD s := by
  unfold stops
  cases stepped with
  | refused run walk => rw [run, walk]; rfl
  | taken run walk _ chain idle =>
    rw [run, walk, more _ _ idle chain, List.getLast?_cons]
    rfl

lemma last_stop_of_follow (idle : s.ledger.cursor = .idle) {steps : List Step} {last : Chain}
    (leads : Chain.Leads s.ledger.chain steps last) (r : Reorganization) :
    ((follow archive r steps).on s).2 = (stops archive steps s).getLast?.getD s := by
  generalize hc : s.ledger.chain = c at leads
  induction leads generalizing s r with
  | here => rfl
  | down shrunk _ ih =>
    rw [← hc] at shrunk
    exact (stepped_down idle shrunk).last_stop (fun s₁ r idle => ih idle r) r
  | up grown _ ih =>
    rw [← hc] at grown
    exact (stepped_up idle grown).last_stop (fun s₁ r idle => ih idle r) r

lemma last_stop_of_navigateTo (idle : s.ledger.cursor = .idle) (target : Chain) :
    ((navigateTo archive target).on s).2 = (stopsTo archive target s).getLast?.getD s := by
  have hspec := Chain.Path.between_spec s.ledger.chain target
  rw [on_navigateTo, stopsTo]
  cases hpath : Chain.Path.between s.ledger.chain target with
  | error e => rfl
  | ok path =>
    rw [hpath] at hspec
    obtain ⟨f, shared, -, -, -, -, placed, hrest⟩ := hspec
    obtain ⟨last, leads, -⟩ := Chain.leads_route shared
    rw [← hrest, ← Chain.Path.steps_eq placed] at leads
    exact last_stop_of_follow idle leads _

/-- The last of the sessions is the one that the call ends in; without any it changes nothing. -/
lemma last_stop (idle : s.ledger.cursor = .idle) (call : Call) :
    ((call.run archive).on s).2 = (call.stops archive s).getLast?.getD s := by
  have hdone {α β : Type} (act : LedgerM α) (b : β) :
      ((do let _ ← act; return b : LedgerM β).on s).2 = (act.on s).2 := by
    rw [LedgerM.on_bind]
    rcases act.on s with ⟨_ | a, s'⟩ <;> rfl
  cases call with
  | navigateTo target => exact (hdone _ _).trans (last_stop_of_navigateTo idle target)
  | reorganizeIfBetter candidate =>
    refine (hdone _ _).trans ?_
    rw [reorganizeIfBetter, LedgerM.on_bind_of_ok (LedgerM.on_ledger s), Call.stops]
    by_cases hbetter : s.ledger.chain.better candidate = true
    · rw [if_pos hbetter, if_pos hbetter, ← last_stop_of_navigateTo idle candidate,
        LedgerM.on_bind]
      rcases (navigateTo archive candidate).on s with ⟨_ | r, s'⟩ <;> rfl
    · rw [if_neg hbetter, if_neg hbetter]
      rfl
  | add | removeTip | flush | defragment | counters => rfl

end Ledger

namespace Hub

/-- A hub with one of its ledgers as a session has it. -/
def ofSession (archive : Archive) (others more : List Ledger) (s : LedgerSession) : Hub :=
  ⟨s.db, archive, others ++ s.ledger :: more⟩

lemma db_ofSession (archive : Archive) (others more : List Ledger) (s : LedgerSession) :
    (ofSession archive others more s).db = s.db := rfl

/-- What any run of any number of ledgers on one store leaves on its way, newest first. The store is
empty at first; of a call there are all sessions that it goes through. -/
inductive Trail (H : ChainedHeader → Prop) (P : Rules → Settings → Prop) : List Hub → Prop
  | fresh : Trail H P [⟨.fresh, .empty, []⟩]
  | stored {db : Database} {archive : Archive} {ledgers : List Ledger} {past : List Hub}
      (before : Trail H P (⟨db, archive, ledgers⟩ :: past)) (block : Block)
      (bounds : block.InBounds)
      (same : ∀ old, archive.block? block.hash = some old → old = block) :
      Trail H P (⟨db, archive.add block, ledgers⟩ :: ⟨db, archive, ledgers⟩ :: past)
  | opened {db : Database} {archive : Archive} {ledgers : List Ledger} {past : List Hub}
      (before : Trail H P (⟨db, archive, ledgers⟩ :: past)) {genesis : ChainedHeader}
      (known : H genesis) {rules : Rules} {settings : Settings} (admitted : P rules settings) :
      Trail H P (⟨(Ledger.openOn db rules settings genesis).2, archive,
        (Ledger.openOn db rules settings genesis).1.toOption.toList ++ ledgers⟩ ::
          ⟨db, archive, ledgers⟩ :: past)
  | dropped {db : Database} {archive : Archive} {others more : List Ledger} {l : Ledger}
      {past : List Hub} (before : Trail H P (⟨db, archive, others ++ l :: more⟩ :: past)) :
      Trail H P (⟨l.closeOn db, archive, others ++ more⟩ ::
        ⟨db, archive, others ++ l :: more⟩ :: past)
  | called {archive : Archive} {others more : List Ledger} {s : LedgerSession} {past : List Hub}
      (before : Trail H P (ofSession archive others more s :: past)) {call : Ledger.Call}
      (known : ∀ h ∈ call.headers, H h) :
      Trail H P ((call.stops archive s).reverse.map (ofSession archive others more) ++
        ofSession archive others more s :: past)

section Stops

variable {Inv : List Hub → Prop} {others more : List Ledger} {s : LedgerSession}
  {past : List Hub}
  (asked : ∀ {past : List Hub} {s : LedgerSession} {call : Ledger.Call},
    Inv (ofSession archive others more s :: past) → (∀ h ∈ call.headers, H h) → call.Single →
      Inv (ofSession archive others more ((call.run archive).on s).2 ::
        ofSession archive others more s :: past))

include asked

/-- What every single call keeps is kept by a run of blocks, up to the first that is refused. -/
lemma kept_by_walk {steps : List Step}
    (known : ∀ step ∈ steps, step.direction = .forward → H step.header)
    (inv : Inv (ofSession archive others more s :: past)) :
    Inv ((Ledger.stops archive steps s).reverse.map (ofSession archive others more) ++
      ofSession archive others more s :: past) := by
  induction steps generalizing s past with
  | nil => exact inv
  | cons step rest ih =>
    have next := asked inv (step.known_call (known step List.mem_cons_self)) step.single_call
    unfold Ledger.stops
    generalize (step.call.run archive).on s = result at next ⊢
    rcases result with ⟨_ | _, s'⟩
    · exact next
    · dsimp only
      rw [List.reverse_cons, List.map_append, List.append_assoc]
      exact ih (fun step' hmem => known step' (.tail _ hmem)) next

lemma kept_by_walkTo {target : Chain} (known : ∀ h ∈ target.headers, H h)
    (inv : Inv (ofSession archive others more s :: past)) :
    Inv ((Ledger.stopsTo archive target s).reverse.map (ofSession archive others more) ++
      ofSession archive others more s :: past) := by
  unfold Ledger.stopsTo
  cases hpath : Chain.Path.between s.ledger.chain target with
  | error e => exact inv
  | ok path =>
    refine kept_by_walk asked (fun step hmem forward => known _ ?_) inv
    exact Chain.Path.mem_target_of_mem_steps hpath hmem forward

/-- What every single call keeps, every call keeps. -/
theorem kept_by_call {call : Ledger.Call} (known : ∀ h ∈ call.headers, H h)
    (inv : Inv (ofSession archive others more s :: past)) :
    Inv ((call.stops archive s).reverse.map (ofSession archive others more) ++
      ofSession archive others more s :: past) := by
  cases call with
  | navigateTo target => exact kept_by_walkTo asked known inv
  | reorganizeIfBetter candidate =>
    rw [Ledger.Call.stops]
    split
    · exact kept_by_walkTo asked known inv
    · exact inv
  | add | removeTip | flush | defragment | counters => exact asked inv known trivial

end Stops

/-- A ledger that was just opened on a fresh database is alone on it. -/
lemma openOn_fresh (archive : Archive) {rules : Rules} {settings : Settings}
    {genesis : ChainedHeader} {chain : Chain} (sole : chain.headers = [genesis])
    (height : genesis.height = 0) :
    (⟨(Ledger.openOn .fresh rules settings genesis).2, archive,
      (Ledger.openOn .fresh rules settings genesis).1.toOption.toList ++ []⟩ : Hub) =
        ofSession archive [] [] ⟨⟨rules, settings, chain, .idle, 0⟩,
          (Ledger.openOn .fresh rules settings genesis).2⟩ := by
  obtain ⟨chain', db, hheaders, -, -, hopen⟩ := Ledger.openOn_fresh rules settings height
  obtain rfl : chain' = chain := Chain.ext_headers (hheaders.trans sole.symm)
  rw [hopen]
  rfl

lemma Trail.start {past : List Hub} {rules : Rules} {settings : Settings} {genesis : ChainedHeader}
    {chain : Chain} (before : Trail H P (⟨.fresh, archive, []⟩ :: past)) (known : H genesis)
    (admitted : P rules settings) (sole : chain.headers = [genesis])
    (height : genesis.height = 0) :
    Trail H P (ofSession archive [] [] ⟨⟨rules, settings, chain, .idle, 0⟩,
      (Ledger.openOn .fresh rules settings genesis).2⟩ :: ⟨.fresh, archive, []⟩ :: past) := by
  rw [← openOn_fresh archive sole height]
  exact before.opened known admitted

/-- Every hub of a run is at the end of a trail. -/
theorem Reached.exists_trail (named : Traceable H) {n : Hub} (run : Hub.Reached H P n) :
    ∃ past, Trail H P (n :: past) := by
  induction run with
  | fresh => exact ⟨_, .fresh⟩
  | stored _ block bounds same ih => exact ⟨_, ih.choose_spec.stored block bounds same⟩
  | opened _ known admitted ih => exact ⟨_, ih.choose_spec.opened known admitted⟩
  | dropped _ ih => exact ⟨_, ih.choose_spec.dropped⟩
  | @called db archive others more l before call known ih =>
    have idle : l.cursor = .idle := ((before.sound named).serves l (by simp)).idle
    obtain ⟨past, trail⟩ := ih
    have along := Trail.called (s := ⟨l, db⟩) trail known
    have hlast : ((call.run archive).on ⟨l, db⟩).2 =
        (call.stops archive ⟨l, db⟩).getLast?.getD ⟨l, db⟩ := Ledger.last_stop idle call
    rw [hlast]
    rcases List.eq_nil_or_concat (call.stops archive ⟨l, db⟩) with hnone | ⟨front, last, hstops⟩
    · rw [hnone]
      exact ⟨past, trail⟩
    · rw [List.concat_eq_append] at hstops
      rw [hstops, List.getLast?_concat]
      rw [hstops, List.reverse_concat, List.map_cons, List.cons_append] at along
      exact ⟨_, along⟩

end Hub

end UtxoLedger

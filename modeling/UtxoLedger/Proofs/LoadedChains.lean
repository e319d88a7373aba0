import Mathlib.Data.List.Induction
import Mathlib.Tactic.Common
import UtxoLedger.Proofs.Navigation

/-!
# Chains that are loaded and chains that are grown

Loading judges a whole list: each header by its position, and by the header below it. A chain that
changes looks at its tip alone. Both come to the same, because a list with one header more loads
just if the list loads and the header extends the tip of what it gives. So a change is accepted
exactly if the list that it asks for would load, and a chain is at any time the one that its headers
load.
-/
namespace UtxoLedger.Chain

variable {c c' : Chain} {h : ChainedHeader} {hs : List ChainedHeader}

lemma ofHeaders_eq_ok : ofHeaders hs = .ok c ↔ c.headers = hs := by
  constructor
  · exact headers_of_ofHeaders
  · rintro rfl
    exact c.ofHeaders_headers

/-- What loading asks for: every header at the height of its position, on the one below it. -/
lemma exists_ofHeaders_iff : (∃ c, ofHeaders hs = .ok c) ↔ hs ≠ [] ∧
    (∀ (i : Nat) (h : ChainedHeader), hs[i]? = some h → h.height.toInt = i) ∧
    ∀ (i : Nat) (below h : ChainedHeader), hs[i]? = some below → hs[i + 1]? = some h →
      h.prev = below.hash := by
  constructor
  · rintro ⟨c, loads⟩
    obtain rfl := ofHeaders_eq_ok.1 loads
    refine ⟨c.nonempty, fun i h hget => ?_, fun i below h hbelow hget => ?_⟩
    · obtain ⟨hi, rfl⟩ := List.getElem?_eq_some_iff.1 hget
      exact c.heights i hi
    · obtain ⟨_, rfl⟩ := List.getElem?_eq_some_iff.1 hbelow
      obtain ⟨hi, rfl⟩ := List.getElem?_eq_some_iff.1 hget
      exact c.linked i hi
  · rintro ⟨nonempty, heights, linked⟩
    let chain : Chain :=
      { headers := hs
        nonempty := nonempty
        heights := fun i hi => heights i _ (List.getElem?_eq_getElem hi)
        linked := fun i hi => linked i _ _ (List.getElem?_eq_getElem (Nat.lt_of_succ_lt hi))
          (List.getElem?_eq_getElem hi) }
    exact ⟨chain, ofHeaders_eq_ok.2 rfl⟩

/-- What one header more means to a list that is loaded. -/
lemma ofHeaders_concat (hne : hs ≠ []) :
    ofHeaders (hs ++ [h]) = .ok c' ↔ ∃ c, ofHeaders hs = .ok c ∧ c.add h = .ok c' := by
  simp only [ofHeaders_eq_ok]
  constructor
  · intro grown
    have hpos : 0 < hs.length := List.length_pos_iff.2 hne
    have above : c'.tip.height ≠ 0 := by
      rw [height_ne_zero_iff, grown, List.length_append, List.length_singleton]
      omega
    obtain ⟨below, -, hbelow⟩ := remove_tip_eq_ok above
    rw [grown, List.dropLast_concat] at hbelow
    subst hbelow
    exact ⟨below, rfl, add_eq_ok.2 ⟨extends_of_grown grown, grown⟩⟩
  · rintro ⟨c, rfl, added⟩
    exact (add_eq_ok.1 added).2

/-- Headers added in order make the chain that loads from all of them. By induction from the tip
down, since each is judged against the one before it. -/
lemma through_forward :
    c.through (hs.map (⟨.forward, ·⟩)) = .ok c' ↔ ofHeaders (c.headers ++ hs) = .ok c' := by
  induction hs using List.reverseRecOn generalizing c' with
  | nil => simp [through, ofHeaders_headers]
  | append_singleton hs h ih =>
    rw [← List.append_assoc, ofHeaders_concat (by simp [c.nonempty]), List.map_append,
      through_append]
    simp only [← ih]
    cases hthrough : c.through (hs.map (⟨.forward, ·⟩)) with
    | error fault => simp
    | ok below => cases hadd : below.add h <;> simp [through, Step.apply, hadd]

/-- The list that a step asks for: the header is put on, or is taken off if the last one has its
name. -/
def Step.edit? (s : Step) (hs : List ChainedHeader) : Option (List ChainedHeader) :=
  match s.direction with
  | .forward => some (hs ++ [s.header])
  | .backward => if hs.getLast?.map (·.hash) = some s.header.hash then some hs.dropLast else none

/-- The chain once a step was asked for; a refusal leaves it as it is. -/
def tried (c : Chain) (s : Step) : Chain :=
  match s.apply c with
  | .ok c' => c'
  | .error _ => c

/-- The same on a bare list, all of which is loaded anew to tell whether the step is accepted. -/
def reloaded (hs : List ChainedHeader) (s : Step) : List ChainedHeader :=
  match s.edit? hs with
  | none => hs
  | some edited =>
    match ofHeaders edited with
    | .ok _ => edited
    | .error _ => hs

/-- The chain after steps were asked for in order, whatever became of each. -/
def after (c : Chain) (steps : List Step) : Chain := steps.foldl tried c

/-- A step is accepted exactly if the list that it asks for loads. -/
lemma apply_eq_ok {s : Step} :
    s.apply c = .ok c' ↔ ∃ edited, s.edit? c.headers = some edited ∧ ofHeaders edited = .ok c' := by
  obtain ⟨direction, h⟩ := s
  cases direction with
  | forward =>
    have hadd : c.add h = .ok c' ↔ ofHeaders (c.headers ++ [h]) = .ok c' := by
      simp [ofHeaders_concat c.nonempty, ofHeaders_headers]
    simpa [Step.apply, Step.edit?] using hadd
  | backward =>
    have htip : c.headers.getLast? = some c.tip := List.getLast?_eq_some_getLast c.nonempty
    have hremove : c.remove h = .ok c' ↔ c.tip.hash = h.hash ∧
        ofHeaders c.headers.dropLast = .ok c' := by
      rw [remove_eq_ok, ofHeaders_eq_ok]
      constructor
      · exact fun ⟨_, same, shrunk⟩ => ⟨same, shrunk⟩
      · rintro ⟨same, shrunk⟩
        have hpos := c'.length_pos
        rw [shrunk, List.length_dropLast] at hpos
        exact ⟨by omega, same, shrunk⟩
    by_cases same : c.tip.hash = h.hash <;> simp [Step.apply, Step.edit?, htip, hremove, same]

lemma headers_tried (c : Chain) (s : Step) : (c.tried s).headers = reloaded c.headers s := by
  unfold tried reloaded
  cases happly : s.apply c with
  | ok c' =>
    obtain ⟨edited, hedit, hload⟩ := apply_eq_ok.1 happly
    simp [hedit, hload, ofHeaders_eq_ok.1 hload]
  | error fault =>
    cases hedit : s.edit? c.headers with
    | none => rfl
    | some edited =>
      cases hload : ofHeaders edited with
      | error fault => simp [hload]
      | ok c' => exact nomatch happly.symm.trans (apply_eq_ok.2 ⟨edited, hedit, hload⟩)

/-- What a chain is after any steps, and what the next one does to it. -/
structure Tended (c : Chain) (steps : List Step) : Prop where
  /-- Its headers load, and give that chain. -/
  loads : ofHeaders (c.after steps).headers = .ok (c.after steps)
  /-- It has the headers that are there if every step is judged by loading the whole list. -/
  reloaded : (c.after steps).headers = steps.foldl Chain.reloaded c.headers
  /-- The next step is accepted exactly if the list that it asks for loads. -/
  accepts : ∀ (s : Step) (c' : Chain), s.apply (c.after steps) = .ok c' ↔
    ∃ edited, s.edit? (c.after steps).headers = some edited ∧ ofHeaders edited = .ok c'
  /-- An accepted step makes that the chain. -/
  moves : ∀ (s : Step) (c' : Chain), s.apply (c.after steps) = .ok c' → c.after (steps ++ [s]) = c'
  /-- A refused step leaves the chain unchanged. -/
  stays : ∀ (s : Step) (fault : ChainFault), s.apply (c.after steps) = .error fault →
    c.after (steps ++ [s]) = c.after steps

lemma tended (c : Chain) (steps : List Step) : c.Tended steps where
  loads := ofHeaders_headers _
  reloaded := (List.foldl_hom headers fun c s => (headers_tried c s).symm).symm
  accepts _ _ := apply_eq_ok
  moves s c' happly := by rw [after, List.foldl_concat, ← after, tried, happly]
  stays s fault happly := by rw [after, List.foldl_concat, ← after, tried, happly]

/-- A list loads exactly if it is not empty and each of its headers stands at the height of its
position and names the one below it. That is so exactly if the first header is a genesis and the
others can be added to it one by one, and both make the same chain. Whatever is put on a loaded
chain and taken off it, and whatever is refused meanwhile, it stays the chain that its headers load.
Heights are compared as integers: in four bytes, one above the last height runs over, so the lists
that are meant have fewer than 2^31 headers. -/
theorem loaded_as_grown (hs : List ChainedHeader) (c : Chain) :
    ((∃ c, ofHeaders hs = .ok c) ↔ hs ≠ [] ∧
      (∀ (i : Nat) (h : ChainedHeader), hs[i]? = some h → h.height.toInt = i) ∧
      ∀ (i : Nat) (below h : ChainedHeader), hs[i]? = some below → hs[i + 1]? = some h →
        h.prev = below.hash) ∧
    (ofHeaders hs = .ok c ↔ ∃ first rest base, hs = first :: rest ∧ ofGenesis first = .ok base ∧
      base.through (rest.map (⟨.forward, ·⟩)) = .ok c) ∧
    (ofHeaders hs = .ok c → ∀ steps, c.Tended steps) := by
  refine ⟨exists_ofHeaders_iff, ?_, fun _ => c.tended⟩
  constructor
  · intro loads
    cases hs with
    | nil => exact absurd (ofHeaders_eq_ok.1 loads) c.nonempty
    | cons first rest =>
      -- the lowest header of a chain is a chain of its own
      obtain ⟨base, -, hbase⟩ := c.leads_down Nat.one_pos c.length_pos
      rw [ofHeaders_eq_ok.1 loads] at hbase
      refine ⟨first, rest, base, rfl, ofHeaders_eq_ok.2 hbase, through_forward.2 ?_⟩
      rw [hbase]
      exact loads
  · rintro ⟨first, rest, base, rfl, hbase, grown⟩
    rw [through_forward, ofHeaders_eq_ok.1 hbase] at grown
    exact grown

/-- From one branch to the other, with a refusal before each step that is accepted. -/
def crookedSteps : List Step :=
  [⟨.forward, markedHeader 4 1 1⟩, ⟨.backward, markedHeader 3 2 2⟩,
    ⟨.backward, markedHeader 3 2 2⟩, ⟨.backward, markedHeader 2 1 1⟩,
    ⟨.backward, markedHeader 1 0 0⟩, ⟨.forward, markedHeader 4 1 1⟩]

theorem loaded_as_grown_branches :
    ofHeaders leftBranch.headers = .ok leftBranch ∧
    leftBranch.Tended crookedSteps ∧ leftBranch.after crookedSteps = rightBranch := by
  have loads : ofHeaders leftBranch.headers = .ok leftBranch := leftBranch.ofHeaders_headers
  have tended := (loaded_as_grown leftBranch.headers leftBranch).2.2 loads crookedSteps
  refine ⟨loads, tended, ext_headers ?_⟩
  rw [tended.reloaded]
  decide

end UtxoLedger.Chain

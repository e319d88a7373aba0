import Mathlib.Tactic.Common
import UtxoLedger.Chain.Path
import UtxoLedger.Proofs.LedgerCalls

/-!
# The way from one chain to another

A path goes down from the source to the highest height at which both chains hold one hash and up
again to the target. What is left of it is a list of steps that each call of `next?` shortens by its
head, so the lazy walk and the number of steps that it reports are read off that list. Each step is
accepted where it is taken, and no sequence of accepted steps from the source to the target is
shorter: a step changes the distance to the last common header by at most one.
-/
namespace UtxoLedger.Chain

variable {a b c c' source target : Chain} {h : ChainedHeader}

/-- Both chains hold one hash at height `n`. -/
def SharedAt (a b : Chain) (n : Nat) : Prop :=
  ∃ x ∈ a.headers, ∃ y ∈ b.headers, x.height.toInt = n ∧ y.height.toInt = n ∧ x.hash = y.hash

/-- Heights are positions. -/
lemma sharedAt_iff {n : Nat} : SharedAt a b n ↔
    ∃ x y, a.headers[n]? = some x ∧ b.headers[n]? = some y ∧ x.hash = y.hash := by
  constructor
  · rintro ⟨x, hx, y, hy, hxn, hyn, same⟩
    obtain ⟨i, hi, rfl⟩ := List.getElem_of_mem hx
    obtain ⟨j, hj, rfl⟩ := List.getElem_of_mem hy
    have hin : i = n := Int.ofNat_inj.1 ((a.heights i hi).symm.trans hxn)
    have hjn : j = n := Int.ofNat_inj.1 ((b.heights j hj).symm.trans hyn)
    subst hin hjn
    exact ⟨_, _, List.getElem?_eq_getElem hi, List.getElem?_eq_getElem hj, same⟩
  · rintro ⟨x, y, hx, hy, same⟩
    obtain ⟨hi, rfl⟩ := List.getElem?_eq_some_iff.1 hx
    obtain ⟨hj, rfl⟩ := List.getElem?_eq_some_iff.1 hy
    exact ⟨_, List.getElem_mem hi, _, List.getElem_mem hj, a.heights n hi, b.heights n hj, same⟩

lemma agreeAt_iff {n : Nat} : a.agreeAt b n = true ↔ SharedAt a b n := by
  rw [sharedAt_iff, agreeAt]
  cases ha : a.headers[n]? with
  | none => simp
  | some x => cases hb : b.headers[n]? <;> simp

lemma SharedAt.lt_length {n : Nat} (shared : SharedAt a b n) :
    n < a.headers.length ∧ n < b.headers.length := by
  obtain ⟨x, y, hx, hy, -⟩ := sharedAt_iff.1 shared
  exact ⟨(List.getElem?_eq_some_iff.1 hx).1, (List.getElem?_eq_some_iff.1 hy).1⟩

lemma fork?_eq_none {n : Nat} (h : a.fork? b n = none) {i : Nat} (hi : i ≤ n) :
    ¬ SharedAt a b i := by
  rw [← agreeAt_iff]
  induction n with
  | zero =>
    obtain rfl : i = 0 := Nat.le_zero.1 hi
    intro agree
    rw [fork?, if_pos agree] at h
    exact nomatch h
  | succ n ih =>
    rw [fork?] at h
    split at h
    · exact nomatch h
    next apart =>
      rcases Nat.le_succ_iff.1 hi with hle | rfl
      · exact ih h hle
      · exact apart

lemma fork?_eq_some {n f : Nat} (h : a.fork? b n = some f) :
    SharedAt a b f ∧ ∀ i ≤ n, SharedAt a b i → i ≤ f := by
  induction n with
  | zero =>
    rw [fork?] at h
    split at h
    next agree =>
      cases h
      exact ⟨agreeAt_iff.1 agree, fun i hi _ => hi⟩
    next => exact nomatch h
  | succ n ih =>
    rw [fork?] at h
    split at h
    next agree =>
      cases h
      exact ⟨agreeAt_iff.1 agree, fun i hi _ => hi⟩
    next apart =>
      obtain ⟨shared, greatest⟩ := ih h
      refine ⟨shared, fun i hi hshared => ?_⟩
      rcases Nat.le_succ_iff.1 hi with hle | rfl
      · exact greatest i hle hshared
      · exact absurd (agreeAt_iff.2 hshared) apart

/-- The chain after steps taken one after the other. -/
def through (c : Chain) : List Step → Except ChainFault Chain
  | [] => .ok c
  | s :: rest =>
    match s.apply c with
    | .ok c' => c'.through rest
    | .error fault => .error fault

lemma through_append {xs ys : List Step} : c.through (xs ++ ys) =
    match c.through xs with
    | .ok c' => c'.through ys
    | .error fault => .error fault := by
  induction xs generalizing c with
  | nil => rfl
  | cons s xs ih =>
    rw [List.cons_append, through, through]
    cases s.apply c with
    | ok c' => exact ih
    | error fault => rfl

/-- Whoever arrives was let through at every step. -/
lemma through_take {steps : List Step} (h : c.through steps = .ok c') (n : Nat) :
    ∃ between, c.through (steps.take n) = .ok between := by
  rw [← List.take_append_drop n steps, through_append] at h
  cases hfirst : c.through (steps.take n) with
  | ok between => exact ⟨between, rfl⟩
  | error fault =>
    rw [hfirst] at h
    exact nomatch h

lemma remove_eq_ok : c.remove h = .ok c' ↔
    c.headers.length ≠ 1 ∧ c.tip.hash = h.hash ∧ c'.headers = c.headers.dropLast := by
  unfold remove
  split
  next single => simp [single]
  next above =>
    split
    next same =>
      constructor
      · intro heq
        cases heq
        exact ⟨above, same, rfl⟩
      · rintro ⟨-, -, heq⟩
        exact congrArg Except.ok (ext_headers heq.symm)
    next other => simp [other]

/-- Steps that lead from one chain to another, each of which takes off the very tip or puts on the
header of the chain that follows. -/
inductive Leads : Chain → List Step → Chain → Prop
  | here (c : Chain) : Leads c [] c
  | down {c below last : Chain} {h : ChainedHeader} {steps : List Step}
      (shrunk : c.headers = below.headers ++ [h]) (rest : Leads below steps last) :
      Leads c (⟨.backward, h⟩ :: steps) last
  | up {c above last : Chain} {h : ChainedHeader} {steps : List Step}
      (grown : above.headers = c.headers ++ [h]) (rest : Leads above steps last) :
      Leads c (⟨.forward, h⟩ :: steps) last

lemma Leads.append {xs ys : List Step} (first : Leads a xs b) (second : Leads b ys c) :
    Leads a (xs ++ ys) c := by
  induction first with
  | here => exact second
  | down shrunk _ ih => exact .down shrunk (ih second)
  | up grown _ ih => exact .up grown (ih second)

lemma apply_down (shrunk : c.headers = c'.headers ++ [h]) :
    Step.apply ⟨.backward, h⟩ c = .ok c' := by
  have hpos := c'.length_pos
  have hlength : c.headers.length ≠ 1 := by
    rw [shrunk, List.length_append, List.length_singleton]
    omega
  have hremove : c.remove h = .ok c' :=
    remove_eq_ok.2 ⟨hlength, by rw [tip_of_grown shrunk], by rw [shrunk, List.dropLast_concat]⟩
  exact hremove

lemma apply_up (grown : c'.headers = c.headers ++ [h]) : Step.apply ⟨.forward, h⟩ c = .ok c' := by
  have hadd : c.add h = .ok c' := add_eq_ok.2 ⟨extends_of_grown grown, grown⟩
  exact hadd

/-- Such steps are accepted one after the other. -/
lemma Leads.through {steps : List Step} (h : Leads c steps c') : c.through steps = .ok c' := by
  induction h with
  | here => rfl
  | down shrunk _ ih =>
    rw [Chain.through, apply_down shrunk]
    exact ih
  | up grown _ ih =>
    rw [Chain.through, apply_up grown]
    exact ih

/-- Down from the tip of the source to height `f`, and from there up to the tip of the target. -/
def route (source target : Chain) (f : Nat) : List Step :=
  (source.headers.drop (f + 1)).reverse.map (⟨.backward, ·⟩) ++
    (target.headers.drop (f + 1)).map (⟨.forward, ·⟩)

lemma length_route {f : Nat} : (route source target f).length =
    (source.headers.length - (f + 1)) + (target.headers.length - (f + 1)) := by
  simp [route]

/-- The way down leaves the lowest `k` headers. -/
lemma leads_down {k : Nat} (hk : 0 < k) (hle : k ≤ c.headers.length) :
    ∃ c', Leads c ((c.headers.drop k).reverse.map (⟨.backward, ·⟩)) c' ∧
      c'.headers = c.headers.take k := by
  induction hn : c.headers.length - k generalizing c with
  | zero =>
    have hfull : c.headers.length ≤ k := by omega
    rw [List.drop_eq_nil_of_le hfull, List.take_of_length_le hfull]
    exact ⟨c, .here c, rfl⟩
  | succ n ih =>
    have habove : c.headers.length ≠ 1 := by omega
    obtain ⟨below, hremove, hbelow⟩ := remove_tip_eq_ok (height_ne_zero_iff.2 habove)
    have hlength : below.headers.length = c.headers.length - 1 := by
      rw [hbelow, List.length_dropLast]
    obtain ⟨c', leads, htake⟩ := ih (c := below) (by omega) (by omega)
    have hsplit : c.headers = below.headers ++ [c.tip] := by
      rw [hbelow]
      exact (List.dropLast_append_getLast c.nonempty).symm
    refine ⟨c', ?_, ?_⟩
    · rw [hsplit, List.drop_append_of_le_length (by omega), List.reverse_append,
        List.reverse_singleton, List.map_append, List.map_singleton, List.singleton_append]
      exact .down hsplit leads
    · rw [htake, hsplit, List.take_append_of_le_length (by omega)]

/-- A chain whose tip has the name of the target's header below `n` takes the target's headers from
`n` on. -/
lemma leads_up {n : Nat} (hc : c.headers.length = n)
    (htip : ∀ i (hi : i < target.headers.length), i + 1 = n → c.tip.hash = target.headers[i].hash) :
    ∃ c', Leads c ((target.headers.drop n).map (⟨.forward, ·⟩)) c' ∧
      c'.headers = c.headers ++ target.headers.drop n := by
  -- on what is left of the target: the chain takes one header more at each step
  induction hk : target.headers.length - n generalizing n c with
  | zero =>
    rw [List.drop_eq_nil_of_le (by omega)]
    exact ⟨c, .here c, (List.append_nil _).symm⟩
  | succ k ih =>
    have hn : n < target.headers.length := by omega
    have hpos := c.length_pos
    have hextends : target.headers[n].Extends c.tip := by
      obtain ⟨i, rfl⟩ : ∃ i, n = i + 1 := ⟨n - 1, by omega⟩
      constructor
      · have hheight : c.tip.height.toInt = _ := c.toInt_height
        rw [target.heights (i + 1) hn, hheight, hc]
        omega
      · rw [target.linked i hn, htip i (by omega) rfl]
    obtain ⟨grown, hgrown⟩ : ∃ grown, c.add target.headers[n] = .ok grown := by
      unfold add
      rw [dif_pos hextends]
      exact ⟨_, rfl⟩
    have hheaders := (add_eq_ok.1 hgrown).2
    obtain ⟨c', leads, hc'⟩ := ih (n := n + 1) (c := grown) (by simp [hheaders, hc])
      (fun i hi heq => by
        obtain rfl : i = n := by omega
        rw [tip_of_grown hheaders]) (by omega)
    rw [List.drop_eq_getElem_cons hn, List.map_cons]
    refine ⟨c', .up hheaders leads, ?_⟩
    rw [hc', hheaders, List.append_assoc, List.singleton_append]

/-- The whole way is taken, and ends in the source up to the fork below the target's rest. -/
lemma leads_route {f : Nat} (shared : SharedAt source target f) :
    ∃ last, Leads source (route source target f) last ∧
      last.headers = source.headers.take (f + 1) ++ target.headers.drop (f + 1) := by
  obtain ⟨hf, -⟩ := shared.lt_length
  obtain ⟨low, down, hlow⟩ := source.leads_down (Nat.succ_pos f) hf
  have hlength : low.headers.length = f + 1 := by
    rw [hlow, List.length_take]
    omega
  have htip (i : Nat) (hi : i < target.headers.length) (heq : i + 1 = f + 1) :
      low.tip.hash = target.headers[i].hash := by
    obtain rfl : i = f := by omega
    obtain ⟨x, y, hx, hy, same⟩ := sharedAt_iff.1 shared
    obtain ⟨_, rfl⟩ := List.getElem?_eq_some_iff.1 hx
    obtain ⟨_, rfl⟩ := List.getElem?_eq_some_iff.1 hy
    rw [low.tip_eq_getElem (by omega) hlength.symm, ← same]
    simp only [hlow, List.getElem_take]
  obtain ⟨last, up, hlast⟩ := leads_up hlength htip
  exact ⟨last, down.append up, by rw [hlast, hlow]⟩

lemma through_route {f : Nat} (shared : SharedAt source target f) :
    ∃ last, source.through (route source target f) = .ok last ∧
      last.headers = source.headers.take (f + 1) ++ target.headers.drop (f + 1) := by
  obtain ⟨last, leads, hlast⟩ := leads_route shared
  exact ⟨last, leads.through, hlast⟩

/-- Steps that lead to the target undo all of the chain above some common beginning and add all of
the target above it. -/
lemma distance_le {steps : List Step} (h : c.through steps = .ok target) :
    ∃ m, c.headers.take m = target.headers.take m ∧ m ≤ c.headers.length ∧
      m ≤ target.headers.length ∧
      (c.headers.length - m) + (target.headers.length - m) ≤ steps.length := by
  induction steps generalizing c with
  | nil =>
    cases h
    exact ⟨target.headers.length, rfl, le_rfl, le_rfl, by omega⟩
  | cons s steps ih =>
    rw [through] at h
    cases hs : s.apply c with
    | error fault =>
      rw [hs] at h
      exact nomatch h
    | ok c' =>
      rw [hs] at h
      obtain ⟨m, hsame, hm, hmt, hle⟩ := ih h
      rw [List.length_cons]
      obtain ⟨direction, header⟩ := s
      cases direction with
      | backward =>
        obtain ⟨-, -, hheaders⟩ := remove_eq_ok.1 hs
        have hlength : c'.headers.length = c.headers.length - 1 := by
          rw [hheaders, List.length_dropLast]
        refine ⟨m, ?_, by omega, hmt, by omega⟩
        rw [← hsame, hheaders, List.dropLast_eq_take, List.take_take, min_eq_left (by omega)]
      | forward =>
        obtain ⟨-, hheaders⟩ := add_eq_ok.1 hs
        have hlength : c'.headers.length = c.headers.length + 1 := by
          rw [hheaders, List.length_append, List.length_singleton]
        rw [hheaders] at hsame
        rcases Nat.lt_or_ge c.headers.length m with hlt | hge
        · -- the header that this step brings was already one of the target's
          refine ⟨c.headers.length, ?_, le_rfl, by omega, by omega⟩
          have hcut := congrArg (List.take c.headers.length) hsame
          rw [List.take_take, List.take_take, min_eq_left hlt.le,
            List.take_append_of_le_length le_rfl] at hcut
          exact hcut
        · refine ⟨m, ?_, hge, hmt, by omega⟩
          rw [← hsame, List.take_append_of_le_length hge]

/-- No accepted steps between two chains are fewer than those of the way by their fork. -/
lemma length_route_le {f : Nat} (greatest : ∀ n, SharedAt source target n → n ≤ f)
    {steps : List Step} (h : source.through steps = .ok target) :
    (route source target f).length ≤ steps.length := by
  obtain ⟨m, hsame, hm, hmt, hle⟩ := distance_le h
  rw [length_route]
  suffices m ≤ f + 1 by omega
  cases m with
  | zero => exact Nat.zero_le _
  | succ n =>
    have hget : source.headers[n]? = target.headers[n]? := by
      have hcut := congrArg (·[n]?) hsame
      simpa using hcut
    have hn : source.headers[n]? = some source.headers[n] := List.getElem?_eq_getElem hm
    exact Nat.succ_le_succ (greatest n (sharedAt_iff.2 ⟨_, _, hn, hget ▸ hn, rfl⟩))

/-- Each step with the number of steps from it to the end. -/
def countdown : List Step → List (Nat × Step)
  | [] => []
  | s :: rest => (rest.length + 1, s) :: countdown rest

lemma map_snd_countdown (steps : List Step) : (countdown steps).map Prod.snd = steps := by
  induction steps with
  | nil => rfl
  | cons s rest ih => rw [countdown, List.map_cons, ih]

lemma length_countdown (steps : List Step) : (countdown steps).length = steps.length := by
  rw [← List.length_map Prod.snd, map_snd_countdown]

namespace Path

/-- What is left of a path. -/
def rest (p : Path) : List Step :=
  ((p.source.headers.take (p.nextRemoval + 1)).drop (p.fork + 1)).reverse.map (⟨.backward, ·⟩) ++
    (p.target.headers.drop p.nextAddition).map (⟨.forward, ·⟩)

/-- The next header to remove is one of the source's. -/
def Placed (p : Path) : Prop := p.nextRemoval < p.source.headers.length

lemma remaining_eq {p : Path} (placed : p.Placed) : p.remaining = p.rest.length := by
  have hp : p.nextRemoval < p.source.headers.length := placed
  simp only [remaining, rest, Chain.length, List.length_append, List.length_map,
    List.length_reverse, List.length_drop, List.length_take]
  omega

/-- `next?` takes the head off what is left. -/
lemma next?_spec {p : Path} (placed : p.Placed) :
    (p.next? = none ∧ p.rest = []) ∨
      ∃ s q, p.next? = some (s, q) ∧ p.rest = s :: q.rest ∧ q.Placed := by
  have hp : p.nextRemoval < p.source.headers.length := placed
  unfold next?
  split
  next hdown =>
    refine .inr ⟨⟨.backward, p.source.headers[p.nextRemoval]⟩,
      { p with nextRemoval := p.nextRemoval - 1 }, ?_, ?_, ?_⟩
    · rw [List.getElem?_eq_getElem hp]
      rfl
    · obtain ⟨k, hk⟩ : ∃ k, p.nextRemoval = k + 1 := ⟨p.nextRemoval - 1, by omega⟩
      simp only [rest, hk, Nat.add_sub_cancel]
      rw [List.take_add_one (i := k + 1), List.drop_append_of_le_length (by
        rw [List.length_take]; omega), List.getElem?_eq_getElem (by omega), Option.toList_some,
        List.reverse_append, List.reverse_singleton, List.map_append, List.map_singleton,
        List.singleton_append, List.cons_append]
    · exact Nat.lt_of_le_of_lt (Nat.sub_le _ _) hp
  next hbottom =>
    have hnone : (p.source.headers.take (p.nextRemoval + 1)).drop (p.fork + 1) = [] :=
      List.drop_eq_nil_of_le (by rw [List.length_take]; omega)
    split
    next hup =>
      refine .inr ⟨⟨.forward, p.target.headers[p.nextAddition]⟩,
        { p with nextAddition := p.nextAddition + 1 }, ?_, ?_, hp⟩
      · rw [List.getElem?_eq_getElem hup]
        rfl
      · simp only [rest, hnone]
        rw [List.drop_eq_getElem_cons hup]
        rfl
    next htop =>
      refine .inl ⟨rfl, ?_⟩
      rw [rest, hnone, List.drop_eq_nil_of_le (Nat.le_of_not_lt htop)]
      rfl

/-- A walk goes through what is left in order, and each number that it reports is exact. -/
lemma walk_eq {p : Path} (placed : p.Placed) (n : Nat) :
    walk n p = ((countdown p.rest).take n, p.rest.length - n) := by
  induction n generalizing p with
  | zero => rw [walk, remaining_eq placed, List.take_zero, Nat.sub_zero]
  | succ n ih =>
    rw [walk, remaining_eq placed]
    rcases next?_spec placed with ⟨hnext, hrest⟩ | ⟨s, q, hnext, hrest, hq⟩
    · simp only [hnext, hrest, countdown, List.take_nil, List.length_nil, Nat.zero_sub]
    · simp only [hnext, hrest, ih hq, countdown, List.take_succ_cons, List.length_cons,
        Nat.add_sub_add_right]

/-- Looking ahead by the length of both chains reaches the end. -/
lemma steps_eq {p : Path} (placed : p.Placed) : p.steps = p.rest := by
  have hlength : (countdown p.rest).length ≤ p.source.length + p.target.length := by
    rw [length_countdown, ← remaining_eq placed, remaining, Chain.length, Chain.length]
    have hp : p.nextRemoval < p.source.headers.length := placed
    omega
  rw [steps, walk_eq placed, List.take_of_length_le hlength, map_snd_countdown]

/-- A path exists exactly between chains that meet; it starts with the whole way by their highest
common height. -/
lemma between_spec (source target : Chain) :
    match between source target with
    | .error e => e = .noCommonAncestor source.genesis.hash target.genesis.hash ∧
        ∀ n, ¬ SharedAt source target n
    | .ok path => ∃ f, SharedAt source target f ∧ (∀ n, SharedAt source target n → n ≤ f) ∧
        source.headers[f]? = some path.ancestor ∧ path.source = source ∧ path.target = target ∧
        path.Placed ∧ path.rest = route source target f := by
  have hbound {n : Nat} (shared : SharedAt source target n) :
      n ≤ min (source.length - 1) (target.length - 1) := by
    obtain ⟨hs, ht⟩ := shared.lt_length
    exact Nat.le_min.2 ⟨Nat.le_sub_one_of_lt hs, Nat.le_sub_one_of_lt ht⟩
  unfold between
  cases hfork : source.fork? target (min (source.length - 1) (target.length - 1)) with
  | none =>
    simp only [hfork]
    exact ⟨trivial, fun n shared => fork?_eq_none hfork (hbound shared) shared⟩
  | some f =>
    obtain ⟨shared, greatest⟩ := fork?_eq_some hfork
    obtain ⟨hf, -⟩ := shared.lt_length
    have hpos := source.length_pos
    simp only [hfork, List.getElem?_eq_getElem hf]
    refine ⟨f, shared, fun n hn => greatest n (hbound hn) hn, List.getElem?_eq_getElem hf, trivial,
      trivial, ?_, ?_⟩
    · exact Nat.sub_lt hpos Nat.one_pos
    · rw [rest, route, Chain.length, Nat.sub_add_cancel hpos, List.take_length]

end Path

/-- There is a path between two chains exactly when they hold one hash at one height. With `f` the
greatest such height it yields the headers of the source above `f` downwards and then those of the
target above `f` upwards, and the number of steps that it reports is exact throughout. Every step is
accepted where it is taken; the way ends in the source up to `f` and the target above `f`. Where the
chains are equal up to `f` that is the target, and no accepted steps to it are fewer. -/
theorem between_route (source target : Chain) :
    match Path.between source target with
    | .error e => e = .noCommonAncestor source.genesis.hash target.genesis.hash ∧
        ∀ n, ¬ SharedAt source target n
    | .ok path => ∃ f, SharedAt source target f ∧ (∀ n, SharedAt source target n → n ≤ f) ∧
        source.headers[f]? = some path.ancestor ∧
        path.steps = route source target f ∧
        (∀ n, path.walk n = ((countdown (route source target f)).take n,
          (route source target f).length - n)) ∧
        (∀ n, ∃ c, source.through ((route source target f).take n) = .ok c ∧
          ofHeaders c.headers = .ok c) ∧
        ∃ last, source.through (route source target f) = .ok last ∧
          last.headers = source.headers.take (f + 1) ++ target.headers.drop (f + 1) ∧
          (source.headers.take (f + 1) = target.headers.take (f + 1) → last = target ∧
            ∀ steps, source.through steps = .ok target →
              (route source target f).length ≤ steps.length) := by
  have hspec := Path.between_spec source target
  cases hbetween : Path.between source target with
  | error e =>
    rw [hbetween] at hspec
    exact hspec
  | ok path =>
    rw [hbetween] at hspec
    obtain ⟨f, shared, greatest, hancestor, -, -, placed, hrest⟩ := hspec
    obtain ⟨last, hthrough, hlast⟩ := through_route shared
    have hwalk (n : Nat) := Path.walk_eq placed n
    rw [hrest] at hwalk
    refine ⟨f, shared, greatest, hancestor, ?_, hwalk, fun n => ?_, last, hthrough, hlast,
      fun agree => ⟨?_, fun steps => length_route_le greatest⟩⟩
    · rw [Path.steps_eq placed, hrest]
    · obtain ⟨c, hc⟩ := through_take hthrough n
      exact ⟨c, hc, ofHeaders_headers c⟩
    · exact ext_headers (by rw [hlast, agree, List.take_append_drop])

/-- A header named `name` at height `height` above the header named `prev`. -/
def markedHeader (name prev : UInt8) (height : Height) : ChainedHeader :=
  ⟨⟨1, ⟨List.replicate 32 prev, List.length_replicate⟩, .zero, 0, 0, 0⟩,
    ⟨List.replicate 32 name, List.length_replicate⟩, height, .zero⟩

/-- Two headers above genesis. -/
def leftBranch : Chain where
  headers := [markedHeader 1 0 0, markedHeader 2 1 1, markedHeader 3 2 2]
  nonempty := by decide
  heights := by decide
  linked := linkFault?_eq_none_iff.1 rfl

/-- One other header above the same genesis. -/
def rightBranch : Chain where
  headers := [markedHeader 1 0 0, markedHeader 4 1 1]
  nonempty := by decide
  heights := by decide
  linked := linkFault?_eq_none_iff.1 rfl

theorem between_route_branches : ∃ path, Path.between leftBranch rightBranch = .ok path ∧
    path.steps = [⟨.backward, markedHeader 3 2 2⟩, ⟨.backward, markedHeader 2 1 1⟩,
      ⟨.forward, markedHeader 4 1 1⟩] ∧
    ∀ steps, leftBranch.through steps = .ok rightBranch → 3 ≤ steps.length := by
  have hroute := between_route leftBranch rightBranch
  have root : SharedAt leftBranch rightBranch 0 := agreeAt_iff.1 (by decide)
  cases hbetween : Path.between leftBranch rightBranch with
  | error e =>
    rw [hbetween] at hroute
    exact absurd root (hroute.2 0)
  | ok path =>
    rw [hbetween] at hroute
    obtain ⟨f, shared, -, -, hsteps, -, -, last, -, -, hshortest⟩ := hroute
    obtain rfl : f = 0 := by
      have hlt : f < 2 := shared.lt_length.2
      have hne : f ≠ 1 := by
        rintro rfl
        exact absurd (agreeAt_iff.2 shared) (by decide)
      omega
    exact ⟨path, rfl, hsteps, (hshortest rfl).2⟩

end UtxoLedger.Chain

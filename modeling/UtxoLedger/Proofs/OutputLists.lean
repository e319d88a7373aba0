import Mathlib.Data.List.Basic
import Mathlib.Tactic.Common
import UtxoLedger.Proofs.CanonicalForms
import UtxoLedger.Proofs.OutputFlags

/-!
# Output states as a list

Packed output states stand for a list that has one entry for each output. Entries are read and
written bit by bit, counted and compared byte by byte. The bits behind the last entry are always
clear, so both views are views of the list, and bytes are accepted exactly if they pack one.
-/
namespace UtxoLedger.OutputStates

variable {s s' : OutputStates} {i n : Nat} {v : OutputState}

lemma toList_eq (s : OutputStates) :
    s.toList = (List.range s.size).map fun i => .ofBit (s.packed.bitAt i) := by
  have hle : s.size ≤ 8 * s.packed.length := by
    rw [s.length_packed]
    omega
  simp [toList, Bytes.flatMap_bits, ← List.map_take, List.take_range, hle]

@[simp] lemma length_toList (s : OutputStates) : s.toList.length = s.size := by simp [toList_eq]

@[simp] lemma getElem?_toList (s : OutputStates) (i : Nat) : s.toList[i]? = s.get? i := by
  by_cases hi : i < s.size <;> simp [toList_eq, get?, hi]

lemma toList_inj : s.toList = s'.toList ↔ s = s' := by
  constructor
  · intro h
    have hsize : s.size = s'.size := by rw [← length_toList, h, length_toList]
    exact ext_get? hsize fun i _ => by rw [← getElem?_toList, h, getElem?_toList]
  · exact congrArg toList

/-- A walk along the outputs meets every state. -/
lemma filterMap_get? (s : OutputStates) : (List.range s.size).filterMap s.get? = s.toList := by
  rw [toList_eq, List.filterMap_eq_map_iff_forall_eq_some]
  intro i hi
  simp [get?, List.mem_range.1 hi]

lemma bitAt_eq_true : s.packed.bitAt i = true ↔ s.toList[i]? = some .unspent := by
  rw [getElem?_toList]
  by_cases hi : i < s.size
  · simp [get?_eq_some_iff hi, OutputState.bit]
  · simp [get?, hi, s.padding_clear i (by omega)]

lemma unspentCount_eq_count (s : OutputStates) : s.unspentCount = s.toList.count .unspent := by
  rw [unspentCount_eq, toList_eq, List.count_eq_countP, List.countP_map]
  apply List.countP_congr
  intro i _
  rw [Function.comp_apply]
  cases s.packed.bitAt i <;> decide

lemma allSpent_iff_forall : s.allSpent = true ↔ ∀ v ∈ s.toList, v = .spent := by
  rw [allSpent, decide_eq_true_iff, unspentCount_eq_count, List.count_eq_zero]
  constructor
  · intro absent v hv
    cases v with
    | unspent => exact absurd hv absent
    | spent => rfl
  · intro all hmem
    exact absurd (all .unspent hmem) (by decide)

lemma allUnspent_iff_forall : s.allUnspent = true ↔ ∀ v ∈ s.toList, v = .unspent := by
  rw [allUnspent, decide_eq_true_iff, unspentCount_eq_count, ← length_toList,
    List.count_eq_length]
  exact forall₂_congr fun v _ => eq_comm

lemma toList_filled (n : Nat) (v : OutputState) : (filled n v).toList = List.replicate n v := by
  apply List.ext_getElem?
  intro i
  rw [getElem?_toList]
  by_cases hi : i < n
  · simp [get?_filled hi, hi]
  · simp [get?, hi]

lemma toList_set? (h : s.set? i v = some s') : s'.toList = s.toList.set i v := by
  obtain ⟨hi, hsize, hs'⟩ := set?_eq_some h
  apply List.ext_getElem?
  intro j
  rw [getElem?_toList, List.getElem?_set, length_toList, getElem?_toList]
  by_cases hji : j = i
  · subst hji
    simp [hs' j hi, hi]
  · rw [if_neg (Ne.symm hji)]
    by_cases hj : j < s.size
    · rw [hs' j hj, if_neg hji]
    · simp [get?, hsize, hj]

lemma set?_eq_none : s.set? i v = none ↔ s.size ≤ i := by
  simp [set?]

/-- The states once `v` was asked for at output `i`; a refusal changes nothing. -/
def put (s : OutputStates) (i : Nat) (v : OutputState) : OutputStates := (s.set? i v).getD s

/-- The states once all of this was asked for, in order. -/
def putAll (s : OutputStates) (calls : List (Nat × OutputState)) : OutputStates :=
  calls.foldl (fun s c => s.put c.1 c.2) s

/-- Behind the end a list is not changed either. -/
lemma toList_put (s : OutputStates) (i : Nat) (v : OutputState) :
    (s.put i v).toList = s.toList.set i v := by
  cases h : s.set? i v with
  | some s' => simpa [put, h] using toList_set? h
  | none => simp [put, h, List.set_eq_of_length_le, set?_eq_none.1 h]

lemma toList_putAll (s : OutputStates) (calls : List (Nat × OutputState)) :
    (s.putAll calls).toList = calls.foldl (fun l c => l.set c.1 c.2) s.toList :=
  (List.foldl_hom toList fun s c => (toList_put s c.1 c.2).symm).symm

@[simp] lemma size_put (s : OutputStates) (i : Nat) (v : OutputState) :
    (s.put i v).size = s.size := by
  rw [← length_toList, toList_put, List.length_set, length_toList]

@[simp] lemma size_putAll (s : OutputStates) (calls : List (Nat × OutputState)) :
    (s.putAll calls).size = s.size := by
  induction calls generalizing s with
  | nil => rfl
  | cons call calls ih =>
    have hrest := ih (s.put call.1 call.2)
    rwa [size_put] at hrest

/-- States of `n` outputs that were all put into one state or accepted as bytes, whatever was asked
for since then. -/
def Made (n : Nat) (s : OutputStates) : Prop :=
  ∃ start calls, ((∃ v, start = filled n v) ∨ ∃ packed, ofPacked? n packed = some start) ∧
    start.putAll calls = s

lemma made_iff : Made n s ↔ s.size = n := by
  constructor
  · rintro ⟨start, calls, ⟨v, rfl⟩ | ⟨packed, accepted⟩, rfl⟩
    · simp
    · simp [(ofPacked?_eq_some.1 accepted).1]
  · intro hsize
    exact ⟨s, [], .inr ⟨s.packed, ofPacked?_eq_some.2 ⟨hsize, rfl⟩⟩, rfl⟩

/-- The states are a list with `n` entries. -/
structure ActsAsList (n : Nat) (s : OutputStates) : Prop where
  size : s.size = n
  length : s.toList.length = n
  /-- Reading an output reads the entry, and fails behind the last one. -/
  get : ∀ i, s.get? i = s.toList[i]?
  /-- A walk along the outputs meets the entries in order. -/
  walk : (List.range n).filterMap s.get? = s.toList
  /-- Writing an output is granted and changes its entry alone. -/
  set : ∀ i v, i < n → ∃ s', s.set? i v = some s' ∧ Made n s' ∧ s'.toList = s.toList.set i v
  /-- Nothing is written behind the last output. -/
  refuses : ∀ i v, n ≤ i → s.set? i v = none
  /-- Writes one after the other, refused ones among them, are writes to the list. -/
  changes : ∀ calls, Made n (s.putAll calls) ∧
    (s.putAll calls).toList = calls.foldl (fun l c => l.set c.1 c.2) s.toList
  unspentCount : s.unspentCount = s.toList.count .unspent
  allSpent : s.allSpent = true ↔ ∀ v ∈ s.toList, v = .spent
  allUnspent : s.allUnspent = true ↔ ∀ v ∈ s.toList, v = .unspent
  /-- The bytes hold a bit for each entry, set where it is unspent, and no other set bit. -/
  bytes : s.packed.length = (n + 7) / 8 ∧
    ∀ i, s.packed.bitAt i = true ↔ s.toList[i]? = some .unspent

lemma actsAsList (s : OutputStates) : s.ActsAsList s.size where
  size := rfl
  length := length_toList s
  get i := (getElem?_toList s i).symm
  walk := filterMap_get? s
  set i v hi := by
    obtain ⟨s', hset⟩ := exists_set? hi v
    exact ⟨s', hset, made_iff.2 (set?_eq_some hset).2.1, toList_set? hset⟩
  refuses i v hi := set?_eq_none.2 hi
  changes calls := ⟨made_iff.2 (size_putAll s calls), toList_putAll s calls⟩
  unspentCount := unspentCount_eq_count s
  allSpent := allSpent_iff_forall
  allUnspent := allUnspent_iff_forall
  bytes := ⟨s.length_packed, fun _ => bitAt_eq_true⟩

/-- However states of `n` outputs were made, they behave as a list with `n` entries, all alike right
after they were filled. States are equal exactly if their lists are, and the bytes that are accepted
are those of such states, which come back. -/
theorem states_act_as_list (n : Nat) :
    (∀ s, Made n s → s.ActsAsList n) ∧
    (∀ v, (filled n v).toList = List.replicate n v) ∧
    (∀ m s s', Made n s → Made m s' → (s = s' ↔ s.toList = s'.toList)) ∧
    (∀ packed s, ofPacked? n packed = some s ↔ Made n s ∧ s.packed = packed) := by
  refine ⟨fun s made => ?_, toList_filled n, fun _ _ _ _ _ => toList_inj.symm, fun packed s => ?_⟩
  · obtain rfl := made_iff.1 made
    exact s.actsAsList
  · rw [made_iff, ofPacked?_eq_some]

/-- The second of three outputs is spent; there is no fourth one to spend. -/
def threeOutputs : OutputStates := (filled 3 .unspent).putAll [(1, .spent), (3, .spent)]

theorem states_act_as_list_three : Made 3 threeOutputs ∧
    threeOutputs.toList = [.unspent, .spent, .unspent] ∧ threeOutputs.unspentCount = 2 ∧
    threeOutputs.set? 3 .spent = none ∧ ofPacked? 3 [5] = some threeOutputs := by
  have made : Made 3 threeOutputs := ⟨_, _, .inl ⟨.unspent, rfl⟩, rfl⟩
  obtain ⟨acts, alike, -, accepted⟩ := states_act_as_list 3
  have start : Made 3 (filled 3 .unspent) := made_iff.2 rfl
  have hlist : threeOutputs.toList = [.unspent, .spent, .unspent] := by
    rw [threeOutputs, ((acts _ start).changes _).2, alike]
    rfl
  have hcount : threeOutputs.unspentCount = 2 := by
    rw [(acts _ made).unspentCount, hlist]
    rfl
  have hrefused := (acts _ made).refuses 3 .spent (Nat.le_refl 3)
  exact ⟨made, hlist, hcount, hrefused, (accepted [5] _).2 ⟨made, by decide⟩⟩

end UtxoLedger.OutputStates

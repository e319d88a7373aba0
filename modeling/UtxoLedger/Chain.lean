import UtxoLedger.LedgerError

/-!
# Chains of headers

A chain is a list of chained headers from genesis to tip. Each header stands at the height of its
position and names the header below it; a chain is never empty. It grows and shrinks at the tip.
-/
namespace UtxoLedger

namespace ChainedHeader

/-- `h` stands one above `tip` and names it as predecessor. Heights are compared as integers; in
four bytes, one above the height 2^31 - 1 would run over. -/
def Extends (h tip : ChainedHeader) : Prop :=
  h.height.toInt = tip.height.toInt + 1 ∧ h.prev = tip.hash

instance (h tip : ChainedHeader) : Decidable (h.Extends tip) :=
  inferInstanceAs (Decidable (_ ∧ _))

/-- Chains a header onto the parent that it names. -/
def onto (parent : ChainedHeader) (h : BlockHeader) : Except ChainFault ChainedHeader :=
  if h.prev = parent.hash then .ok (parent.above h)
  else .error (.otherParent h.hash parent.hash)

end ChainedHeader

/-- Headers from genesis to tip. -/
structure Chain where
  headers : List ChainedHeader
  nonempty : headers ≠ []
  heights : ∀ (i : Nat) (_ : i < headers.length), headers[i].height.toInt = i
  linked : ∀ (i : Nat) (_ : i + 1 < headers.length), headers[i + 1].prev = headers[i].hash
  deriving DecidableEq

namespace Chain

theorem ext_headers {a b : Chain} (h : a.headers = b.headers) : a = b := by
  cases a; cases b; simp_all

/-- The first header, counted from position `i`, that is not at the height of its position. -/
def heightFault? : Nat → List ChainedHeader → Option ChainFault
  | _, [] => none
  | i, h :: hs =>
    if h.height.toInt = i then heightFault? (i + 1) hs
    else some (.wrongHeight h.hash i h.height)

/-- The first header that does not name the one below it. -/
def linkFault? : List ChainedHeader → Option ChainFault
  | a :: b :: rest =>
    if b.prev = a.hash then linkFault? (b :: rest)
    else some (.unlinked b.hash b.height a.hash)
  | _ => none

theorem heightFault?_eq_none_iff {i : Nat} {hs : List ChainedHeader} :
    heightFault? i hs = none ↔
      ∀ (j : Nat) (_ : j < hs.length), hs[j].height.toInt = (i + j : Nat) := by
  induction hs generalizing i with
  | nil => simp [heightFault?]
  | cons h hs ih =>
    by_cases hh : h.height.toInt = i
    · simp only [heightFault?, hh, if_true, ih]
      constructor
      · intro H j hj
        cases j with
        | zero => simpa using hh
        | succ j =>
          have := H j (by simpa using hj)
          rw [List.getElem_cons_succ, this]
          omega
      · intro H j hj
        have := H (j + 1) (by simpa using hj)
        rw [List.getElem_cons_succ] at this
        rw [this]
        omega
    · simp only [heightFault?, hh, if_false, reduceCtorEq, false_iff]
      intro H
      have h0 := H 0 (by simp)
      rw [List.getElem_cons_zero] at h0
      exact hh (by simpa using h0)

theorem linkFault?_eq_none_iff {hs : List ChainedHeader} :
    linkFault? hs = none ↔
      ∀ (j : Nat) (_ : j + 1 < hs.length), hs[j + 1].prev = hs[j].hash := by
  fun_induction linkFault? hs with
  | case1 a b rest h ih =>
    rw [ih]
    constructor
    · intro H j hj
      cases j with
      | zero => exact h
      | succ j => exact H j (by simpa using hj)
    · intro H j hj
      exact H (j + 1) (by simpa using hj)
  | case2 a b rest h =>
    simp only [reduceCtorEq, false_iff]
    intro H
    exact h (H 0 (by simp))
  | case3 hs hne =>
    match hs, hne with
    | [], _ => simp
    | [_], _ => simp
    | a :: b :: rest, hne => exact absurd rfl (hne a b rest)

/-- Accepts a list of headers that form a chain; wrong heights are found before wrong links. -/
def ofHeaders (hs : List ChainedHeader) : Except ChainFault Chain :=
  if hn : hs = [] then .error .noGenesis
  else match hh : heightFault? 0 hs with
    | some fault => .error fault
    | none => match hl : linkFault? hs with
      | some fault => .error fault
      | none => .ok ⟨hs, hn,
          fun i hi => by simpa using heightFault?_eq_none_iff.1 hh i hi,
          linkFault?_eq_none_iff.1 hl⟩

/-- The chain of a genesis header alone. -/
def ofGenesis (h : ChainedHeader) : Except ChainFault Chain := ofHeaders [h]

def genesis (c : Chain) : ChainedHeader := c.headers.head c.nonempty

def tip (c : Chain) : ChainedHeader := c.headers.getLast c.nonempty

/-- The height of the tip. -/
def height (c : Chain) : Height := c.tip.height

def work (c : Chain) : Work := c.tip.work

/-- The number of headers, genesis included. -/
def length (c : Chain) : Nat := c.headers.length

theorem length_pos (c : Chain) : 0 < c.headers.length := List.length_pos_iff.2 c.nonempty

theorem tip_eq_getElem (c : Chain) {i : Nat} (hi : i < c.headers.length)
    (h : i + 1 = c.headers.length) : c.tip = c.headers[i] := by
  rw [tip, List.getLast_eq_getElem]
  congr 1
  omega

/-- The height of the tip is the number of headers above genesis. -/
theorem toInt_height (c : Chain) : c.height.toInt = (c.headers.length - 1 : Nat) := by
  have hp := c.length_pos
  have hi : c.headers.length - 1 < c.headers.length := by omega
  rw [height, c.tip_eq_getElem hi (by omega), c.heights _ hi]

/-- The header at a height, if the chain reaches it. -/
def get? (c : Chain) (h : Height) : Option ChainedHeader :=
  if 0 ≤ h.toInt then c.headers[h.toInt.toNat]? else none

/-- The chain holds the hash of `h` at the height of `h`. -/
def contains (c : Chain) (h : ChainedHeader) : Bool :=
  match c.get? h.height with
  | some stored => stored.hash = h.hash
  | none => false

/-- The header with a given name. -/
def find? (c : Chain) (hash : Hash) : Option ChainedHeader :=
  c.headers.find? fun h => h.hash = hash

/-- Puts `h` on top of the tip. -/
def add (c : Chain) (h : ChainedHeader) : Except ChainFault Chain :=
  if e : h.Extends c.tip then
    .ok {
      headers := c.headers ++ [h]
      nonempty := by simp
      heights := fun i hi => by
        by_cases hlt : i < c.headers.length
        · simpa [List.getElem_append_left hlt] using c.heights i hlt
        · have hi' : i = c.headers.length := by
            simp only [List.length_append, List.length_singleton] at hi
            omega
          have ht := c.toInt_height
          have hp := c.length_pos
          have hx := e.1
          rw [height] at ht
          simp only [hi', List.getElem_concat_length, hx, ht]
          omega
      linked := fun i hi => by
        by_cases hlt : i + 1 < c.headers.length
        · simpa [List.getElem_append_left hlt, List.getElem_append_left (Nat.lt_of_succ_lt hlt)]
            using c.linked i hlt
        · have hi' : i + 1 = c.headers.length := by
            simp only [List.length_append, List.length_singleton] at hi
            omega
          have hl : i < c.headers.length := by omega
          have ht := c.tip_eq_getElem hl hi'
          simp only [hi', List.getElem_concat_length, List.getElem_append_left hl, e.2, ht] }
  else .error (.notExtending h.hash h.height c.tip.hash c.tip.height)

/-- Takes the tip off, which must be `h`; the genesis header stays. -/
def remove (c : Chain) (h : ChainedHeader) : Except ChainFault Chain :=
  if hlen : c.headers.length = 1 then .error .genesisKept
  else if c.tip.hash = h.hash then
    .ok {
      headers := c.headers.dropLast
      nonempty := by
        have := c.length_pos
        rw [← List.length_pos_iff, List.length_dropLast]
        omega
      heights := fun i hi => by
        rw [List.getElem_dropLast]
        exact c.heights i (by rw [List.length_dropLast] at hi; omega)
      linked := fun i hi => by
        rw [List.getElem_dropLast, List.getElem_dropLast]
        exact c.linked i (by rw [List.length_dropLast] at hi; omega) }
  else .error (.notTip h.hash c.tip.hash)

/-- A candidate wins only by strictly more work. -/
def better (current candidate : Chain) : Bool := current.work.toNat < candidate.work.toNat

end Chain
end UtxoLedger

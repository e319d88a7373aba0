import Mathlib.Algebra.BigOperators.Group.List.Basic
import Mathlib.Tactic.Common
import UtxoLedger.Proofs.UndoneBlock

/-!
# The records of an unspent table

An unspent table is a list of records in the order of their keys. Whatever is counted or summed up
over the records does not depend on that order, so a change of the table is told as a permutation:
a record enters the list, leaves it, or is exchanged for another one. Within a record, the
positions of its unspent outputs do the same.
-/
namespace UtxoLedger

namespace OutputStates

variable {s s' : OutputStates} {i n : Nat}

/-- The positions of the unspent outputs. -/
def unspentIndices (s : OutputStates) : List Nat :=
  (List.range s.size).filter fun i => s.get? i = some .unspent

lemma get?_eq_none_of_le (h : s.size ≤ i) : s.get? i = none := by
  rw [get?, if_neg (by omega)]

lemma lt_size_of_get? {v : OutputState} (h : s.get? i = some v) : i < s.size := by
  by_contra hi
  rw [get?_eq_none_of_le (by omega)] at h
  exact nomatch h

@[simp] lemma mem_unspentIndices : i ∈ s.unspentIndices ↔ s.get? i = some .unspent := by
  rw [unspentIndices, List.mem_filter, List.mem_range, decide_eq_true_iff]
  exact ⟨fun h => h.2, fun h => ⟨lt_size_of_get? h, h⟩⟩

lemma nodup_unspentIndices (s : OutputStates) : s.unspentIndices.Nodup :=
  List.nodup_range.filter _

lemma length_unspentIndices (s : OutputStates) : s.unspentIndices.length = s.unspentCount := by
  rw [unspentCount_eq, unspentIndices, ← List.countP_eq_length_filter]
  refine List.countP_congr fun i hi => ?_
  rw [decide_eq_true_iff, get?_eq_some_iff (List.mem_range.1 hi)]
  rfl

lemma unspentIndices_filled (n : Nat) : (filled n .unspent).unspentIndices = List.range n := by
  rw [unspentIndices, size_filled]
  exact List.filter_eq_self.2 fun i hi => by simp [get?_filled (List.mem_range.1 hi)]

lemma allSpent_iff_unspentIndices : s.allSpent = true ↔ s.unspentIndices = [] := by
  rw [← List.length_eq_zero_iff, length_unspentIndices, allSpent, decide_eq_true_iff]

/-- Spending an output takes its position off the list. -/
lemma unspentIndices_set? (hget : s.get? i = some .unspent) (hset : s.set? i .spent = some s') :
    s.unspentIndices.Perm (i :: s'.unspentIndices) := by
  obtain ⟨hi, hsize, hs'⟩ := set?_eq_some hset
  have hgone : s'.get? i ≠ some .unspent := by
    rw [hs' i hi, if_pos rfl]
    exact fun h => nomatch h
  refine (List.perm_ext_iff_of_nodup s.nodup_unspentIndices
    (List.nodup_cons.2 ⟨by simpa using hgone, s'.nodup_unspentIndices⟩)).2 fun j => ?_
  rw [List.mem_cons, mem_unspentIndices, mem_unspentIndices]
  by_cases hji : j = i
  · simp [hji, hget]
  · by_cases hj : j < s.size
    · rw [hs' j hj, if_neg hji]
      simp [hji]
    · rw [get?_eq_none_of_le (by omega), get?_eq_none_of_le (by omega)]
      simp [hji]

end OutputStates

namespace Table

variable {U : Table} {k v bytes : Bytes} {u u' : UnspentTx}

lemma nodup_toList (U : Table) : U.toList.Nodup := by
  have hsorted : U.toList.Pairwise fun a b => compare a.1 b.1 = .lt :=
    Std.ExtTreeMap.ordered_keys_toList
  refine hsorted.imp fun {a b} hab heq => ?_
  rw [heq, Std.ReflOrd.compare_self] at hab
  exact nomatch hab

lemma toList_insert_perm (h : U[k]? = none) : (U.insert k v).toList.Perm ((k, v) :: U.toList) := by
  have hnew : (k, v) ∉ U.toList := fun hmem =>
    nomatch h.symm.trans (Std.ExtTreeMap.mem_toList_iff_getElem?_eq_some.1 hmem)
  refine (List.perm_ext_iff_of_nodup (nodup_toList _)
    (List.nodup_cons.2 ⟨hnew, U.nodup_toList⟩)).2 ?_
  rintro ⟨a, w⟩
  rw [List.mem_cons, Std.ExtTreeMap.mem_toList_iff_getElem?_eq_some,
    Std.ExtTreeMap.mem_toList_iff_getElem?_eq_some, getElem?_insert, Prod.mk.injEq]
  by_cases hka : k = a
  · subst hka
    simp [h, eq_comm]
  · simp [hka, Ne.symm hka]

lemma insert_erase (h : U[k]? = some v) : (U.erase k).insert k v = U := by
  apply Std.ExtTreeMap.ext_getElem?
  intro a
  rw [getElem?_insert]
  split
  next hk => rw [← hk, h]
  next hk => rw [getElem?_erase, if_neg hk]

/-- The records of an unspent table, in the order of their keys. -/
def records (U : Table) : List UnspentTx :=
  U.toList.filterMap fun e => (UnspentTx.decode e.2).toOption

@[simp] lemma records_empty : records ∅ = [] := rfl

/-- Every entry is a record, under its own name. -/
def Keyed (U : Table) : Prop :=
  ∀ k bytes : Bytes, U[k]? = some bytes →
    ∃ u : UnspentTx, bytes = u.encode ∧ u.states.size < 2 ^ 32 ∧ u.hash.bytes = k

lemma keyed_empty : Keyed ∅ := fun k bytes h => by simp at h

lemma Keyed.insert (h : U.Keyed) (hsize : u.states.size < 2 ^ 32) :
    Keyed (Std.ExtTreeMap.insert U u.hash.bytes u.encode) := by
  intro k bytes hk
  rw [getElem?_insert] at hk
  split at hk
  next heq => exact ⟨u, (Option.some.inj hk).symm, hsize, heq⟩
  · exact h k bytes hk

lemma Keyed.erase (h : U.Keyed) (k : Bytes) : Keyed (Std.ExtTreeMap.erase U k) := by
  intro k' bytes hk
  rw [getElem?_erase] at hk
  split at hk
  · exact nomatch hk
  · exact h k' bytes hk

/-- The record under a name bears that name. -/
lemma Keyed.name_eq (h : U.Keyed) {name : Hash} (found : U[name.bytes]? = some u.encode)
    (hsize : u.states.size < 2 ^ 32) : u.hash = name := by
  obtain ⟨u', hu, hsize', hkey⟩ := h _ _ found
  obtain rfl := (UnspentTx.encode_inj hsize hsize').1 hu
  exact Hash.bytes_inj.1 hkey

lemma Keyed.mem_records (h : U.Keyed) :
    u ∈ U.records ↔ U[u.hash.bytes]? = some u.encode ∧ u.states.size < 2 ^ 32 := by
  simp only [records, List.mem_filterMap, Prod.exists,
    Std.ExtTreeMap.mem_toList_iff_getElem?_eq_some]
  constructor
  · rintro ⟨k, bytes, found, hu⟩
    obtain ⟨u', rfl, hsize, rfl⟩ := h k bytes found
    rw [UnspentTx.decode_encode hsize] at hu
    obtain rfl : u' = u := Option.some.inj hu
    exact ⟨found, hsize⟩
  · rintro ⟨found, hsize⟩
    exact ⟨_, _, found, by rw [UnspentTx.decode_encode hsize]; rfl⟩

lemma records_insert_perm (free : U[k]? = none) (hsize : u.states.size < 2 ^ 32) :
    (records (U.insert k u.encode)).Perm (u :: U.records) := by
  have hperm := (toList_insert_perm (v := u.encode) free).filterMap fun e =>
    (UnspentTx.decode e.2).toOption
  rwa [List.filterMap_cons_some (b := u)] at hperm
  rw [UnspentTx.decode_encode hsize]
  rfl

lemma records_erase_perm (found : U[k]? = some u.encode) (hsize : u.states.size < 2 ^ 32) :
    U.records.Perm (u :: records (U.erase k)) := by
  have hfree : (U.erase k)[k]? = none := by rw [getElem?_erase, if_pos rfl]
  have hperm := records_insert_perm hfree hsize
  rwa [insert_erase found] at hperm

lemma records_replace_perm (hsize : u'.states.size < 2 ^ 32) (U : Table) (k : Bytes) :
    (records (U.insert k u'.encode)).Perm (u' :: records (U.erase k)) := by
  have hfree : (U.erase k)[k]? = none := by rw [getElem?_erase, if_pos rfl]
  have hinsert : (U.erase k).insert k u'.encode = U.insert k u'.encode := by
    apply Std.ExtTreeMap.ext_getElem?
    intro a
    rw [getElem?_insert, getElem?_insert]
    split
    · rfl
    next hk => rw [getElem?_erase, if_neg hk]
  have hperm := records_insert_perm hfree hsize
  rwa [hinsert] at hperm

end Table

/-- Reading the whole unspent set gives the records. -/
lemma Tables.allUnspent_eq {t : Tables} (h : t.unspent.Keyed) :
    t.allUnspent = .ok t.unspent.records := by
  have hall : ∀ es : List (Bytes × Bytes), (∀ e ∈ es, e ∈ t.unspent.toList) →
      decodeAll .unspent UnspentTx.decode es =
        .ok (es.filterMap fun e => (UnspentTx.decode e.2).toOption) := by
    intro es hes
    induction es with
    | nil => rfl
    | cons e es ih =>
      obtain ⟨k, bytes⟩ := e
      obtain ⟨u, rfl, hsize, -⟩ := h k bytes
        (Std.ExtTreeMap.mem_toList_iff_getElem?_eq_some.1 (hes _ List.mem_cons_self))
      have hrest := ih fun e he => hes e (List.mem_cons_of_mem _ he)
      simp [decodeAll, located, UnspentTx.decode_encode hsize, hrest, Except.map, Except.toOption]
  exact hall _ fun e he => he

namespace Connecting

variable {c c' : Connecting} {U U' : Table} {o : OutPoint} {source tx : Transaction}
  {place : TxLocation} {inputs : List TxInput} {sources : List Transaction}
  {places : List TxLocation}

/-- What a spend does to the records and to the counters: `u`, at `place`, is exchanged for itself
with one output less, or goes if that was the last. The other records are `rest`. -/
structure Exchanges (c : Connecting) (o : OutPoint) (U : Table) (source : Transaction)
    (place : TxLocation) (c' : Connecting) (U' : Table) (u : UnspentTx) (states : OutputStates)
    (rest : List UnspentTx) : Prop where
  name : u.hash = o.hash
  size_lt : u.states.size < 2 ^ 32
  get : u.states.get? o.index.toNat = some .unspent
  set : u.states.set? o.index.toNat .spent = some states
  located : c.locator.placeOf c.chain u = .ok place
  resolved : c.locator.resolve place o.hash = .ok source
  before : U.records.Perm (u :: rest)
  after : U'.records.Perm (if states.allSpent then rest else { u with states } :: rest)
  counters : ∀ k, (c'.counters.get k).toNat + (if k = .unspentOutputs then 1 else 0) +
    (if k = .unspentTxs ∧ states.allSpent = true then 1 else 0) = (c.counters.get k).toNat

lemma Spends.exchanges (hU : U.Keyed) (h : Spends c o U source place c' U') :
    U'.Keyed ∧ ∃ u states rest, Exchanges c o U source place c' U' u states rest := by
  cases h with
  | @last u states lowered counters place source found size_lt spent outputs located gone present
      txs resolved =>
    obtain ⟨hget, hset⟩ := spentStates_eq_ok.1 spent
    have hname := hU.name_eq found size_lt
    rw [hname]
    refine ⟨hU.erase _, u, states, _, hname, size_lt, hget, hset, located, resolved,
      Table.records_erase_perm found size_lt, by rw [if_pos gone], fun k => ?_⟩
    have h₁ := Counters.toNat_get_of_lower outputs k
    have h₂ := Counters.toNat_get_of_lower txs k
    simp only [gone, and_true]
    omega
  | @more u stored states lowered place source found size_lt spent outputs located left present
      stored_lt resolved =>
    obtain ⟨hget, hset⟩ := spentStates_eq_ok.1 spent
    have hname := hU.name_eq found size_lt
    have hsize := size_of_spentStates spent
    rw [hname, found, Option.some.injEq, UnspentTx.encode_inj size_lt stored_lt] at present
    subst present
    have hlt : ({ u with states } : UnspentTx).states.size < 2 ^ 32 := hsize ▸ size_lt
    rw [hname]
    have hkeyed := hU.insert hlt
    rw [show ({ u with states } : UnspentTx).hash = o.hash from hname] at hkeyed
    refine ⟨hkeyed, u, states, _, hname, size_lt, hget, hset, located, resolved,
      Table.records_erase_perm found size_lt, ?_, fun k => ?_⟩
    · rw [left, ← hname]
      exact Table.records_replace_perm hlt U u.hash.bytes
    · have h₁ := Counters.toNat_get_of_lower outputs k
      simp only [left, Bool.false_eq_true, and_false, if_false]
      omega

lemma Mints.records_perm (hU : U.Keyed) (h : Mints c tx tx.hash U c' U')
    (hlength : tx.outputs.length < 2 ^ 32) :
    U'.Keyed ∧ U'.records.Perm (if tx.outputs = [] then U.records
      else c.record tx tx.hash :: U.records) := by
  cases h with
  | empty none => exact ⟨hU, by rw [if_pos none]⟩
  | enters some free =>
    have hkeyed : Table.Keyed (U.insert tx.hash.bytes (c.record tx tx.hash).encode) :=
      hU.insert (u := c.record tx tx.hash) hlength
    refine ⟨hkeyed, ?_⟩
    rw [if_neg some]
    exact Table.records_insert_perm free hlength

end Connecting
end UtxoLedger

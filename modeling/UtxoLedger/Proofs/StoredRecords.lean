import Mathlib.Tactic.Common
import Mathlib.Data.List.Sort
import UtxoLedger.Proofs.CanonicalForms
import UtxoLedger.Store.Records

/-!
# Records in their tables

What a typed read gives in terms of the bytes in its table, and how the tables change under typed
writes. Height keys order like the heights from zero on, so the tip is the header stored last.
-/
namespace UtxoLedger

namespace Bytes

lemma compare_append {as bs : Bytes} (h : as.length = bs.length) (cs ds : Bytes) :
    compare (as ++ cs) (bs ++ ds) = (compare as bs).then (compare cs ds) := by
  induction as generalizing bs with
  | nil =>
    cases bs with
    | nil => rfl
    | cons b bs => exact nomatch h
  | cons a as ih =>
    cases bs with
    | nil => exact nomatch h
    | cons b bs =>
      have hl : as.length = bs.length := by simpa using h
      change List.compareLex compare (a :: (as ++ cs)) (b :: (bs ++ ds)) =
        (List.compareLex compare (a :: as) (b :: bs)).then _
      rw [List.compareLex_cons_cons, List.compareLex_cons_cons, Ordering.then_assoc]
      congr 1
      exact ih hl

lemma compare_singleton (m n : Nat) :
    compare [UInt8.ofNat m] [UInt8.ofNat n] = compare (m % 256) (n % 256) := by
  change List.compareLex compare [UInt8.ofNat m] [UInt8.ofNat n] = _
  rw [List.compareLex_cons_cons, List.compareLex_nil_nil, Ordering.then_eq]
  have h : compare (UInt8.ofNat m) (UInt8.ofNat n) =
      compare (UInt8.ofNat m).toNat (UInt8.ofNat n).toNat := by
    simp only [compare, compareOfLessAndEq, UInt8.lt_iff_toNat_lt, UInt8.toNat_inj]
  rw [h, UInt8.toNat_ofNat', UInt8.toNat_ofNat']

/-- Most significant digit first, numbers of one width compare like their digits. -/
lemma compare_bigEndian {w m n : Nat} (hm : m < 256 ^ w) (hn : n < 256 ^ w) :
    compare (bigEndian w m) (bigEndian w n) = compare m n := by
  induction w generalizing m n with
  | zero =>
    obtain rfl : m = 0 := by simpa using hm
    obtain rfl : n = 0 := by simpa using hn
    rfl
  | succ w ih =>
    have hp : 256 ^ (w + 1) = 256 * 256 ^ w := Nat.pow_succ'
    have hs (k : Nat) : bigEndian (w + 1) k = bigEndian w (k / 256) ++ [UInt8.ofNat k] := by
      simp [bigEndian, littleEndian]
    rw [hs, hs, compare_append (by simp), compare_singleton,
      ih (Nat.div_lt_of_lt_mul (hp ▸ hm)) (Nat.div_lt_of_lt_mul (hp ▸ hn))]
    rcases Nat.lt_trichotomy m n with h | h | h
    · rw [Nat.compare_eq_lt.2 h]
      rcases Nat.lt_or_eq_of_le (Nat.div_le_div_right (c := 256) h.le) with hd | hd
      · rw [Nat.compare_eq_lt.2 hd]
        rfl
      · rw [Nat.compare_eq_eq.2 hd, Nat.compare_eq_lt.2 (by omega)]
        rfl
    · subst h
      simp
    · rw [Nat.compare_eq_gt.2 h]
      rcases Nat.lt_or_eq_of_le (Nat.div_le_div_right (c := 256) h.le) with hd | hd
      · rw [Nat.compare_eq_gt.2 hd]
        rfl
      · rw [Nat.compare_eq_eq.2 hd.symm, Nat.compare_eq_gt.2 (by omega)]
        rfl

end Bytes

namespace Height

lemma compare_key (a b : Height) :
    compare (key a) (key b) = compare a.toUInt32.toNat b.toUInt32.toNat :=
  Bytes.compare_bigEndian a.toUInt32.toNat_lt b.toUInt32.toNat_lt

lemma key_inj {a b : Height} : key a = key b ↔ a = b := by
  refine ⟨fun h => ?_, fun h => h ▸ rfl⟩
  have hc := compare_key a b
  rw [h, Std.ReflOrd.compare_self, eq_comm, Nat.compare_eq_eq] at hc
  cases a
  cases b
  exact congrArg _ (UInt32.toNat_inj.1 hc)

lemma toInt_eq_toNat {a : Height} (h : 0 ≤ a.toInt) : a.toInt = a.toUInt32.toNat := by
  have hlt : a.toUInt32.toNat < 2 ^ 32 := a.toUInt32.toNat_lt
  have hcond : a.toInt = if 2 * a.toUInt32.toNat < 2 ^ 32 then (a.toUInt32.toNat : Int)
      else a.toUInt32.toNat - (2 ^ 32 : Nat) := BitVec.toInt_eq_toNat_cond _
  split at hcond <;> omega

/-- From zero on, the keys go up with the heights. -/
lemma compare_key_of_lt {a b : Height} (ha : 0 ≤ a.toInt) (h : a.toInt < b.toInt) :
    compare (key a) (key b) = .lt := by
  have hb := toInt_eq_toNat (ha.trans h.le)
  rw [toInt_eq_toNat ha, hb] at h
  rw [compare_key, Nat.compare_eq_lt]
  exact Int.ofNat_lt.1 h

end Height

namespace Table

variable {m : Table} {k a v : Bytes}

lemma getElem?_insert : (m.insert k v)[a]? = if k = a then some v else m[a]? := by
  rw [Std.ExtTreeMap.getElem?_insert]
  simp only [Std.LawfulEqCmp.compare_eq_iff_eq]

lemma getElem?_erase : (m.erase k)[a]? = if k = a then none else m[a]? := by
  rw [Std.ExtTreeMap.getElem?_erase]
  simp only [Std.LawfulEqCmp.compare_eq_iff_eq]

lemma erase_insert (h : m[k]? = none) : (m.insert k v).erase k = m := by
  apply Std.ExtTreeMap.ext_getElem?
  intro a
  rw [getElem?_erase]
  split
  next hk => rw [← hk, h]
  next hk => rw [getElem?_insert, if_neg hk]

lemma contains_eq_true : m.contains k = true ↔ ∃ v, m[k]? = some v := by
  rw [Std.ExtTreeMap.contains_eq_isSome_getElem?, Option.isSome_iff_exists]

lemma contains_eq_false : m.contains k = false ↔ m[k]? = none := by
  rw [Std.ExtTreeMap.contains_eq_isSome_getElem?, Option.isSome_eq_false_iff,
    Option.isNone_iff_eq_none]

/-- A key behind the last one is behind every key. -/
lemma lt_of_getLast? {e : Bytes × Bytes} (hlast : m.toList.getLast? = some e)
    (h : compare e.1 k = .lt) : ∀ d ∈ m.toList, compare d.1 k = .lt := by
  obtain ⟨front, hfront⟩ := List.getLast?_eq_some_iff.1 hlast
  have hsorted : m.toList.Pairwise fun a b => compare a.1 b.1 = .lt :=
    Std.ExtTreeMap.ordered_keys_toList
  intro d hd
  rw [hfront, List.mem_append, List.mem_singleton] at hd
  rcases hd with hd | rfl
  · rw [hfront, List.pairwise_append] at hsorted
    exact Std.TransCmp.lt_trans (hsorted.2.2 d hd e (List.mem_singleton_self e)) h
  · exact h

lemma getElem?_of_lt (h : ∀ d ∈ m.toList, compare d.1 k = .lt) : m[k]? = none := by
  cases hk : m[k]? with
  | none => rfl
  | some w =>
    have := h (k, w) (Std.ExtTreeMap.mem_toList_iff_getElem?_eq_some.2 hk)
    rw [Std.ReflOrd.compare_self] at this
    exact nomatch this

/-- An entry behind all others comes last. -/
lemma toList_insert_last (h : ∀ d ∈ m.toList, compare d.1 k = .lt) :
    (m.insert k v).toList = m.toList ++ [(k, v)] := by
  have hfree := getElem?_of_lt h
  have hsorted : (m.toList ++ [(k, v)]).Pairwise fun a b => compare a.1 b.1 = .lt := by
    rw [List.pairwise_append]
    exact ⟨Std.ExtTreeMap.ordered_keys_toList, List.pairwise_singleton _ _,
      fun a ha b hb => (List.mem_singleton.1 hb) ▸ h a ha⟩
  have hnodup {l : List (Bytes × Bytes)} (hl : l.Pairwise fun a b => compare a.1 b.1 = .lt) :
      l.Nodup := hl.imp fun {a b} hab heq => by
    rw [heq, Std.ReflOrd.compare_self] at hab
    exact nomatch hab
  have hperm : (m.insert k v).toList.Perm (m.toList ++ [(k, v)]) := by
    rw [List.perm_ext_iff_of_nodup (hnodup Std.ExtTreeMap.ordered_keys_toList) (hnodup hsorted)]
    rintro ⟨a, w⟩
    rw [List.mem_append, List.mem_singleton, Std.ExtTreeMap.mem_toList_iff_getElem?_eq_some,
      Std.ExtTreeMap.mem_toList_iff_getElem?_eq_some, getElem?_insert]
    by_cases hka : k = a
    · subst hka
      simp [hfree, eq_comm]
    · simp [hka, Ne.symm hka]
  refine hperm.eq_of_pairwise (fun a b _ _ hab hba => ?_) Std.ExtTreeMap.ordered_keys_toList hsorted
  have hswap : compare a.1 b.1 = (compare b.1 a.1).swap := Std.OrientedCmp.eq_swap
  rw [hswap, hba] at hab
  exact nomatch hab

end Table

namespace Tables

variable {t : Tables} {h : Hash} {u : UnspentTx}

lemma not_contains {name : TableName} {key : Bytes} (h : (t.get name)[key]? = none) :
    ¬ t.contains name key = true :=
  Bool.eq_false_iff.1 (Table.contains_eq_false.2 h)

/-- The tables without the two journal entries of a block. -/
def withoutJournal (t : Tables) (header : ChainedHeader) : Tables :=
  { t with
    spent := t.spent.erase (Height.key header.height)
    unminted := t.unminted.erase header.hash.bytes }

lemma record?_eq_some {α : Type} {name : TableName} {key : Bytes}
    {decode : Bytes → Except DecodeFault α} {a : α} :
    t.record? name key decode = .ok (some a) ↔
      ∃ bytes, (t.get name)[key]? = some bytes ∧ decode bytes = .ok a := by
  unfold record?
  cases (t.get name)[key]? with
  | none => simp
  | some bytes =>
    cases hd : decode bytes with
    | error fault => simp [located, hd, Except.map]
    | ok b => simp [located, hd, Except.map]

lemma record?_eq_none {α : Type} {name : TableName} {key : Bytes}
    {decode : Bytes → Except DecodeFault α} :
    t.record? name key decode = .ok none ↔ (t.get name)[key]? = none := by
  unfold record?
  cases (t.get name)[key]? with
  | none => simp
  | some bytes =>
    cases hd : decode bytes with
    | error fault => simp [located, hd, Except.map]
    | ok b => simp [located, hd, Except.map]

/-- A record that is read is stored in its one byte form. -/
lemma unspent?_eq_some : t.unspent? h = .ok (some u) ↔
    t.unspent[h.bytes]? = some u.encode ∧ u.states.size < 2 ^ 32 := by
  rw [unspent?, record?_eq_some]
  constructor
  · rintro ⟨bytes, hb, hd⟩
    exact ⟨UnspentTx.eq_encode_of_decode hd ▸ hb, UnspentTx.size_lt_of_decode hd⟩
  · rintro ⟨hb, hs⟩
    exact ⟨_, hb, UnspentTx.decode_encode hs⟩

lemma unspent?_eq_none : t.unspent? h = .ok none ↔ t.unspent[h.bytes]? = none := record?_eq_none

lemma containsUnspent_eq_false : t.containsUnspent h = false ↔ t.unspent[h.bytes]? = none :=
  Table.contains_eq_false

lemma tip?_eq_some {tip : ChainedHeader} : t.tip? = .ok (some tip) ↔
    ∃ key bytes, t.headers.toList.getLast? = some (key, bytes) ∧
      ChainedHeader.decode bytes = .ok tip := by
  unfold tip?
  cases t.headers.toList.getLast? with
  | none => simp
  | some e =>
    obtain ⟨key, bytes⟩ := e
    cases hd : ChainedHeader.decode bytes with
    | error fault => simp [located, hd, Except.map]
    | ok h => simp [located, hd, Except.map]

/-- The tables after some counters were written one by one. -/
def writtenEach (values : Counters) (t : Tables) (cs : List Counter) : Tables :=
  cs.foldl (fun t c => t.insert .counters (Bytes.ofText c.key) (Bytes.ofUInt64 (values.get c))) t

/-- The tables with all counters written. -/
def withCounters (t : Tables) (values : Counters) : Tables := t.writtenEach values Counter.all

variable {values values' : Counters}

lemma key_inj (a b : Counter) : Bytes.ofText a.key = Bytes.ofText b.key ↔ a = b := by
  cases a <;> cases b <;> decide +kernel

lemma writtenEach_eq (values : Counters) (t : Tables) (cs : List Counter) :
    t.writtenEach values cs = { t with counters := (t.writtenEach values cs).counters } := by
  induction cs generalizing t with
  | nil => rfl
  | cons c cs ih => exact ih _

lemma withCounters_eq (t : Tables) (values : Counters) :
    t.withCounters values = { t with counters := (t.withCounters values).counters } :=
  t.writtenEach_eq values _

@[simp] lemma headers_withCounters (t : Tables) (values : Counters) :
    (t.withCounters values).headers = t.headers := by rw [withCounters_eq]

@[simp] lemma unspent_withCounters (t : Tables) (values : Counters) :
    (t.withCounters values).unspent = t.unspent := by rw [withCounters_eq]

@[simp] lemma spent_withCounters (t : Tables) (values : Counters) :
    (t.withCounters values).spent = t.spent := by rw [withCounters_eq]

@[simp] lemma unminted_withCounters (t : Tables) (values : Counters) :
    (t.withCounters values).unminted = t.unminted := by rw [withCounters_eq]

lemma getElem?_writtenEach (values : Counters) (t : Tables) (cs : List Counter) (c : Counter) :
    (t.writtenEach values cs).counters[Bytes.ofText c.key]? =
      if c ∈ cs then some (Bytes.ofUInt64 (values.get c))
      else t.counters[Bytes.ofText c.key]? := by
  induction cs generalizing t with
  | nil => rfl
  | cons b cs ih =>
    have hb : (t.insert .counters (Bytes.ofText b.key) (Bytes.ofUInt64 (values.get b))).counters =
        t.counters.insert (Bytes.ofText b.key) (Bytes.ofUInt64 (values.get b)) := rfl
    rw [writtenEach, List.foldl_cons, ← writtenEach, ih, hb, Table.getElem?_insert]
    simp only [key_inj]
    by_cases hc : c ∈ cs
    · rw [if_pos hc, if_pos (List.mem_cons_of_mem _ hc)]
    · by_cases hbc : b = c
      · subst hbc
        rw [if_neg hc, if_pos rfl, if_pos List.mem_cons_self]
      · rw [if_neg hc, if_neg hbc, if_neg (by simp [hc, Ne.symm hbc])]

lemma getElem?_writtenEach_of_ne {k : Bytes} (h : ∀ c : Counter, Bytes.ofText c.key ≠ k)
    (values : Counters) (t : Tables) (cs : List Counter) :
    (t.writtenEach values cs).counters[k]? = t.counters[k]? := by
  induction cs generalizing t with
  | nil => rfl
  | cons b cs ih =>
    have hb : (t.insert .counters (Bytes.ofText b.key) (Bytes.ofUInt64 (values.get b))).counters =
        t.counters.insert (Bytes.ofText b.key) (Bytes.ofUInt64 (values.get b)) := rfl
    rw [writtenEach, List.foldl_cons, ← writtenEach, ih, hb, Table.getElem?_insert, if_neg (h b)]

lemma getElem?_withCounters (t : Tables) (values : Counters) (c : Counter) :
    (t.withCounters values).counters[Bytes.ofText c.key]? =
      some (Bytes.ofUInt64 (values.get c)) := by
  rw [withCounters, getElem?_writtenEach, if_pos c.mem_all]

lemma counters_withCounters_congr {s t : Tables}
    (h : ∀ k, (∀ c : Counter, Bytes.ofText c.key ≠ k) → s.counters[k]? = t.counters[k]?)
    (values : Counters) :
    (s.withCounters values).counters = (t.withCounters values).counters := by
  ext1 k
  by_cases hk : ∃ c : Counter, Bytes.ofText c.key = k
  · obtain ⟨c, rfl⟩ := hk
    rw [getElem?_withCounters, getElem?_withCounters]
  · have hne : ∀ c : Counter, Bytes.ofText c.key ≠ k := fun c hc => hk ⟨c, hc⟩
    rw [withCounters, getElem?_writtenEach_of_ne hne, h k hne, withCounters,
      getElem?_writtenEach_of_ne hne]

/-- What was written before does not show after all counters are written again. -/
lemma counters_withCounters {s t : Tables} {old : Counters}
    (h : s.counters = (t.withCounters old).counters) (values : Counters) :
    (s.withCounters values).counters = (t.withCounters values).counters := by
  refine counters_withCounters_congr (fun k hk => ?_) values
  rw [h, withCounters, getElem?_writtenEach_of_ne hk]

lemma counter_eq_of_getElem? {c : Counter} {value : UInt64}
    (h : t.counters[Bytes.ofText c.key]? = some (Bytes.ofUInt64 value)) :
    t.counter c = .ok value := by
  have hlt : value.toNat < Nat.pow 256 8 := value.toNat_lt
  have hlen : (Bytes.ofUInt64 value).length = 8 := Bytes.length_littleEndian 8 _
  unfold counter
  rw [h]
  dsimp only
  rw [if_pos hlen, Bytes.ofUInt64, Bytes.ofLittleEndian_littleEndian, Nat.mod_eq_of_lt hlt,
    UInt64.ofNat_toNat]

lemma counter_withCounters (t : Tables) (values : Counters) (c : Counter) :
    (t.withCounters values).counter c = .ok (values.get c) :=
  counter_eq_of_getElem? (getElem?_withCounters t values c)

lemma readCounters_eq_ok : t.readCounters = .ok values ↔ ∀ c, t.counter c = .ok (values.get c) := by
  simp only [readCounters, bind_eq_ok]
  constructor
  · rintro ⟨a, ha, b, hb, c, hc, d, hd, e, he, heq⟩ k
    cases heq
    cases k <;> assumption
  · intro h
    exact ⟨_, h .unspentTxs, _, h .unspentOutputs, _, h .txs, _, h .inputs, _, h .outputs, rfl⟩

lemma readCounters_withCounters (t : Tables) (values : Counters) :
    (t.withCounters values).readCounters = .ok values :=
  readCounters_eq_ok.2 (counter_withCounters t values)

lemma readCounters_congr {s : Tables} (h : s.counters = t.counters) :
    s.readCounters = t.readCounters := by
  have hc (c : Counter) : s.counter c = t.counter c := by
    unfold counter
    rw [h]
  simp only [readCounters, hc]

end Tables

lemma Hash.bytes_inj {a b : Hash} : a.bytes = b.bytes ↔ a = b := ⟨Hash.ext_bytes, fun h => h ▸ rfl⟩

end UtxoLedger

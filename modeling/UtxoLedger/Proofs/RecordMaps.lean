import Mathlib.Logic.Function.Basic
import UtxoLedger.Proofs.RebuiltStore
import UtxoLedger.Proofs.UnspentCommitment
import UtxoLedger.Store.Scan

/-!
# Records under their names

What a store holds, told without bytes: for each kind of record a map from names to records. Tables
show such maps if every entry is the form of a record under the key of its name. Then what is read
from the tables is what the maps say, and a change of the tables is the same change of the maps.
-/
namespace UtxoLedger

/-- How records of a kind stand in their table. -/
structure Layout (κ ρ : Type) where
  key : κ → Bytes
  form : ρ → Bytes
  /-- The record may stand under this name. -/
  Fits : κ → ρ → Prop
  key_inj : ∀ {a b : κ}, key a = key b ↔ a = b

namespace Layout

variable {κ ρ : Type} {L : Layout κ ρ} {T : Table} {f : κ → Option ρ} {k : κ} {r : ρ}

/-- The table holds the records of the map under the keys of their names, and nothing else. -/
structure Shows (L : Layout κ ρ) (T : Table) (f : κ → Option ρ) : Prop where
  entry : ∀ k, T[L.key k]? = (f k).map L.form
  named : ∀ key bytes, T[key]? = some bytes → ∃ k, L.key k = key
  fits : ∀ k r, f k = some r → L.Fits k r

lemma shows_empty : L.Shows ∅ fun _ => none where
  entry k := by simp
  named key bytes h := by simp at h
  fits k r h := nomatch h

lemma Shows.contains (h : L.Shows T f) (k : κ) : T.contains (L.key k) = (f k).isSome := by
  rw [Std.ExtTreeMap.contains_eq_isSome_getElem?, h.entry, Option.isSome_map]

/-- An entry of the table is the form of a record of the map. -/
lemma Shows.exists_record (h : L.Shows T f) {key bytes : Bytes} (found : T[key]? = some bytes) :
    ∃ k r, f k = some r ∧ L.key k = key ∧ L.form r = bytes := by
  obtain ⟨k, rfl⟩ := h.named key bytes found
  rw [h.entry] at found
  obtain ⟨r, hr, hbytes⟩ := Option.map_eq_some_iff.1 found
  exact ⟨k, r, hr, rfl, hbytes⟩

variable [DecidableEq κ]

lemma Shows.insert (h : L.Shows T f) (fits : L.Fits k r) :
    L.Shows (T.insert (L.key k) (L.form r)) (Function.update f k (some r)) where
  entry a := by
    rw [Table.getElem?_insert, Function.update_apply]
    simp only [L.key_inj, eq_comm (a := k)]
    split
    · rfl
    · exact h.entry a
  named key bytes found := by
    rw [Table.getElem?_insert] at found
    split at found
    next hkey => exact ⟨k, hkey⟩
    · exact h.named key bytes found
  fits a b hab := by
    rw [Function.update_apply] at hab
    split at hab
    next ha =>
      cases hab
      exact ha ▸ fits
    · exact h.fits a b hab

lemma Shows.erase (h : L.Shows T f) (k : κ) :
    L.Shows (T.erase (L.key k)) (Function.update f k none) where
  entry a := by
    rw [Table.getElem?_erase, Function.update_apply]
    simp only [L.key_inj, eq_comm (a := k)]
    split
    · rfl
    · exact h.entry a
  named key bytes found := by
    rw [Table.getElem?_erase] at found
    split at found
    · exact nomatch found
    · exact h.named key bytes found
  fits a b hab := by
    rw [Function.update_apply] at hab
    split at hab
    · exact nomatch hab
    · exact h.fits a b hab

end Layout

/-- Taking away what is not there. -/
lemma Table.erase_of_not_contains {T : Table} {k : Bytes} (h : T.contains k = false) :
    T.erase k = T := by
  apply Std.ExtTreeMap.ext_getElem?
  intro a
  rw [Table.getElem?_erase]
  split
  next hk => rw [← hk, Table.contains_eq_false.1 h]
  · rfl

/-- A walk that has come by the entries in front goes on with the first of the others. -/
lemma Scan.next?_of_split {T : Table} {front rest : List (Bytes × Bytes)} {last? : Option Bytes}
    (split : T.toList = front ++ rest) (last : last? = front.getLast?.map Prod.fst) :
    next? ⟨T, last?⟩ = rest.head?.map fun e => (e, ⟨T, some e.1⟩) := by
  have hsorted : (front ++ rest).Pairwise fun a b => compare a.1 b.1 = .lt :=
    split ▸ Std.ExtTreeMap.ordered_keys_toList
  rw [next?, split, last]
  rcases List.eq_nil_or_concat' front with rfl | ⟨init, d, rfl⟩
  · cases rest <;> rfl
  · rw [List.pairwise_append] at hsorted
    have hpast : ∀ e ∈ init ++ [d], ¬ compare d.1 e.1 = .lt := by
      intro e he hlt
      have hself : compare e.1 e.1 = .lt := by
        rcases List.mem_append.1 he with hinit | hd
        · have hbefore := (List.pairwise_append.1 hsorted.1).2.2 e hinit d (by simp)
          exact Std.TransCmp.lt_trans hbefore hlt
        · rwa [List.mem_singleton.1 hd] at hlt ⊢
      rw [Std.ReflOrd.compare_self] at hself
      exact nomatch hself
    have hnone : (init ++ [d]).find? (fun e => decide (compare d.1 e.1 = .lt)) = none :=
      List.find?_eq_none.2 fun e he => by simpa using hpast e he
    have hfirst : rest.find? (fun e => decide (compare d.1 e.1 = .lt)) = rest.head? := by
      cases rest with
      | nil => rfl
      | cons e rest => simp [hsorted.2.2 d (by simp) e List.mem_cons_self]
    simp only [List.getLast?_concat, Option.map_some, List.find?_append, hnone, hfirst,
      Option.none_or]

/-- The walk comes by every entry that is left, in the order of the keys. -/
lemma Scan.take_of_split {T : Table} (n : Nat) : ∀ {front rest : List (Bytes × Bytes)}
    {last? : Option Bytes}, T.toList = front ++ rest → last? = front.getLast?.map Prod.fst →
      (take n ⟨T, last?⟩).1 = rest.take n := by
  induction n with
  | zero => exact fun _ _ => rfl
  | succ n ih =>
    intro front rest last? split last
    rw [take, next?_of_split split last]
    cases rest with
    | nil => rfl
    | cons e rest =>
      have split' : T.toList = (front ++ [e]) ++ rest := by rw [split, List.append_assoc]; rfl
      have hrest := ih split' (show some e.1 = _ by simp)
      simpa using hrest

/-- A scan from the start comes by every entry of its table. -/
lemma Scan.rest_start (T : Table) : (start T).rest = T.toList := by
  have htake : (take T.size ⟨T, none⟩).1 = T.toList.take T.size :=
    take_of_split T.size (List.nil_append _).symm rfl
  rw [rest, start, htake, ← Std.ExtTreeMap.length_toList, List.take_length]

/-- Records under their names. A header bears the name that its fields give it. -/
structure RecordMaps where
  counters : Counter → Option UInt64
  headers : Height → Option ChainedHeader
  unspent : Hash → Option UnspentTx
  spent : Height → Option SpentList
  unminted : Hash → Option UnmintedList

namespace RecordMaps

def empty : RecordMaps :=
  ⟨fun _ => none, fun _ => none, fun _ => none, fun _ => none, fun _ => none⟩

variable {κ ρ : Type} [DecidableEq κ]

/-- A record is added unless its name is taken. -/
def put (f : κ → Option ρ) (k : κ) (r : ρ) : Bool × (κ → Option ρ) :=
  match f k with
  | some _ => (false, f)
  | none => (true, Function.update f k (some r))

/-- A record is taken away, if there is one. -/
def drop (f : κ → Option ρ) (k : κ) : Bool × (κ → Option ρ) :=
  match f k with
  | some _ => (true, Function.update f k none)
  | none => (false, f)

/-- What a change answers on some maps, and the maps that it leaves. An addition never replaces a
record, an update replaces the output states of one and nothing else, and a header goes only if it
is the one that is named. What does not take place says so and changes nothing. -/
def change (m : RecordMaps) : Mutation → Except LedgerError Bool × RecordMaps
  | .addHeader h =>
    match m.headers h.height with
    | some _ => (.error (.inconsistent (.headerStored h.height)), m)
    | none =>
      (.ok true, { m with headers := Function.update m.headers h.height (some h.rehashed) })
  | .removeHeader h =>
    match m.headers h.height with
    | none => (.error (.inconsistent (.headerMissing h.height)), m)
    | some stored =>
      if stored.hash = h.hash then
        (.ok true, { m with headers := Function.update m.headers h.height none })
      else (.error (.inconsistent (.headerDiffers h.height stored.hash h.hash)), m)
  | .addUnspent u =>
    let (added, unspent) := put m.unspent u.hash u
    (.ok added, { m with unspent })
  | .removeUnspent tx =>
    let (removed, unspent) := drop m.unspent tx
    (.ok removed, { m with unspent })
  | .updateUnspent u =>
    match m.unspent u.hash with
    | none => (.ok false, m)
    | some stored => (.ok true, { m with
        unspent := Function.update m.unspent u.hash (some { stored with states := u.states }) })
  | .addSpent height txs =>
    let (added, spent) := put m.spent height txs
    (.ok added, { m with spent })
  | .removeSpent height =>
    let (removed, spent) := drop m.spent height
    (.ok removed, { m with spent })
  | .addUnminted block txs =>
    let (added, unminted) := put m.unminted block txs
    (.ok added, { m with unminted })
  | .removeUnminted block =>
    let (removed, unminted) := drop m.unminted block
    (.ok removed, { m with unminted })
  | .writeCounter c value =>
    (.ok true, { m with counters := Function.update m.counters c (some value) })

end RecordMaps

namespace Layout

def counters : Layout Counter UInt64 where
  key c := Bytes.ofText c.key
  form := Bytes.ofUInt64
  Fits _ _ := True
  key_inj := Tables.key_inj _ _

/-- The key of a header goes by its own height, and the heights from zero on order like the keys. -/
def headers : Layout Height ChainedHeader where
  key := Height.key
  form := ChainedHeader.encode
  Fits k h := h.height = k ∧ 0 ≤ k.toInt ∧ h.hash = h.header.hash
  key_inj := Height.key_inj

def unspent : Layout Hash UnspentTx where
  key := Hash.bytes
  form := UnspentTx.encode
  Fits k u := u.hash = k ∧ u.states.size < 2 ^ 32
  key_inj := Hash.bytes_inj

def spent : Layout Height SpentList where
  key := Height.key
  form := SpentList.encode
  Fits _ txs := txs.length < 2 ^ 32
  key_inj := Height.key_inj

def unminted : Layout Hash UnmintedList where
  key := Hash.bytes
  form := UnmintedList.encode
  Fits _ txs := txs.length < 2 ^ 32 ∧ ∀ tx ∈ txs, tx.sources.length < 2 ^ 32
  key_inj := Hash.bytes_inj

end Layout

/-- The five tables show the five maps. -/
structure Tables.Show (t : Tables) (m : RecordMaps) : Prop where
  counters : Layout.counters.Shows t.counters m.counters
  headers : Layout.headers.Shows t.headers m.headers
  unspent : Layout.unspent.Shows t.unspent m.unspent
  spent : Layout.spent.Shows t.spent m.spent
  unminted : Layout.unminted.Shows t.unminted m.unminted

lemma Tables.show_empty : Tables.empty.Show .empty :=
  ⟨Layout.shows_empty, Layout.shows_empty, Layout.shows_empty, Layout.shows_empty,
    Layout.shows_empty⟩

namespace Tables

variable {t : Tables} {m : RecordMaps}

/-- A record is read as the map has it. -/
lemma record?_of_shows {κ ρ : Type} {L : Layout κ ρ} {f : κ → Option ρ}
    {decode : Bytes → Except DecodeFault ρ} (name : TableName) (shows : L.Shows (t.get name) f)
    (reads : ∀ k r, L.Fits k r → decode (L.form r) = .ok r) (k : κ) :
    t.record? name (L.key k) decode = .ok (f k) := by
  cases hk : f k with
  | none => rw [record?_eq_none, shows.entry, hk, Option.map_none]
  | some r =>
    rw [record?_eq_some]
    exact ⟨L.form r, by rw [shows.entry, hk, Option.map_some], reads k r (shows.fits k r hk)⟩

/-- What is listed under the keys of heights from zero on, is listed in their order. -/
lemma ascending_of_toList {hs : List ChainedHeader}
    (listed : t.headers.toList = hs.map fun h => (Height.key h.height, h.encode))
    (nonneg : ∀ h ∈ hs, 0 ≤ h.height.toInt) :
    hs.Pairwise fun a b => a.height.toInt < b.height.toInt := by
  have hsorted : t.headers.toList.Pairwise fun a b => compare a.1 b.1 = .lt :=
    Std.ExtTreeMap.ordered_keys_toList
  rw [listed, List.pairwise_map] at hsorted
  refine hsorted.imp_of_mem fun {a b} ha hb hab => ?_
  rw [Height.compare_key, Nat.compare_eq_lt] at hab
  rw [Height.toInt_eq_toNat (nonneg a ha), Height.toInt_eq_toNat (nonneg b hb)]
  exact Int.ofNat_lt.2 hab

lemma tip?_of_toList {hs : List ChainedHeader}
    (listed : t.headers.toList = hs.map fun h => (Height.key h.height, h.encode)) :
    t.tip? = .ok (hs.map ChainedHeader.rehashed).getLast? := by
  unfold tip?
  rw [listed, List.getLast?_map, List.getLast?_map]
  cases hs.getLast? with
  | none => rfl
  | some r =>
    rw [Option.map_some, Option.map_some]
    dsimp only
    rw [ChainedHeader.decode_encode]
    rfl

namespace Show

lemma headerAt? (h : t.Show m) (height : Height) : t.headerAt? height = .ok (m.headers height) := by
  refine record?_of_shows .headers h.headers (fun k r fits => ?_) height
  exact (ChainedHeader.decode_encode r).trans
    (congrArg Except.ok (ChainedHeader.rehashed_eq_self.2 fits.2.2))

lemma unspent? (h : t.Show m) (tx : Hash) : t.unspent? tx = .ok (m.unspent tx) :=
  record?_of_shows .unspent h.unspent
    (fun _ _ fits => UnspentTx.decode_encode fits.2) tx

/-- The record under a name bears it. -/
lemma hash_eq (h : t.Show m) {tx : Hash} {u : UnspentTx} (found : m.unspent tx = some u) :
    u.hash = tx := (h.unspent.fits tx u found).1

lemma spent? (h : t.Show m) (height : Height) : t.spent? height = .ok (m.spent height) :=
  record?_of_shows .spent h.spent (fun _ _ fits => SpentList.decode_encode fits) height

lemma unminted? (h : t.Show m) (block : Hash) : t.unminted? block = .ok (m.unminted block) :=
  record?_of_shows .unminted h.unminted
    (fun _ _ fits => UnmintedList.decode_encode fits.1 fits.2) block

/-- A counter is zero until it is first written. -/
lemma counter (h : t.Show m) (c : Counter) : t.counter c = .ok ((m.counters c).getD 0) := by
  have hentry := h.counters.entry c
  cases hc : m.counters c with
  | none =>
    rw [hc, Option.map_none] at hentry
    unfold Tables.counter
    rw [show t.counters[Bytes.ofText c.key]? = none from hentry]
    rfl
  | some value =>
    rw [hc, Option.map_some] at hentry
    exact counter_eq_of_getElem? hentry

/-- The header table lists the headers of the map, each under its own height. -/
lemma exists_headers (h : t.Show m) : ∃ hs : List ChainedHeader,
    t.headers.toList = hs.map (fun h => (Height.key h.height, h.encode)) ∧
      ∀ r, r ∈ hs ↔ m.headers r.height = some r := by
  have hrecord : ∀ e ∈ t.headers.toList, ∃ r : ChainedHeader,
      (Height.key r.height, r.encode) = e ∧ m.headers r.height = some r := by
    rintro ⟨key, bytes⟩ he
    have found := Std.ExtTreeMap.mem_toList_iff_getElem?_eq_some.1 he
    obtain ⟨k, r, hr, hkey, hbytes⟩ := h.headers.exists_record found
    obtain ⟨hheight, -, -⟩ := h.headers.fits k r hr
    exact ⟨r, Prod.ext ((congrArg Height.key hheight).trans hkey) hbytes, hheight ▸ hr⟩
  choose header hentry hheader using hrecord
  refine ⟨t.headers.toList.pmap header fun _ he => he, ?_, fun r => ⟨fun hr => ?_, fun hr => ?_⟩⟩
  · rw [List.map_pmap]
    exact (List.pmap_eq_self.2 hentry).symm
  · obtain ⟨e, he, rfl⟩ := List.mem_pmap.1 hr
    exact hheader e he
  · have hfound : t.headers[Height.key r.height]? = some r.encode :=
      (h.headers.entry r.height).trans (by rw [hr]; rfl)
    have hmem := Std.ExtTreeMap.mem_toList_iff_getElem?_eq_some.2 hfound
    have hheight := Height.key_inj.1 (congrArg Prod.fst (hentry _ hmem))
    have hsame := hheader _ hmem
    rw [hheight, hr] at hsame
    exact List.mem_pmap.2 ⟨_, hmem, (Option.some.inj hsame).symm⟩

/-- The unspent table is keyed by the names of its records. -/
lemma keyed (h : t.Show m) : t.unspent.Keyed := by
  intro key bytes found
  obtain ⟨k, r, hr, hkey, hbytes⟩ := h.unspent.exists_record found
  obtain ⟨hname, hsize⟩ := h.unspent.fits k r hr
  exact ⟨r, hbytes.symm, hsize, (congrArg Hash.bytes hname).trans hkey⟩

end Show

/-- Whatever is read from the tables is what the maps say, and no read fails. -/
structure ReadAs (t : Tables) (m : RecordMaps) : Prop where
  headerAt? : ∀ height, t.headerAt? height = .ok (m.headers height)
  unspent? : ∀ tx, t.unspent? tx = .ok (m.unspent tx)
  containsUnspent : ∀ tx, t.containsUnspent tx = (m.unspent tx).isSome
  spent? : ∀ height, t.spent? height = .ok (m.spent height)
  containsSpent : ∀ height, t.containsSpent height = (m.spent height).isSome
  unminted? : ∀ block, t.unminted? block = .ok (m.unminted block)
  containsUnminted : ∀ block, t.containsUnminted block = (m.unminted block).isSome
  /-- A counter is zero until it is first written. -/
  counters : ∃ values, t.readCounters = .ok values ∧
    ∀ c, t.counter c = .ok (values.get c) ∧ values.get c = (m.counters c).getD 0
  /-- The chain is read in ascending order of the heights, at once or by a scan, and the tip is the
  last of its headers. -/
  chain : ∃ hs, t.chainHeaders = .ok hs ∧
    decodeAll .headers ChainedHeader.decode (Scan.start t.headers).rest = .ok hs ∧
    hs.Pairwise (fun a b => a.height.toInt < b.height.toInt) ∧
    (∀ h, h ∈ hs ↔ m.headers h.height = some h) ∧ t.tip? = .ok hs.getLast?
  /-- The unspent set is read in ascending order of the names. -/
  allUnspent : ∃ us, t.allUnspent = .ok us ∧
    decodeAll .unspent UnspentTx.decode (Scan.start t.unspent).rest = .ok us ∧
    us.Pairwise (fun a b => compare a.hash b.hash = .lt) ∧
    ∀ u, u ∈ us ↔ m.unspent u.hash = some u

lemma Show.readAs (h : t.Show m) : t.ReadAs m where
  headerAt? := h.headerAt?
  unspent? := h.unspent?
  containsUnspent := h.unspent.contains
  spent? := h.spent?
  containsSpent := h.spent.contains
  unminted? := h.unminted?
  containsUnminted := h.unminted.contains
  counters := by
    have hget : ∀ c, (Counters.mk ((m.counters .unspentTxs).getD 0)
        ((m.counters .unspentOutputs).getD 0) ((m.counters .txs).getD 0)
        ((m.counters .inputs).getD 0) ((m.counters .outputs).getD 0)).get c =
          (m.counters c).getD 0 := by
      intro c
      cases c <;> rfl
    have hcounter := fun c => (h.counter c).trans (congrArg Except.ok (hget c).symm)
    exact ⟨_, readCounters_eq_ok.2 hcounter, fun c => ⟨hcounter c, hget c⟩⟩
  chain := by
    obtain ⟨hs, hlist, hmem⟩ := h.exists_headers
    have hfits := fun r hr => h.headers.fits r.height r ((hmem r).1 hr)
    have hnames : hs.map ChainedHeader.rehashed = hs :=
      ChainedHeader.map_rehashed_eq_self.2 fun r hr => (hfits r hr).2.2
    have hchain := chainHeaders_of_toList hlist
    have htip := tip?_of_toList hlist
    rw [hnames] at hchain htip
    exact ⟨hs, hchain, (Scan.rest_start _).symm ▸ hchain,
      ascending_of_toList hlist fun r hr => (hfits r hr).2.1, hmem, htip⟩
  allUnspent := by
    have hall := allUnspent_eq h.keyed
    refine ⟨t.unspent.records, hall, (Scan.rest_start _).symm ▸ hall, h.keyed.sorted, fun u => ?_⟩
    rw [mem_records h.keyed, Holds, h.unspent?, Except.ok.injEq]

lemma set_get_self (t : Tables) (name : TableName) : t.set name (t.get name) = t := by
  cases name <;> rfl

end Tables

namespace Mutation

/-- Taking away what is not there leaves the tables as they are. -/
lemma erased_eq (t : Tables) (name : TableName) (key : Bytes) : erased t name key =
    if t.contains name key then (.ok true, t.erase name key) else (.ok false, t) := by
  unfold erased
  cases hc : t.contains name key with
  | true => rfl
  | false =>
    have htable : (t.get name).erase key = t.get name := Table.erase_of_not_contains hc
    rw [Tables.erase, htable, Tables.set_get_self]
    rfl

section Shown

variable {κ ρ : Type} [DecidableEq κ] {L : Layout κ ρ} {t : Tables} {f : κ → Option ρ} {k : κ}
  {r : ρ}

lemma added_of_shows (name : TableName) (shows : L.Shows (t.get name) f) (fits : L.Fits k r) :
    ∃ T, added t name (L.key k) (L.form r) = (.ok (RecordMaps.put f k r).1, t.set name T) ∧
      L.Shows T (RecordMaps.put f k r).2 := by
  rw [added, show t.contains name (L.key k) = _ from shows.contains k]
  unfold RecordMaps.put
  cases f k with
  | some _ => exact ⟨t.get name, by rw [Tables.set_get_self]; rfl, shows⟩
  | none => exact ⟨_, rfl, shows.insert fits⟩

lemma erased_of_shows (name : TableName) (shows : L.Shows (t.get name) f) (k : κ) :
    ∃ T, erased t name (L.key k) = (.ok (RecordMaps.drop f k).1, t.set name T) ∧
      L.Shows T (RecordMaps.drop f k).2 := by
  rw [erased_eq, show t.contains name (L.key k) = _ from shows.contains k]
  unfold RecordMaps.drop
  cases f k with
  | some _ => exact ⟨_, rfl, shows.erase k⟩
  | none => exact ⟨t.get name, by rw [Tables.set_get_self]; rfl, shows⟩

end Shown

/-- The record that the change writes has a form that is read back: a header is not below height
zero, and there are fewer outputs, names and places than a count can hold. -/
def Fits : Mutation → Prop
  | addHeader h => 0 ≤ h.height.toInt
  | addUnspent u => u.states.size < 2 ^ 32
  | updateUnspent u => u.states.size < 2 ^ 32
  | addSpent _ txs => txs.length < 2 ^ 32
  | addUnminted _ txs => txs.length < 2 ^ 32 ∧ ∀ tx ∈ txs, tx.sources.length < 2 ^ 32
  | _ => True

/-- The table of the record that the change is about, and its key. -/
def target : Mutation → TableName × Bytes
  | addHeader h => (.headers, Height.key h.height)
  | removeHeader h => (.headers, Height.key h.height)
  | addUnspent u => (.unspent, u.hash.bytes)
  | removeUnspent tx => (.unspent, tx.bytes)
  | updateUnspent u => (.unspent, u.hash.bytes)
  | addSpent height _ => (.spent, Height.key height)
  | removeSpent height => (.spent, Height.key height)
  | addUnminted block _ => (.unminted, block.bytes)
  | removeUnminted block => (.unminted, block.bytes)
  | writeCounter c _ => (.counters, Bytes.ofText c.key)

end Mutation

namespace Tables.Show

open Mutation

variable {t : Tables} {m : RecordMaps} {mu : Mutation}

/-- A change of the tables is the change of the maps. -/
lemma change (h : t.Show m) (fits : mu.Fits) :
    (mu.apply t).1 = (m.change mu).1 ∧ (mu.apply t).2.Show (m.change mu).2 := by
  cases mu with
  | addHeader r =>
    have hcontains : t.contains .headers (Height.key r.height) = (m.headers r.height).isSome :=
      h.headers.contains r.height
    simp only [apply, RecordMaps.change, hcontains]
    cases m.headers r.height with
    | some _ => exact ⟨rfl, h⟩
    | none =>
      have hinsert := h.headers.insert (k := r.height) (r := r.rehashed) ⟨rfl, fits, rfl⟩
      exact ⟨rfl, { h with headers := hinsert }⟩
  | removeHeader r =>
    simp only [apply, RecordMaps.change, h.headerAt?]
    cases m.headers r.height with
    | none => exact ⟨rfl, h⟩
    | some stored =>
      dsimp only
      split
      · exact ⟨rfl, { h with headers := h.headers.erase r.height }⟩
      · exact ⟨rfl, h⟩
  | addUnspent u =>
    obtain ⟨T, hadded, hT⟩ := added_of_shows .unspent h.unspent (k := u.hash) (r := u) ⟨rfl, fits⟩
    rw [show apply t (.addUnspent u) = _ from hadded]
    exact ⟨rfl, { h with unspent := hT }⟩
  | removeUnspent tx =>
    obtain ⟨T, herased, hT⟩ := erased_of_shows .unspent h.unspent tx
    rw [show apply t (.removeUnspent tx) = _ from herased]
    exact ⟨rfl, { h with unspent := hT }⟩
  | updateUnspent u =>
    simp only [apply, RecordMaps.change, h.unspent?]
    cases hu : m.unspent u.hash with
    | none => exact ⟨rfl, h⟩
    | some stored =>
      -- The record is put back where it was found, not merely under the name that it bears.
      have hname := h.hash_eq hu
      have hsize : u.states.size < 2 ^ 32 := fits
      have hinsert := h.unspent.insert (k := u.hash) (r := { stored with states := u.states })
        ⟨hname, hsize⟩
      dsimp only
      rw [show stored.hash.bytes = u.hash.bytes from congrArg Hash.bytes hname]
      exact ⟨rfl, { h with unspent := hinsert }⟩
  | addSpent height txs =>
    obtain ⟨T, hadded, hT⟩ := added_of_shows .spent h.spent (k := height) (r := txs) fits
    rw [show apply t (.addSpent height txs) = _ from hadded]
    exact ⟨rfl, { h with spent := hT }⟩
  | removeSpent height =>
    obtain ⟨T, herased, hT⟩ := erased_of_shows .spent h.spent height
    rw [show apply t (.removeSpent height) = _ from herased]
    exact ⟨rfl, { h with spent := hT }⟩
  | addUnminted block txs =>
    obtain ⟨T, hadded, hT⟩ := added_of_shows .unminted h.unminted (k := block) (r := txs) fits
    rw [show apply t (.addUnminted block txs) = _ from hadded]
    exact ⟨rfl, { h with unminted := hT }⟩
  | removeUnminted block =>
    obtain ⟨T, herased, hT⟩ := erased_of_shows .unminted h.unminted block
    rw [show apply t (.removeUnminted block) = _ from herased]
    exact ⟨rfl, { h with unminted := hT }⟩
  | writeCounter c value =>
    exact ⟨rfl, { h with counters := h.counters.insert (k := c) (r := value) trivial }⟩

/-- A change leaves the tables as they are, or it takes place and writes or takes away its own
entry, and nothing else. -/
lemma apply_cases (h : t.Show m) (mu : Mutation) : (mu.apply t).2 = t ∨
    (mu.apply t).1 = .ok true ∧
      ((∃ value, (mu.apply t).2 = t.insert mu.target.1 mu.target.2 value) ∨
        (mu.apply t).2 = t.erase mu.target.1 mu.target.2) := by
  have hadded (name : TableName) (key value : Bytes) : (added t name key value).2 = t ∨
      (added t name key value).1 = .ok true ∧
        (added t name key value).2 = t.insert name key value := by
    unfold added
    split
    · exact .inl rfl
    · exact .inr ⟨rfl, rfl⟩
  have herased (name : TableName) (key : Bytes) : (erased t name key).2 = t ∨
      (erased t name key).1 = .ok true ∧ (erased t name key).2 = t.erase name key := by
    rw [erased_eq]
    split
    · exact .inr ⟨rfl, rfl⟩
    · exact .inl rfl
  cases mu with
  | addHeader r =>
    simp only [apply]
    split
    · exact .inl rfl
    · exact .inr ⟨rfl, .inl ⟨_, rfl⟩⟩
  | removeHeader r =>
    simp only [apply, h.headerAt?]
    cases m.headers r.height with
    | none => exact .inl rfl
    | some stored =>
      dsimp only
      split
      · exact .inr ⟨rfl, .inr rfl⟩
      · exact .inl rfl
  | updateUnspent u =>
    simp only [apply, h.unspent?]
    cases hu : m.unspent u.hash with
    | none => exact .inl rfl
    | some stored =>
      refine .inr ⟨rfl, .inl ⟨UnspentTx.encode { stored with states := u.states }, ?_⟩⟩
      dsimp only
      rw [show stored.hash.bytes = u.hash.bytes from congrArg Hash.bytes (h.hash_eq hu)]
      rfl
  | addUnspent | addSpent | addUnminted =>
    exact (hadded _ _ _).imp_right fun h => ⟨h.1, .inl ⟨_, h.2⟩⟩
  | removeUnspent | removeSpent | removeUnminted =>
    exact (herased _ _).imp_right fun h => ⟨h.1, .inr h.2⟩
  | writeCounter => exact .inr ⟨rfl, .inl ⟨_, rfl⟩⟩

/-- What does not take place leaves the tables as they are. -/
lemma apply_of_ne (h : t.Show m) (refused : (mu.apply t).1 ≠ .ok true) : (mu.apply t).2 = t :=
  (h.apply_cases mu).resolve_right fun done => refused done.1

/-- No change reaches an entry under another key or in another table. -/
lemma getElem?_apply (h : t.Show m) {name : TableName} {key : Bytes}
    (other : mu.target ≠ (name, key)) : ((mu.apply t).2.get name)[key]? = (t.get name)[key]? := by
  have hset {table : Table} (hkey : mu.target.1 = name → table[key]? = (t.get name)[key]?) :
      ((t.set mu.target.1 table).get name)[key]? = (t.get name)[key]? := by
    by_cases hname : mu.target.1 = name
    · rw [hname, get_set_self, hkey hname]
    · rw [get_set_of_ne t hname]
  rcases h.apply_cases mu with hsame | ⟨-, ⟨value, hinsert⟩ | herase⟩
  · rw [hsame]
  · rw [hinsert]
    refine hset fun hname => ?_
    rw [Table.getElem?_insert, if_neg fun hkey => other (Prod.ext hname hkey), hname]
  · rw [herase]
    refine hset fun hname => ?_
    rw [Table.getElem?_erase, if_neg fun hkey => other (Prod.ext hname hkey), hname]

end Tables.Show
end UtxoLedger

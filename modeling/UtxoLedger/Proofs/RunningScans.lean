import Mathlib.Data.Set.List
import UtxoLedger.Proofs.RecordMaps
import UtxoLedger.Proofs.ReplayedBlock
import UtxoLedger.Proofs.SeenTables

/-!
# Running scans

A scan is started on what a cursor or a snapshot sees, and advanced one record at a time while any
cursors go on working. It finds its place again at every step, as the next key behind the last one.
On the table that it was started on, this comes by every entry once and in order; what the others do
never reaches that table.
-/
namespace UtxoLedger

namespace Layout

variable {κ ρ : Type} {L : Layout κ ρ} {name : ρ → κ} {T : Table}

/-- Every entry of the table is the form of a record under the key of its own name. A record may be
too long for its form to be read back. -/
def Files (L : Layout κ ρ) (name : ρ → κ) (T : Table) : Prop :=
  ∀ key bytes : Bytes, T[key]? = some bytes → ∃ r, L.key (name r) = key ∧ L.form r = bytes

lemma files_empty : L.Files name ∅ := fun key bytes h => by simp at h

lemma Files.insert (h : L.Files name T) (r : ρ) :
    L.Files name (Std.ExtTreeMap.insert T (L.key (name r)) (L.form r)) := by
  intro key bytes found
  rw [Table.getElem?_insert] at found
  split at found
  next hkey => exact ⟨r, hkey, Option.some.inj found⟩
  · exact h key bytes found

lemma Files.erase (h : L.Files name T) (k : Bytes) : L.Files name (Std.ExtTreeMap.erase T k) := by
  intro key bytes found
  rw [Table.getElem?_erase] at found
  split at found
  · exact nomatch found
  · exact h key bytes found

lemma Files.exists_records (h : L.Files name T) :
    ∃ rs : List ρ, rs.map (fun r => (L.key (name r), L.form r)) = T.toList := by
  change T.toList ∈ Set.range (List.map fun r => (L.key (name r), L.form r))
  rw [Set.range_list_map]
  rintro ⟨key, bytes⟩ he
  obtain ⟨r, hkey, hform⟩ := h key bytes (Std.ExtTreeMap.mem_toList_iff_getElem?_eq_some.1 he)
  exact ⟨r, Prod.ext hkey hform⟩

end Layout

/-- The unspent records and the headers are filed under their own names, whatever they are. -/
structure Tables.Filed (t : Tables) : Prop where
  unspent : Layout.unspent.Files UnspentTx.hash t.unspent
  headers : Layout.headers.Files ChainedHeader.height t.headers

lemma Tables.filed_empty : Tables.empty.Filed := ⟨Layout.files_empty, Layout.files_empty⟩

/-- No change of any record puts one where it does not belong. -/
lemma Mutation.filed_apply {t : Tables} (h : t.Filed) (m : Mutation) : (m.apply t).2.Filed := by
  cases m with
  | addHeader r =>
    simp only [apply]
    split
    · exact h
    · exact ⟨h.unspent, h.headers.insert r⟩
  | removeHeader r =>
    simp only [apply]
    split
    · exact h
    · exact h
    · split
      · exact ⟨h.unspent, h.headers.erase _⟩
      · exact h
  | addUnspent u =>
    simp only [apply, added]
    split
    · exact h
    · exact ⟨h.unspent.insert u, h.headers⟩
  | removeUnspent tx => exact ⟨h.unspent.erase _, h.headers⟩
  | updateUnspent u =>
    simp only [apply]
    split
    · exact h
    · exact h
    next stored _ => exact ⟨h.unspent.insert { stored with states := u.states }, h.headers⟩
  | addSpent | addUnminted =>
    simp only [apply, added]
    split <;> exact ⟨h.unspent, h.headers⟩
  | removeSpent | removeUnminted | writeCounter => exact ⟨h.unspent, h.headers⟩

namespace Scan

/-- What a scan makes of an entry: its record, or the error of one that does not decode. -/
def record {ρ : Type} (table : TableName) (decode : Bytes → Except DecodeFault ρ)
    (e : Bytes × Bytes) : Except LedgerError ρ :=
  Tables.located table e.1 (decode e.2)

/-- `outcomes` is what can be read under the names, one after the other, and `names` are all under
which there is anything to read. -/
structure Listing {κ ρ : Type} (read : κ → Except LedgerError (Option ρ)) (name : ρ → κ)
    (Before : κ → κ → Prop) (outcomes : List (Except LedgerError ρ)) (names : List κ) : Prop where
  complete : ∀ k, k ∈ names ↔ read k ≠ .ok none
  once : names.Nodup
  /-- What is handed out is what is read, record or error. -/
  content : outcomes.map (Except.map some) = names.map read
  /-- The record that is read under a name bears it. -/
  named : ∀ k r, read k = .ok (some r) → name r = k
  ascending : names.Pairwise Before

/-- A table of records lists what can be read from it, in the order of the keys. -/
lemma exists_listing {κ ρ : Type} {L : Layout κ ρ} {name : ρ → κ} {t : Tables} (table : TableName)
    (decode : Bytes → Except DecodeFault ρ) (files : L.Files name (t.get table))
    (reads : ∀ r r', decode (L.form r) = .ok r' → name r' = name r) :
    ∃ names, Listing (fun k => t.record? table (L.key k) decode) name
      (fun a b => compare (L.key a) (L.key b) = .lt)
      ((t.get table).toList.map (record table decode)) names := by
  obtain ⟨rs, listed⟩ := files.exists_records
  have hfound : ∀ r ∈ rs, (t.get table)[L.key (name r)]? = some (L.form r) := by
    intro r hr
    rw [← Std.ExtTreeMap.mem_toList_iff_getElem?_eq_some, ← listed]
    exact List.mem_map_of_mem hr
  have hascending : (rs.map name).Pairwise fun a b => compare (L.key a) (L.key b) = .lt := by
    have hsorted : (t.get table).toList.Pairwise fun a b => compare a.1 b.1 = .lt :=
      Std.ExtTreeMap.ordered_keys_toList
    rw [← listed, List.pairwise_map] at hsorted
    exact List.pairwise_map.2 hsorted
  refine ⟨rs.map name, ?complete, ?once, ?content, ?named, hascending⟩
  case complete =>
    intro k
    rw [Ne, Tables.record?_eq_none, ← ne_eq, Option.ne_none_iff_exists']
    constructor
    · intro hk
      obtain ⟨r, hr, rfl⟩ := List.mem_map.1 hk
      exact ⟨L.form r, hfound r hr⟩
    · rintro ⟨bytes, hbytes⟩
      have hentry := Std.ExtTreeMap.mem_toList_iff_getElem?_eq_some.2 hbytes
      rw [← listed] at hentry
      obtain ⟨r, hr, he⟩ := List.mem_map.1 hentry
      exact List.mem_map.2 ⟨r, hr, L.key_inj.1 (congrArg Prod.fst he)⟩
  case once =>
    refine hascending.imp fun {a b} hab heq => ?_
    rw [heq, Std.ReflOrd.compare_self] at hab
    exact nomatch hab
  case content =>
    rw [← listed, List.map_map, List.map_map, List.map_map]
    refine List.map_congr_left fun r hr => ?_
    simp only [Function.comp_apply, Tables.record?, hfound r hr, record]
  case named =>
    intro k r' hread
    obtain ⟨bytes, hbytes, hdecode⟩ := Tables.record?_eq_some.1 hread
    obtain ⟨r, hkey, rfl⟩ := files _ _ hbytes
    exact (reads r r' hdecode).trans (L.key_inj.1 hkey)

lemma Listing.weaken {κ ρ : Type} {read : κ → Except LedgerError (Option ρ)} {name : ρ → κ}
    {Before Before' : κ → κ → Prop} {outcomes : List (Except LedgerError ρ)} {names : List κ}
    (h : Listing read name Before outcomes names) (weaker : ∀ a b, Before a b → Before' a b) :
    Listing read name Before' outcomes names :=
  { h with ascending := h.ascending.imp fun {a b} => weaker a b }

end Scan

namespace Tables.Filed

variable {t : Tables}

lemma exists_unspent (h : t.Filed) : ∃ names, Scan.Listing t.unspent? UnspentTx.hash
    (fun a b => compare a b = .lt)
    (t.unspent.toList.map (Scan.record .unspent UnspentTx.decode)) names := by
  refine Scan.exists_listing .unspent UnspentTx.decode h.unspent fun u u' hu => ?_
  have hforms : u.encode = u'.encode := UnspentTx.eq_encode_of_decode hu
  have hlength : u.hash.bytes.length = u'.hash.bytes.length :=
    u.hash.size_eq.trans u'.hash.size_eq.symm
  exact (Hash.bytes_inj.1 (List.append_inj_left hforms hlength)).symm

/-- The keys of heights from zero on order like the heights. -/
lemma exists_headers (h : t.Filed) : ∃ names, Scan.Listing t.headerAt? ChainedHeader.height
    (fun a b => 0 ≤ a.toInt → 0 ≤ b.toInt → a.toInt < b.toInt)
    (t.headers.toList.map (Scan.record .headers ChainedHeader.decode)) names := by
  have hreads : ∀ r r', ChainedHeader.decode (ChainedHeader.encode r) = .ok r' →
      r'.height = r.height := by
    intro r r' hr
    cases (ChainedHeader.decode_encode r).symm.trans hr
    rfl
  obtain ⟨names, listing⟩ := Scan.exists_listing .headers ChainedHeader.decode h.headers hreads
  refine ⟨names, listing.weaken fun a b hab ha hb => ?_⟩
  have hkeys : compare (Height.key a) (Height.key b) = .lt := hab
  rw [Height.compare_key, Nat.compare_eq_lt] at hkeys
  rw [Height.toInt_eq_toNat ha, Height.toInt_eq_toNat hb]
  exact Int.ofNat_lt.2 hkeys

end Tables.Filed

namespace Scan

/-- The entry that the scan comes by next, and the scan behind it; at the end it stays. -/
def advance (x : Scan) : Option (Bytes × Bytes) × Scan :=
  match x.next? with
  | none => (none, x)
  | some (e, x) => (some e, x)

/-- The scan of a table that has come by its first `k` entries. -/
def past (T : Table) (k : Nat) : Scan := ⟨T, (T.toList.take k).getLast?.map Prod.fst⟩

lemma advance_past (T : Table) (k : Nat) : (past T k).advance = (T.toList[k]?, past T (k + 1)) := by
  have hnext : (past T k).next? = _ :=
    next?_of_split (List.take_append_drop k T.toList).symm rfl
  rw [List.head?_drop] at hnext
  rw [advance, hnext, past, past, List.take_add_one]
  cases T.toList[k]? with
  | none => simp
  | some e => simp

end Scan

/-- Where a scan is started. -/
inductive ScanSource
  | cursor (i : Nat)
  | snapshot (j : Nat)

/-- A shared database with the snapshots that are held of it and the scans that run. -/
structure ScannedDatabase where
  shared : SharedDatabase
  snapshots : Nat → Option Snapshot
  scans : Nat → Option Scan

/-- A step of an interleaving with scans. -/
inductive ScanEvent
  | worked (e : CursorEvent)
  | pinned (j : Nat)
  | released (j : Nat)
  | started (n : Nat) (source : ScanSource) (table : TableName)
  | advanced (n : Nat)

/-- The step advances scan `n`. -/
def ScanEvent.advances (n : Nat) : ScanEvent → Bool
  | advanced m => m = n
  | _ => false

namespace ScannedDatabase

/-- A fresh database that nobody works on. -/
def fresh : ScannedDatabase := ⟨.fresh, fun _ => none, fun _ => none⟩

/-- The tables that a scan is started on. -/
def view? (s : ScannedDatabase) : ScanSource → Option Tables
  | .cursor i => (s.shared.cursors i).map fun c => (Session.mk s.shared.db c).view
  | .snapshot j => (s.snapshots j).map Snapshot.tables

/-- Snapshots and scans take numbers that are free. A scan is not bound to its source: that may go
on, and go away. -/
def step (s : ScannedDatabase) : ScanEvent → ScannedDatabase
  | .worked e => { s with shared := s.shared.step e }
  | .pinned j =>
    match s.snapshots j, Snapshot.take s.shared.db with
    | none, .ok x => { s with snapshots := Function.update s.snapshots j (some x) }
    | _, _ => s
  | .released j => { s with snapshots := Function.update s.snapshots j none }
  | .started n source table =>
    match s.scans n, s.view? source with
    | none, some t => { s with scans := Function.update s.scans n (some (.start (t.get table))) }
    | _, _ => s
  | .advanced n =>
    match s.scans n with
    | none => s
    | some x => { s with scans := Function.update s.scans n (some x.advance.2) }

/-- The entry that scan `n` hands out when it is advanced. -/
def next? (s : ScannedDatabase) (n : Nat) : Option (Bytes × Bytes) :=
  (s.scans n).bind fun x => x.advance.1

/-- What the advances of scan `n` hand out, one after the other, `none` at the end. -/
def handed (n : Nat) : ScannedDatabase → List ScanEvent → List (Option (Bytes × Bytes))
  | _, [] => []
  | s, e :: rest =>
    if e.advances n then s.next? n :: handed n (s.step e) rest else handed n (s.step e) rest

/-- The database after the steps of an interleaving. -/
def after (events : List ScanEvent) : ScannedDatabase := events.foldl step fresh

variable {s : ScannedDatabase} {n k : Nat} {T : Table} {t : Tables} {source : ScanSource}
  {e : ScanEvent} {before : List ScanEvent}

lemma after_concat (before : List ScanEvent) (e : ScanEvent) :
    after (before ++ [e]) = (after before).step e := List.foldl_append

/-- All tables that a scan can be started on are filed. -/
structure Filed (s : ScannedDatabase) : Prop where
  shared : s.shared.Throughout Tables.Filed
  snapshots : ∀ j x, s.snapshots j = some x → x.tables.Filed

lemma Filed.hold (h : s.Filed) (j : Nat) {x? : Option Snapshot}
    (new : ∀ x, x? = some x → x.tables.Filed) :
    Filed { s with snapshots := Function.update s.snapshots j x? } := by
  refine ⟨h.shared, fun j' x hx => ?_⟩
  simp only [Function.update_apply] at hx
  split at hx
  · exact new x hx
  · exact h.snapshots j' x hx

lemma Filed.step (h : s.Filed) (e : ScanEvent) : (s.step e).Filed := by
  cases e with
  | worked e => exact ⟨h.shared.step fun _ m _ _ ht => m.filed_apply ht, h.snapshots⟩
  | pinned j =>
    simp only [ScannedDatabase.step]
    split
    next x free taken =>
      refine h.hold j fun x' hx => ?_
      obtain rfl := Option.some.inj hx
      rw [(Snapshot.ofTables_eq_ok.1 taken).2]
      exact h.shared.committed
    · exact h
  | released j => exact h.hold j fun _ hx => nomatch hx
  | started | advanced =>
    simp only [ScannedDatabase.step]
    split <;> exact ⟨h.shared, h.snapshots⟩

lemma filed_after (events : List ScanEvent) : (after events).Filed := by
  induction events using List.reverseRecOn with
  | nil => exact ⟨SharedDatabase.throughout_fresh Tables.filed_empty, fun _ _ hx => nomatch hx⟩
  | append_singleton events e ih =>
    rw [after_concat]
    exact ih.step e

lemma Filed.view (h : s.Filed) (seen : s.view? source = some t) : t.Filed := by
  cases source with
  | cursor i =>
    obtain ⟨c, hc, rfl⟩ := Option.map_eq_some_iff.1 seen
    exact h.shared.view hc
  | snapshot j =>
    obtain ⟨x, hx, rfl⟩ := Option.map_eq_some_iff.1 seen
    exact h.snapshots j x hx

lemma scans_started (free : s.scans n = none) (seen : s.view? source = some t)
    (table : TableName) : (s.step (.started n source table)).scans n = some (.past (t.get table) 0) := by
  simp only [step, free, seen, Function.update_self]
  rfl

/-- Nothing but its own advances moves a scan. -/
lemma scans_step_of_not_advances (running : s.scans n = some (.past T k))
    (still : e.advances n = false) : (s.step e).scans n = some (.past T k) := by
  cases e with
  | worked | released => exact running
  | pinned j =>
    simp only [step]
    split <;> exact running
  | started m source table =>
    simp only [step]
    split
    next t free _ =>
      have hne : n ≠ m := by
        rintro rfl
        exact nomatch free.symm.trans running
      simpa [hne] using running
    · exact running
  | advanced m =>
    have hne : n ≠ m := fun h => by simp [ScanEvent.advances, h] at still
    simp only [step]
    split
    · exact running
    · simpa [hne] using running

/-- An advance hands out the entry that the scan has come to. -/
lemma next?_of_past (running : s.scans n = some (.past T k)) : s.next? n = T.toList[k]? := by
  rw [next?, running, Option.bind_some, Scan.advance_past]

lemma scans_step_of_advances (running : s.scans n = some (.past T k))
    (advancing : e.advances n = true) : (s.step e).scans n = some (.past T (k + 1)) := by
  cases e with
  | advanced m =>
    obtain rfl : m = n := by simpa [ScanEvent.advances] using advancing
    simp only [step, running, Function.update_self, Scan.advance_past]
  | worked | pinned | released | started => exact nomatch advancing

/-- A running scan hands out the entries of its table from where it has come to. -/
lemma handed_of_past {during : List ScanEvent} (running : s.scans n = some (.past T k)) :
    handed n s during =
      (List.range' k (during.countP (·.advances n))).map (T.toList[·]?) := by
  induction during generalizing s k with
  | nil => rfl
  | cons e rest ih =>
    rw [handed]
    cases hadvances : e.advances n with
    | true =>
      rw [if_pos rfl, next?_of_past running, ih (scans_step_of_advances running hadvances),
        List.countP_cons_of_pos hadvances, List.range'_succ, List.map_cons]
    | false =>
      rw [if_neg Bool.false_ne_true, ih (scans_step_of_not_advances running hadvances),
        List.countP_cons_of_neg (Bool.eq_false_iff.1 hadvances)]

/-- Whatever happens once the scan is started, its advances hand out these outcomes one after the
other, and nothing when there are no more. -/
def HandsOut {ρ : Type} (before : List ScanEvent) (n : Nat) (source : ScanSource)
    (table : TableName) (decode : Bytes → Except DecodeFault ρ)
    (outcomes : List (Except LedgerError ρ)) : Prop :=
  ∀ during, (handed n (after (before ++ [.started n source table])) during).map
      (Option.map (Scan.record table decode)) =
    (List.range (during.countP (·.advances n))).map (outcomes[·]?)

lemma handsOut {ρ : Type} {decode : Bytes → Except DecodeFault ρ}
    (free : (after before).scans n = none) (seen : (after before).view? source = some t)
    (table : TableName) : HandsOut before n source table decode
      ((t.get table).toList.map (Scan.record table decode)) := by
  intro during
  have hstart := scans_started free seen table
  rw [← after_concat] at hstart
  rw [handed_of_past hstart, ← List.range_eq_range', List.map_map]
  refine List.map_congr_left fun k _ => ?_
  rw [Function.comp_apply, List.getElem?_map]

/-- A running scan never wavers. Whatever cursors, snapshots and other scans do between its
advances, it hands out what its source could read when it was started: everything that there was,
once, as it was then, in ascending order of the names, and nothing after that. -/
theorem running_scan_steady (free : (after before).scans n = none)
    (seen : (after before).view? source = some t) :
    (∃ outcomes names, HandsOut before n source .unspent UnspentTx.decode outcomes ∧
      Scan.Listing t.unspent? UnspentTx.hash (fun a b => compare a b = .lt) outcomes names) ∧
    ∃ outcomes names, HandsOut before n source .headers ChainedHeader.decode outcomes ∧
      Scan.Listing t.headerAt? ChainedHeader.height
        (fun a b => 0 ≤ a.toInt → 0 ≤ b.toInt → a.toInt < b.toInt) outcomes names := by
  have filed := (filed_after before).view seen
  obtain ⟨txs, hunspent⟩ := filed.exists_unspent
  obtain ⟨heights, hheaders⟩ := filed.exists_headers
  exact ⟨⟨_, txs, handsOut free seen .unspent, hunspent⟩,
    _, heights, handsOut free seen .headers, hheaders⟩

/-- A name that comes behind the name of zeros. -/
def laterHash : Hash := ⟨List.replicate 32 2, rfl⟩

/-- Two records are stored. -/
def storingEvents : List ScanEvent := [.worked (.opened 0), .worked (.asked 0 (.begin false)),
  .worked (.asked 0 (.mutate (.addUnspent ⟨laterHash, 2, 0, .filled 3 .unspent⟩))),
  .worked (.asked 0 (.mutate (.addUnspent ⟨.zero, 7, 1, .filled 9 .unspent⟩))),
  .worked (.asked 0 .commit)]

/-- Between the first and the second record, the second one is removed. -/
def removingEvents : List ScanEvent := [.advanced 5, .worked (.opened 1),
  .worked (.asked 1 (.begin false)), .worked (.asked 1 (.mutate (.removeUnspent laterHash))),
  .worked (.asked 1 .commit), .advanced 5, .advanced 5]

/-- A scan that hands out a record which is gone. -/
theorem running_scan_steady_removed : ∃ t t' outcomes names,
    (after storingEvents).view? (.cursor 0) = some t ∧
    (after (storingEvents ++ [.started 5 (.cursor 0) .unspent] ++ removingEvents)).view?
      (.cursor 0) = some t' ∧ t'.unspent? laterHash = .ok none ∧
    Scan.Listing t.unspent? UnspentTx.hash (fun a b => compare a b = .lt) outcomes names ∧
    laterHash ∈ names ∧
    (handed 5 (after (storingEvents ++ [.started 5 (.cursor 0) .unspent])) removingEvents).map
        (Option.map (Scan.record .unspent UnspentTx.decode)) =
      [outcomes[0]?, outcomes[1]?, outcomes[2]?] := by
  have hviews : ∃ t t', (after storingEvents).view? (.cursor 0) = some t ∧
      (after (storingEvents ++ [.started 5 (.cursor 0) .unspent] ++ removingEvents)).view?
        (.cursor 0) = some t' ∧
      t'.unspent[laterHash.bytes]? = none ∧ t.unspent[laterHash.bytes]? ≠ none :=
    ⟨_, _, rfl, rfl, by decide +kernel⟩
  obtain ⟨t, t', seen, later, gone, stored⟩ := hviews
  have free : (after storingEvents).scans 5 = none := rfl
  obtain ⟨⟨outcomes, names, hands, listing⟩, -⟩ := running_scan_steady free seen
  have hstored : laterHash ∈ names := by
    rw [listing.complete, Ne, Tables.unspent?_eq_none]
    exact stored
  exact ⟨t, t', outcomes, names, seen, later, Tables.unspent?_eq_none.2 gone, listing, hstored,
    hands removingEvents⟩

end ScannedDatabase
end UtxoLedger

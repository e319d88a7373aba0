import UtxoLedger.Proofs.RecordLists
import UtxoLedger.Proofs.SeenTables

/-!
# The commitment pins down the unspent set

Whatever was asked of the cursors of a store, every entry of an unspent table stays a record under
its own name. So the records that a cursor sees stand in one order, that of their names, and the
string of their forms can be taken apart in one way only: two cursors see the same records exactly
if the strings that they hash are the same.
-/
namespace UtxoLedger

namespace Table

variable {U V : Table}

lemma Keyed.sorted (h : U.Keyed) :
    U.records.Pairwise fun u v => compare u.hash v.hash = .lt := by
  have hsorted : U.toList.Pairwise fun a b => compare a.1 b.1 = .lt :=
    Std.ExtTreeMap.ordered_keys_toList
  rw [records, List.pairwise_filterMap]
  refine hsorted.imp_of_mem ?_
  intro a b ha hb hab u hu v hv
  obtain ⟨u', hbytes, hsize, hkey⟩ :=
    h a.1 a.2 (Std.ExtTreeMap.mem_toList_iff_getElem?_eq_some.1 ha)
  obtain ⟨v', hbytes', hsize', hkey'⟩ :=
    h b.1 b.2 (Std.ExtTreeMap.mem_toList_iff_getElem?_eq_some.1 hb)
  rw [hbytes, UnspentTx.decode_encode hsize] at hu
  rw [hbytes', UnspentTx.decode_encode hsize'] at hv
  obtain rfl : u' = u := Option.some.inj hu
  obtain rfl : v' = v := Option.some.inj hv
  rwa [Hash.compare_def, hkey, hkey']

/-- Tables with the same records are the same. -/
lemma Keyed.ext (hU : U.Keyed) (hV : V.Keyed) (h : ∀ u, u ∈ U.records ↔ u ∈ V.records) :
    U = V := by
  have hsub : ∀ {U V : Table}, U.Keyed → V.Keyed → (∀ u, u ∈ U.records → u ∈ V.records) →
      ∀ k bytes : Bytes, U[k]? = some bytes → V[k]? = some bytes := by
    intro U V hU hV hmem k bytes hk
    obtain ⟨u, rfl, hsize, rfl⟩ := hU k bytes hk
    exact (hV.mem_records.1 (hmem u (hU.mem_records.2 ⟨hk, hsize⟩))).1
  apply Std.ExtTreeMap.ext_getElem?
  intro k
  apply Option.ext
  intro bytes
  exact ⟨hsub hU hV (fun u => (h u).1) k bytes, hsub hV hU (fun u => (h u).2) k bytes⟩

end Table

namespace Tables

variable {t t₁ t₂ : Tables}

/-- The record is in the unspent set. -/
def Holds (t : Tables) (u : UnspentTx) : Prop := t.unspent? u.hash = .ok (some u)

lemma mem_records (h : t.unspent.Keyed) {u : UnspentTx} : u ∈ t.unspent.records ↔ t.Holds u := by
  rw [h.mem_records, Holds, unspent?_eq_some]

/-- What is hashed for the tables: the forms of `us`, which are the records of the unspent set in
ascending order of their names. -/
structure Hashed (t : Tables) (us : List UnspentTx) : Prop where
  ascending : us.Pairwise fun u v => compare u.hash v.hash = .lt
  mem : ∀ u, u ∈ us ↔ t.Holds u
  bytes : t.unspentBytes = .ok (us.flatMap UnspentTx.encode)
  commitment : t.commitment = .ok (doubleSha256 (us.flatMap UnspentTx.encode))

lemma hashed (h : t.unspent.Keyed) : t.Hashed t.unspent.records := by
  have hbytes : t.unspentBytes = .ok (t.unspent.records.flatMap UnspentTx.encode) := by
    rw [unspentBytes, allUnspent_eq h]
    rfl
  refine ⟨h.sorted, fun u => mem_records h, hbytes, ?_⟩
  rw [Tables.commitment, hbytes]
  rfl

/-- The string can be taken apart in one way only. -/
lemma unspentBytes_eq_iff (h₁ : t₁.unspent.Keyed) (h₂ : t₂.unspent.Keyed) :
    t₁.unspentBytes = t₂.unspentBytes ↔ ∀ u, t₁.Holds u ↔ t₂.Holds u := by
  have hsize : ∀ {t : Tables}, t.unspent.Keyed → ∀ u ∈ t.unspent.records, u.states.size < 2 ^ 32 :=
    fun h u hu => (h.mem_records.1 hu).2
  rw [(hashed h₁).bytes, (hashed h₂).bytes, Except.ok.injEq]
  constructor
  · intro h u
    rw [← mem_records h₁, ← mem_records h₂,
      UnspentTx.decoder_reads.flatMap_inj UnspentTx.encode_ne_nil (hsize h₁) (hsize h₂) h]
  · intro h
    have hsame : t₁.unspent = t₂.unspent := by
      apply h₁.ext h₂
      intro u
      rw [mem_records h₁, mem_records h₂]
      exact h u
    rw [hsame]

end Tables

/-- The record that the change writes, if it writes one, has fewer outputs than a count can hold. -/
def Mutation.Countable : Mutation → Prop
  | addUnspent u => u.states.size < 2 ^ 32
  | updateUnspent u => u.states.size < 2 ^ 32
  | _ => True

lemma Mutation.keyed_apply {t : Tables} (h : t.unspent.Keyed) {m : Mutation} (hm : m.Countable) :
    (m.apply t).2.unspent.Keyed := by
  cases m with
  | addHeader | addSpent | addUnminted =>
    simp only [apply, added]
    split <;> exact h
  | removeHeader =>
    simp only [apply]
    split
    · exact h
    · exact h
    · split <;> exact h
  | addUnspent u =>
    simp only [apply, added]
    split
    · exact h
    · exact h.insert hm
  | removeUnspent tx => exact h.erase tx.bytes
  | updateUnspent u =>
    simp only [apply]
    split
    · exact h
    · exact h
    next stored _ => exact h.insert (u := { stored with states := u.states }) hm
  | removeSpent | removeUnminted | writeCounter => exact h

/-- The tables of the cursor's own, if it has any, are keyed by name. -/
def Cursor.Keyed : Cursor → Prop
  | idle => True
  | reading view => view.unspent.Keyed
  | writing t _ => t.unspent.Keyed

/-- Nothing but a change writes a record. -/
def CursorEvent.Countable : CursorEvent → Prop
  | asked _ (.mutate m) => m.Countable
  | _ => True

namespace SharedDatabase

variable {s : SharedDatabase} {i : Nat} {t : Tables}

/-- All the unspent tables that there are, are keyed by name. -/
structure Keyed (s : SharedDatabase) : Prop where
  committed : s.db.committed.tables.unspent.Keyed
  own : ∀ i c, s.cursors i = some c → c.Keyed

lemma keyed_iff : s.Keyed ↔ s.Throughout fun t => t.unspent.Keyed := by
  have hcursor : ∀ c : Cursor, c.Keyed ↔ c.Holds fun t => t.unspent.Keyed := by
    intro c
    cases c <;> rfl
  constructor
  · exact fun h => ⟨h.committed, fun i c hc => (hcursor c).1 (h.own i c hc)⟩
  · exact fun h => ⟨h.committed, fun i c hc => (hcursor c).2 (h.own i c hc)⟩

lemma keyed_after {events : List CursorEvent} (small : ∀ e ∈ events, e.Countable) :
    (after events).Keyed := by
  refine keyed_iff.2 (throughout_after Table.keyed_empty fun e he => ?_)
  rintro i m rfl t ht
  exact Mutation.keyed_apply ht (small _ he)

lemma Sees.keyed (sees : s.Sees i t) (h : s.Keyed) : t.unspent.Keyed :=
  (keyed_iff.1 h).of_sees sees

/-- The commitment pins down the unspent set. Two cursors, on the same store or on different ones,
whatever was asked there before, hash the same string exactly if they see the same records. The
string is the forms of the records in ascending order of their names; so the same records have the
same commitment, and different ones with one commitment give two strings that collide. -/
theorem commitment_pins_unspent {events₁ events₂ : List CursorEvent} {i₁ i₂ : Nat} {t₁ t₂ : Tables}
    (small₁ : ∀ e ∈ events₁, e.Countable) (small₂ : ∀ e ∈ events₂, e.Countable)
    (sees₁ : (after events₁).Sees i₁ t₁) (sees₂ : (after events₂).Sees i₂ t₂) :
    ∃ us₁ us₂, t₁.Hashed us₁ ∧ t₂.Hashed us₂ ∧
      (us₁.flatMap UnspentTx.encode = us₂.flatMap UnspentTx.encode ↔
        ∀ u, t₁.Holds u ↔ t₂.Holds u) ∧
      ((∀ u, t₁.Holds u ↔ t₂.Holds u) → t₁.commitment = t₂.commitment) ∧
      (¬ (∀ u, t₁.Holds u ↔ t₂.Holds u) → t₁.commitment = t₂.commitment →
        us₁.flatMap UnspentTx.encode ≠ us₂.flatMap UnspentTx.encode ∧
          doubleSha256 (us₁.flatMap UnspentTx.encode) =
            doubleSha256 (us₂.flatMap UnspentTx.encode)) := by
  have h₁ := sees₁.keyed (keyed_after small₁)
  have h₂ := sees₂.keyed (keyed_after small₂)
  have hbytes := Tables.unspentBytes_eq_iff h₁ h₂
  have hhashed₁ := Tables.hashed h₁
  have hhashed₂ := Tables.hashed h₂
  refine ⟨_, _, hhashed₁, hhashed₂, ?_, ?_, ?_⟩
  · rw [← hbytes, hhashed₁.bytes, hhashed₂.bytes, Except.ok.injEq]
  · intro hsame
    rw [Tables.commitment, hbytes.2 hsame, Tables.commitment]
  · intro hdiffer hequal
    rw [hhashed₁.commitment, hhashed₂.commitment, Except.ok.injEq] at hequal
    refine ⟨fun h => hdiffer (hbytes.1 ?_), hequal⟩
    rw [hhashed₁.bytes, hhashed₂.bytes, h]

/-- A record is added. -/
def directEvents : List CursorEvent := [.opened 0, .asked 0 (.begin false),
  .asked 0 (.mutate (.addUnspent ⟨.zero, 7, 1, .filled 9 .unspent⟩))]

/-- It is added beside another one, which goes again, and is then put into its last state. -/
def detourEvents : List CursorEvent := [.opened 3, .asked 3 (.begin false),
  .asked 3 (.mutate (.addUnspent ⟨⟨List.replicate 32 1, rfl⟩, 2, 0, .filled 3 .unspent⟩)),
  .asked 3 (.mutate (.addUnspent ⟨.zero, 7, 1, .filled 9 .spent⟩)), .asked 3 .commit,
  .opened 5, .asked 5 (.begin false),
  .asked 5 (.mutate (.removeUnspent ⟨List.replicate 32 1, rfl⟩)),
  .asked 5 (.mutate (.updateUnspent ⟨.zero, 0, 0, .filled 9 .unspent⟩)), .asked 5 .commit]

/-- Two ways to the same record. -/
theorem commitment_pins_unspent_detour : ∃ t₁ t₂,
    (after directEvents).Sees 0 t₁ ∧ (after detourEvents).Sees 3 t₂ ∧
      t₁.commitment = t₂.commitment := by
  have hsame : ∃ c₁ c₂, (after directEvents).cursors 0 = some c₁ ∧
      (after detourEvents).cursors 3 = some c₂ ∧
      (Session.mk (after directEvents).db c₁).view.unspent =
        (Session.mk (after detourEvents).db c₂).view.unspent := ⟨_, _, rfl, rfl, by decide +kernel⟩
  obtain ⟨c₁, c₂, hc₁, hc₂, hsame⟩ := hsame
  have hsmall₁ : ∀ e ∈ directEvents, e.Countable := by
    simp [directEvents, CursorEvent.Countable, Mutation.Countable, OutputStates.filled]
  have hsmall₂ : ∀ e ∈ detourEvents, e.Countable := by
    simp [detourEvents, CursorEvent.Countable, Mutation.Countable, OutputStates.filled]
  obtain ⟨us₁, us₂, -, -, -, hcommit, -⟩ :=
    commitment_pins_unspent hsmall₁ hsmall₂ (sees_view hc₁) (sees_view hc₂)
  refine ⟨_, _, sees_view hc₁, sees_view hc₂, hcommit fun u => ?_⟩
  rw [Tables.Holds, Tables.Holds, Tables.unspent?_eq_some, Tables.unspent?_eq_some, hsame]

end SharedDatabase
end UtxoLedger

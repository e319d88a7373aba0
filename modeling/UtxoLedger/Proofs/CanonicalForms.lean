import Mathlib.Algebra.Group.Nat.Defs
import Mathlib.Tactic.Common
import UtxoLedger.Record.Codec
import UtxoLedger.Proofs.WriteTransaction

/-!
# One byte form for every record

A decoder that `Reads` a form takes it from the front of a byte string, misses bytes wherever the
form is cut short, and accepts nothing but forms of values that fit. Sequences, counted lists and
checks keep this, so it holds of every stored record: records and byte forms correspond one to one.
Counts take four bytes, so lists fit while they have fewer than 2 ^ 32 entries.
-/
namespace UtxoLedger

namespace Bytes

@[simp] lemma length_ofUInt32 (n : UInt32) : (ofUInt32 n).length = 4 := by simp [ofUInt32]

lemma ofLittleEndian_ofUInt32 (n : UInt32) :
    UInt32.ofNat (ofLittleEndian (ofUInt32 n)) = n := by
  have h : n.toNat < Nat.pow 256 4 := n.toNat_lt
  rw [ofUInt32, ofLittleEndian_littleEndian, Nat.mod_eq_of_lt h, UInt32.ofNat_toNat]

lemma ofUInt32_ofLittleEndian {bs : Bytes} (h : bs.length = 4) :
    ofUInt32 (UInt32.ofNat (ofLittleEndian bs)) = bs := by
  have hlt := ofLittleEndian_lt bs
  have hn : (UInt32.ofNat (ofLittleEndian bs)).toNat = ofLittleEndian bs :=
    UInt32.toNat_ofNat_of_lt' (by rw [h] at hlt; exact hlt)
  have hb := littleEndian_ofLittleEndian bs
  rw [h] at hb
  rw [ofUInt32, hn, hb]

lemma count_eq_ofUInt32 {n : Nat} (h : n < 2 ^ 32) : count n = ofUInt32 (UInt32.ofNat n) := by
  rw [count, ofUInt32, UInt32.toNat_ofNat_of_lt' h]

lemma count_inj {n m : Nat} (hn : n < 2 ^ 32) (hm : m < 2 ^ 32) : count n = count m ↔ n = m := by
  refine ⟨fun h => ?_, fun h => h ▸ rfl⟩
  rw [count_eq_ofUInt32 hn, count_eq_ofUInt32 hm] at h
  have hword := congrArg (fun bs => UInt32.ofNat (ofLittleEndian bs)) h
  simp only [ofLittleEndian_ofUInt32] at hword
  rw [← UInt32.toNat_ofNat_of_lt' hn, hword, UInt32.toNat_ofNat_of_lt' hm]

/-- A number that a four-byte count can hold. -/
lemma eq_toNat_ofNat_iff {n : Nat} : n = (UInt32.ofNat n).toNat ↔ n < 2 ^ 32 :=
  ⟨fun h => h ▸ UInt32.toNat_lt _, fun h => (UInt32.toNat_ofNat_of_lt' h).symm⟩

end Bytes

lemma Hash.bytes_ne_nil (h : Hash) : h.bytes ≠ [] := by
  intro hnil
  have hlen := h.size_eq
  rw [hnil] at hlen
  exact nomatch hlen

namespace Decoder

variable {α β : Type}

lemma bind_eq_ok {d : Decoder α} {f : α → Decoder β} {r r' : Reader} {b : β} :
    (d >>= f) r = .ok (b, r') ↔ ∃ a s, d r = .ok (a, s) ∧ f a s = .ok (b, r') := by
  change (d r >>= fun p => f p.1 p.2) = _ ↔ _
  rw [UtxoLedger.bind_eq_ok]
  exact ⟨fun ⟨p, h⟩ => ⟨p.1, p.2, h⟩, fun ⟨a, s, h⟩ => ⟨(a, s), h⟩⟩

lemma pure_eq_ok {a b : α} {r r' : Reader} :
    (pure a : Decoder α) r = .ok (b, r') ↔ a = b ∧ r = r' := by
  change Except.ok (a, r) = _ ↔ _
  simp

/-- The decoder reads the front `bs` as `a` and leaves what is behind it. -/
def Takes (d : Decoder α) (bs : Bytes) (a : α) : Prop :=
  ∀ rest n, d ⟨bs ++ rest, n⟩ = .ok (a, ⟨rest, n + bs.length⟩)

/-- Wherever the form `bs` is cut, the decoder misses bytes and says how many are left. -/
def Starves (d : Decoder α) (bs : Bytes) : Prop :=
  ∀ front back n, front ++ back = bs → back ≠ [] →
    ∃ wanted offset remaining, remaining < wanted ∧ offset + remaining = n + front.length ∧
      d ⟨front, n⟩ = .error (.endOfData wanted offset remaining)

/-- Whatever the decoder accepts starts with the form that `form` gives to the value. -/
def Only (d : Decoder α) (form : α → Bytes) : Prop :=
  ∀ r a r', d r = .ok (a, r') → r.rest = form a ++ r'.rest

/-- The decoder reads exactly the values that fit, each from its form alone. -/
structure Reads (d : Decoder α) (form : α → Bytes) (Fits : α → Prop) : Prop where
  takes : ∀ a, Fits a → d.Takes (form a) a
  starves : ∀ a, Fits a → d.Starves (form a)
  only : d.Only form
  fits : ∀ r a r', d r = .ok (a, r') → Fits a

section Sequencing

variable {d : Decoder α} {f : α → Decoder β} {as bs : Bytes} {a : α} {b : β}

lemma Takes.before (hd : d.Takes as a) (rest : Bytes) (n : Nat) :
    (d >>= f) ⟨as ++ rest, n⟩ = f a ⟨rest, n + as.length⟩ := by
  change (d _ >>= fun p => f p.1 p.2) = _
  rw [hd]
  rfl

lemma Takes.bind (hd : d.Takes as a) (hf : (f a).Takes bs b) : (d >>= f).Takes (as ++ bs) b := by
  intro rest n
  rw [List.append_assoc, hd.before, hf, List.length_append, Nat.add_assoc]

/-- A form of two parts is cut within the first part or within the second. -/
lemma Starves.bind (hd : d.Starves as) (ht : d.Takes as a) (hf : (f a).Starves bs) :
    (d >>= f).Starves (as ++ bs) := by
  have hsecond : ∀ mid back n, mid ++ back = bs → back ≠ [] →
      ∃ wanted offset remaining, remaining < wanted ∧
        offset + remaining = n + (as ++ mid).length ∧
        (d >>= f) ⟨as ++ mid, n⟩ = .error (.endOfData wanted offset remaining) := by
    intro mid back n hmid hback
    obtain ⟨wanted, offset, remaining, hlt, hsum, he⟩ := hf mid back (n + as.length) hmid hback
    refine ⟨wanted, offset, remaining, hlt, by rw [List.length_append]; omega, ?_⟩
    rw [ht.before, he]
  intro front back n hcut hback
  obtain ⟨mid, rfl, hmid⟩ | ⟨mid, rfl, hmid⟩ := List.append_eq_append_iff.1 hcut
  · by_cases hnil : mid = []
    · subst hnil
      have h := hsecond [] back n hmid hback
      rwa [List.append_nil, List.append_nil] at h
    · obtain ⟨wanted, offset, remaining, hlt, hsum, he⟩ := hd front mid n rfl hnil
      refine ⟨wanted, offset, remaining, hlt, hsum, ?_⟩
      change (d ⟨front, n⟩ >>= fun p => f p.1 p.2) = _
      rw [he]
      rfl
  · exact hsecond mid back n hmid.symm hback

end Sequencing

namespace Reads

variable {d : Decoder α} {f : α → Decoder β} {form : α → Bytes} {form' : β → Bytes}
  {Fits : α → Prop}

lemma congr {shape : α → Bytes} {Apt : α → Prop} (hd : d.Reads form Fits)
    (hform : ∀ a, Apt a → shape a = form a) (hfits : ∀ a, Apt a ↔ Fits a) :
    d.Reads shape Apt := by
  constructor
  · intro a ha
    rw [hform a ha]
    exact hd.takes a ((hfits a).1 ha)
  · intro a ha
    rw [hform a ha]
    exact hd.starves a ((hfits a).1 ha)
  · intro r a r' h
    rw [hform a ((hfits a).2 (hd.fits r a r' h))]
    exact hd.only r a r' h
  · intro r a r' h
    exact (hfits a).2 (hd.fits r a r' h)

lemma pure (a : α) : Reads (Pure.pure a) (fun _ => []) (· = a) := by
  constructor
  · intro b hb rest n
    subst hb
    rfl
  · intro b _ front back n hcut hback
    exact absurd (List.append_eq_nil_iff.1 hcut).2 hback
  · intro r b r' h
    obtain ⟨rfl, rfl⟩ := pure_eq_ok.1 h
    rfl
  · intro r b r' h
    exact (pure_eq_ok.1 h).1.symm

lemma throw (e : DecodeFault) : Reads (throw e) (fun _ : α => []) fun _ => False := by
  constructor
  · intro a h
    exact h.elim
  · intro a h
    exact h.elim
  · intro r a r' h
    exact nomatch h
  · intro r a r' h
    exact nomatch h

/-- One decoder after the other reads the forms put together. -/
lemma bind {Fits' : α → β → Prop} (whole : β → Bytes) (hd : d.Reads form Fits)
    (hf : ∀ a, Fits a → (f a).Reads form' (Fits' a))
    (hwhole : ∀ a b, Fits a → Fits' a b → whole b = form a ++ form' b) :
    (d >>= f).Reads whole fun b => ∃ a, Fits a ∧ Fits' a b := by
  constructor
  · rintro b ⟨a, ha, hb⟩
    rw [hwhole a b ha hb]
    exact (hd.takes a ha).bind ((hf a ha).takes b hb)
  · rintro b ⟨a, ha, hb⟩
    rw [hwhole a b ha hb]
    exact (hd.starves a ha).bind (hd.takes a ha) ((hf a ha).starves b hb)
  · intro r b r' h
    obtain ⟨a, s, h1, h2⟩ := bind_eq_ok.1 h
    have ha := hd.fits r a s h1
    rw [hwhole a b ha ((hf a ha).fits s b r' h2), hd.only r a s h1, (hf a ha).only s b r' h2,
      List.append_assoc]
  · intro r b r' h
    obtain ⟨a, s, h1, h2⟩ := bind_eq_ok.1 h
    have ha := hd.fits r a s h1
    exact ⟨a, ha, (hf a ha).fits s b r' h2⟩

/-- A record whose first part is `part`. -/
lemma field {Fits' : α → β → Prop} (part : β → α) (hd : d.Reads form Fits)
    (hf : ∀ a, (f a).Reads form' (Fits' a)) (hpart : ∀ a b, Fits' a b → part b = a) :
    (d >>= f).Reads (fun b => form (part b) ++ form' b)
      fun b => Fits (part b) ∧ Fits' (part b) b := by
  refine (hd.bind (fun b => form (part b) ++ form' b) (fun a _ => hf a) fun a b _ hb => ?_).congr
    (fun _ _ => rfl) ?_
  · rw [hpart a b hb]
  intro b
  constructor
  · intro h
    exact ⟨part b, h⟩
  · rintro ⟨a, ha, hb⟩
    rw [hpart a b hb]
    exact ⟨ha, hb⟩

/-- The last part of a record. -/
lemma last {make : α → β} (part : β → α) (hd : d.Reads form Fits)
    (hpart : ∀ a, part (make a) = a) :
    (d >>= fun a => Pure.pure (make a)).Reads (fun b => form (part b))
      fun b => Fits (part b) ∧ b = make (part b) := by
  refine (hd.field part (fun a => pure (make a)) ?_).congr ?_ fun _ => Iff.rfl
  · rintro a b rfl
    exact hpart a
  · intro b _
    exact (List.append_nil _).symm

end Reads

lemma take_reads (n : Nat) : (take n).Reads Subtype.val fun _ => True := by
  constructor
  · rintro ⟨bs, hbs⟩ - rest k
    have ht : (bs ++ rest).take n = bs := List.take_left' hbs
    have hd : (bs ++ rest).drop n = rest := List.drop_left' hbs
    simp only [take, ht, hd, hbs, dif_pos]
  · rintro ⟨bs, hbs⟩ - front back k hcut hback
    have hlt : front.length < n := by
      have hlen := congrArg List.length hcut
      have := List.length_pos_iff.2 hback
      simp only [List.length_append] at hlen
      omega
    refine ⟨n, k, front.length, hlt, rfl, ?_⟩
    rw [take, dif_neg (by simp only [List.length_take]; omega)]
  · intro r a r' h
    unfold take at h
    split at h
    · cases h
      exact (List.take_append_drop n r.rest).symm
    · exact nomatch h
  · intros
    trivial

lemma hash_reads : hash.Reads Hash.bytes fun _ => True :=
  ((take_reads 32).last (fun h : Hash => ⟨h.bytes, h.size_eq⟩) fun _ => rfl).congr
    (fun _ _ => rfl) fun _ => by simp

lemma uint32_reads : uint32.Reads Bytes.ofUInt32 fun _ => True :=
  ((take_reads 4).last (fun n => ⟨Bytes.ofUInt32 n, Bytes.length_ofUInt32 n⟩)
    fun bs => Subtype.ext (Bytes.ofUInt32_ofLittleEndian bs.2)).congr
    (fun _ _ => rfl) fun n => by simp [Bytes.ofLittleEndian_ofUInt32]

lemma int32_reads : int32.Reads Bytes.ofInt32 fun _ => True :=
  (uint32_reads.last Int32.toUInt32 fun _ => rfl).congr (fun _ _ => rfl) fun n => by simp

lemma work_reads : work.Reads (fun w => Bytes.littleEndian 16 w.toNat) fun _ => True := by
  refine ((take_reads 16).last (fun w : Work =>
    ⟨Bytes.littleEndian 16 w.toNat, Bytes.length_littleEndian 16 w.toNat⟩) ?_).congr
    (fun _ _ => rfl) ?_
  · rintro ⟨bs, hbs⟩
    apply Subtype.ext
    have h := Bytes.littleEndian_ofLittleEndian bs
    rwa [hbs] at h
  · intro w
    have h := Bytes.ofLittleEndian_littleEndian 16 w.toNat
    rw [Nat.mod_eq_of_lt (show w.toNat < Nat.pow 256 16 from w.isLt)] at h
    simp only [true_and, true_iff]
    exact Work.ext_toNat h.symm

variable {d : Decoder α} {form : α → Bytes} {Fits : α → Prop}

/-- By induction on the number of values still to be read. -/
lemma Reads.repeated (hd : d.Reads form Fits) (n : Nat) :
    (Decoder.repeated n d).Reads (fun as => as.flatMap form)
      fun as => as.length = n ∧ ∀ a ∈ as, Fits a := by
  induction n with
  | zero =>
    refine (Reads.pure []).congr ?_ ?_
    · rintro as ⟨hlen, -⟩
      rw [List.eq_nil_of_length_eq_zero hlen, List.flatMap_nil]
    · intro as
      rw [List.length_eq_zero_iff, and_iff_left_iff_imp]
      rintro rfl a ha
      exact absurd ha List.not_mem_nil
  | succ n ih =>
    have htail : ∀ a, (Decoder.repeated n d >>= fun as => Pure.pure (a :: as)).Reads
        (fun as => as.tail.flatMap form) fun as => (as.tail.length = n ∧ ∀ b ∈ as.tail, Fits b) ∧
          as = a :: as.tail := fun a => ih.last List.tail fun _ => rfl
    refine (hd.bind _ (fun a _ => htail a) fun a as _ h => ?_).congr (fun _ _ => rfl) ?_
    · rw [h.2]
      rfl
    · intro as
      constructor
      · intro h
        obtain ⟨a, as', rfl⟩ := List.exists_cons_of_length_eq_add_one h.1
        have hrest : ∀ b ∈ as', Fits b := fun b hb => h.2 b (List.mem_cons_of_mem a hb)
        exact ⟨a, h.2 a List.mem_cons_self, ⟨by simpa using h.1, hrest⟩, rfl⟩
      · rintro ⟨a, ha, ⟨hlen, hrest⟩, hcons⟩
        rw [hcons]
        exact ⟨by rw [List.length_cons, hlen], List.forall_mem_cons.2 ⟨ha, hrest⟩⟩

lemma Reads.counted (hd : d.Reads form Fits) :
    (Decoder.counted d).Reads (fun as => Bytes.count as.length ++ as.flatMap form)
      fun as => as.length < 2 ^ 32 ∧ ∀ a ∈ as, Fits a := by
  refine (uint32_reads.field (fun as => UInt32.ofNat as.length)
    (fun n => hd.repeated n.toNat) ?_).congr ?_ ?_
  · rintro n as ⟨hlen, -⟩
    rw [hlen, UInt32.ofNat_toNat]
  · intro as h
    rw [Bytes.count_eq_ofUInt32 h.1]
  · intro as
    rw [true_and, Bytes.eq_toNat_ofNat_iff]

/-- Forms put together are parted in one way, since none of them is empty. -/
lemma Reads.flatMap_inj (hd : d.Reads form Fits) (hne : ∀ a, form a ≠ []) {as bs : List α}
    (ha : ∀ a ∈ as, Fits a) (hb : ∀ b ∈ bs, Fits b) (h : as.flatMap form = bs.flatMap form) :
    as = bs := by
  induction as generalizing bs with
  | nil =>
    cases bs with
    | nil => rfl
    | cons b bs => exact absurd (List.append_eq_nil_iff.1 h.symm).1 (hne b)
  | cons a as ih =>
    cases bs with
    | nil => exact absurd (List.append_eq_nil_iff.1 h).1 (hne a)
    | cons b bs =>
      rw [List.forall_mem_cons] at ha hb
      rw [List.flatMap_cons, List.flatMap_cons] at h
      have hfront := hd.takes a ha.1 (as.flatMap form) 0
      rw [h, hd.takes b hb.1 (bs.flatMap form) 0] at hfront
      simp only [Except.ok.injEq, Prod.mk.injEq, Reader.mk.injEq] at hfront
      obtain ⟨rfl, hrest, -⟩ := hfront
      rw [ih ha.2 hb.2 hrest.symm]

end Decoder

/-- The records that fit have one byte form each: it reads back, no other byte string is read, and
a form that is cut short or has something behind it is refused with the exact reason. -/
structure OneForm {α : Type} (kind : RecordKind) (decode : Bytes → Except DecodeFault α)
    (form : α → Bytes) (Fits : α → Prop) : Prop where
  reads_back : ∀ a, Fits a → decode (form a) = .ok a
  no_other : ∀ bs a, decode bs = .ok a → Fits a ∧ form a = bs
  cut_short : ∀ a front back, Fits a → front ++ back = form a → back ≠ [] →
    ∃ wanted offset remaining, remaining < wanted ∧ offset + remaining = front.length ∧
      decode front = .error (.endOfData wanted offset remaining)
  left_over : ∀ a back, Fits a → back ≠ [] →
    decode (form a ++ back) = .error (.trailing back.length kind)

namespace Decoder

variable {α : Type} {d : Decoder α} {form : α → Bytes} {Fits : α → Prop}

lemma Reads.oneForm (hd : d.Reads form Fits) (kind : RecordKind) :
    OneForm kind (d.runAll kind) form Fits := by
  constructor
  · intro a ha
    have h := hd.takes a ha [] 0
    rw [List.append_nil] at h
    rw [runAll, h]
    rfl
  · intro bs a h
    obtain ⟨⟨b, r⟩, hb, hrest⟩ := UtxoLedger.bind_eq_ok.1 h
    have hform := hd.only _ _ _ hb
    cases hr : r.rest with
    | nil =>
      simp only [hr] at hrest
      cases hrest
      rw [hr, List.append_nil] at hform
      exact ⟨hd.fits _ _ _ hb, hform.symm⟩
    | cons x xs =>
      simp only [hr] at hrest
      exact nomatch hrest
  · intro a front back ha hcut hback
    obtain ⟨wanted, offset, remaining, hlt, hsum, he⟩ := hd.starves a ha front back 0 hcut hback
    refine ⟨wanted, offset, remaining, hlt, by omega, ?_⟩
    rw [runAll, he]
    rfl
  · intro a back ha hback
    obtain ⟨b, bs, rfl⟩ := List.exists_cons_of_ne_nil hback
    rw [runAll, hd.takes a ha (b :: bs) 0]
    rfl

/-- A count that is not the number of the values behind it is refused. -/
lemma Reads.wrong_count (hd : d.Reads form Fits) (hne : ∀ a, form a ≠ []) (kind : RecordKind)
    {as : List α} (ha : ∀ a ∈ as, Fits a) {n : Nat} (hn : n < 2 ^ 32) (hlen : n ≠ as.length) :
    ∃ fault, (Decoder.counted d).runAll kind (Bytes.count n ++ as.flatMap form) = .error fault := by
  cases hr : (Decoder.counted d).runAll kind (Bytes.count n ++ as.flatMap form) with
  | error fault => exact ⟨fault, rfl⟩
  | ok bs =>
    obtain ⟨⟨hlt, hb⟩, hform⟩ := (hd.counted.oneForm kind).no_other _ _ hr
    obtain ⟨hcount, hrest⟩ := List.append_inj hform (by simp [Bytes.count])
    have hsame : bs = as := hd.flatMap_inj hne hb ha hrest
    rw [Bytes.count_inj hlt hn, hsame] at hcount
    exact absurd hcount.symm hlen

end Decoder

namespace OutputStates

lemma ofPacked?_eq_some {n : Nat} {packed : Bytes} {s : OutputStates} :
    ofPacked? n packed = some s ↔ s.size = n ∧ s.packed = packed := by
  unfold ofPacked?
  constructor
  · intro h
    split at h
    · cases h
      exact ⟨rfl, rfl⟩
    · exact nomatch h
  · rintro ⟨rfl, rfl⟩
    rw [dif_pos ⟨s.length_packed, fun j => s.padding_clear _ (Nat.le_add_right _ _)⟩]

/-- Nothing more is read to tell whether the packed states are well formed. -/
lemma check_reads (found : Option OutputStates) :
    (match found with
      | some s => pure s
      | none => throw .paddingSet : Decoder OutputStates).Reads (fun _ => [])
      (found = some ·) := by
  cases found with
  | some s => exact (Decoder.Reads.pure s).congr (fun _ _ => rfl) fun t => by simp [eq_comm]
  | none => exact (Decoder.Reads.throw _).congr (by simp) fun t => by simp

lemma decoder_reads : decoder.Reads encode fun s => s.size < 2 ^ 32 := by
  have hbody (n : UInt32) := ((Decoder.take_reads ((n.toNat + 7) / 8)).bind packed
    (fun bs _ => check_reads (ofPacked? n.toNat bs.1))
    (fun bs s _ h => by rw [(ofPacked?_eq_some.1 h).2, List.append_nil]))
  refine (Decoder.uint32_reads.field (fun s => UInt32.ofNat s.size) hbody ?_).congr ?_ ?_
  · rintro n s ⟨bs, -, h⟩
    rw [(ofPacked?_eq_some.1 h).1, UInt32.ofNat_toNat]
  · intro s h
    rw [encode, Bytes.count_eq_ofUInt32 h]
  · intro s
    rw [true_and, ← Bytes.eq_toNat_ofNat_iff]
    constructor
    · intro h
      have hlen := s.length_packed
      rw [h] at hlen
      exact ⟨⟨s.packed, hlen⟩, trivial, ofPacked?_eq_some.2 ⟨h, rfl⟩⟩
    · rintro ⟨bs, -, h⟩
      exact (ofPacked?_eq_some.1 h).1

/-- Bytes that set a bit behind the last output are refused. -/
lemma decoder_padding {n : Nat} (hn : n < 2 ^ 32) {bs : Bytes} (hlen : bs.length = (n + 7) / 8)
    {i : Nat} (hi : n ≤ i) (hbit : bs.bitAt i = true) (k : Nat) :
    decoder ⟨Bytes.count n ++ bs, k⟩ = .error .paddingSet := by
  have hnone : ofPacked? n bs = none := by
    cases h : ofPacked? n bs with
    | none => rfl
    | some s =>
      obtain ⟨rfl, rfl⟩ := ofPacked?_eq_some.1 h
      rw [s.padding_clear i hi] at hbit
      exact nomatch hbit
  have hcount := Decoder.uint32_reads.takes (UInt32.ofNat n) trivial
  have htake := (Decoder.take_reads ((n + 7) / 8)).takes ⟨bs, hlen⟩ trivial
  rw [decoder, Bytes.count_eq_ofUInt32 hn, hcount.before, UInt32.toNat_ofNat_of_lt' hn]
  rw [← List.append_nil bs, htake.before, hnone]
  rfl

end OutputStates

namespace UnspentTx

lemma decoder_reads : decoder.Reads encode fun u => u.states.size < 2 ^ 32 := by
  refine (Decoder.hash_reads.field hash (fun name => Decoder.int32_reads.field height
    (fun at_ => Decoder.int32_reads.field index
      (fun i => OutputStates.decoder_reads.last states fun _ => rfl) ?_) ?_) ?_).congr
    (fun _ _ => rfl) ?_
  · rintro i u ⟨-, h⟩
    rw [h]
  · rintro at_ u ⟨-, -, h⟩
    rw [h]
  · rintro name u ⟨-, -, -, h⟩
    rw [h]
  · intro u
    simp

lemma oneForm : OneForm .unspentTx decode encode fun u => u.states.size < 2 ^ 32 :=
  decoder_reads.oneForm _

/-- A written record reads back. -/
lemma decode_encode {u : UnspentTx} (h : u.states.size < 2 ^ 32) : decode u.encode = .ok u :=
  oneForm.reads_back u h

lemma encode_inj {u v : UnspentTx} (hu : u.states.size < 2 ^ 32) (hv : v.states.size < 2 ^ 32) :
    u.encode = v.encode ↔ u = v := by
  refine ⟨fun h => ?_, fun h => h ▸ rfl⟩
  have hd := decode_encode hu
  rw [h, decode_encode hv] at hd
  exact (Except.ok.inj hd).symm

/-- A record has one byte form. -/
lemma eq_encode_of_decode {bs : Bytes} {u : UnspentTx} (h : decode bs = .ok u) : bs = u.encode :=
  (oneForm.no_other bs u h).2.symm

/-- The count in front of the states leaves no room for more outputs. -/
lemma size_lt_of_decode {bs : Bytes} {u : UnspentTx} (h : decode bs = .ok u) :
    u.states.size < 2 ^ 32 :=
  (oneForm.no_other bs u h).1

lemma encode_ne_nil (u : UnspentTx) : u.encode ≠ [] :=
  List.append_ne_nil_of_left_ne_nil u.hash.bytes_ne_nil _

/-- A set padding bit is refused, whatever stands in front of it. -/
lemma decode_padding (name : Hash) (height : Height) (index : Int32) {n : Nat} (hn : n < 2 ^ 32)
    {packed : Bytes} (hlen : packed.length = (n + 7) / 8) {i : Nat} (hi : n ≤ i)
    (hbit : packed.bitAt i = true) :
    decode (name.bytes ++ (Bytes.ofInt32 height ++ (Bytes.ofInt32 index ++
      (Bytes.count n ++ packed)))) = .error .paddingSet := by
  rw [decode, Decoder.runAll, decoder, (Decoder.hash_reads.takes name trivial).before,
    (Decoder.int32_reads.takes height trivial).before,
    (Decoder.int32_reads.takes index trivial).before]
  change ((OutputStates.decoder _ >>= _) >>= _) = _
  rw [OutputStates.decoder_padding hn hlen hi hbit]
  rfl

end UnspentTx

namespace SpentList

lemma oneForm : OneForm .spentJournal decode encode fun hs => hs.length < 2 ^ 32 :=
  (Decoder.hash_reads.counted.congr (fun _ _ => rfl) fun hs => by simp).oneForm _

lemma decode_encode {hs : SpentList} (h : hs.length < 2 ^ 32) : decode hs.encode = .ok hs :=
  oneForm.reads_back hs h

end SpentList

lemma TxLocation.decoder_reads : decoder.Reads encode fun _ => True := by
  refine (Decoder.hash_reads.field block (fun name => Decoder.int32_reads.field height
    (fun at_ => Decoder.int32_reads.last index fun _ => rfl) ?_) ?_).congr (fun _ _ => rfl) ?_
  · rintro at_ k ⟨-, h⟩
    rw [h]
  · rintro name k ⟨-, -, h⟩
    rw [h]
  · intro k
    simp

lemma UnmintedTx.decoder_reads : decoder.Reads encode fun u => u.sources.length < 2 ^ 32 := by
  refine (Decoder.hash_reads.field hash (fun name =>
    TxLocation.decoder_reads.counted.last sources fun _ => rfl) ?_).congr (fun _ _ => rfl) ?_
  · rintro name u ⟨-, h⟩
    rw [h]
  · intro u
    simp

lemma UnmintedTx.encode_ne_nil (u : UnmintedTx) : u.encode ≠ [] :=
  List.append_ne_nil_of_left_ne_nil u.hash.bytes_ne_nil _

namespace UnmintedList

lemma oneForm : OneForm .unmintedJournal decode encode
    fun us => us.length < 2 ^ 32 ∧ ∀ u ∈ us, u.sources.length < 2 ^ 32 :=
  UnmintedTx.decoder_reads.counted.oneForm _

lemma decode_encode {us : UnmintedList} (h : us.length < 2 ^ 32)
    (hs : ∀ u ∈ us, u.sources.length < 2 ^ 32) : decode us.encode = .ok us :=
  oneForm.reads_back us ⟨h, hs⟩

end UnmintedList

lemma BlockHeader.decoder_reads : decoder.Reads encode fun _ => True := by
  refine (Decoder.int32_reads.field version (fun v => Decoder.hash_reads.field prev
    (fun p => Decoder.hash_reads.field merkleRoot (fun m => Decoder.uint32_reads.field time
      (fun t => Decoder.uint32_reads.field bits
        (fun b => Decoder.uint32_reads.last nonce fun _ => rfl) ?_) ?_) ?_) ?_) ?_).congr
    (fun _ _ => rfl) ?_
  · rintro b h ⟨-, e⟩
    rw [e]
  · rintro t h ⟨-, -, e⟩
    rw [e]
  · rintro m h ⟨-, -, -, e⟩
    rw [e]
  · rintro p h ⟨-, -, -, -, e⟩
    rw [e]
  · rintro v h ⟨-, -, -, -, -, e⟩
    rw [e]
  · intro h
    simp

namespace ChainedHeader

lemma decoder_reads : decoder.Reads encode fun h => h.hash = h.header.hash := by
  refine (BlockHeader.decoder_reads.field header (fun b => Decoder.int32_reads.field height
    (fun at_ => Decoder.work_reads.last work fun _ => rfl) ?_) ?_).congr (fun _ _ => rfl) ?_
  · rintro at_ h ⟨-, e⟩
    rw [e]
  · rintro b h ⟨-, -, e⟩
    rw [e]
  · intro h
    cases h
    simp

lemma oneForm : OneForm .chainedHeader decode encode fun h => h.hash = h.header.hash :=
  decoder_reads.oneForm _

/-- A chained header reads back with the name of its header. -/
lemma decode_encode (h : ChainedHeader) : decode h.encode = .ok { h with hash := h.header.hash } :=
  oneForm.reads_back { h with hash := h.header.hash } rfl

end ChainedHeader

/-- A count that asks for another number of bytes than there are behind it is refused. -/
lemma UnspentTx.decode_wrong_count (name : Hash) (height : Height) (index : Int32) {n : Nat}
    (hn : n < 2 ^ 32) {packed : Bytes} (hlen : packed.length ≠ (n + 7) / 8) :
    ∃ fault, decode (name.bytes ++ (Bytes.ofInt32 height ++ (Bytes.ofInt32 index ++
      (Bytes.count n ++ packed)))) = .error fault := by
  cases hr : decode (name.bytes ++ (Bytes.ofInt32 height ++ (Bytes.ofInt32 index ++
      (Bytes.count n ++ packed)))) with
  | error fault => exact ⟨fault, rfl⟩
  | ok u =>
    obtain ⟨hsize, hform⟩ := oneForm.no_other _ _ hr
    obtain ⟨-, hform⟩ := List.append_inj hform (by rw [u.hash.size_eq, name.size_eq])
    obtain ⟨-, hform⟩ := List.append_inj hform (by simp [Bytes.ofInt32])
    obtain ⟨-, hform⟩ := List.append_inj hform (by simp [Bytes.ofInt32])
    obtain ⟨hcount, rfl⟩ := List.append_inj hform (by simp [Bytes.count])
    rw [Bytes.count_inj hsize hn] at hcount
    exact absurd (hcount ▸ u.states.length_packed) hlen

/-- Stored records have exactly one byte form. A record whose lists are short enough for their
counts reads back from its form, a chained header with the name of its header; whatever is read is
the form of what was read; and forms that are cut short or followed by something, counts that do
not match what is behind them, and set padding bits are refused. -/
theorem stored_records_one_form :
    OneForm .unspentTx UnspentTx.decode UnspentTx.encode (fun u => u.states.size < 2 ^ 32) ∧
    OneForm .spentJournal SpentList.decode SpentList.encode (fun hs => hs.length < 2 ^ 32) ∧
    OneForm .unmintedJournal UnmintedList.decode UnmintedList.encode
      (fun us => us.length < 2 ^ 32 ∧ ∀ u ∈ us, u.sources.length < 2 ^ 32) ∧
    OneForm .chainedHeader ChainedHeader.decode ChainedHeader.encode
      (fun h => h.hash = h.header.hash) ∧
    (∀ h : ChainedHeader, ChainedHeader.decode h.encode = .ok { h with hash := h.header.hash }) ∧
    (∀ (hs : SpentList) (n : Nat), n < 2 ^ 32 → n ≠ hs.length →
      ∃ fault, SpentList.decode (Bytes.count n ++ hs.flatMap Hash.bytes) = .error fault) ∧
    (∀ (us : UnmintedList) (n : Nat), (∀ u ∈ us, u.sources.length < 2 ^ 32) → n < 2 ^ 32 →
      n ≠ us.length →
      ∃ fault, UnmintedList.decode (Bytes.count n ++ us.flatMap UnmintedTx.encode) =
        .error fault) ∧
    (∀ (name : Hash) (height : Height) (index : Int32) (n : Nat) (packed : Bytes), n < 2 ^ 32 →
      (packed.length ≠ (n + 7) / 8 →
        ∃ fault, UnspentTx.decode (name.bytes ++ (Bytes.ofInt32 height ++
          (Bytes.ofInt32 index ++ (Bytes.count n ++ packed)))) = .error fault) ∧
      (packed.length = (n + 7) / 8 → ∀ i, n ≤ i → packed.bitAt i = true →
        UnspentTx.decode (name.bytes ++ (Bytes.ofInt32 height ++
          (Bytes.ofInt32 index ++ (Bytes.count n ++ packed)))) = .error .paddingSet)) := by
  refine ⟨UnspentTx.oneForm, SpentList.oneForm, UnmintedList.oneForm, ChainedHeader.oneForm,
    ChainedHeader.decode_encode, ?_, ?_, ?_⟩
  · intro hs n hn hlen
    exact Decoder.hash_reads.wrong_count Hash.bytes_ne_nil _ (fun _ _ => trivial) hn hlen
  · intro us n hus hn hlen
    exact UnmintedTx.decoder_reads.wrong_count UnmintedTx.encode_ne_nil _ hus hn hlen
  · intro name height index n packed hn
    constructor
    · intro hlen
      exact UnspentTx.decode_wrong_count name height index hn hlen
    · intro hlen i hi hbit
      exact UnspentTx.decode_padding name height index hn hlen hi hbit

/-- Nine outputs take two bytes, and the last seven bits stay clear. -/
theorem stored_records_one_form_nine_outputs :
    UnspentTx.decode (UnspentTx.encode ⟨.zero, 7, 1, .filled 9 .unspent⟩) =
      .ok ⟨.zero, 7, 1, .filled 9 .unspent⟩ ∧
    UnspentTx.decode (Hash.zero.bytes ++ (Bytes.ofInt32 7 ++ (Bytes.ofInt32 1 ++
      (Bytes.count 9 ++ [0xff, 0x03])))) = .error .paddingSet :=
  ⟨stored_records_one_form.1.reads_back _ (by decide),
    (stored_records_one_form.2.2.2.2.2.2.2 .zero 7 1 9 [0xff, 0x03] (by decide)).2 (by decide) 9
      (by decide) (by decide)⟩

end UtxoLedger

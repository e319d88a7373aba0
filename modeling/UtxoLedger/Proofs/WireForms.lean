import Mathlib.Algebra.Group.Nat.Defs
import Mathlib.Tactic.Common
import UtxoLedger.Transaction

/-!
# The wire form of a transaction

A form delimits itself if two byte strings that begin with such forms and are equal begin with the
same one. Numbers of fixed width do, lengths do as their first byte tells their width, and so does
what is put together from such parts. The wire form of a transaction is put together so: it can be
read back in one way only, whatever follows it.
-/
namespace UtxoLedger

/-- The forms of the values that fit tell where they end, and differ. -/
def Delimited {α : Type} (form : α → Bytes) (Fits : α → Prop) : Prop :=
  ∀ {a b : α} {x y : Bytes}, Fits a → Fits b → form a ++ x = form b ++ y → a = b ∧ x = y

namespace Delimited

variable {α : Type} {form : α → Bytes} {Fits : α → Prop}

/-- By induction on the number of values, which is known beforehand. -/
lemma flatMap (hform : Delimited form Fits) {as bs : List α} {x y : Bytes}
    (hlength : as.length = bs.length) (ha : ∀ a ∈ as, Fits a) (hb : ∀ b ∈ bs, Fits b)
    (h : as.flatMap form ++ x = bs.flatMap form ++ y) : as = bs ∧ x = y := by
  induction as generalizing bs with
  | nil =>
    obtain rfl := List.eq_nil_of_length_eq_zero hlength.symm
    exact ⟨rfl, h⟩
  | cons a as ih =>
    obtain ⟨b, bs, rfl⟩ := List.exists_cons_of_length_eq_add_one hlength.symm
    rw [List.forall_mem_cons] at ha hb
    rw [List.flatMap_cons, List.flatMap_cons, List.append_assoc, List.append_assoc] at h
    obtain ⟨rfl, hmore⟩ := hform ha.1 hb.1 h
    obtain ⟨rfl, hrest⟩ := ih (Nat.succ.inj hlength) ha.2 hb.2 hmore
    exact ⟨rfl, hrest⟩

end Delimited

namespace Bytes

lemma littleEndian_append_inj {width n m : Nat} {x y : Bytes} (hn : n < Nat.pow 256 width)
    (hm : m < Nat.pow 256 width) (h : littleEndian width n ++ x = littleEndian width m ++ y) :
    n = m ∧ x = y := by
  obtain ⟨hdigits, hrest⟩ := List.append_inj h (by simp)
  have hvalue := congrArg ofLittleEndian hdigits
  rw [ofLittleEndian_littleEndian, ofLittleEndian_littleEndian, Nat.mod_eq_of_lt hn,
    Nat.mod_eq_of_lt hm] at hvalue
  exact ⟨hvalue, hrest⟩

lemma ofUInt32_delimited : Delimited ofUInt32 fun _ => True := by
  intro a b x y _ _ h
  obtain ⟨hvalue, hrest⟩ := littleEndian_append_inj a.toNat_lt b.toNat_lt h
  exact ⟨UInt32.toNat_inj.1 hvalue, hrest⟩

lemma ofUInt64_delimited : Delimited ofUInt64 fun _ => True := by
  intro a b x y _ _ h
  obtain ⟨hvalue, hrest⟩ := littleEndian_append_inj a.toNat_lt b.toNat_lt h
  exact ⟨UInt64.toNat_inj.1 hvalue, hrest⟩

lemma ofInt32_delimited : Delimited ofInt32 fun _ => True := by
  intro a b x y ha hb h
  obtain ⟨hword, hrest⟩ := ofUInt32_delimited ha hb h
  exact ⟨congrArg Int32.ofUInt32 hword, hrest⟩

lemma ofInt64_delimited : Delimited ofInt64 fun _ => True := by
  intro a b x y ha hb h
  obtain ⟨hword, hrest⟩ := ofUInt64_delimited ha hb h
  exact ⟨congrArg Int64.ofUInt64 hword, hrest⟩

/-- A length is one byte below the marks, or a mark that tells the width of what follows. -/
lemma compactSize_cases {n : Nat} (hn : n < 2 ^ 64) :
    n ≤ 0xfc ∧ compactSize n = [UInt8.ofNat n] ∨
      ∃ mark : UInt8, 0xfc < mark.toNat ∧ n < Nat.pow 256 (2 ^ (mark.toNat - 0xfc)) ∧
        compactSize n = mark :: littleEndian (2 ^ (mark.toNat - 0xfc)) n := by
  unfold compactSize
  by_cases h1 : n ≤ 0xfc
  · rw [if_pos h1]
    exact .inl ⟨h1, rfl⟩
  · rw [if_neg h1]
    right
    by_cases h2 : n ≤ 0xffff
    · rw [if_pos h2]
      exact ⟨0xfd, by decide, Nat.lt_succ_of_le h2, rfl⟩
    · rw [if_neg h2]
      by_cases h3 : n ≤ 0xffffffff
      · rw [if_pos h3]
        exact ⟨0xfe, by decide, Nat.lt_succ_of_le h3, rfl⟩
      · rw [if_neg h3]
        exact ⟨0xff, by decide, hn, rfl⟩

lemma compactSize_delimited : Delimited compactSize (· < 2 ^ 64) := by
  intro n m x y hn hm h
  have hsmall : ∀ {k : Nat}, k ≤ 0xfc → (UInt8.ofNat k).toNat = k := by
    intro k hk
    rw [UInt8.toNat_ofNat']
    omega
  have hne : ∀ {k : Nat} {mark : UInt8}, k ≤ 0xfc → 0xfc < mark.toNat →
      UInt8.ofNat k ≠ mark := by
    intro k mark hk hlt heq
    rw [← heq, hsmall hk] at hlt
    omega
  rcases compactSize_cases hn with ⟨hn, hformn⟩ | ⟨mark, hmark, hn, hformn⟩ <;>
    rcases compactSize_cases hm with ⟨hm, hformm⟩ | ⟨mark', hmark', hm, hformm⟩ <;>
    rw [hformn, hformm, List.cons_append, List.cons_append, List.cons.injEq] at h
  · have hbyte := congrArg UInt8.toNat h.1
    rw [hsmall hn, hsmall hm] at hbyte
    exact ⟨hbyte, h.2⟩
  · exact absurd h.1 (hne hn hmark')
  · exact absurd h.1.symm (hne hm hmark)
  · obtain ⟨rfl, hrest⟩ := h
    exact littleEndian_append_inj hn hm hrest

lemma sized_delimited : Delimited sized fun bs => bs.length < 2 ^ 64 := by
  intro a b x y ha hb h
  rw [sized, sized, List.append_assoc, List.append_assoc] at h
  obtain ⟨hlength, hrest⟩ := compactSize_delimited ha hb h
  exact List.append_inj hrest hlength

end Bytes

/-- A list behind its length. -/
lemma Delimited.counted {α : Type} {form : α → Bytes} {Fits : α → Prop}
    (hform : Delimited form Fits) : Delimited
      (fun as : List α => Bytes.compactSize as.length ++ as.flatMap form)
      fun as => as.length < 2 ^ 64 ∧ ∀ a ∈ as, Fits a := by
  intro as bs x y ha hb h
  rw [List.append_assoc, List.append_assoc] at h
  obtain ⟨hlength, hrest⟩ := Bytes.compactSize_delimited ha.1 hb.1 h
  exact hform.flatMap hlength ha.2 hb.2 hrest

lemma OutPoint.encode_delimited : Delimited OutPoint.encode fun _ => True := by
  intro a b x y ha hb h
  rw [encode, encode, List.append_assoc, List.append_assoc] at h
  obtain ⟨hhash, hrest⟩ := List.append_inj h (by rw [a.hash.size_eq, b.hash.size_eq])
  obtain ⟨hindex, hend⟩ := Bytes.ofUInt32_delimited trivial trivial hrest
  cases a
  cases b
  cases Hash.ext_bytes hhash
  cases hindex
  exact ⟨rfl, hend⟩

lemma TxInput.encode_delimited :
    Delimited TxInput.encode fun i => i.script.length < 2 ^ 64 := by
  intro a b x y ha hb h
  simp only [encode, List.append_assoc] at h
  obtain ⟨hprevout, hrest⟩ := OutPoint.encode_delimited trivial trivial h
  obtain ⟨hscript, hrest⟩ := Bytes.sized_delimited ha hb hrest
  obtain ⟨hsequence, hend⟩ := Bytes.ofUInt32_delimited trivial trivial hrest
  cases a
  cases b
  cases hprevout
  cases hscript
  cases hsequence
  exact ⟨rfl, hend⟩

lemma TxOutput.encode_delimited :
    Delimited TxOutput.encode fun o => o.script.length < 2 ^ 64 := by
  intro a b x y ha hb h
  simp only [encode, List.append_assoc] at h
  obtain ⟨hvalue, hrest⟩ := Bytes.ofInt64_delimited trivial trivial h
  obtain ⟨hscript, hend⟩ := Bytes.sized_delimited ha hb hrest
  cases a
  cases b
  cases hvalue
  cases hscript
  exact ⟨rfl, hend⟩

namespace Transaction

/-- Lists and scripts are short enough for the lengths in front of them. -/
structure Countable (tx : Transaction) : Prop where
  inputs : tx.inputs.length < 2 ^ 64
  outputs : tx.outputs.length < 2 ^ 64
  claims : ∀ i ∈ tx.inputs, i.script.length < 2 ^ 64
  guards : ∀ o ∈ tx.outputs, o.script.length < 2 ^ 64

lemma encode_delimited : Delimited encode Countable := by
  intro a b x y ha hb h
  simp only [encode, List.append_assoc] at h
  obtain ⟨hversion, hrest⟩ := Bytes.ofInt32_delimited trivial trivial h
  simp only [← List.append_assoc (Bytes.compactSize _) (List.flatMap _ _)] at hrest
  obtain ⟨hinputs, hrest⟩ := TxInput.encode_delimited.counted ⟨ha.inputs, ha.claims⟩
    ⟨hb.inputs, hb.claims⟩ hrest
  obtain ⟨houtputs, hrest⟩ := TxOutput.encode_delimited.counted ⟨ha.outputs, ha.guards⟩
    ⟨hb.outputs, hb.guards⟩ hrest
  obtain ⟨hlock, hend⟩ := Bytes.ofUInt32_delimited trivial trivial hrest
  cases a
  cases b
  cases hversion
  cases hinputs
  cases houtputs
  cases hlock
  exact ⟨rfl, hend⟩

/-- Transactions with one wire form are the same. -/
lemma encode_inj {a b : Transaction} (ha : a.Countable) (hb : b.Countable)
    (h : a.encode = b.encode) : a = b :=
  (encode_delimited ha hb (congrArg (· ++ []) h)).1

/-- A wire form that goes on as a second one is that one. -/
lemma eq_of_encode_continued {a b : Transaction} (ha : a.Countable) (hb : b.Countable)
    (h : a.encode <+: b.encode) : a = b := by
  obtain ⟨more, hmore⟩ := h
  have hforms : a.encode ++ more = b.encode ++ [] := by rw [hmore, List.append_nil]
  exact (encode_delimited ha hb hforms).1

/-- The wire form is prefix-free and tells the transaction: it begins with the wire form of another
one only if both are the same transaction. So transactions that differ in a field, or in the number
of their inputs or outputs, are named by the hashes of different strings. -/
theorem wire_forms_prefix_free {a b : Transaction} (ha : a.Countable) (hb : b.Countable) :
    (a.encode <+: b.encode ↔ a = b) ∧ (a ≠ b → a.encode ≠ b.encode) := by
  refine ⟨⟨eq_of_encode_continued ha hb, ?_⟩, fun hne h => hne (encode_inj ha hb h)⟩
  rintro rfl
  exact List.prefix_rfl

/-- One input whose script has `n` bytes, each of which looks like the mark of a longer length. -/
def markedTx (n : Nat) : Transaction :=
  ⟨1, [⟨.null, List.replicate n 0xfd, 0xffffffff⟩], [⟨0, []⟩], 0⟩

lemma markedTx_countable {n : Nat} (h : n < 2 ^ 64) : (markedTx n).Countable where
  inputs := by simp [markedTx]
  outputs := by simp [markedTx]
  claims := by simpa [markedTx] using h
  guards := by simp [markedTx]

/-- Where the length outgrows its single byte, neither form begins with the other. -/
theorem wire_forms_prefix_free_marked : ¬ (markedTx 0xfc).encode <+: (markedTx 0xfd).encode ∧
    ¬ (markedTx 0xfd).encode <+: (markedTx 0xfc).encode ∧
    (markedTx 0xfc).encode ≠ (markedTx 0xfd).encode := by
  have hshort : (markedTx 0xfc).Countable := markedTx_countable (by decide)
  have hlong : (markedTx 0xfd).Countable := markedTx_countable (by decide)
  have hlengths : ∀ n, (markedTx n).inputs.map (fun i => i.script.length) = [n] := by
    simp [markedTx]
  have hne : markedTx 0xfc ≠ markedTx 0xfd := by
    intro h
    have hsame := hlengths 0xfc
    rw [h, hlengths] at hsame
    exact absurd hsame (by decide)
  obtain ⟨hcontinued, hforms⟩ := wire_forms_prefix_free hshort hlong
  exact ⟨fun h => hne (hcontinued.1 h),
    fun h => hne ((wire_forms_prefix_free hlong hshort).1.1 h).symm, hforms hne⟩

end Transaction
end UtxoLedger

import Mathlib.Tactic.Common
import UtxoLedger.Proofs.FeeArithmetic
import UtxoLedger.Proofs.ReplayedBlock
import UtxoLedger.Proofs.Unwinding
import UtxoLedger.Proofs.WireForms

/-!
# One body for a header

The root joins a hash that is alone with itself, so different lists can have one root; but then a
hash comes twice in one of them. Among lists in which no hash comes twice, two with the same root
are two levels of one tree, as long as no two of the strings that are hashed collide; and if the
lower level were not the same, a joint of two hashes, 64 bytes long, would be the wire form of a
transaction. So a header under the consensus rules stands for one body.
-/
namespace UtxoLedger

/-- Two of the strings differ and have the same double hash. -/
def Collide (strings : List Bytes) : Prop :=
  ∃ a ∈ strings, ∃ b ∈ strings, a ≠ b ∧ doubleSha256 a = doubleSha256 b

lemma eq_of_not_collide {strings : List Bytes} {a b : Bytes} (apart : ¬ Collide strings)
    (ha : a ∈ strings) (hb : b ∈ strings) (h : doubleSha256 a = doubleSha256 b) : a = b := by
  by_contra hne
  exact apart ⟨a, ha, b, hb, hne, h⟩

lemma eq_of_map_doubleSha256_eq {strings as bs : List Bytes} (apart : ¬ Collide strings)
    (ha : as ⊆ strings) (hb : bs ⊆ strings)
    (h : as.map doubleSha256 = bs.map doubleSha256) : as = bs := by
  induction as generalizing bs with
  | nil => exact (List.map_eq_nil_iff.1 h.symm).symm
  | cons a as ih =>
    obtain ⟨b, bs, rfl, hhead, htail⟩ := List.map_eq_cons_iff.1 h.symm
    rw [List.cons_subset] at ha hb
    rw [eq_of_not_collide apart ha.1 hb.1 hhead.symm, ih ha.2 hb.2 htail.symm]

namespace Merkle

/-- What is hashed for the level above. -/
def joints : List Hash → List Bytes
  | l :: r :: rest => (l.bytes ++ r.bytes) :: joints rest
  | [l] => [l.bytes ++ l.bytes]
  | [] => []

/-- What is hashed by a climb of at most `levels` levels. -/
def climbed : Nat → List Hash → List Bytes
  | 0, _ => []
  | n + 1, level => if level.length ≤ 1 then [] else joints level ++ climbed n (pairUp level)

variable {level above lower : List Hash} {s : Bytes} {n m : Nat}

lemma pairUp_eq_map (level : List Hash) : pairUp level = (joints level).map doubleSha256 := by
  fun_induction pairUp level with
  | case1 l r rest ih =>
    rw [joints, List.map_cons, ih]
    rfl
  | case2 => rfl
  | case3 => rfl

lemma length_of_mem_joints (h : s ∈ joints level) : s.length = 64 := by
  fun_induction joints level with
  | case1 l r rest ih =>
    rcases List.mem_cons.1 h with rfl | h
    · rw [List.length_append, l.size_eq, r.size_eq]
    · exact ih h
  | case2 l =>
    obtain rfl := List.mem_singleton.1 h
    rw [List.length_append, l.size_eq]
  | case3 => exact nomatch h

lemma append_bytes_inj {l r l' r' : Hash} (h : l.bytes ++ r.bytes = l'.bytes ++ r'.bytes) :
    l = l' ∧ r = r' := by
  obtain ⟨hl, hr⟩ := List.append_inj h (by rw [l.size_eq, l'.size_eq])
  exact ⟨Hash.ext_bytes hl, Hash.ext_bytes hr⟩

/-- Every joint begins with a hash of the level. -/
lemma exists_mem_of_mem_joints (h : s ∈ joints level) :
    ∃ l ∈ level, ∃ r, s = l.bytes ++ Hash.bytes r := by
  fun_induction joints level with
  | case1 l r rest ih =>
    rcases List.mem_cons.1 h with rfl | h
    · exact ⟨l, List.mem_cons_self, r, rfl⟩
    · obtain ⟨l', hl', r', rfl⟩ := ih h
      exact ⟨l', by simp [hl'], r', rfl⟩
  | case2 l =>
    obtain rfl := List.mem_singleton.1 h
    exact ⟨l, List.mem_cons_self, l, rfl⟩
  | case3 => exact nomatch h

lemma joints_nodup (h : level.Nodup) : (joints level).Nodup := by
  fun_induction joints level with
  | case1 l r rest ih =>
    simp only [List.nodup_cons, List.mem_cons, not_or] at h ⊢
    refine ⟨fun hmem => ?_, ih h.2.2⟩
    obtain ⟨l', hl', r', heq⟩ := exists_mem_of_mem_joints hmem
    obtain rfl := (append_bytes_inj heq).1
    exact h.1.2 hl'
  | case2 => simp
  | case3 => simp

/-- Where no hash comes twice, the joints tell the level. -/
lemma joints_inj {xs ys : List Hash} (hx : xs.Nodup) (hy : ys.Nodup)
    (h : joints xs = joints ys) : xs = ys := by
  fun_induction joints xs generalizing ys with
  | case1 l r rest ih =>
    match ys, hy, h with
    | l' :: r' :: rest', hy, h =>
      rw [joints, List.cons.injEq] at h
      obtain ⟨rfl, rfl⟩ := append_bytes_inj h.1
      rw [ih hx.of_cons.of_cons hy.of_cons.of_cons h.2]
    | [l'], hy, h =>
      rw [joints, List.cons.injEq] at h
      obtain ⟨rfl, rfl⟩ := append_bytes_inj h.1
      exact absurd List.mem_cons_self hx.notMem
    | [], _, h => exact nomatch h
  | case2 l =>
    match ys, hy, h with
    | l' :: r' :: rest', hy, h =>
      rw [joints, List.cons.injEq] at h
      obtain ⟨rfl, rfl⟩ := append_bytes_inj h.1
      exact absurd List.mem_cons_self hy.notMem
    | [l'], _, h =>
      rw [joints, List.cons.injEq] at h
      rw [(append_bytes_inj h.1).1]
    | [], _, h => exact nomatch h
  | case3 =>
    match ys, h with
    | [], _ => rfl
    | [_], h => exact nomatch h
    | _ :: _ :: _, h => exact nomatch h

/-- The level `above` is reached from `level`; only levels of two and more have one above. -/
inductive Over (level : List Hash) : List Hash → Prop
  | refl : Over level level
  | up {mid : List Hash} (h : Over level mid) (two : 2 ≤ mid.length) : Over level (pairUp mid)

lemma Over.of_pairUp (h : Over (pairUp level) above) (two : 2 ≤ level.length) :
    Over level above := by
  induction h with
  | refl => exact .up .refl two
  | up _ htwo ih => exact .up ih htwo

/-- No hash comes twice, and what is hashed on the way up is among `strings`. -/
structure Hashes (strings : List Bytes) (level : List Hash) : Prop where
  nodup : level.Nodup
  mem : ∀ {above}, Over level above → 2 ≤ above.length → joints above ⊆ strings

variable {strings : List Bytes}

lemma Hashes.pairUp (apart : ¬ Collide strings) (h : Hashes strings level)
    (two : 2 ≤ level.length) : Hashes strings (pairUp level) := by
  refine ⟨?_, fun hover htwo => h.mem (hover.of_pairUp two) htwo⟩
  rw [pairUp_eq_map]
  refine (joints_nodup h.nodup).map_on fun a ha b hb heq => ?_
  exact eq_of_not_collide apart (h.mem .refl two ha) (h.mem .refl two hb) heq

lemma Hashes.over (apart : ¬ Collide strings) (h : Hashes strings level)
    (hover : Over level above) : Hashes strings above := by
  induction hover with
  | refl => exact h
  | up _ two ih => exact ih.pairUp apart two

/-- Equal levels stand over equal levels. -/
lemma Hashes.eq_of_pairUp_eq {xs ys : List Hash} (apart : ¬ Collide strings)
    (hx : Hashes strings xs) (hy : Hashes strings ys) (twox : 2 ≤ xs.length)
    (twoy : 2 ≤ ys.length) (h : Merkle.pairUp xs = Merkle.pairUp ys) : xs = ys := by
  rw [pairUp_eq_map, pairUp_eq_map] at h
  exact joints_inj hx.nodup hy.nodup
    (eq_of_map_doubleSha256_eq apart (hx.mem .refl twox) (hy.mem .refl twoy) h)

lemma Hashes.over_of_pairUp {xs ys : List Hash} (apart : ¬ Collide strings)
    (hx : Hashes strings xs) (hy : Hashes strings ys) (twox : 2 ≤ xs.length)
    (twoy : 2 ≤ ys.length) (h : Over (Merkle.pairUp xs) (Merkle.pairUp ys)) : Over xs ys := by
  generalize hup : Merkle.pairUp ys = top at h
  cases h with
  | refl =>
    rw [hx.eq_of_pairUp_eq apart hy twox twoy hup.symm]
    exact .refl
  | up hover two =>
    have hmid := hover.of_pairUp twox
    rw [hy.eq_of_pairUp_eq apart (hx.over apart hmid) twoy two hup]
    exact hmid

lemma Over.eq_or (h : Over level above) :
    above = level ∨ 2 ≤ level.length ∧ Over (pairUp level) above := by
  induction h with
  | refl => exact .inl rfl
  | up _ two ih =>
    rcases ih with rfl | ⟨htwo, hover⟩
    · exact .inr ⟨two, .refl⟩
    · exact .inr ⟨htwo, .up hover two⟩

lemma length_pairUp_le (two : 2 ≤ level.length) (h : level.length ≤ n + 1) :
    (pairUp level).length ≤ n := by
  rw [length_pairUp]
  omega

/-- A climb hashes the joints of every level on the way. -/
lemma joints_subset_climbed (hover : Over level above) (h : level.length ≤ n)
    (two : 2 ≤ above.length) : joints above ⊆ climbed n level := by
  induction n generalizing level with
  | zero =>
    obtain rfl := List.length_eq_zero_iff.1 (Nat.le_zero.1 h)
    rcases hover.eq_or with rfl | ⟨hlevel, -⟩
    · exact absurd two (by decide)
    · exact absurd hlevel (by decide)
  | succ n ih =>
    have hlevel : 2 ≤ level.length := by
      rcases hover.eq_or with rfl | ⟨hlevel, -⟩
      · exact two
      · exact hlevel
    rw [climbed, if_neg (by omega)]
    rcases hover.eq_or with rfl | ⟨-, hup⟩
    · exact List.subset_append_left _ _
    · exact List.subset_append_of_subset_right _ (ih hup (length_pairUp_le hlevel h))

lemma Hashes.of_climbed (nodup : level.Nodup) (h : climbed level.length level ⊆ strings) :
    Hashes strings level :=
  ⟨nodup, fun hover two _ hs => h (joints_subset_climbed hover le_rfl two hs)⟩

lemma over_climb (n : Nat) (level : List Hash) : Over level (climb n level) := by
  induction n generalizing level with
  | zero => exact .refl
  | succ n ih =>
    unfold climb
    split
    · exact .refl
    next h => exact (ih (pairUp level)).of_pairUp (by omega)

/-- A climb ends in one hash. -/
lemma exists_climb_eq (hne : level ≠ []) (h : level.length ≤ n) : ∃ top, climb n level = [top] := by
  induction n generalizing level with
  | zero => exact absurd (List.length_eq_zero_iff.1 (Nat.le_zero.1 h)) hne
  | succ n ih =>
    have hpos := List.length_pos_iff.2 hne
    unfold climb
    split
    next hone => exact List.length_eq_one_iff.1 (by omega)
    next htwo =>
      refine ih ?_ (length_pairUp_le (by omega) h)
      rw [← List.length_pos_iff, length_pairUp]
      omega

lemma climb_eq_of_root_eq {xs ys : List Hash} (hx : xs ≠ []) (hy : ys ≠ [])
    (h : root xs = root ys) : climb xs.length xs = climb ys.length ys := by
  obtain ⟨a, ha⟩ := exists_climb_eq hx le_rfl
  obtain ⟨b, hb⟩ := exists_climb_eq hy le_rfl
  rw [root, root, ha, hb] at h
  rw [ha, hb, show a = b from h]

/-- Two lists with one root are levels of one tree. By induction on the levels from the bottom. -/
lemma Hashes.over_or_over {xs ys : List Hash} (apart : ¬ Collide strings)
    (hx : Hashes strings xs) (hy : Hashes strings ys) (hn : xs.length ≤ n) (hm : ys.length ≤ m)
    (h : climb n xs = climb m ys) : Over xs ys ∨ Over ys xs := by
  induction n generalizing m xs ys with
  | zero =>
    have h : xs = climb m ys := h
    exact .inr (h ▸ over_climb m ys)
  | succ n ih =>
    by_cases twox : 2 ≤ xs.length
    · cases m with
      | zero =>
        have h : ys = climb (n + 1) xs := h.symm
        exact .inl (h ▸ over_climb (n + 1) xs)
      | succ m =>
        by_cases twoy : 2 ≤ ys.length
        · rw [climb, climb, if_neg (by omega), if_neg (by omega)] at h
          have hup := ih (hx.pairUp apart twox) (hy.pairUp apart twoy) (length_pairUp_le twox hn)
            (length_pairUp_le twoy hm) h
          exact hup.imp (hx.over_of_pairUp apart hy twox twoy)
            (hy.over_of_pairUp apart hx twoy twox)
        · rw [climb.eq_2 ys, if_pos (by omega)] at h
          exact .inl (h ▸ over_climb (n + 1) xs)
    · rw [climb, if_pos (by omega)] at h
      exact .inr (h ▸ over_climb m ys)

end Merkle

/-- What is hashed for the Merkle root of a list: the wire forms, and all joints above them. -/
def merkleStrings (txs : List Transaction) : List Bytes :=
  txs.map Transaction.encode ++ Merkle.climbed txs.length (txs.map Transaction.hash)

/-- No wire form can be taken for a joint. -/
def Jointless (txs : List Transaction) : Prop :=
  ∀ tx ∈ txs, tx.Countable ∧ tx.encode.length ≠ 64

section Lists

variable {strings : List Bytes} {names : List Hash} {as bs txs : List Transaction}

/-- No level above another one consists of names of transactions. -/
lemma Merkle.Hashes.eq_names (apart : ¬ Collide strings) (h : Hashes strings names)
    (hover : Over names (txs.map Transaction.hash)) (hne : txs ≠ []) (jointless : Jointless txs)
    (own : txs.map Transaction.encode ⊆ strings) : names = txs.map Transaction.hash := by
  generalize hlevel : txs.map Transaction.hash = level at hover
  cases hover with
  | refl => rfl
  | @up mid hmid two =>
    obtain ⟨tx, htx⟩ := List.exists_mem_of_ne_nil txs hne
    have hmem : tx.hash ∈ txs.map Transaction.hash := List.mem_map_of_mem htx
    rw [hlevel, pairUp_eq_map] at hmem
    obtain ⟨s, hs, heq⟩ := List.mem_map.1 hmem
    have hform : s = tx.encode :=
      eq_of_not_collide apart (h.mem hmid two hs) (own (List.mem_map_of_mem htx)) heq
    rw [hform] at hs
    exact absurd (length_of_mem_joints hs) (jointless tx htx).2

lemma map_encode_inj (ha : Jointless as) (hb : Jointless bs)
    (h : as.map Transaction.encode = bs.map Transaction.encode) : as = bs := by
  induction as generalizing bs with
  | nil => exact (List.map_eq_nil_iff.1 h.symm).symm
  | cons a as ih =>
    obtain ⟨b, bs, rfl, hhead, htail⟩ := List.map_eq_cons_iff.1 h.symm
    rw [Jointless, List.forall_mem_cons] at ha hb
    rw [Transaction.encode_inj hb.1.1 ha.1.1 hhead, ih ha.2 hb.2 htail.symm]

/-- Lists with one root, in none of which a name comes twice, are the same unless hashes collide. -/
lemma eq_of_merkleRoot_eq (ha : as ≠ []) (hb : bs ≠ [])
    (nodupa : (as.map Transaction.hash).Nodup) (nodupb : (bs.map Transaction.hash).Nodup)
    (jointlessa : Jointless as) (jointlessb : Jointless bs) (h : merkleRoot as = merkleRoot bs)
    (apart : ¬ Collide (merkleStrings as ++ merkleStrings bs)) : as = bs := by
  have hsub : ∀ {txs}, merkleStrings txs ⊆ merkleStrings as ++ merkleStrings bs →
      txs.map Transaction.encode ⊆ merkleStrings as ++ merkleStrings bs ∧
      Merkle.climbed (txs.map Transaction.hash).length (txs.map Transaction.hash) ⊆
        merkleStrings as ++ merkleStrings bs := by
    intro txs hsub
    rw [List.length_map]
    exact List.append_subset.1 hsub
  obtain ⟨formsa, climbeda⟩ := hsub (List.subset_append_left _ _)
  obtain ⟨formsb, climbedb⟩ := hsub (List.subset_append_right _ _)
  have hashesa := Merkle.Hashes.of_climbed nodupa climbeda
  have hashesb := Merkle.Hashes.of_climbed nodupb climbedb
  have hclimb := Merkle.climb_eq_of_root_eq (by simpa using ha) (by simpa using hb) h
  have hnames : as.map Transaction.hash = bs.map Transaction.hash := by
    rcases hashesa.over_or_over apart hashesb le_rfl le_rfl hclimb with hover | hover
    · exact hashesa.eq_names apart hover hb jointlessb formsb
    · exact (hashesb.eq_names apart hover ha jointlessa formsa).symm
  refine map_encode_inj jointlessa jointlessb ?_
  refine eq_of_map_doubleSha256_eq apart formsa formsb ?_
  rw [List.map_map, List.map_map]
  exact hnames

end Lists

namespace Ledger

/-- A ledger with the consensus rules, in use on some database, connects the block that it finds
under the header. -/
def Accepts (header : ChainedHeader) (block : Block) : Prop :=
  ∃ (verify : ScriptVerifier) (l : Ledger) (db : Database) (archive : Archive) (s : LedgerSession),
    l.InUse ∧ l.rules = .consensus verify ∧ archive.block? header.hash = some block ∧
      (add archive header).on ⟨l, db⟩ = (.ok (), s)

/-- A body that is connected, under whatever rules, holds no transaction twice. -/
lemma distinct_of_add {l : Ledger} {db : Database} {archive : Archive} {header : ChainedHeader}
    {block : Block} {s : LedgerSession} (used : l.InUse)
    (found : archive.block? header.hash = some block)
    (h : (add archive header).on ⟨l, db⟩ = (.ok (), s)) :
    (block.txs.map Transaction.hash).Nodup ∧
      ∃ loaded, l.rules.checkBlock header block loaded = .ok () := by
  have hadded := added used.idle archive header (s := ⟨l, db⟩)
  rw [h] at hadded
  cases hadded with
  | connected found' _ staged =>
    cases found.symm.trans found'
    obtain ⟨-, connects, -, -, rules⟩ := connected_of_staged staged
    exact ⟨connects.distinct.1, _, rules⟩

lemma Accepts.committed {header : ChainedHeader} {block : Block} (h : Accepts header block) :
    (block.txs.map Transaction.hash).Nodup ∧ block.txs ≠ [] ∧
      merkleRoot block.txs = block.header.merkleRoot := by
  obtain ⟨verify, l, db, archive, s, used, hrules, found, hadd⟩ := h
  obtain ⟨hnodup, loaded, hcheck⟩ := distinct_of_add used found hadd
  rw [hrules] at hcheck
  obtain ⟨coinbase, rest, fees, htxs, -, -, -, hroot, -⟩ :=
    Rules.blockFault_eq_ok.1 (mapError_eq_ok.1 hcheck)
  exact ⟨hnodup, by simp [htxs], hroot⟩

end Ledger

/-- One transaction list for a Merkle root, and so one body for a header. Two lists with the same
root, both without a name that comes twice and without a wire form as long as a joint, are the same,
or two different strings among those hashed for the two roots collide. Of the bodies with one header
the consensus rules accept at most one; and a body that repeats transactions at its end is refused
by every ledger, whatever its root, and nothing changes. -/
theorem one_body_per_header :
    (∀ as bs : List Transaction, as ≠ [] → bs ≠ [] → (as.map Transaction.hash).Nodup →
      (bs.map Transaction.hash).Nodup → Jointless as → Jointless bs →
      merkleRoot as = merkleRoot bs → as = bs ∨ Collide (merkleStrings as ++ merkleStrings bs)) ∧
    (∀ (h₁ h₂ : ChainedHeader) (b₁ b₂ : Block), b₁.header = b₂.header →
      Jointless b₁.txs → Jointless b₂.txs → Ledger.Accepts h₁ b₁ → Ledger.Accepts h₂ b₂ →
      b₁ = b₂ ∨ Collide (merkleStrings b₁.txs ++ merkleStrings b₂.txs)) ∧
    (∀ (l : Ledger) (db : Database) (archive : Archive) (h : ChainedHeader) (header : BlockHeader)
      (txs tail : List Transaction), l.InUse → tail ≠ [] → tail ⊆ txs →
      archive.block? h.hash = some ⟨header, txs ++ tail⟩ →
      ∃ e, (Ledger.add archive h).on ⟨l, db⟩ = (.error e, ⟨l, db⟩)) := by
  have hlists : ∀ as bs : List Transaction, as ≠ [] → bs ≠ [] → (as.map Transaction.hash).Nodup →
      (bs.map Transaction.hash).Nodup → Jointless as → Jointless bs →
      merkleRoot as = merkleRoot bs →
      as = bs ∨ Collide (merkleStrings as ++ merkleStrings bs) := by
    intro as bs ha hb nodupa nodupb jointlessa jointlessb hroot
    by_cases apart : Collide (merkleStrings as ++ merkleStrings bs)
    · exact .inr apart
    · exact .inl (eq_of_merkleRoot_eq ha hb nodupa nodupb jointlessa jointlessb hroot apart)
  refine ⟨hlists, ?_, ?_⟩
  · intro h₁ h₂ b₁ b₂ hheader jointless₁ jointless₂ accepted₁ accepted₂
    obtain ⟨nodup₁, hne₁, hroot₁⟩ := accepted₁.committed
    obtain ⟨nodup₂, hne₂, hroot₂⟩ := accepted₂.committed
    have hroot : merkleRoot b₁.txs = merkleRoot b₂.txs := by rw [hroot₁, hroot₂, hheader]
    refine (hlists _ _ hne₁ hne₂ nodup₁ nodup₂ jointless₁ jointless₂ hroot).imp_left fun htxs => ?_
    cases b₁
    cases b₂
    cases hheader
    cases htxs
    rfl
  · intro l db archive h header txs tail used hne hsub found
    refine Ledger.add_refused used.idle fun s hadd => ?_
    obtain ⟨hnodup, -⟩ := Ledger.distinct_of_add used found hadd
    obtain ⟨tx, htx⟩ := List.exists_mem_of_ne_nil tail hne
    rw [List.map_append, List.nodup_append] at hnodup
    exact hnodup.2.2 _ (List.mem_map_of_mem (hsub htx)) _ (List.mem_map_of_mem htx) rfl

/-- A coin is passed on twice in the block that it comes from. -/
def passedBlock : Block :=
  blockAbove soleGenesis [coinbase 1, passOn (coinbase 1), passOn (passOn (coinbase 1))]

def passedHeader : ChainedHeader := soleGenesis.above passedBlock.header

/-- Under the same header, the last transaction comes once more. -/
def repeatedBlock : Block :=
  ⟨passedBlock.header, passedBlock.txs ++ [passOn (passOn (coinbase 1))]⟩

lemma passedHeader_hash (txs : List Transaction) :
    passedHeader.hash = (Block.mk passedBlock.header txs).hash := rfl

lemma passed_evaluated :
    ((Ledger.add (Archive.empty.add passedBlock) passedHeader).on returningStart).1 = .ok () ∧
    merkleRoot repeatedBlock.txs = merkleRoot passedBlock.txs ∧
    passedBlock.txs.all (fun tx => tx.encode.length ≠ 64) = true := by decide +kernel

lemma passedBlock_jointless : Jointless passedBlock.txs := by
  have hlength := List.all_eq_true.1 passed_evaluated.2.2
  intro tx htx
  refine ⟨?_, of_decide_eq_true (hlength tx htx)⟩
  simp only [passedBlock, blockAbove, List.mem_cons, List.not_mem_nil, or_false] at htx
  rcases htx with rfl | rfl | rfl
  all_goals exact ⟨by decide, by decide, by decide, by decide⟩

lemma returningStart_inUse : returningStart.ledger.InUse := by
  obtain ⟨chain, db, hheaders, -, -, hopen⟩ :=
    Ledger.openOn_fresh (.consensus fun _ => .accepted) unprunedSettings
      (show soleGenesis.height = 0 from rfl)
  obtain rfl : chain = soleChain := Chain.ext_headers hheaders
  exact .opened hopen

/-- Repeating its last transaction leaves the root of this body as it is; the body is accepted, and
with the repetition it is refused. -/
theorem one_body_per_header_repeated :
    Ledger.Accepts passedHeader passedBlock ∧
    merkleRoot repeatedBlock.txs = merkleRoot passedBlock.txs ∧
    (passedBlock = passedBlock ∨
      Collide (merkleStrings passedBlock.txs ++ merkleStrings passedBlock.txs)) ∧
    ∃ e, (Ledger.add (Archive.empty.add repeatedBlock) passedHeader).on returningStart =
      (.error e, returningStart) := by
  obtain ⟨hadded, hroot, -⟩ := passed_evaluated
  have accepted : Ledger.Accepts passedHeader passedBlock := by
    generalize hon : (Ledger.add (Archive.empty.add passedBlock) passedHeader).on returningStart = r
      at hadded
    obtain ⟨_, s⟩ := r
    cases hadded
    refine ⟨fun _ => .accepted, returningStart.ledger, returningStart.db,
      Archive.empty.add passedBlock, s, returningStart_inUse, rfl, ?_, hon⟩
    rw [passedHeader_hash passedBlock.txs]
    simp [Archive.add, Archive.block?]
  obtain ⟨-, hbodies, hrepeated⟩ := one_body_per_header
  refine ⟨accepted, hroot, hbodies _ _ _ _ rfl passedBlock_jointless passedBlock_jointless
    accepted accepted, ?_⟩
  refine hrepeated _ _ _ passedHeader passedBlock.header passedBlock.txs _
    returningStart_inUse (List.cons_ne_nil (passOn (passOn (coinbase 1))) []) ?_ ?_
  · simp [passedBlock, blockAbove]
  · rw [passedHeader_hash repeatedBlock.txs]
    simp [Archive.add, Archive.block?, repeatedBlock]

end UtxoLedger

import Mathlib.Tactic.Common
import UtxoLedger.Proofs.PlainCoins

/-!
# What a block does to the coins

The plain rule in terms of sets: a block goes through if its names are new, every outpoint that it
spends is there, and no two of its transactions spend the same one; and an outpoint that is there
before and not afterwards was spent by a transaction of the block. A ledger that adds a block moves
the coins of the store along this rule.
-/
namespace UtxoLedger

/-- The outpoints that a transaction takes out of the set. -/
def Transaction.spentPoints (tx : Transaction) : List OutPoint := tx.spending.map TxInput.prevout

lemma Transaction.hash_of_mem_created {tx : Transaction} {o : OutPoint} (h : o ∈ tx.created) :
    o.hash = tx.hash := by
  simp only [created, List.mem_toFinset, List.mem_map] at h
  obtain ⟨i, -, rfl⟩ := h
  rfl

namespace Coins

variable {coins after : Coins} {o : OutPoint} {os : List OutPoint} {tx : Transaction}
  {txs : List Transaction} {earlier : List Hash}

lemma takeAll_eq_ok : coins.takeAll os = .ok after ↔
    os.Nodup ∧ (∀ o ∈ os, o ∈ coins) ∧ after = coins \ os.toFinset := by
  induction os generalizing coins with
  | nil => simp [takeAll, eq_comm]
  | cons o rest ih =>
    rw [takeAll, List.nodup_cons, List.forall_mem_cons]
    split
    next ho =>
      rw [ih, List.toFinset_cons, Finset.sdiff_insert, Finset.erase_sdiff_comm]
      simp only [Finset.mem_erase]
      constructor
      · rintro ⟨hnodup, hmem, hafter⟩
        exact ⟨⟨fun h => (hmem o h).1 rfl, hnodup⟩, ⟨ho, fun a ha => (hmem a ha).2⟩, hafter⟩
      · rintro ⟨⟨hnew, hnodup⟩, ⟨-, hmem⟩, hafter⟩
        refine ⟨hnodup, fun a ha => ⟨fun heq => hnew (heq ▸ ha), hmem a ha⟩, hafter⟩
    next ho => simp [ho]

lemma connect_eq_ok : coins.connect earlier tx = .ok after ↔
    tx.hash ∉ earlier ∧ (∀ o ∈ coins, o.hash ≠ tx.hash) ∧ tx.spentPoints.Nodup ∧
      (∀ o ∈ tx.spentPoints, o ∈ coins) ∧
      after = coins \ tx.spentPoints.toFinset ∪ tx.created := by
  rw [connect]
  split
  next hdup =>
    refine iff_of_false (by simp) ?_
    rintro ⟨hearlier, hnew, -⟩
    rcases hdup with h | ⟨o, ho, heq⟩
    · exact hearlier h
    · exact hnew o ho heq
  next hnew =>
    rw [not_or] at hnew
    rw [map_eq_ok]
    constructor
    · rintro ⟨left, htake, rfl⟩
      obtain ⟨hnodup, hmem, rfl⟩ := takeAll_eq_ok.1 htake
      exact ⟨hnew.1, fun o ho heq => hnew.2 ⟨o, ho, heq⟩, hnodup, hmem, rfl⟩
    · rintro ⟨-, -, hnodup, hmem, rfl⟩
      exact ⟨_, takeAll_eq_ok.2 ⟨hnodup, hmem, rfl⟩, rfl⟩

/-- What is no longer there after a block was spent by one of its transactions. -/
lemma mem_or_spent_of_connectAll (h : coins.connectAll earlier txs = .ok after) (ho : o ∈ coins) :
    o ∈ after ∨ ∃ tx ∈ txs, o ∈ tx.spentPoints := by
  induction txs generalizing coins earlier with
  | nil =>
    cases h
    exact .inl ho
  | cons tx rest ih =>
    obtain ⟨mid, hfirst, hrest⟩ := bind_eq_ok.1 h
    obtain ⟨-, -, -, -, rfl⟩ := connect_eq_ok.1 hfirst
    by_cases hspent : o ∈ tx.spentPoints
    · exact .inr ⟨tx, List.mem_cons_self, hspent⟩
    · have hmid : o ∈ coins \ tx.spentPoints.toFinset ∪ tx.created := by simp [ho, hspent]
      refine (ih hrest hmid).imp_right ?_
      rintro ⟨tx', htx', hspent'⟩
      exact ⟨tx', List.mem_cons_of_mem _ htx', hspent'⟩

/-- New names, and outpoints that are there and are spent once: the block goes through. By induction
on the transactions, as none of them takes or renames what the later ones need. -/
lemma connectAll_of_disjoint (distinct : (txs.map Transaction.hash).Nodup)
    (new : ∀ tx ∈ txs, tx.hash ∉ earlier ∧ ∀ o ∈ coins, o.hash ≠ tx.hash)
    (there : ∀ tx ∈ txs, tx.spentPoints.Nodup ∧ ∀ o ∈ tx.spentPoints, o ∈ coins)
    (apart : txs.Pairwise fun a b => ∀ o ∈ a.spentPoints, o ∉ b.spentPoints) :
    ∃ after, coins.connectAll earlier txs = .ok after := by
  induction txs generalizing coins earlier with
  | nil => exact ⟨coins, rfl⟩
  | cons tx rest ih =>
    rw [List.map_cons, List.nodup_cons] at distinct
    rw [List.forall_mem_cons] at new there
    rw [List.pairwise_cons] at apart
    have hfirst : coins.connect earlier tx =
        .ok (coins \ tx.spentPoints.toFinset ∪ tx.created) :=
      connect_eq_ok.2 ⟨new.1.1, new.1.2, there.1.1, there.1.2, rfl⟩
    have hne : ∀ tx' ∈ rest, tx.hash ≠ tx'.hash := by
      intro tx' htx' heq
      exact distinct.1 (heq ▸ List.mem_map_of_mem htx')
    have hnew : ∀ tx' ∈ rest, tx'.hash ∉ earlier ++ [tx.hash] ∧
        ∀ o ∈ coins \ tx.spentPoints.toFinset ∪ tx.created, o.hash ≠ tx'.hash := by
      intro tx' htx'
      obtain ⟨hearlier, hcoins⟩ := new.2 tx' htx'
      refine ⟨by simp [hearlier, (hne tx' htx').symm], fun o ho heq => ?_⟩
      rcases Finset.mem_union.1 ho with ho | ho
      · exact hcoins o (Finset.mem_sdiff.1 ho).1 heq
      · exact hne tx' htx' ((Transaction.hash_of_mem_created ho).symm.trans heq)
    have hthere : ∀ tx' ∈ rest, tx'.spentPoints.Nodup ∧
        ∀ o ∈ tx'.spentPoints, o ∈ coins \ tx.spentPoints.toFinset ∪ tx.created := by
      intro tx' htx'
      obtain ⟨hnodup, hmem⟩ := there.2 tx' htx'
      refine ⟨hnodup, fun o ho => ?_⟩
      have hkept : o ∉ tx.spentPoints := fun h => apart.1 tx' htx' o h ho
      simp [hmem o ho, hkept]
    obtain ⟨after, hrest⟩ := ih distinct.2 hnew hthere apart.2
    exact ⟨after, bind_eq_ok.2 ⟨_, hfirst, hrest⟩⟩

end Coins

open StoreM in
/-- Transactions that were connected obey the rule with the set that is left. -/
lemma Connecting.Standing.coins_connectAll {c c' : Connecting} {t : Tables} {U : Table}
    {pending : List Transaction} {loaded : List LoadedTx} {earlier : List Hash}
    (hs : Standing c t.unspent)
    (hminted : ∀ name, c.minted.contains name = true ↔ name ∈ earlier)
    (hat : c.locator.block.txs.drop c.position = pending)
    (hcount : c.locator.block.txs.length ≤ 2 ^ 31) (room : Room (2 ^ 64) c pending)
    (hlength : ∀ tx ∈ pending, tx.outputs.length < 2 ^ 32)
    (h : ConnectsAll c pending t.unspent loaded c' U) :
    t.unspent.coins.connectAll earlier pending = .ok U.coins := by
  have hobeys := hs.workOff_obeys hminted hat hcount room hlength
  have hstaged := staged_workOff_eq_ok.2 ⟨loaded, U, h, rfl⟩
  cases hrule : t.unspent.coins.connectAll earlier pending with
  | ok after =>
    rw [hrule] at hobeys
    obtain ⟨c₁, U₁, hstaged₁, rfl⟩ := hobeys
    rw [hstaged] at hstaged₁
    cases hstaged₁
    rfl
  | error refused =>
    rw [hrule] at hobeys
    obtain ⟨fault, hstaged₁, -⟩ := hobeys
    exact nomatch hstaged.symm.trans hstaged₁

open StoreM in
/-- And the transactions can be connected as soon as the rule goes through. -/
lemma Connecting.Standing.exists_connectsAll {c : Connecting} {t : Tables}
    {pending : List Transaction} {earlier : List Hash} {after : Coins}
    (hs : Standing c t.unspent)
    (hminted : ∀ name, c.minted.contains name = true ↔ name ∈ earlier)
    (hat : c.locator.block.txs.drop c.position = pending)
    (hcount : c.locator.block.txs.length ≤ 2 ^ 31) (room : Room (2 ^ 64) c pending)
    (hlength : ∀ tx ∈ pending, tx.outputs.length < 2 ^ 32)
    (rule : t.unspent.coins.connectAll earlier pending = .ok after) :
    ∃ loaded c' U, ConnectsAll c pending t.unspent loaded c' U := by
  have hobeys := hs.workOff_obeys hminted hat hcount room hlength
  rw [rule] at hobeys
  obtain ⟨c', U, hstaged, -⟩ := hobeys
  obtain ⟨loaded, U', connects, -⟩ := staged_workOff_eq_ok.1 hstaged
  exact ⟨loaded, c', U', connects⟩

section Hubs

variable {H : ChainedHeader → Prop} {P : Rules → Settings → Prop} {archive : Archive}
  {db : Database} {s s' : LedgerSession} {header : ChainedHeader}

/-- Between calls the unspent table is keyed by name. -/
lemma Stored.keyed (named : Traceable H) (sound : archive.Sound) (hs : Stored H P archive db) :
    db.committed.tables.unspent.Keyed := by
  rcases hs.filled with hempty | ⟨chain, t, known, vetted, agrees⟩
  · rw [hempty]
    exact Table.keyed_empty
  · obtain ⟨-, -, -, -, hkeyed, -⟩ := vetted.built.exact sound (named.genuine known)
    rwa [agrees.unspent]

/-- A ledger that adds a block moves the coins of the store along the plain rule. -/
lemma Shares.coins_add (named : Traceable H) (sound : archive.Sound) (hs : Shares H P archive s)
    (hH : H header) (hon : (Ledger.add archive header).on s = (.ok (), s')) :
    ∃ block, archive.block? header.hash = some block ∧
      s.db.committed.tables.unspent.coins.connectAll [] block.txs =
        .ok s'.db.committed.tables.unspent.coins := by
  have hadded := Ledger.added hs.serves.idle archive header
  rw [hon] at hadded
  cases hadded with
  | @connected block live' chain s' found free staged grown moved =>
    have grown := (Chain.add_eq_ok.1 grown).2
    obtain ⟨t, vetted, agrees⟩ := hs.stored.of_tip named sound hs.serves.known
      (Ledger.connected_of_staged staged).tip?
    have known := (Chain.forall_mem_iff_of_grown grown).2 ⟨hs.serves.known, hH⟩
    have genuine := named.genuine known
    obtain ⟨cs, loaded, c, U, hcs, connects, -, agrees'⟩ := vetted.built.connect sound
      genuine.genuineBelow agrees (fun hfull => hfull _ _ hs.serves.admitted) grown staged
    obtain ⟨cs', hcs', -, standing, room⟩ := vetted.built.start sound agrees genuine grown found
    cases hcs.symm.trans hcs'
    have bounds := (sound _ _ found).2
    rw [← agrees.unspent] at connects
    refine ⟨block, found, ?_⟩
    have hU : s'.db.committed.tables.unspent = U := by
      rw [moved.tables, agrees'.unspent]
      simp [Connecting.closed]
    rw [hU]
    exact standing.coins_connectAll (by simp [Connecting.taken]) rfl bounds.txs.le room
      (fun tx htx => (bounds.of_mem htx).2.trans (by decide)) connects

/-- Opening a ledger leaves the coins as they are. -/
lemma Stored.unspent_openOn (named : Traceable H) (sound : archive.Sound)
    (hs : Stored H P archive db) (rules : Rules) (settings : Settings) (genesis : ChainedHeader) :
    (Ledger.openOn db rules settings genesis).2.committed.tables.unspent =
      db.committed.tables.unspent := by
  have hopened := Ledger.opening db rules settings genesis
  generalize Ledger.openOn db rules settings genesis = r at hopened ⊢
  cases hopened with
  | @seeded t chain n height empty free staged headers =>
    rcases hs.filled with hempty | ⟨stored, t₀, hstored, vetted, agrees⟩
    · rw [hempty] at staged ⊢
      cases (Ledger.staged_seeding genesis).symm.trans staged
      simp [Ledger.seedTables]
    · have hlist := (Stored.chainHeaders_tip? named sound hstored vetted agrees).1
      exact absurd (Except.ok.inj (hlist.symm.trans empty)) stored.nonempty
  | loaded => rfl
  | refused => rfl

end Hubs

end UtxoLedger

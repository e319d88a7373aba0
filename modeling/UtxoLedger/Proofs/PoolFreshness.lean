import Mathlib.Tactic.Common
import UtxoLedger.Proofs.CoinFlow
import UtxoLedger.Proofs.PoolClaims

/-!
# The pool while the chain grows

Ledgers connect blocks, transactions enter the pool, and the pool is told of the blocks, each of
these at any time and as one step. Whatever a pooled transaction spends is unspent in the store, or
it is spent by a block that the pool has not been told of yet; telling it of that block takes the
transaction out. Once the pool was told of every block, nothing in it is spent.
-/
namespace UtxoLedger

/-- The block that an addition connected, if it did. -/
def Ledger.connectedBlock (archive : Archive) (header : ChainedHeader) :
    Except LedgerError Unit → List Block
  | .ok () => (archive.block? header.hash).toList
  | .error _ => []

/-- The pool after a transaction was offered to it. -/
def Pool.offer (p : Pool) (archive : Archive) (rules : Rules) (db : Database) (tx : Transaction) :
    Pool :=
  (p.accept archive rules db tx).2

/-- An offered transaction comes in, or the pool is as it was. -/
lemma Pool.entered_or_same (p : Pool) (archive : Archive) (rules : Rules) (db : Database)
    (tx : Transaction) : p.accept archive rules db tx = (.ok (), p.offer archive rules db tx) ∨
      p.offer archive rules db tx = p := by
  unfold offer
  cases haccept : p.accept archive rules db tx with
  | mk answer p' =>
    cases answer with
    | ok => exact .inl rfl
    | error refusal => exact .inr (accept_refused haccept)

/-- The pool after it was told of a block. -/
def Pool.tell (p : Pool) (header : ChainedHeader) (block : Block) : Pool :=
  (p.confirm header block).1

/-- A transaction of the block spends the outpoint. -/
def Block.Spends (b : Block) (o : OutPoint) : Prop := ∃ tx ∈ b.txs, o ∈ tx.spentPoints

/-- What comes out of any run of ledgers that only add blocks, on a store that is empty at first,
and of one pool beside it, with the blocks that were connected and that the pool has not been told
of. Headers are among `H`, transactions among `T`. -/
inductive Growing (H : ChainedHeader → Prop) (T : Transaction → Prop) :
    Hub → Pool → List Block → Prop
  | fresh : Growing H T ⟨.fresh, .empty, []⟩ .empty []
  | stored {db : Database} {archive : Archive} {ledgers : List Ledger} {pool : Pool}
      {due : List Block} (before : Growing H T ⟨db, archive, ledgers⟩ pool due) (block : Block)
      (bounds : block.InBounds) (same : ∀ old, archive.block? block.hash = some old → old = block) :
      Growing H T ⟨db, archive.add block, ledgers⟩ pool due
  | opened {db : Database} {archive : Archive} {ledgers : List Ledger} {pool : Pool}
      {due : List Block} (before : Growing H T ⟨db, archive, ledgers⟩ pool due)
      {genesis : ChainedHeader} (known : H genesis) (rules : Rules) (settings : Settings) :
      Growing H T ⟨(Ledger.openOn db rules settings genesis).2, archive,
        (Ledger.openOn db rules settings genesis).1.toOption.toList ++ ledgers⟩ pool due
  | dropped {db : Database} {archive : Archive} {others more : List Ledger} {l : Ledger}
      {pool : Pool} {due : List Block}
      (before : Growing H T ⟨db, archive, others ++ l :: more⟩ pool due) :
      Growing H T ⟨l.closeOn db, archive, others ++ more⟩ pool due
  | added {db : Database} {archive : Archive} {others more : List Ledger} {l : Ledger}
      {pool : Pool} {due : List Block}
      (before : Growing H T ⟨db, archive, others ++ l :: more⟩ pool due) {header : ChainedHeader}
      (known : H header) :
      Growing H T ⟨((Ledger.add archive header).on ⟨l, db⟩).2.db, archive,
        others ++ ((Ledger.add archive header).on ⟨l, db⟩).2.ledger :: more⟩ pool
        (due ++ Ledger.connectedBlock archive header ((Ledger.add archive header).on ⟨l, db⟩).1)
  | offered {db : Database} {archive : Archive} {ledgers : List Ledger} {pool : Pool}
      {due : List Block} (before : Growing H T ⟨db, archive, ledgers⟩ pool due) {tx : Transaction}
      (known : T tx) (rules : Rules) :
      Growing H T ⟨db, archive, ledgers⟩ (pool.offer archive rules db tx) due
  | told {hub : Hub} {pool : Pool} {due : List Block} (before : Growing H T hub pool due)
      (header : ChainedHeader) {block : Block} (known : ∀ tx ∈ block.txs, T tx) :
      Growing H T hub (pool.tell header block) (due.erase block)

/-- A ledger that only adds blocks is a ledger. -/
lemma Growing.reached {H : ChainedHeader → Prop} {T : Transaction → Prop} {hub : Hub} {pool : Pool}
    {due : List Block} (h : Growing H T hub pool due) :
    Hub.Reached H (fun _ _ => True) hub := by
  induction h with
  | fresh => exact .fresh
  | stored _ block bounds same ih => exact ih.stored block bounds same
  | opened _ known rules settings ih => exact ih.opened known trivial
  | dropped _ ih => exact ih.dropped
  | @added _ _ _ _ _ _ _ _ header known ih =>
    have hknown : ∀ h ∈ (Ledger.Call.add header).headers, H h := by
      simpa [Ledger.Call.headers] using known
    exact ih.called hknown
  | offered _ _ _ ih => exact ih
  | told _ _ _ ih => exact ih

/-- What a run keeps of a pool: its index is exact, it holds known transactions, and what they spend
is among the coins or spent by a block that is due. -/
structure Pool.Fresh (T : Transaction → Prop) (p : Pool) (db : Database) (due : List Block) :
    Prop where
  sound : p.Sound
  known : ∀ (name : Hash) (t : PooledTx), p.txs[name]? = some t → T t.tx
  covered : ∀ (name : Hash) (t : PooledTx), p.txs[name]? = some t → ∀ o ∈ t.tx.prevouts,
    o ∈ db.committed.tables.unspent.coins ∨ ∃ b ∈ due, b.Spends o

section Steps

variable {H : ChainedHeader → Prop} {P : Rules → Settings → Prop} {T : Transaction → Prop}
  {p : Pool} {db db' : Database} {archive : Archive} {due : List Block}

lemma Tables.offers_iff {t : Tables} (h : t.unspent.Keyed) {o : OutPoint} :
    t.Offers o ↔ o ∈ t.unspent.coins := by
  rw [Table.mem_coins h]
  simp only [Offers, unspent?_eq_some, and_assoc]

lemma Transaction.spentPoints_of_spends {tx : Transaction} (h : tx.isCoinbase = false) :
    tx.spentPoints = tx.prevouts := by
  simp [spentPoints, spending, prevouts, h]

namespace Pool.Fresh

lemma congr (hf : p.Fresh T db due)
    (h : db'.committed.tables.unspent = db.committed.tables.unspent) : p.Fresh T db' due :=
  ⟨hf.sound, hf.known, by rw [h]; exact hf.covered⟩

/-- A block that was connected is due: it spends whatever is no longer there. -/
lemma added (named : Traceable H) (sound : archive.Sound) {l : Ledger}
    (hs : Shares H P archive ⟨l, db⟩) (hf : p.Fresh T db due) {header : ChainedHeader}
    (known : H header) : p.Fresh T ((Ledger.add archive header).on ⟨l, db⟩).2.db
      (due ++ Ledger.connectedBlock archive header
        ((Ledger.add archive header).on ⟨l, db⟩).1) := by
  have hadded := Ledger.added hs.serves.idle archive header
  generalize hon : (Ledger.add archive header).on ⟨l, db⟩ = r at hadded ⊢
  cases hadded with
  | refused => simpa [Ledger.connectedBlock] using hf
  | @connected block t chain s' found free staged grown moved =>
    obtain ⟨block', found', hrule⟩ := hs.coins_add named sound known hon
    cases found.symm.trans found'
    refine ⟨hf.sound, hf.known, fun name t ht o ho => ?_⟩
    simp only [Ledger.connectedBlock, found, Option.toList_some, List.mem_append,
      List.mem_singleton]
    rcases hf.covered name t ht o ho with hcoin | ⟨b, hb, hspends⟩
    · refine (Coins.mem_or_spent_of_connectAll hrule hcoin).imp_right fun hspent => ?_
      exact ⟨block, .inr rfl, hspent⟩
    · exact .inr ⟨b, .inl hb, hspends⟩

/-- What comes in spends coins of the store. -/
lemma offered (keyed : db.committed.tables.unspent.Keyed) (hf : p.Fresh T db due)
    {tx : Transaction} (known : T tx) (rules : Rules) :
    (p.offer archive rules db tx).Fresh T db due := by
  obtain haccept | hsame := p.entered_or_same archive rules db tx
  swap
  · rwa [hsame]
  obtain ⟨-, -, -, t, hjudge, hinsert⟩ := accept_eq_ok.1 haccept
  obtain ⟨s, spent, fee, htake, hlends, -, -, rfl⟩ := judge_eq_ok.1 hjudge
  obtain ⟨headers, -, hchain⟩ := bind_eq_ok.1 htake
  obtain ⟨chain, -, hs⟩ := bind_eq_ok.1 hchain
  cases hs
  refine ⟨hf.sound.accept haccept, fun name t ht => ?_, fun name t ht o ho => ?_⟩
  · rw [hinsert, txs_insert] at ht
    split at ht
    · cases ht
      exact known
    · exact hf.known name t ht
  · rw [hinsert, txs_insert] at ht
    split at ht
    · cases ht
      obtain ⟨input, hinput, rfl⟩ := List.mem_map.1 ho
      obtain ⟨i, hi, rfl⟩ := List.getElem_of_mem hinput
      have hlend := hlends.get hi (hlends.length_eq ▸ hi)
      exact .inl ((Tables.offers_iff keyed).1 hlend.offers)
    · exact hf.covered name t ht o ho

/-- Telling the pool of a block takes out whoever spends what the block spends. -/
lemma told (apart : ∀ a b, T a → T b → a.hash = b.hash → a = b) (hf : p.Fresh T db due)
    (header : ChainedHeader) {block : Block} (known : ∀ tx ∈ block.txs, T tx) :
    (p.tell header block).Fresh T db (due.erase block) := by
  have hown : ∀ tx ∈ block.txs, ∀ t, p.txs[tx.hash]? = some t → t.tx = tx := fun tx htx t ht =>
    apart _ _ (hf.known _ t ht) (known tx htx) (hf.sound.named _ t ht).2
  have htxs := hf.sound.txs_confirmTxs ⟨header, ∅, []⟩ hown
  refine ⟨hf.sound.confirmTxs _ _, fun name t ht => hf.known name t ((htxs name t).1 ht).1, ?_⟩
  intro name t ht o ho
  obtain ⟨hold, hleft⟩ := (htxs name t).1 ht
  refine (hf.covered name t hold o ho).imp_right ?_
  rintro ⟨b, hb, tx, htx, hspent⟩
  have hne : b ≠ block := by
    rintro rfl
    cases hcoinbase : tx.isCoinbase with
    | true => simp [Transaction.spentPoints, Transaction.spending, hcoinbase] at hspent
    | false =>
      rw [Transaction.spentPoints_of_spends hcoinbase] at hspent
      exact (hleft tx htx).2 hcoinbase o hspent ho
  exact ⟨b, (List.mem_erase_of_ne hne).2 hb, tx, htx, hspent⟩

end Pool.Fresh

end Steps

/-- Every step of a run keeps the pool fresh. -/
theorem Growing.fresh_pool {H : ChainedHeader → Prop} {T : Transaction → Prop}
    (named : NamedApart H) (apart : ∀ a b, T a → T b → a.hash = b.hash → a = b) {hub : Hub}
    {pool : Pool} {due : List Block} (h : Growing H T hub pool due) :
    pool.Fresh T hub.db due := by
  induction h with
  | fresh => exact ⟨Pool.sound_empty, by simp [Pool.empty], by simp [Pool.empty]⟩
  | stored _ _ _ _ ih => exact ih.congr rfl
  | @opened _ _ _ _ _ before genesis known rules settings ih =>
    have sound := before.reached.sound named
    exact ih.congr (sound.stored.unspent_openOn named sound.archive rules settings genesis)
  | @dropped _ _ _ _ l _ _ before ih =>
    have sound := before.reached.sound named
    rw [Ledger.closeOn_of_idle (sound.serves l (by simp)).idle]
    exact ih
  | @added _ _ _ _ l _ _ before header known ih =>
    have sound := before.reached.sound named
    exact ih.added named sound.archive ⟨sound.serves l (by simp), sound.stored⟩ known
  | @offered _ _ _ _ _ before tx known rules ih =>
    have sound := before.reached.sound named
    exact ih.offered (sound.stored.keyed named sound.archive) known rules
  | told _ header known ih => exact ih.told apart header known

/-- The pool never keeps a spent input while the chain only grows. However additions of blocks,
offers of transactions and notices of blocks were interleaved, each a whole call: when the pool has
been told of every block that was connected, each input of each pooled transaction names an unspent
output in the committed store. -/
theorem pool_spends_unspent {H : ChainedHeader → Prop} {T : Transaction → Prop}
    (named : NamedApart H) (apart : ∀ a b, T a → T b → a.hash = b.hash → a = b) {hub : Hub}
    {pool : Pool} (run : Growing H T hub pool []) {name : Hash} {t : PooledTx}
    (pooled : pool.txs[name]? = some t) {input : TxInput} (mem : input ∈ t.tx.inputs) :
    hub.db.committed.tables.Offers input.prevout := by
  have sound := run.reached.sound named
  have hfresh := run.fresh_pool named apart
  rw [Tables.offers_iff (sound.stored.keyed named sound.archive)]
  rcases hfresh.covered name t pooled _ (List.mem_map_of_mem mem) with hcoin | ⟨b, hb, -⟩
  · exact hcoin
  · exact absurd hb List.not_mem_nil

/-- A sole ledger adds a block. -/
lemma Growing.added_sole {H : ChainedHeader → Prop} {T : Transaction → Prop} {archive : Archive}
    {s : LedgerSession} {pool : Pool} {due due' : List Block} {header : ChainedHeader}
    (before : Growing H T ⟨s.db, archive, [s.ledger]⟩ pool due) (known : H header)
    (connected : due ++ Ledger.connectedBlock archive header ((Ledger.add archive header).on s).1 =
      due') : Growing H T ⟨(Ledger.Call.runAll archive [.add header] s).db, archive,
        [(Ledger.Call.runAll archive [.add header] s).ledger]⟩ pool due' := by
  subst connected
  exact @Growing.added H T s.db archive [] [] s.ledger pool due before header known

/-- The coin is claimed while it is there, and the next coin once it is. -/
def claimingPool : Pool :=
  (Pool.empty.offer coinArchive (.permissive fun _ => .accepted) coinSession.db
    (passOn (coinbase 1))).offer coinArchive (.permissive fun _ => .accepted) spentSession.db
      (passOn (coinbase 2))

/-- The pool hears of the later block first. -/
def toldPool : Pool :=
  (claimingPool.tell spendingHeader spendingBlock).tell coinHeader coinBlock

def coinTxs : List Transaction :=
  [coinbase 1, coinbase 2, passOn (coinbase 1), passOn (passOn (coinbase 1)), passOn (coinbase 2)]

lemma toldPool_evaluated :
    Ledger.connectedBlock coinArchive coinHeader
      ((Ledger.add coinArchive coinHeader).on coinStart).1 = [coinBlock] ∧
    Ledger.connectedBlock coinArchive spendingHeader
      ((Ledger.add coinArchive spendingHeader).on coinSession).1 = [spendingBlock] ∧
    claimingPool.size = 2 ∧
    toldPool.get? (passOn (coinbase 2)).hash =
      some ⟨passOn (coinbase 2), (passOn (coinbase 2)).hash, 0, 2⟩ ∧
    ([coinBlock, spendingBlock].erase spendingBlock).erase coinBlock = [] ∧
    ∀ a ∈ coinTxs, ∀ b ∈ coinTxs, a.hash = b.hash → a = b := by decide +kernel

lemma toldPool_growing : Growing (· ∈ coinHeaders) (· ∈ coinTxs)
    ⟨spentSession.db, coinArchive, [spentSession.ledger]⟩ toldPool [] := by
  obtain ⟨hcoin, hspending, -, -, hdue, -⟩ := toldPool_evaluated
  have stored : Growing (· ∈ coinHeaders) (· ∈ coinTxs) ⟨.fresh, coinArchive, []⟩ .empty [] := by
    refine (Growing.fresh.stored coinBlock ?_ ?_).stored spendingBlock ?_ ?_
    · exact ⟨by decide, by decide, by decide⟩
    · simp [Archive.block?, Archive.empty]
    · exact ⟨by decide, by decide, by decide⟩
    · simp [coinRun_evaluated.2.2.1]
  have opened : Growing (· ∈ coinHeaders) (· ∈ coinTxs)
      ⟨coinStart.db, coinArchive, [coinStart.ledger]⟩ .empty [] := by
    have h := stored.opened (show soleGenesis ∈ coinHeaders by simp [coinHeaders])
      (.permissive fun _ => .accepted) unprunedSettings
    obtain ⟨chain, db, hheaders, -, -, hopen⟩ :=
      Ledger.openOn_fresh (.permissive fun _ => .accepted) unprunedSettings
        (show soleGenesis.height = 0 from rfl)
    obtain rfl : chain = soleChain := Chain.ext_headers hheaders
    rw [hopen] at h
    unfold coinStart
    rw [hopen]
    exact h
  have coin : Growing (· ∈ coinHeaders) (· ∈ coinTxs)
      ⟨coinSession.db, coinArchive, [coinSession.ledger]⟩ .empty [coinBlock] := by
    unfold coinSession
    exact opened.added_sole (by simp [coinHeaders]) (by rw [hcoin, List.nil_append])
  have claimed := coin.offered (show passOn (coinbase 1) ∈ coinTxs by simp [coinTxs])
    (.permissive fun _ => .accepted)
  have spent : Growing (· ∈ coinHeaders) (· ∈ coinTxs)
      ⟨spentSession.db, coinArchive, [spentSession.ledger]⟩ (Pool.empty.offer coinArchive
        (.permissive fun _ => .accepted) coinSession.db (passOn (coinbase 1)))
      [coinBlock, spendingBlock] := by
    unfold spentSession
    exact claimed.added_sole (by simp [coinHeaders]) (by rw [hspending, List.singleton_append])
  have claiming := spent.offered (show passOn (coinbase 2) ∈ coinTxs by simp [coinTxs])
    (.permissive fun _ => .accepted)
  have hspendingTxs : ∀ tx ∈ spendingBlock.txs, tx ∈ coinTxs := by
    simp [coinTxs, spendingBlock, blockAbove]
  have hcoinTxs : ∀ tx ∈ coinBlock.txs, tx ∈ coinTxs := by simp [coinTxs, coinBlock, blockAbove]
  have told := (claiming.told spendingHeader hspendingTxs).told coinHeader hcoinTxs
  rw [hdue] at told
  unfold toldPool claimingPool
  exact told

/-- Of the two claims one is left when the pool has heard of both blocks, and its coin is there. -/
theorem pool_spends_unspent_late : ∃ hub pool t,
    Growing (· ∈ coinHeaders) (· ∈ coinTxs) hub pool [] ∧
    pool.txs[(passOn (coinbase 2)).hash]? = some t ∧ t.tx = passOn (coinbase 2) ∧
    hub.db.committed.tables.Offers ⟨(coinbase 2).hash, 0⟩ := by
  obtain ⟨-, -, -, hpooled, -, hapart⟩ := toldPool_evaluated
  have hinput : ⟨⟨(coinbase 2).hash, 0⟩, [], 0xffffffff⟩ ∈ (passOn (coinbase 2)).inputs :=
    List.mem_cons_self
  have hoffers := pool_spends_unspent coinHeaders_apart (fun a b ha hb => hapart a ha b hb)
    toldPool_growing hpooled hinput
  exact ⟨_, _, _, toldPool_growing, hpooled, rfl, hoffers⟩

end UtxoLedger

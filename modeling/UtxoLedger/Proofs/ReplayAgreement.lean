import Mathlib.Tactic.Common
import UtxoLedger.Proofs.PlainCoins
import UtxoLedger.Proofs.ReplayedBlock

/-!
# The three replays agree

Whoever connects a block, disconnects it or replays it on a snapshot gets the same transactions with
the same sources, although the sources are located in three ways: by the records that change as the
block goes on, by the journal, and by the positions in the block together with the records of a
snapshot. It takes that a name has one body, and that the journal on record is the one that
connecting the block has left.
-/
namespace UtxoLedger

open StoreM

/-- Rules and settings of any kind. -/
abbrev AnyRules (_ : Rules) (_ : Settings) : Prop := True

/-- What comes out of any run in which, beside any number of ledgers under any rules, stored blocks
are connected to the stored chain or disconnected from it directly, each from start to close in a
write transaction of its own. -/
inductive Hub.Worked (H : ChainedHeader → Prop) : Hub → Prop
  | fresh : Worked H ⟨.fresh, .empty, []⟩
  | stored {db : Database} {archive : Archive} {ledgers : List Ledger}
      (before : Worked H ⟨db, archive, ledgers⟩) (block : Block) (bounds : block.InBounds)
      (same : ∀ old, archive.block? block.hash = some old → old = block) :
      Worked H ⟨db, archive.add block, ledgers⟩
  | opened {db : Database} {archive : Archive} {ledgers : List Ledger}
      (before : Worked H ⟨db, archive, ledgers⟩) {genesis : ChainedHeader} (known : H genesis)
      (rules : Rules) (settings : Settings) :
      Worked H ⟨(Ledger.openOn db rules settings genesis).2, archive,
        (Ledger.openOn db rules settings genesis).1.toOption.toList ++ ledgers⟩
  | dropped {db : Database} {archive : Archive} {others more : List Ledger} {l : Ledger}
      (before : Worked H ⟨db, archive, others ++ l :: more⟩) :
      Worked H ⟨l.closeOn db, archive, others ++ more⟩
  | called {db : Database} {archive : Archive} {others more : List Ledger} {l : Ledger}
      (before : Worked H ⟨db, archive, others ++ l :: more⟩) {call : Ledger.Call}
      (known : ∀ h ∈ call.headers, H h) :
      Worked H ⟨((call.run archive).on ⟨l, db⟩).2.db, archive,
        others ++ ((call.run archive).on ⟨l, db⟩).2.ledger :: more⟩
  | connected {db db' : Database} {archive : Archive} {ledgers : List Ledger} {chain : Chain}
      {header : ChainedHeader} {block : Block} {counters : Counters}
      (before : Worked H ⟨db, archive, ledgers⟩) (below : ∀ h ∈ chain.headers, H h)
      (known : H header) (found : archive.block? header.hash = some block)
      (on : (atomically (Connecting.whole archive chain header block)).on ⟨db, .idle⟩ =
        (.ok counters, ⟨db', .idle⟩)) : Worked H ⟨db', archive, ledgers⟩
  | disconnected {db db' : Database} {archive : Archive} {ledgers : List Ledger}
      {header : ChainedHeader} {block : Block} {counters : Counters}
      (before : Worked H ⟨db, archive, ledgers⟩) (known : H header)
      (found : archive.block? header.hash = some block)
      (on : (atomically (Disconnecting.whole archive header block)).on ⟨db, .idle⟩ =
        (.ok counters, ⟨db', .idle⟩)) : Worked H ⟨db', archive, ledgers⟩

/-- A run of ledgers alone is one of these. -/
lemma Hub.Reached.worked {H : ChainedHeader → Prop} {P : Rules → Settings → Prop} {n : Hub}
    (h : Hub.Reached H P n) : Hub.Worked H n := by
  induction h with
  | fresh => exact .fresh
  | stored _ block bounds same ih => exact ih.stored block bounds same
  | opened _ known _ ih => exact ih.opened known _ _
  | dropped _ ih => exact ih.dropped
  | called _ known ih => exact ih.called known

variable {H : ChainedHeader → Prop} {P : Rules → Settings → Prop} {archive later : Archive}
  {chain chain' below : Chain} {header : ChainedHeader} {block : Block} {cs : Counters}
  {loaded : List LoadedTx} {c : Connecting} {U : Table} {live t t' : Tables} {full : Prop}

/-- The next block of a chain whose tables the live ones agree with: all of it is known, and nothing
is recorded under its name or its height. -/
lemma Built.next (named : Traceable H) (sound : archive.Sound) (built : Built archive chain t)
    (agrees : Agrees full live t) (hchain : ∀ h ∈ chain.headers, H h) (known : H header)
    (above : header.Extends chain.tip) :
    ∃ chain' : Chain, chain'.headers = chain.headers ++ [header] ∧ (∀ h ∈ chain'.headers, H h) ∧
      chain'.Genuine ∧ live.spent[Height.key header.height]? = none ∧
      live.unminted[header.hash.bytes]? = none := by
  obtain ⟨chain', hadd⟩ : ∃ chain', chain.add header = .ok chain' := by simp [Chain.add, above]
  have grown := (Chain.add_eq_ok.1 hadd).2
  have hchain' := (Chain.forall_mem_iff_of_grown grown).2 ⟨hchain, known⟩
  have genuine := named.genuine hchain'
  obtain ⟨hbelow, -, hnew⟩ := genuine.of_grown grown
  obtain ⟨-, hspent, hunminted⟩ := (built.solid sound hbelow).free_above above hnew
  exact ⟨chain', grown, hchain', genuine, agrees.spent.eq_none hspent,
    agrees.unminted.eq_none hunminted⟩

namespace Stored

variable {db : Database} {n : Nat} {counters : Counters}

/-- A block that is connected directly is one that a ledger could have connected. -/
lemma connected (named : Traceable H) (sound : archive.Sound) (hs : Stored H AnyRules archive db)
    (hchain : ∀ h ∈ chain.headers, H h) (known : H header)
    (found : archive.block? header.hash = some block)
    (staged : (Connecting.whole archive chain header block).staged db.committed.tables =
      .ok (counters, t')) :
    Stored H AnyRules archive { db with committed := ⟨t', n⟩ } := by
  obtain ⟨c₀, t₀, hstart, -⟩ := staged_bind_eq_ok.1 staged
  obtain ⟨above, tip, -⟩ := Connecting.staged_start_eq_ok.1 hstart
  obtain ⟨t, vetted, agrees⟩ := hs.of_tip named sound hchain tip
  obtain ⟨chain', grown, hchain', -, hspent, hunminted⟩ :=
    vetted.built.next named sound agrees hchain known above
  obtain ⟨cs, loaded, c, U, hcs, connects, rfl⟩ :=
    Connecting.connectsAll_of_staged_whole hspent hunminted staged
  rw [Tables.readCounters_congr agrees.counters] at hcs
  rw [agrees.unspent] at connects
  -- No rules were asked; those that let everything pass would have let this block pass.
  have admitted : AnyRules (.permissive fun _ => .accepted) .deterministic := trivial
  have vetted' := Vetted.above vetted found hcs connects admitted rfl grown
  exact ⟨hs.free, .inr ⟨chain', _, hchain', vetted', agrees.closed c U⟩⟩

/-- So is a block that is disconnected directly. -/
lemma disconnected (named : Traceable H) (sound : archive.Sound) (hs : Stored H P archive db)
    (known : H header) (found : archive.block? header.hash = some block)
    (staged : (Disconnecting.whole archive header block).staged db.committed.tables =
      .ok (counters, t')) :
    Stored H P archive { db with committed := ⟨t', n⟩ } := by
  obtain ⟨d, t₀, hstart, -⟩ := staged_bind_eq_ok.1 staged
  obtain ⟨⟨tip, htip, hhash, hheight⟩, -, j, -, -, hload, -⟩ :=
    Disconnecting.staged_start_eq_ok.1 hstart
  rcases hs.filled with hempty | ⟨chain, t, hchain, vetted, agrees⟩
  · rw [hempty] at htip
    exact nomatch htip
  have hlast := (chainHeaders_tip? named sound hchain vetted agrees).2
  cases htip.symm.trans hlast
  obtain rfl : chain.tip = header :=
    named.apart _ _ (hchain _ (List.getLast_mem _)) known hhash hheight
  have above : chain.tip.height ≠ 0 := by
    rw [Chain.height_ne_zero_iff]
    cases vetted with
    | genesis =>
      -- Genesis has no journal.
      obtain ⟨v, hv, -⟩ := Tables.record?_eq_some.1 (Journal.load_eq_ok.1 hload).1
      have hseed := agrees.spent _ _ hv
      simp [Ledger.seedTables, Tables.empty] at hseed
    | @above _ below _ _ _ _ _ _ _ _ _ _ _ _ _ _ _ grown =>
      have := below.length_pos
      rw [grown, List.length_append, List.length_singleton]
      omega
  obtain ⟨below, t₀, grown, vetted₀, agrees₀⟩ :=
    vetted.undo sound (named.genuine hchain) agrees above found staged
  obtain ⟨hbelow, -⟩ := (Chain.forall_mem_iff_of_grown grown).1 hchain
  exact ⟨hs.free, .inr ⟨below, t₀, hbelow, vetted₀, agrees₀⟩⟩

end Stored

/-- Every step of such a run keeps the hub sound. -/
theorem Hub.Worked.sound (named : Traceable H) {n : Hub} (h : Hub.Worked H n) :
    n.Sound H AnyRules := by
  induction h with
  | fresh => exact .fresh
  | stored _ block bounds same ih => exact ih.add bounds same
  | opened _ known rules settings ih => exact ih.opened named known trivial
  | dropped _ ih => exact ih.dropped
  | called _ known ih => exact ih.called named known
  | @connected db db' archive ledgers chain header block counters _ below known found on ih =>
    rcases on_atomically_free ih.stored.free (Connecting.whole archive chain header block) with
      ⟨a, t, n, staged, hon⟩ | ⟨e, -, hon⟩
    · cases on.symm.trans hon
      exact ⟨ih.archive, ih.stored.connected named ih.archive below known found staged, ih.serves⟩
    · cases on.symm.trans hon
  | @disconnected db db' archive ledgers header block counters _ known found on ih =>
    rcases on_atomically_free ih.stored.free (Disconnecting.whole archive header block) with
      ⟨a, t, n, staged, hon⟩ | ⟨e, -, hon⟩
    · cases on.symm.trans hon
      exact ⟨ih.archive, ih.stored.disconnected named ih.archive known found staged, ih.serves⟩
    · cases on.symm.trans hon

/-- What the tables of a chain keep of a block on it: the journal that connecting the block to the
chain below has left. -/
lemma Built.recorded (built : Built archive chain t) (genuine : chain.Genuine)
    (mem : header ∈ chain.headers) (above : 0 < header.height.toInt) :
    ∃ below block t₀ cs loaded c U, Built archive below t₀ ∧
      archive.block? header.hash = some block ∧ t₀.readCounters = .ok cs ∧
      Connecting.ConnectsAll (.taken archive below header block cs) block.txs t₀.unspent loaded c
        U ∧
      header.Extends below.tip ∧ below.headers ⊆ chain.headers ∧
      t.spent[Height.key header.height]? = some c.journal.spent.encode ∧
      t.unminted[header.hash.bytes]? = some c.journal.unminted.encode := by
  induction built with
  | @genesis chain top sole =>
    obtain ⟨i, hi, hat⟩ := List.getElem_of_mem mem
    have hheight := chain.heights i hi
    have hlength : chain.headers.length = 1 := by simp [sole]
    rw [hat] at hheight
    omega
  | @above chain below top block t cs loaded c U built found counters connects grown ih =>
    have hlocator : c.locator = ⟨archive, top, block⟩ := connects.same.1
    have hx := Chain.extends_of_grown grown
    obtain ⟨hbelow, -, hnew⟩ := genuine.of_grown grown
    have hsub : below.headers ⊆ chain.headers := by simp [grown]
    rw [grown, List.mem_append, List.mem_singleton] at mem
    rcases mem with mem | rfl
    · obtain ⟨below', block', t₀, cs', loaded', c', U', hbuilt, hfound, hcs, hconnects, hx', hsub',
        hspent, hunminted⟩ := ih hbelow mem
      -- The entries of the block on top stand under other keys.
      have hheight : Height.key top.height ≠ Height.key header.height := by
        obtain ⟨i, hi, hat⟩ := List.getElem_of_mem mem
        have hheight := below.heights i hi
        have htip : below.tip.height.toInt = (below.headers.length - 1 : Nat) := below.toInt_height
        have htop := hx.1
        rw [hat] at hheight
        rw [Ne, Height.key_inj]
        intro heq
        rw [heq] at htop
        omega
      have hhash : top.hash.bytes ≠ header.hash.bytes := by
        rw [Ne, Hash.bytes_inj]
        exact (hnew header mem).symm
      refine ⟨below', block', t₀, cs', loaded', c', U', hbuilt, hfound, hcs, hconnects, hx',
        List.Subset.trans hsub' hsub, ?_, ?_⟩
      · simp [Connecting.closed, hlocator, Table.getElem?_insert, hheight, hspent]
      · simp [Connecting.closed, hlocator, Table.getElem?_insert, hhash, hunminted]
    · refine ⟨below, block, t, cs, loaded, c, U, built, found, counters, connects, hx, hsub, ?_, ?_⟩
      · simp [Connecting.closed, hlocator]
      · simp [Connecting.closed, hlocator]

/-- Whenever the block is undone to the end in a write transaction over the tables, a caller sees
`loaded`, last first, however much of it it looks at. -/
def Tables.Undoes (t : Tables) (archive : Archive) (header : ChainedHeader) (block : Block)
    (loaded : List LoadedTx) : Prop :=
  ∀ (now : Database) (touched : Bool) (n : Nat) (d : Disconnecting) (s s₁ s₂ : Session)
    (seen : List (Except LedgerError LoadedTx))
    (rest : Progress Disconnecting (Transaction × Nat)) (counters : Counters),
    (Disconnecting.start archive header block).on ⟨now, .writing t touched⟩ = (.ok d, s) →
    d.progress.advance Disconnecting.disconnect n s = ((seen, rest), s₁) →
    (Disconnecting.finish rest).on s₁ = (.ok counters, s₂) →
    ∀ k, Progress.outcomes Disconnecting.disconnect k d.progress s =
      (loaded.reverse.map .ok).take k

/-- A stored block that is next on a chain, as it is connected to the tables of that chain. -/
structure NextBlock (H : ChainedHeader → Prop) (archive : Archive) (chain : Chain) (t : Tables)
    (header : ChainedHeader) (block : Block) (loaded : List LoadedTx) (c : Connecting) : Prop where
  below : ∀ h ∈ chain.headers, H h
  known : H header
  built : Built archive chain t
  found : archive.block? header.hash = some block
  named : block.hash = header.hash
  bounds : block.InBounds
  above : header.Extends chain.tip
  connects : ∃ cs U, t.readCounters = .ok cs ∧ Connecting.ConnectsAll
    (.taken archive chain header block cs) block.txs t.unspent loaded c U

namespace NextBlock

lemma within (next : NextBlock H archive chain t header block loaded c)
    (hw : archive.Within later) :
    NextBlock H later chain t header block loaded (c.backedBy later) := by
  obtain ⟨cs, U, hcs, connects⟩ := next.connects
  exact ⟨next.below, next.known, next.built.within hw, hw _ _ next.found, next.named, next.bounds,
    next.above, cs, U, hcs, connects.backedBy hw⟩

lemma loads (next : NextBlock H archive chain t header block loaded c) :
    List.Forall₂ (fun e ld => ∃ u, c.journal.unminted[e.2]? = some u ∧
      (Locator.mk archive header block).Loads e.1 e.2 u.sources ld) block.txs.zipIdx loaded := by
  obtain ⟨cs, U, -, connects⟩ := next.connects
  exact connects.loads rfl

lemma describes (next : NextBlock H archive chain t header block loaded c) :
    Journal.Describes c.journal.unminted block.txs := by
  obtain ⟨cs, U, -, connects⟩ := next.connects
  obtain ⟨entries, hentries, hdescribes⟩ := connects.describes
  rwa [show c.journal.unminted = entries from hentries]

/-- On a snapshot of the chain below, the block is replayed as it is connected. -/
lemma replays (next : NextBlock H archive chain t header block loaded c) (named : Traceable H)
    (sound : archive.Sound)
    (apart : block.header.hash = header.header.hash → block.header = header.header) {s : Snapshot}
    (hchain : s.chain = chain) (unspent : s.tables.unspent = t.unspent) :
    s.Replays archive header.hash loaded := by
  subst hchain
  obtain ⟨cs, U, -, connects⟩ := next.connects
  obtain ⟨chain', grown, -, genuine, -⟩ :=
    next.built.next named sound (.refl True t) next.below next.known next.above
  obtain ⟨hbelow, real, hnew⟩ := genuine.of_grown grown
  have grounded := (next.built.solid sound hbelow).anchored.grounded next.above hnew block
  rw [← unspent] at connects grounded
  exact Snapshot.replays_of_connects next.found next.named (apart (next.named.trans real))
    next.above hnew next.bounds grounded connects

/-- Whichever run brought it there: the journal of the block on a chain is the one that connecting
it leaves. -/
lemma recorded (next : NextBlock H archive chain t header block loaded c) (named : Traceable H)
    (sound : archive.Sound) (built : Built archive chain' t') (hchain' : ∀ h ∈ chain'.headers, H h)
    (mem : header ∈ chain'.headers) :
    t'.spent[Height.key header.height]? = some c.journal.spent.encode ∧
      t'.unminted[header.hash.bytes]? = some c.journal.unminted.encode := by
  have htip : chain.tip.height.toInt = (chain.headers.length - 1 : Nat) := chain.toInt_height
  have hheight := next.above.1
  obtain ⟨below, block', t₀, cs', loaded', c', U', hbuilt, hfound, hcs', hconnects, hx, hsub,
    hspent, hunminted⟩ := built.recorded (named.genuine hchain') mem (by omega)
  obtain rfl : below = chain := by
    refine named.chain_eq (fun h hh => hchain' h (hsub hh)) next.below
      (hx.2.symm.trans next.above.2) ?_
    have := hx.1
    rw [← Int32.toInt_inj]
    omega
  obtain rfl : t₀ = t := hbuilt.unique next.built sound (named.genuine next.below)
  cases next.found.symm.trans hfound
  obtain ⟨cs, U, hcs, connects⟩ := next.connects
  cases hcs.symm.trans hcs'
  obtain ⟨-, rfl, -⟩ := hconnects.unique connects
  exact ⟨hspent, hunminted⟩

/-- Where the entries are those that connecting the block leaves, so is the journal. -/
lemma eq_of_find? {j : Journal} (next : NextBlock H archive chain t header block loaded c)
    (spent : ∀ v, live.spent[Height.key header.height]? = some v → v = c.journal.spent.encode)
    (unminted : ∀ v, live.unminted[header.hash.bytes]? = some v → v = c.journal.unminted.encode)
    (found : Journal.find? live header = .ok (some j)) : j = c.journal := by
  obtain ⟨hspent, hunminted⟩ := Journal.find?_eq_some.1 found
  obtain ⟨v, hv, -⟩ := Tables.record?_eq_some.1 hspent
  obtain ⟨w, hw, -⟩ := Tables.record?_eq_some.1 hunminted
  rw [spent v hv] at hv
  rw [unminted w hw] at hw
  obtain ⟨cs, U, -, connects⟩ := next.connects
  have hspent' := Disconnecting.spent?_of_entry connects next.bounds hv
  have hunminted' := Disconnecting.unminted?_of_entry next.describes next.bounds hw
  have hfound := Journal.find?_eq_some.2 ⟨hspent', hunminted'⟩
  rw [found, Except.ok.injEq, Option.some.injEq] at hfound
  exact hfound

/-- A block on the chain of a snapshot, with its journal, is replayed as it was connected. -/
lemma replays_recorded (next : NextBlock H archive chain t header block loaded c) {s : Snapshot}
    (distinct : (s.chain.headers.map ChainedHeader.hash).Nodup) (mem : header ∈ s.chain.headers)
    (journal : Journal.find? s.tables header = .ok (some c.journal)) :
    s.Replays archive header.hash loaded :=
  Snapshot.replays_of_journal next.found (Chain.find?_of_mem distinct mem) journal
    (Journal.verify_of_describes next.describes) next.named next.loads

/-- If the tables have no other journal of the block, undoing it yields what connecting it did. -/
lemma undoes (next : NextBlock H archive chain t header block loaded c)
    (only : ∀ tip j, live.tip? = .ok (some tip) → tip.hash = header.hash →
      tip.height = header.height → Journal.find? live header = .ok (some j) → j = c.journal) :
    live.Undoes archive header block loaded := by
  intro now touched n d s s₁ s₂ seen rest counters begun looked finished k
  obtain ⟨_, _, hstart, -⟩ := staged_of_on begun
  obtain ⟨⟨tip, htip, hhash, hheight⟩, -⟩ := Disconnecting.staged_start_eq_ok.1 hstart
  exact Disconnecting.outcomes_of_finish (fun j => only tip j htip hhash hheight) next.loads begun
    looked finished k

/-- Wherever a run leads, as long as it has the blocks: the block is replayed and undone as it is
connected here. -/
lemma agrees_later (next : NextBlock H archive chain t header block loaded c)
    (named : Traceable H)
    (apart : block.header.hash = header.header.hash → block.header = header.header)
    {db : Database} {ledgers : List Ledger} (run : Hub.Worked H ⟨db, archive, ledgers⟩) :
    (∀ s, Snapshot.take db = .ok s → header.Extends s.chain.tip ∨
      header ∈ s.chain.headers ∧ (∃ j, Journal.find? s.tables header = .ok (some j)) →
      s.Replays archive header.hash loaded) ∧
    db.committed.tables.Undoes archive header block loaded := by
  obtain ⟨sound, stored, -⟩ := run.sound named
  have only {chain' : Chain} {t' : Tables} {j : Journal} (hchain' : ∀ h ∈ chain'.headers, H h)
      (built : Built archive chain' t') (agrees : Agrees (Unpruned AnyRules) db.committed.tables t')
      (mem : header ∈ chain'.headers)
      (hfind : Journal.find? db.committed.tables header = .ok (some j)) : j = c.journal := by
    obtain ⟨hspent, hunminted⟩ := next.recorded named sound built hchain' mem
    refine next.eq_of_find? (fun v hv => ?_) (fun v hv => ?_) hfind
    · exact Option.some.inj ((agrees.spent _ _ hv).symm.trans hspent)
    · exact Option.some.inj ((agrees.unminted _ _ hv).symm.trans hunminted)
  constructor
  · intro s hs hplace
    obtain ⟨hheaders, htables⟩ := Snapshot.ofTables_eq_ok.1 hs
    obtain ⟨hchain', t', vetted, agrees⟩ := stored.of_chainHeaders named sound hheaders
    rcases hplace with above | ⟨mem, j, hfind⟩
    · have hchain : s.chain = chain := by
        refine named.chain_eq hchain' next.below (above.2.symm.trans next.above.2) ?_
        have := above.1
        have := next.above.1
        rw [← Int32.toInt_inj]
        omega
      subst hchain
      obtain rfl := vetted.built.unique next.built sound (named.genuine hchain')
      exact next.replays named sound apart rfl (by rw [htables, agrees.unspent])
    · obtain rfl := only hchain' vetted.built agrees mem (htables ▸ hfind)
      exact next.replays_recorded (named.genuine hchain').distinct mem hfind
  · refine next.undoes fun tip j htip hhash hheight hfind => ?_
    rcases stored.filled with hempty | ⟨chain', t', hchain', vetted, agrees⟩
    · rw [hempty] at htip
      exact nomatch htip
    · have hlast := (Stored.chainHeaders_tip? named sound hchain' vetted agrees).2
      cases htip.symm.trans hlast
      have mem := List.getLast_mem chain'.nonempty
      obtain rfl : chain'.tip = header := named.apart _ _ (hchain' _ mem) next.known hhash hheight
      exact only hchain' vetted.built agrees mem hfind

end NextBlock

/-- Connecting the next block of a stored chain, to the end, yields some loaded transactions. The
same come out, in order or against it, when the block is replayed on a snapshot: on the one from
before, and on that of any run, as long as it comes next there or is on the chain with its journal.
The same come out, last first, when the block is undone, be it at once or at the end of any run. The
runs may bring more blocks into the archive. -/
theorem replays_agree (named : Traceable H) {db : Database} {ledgers : List Ledger}
    (run : Hub.Worked H ⟨db, archive, ledgers⟩)
    (stored : db.committed.tables.chainHeaders = .ok chain.headers) (known : H header)
    (found : archive.block? header.hash = some block)
    (apart : block.header.hash = header.header.hash → block.header = header.header)
    {now : Database} {touched : Bool} {n : Nat} {s₁ s₂ s₃ : Session}
    {seen : List (Except LedgerError LoadedTx)} {rest : Progress Connecting Transaction}
    {counters : Counters}
    (begun : (Connecting.start archive chain header block).on
      ⟨now, .writing db.committed.tables touched⟩ = (.ok c, s₁))
    (looked : c.progress.advance Connecting.connect n s₁ = ((seen, rest), s₂))
    (finished : (Connecting.finish rest).on s₂ = (.ok counters, s₃)) :
    ∃ loaded : List LoadedTx,
      (∀ k, Progress.outcomes Connecting.connect k c.progress s₁ = (loaded.map .ok).take k) ∧
      (∃ s, Snapshot.take db = .ok s ∧ s.Replays archive header.hash loaded) ∧
      s₃.view.Undoes archive header block loaded ∧
      ∀ (db' : Database) (later : Archive) (ledgers' : List Ledger),
        Hub.Worked H ⟨db', later, ledgers'⟩ → archive.Within later →
        (∀ s, Snapshot.take db' = .ok s → header.Extends s.chain.tip ∨
          header ∈ s.chain.headers ∧ (∃ j, Journal.find? s.tables header = .ok (some j)) →
          s.Replays later header.hash loaded) ∧
        db'.committed.tables.Undoes later header block loaded := by
  have sound := run.sound named
  obtain ⟨hchain, t, vetted, agrees⟩ := sound.stored.of_chainHeaders named sound.archive stored
  obtain ⟨_, _, hstart, -⟩ := staged_of_on begun
  obtain ⟨above, -, hhash, -⟩ := Connecting.staged_start_eq_ok.1 hstart
  obtain ⟨chain', grown, hchain', genuine, hspent, hunminted⟩ :=
    vetted.built.next named sound.archive agrees hchain known above
  obtain ⟨cs, loaded, c', U, hcs, connects, outcomes, hview⟩ :=
    Connecting.connects_of_finish hspent hunminted begun looked finished
  have hlocator : c'.locator = ⟨archive, header, block⟩ := connects.same.1
  rw [agrees.unspent] at connects
  rw [Tables.readCounters_congr agrees.counters] at hcs
  have next : NextBlock H archive chain t header block loaded c' :=
    ⟨hchain, known, vetted.built, found, hhash, (sound.archive _ _ found).2, above, cs, U, hcs,
      connects⟩
  refine ⟨loaded, outcomes, ⟨⟨chain, db.committed.tables⟩, ?_, ?_⟩, ?_, ?_⟩
  · exact Snapshot.ofTables_eq_ok.2 ⟨stored, rfl⟩
  · exact next.replays named sound.archive apart rfl agrees.unspent
  · refine next.undoes fun tip j _ _ _ hfind =>
      next.eq_of_find? (fun v hv => ?_) (fun v hv => ?_) hfind
    · simpa [hview, Connecting.closed, hlocator, eq_comm] using hv
    · simpa [hview, Connecting.closed, hlocator, eq_comm] using hv
  · intro db' later ledgers' run' hw
    exact (next.within hw).agrees_later named apart run'

/-- What the example takes from evaluation. -/
lemma spending_replayed :
    let s := Ledger.Call.runAll coinArchive coinCalls coinStart
    let s' := Ledger.Call.runAll coinArchive [.add spendingHeader] s
    ((Connecting.whole coinArchive coinChain spendingHeader spendingBlock).on
      ⟨.fresh, .writing s.db.committed.tables false⟩).1 = .ok ⟨2, 2, 4, 4, 4⟩ ∧
    ((Snapshot.take s.db).toOption.bind fun s =>
      (Replay.start coinArchive s spendingHeader.hash .forward).toOption.map fun r =>
        (r.take 4).map fun ld => ld.toOption.map LoadedTx.sources) =
      some [some [], some [coinbase 1], some [passOn (coinbase 1)]] ∧
    ((Snapshot.take s'.db).toOption.map fun s => (s.chain.headers,
      (Journal.find? s.tables spendingHeader).toOption.join.isSome)) =
      some (coinHeaders, true) := by decide +kernel

theorem replays_agree_spending : ∃ db ledgers db' ledgers' s s' c s₁ loaded,
    Hub.Worked (· ∈ coinHeaders) ⟨db, coinArchive, ledgers⟩ ∧
    Hub.Worked (· ∈ coinHeaders) ⟨db', coinArchive, ledgers'⟩ ∧
    (Connecting.start coinArchive coinChain spendingHeader spendingBlock).on
      ⟨.fresh, .writing db.committed.tables false⟩ = (.ok c, s₁) ∧
    (∀ k, Progress.outcomes Connecting.connect k c.progress s₁ = (loaded.map .ok).take k) ∧
    loaded.map LoadedTx.sources = [[], [coinbase 1], [passOn (coinbase 1)]] ∧
    Snapshot.take db = .ok s ∧ s.Replays coinArchive spendingHeader.hash loaded ∧
    Snapshot.take db' = .ok s' ∧ s'.chain.headers = coinHeaders ∧
    s'.Replays coinArchive spendingHeader.hash loaded := by
  have known : ∀ call ∈ [Ledger.Call.add spendingHeader], ∀ h ∈ call.headers, h ∈ coinHeaders := by
    simp [coinHeaders, Ledger.Call.headers]
  have run := (coinRun_reachable.hub_singleton List.mem_cons_self).worked
  have run' := ((coinRun_reachable.calls _ known).hub_singleton List.mem_cons_self).worked
  obtain ⟨applied, replayed, added⟩ := spending_replayed
  obtain ⟨c, s₁, begun, finished⟩ := on_bind_eq_ok.1 (on_eq_of_fst applied)
  have found : coinArchive.block? spendingHeader.hash = some spendingBlock :=
    Archive.block?_add _ spendingBlock
  obtain ⟨loaded, outcomes, ⟨s, htake, hbefore⟩, -, hlater⟩ := replays_agree
    coinHeaders_apart.traceable run coinRun_chainHeaders (by simp [coinHeaders]) found
    (fun _ => rfl) begun (n := 0) rfl finished
  have hsources : loaded.map LoadedTx.sources = [[], [coinbase 1], [passOn (coinbase 1)]] := by
    obtain ⟨r, hstart, hr⟩ := hbefore .forward
    obtain ⟨s', htake', hreplay⟩ := Option.bind_eq_some_iff.1 replayed
    obtain ⟨r', hstart', hyields⟩ := Option.map_eq_some_iff.1 hreplay
    rw [toOption_eq_some] at htake' hstart'
    obtain rfl : s = s' := Except.ok.inj (htake.symm.trans htake')
    obtain rfl : r = r' := Except.ok.inj (hstart.symm.trans hstart')
    rw [hr, ← List.map_take, List.map_map] at hyields
    have hmap : (loaded.take 4).map LoadedTx.sources = [[], [coinbase 1], [passOn (coinbase 1)]] :=
      List.map_injective_iff.2 (Option.some_injective _) (by rw [List.map_map]; exact hyields)
    have hlength := congrArg List.length hmap
    simp only [List.length_map, List.length_take, List.length_cons, List.length_nil] at hlength
    rwa [List.take_of_length_le (by omega)] at hmap
  obtain ⟨s', htake', hadded⟩ := Option.map_eq_some_iff.1 added
  rw [toOption_eq_some] at htake'
  obtain ⟨hheaders, hjournal⟩ := Prod.mk.injEq .. ▸ hadded
  obtain ⟨j, hjournal⟩ := Option.isSome_iff_exists.1 hjournal
  rw [Option.join_eq_some_iff, toOption_eq_some] at hjournal
  have hafter := (hlater _ _ _ run' fun _ _ h => h).1 s' htake' (.inr ⟨?_, j, hjournal⟩)
  · exact ⟨_, _, _, _, s, s', c, s₁, loaded, run, run', begun, outcomes, hsources, htake, hbefore,
      htake', hheaders, hafter⟩
  · simp [hheaders, coinHeaders]

end UtxoLedger

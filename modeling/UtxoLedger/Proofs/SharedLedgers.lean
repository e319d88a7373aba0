import Mathlib.Tactic.Common
import UtxoLedger.Proofs.HistoryIndependence

/-!
# Ledgers that share a store

Any number of ledgers may be open on one database, each with a chain of its own. A block moves only
if the tip of the ledger is the stored tip; where no two headers at one height share a name, equal
tips mean equal chains. So whoever changes the store was up to date with it, and the store stays
that of one chain, every block of which has passed the rules of the ledger that connected it.
-/
namespace UtxoLedger

/-- No two known headers at one height share a name, and no chain of them repeats one. -/
structure ToldApart (H : ChainedHeader → Prop) : Prop where
  apart : ∀ a b, H a → H b → a.hash = b.hash → a.height = b.height → a = b
  distinct : ∀ chain : Chain, (∀ h ∈ chain.headers, H h) →
    (chain.headers.map ChainedHeader.hash).Nodup

/-- Chains of known headers with tips of one name at one height are the same all the way down. -/
lemma ToldApart.chain_eq {H : ChainedHeader → Prop} (told : ToldApart H) {a b : Chain}
    (ha : ∀ h ∈ a.headers, H h) (hb : ∀ h ∈ b.headers, H h) (tip : a.tip.hash = b.tip.hash)
    (height : a.tip.height = b.tip.height) : a = b := by
  have hlength : a.headers.length = b.headers.length := by
    have h₁ : a.tip.height.toInt = (a.headers.length - 1 : Nat) := a.toInt_height
    have h₂ : b.tip.height.toInt = (b.headers.length - 1 : Nat) := b.toInt_height
    have := a.length_pos
    have := b.length_pos
    rw [height] at h₁
    omega
  have apart {i : Nat} (h₁ : i < a.headers.length) (h₂ : i < b.headers.length)
      (hash : a.headers[i].hash = b.headers[i].hash) : a.headers[i] = b.headers[i] := by
    refine told.apart _ _ (ha _ (List.getElem_mem h₁)) (hb _ (List.getElem_mem h₂)) hash ?_
    rw [← Int32.toInt_inj, a.heights i h₁, b.heights i h₂]
  -- From the tip down, each header fixes the name of the one below it.
  have hbelow : ∀ (k i : Nat) (h₁ : i < a.headers.length) (h₂ : i < b.headers.length),
      i + k + 1 = a.headers.length → a.headers[i] = b.headers[i] := by
    intro k
    induction k with
    | zero =>
      intro i h₁ h₂ hi
      refine apart h₁ h₂ ?_
      rw [← a.tip_eq_getElem h₁ hi, ← b.tip_eq_getElem h₂ (hi.trans hlength), tip]
    | succ k ih =>
      intro i h₁ h₂ hi
      have hnext := ih (i + 1) (by omega) (by omega) (by omega)
      refine apart h₁ h₂ ?_
      rw [← a.linked i (by omega), ← b.linked i (by omega), hnext]
  exact Chain.ext_headers (List.ext_getElem hlength fun i h₁ h₂ =>
    hbelow (a.headers.length - 1 - i) i h₁ h₂ (by omega))

/-- The known headers bear the names of their fields, no two at one height share a name, and no
chain of them repeats one. -/
structure Traceable (H : ChainedHeader → Prop) : Prop where
  real : ∀ h, H h → h.hash = h.header.hash
  apart : ∀ a b, H a → H b → a.hash = b.hash → a.height = b.height → a = b
  distinct : ∀ chain : Chain, (∀ h ∈ chain.headers, H h) →
    (chain.headers.map ChainedHeader.hash).Nodup

namespace Traceable

variable {H : ChainedHeader → Prop}

lemma genuine (named : Traceable H) {chain : Chain} (known : ∀ h ∈ chain.headers, H h) :
    chain.Genuine := ⟨fun h hh => named.real h (known h hh), named.distinct chain known⟩

lemma toldApart (named : Traceable H) : ToldApart H := ⟨named.apart, named.distinct⟩

lemma chain_eq (named : Traceable H) {a b : Chain} (ha : ∀ h ∈ a.headers, H h)
    (hb : ∀ h ∈ b.headers, H h) (tip : a.tip.hash = b.tip.hash)
    (height : a.tip.height = b.tip.height) : a = b :=
  named.toldApart.chain_eq ha hb tip height

end Traceable

/-- The known headers bear the names of their fields, and no two of them share a name. -/
structure NamedApart (H : ChainedHeader → Prop) : Prop where
  real : ∀ h, H h → h.hash = h.header.hash
  apart : ∀ a b, H a → H b → a.hash = b.hash → a = b

namespace NamedApart

variable {H : ChainedHeader → Prop}

/-- No chain of known headers repeats a name, since no chain repeats a header. -/
lemma traceable (named : NamedApart H) : Traceable H where
  real := named.real
  apart a b ha hb hash _ := named.apart a b ha hb hash
  distinct chain hchain := List.Nodup.map_on
    (fun a ha b hb => named.apart a b (hchain a ha) (hchain b hb)) chain.nodup_headers

instance : Coe (NamedApart H) (Traceable H) := ⟨traceable⟩

lemma genuine (named : NamedApart H) {chain : Chain} (known : ∀ h ∈ chain.headers, H h) :
    chain.Genuine := named.traceable.genuine known

end NamedApart

/-- A database and an archive, with the ledgers that are open on them. -/
structure Hub where
  db : Database
  archive : Archive
  ledgers : List Ledger

/-- What comes out of any run of any number of ledgers on one store, which is empty at first. Blocks
come into the archive at any time, but the body under a name never changes. Ledgers are opened,
asked and dropped in any order. A call runs alone, as its transactions do: to let others in between
the blocks of a longer call, ask for the blocks one by one. -/
inductive Hub.Reached (H : ChainedHeader → Prop) (P : Rules → Settings → Prop) : Hub → Prop
  | fresh : Reached H P ⟨.fresh, .empty, []⟩
  | stored {db : Database} {archive : Archive} {ledgers : List Ledger}
      (before : Reached H P ⟨db, archive, ledgers⟩) (block : Block) (bounds : block.InBounds)
      (same : ∀ old, archive.block? block.hash = some old → old = block) :
      Reached H P ⟨db, archive.add block, ledgers⟩
  | opened {db : Database} {archive : Archive} {ledgers : List Ledger}
      (before : Reached H P ⟨db, archive, ledgers⟩) {genesis : ChainedHeader} (known : H genesis)
      {rules : Rules} {settings : Settings} (admitted : P rules settings) :
      Reached H P ⟨(Ledger.openOn db rules settings genesis).2, archive,
        (Ledger.openOn db rules settings genesis).1.toOption.toList ++ ledgers⟩
  | dropped {db : Database} {archive : Archive} {others more : List Ledger} {l : Ledger}
      (before : Reached H P ⟨db, archive, others ++ l :: more⟩) :
      Reached H P ⟨l.closeOn db, archive, others ++ more⟩
  | called {db : Database} {archive : Archive} {others more : List Ledger} {l : Ledger}
      (before : Reached H P ⟨db, archive, others ++ l :: more⟩) {call : Ledger.Call}
      (known : ∀ h ∈ call.headers, H h) :
      Reached H P ⟨((call.run archive).on ⟨l, db⟩).2.db, archive,
        others ++ ((call.run archive).on ⟨l, db⟩).2.ledger :: more⟩

/-- The tables of a chain whose blocks have passed the rules: each was found in order by rules that
`P` admits, with the sources that it was connected with. -/
inductive Vetted (P : Rules → Settings → Prop) (archive : Archive) : Chain → Tables → Prop
  | genesis {chain : Chain} {header : ChainedHeader} (sole : chain.headers = [header]) :
      Vetted P archive chain (Ledger.seedTables header)
  | above {chain below : Chain} {header : ChainedHeader} {block : Block} {t : Tables}
      {cs : Counters} {loaded : List LoadedTx} {c : Connecting} {U : Table} {rules : Rules}
      {settings : Settings} (vetted : Vetted P archive below t)
      (found : archive.block? header.hash = some block) (counters : t.readCounters = .ok cs)
      (connects : Connecting.ConnectsAll (.taken archive below header block cs) block.txs t.unspent
        loaded c U)
      (admitted : P rules settings) (passed : rules.checkBlock header block loaded = .ok ())
      (grown : chain.headers = below.headers ++ [header]) :
      Vetted P archive chain (c.closed { t with unspent := U })

lemma Vetted.built {P : Rules → Settings → Prop} {archive : Archive} {chain : Chain} {t : Tables}
    (h : Vetted P archive chain t) : Built archive chain t := by
  induction h with
  | genesis sole => exact .genesis sole
  | above _ found counters connects _ _ grown ih => exact .above ih found counters connects grown

lemma Vetted.within {P : Rules → Settings → Prop} {archive a : Archive} {chain : Chain}
    {t : Tables} (h : Vetted P archive chain t) (hw : archive.Within a) : Vetted P a chain t := by
  induction h with
  | genesis sole => exact .genesis sole
  | @above chain below header block t cs loaded c U rules settings _ found counters connects
      admitted passed grown ih =>
    have hconnects : Connecting.ConnectsAll (.taken a below header block cs) block.txs t.unspent
        loaded (c.backedBy a) U := connects.backedBy hw
    have h := Vetted.above ih (hw _ _ found) counters hconnects admitted passed grown
    exact h

/-- A chain has its tables, and no others. -/
lemma Built.unique {archive : Archive} {chain : Chain} {t t' : Tables} (h : Built archive chain t)
    (h' : Built archive chain t') (sound : archive.Sound) (genuine : chain.Genuine) : t = t' := by
  obtain ⟨db, rfl, -, hon⟩ := h.on_rebuild sound genuine
  obtain ⟨db', rfl, -, hon'⟩ := h'.on_rebuild sound genuine
  cases hon.symm.trans hon'
  rfl

/-- The chain below one that passed the rules has passed them too. -/
lemma Vetted.of_grown {P : Rules → Settings → Prop} {archive : Archive} {chain below : Chain}
    {header : ChainedHeader} {t t₀ : Tables} (h : Vetted P archive chain t)
    (built : Built archive below t₀) (sound : archive.Sound) (genuine : below.Genuine)
    (grown : chain.headers = below.headers ++ [header]) : Vetted P archive below t₀ := by
  cases h with
  | genesis sole =>
    have := below.length_pos
    have hlength := congrArg List.length (sole.symm.trans grown)
    simp only [List.length_append, List.length_singleton] at hlength
    omega
  | above vetted _ _ _ _ _ grown' =>
    obtain ⟨hheaders, -⟩ := List.append_inj' (grown'.symm.trans grown) rfl
    obtain rfl := Chain.ext_headers hheaders
    exact vetted.built.unique built sound genuine ▸ vetted

/-- Undoing its tip leaves the tables of the chain below, which has passed the rules too. -/
lemma Vetted.undo {P : Rules → Settings → Prop} {archive : Archive} {chain : Chain} {full : Prop}
    {live live' t : Tables} {block : Block} {cs : Counters} (vetted : Vetted P archive chain t)
    (sound : archive.Sound) (genuine : chain.Genuine) (agrees : Agrees full live t)
    (above : chain.tip.height ≠ 0) (found : archive.block? chain.tip.hash = some block)
    (staged : (Disconnecting.whole archive chain.tip block).staged live = .ok (cs, live')) :
    ∃ below t₀, chain.headers = below.headers ++ [chain.tip] ∧ Vetted P archive below t₀ ∧
      Agrees full live' t₀ := by
  obtain ⟨below, block', t₀, built₀, grown, found', hsucceeds, -⟩ :=
    vetted.built.undo sound genuine agrees above
  cases found.symm.trans found'
  obtain ⟨-, agrees₀, -⟩ := hsucceeds cs live' staged
  exact ⟨below, t₀, grown, vetted.of_grown built₀ sound (genuine.of_grown grown).1 grown, agrees₀⟩

/-- A database between the calls: empty, or the store of a chain that passed the rules. -/
structure Stored (H : ChainedHeader → Prop) (P : Rules → Settings → Prop) (archive : Archive)
    (db : Database) : Prop where
  free : db.writerOpen = false
  filled : db.committed.tables = .empty ∨ ∃ chain t, (∀ h ∈ chain.headers, H h) ∧
    Vetted P archive chain t ∧ Agrees (Unpruned P) db.committed.tables t

/-- A ledger between the calls. Its chain need not be the stored one. -/
structure Serves (H : ChainedHeader → Prop) (P : Rules → Settings → Prop) (l : Ledger) : Prop where
  idle : l.cursor = .idle
  known : ∀ h ∈ l.chain.headers, H h
  admitted : P l.rules l.settings

namespace Stored

variable {H : ChainedHeader → Prop} {P : Rules → Settings → Prop} {archive : Archive}
  {db : Database} {chain : Chain}

lemma within {a : Archive} (hs : Stored H P archive db) (hw : archive.Within a) :
    Stored H P a db := by
  refine ⟨hs.free, ?_⟩
  rcases hs.filled with hempty | ⟨chain, t, known, vetted, agrees⟩
  · exact .inl hempty
  · exact .inr ⟨chain, t, known, vetted.within hw, agrees⟩

/-- The headers of a stored chain, and its tip, are what the store holds. -/
lemma chainHeaders_tip? (named : Traceable H) (sound : archive.Sound) {t : Tables}
    (known : ∀ h ∈ chain.headers, H h) (vetted : Vetted P archive chain t)
    (agrees : Agrees (Unpruned P) db.committed.tables t) :
    db.committed.tables.chainHeaders = .ok chain.headers ∧
      db.committed.tables.tip? = .ok (some chain.tip) := by
  have genuine := named.genuine known
  have solid := vetted.built.solid sound genuine
  have hheaders := solid.chainHeaders genuine
  have htip := solid.tip? genuine
  simp only [Tables.chainHeaders, Tables.records, Tables.get, Tables.tip?, agrees.headers]
    at hheaders htip ⊢
  exact ⟨hheaders, htip⟩

/-- A chain that ends in the stored tip is the stored chain. -/
lemma of_tip (named : Traceable H) (sound : archive.Sound) (hs : Stored H P archive db)
    (known : ∀ h ∈ chain.headers, H h)
    (tip : ∃ tip, db.committed.tables.tip? = .ok (some tip) ∧ tip.hash = chain.tip.hash ∧
      tip.height = chain.tip.height) :
    ∃ t, Vetted P archive chain t ∧ Agrees (Unpruned P) db.committed.tables t := by
  obtain ⟨tip, htip, hhash, hheight⟩ := tip
  rcases hs.filled with hempty | ⟨stored, t, hstored, vetted, agrees⟩
  · rw [hempty] at htip
    exact nomatch htip
  · have hlast := (chainHeaders_tip? named sound hstored vetted agrees).2
    cases htip.symm.trans hlast
    obtain rfl := named.chain_eq hstored known hhash hheight
    exact ⟨t, vetted, agrees⟩

/-- A chain whose headers are the stored ones is the stored chain. -/
lemma of_chainHeaders (named : Traceable H) (sound : archive.Sound) (hs : Stored H P archive db)
    (headers : db.committed.tables.chainHeaders = .ok chain.headers) :
    (∀ h ∈ chain.headers, H h) ∧
      ∃ t, Vetted P archive chain t ∧ Agrees (Unpruned P) db.committed.tables t := by
  rcases hs.filled with hempty | ⟨stored, t, hstored, vetted, agrees⟩
  · rw [hempty] at headers
    exact absurd (Except.ok.inj headers).symm chain.nonempty
  · have hlist := (chainHeaders_tip? named sound hstored vetted agrees).1
    obtain rfl := Chain.ext_headers (Except.ok.inj (hlist.symm.trans headers))
    exact ⟨hstored, t, vetted, agrees⟩

/-- Opening a ledger seeds an empty store, and leaves a filled one as it is. -/
lemma opened (named : Traceable H) (sound : archive.Sound) (hs : Stored H P archive db)
    {genesis : ChainedHeader} (known : H genesis) {rules : Rules} {settings : Settings}
    (admitted : P rules settings) :
    Stored H P archive (Ledger.openOn db rules settings genesis).2 ∧
      ∀ l, (Ledger.openOn db rules settings genesis).1 = .ok l → Serves H P l := by
  have hopened := Ledger.opening db rules settings genesis
  generalize Ledger.openOn db rules settings genesis = r at hopened ⊢
  cases hopened with
  | @seeded t chain n height empty free staged headers =>
    have hchain : ∀ h ∈ chain.headers, H h := by
      intro h hh
      rw [headers, List.mem_singleton] at hh
      rw [hh]
      exact known
    refine ⟨⟨free, .inr ?_⟩, fun l hl => by cases hl; exact ⟨rfl, hchain, admitted⟩⟩
    rcases hs.filled with hempty | ⟨stored, t₀, hstored, vetted, agrees⟩
    · rw [hempty] at staged
      cases (Ledger.staged_seeding genesis).symm.trans staged
      exact ⟨chain, _, hchain, .genesis headers, .refl _ _⟩
    · have hlist := (chainHeaders_tip? named sound hstored vetted agrees).1
      exact absurd (Except.ok.inj (hlist.symm.trans empty)) stored.nonempty
  | @loaded chain height stored same =>
    refine ⟨hs, fun l hl => ?_⟩
    cases hl
    exact ⟨rfl, (hs.of_chainHeaders named sound stored).1, admitted⟩
  | refused => exact ⟨hs, fun l hl => nomatch hl⟩

end Stored

/-- Only a ledger whose tip is the stored one connects a block. -/
lemma Ledger.Connected.tip? {l : Ledger} {archive : Archive} {header : ChainedHeader}
    {block : Block} {t t' : Tables} (h : l.Connected archive header block t t') :
    ∃ tip, t.tip? = .ok (some tip) ∧ tip.hash = l.chain.tip.hash ∧
      tip.height = l.chain.tip.height := by
  obtain ⟨start, -⟩ := h
  exact (Connecting.staged_start_eq_ok.1 start).2.1

/-- Only the stored tip can be undone. -/
lemma Disconnecting.tip?_of_staged_whole {archive : Archive} {header : ChainedHeader}
    {block : Block} {cs : Counters} {t t' : Tables}
    (h : (whole archive header block).staged t = .ok (cs, t')) :
    ∃ tip, t.tip? = .ok (some tip) ∧ tip.hash = header.hash ∧ tip.height = header.height := by
  obtain ⟨d, u, hstart, -⟩ := StoreM.staged_bind_eq_ok.1 h
  exact (staged_start_eq_ok.1 hstart).1

/-- A ledger at work on a shared store, between two steps. -/
structure Shares (H : ChainedHeader → Prop) (P : Rules → Settings → Prop) (archive : Archive)
    (s : LedgerSession) : Prop where
  serves : Serves H P s.ledger
  stored : Stored H P archive s.db

/-- The store is that of the ledger's own chain. -/
def UpToDate (P : Rules → Settings → Prop) (archive : Archive) (s : LedgerSession) : Prop :=
  ∃ t, Vetted P archive s.ledger.chain t ∧ Agrees (Unpruned P) s.db.committed.tables t

namespace Shares

variable {H : ChainedHeader → Prop} {P : Rules → Settings → Prop} {archive : Archive}
  {s s' : LedgerSession} {header : ChainedHeader}

/-- Who connects a block was up to date, and is so again. -/
lemma add (named : Traceable H) (sound : archive.Sound) (hs : Shares H P archive s)
    (hH : H header) (hon : (Ledger.add archive header).on s = (.ok (), s')) :
    UpToDate P archive s ∧ Shares H P archive s' ∧ UpToDate P archive s' := by
  have hadded := Ledger.added hs.serves.idle archive header
  rw [hon] at hadded
  cases hadded with
  | @connected block live' chain s' found free staged grown moved =>
    have grown := (Chain.add_eq_ok.1 grown).2
    obtain ⟨t, vetted, agrees⟩ := hs.stored.of_tip named sound hs.serves.known
      (Ledger.connected_of_staged staged).tip?
    have known := (Chain.forall_mem_iff_of_grown grown).2 ⟨hs.serves.known, hH⟩
    have genuine := (named.genuine known).genuineBelow
    obtain ⟨cs, loaded, c, U, hcs, connects, passed, agrees'⟩ := vetted.built.connect sound
      genuine agrees (fun hfull => hfull _ _ hs.serves.admitted) grown staged
    have vetted' := Vetted.above vetted found hcs connects hs.serves.admitted passed grown
    rw [← moved.tables] at agrees'
    refine ⟨⟨t, vetted, agrees⟩, ⟨⟨moved.idle, ?_, ?_⟩, moved.free,
      .inr ⟨chain, _, known, vetted', agrees'⟩⟩, _, ?_, agrees'⟩
    · rw [moved.chain]
      exact known
    · rw [moved.rules, moved.settings]
      exact hs.serves.admitted
    · rw [moved.chain]
      exact vetted'

/-- Who takes its tip back was up to date, and is so again. -/
lemma removeTip (named : Traceable H) (sound : archive.Sound) (hs : Shares H P archive s)
    (hon : (Ledger.removeTip archive).on s = (.ok header, s')) :
    UpToDate P archive s ∧ Shares H P archive s' ∧ UpToDate P archive s' := by
  have hremoved := Ledger.removed hs.serves.idle archive
  rw [hon] at hremoved
  cases hremoved with
  | @disconnected block live' chain s' above found free staged shrunk moved =>
    obtain ⟨cs, hwhole⟩ := Ledger.staged_disconnectBlock.1 staged
    obtain ⟨t, vetted, agrees⟩ := hs.stored.of_tip named sound hs.serves.known
      (Disconnecting.tip?_of_staged_whole hwhole)
    obtain ⟨below, t₀, grown, vetted₀, agrees₀⟩ :=
      vetted.undo sound (named.genuine hs.serves.known) agrees above found hwhole
    obtain rfl := Chain.eq_of_removed above shrunk grown
    obtain ⟨known, -⟩ := (Chain.forall_mem_iff_of_grown grown).1 hs.serves.known
    rw [← moved.tables] at agrees₀
    refine ⟨⟨t, vetted, agrees⟩, ⟨⟨moved.idle, ?_, ?_⟩, moved.free,
      .inr ⟨chain, t₀, known, vetted₀, agrees₀⟩⟩, t₀, ?_, agrees₀⟩
    · rw [moved.chain]
      exact known
    · rw [moved.rules, moved.settings]
      exact hs.serves.admitted
    · rw [moved.chain]
      exact vetted₀

/-- Every call leaves the store that of a chain, however far behind its ledger was. -/
lemma kept (named : Traceable H) (sound : archive.Sound) :
    Ledger.Kept archive H (Shares H P archive) where
  idle hs := hs.serves.idle
  add hH hs hon := (hs.add named sound hH hon).2.1
  removeTip hs hon := (hs.removeTip named sound hon).2.1
  flush hs := ⟨⟨hs.serves.idle, hs.serves.known, hs.serves.admitted⟩, hs.stored.free,
    hs.stored.filled⟩

end Shares

/-- What a run keeps of a hub. -/
structure Hub.Sound (H : ChainedHeader → Prop) (P : Rules → Settings → Prop) (n : Hub) : Prop where
  archive : n.archive.Sound
  stored : Stored H P n.archive n.db
  serves : ∀ l ∈ n.ledgers, Serves H P l

namespace Hub.Sound

variable {H : ChainedHeader → Prop} {P : Rules → Settings → Prop} {db : Database}
  {archive : Archive} {others more ledgers : List Ledger} {l : Ledger}

lemma fresh : Hub.Sound H P ⟨.fresh, .empty, []⟩ := by
  refine ⟨fun hash block hfound => ?_, ⟨rfl, .inl rfl⟩, by simp⟩
  simp [Archive.block?, Archive.empty] at hfound

lemma add {block : Block} (hs : Hub.Sound H P ⟨db, archive, ledgers⟩) (bounds : block.InBounds)
    (same : ∀ old, archive.block? block.hash = some old → old = block) :
    Hub.Sound H P ⟨db, archive.add block, ledgers⟩ :=
  ⟨hs.archive.add bounds, hs.stored.within (Archive.within_add same), hs.serves⟩

lemma opened (named : Traceable H) (hs : Hub.Sound H P ⟨db, archive, ledgers⟩)
    {genesis : ChainedHeader} (known : H genesis) {rules : Rules} {settings : Settings}
    (admitted : P rules settings) : Hub.Sound H P
      ⟨(Ledger.openOn db rules settings genesis).2, archive,
        (Ledger.openOn db rules settings genesis).1.toOption.toList ++ ledgers⟩ := by
  obtain ⟨hstored, hserves⟩ := hs.stored.opened named hs.archive known admitted
  refine ⟨hs.archive, hstored, fun l hl => ?_⟩
  rcases List.mem_append.1 hl with hl | hl
  · refine hserves l ?_
    cases h : (Ledger.openOn db rules settings genesis).1 with
    | ok l' => simp_all [Except.toOption]
    | error e => simp_all [Except.toOption]
  · exact hs.serves l hl

lemma dropped (hs : Hub.Sound H P ⟨db, archive, others ++ l :: more⟩) :
    Hub.Sound H P ⟨l.closeOn db, archive, others ++ more⟩ := by
  rw [Ledger.closeOn_of_idle (hs.serves l (by simp)).idle]
  refine ⟨hs.archive, hs.stored, fun l' hl => hs.serves l' ?_⟩
  simp only [List.mem_append, List.mem_cons] at hl ⊢
  exact hl.imp_right .inr

lemma called (named : Traceable H) (hs : Hub.Sound H P ⟨db, archive, others ++ l :: more⟩)
    {call : Ledger.Call} (known : ∀ h ∈ call.headers, H h) : Hub.Sound H P
      ⟨((call.run archive).on ⟨l, db⟩).2.db, archive,
        others ++ ((call.run archive).on ⟨l, db⟩).2.ledger :: more⟩ := by
  have hshares := (Shares.kept named hs.archive).after_call known
    (s := ⟨l, db⟩) ⟨hs.serves l (by simp), hs.stored⟩
  refine ⟨hs.archive, hshares.stored, fun l' hl => ?_⟩
  simp only [List.mem_append, List.mem_cons] at hl
  rcases hl with hl | rfl | hl
  · exact hs.serves l' (by simp [hl])
  · exact hshares.serves
  · exact hs.serves l' (by simp [hl])

end Hub.Sound

/-- Every step of a run keeps the hub sound. -/
theorem Hub.Reached.sound {H : ChainedHeader → Prop} {P : Rules → Settings → Prop}
    (named : Traceable H) {n : Hub} (h : Hub.Reached H P n) : n.Sound H P := by
  induction h with
  | fresh => exact .fresh
  | stored _ block bounds same ih => exact ih.add bounds same
  | opened _ known admitted ih => exact ih.opened named known admitted
  | dropped _ ih => exact ih.dropped
  | called _ known ih => exact ih.called named known

/-- A node is a hub with at most one ledger. -/
lemma Reachable.hub {genesis : ChainedHeader} {H : ChainedHeader → Prop}
    {P : Rules → Settings → Prop} (known : H genesis) {n : Node} (h : Reachable genesis H P n) :
    Hub.Reached H P ⟨n.db, n.archive, n.ledger?.toList⟩ := by
  induction h with
  | fresh => exact .fresh
  | stored _ block bounds same ih => exact ih.stored block bounds same
  | opened _ admitted ih => simpa using ih.opened known admitted
  | @dropped db archive l _ ih => exact @Hub.Reached.dropped H P db archive [] [] l ih
  | @called db archive l _ call hcall ih =>
    exact @Hub.Reached.called H P db archive [] [] l ih call hcall

lemma Reachable.hub_singleton {genesis : ChainedHeader} {H : ChainedHeader → Prop}
    {P : Rules → Settings → Prop} (known : H genesis) {db : Database} {archive : Archive}
    {l : Ledger} (run : Reachable genesis H P ⟨db, archive, some l⟩) :
    Hub.Reached H P ⟨db, archive, [l]⟩ := run.hub known

lemma coinHeaders_apart : NamedApart (· ∈ coinHeaders) where
  real := coinHeaders_genuine.real
  apart a b ha hb := coinRun_evaluated.2.1 a ha b hb

end UtxoLedger

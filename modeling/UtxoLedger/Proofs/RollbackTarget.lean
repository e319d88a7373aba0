import Mathlib.Tactic.Common
import UtxoLedger.Proofs.OtherBodies
import UtxoLedger.Proofs.Trails

/-!
# Where a rollback leads

The bodies of connected blocks may be exchanged, cut short or lost in the archive while the chain
moves, and once more before a rollback. Still a rollback is refused or leads back to what was
committed just before the tip block came in. The store itself is the witness: it is that of the
bodies which were connected, block by block, and the trail of the run passes through all of its
stages.
-/
namespace UtxoLedger

variable {H : ChainedHeader → Prop} {T : Transaction → Prop} {archive stock : Archive}
  {chain below : Chain} {header : ChainedHeader} {t live t₀ : Tables}

namespace Hub

/-- The header is stored under its height. -/
def stores (n : Hub) (header : ChainedHeader) : Bool :=
  n.db.committed.tables.headers[Height.key header.height]? = some header.encode

/-- What any run leaves on its way, newest first, where the archive is exchanged at any time for any
other whose blocks can be counted and whose transactions are among `T`. Of a call there are all
sessions that it goes through. -/
inductive LooseTrail (H : ChainedHeader → Prop) (T : Transaction → Prop) : List Hub → Prop
  | fresh : LooseTrail H T [⟨.fresh, .empty, []⟩]
  | exchanged {db : Database} {archive : Archive} {ledgers : List Ledger} {past : List Hub}
      (before : LooseTrail H T (⟨db, archive, ledgers⟩ :: past)) {other : Archive}
      (bounds : ∀ hash block, other.block? hash = some block → block.InBounds)
      (known : other.Knows T) :
      LooseTrail H T (⟨db, other, ledgers⟩ :: ⟨db, archive, ledgers⟩ :: past)
  | opened {db : Database} {archive : Archive} {ledgers : List Ledger} {past : List Hub}
      (before : LooseTrail H T (⟨db, archive, ledgers⟩ :: past)) {genesis : ChainedHeader}
      (known : H genesis) (rules : Rules) (settings : Settings) :
      LooseTrail H T (⟨(Ledger.openOn db rules settings genesis).2, archive,
        (Ledger.openOn db rules settings genesis).1.toOption.toList ++ ledgers⟩ ::
          ⟨db, archive, ledgers⟩ :: past)
  | dropped {db : Database} {archive : Archive} {others more : List Ledger} {l : Ledger}
      {past : List Hub} (before : LooseTrail H T (⟨db, archive, others ++ l :: more⟩ :: past)) :
      LooseTrail H T (⟨l.closeOn db, archive, others ++ more⟩ ::
        ⟨db, archive, others ++ l :: more⟩ :: past)
  | called {archive : Archive} {others more : List Ledger} {s : LedgerSession} {past : List Hub}
      (before : LooseTrail H T (ofSession archive others more s :: past)) {call : Ledger.Call}
      (known : ∀ h ∈ call.headers, H h) :
      LooseTrail H T ((call.stops archive s).reverse.map (ofSession archive others more) ++
        ofSession archive others more s :: past)

end Hub

/-- The tables of a chain with the bodies that were connected, which `stock` has and no others. From
each block above genesis the hubs go back to its base: the newest one without the header agrees with
the tables that the block was connected to. -/
inductive Layered (T : Transaction → Prop) (hubs : List Hub) : Archive → Chain → Tables → Prop
  | genesis {chain : Chain} {header : ChainedHeader} (sole : chain.headers = [header]) :
      Layered T hubs .empty chain (Ledger.seedTables header)
  | above {stock : Archive} {chain below : Chain} {header : ChainedHeader} {block : Block}
      {t : Tables} {cs : Counters} {loaded : List LoadedTx} {c : Connecting} {U : Table}
      (layered : Layered T hubs stock below t)
      (base : ∃ m, hubs.find? (fun m => !m.stores header) = some m ∧
        Agrees False m.db.committed.tables t)
      (new : ∀ h ∈ below.headers, h.hash ≠ header.hash) (name : block.hash = header.hash)
      (bounds : block.InBounds) (known : ∀ tx ∈ block.txs, T tx)
      (counters : t.readCounters = .ok cs)
      (connects : Connecting.ConnectsAll (.taken (stock.add block) below header block cs) block.txs
        t.unspent loaded c U)
      (grown : chain.headers = below.headers ++ [header]) :
      Layered T hubs (stock.add block) chain (c.closed { t with unspent := U })

namespace Layered

variable {hubs : List Hub}

/-- The stock has bodies of the chain only, sound and of known transactions. -/
lemma stocked (h : Layered T hubs stock chain t) {hash : Hash} {block : Block}
    (found : stock.block? hash = some block) : block.hash = hash ∧ block.InBounds ∧
      (∀ tx ∈ block.txs, T tx) ∧ ∃ header ∈ chain.headers, header.hash = hash := by
  induction h with
  | genesis => simp [Archive.block?, Archive.empty] at found
  | @above stock chain below header top t cs loaded c U _ _ _ name bounds known _ _ grown ih =>
    rcases Archive.eq_or_block?_of_add found with ⟨hhash, rfl⟩ | hold
    · exact ⟨hhash, bounds, known, header, by simp [grown], name.symm.trans hhash⟩
    · obtain ⟨hhash, hbounds, hknown, h, mem, hname⟩ := ih hold
      exact ⟨hhash, hbounds, hknown, h, by simp [grown, mem], hname⟩

lemma sound (h : Layered T hubs stock chain t) : stock.Sound := fun _ _ found =>
  ⟨(h.stocked found).1, (h.stocked found).2.1⟩

lemma knows (h : Layered T hubs stock chain t) : stock.Knows T := fun _ _ found =>
  (h.stocked found).2.2.1

/-- A body under a new name leaves the stock as it is. -/
lemma within_add (h : Layered T hubs stock chain t) {block : Block}
    (new : ∀ header ∈ chain.headers, header.hash ≠ block.hash) : stock.Within (stock.add block) :=
  Archive.within_add fun _ found =>
    have ⟨_, _, _, header, mem, hname⟩ := h.stocked found
    absurd hname (new header mem)

lemma built (h : Layered T hubs stock chain t) : Built stock chain t := by
  induction h with
  | genesis sole => exact .genesis sole
  | above layered _ new name _ _ counters connects grown ih =>
    have hw := layered.within_add (by rwa [name])
    exact .above (ih.within hw) (name ▸ Archive.block?_add _ _) counters connects grown

/-- A later hub that stores all headers of the chain changes nothing. -/
lemma later (h : Layered T hubs stock chain t) {n : Hub}
    (stores : ∀ header ∈ chain.headers, n.stores header = true) :
    Layered T (n :: hubs) stock chain t := by
  induction h with
  | genesis sole => exact .genesis sole
  | above _ base new name bounds known counters connects grown ih =>
    obtain ⟨hbelow, htop⟩ := (Chain.forall_mem_iff_of_grown grown).1 stores
    obtain ⟨m, hfind, agrees⟩ := base
    refine .above (ih hbelow) ⟨m, ?_, agrees⟩ new name bounds known counters connects grown
    rw [List.find?_cons_of_neg (by simp [htop]), hfind]

/-- The layers below the tip, and the hub that it was committed in. -/
lemma of_grown (h : Layered T hubs stock chain t) (built : Built stock below t₀)
    (genuine : below.Genuine) (grown : chain.headers = below.headers ++ [header]) :
    (∃ stock₀, Layered T hubs stock₀ below t₀) ∧
      ∃ m, hubs.find? (fun m => !m.stores header) = some m ∧
        Agrees False m.db.committed.tables t₀ := by
  have sound := h.sound
  cases h with
  | genesis sole =>
    have := below.length_pos
    have hlength := congrArg List.length (sole.symm.trans grown)
    simp only [List.length_append, List.length_singleton] at hlength
    omega
  | @above stock₀ _ _ _ _ _ _ _ _ _ layered base new name _ _ _ _ grown' =>
    obtain ⟨hheaders, hheader⟩ := List.append_inj' (grown'.symm.trans grown) rfl
    cases hheader
    obtain rfl := Chain.ext_headers hheaders
    have built' := layered.built.within (layered.within_add (by rwa [name]))
    obtain rfl := built'.unique built sound genuine
    exact ⟨⟨stock₀, layered⟩, base⟩

end Layered

/-- The headers of a chain are stored in tables that agree with its own. -/
lemma Agrees.stores {full : Prop} {n : Hub} (agrees : Agrees full n.db.committed.tables t)
    (built : Built stock chain t) (sound : stock.Sound) (genuine : chain.Genuine) :
    ∀ header ∈ chain.headers, n.stores header = true := by
  intro header mem
  rw [Hub.stores, decide_eq_true_eq, agrees.headers,
    ← Std.ExtTreeMap.mem_toList_iff_getElem?_eq_some, (built.solid sound genuine).headers]
  exact List.mem_map.2 ⟨header, mem, rfl⟩

/-- A block that is connected from whatever archive is the next layer. -/
theorem Layered.connect {n n' : Hub} {past : List Hub} {l : Ledger} {block : Block}
    (layered : Layered T (n :: past) stock l.chain t) (genuine : chain.Genuine)
    (agrees : Agrees False n.db.committed.tables t)
    (apart : ∀ a b, T a → T b → a.hash = b.hash → a = b) (harchive : archive.Knows T)
    (bounds : block.InBounds) (found : archive.block? header.hash = some block)
    (grown : chain.headers = l.chain.headers ++ [header])
    (staged : (l.connectBlock archive header block).staged n.db.committed.tables = .ok ((), live))
    (committed : n'.db.committed.tables = live) :
    ∃ stock' t', Layered T (n' :: n :: past) stock' chain t' ∧
      Agrees False n'.db.committed.tables t' := by
  obtain ⟨hbelow, -, hnew⟩ := genuine.of_grown grown
  have hx := Chain.extends_of_grown grown
  have name : block.hash = header.hash := by
    obtain ⟨start, -⟩ := Ledger.connected_of_staged staged
    exact (Connecting.staged_start_eq_ok.1 start).2.2.1
  have known := harchive _ _ found
  obtain ⟨cs, loaded, c, U, counters, connects, -, agrees'⟩ := layered.built.connect layered.sound
    genuine.genuineBelow agrees False.elim grown staged
  rw [← committed] at agrees'
  -- The body goes into the stock, where the block can be connected just the same.
  have hw : stock.Within (stock.add block) := layered.within_add (by rwa [name])
  have sound := layered.sound.add bounds
  have hknows := layered.knows.add known
  have built := layered.built.within hw
  obtain ⟨-, -, -, -, keyed, -⟩ := built.exact sound hbelow
  have backed : Connecting.BackedUp (stock.add block) (.taken archive l.chain header block cs)
      t.unspent :=
    ⟨keyed, (built.solid sound hbelow).anchored.grounded hx hnew block,
      Locator.twin_of_knows apart rfl rfl known harchive hknows⟩
  have connects' := backed.connectAll connects rfl bounds.txs.le fun tx htx =>
    (bounds.of_mem htx).2.trans (by decide)
  have built' : Built (stock.add block) chain (c.closed { t with unspent := U }) :=
    .above (c := c.backedBy (stock.add block)) built (name ▸ Archive.block?_add _ _) counters
      connects' grown
  have stores := agrees'.stores built' sound genuine
  obtain ⟨hstores, htop⟩ := (Chain.forall_mem_iff_of_grown grown).1 stores
  -- The hub before had no header at this height.
  have hbase : n.stores header = false := by
    obtain ⟨hheaders, -⟩ := (layered.built.solid layered.sound hbelow).free_above hx hnew
    rw [Hub.stores, agrees.headers, hheaders]
    rfl
  refine ⟨stock.add block, c.closed { t with unspent := U }, ?_, agrees'⟩
  refine .above (c := c.backedBy (stock.add block)) (layered.later hstores) ⟨n, ?_, agrees⟩ hnew
    name bounds known counters connects' grown
  rw [List.find?_cons_of_neg (by simp [htop]), List.find?_cons_of_pos (by simp [hbase])]

/-- Undoing the tip block from whatever archive leads to the layer below, and to what was committed
before the block came in. -/
theorem Layered.undo {n : Hub} {past : List Hub} {body : Block} {cs : Counters}
    (layered : Layered T (n :: past) stock chain t) (genuine : chain.Genuine)
    (agrees : Agrees False n.db.committed.tables t) (above : chain.tip.height ≠ 0)
    (apart : ∀ a b, T a → T b → a.hash = b.hash → a = b) (harchive : archive.Knows T)
    (found : archive.block? chain.tip.hash = some body)
    (staged : (Disconnecting.whole archive chain.tip body).staged n.db.committed.tables =
      .ok (cs, live)) :
    ∃ below stock₀ t₀, chain.headers = below.headers ++ [chain.tip] ∧
      Layered T (n :: past) stock₀ below t₀ ∧ Agrees False live t₀ ∧
      ∃ m, past.find? (fun m => !m.stores chain.tip) = some m ∧
        Agrees False m.db.committed.tables t₀ := by
  obtain ⟨below, t₀, built₀, grown, agrees₀⟩ := layered.built.undo_exchanged layered.sound genuine
    agrees above apart layered.knows harchive found staged
  obtain ⟨⟨stock₀, layered₀⟩, m, hfind, hbase⟩ :=
    layered.of_grown built₀ (genuine.of_grown grown).1 grown
  have stores := agrees.stores layered.built layered.sound genuine chain.tip (List.getLast_mem _)
  rw [List.find?_cons_of_neg (by simp [stores])] at hfind
  exact ⟨below, stock₀, t₀, grown, layered₀, agrees₀, m, hfind, hbase⟩

namespace Hub

/-- What a run keeps of its newest hub, whatever became of the archive: the store is empty, or that
of a chain whose layers are all on the trail. -/
structure Kept (H : ChainedHeader → Prop) (T : Transaction → Prop) (n : Hub) (past : List Hub) :
    Prop where
  bounds : ∀ hash block, n.archive.block? hash = some block → block.InBounds
  known : n.archive.Knows T
  serves : ∀ l ∈ n.ledgers, Serves H (fun _ _ => True) l
  free : n.db.writerOpen = false
  filled : n.db.committed.tables = .empty ∨ ∃ stock chain t, (∀ h ∈ chain.headers, H h) ∧
    Layered T (n :: past) stock chain t ∧ Agrees False n.db.committed.tables t

/-- So much is kept at every moment. -/
def KeptThroughout (H : ChainedHeader → Prop) (T : Transaction → Prop) (hubs : List Hub) : Prop :=
  ∀ n past, n :: past <:+ hubs → n.Kept H T past

lemma KeptThroughout.cons {n : Hub} {hubs : List Hub} (through : KeptThroughout H T hubs)
    (kept : n.Kept H T hubs) : KeptThroughout H T (n :: hubs) := by
  intro n' past suffix
  rcases List.suffix_cons_iff.1 suffix with heq | hlater
  · cases heq
    exact kept
  · exact through n' past hlater

namespace Kept

variable {n n' : Hub} {past : List Hub} {others more : List Ledger} {s s' : LedgerSession}
  {db : Database} {ledgers : List Ledger} {block : Block}

/-- A chain that ends in the stored tip is the stored chain. -/
lemma of_tip (named : Traceable H) (kept : n.Kept H T past) (known : ∀ h ∈ chain.headers, H h)
    (tip : ∃ tip, n.db.committed.tables.tip? = .ok (some tip) ∧ tip.hash = chain.tip.hash ∧
      tip.height = chain.tip.height) :
    ∃ stock t, Layered T (n :: past) stock chain t ∧ Agrees False n.db.committed.tables t := by
  obtain ⟨tip, htip, hhash, hheight⟩ := tip
  rcases kept.filled with hempty | ⟨stock, stored, t, hstored, layered, agrees⟩
  · rw [hempty] at htip
    exact nomatch htip
  · have hlast := (layered.built.solid layered.sound (named.genuine hstored)).tip?
      (named.genuine hstored)
    rw [Tables.tip?, ← agrees.headers] at hlast
    cases htip.symm.trans hlast
    obtain rfl := named.chain_eq hstored known hhash hheight
    exact ⟨stock, t, layered, agrees⟩

/-- A store with headers has those of its chain. -/
lemma of_chainHeaders (named : Traceable H) (kept : n.Kept H T past) {headers : List ChainedHeader}
    (stored : n.db.committed.tables.chainHeaders = .ok headers) :
    n.db.committed.tables = .empty ∧ headers = [] ∨
      headers ≠ [] ∧ ∀ h ∈ headers, H h := by
  rcases kept.filled with hempty | ⟨stock, chain, t, hchain, layered, agrees⟩
  · rw [hempty] at stored
    exact .inl ⟨hempty, (Except.ok.inj stored).symm⟩
  · have hlist := (layered.built.solid layered.sound (named.genuine hchain)).chainHeaders
      (named.genuine hchain)
    simp only [Tables.chainHeaders, Tables.records, Tables.get, ← agrees.headers] at hlist stored
    obtain rfl := Except.ok.inj (hlist.symm.trans stored)
    exact .inr ⟨chain.nonempty, hchain⟩

/-- A hub that leaves the tables as they are. -/
lemma unmoved (named : Traceable H) (kept : n.Kept H T past)
    (bounds : ∀ hash block, n'.archive.block? hash = some block → block.InBounds)
    (known : n'.archive.Knows T) (serves : ∀ l ∈ n'.ledgers, Serves H (fun _ _ => True) l)
    (free : n'.db.writerOpen = false)
    (same : n'.db.committed.tables = n.db.committed.tables) : n'.Kept H T (n :: past) := by
  refine ⟨bounds, known, serves, free, ?_⟩
  rcases kept.filled with hempty | ⟨stock, chain, t, hchain, layered, agrees⟩
  · exact .inl (same.trans hempty)
  · rw [← same] at agrees
    have stores := agrees.stores layered.built layered.sound (named.genuine hchain)
    exact .inr ⟨stock, chain, t, hchain, layered.later stores, agrees⟩

lemma opened (named : Traceable H) (kept : Kept H T ⟨db, archive, ledgers⟩ past)
    {genesis : ChainedHeader} (known : H genesis) (rules : Rules) (settings : Settings) :
    Kept H T ⟨(Ledger.openOn db rules settings genesis).2, archive,
      (Ledger.openOn db rules settings genesis).1.toOption.toList ++ ledgers⟩
        (⟨db, archive, ledgers⟩ :: past) := by
  have hopened := Ledger.opening db rules settings genesis
  generalize Ledger.openOn db rules settings genesis = result at hopened ⊢
  have joined {chain : Chain} (hchain : ∀ h ∈ chain.headers, H h) :
      ∀ l ∈ (⟨rules, settings, chain, .idle, 0⟩ : Ledger) :: ledgers,
        Serves H (fun _ _ => True) l := by
    rw [List.forall_mem_cons]
    exact ⟨⟨rfl, hchain, trivial⟩, kept.serves⟩
  cases hopened with
  | refused => exact kept.unmoved named kept.bounds kept.known kept.serves kept.free rfl
  | loaded height stored same =>
    rcases kept.of_chainHeaders named stored with ⟨-, hnil⟩ | ⟨-, hchain⟩
    · exact absurd hnil (Chain.nonempty _)
    · exact kept.unmoved named kept.bounds kept.known (joined hchain) kept.free rfl
  | @seeded t chain n height empty free staged headers =>
    have hchain : ∀ h ∈ chain.headers, H h := by simp [headers, known]
    rcases kept.of_chainHeaders named empty with ⟨hempty, -⟩ | ⟨hne, -⟩
    · rw [show db.committed.tables = .empty from hempty] at staged
      cases (Ledger.staged_seeding genesis).symm.trans staged
      exact ⟨kept.bounds, kept.known, joined hchain, free,
        .inr ⟨.empty, chain, _, hchain, .genesis headers, .refl _ _⟩⟩
    · exact absurd rfl hne

lemma dropped {l : Ledger} (named : Traceable H)
    (kept : Kept H T ⟨db, archive, others ++ l :: more⟩ past) :
    Kept H T ⟨l.closeOn db, archive, others ++ more⟩
      (⟨db, archive, others ++ l :: more⟩ :: past) := by
  have idle : l.cursor = .idle := (kept.serves l (by simp)).idle
  rw [Ledger.closeOn_of_idle idle]
  refine kept.unmoved named kept.bounds kept.known (fun l' hl => kept.serves l' ?_) kept.free rfl
  simp only [List.mem_append, List.mem_cons] at hl ⊢
  exact hl.imp_right .inr

lemma serves_session (kept : (ofSession archive others more s).Kept H T past)
    (idle : s'.ledger.cursor = .idle) (known : ∀ h ∈ s'.ledger.chain.headers, H h) :
    ∀ l ∈ (ofSession archive others more s').ledgers, Serves H (fun _ _ => True) l := by
  intro l hl
  simp only [ofSession, List.mem_append, List.mem_cons] at hl
  rcases hl with hl | rfl | hl
  · exact kept.serves l (by simp [ofSession, hl])
  · exact ⟨idle, known, trivial⟩
  · exact kept.serves l (by simp [ofSession, hl])

section Calls

variable (named : Traceable H) (apart : ∀ a b, T a → T b → a.hash = b.hash → a = b)

include named

/-- A session that keeps its tables and the chain of its ledger. -/
lemma stays (kept : (ofSession archive others more s).Kept H T past)
    (idle : s'.ledger.cursor = .idle) (chain : s'.ledger.chain = s.ledger.chain)
    (free : s'.db.writerOpen = false)
    (same : s'.db.committed.tables = s.db.committed.tables) :
    (ofSession archive others more s').Kept H T (ofSession archive others more s :: past) := by
  have known := (kept.serves s.ledger (by simp [ofSession])).known
  rw [← chain] at known
  exact kept.unmoved named kept.bounds kept.known (kept.serves_session idle known) free same

include apart

/-- Whatever the archive, undoing the last block of a chain leads to the layer below it. -/
lemma undo (kept : n.Kept H T past) (harchive : archive.Knows T) (known : ∀ h ∈ chain.headers, H h)
    (above : chain.tip.height ≠ 0) (found : archive.block? chain.tip.hash = some block)
    (staged : (Ledger.disconnectBlock archive chain.tip block).staged n.db.committed.tables =
      .ok ((), live)) :
    ∃ below stock₀ t₀, chain.headers = below.headers ++ [chain.tip] ∧
      Layered T (n :: past) stock₀ below t₀ ∧ Agrees False live t₀ ∧
      ∃ m, past.find? (fun m => !m.stores chain.tip) = some m ∧
        Agrees False m.db.committed.tables t₀ := by
  obtain ⟨cs, hwhole⟩ := Ledger.staged_disconnectBlock.1 staged
  obtain ⟨stock, t, layered, agrees⟩ :=
    kept.of_tip named known (Disconnecting.tip?_of_staged_whole hwhole)
  exact layered.undo (named.genuine known) agrees above apart harchive found hwhole

lemma add (kept : (ofSession archive others more s).Kept H T past) (known : H header)
    (hon : (Ledger.add archive header).on s = (.ok (), s')) :
    (ofSession archive others more s').Kept H T (ofSession archive others more s :: past) := by
  have serves := kept.serves s.ledger (by simp [ofSession])
  have hadded := Ledger.added serves.idle archive header
  rw [hon] at hadded
  cases hadded with
  | @connected block live' chain s' found free staged grown moved =>
    have grown := (Chain.add_eq_ok.1 grown).2
    obtain ⟨stock, t, layered, agrees⟩ := kept.of_tip named serves.known
      (Ledger.connected_of_staged staged).tip?
    have hchain := (Chain.forall_mem_iff_of_grown grown).2 ⟨serves.known, known⟩
    have committed : (ofSession archive others more s').db.committed.tables = live' := moved.tables
    obtain ⟨stock', t', layered', agrees'⟩ := layered.connect (named.genuine hchain) agrees apart
      kept.known (kept.bounds _ _ found) found grown staged committed
    refine ⟨kept.bounds, kept.known, kept.serves_session moved.idle ?_, moved.free,
      .inr ⟨stock', chain, t', hchain, layered', agrees'⟩⟩
    rwa [moved.chain]

lemma removeTip (kept : (ofSession archive others more s).Kept H T past)
    (hon : (Ledger.removeTip archive).on s = (.ok header, s')) :
    (ofSession archive others more s').Kept H T (ofSession archive others more s :: past) := by
  have serves := kept.serves s.ledger (by simp [ofSession])
  have hremoved := Ledger.removed serves.idle archive
  rw [hon] at hremoved
  cases hremoved with
  | @disconnected block live' chain s' above found free staged shrunk moved =>
    obtain ⟨below, stock₀, t₀, grown, layered₀, agrees₀, -⟩ :=
      kept.undo named apart kept.known serves.known above found staged
    obtain rfl := Chain.eq_of_removed above shrunk grown
    obtain ⟨hchain, -⟩ := (Chain.forall_mem_iff_of_grown grown).1 serves.known
    rw [← moved.tables] at agrees₀
    have stores := agrees₀.stores (n := ofSession archive others more s') layered₀.built
      layered₀.sound (named.genuine hchain)
    refine ⟨kept.bounds, kept.known, kept.serves_session moved.idle ?_, moved.free,
      .inr ⟨stock₀, chain, t₀, hchain, layered₀.later stores, agrees₀⟩⟩
    rwa [moved.chain]

/-- A call that is over after one session. -/
lemma asked (kept : (ofSession archive others more s).Kept H T past) {call : Ledger.Call}
    (known : ∀ h ∈ call.headers, H h) (single : call.Single) :
    (ofSession archive others more ((call.run archive).on s).2).Kept H T
      (ofSession archive others more s :: past) := by
  have idle := (kept.serves s.ledger (by simp [ofSession])).idle
  have same := kept.stays named idle rfl kept.free rfl
  cases call with
  | add header =>
    rw [Ledger.Call.run]
    have hadded := Ledger.added idle archive header
    generalize hon : (Ledger.add archive header).on s = result at hadded
    cases hadded with
    | refused => exact same
    | connected => exact kept.add named apart (known header List.mem_cons_self) hon
  | removeTip =>
    have hremoved := Ledger.removed idle archive
    generalize hon : (Ledger.removeTip archive).on s = result at hremoved
    cases hremoved with
    | refused =>
      rw [Ledger.Call.run, LedgerM.on_bind_of_error hon]
      exact same
    | disconnected =>
      rw [Ledger.Call.run, LedgerM.on_bind_of_ok hon, LedgerM.on_pure]
      exact kept.removeTip named apart hon
  | flush => exact kept.stays named idle rfl kept.free rfl
  | defragment => exact kept.stays named idle rfl kept.free rfl
  | counters =>
    exact Ledger.after_bind (P := fun s' => (ofSession archive others more s').Kept H T
      (ofSession archive others more s :: past)) same fun _ _ h => h
  | navigateTo | reorganizeIfBetter => exact single.elim

end Calls
end Kept

lemma LooseTrail.kept (named : Traceable H) (apart : ∀ a b, T a → T b → a.hash = b.hash → a = b)
    {hubs : List Hub} (trail : LooseTrail H T hubs) : KeptThroughout H T hubs := by
  induction trail with
  | fresh =>
    refine KeptThroughout.cons (fun n past suffix => ?_) ⟨fun hash block found => ?_,
      Archive.knows_empty, by simp, rfl, .inl rfl⟩
    · exact absurd (List.suffix_nil.1 suffix) (List.cons_ne_nil _ _)
    · simp [Archive.block?, Archive.empty] at found
  | exchanged _ bounds known ih =>
    have kept := ih _ _ List.suffix_rfl
    exact ih.cons (kept.unmoved named bounds known kept.serves kept.free rfl)
  | opened _ known rules settings ih =>
    exact ih.cons ((ih _ _ List.suffix_rfl).opened named known rules settings)
  | dropped _ ih => exact ih.cons ((ih _ _ List.suffix_rfl).dropped named)
  | called _ known ih =>
    refine kept_by_call (fun through known single => ?_) known ih
    exact through.cons ((through _ _ List.suffix_rfl).asked named apart known single)

/-- A ledger that was just opened on a fresh database. -/
lemma LooseTrail.start {past : List Hub} {genesis : ChainedHeader} {chain : Chain}
    (before : LooseTrail H T (⟨.fresh, archive, []⟩ :: past)) (known : H genesis) (rules : Rules)
    (settings : Settings) (sole : chain.headers = [genesis]) (height : genesis.height = 0) :
    LooseTrail H T (ofSession archive [] [] ⟨⟨rules, settings, chain, .idle, 0⟩,
      (Ledger.openOn .fresh rules settings genesis).2⟩ :: ⟨.fresh, archive, []⟩ :: past) := by
  rw [← openOn_fresh archive sole height]
  exact before.opened known rules settings

/-- A ledger adds a block. -/
lemma LooseTrail.added {others more : List Ledger} {s : LedgerSession} {past : List Hub}
    (before : LooseTrail H T (ofSession archive others more s :: past)) (known : H header) :
    LooseTrail H T (ofSession archive others more (Ledger.Call.runAll archive [.add header] s) ::
      ofSession archive others more s :: past) :=
  @before.called _ _ _ _ _ _ _ (.add header) (by simp [Ledger.Call.headers, known])

end Hub

/-- A changed archive cannot corrupt an undo. The archive may change at any time of a run, and hold
whatever it may at the moment when a ledger takes its tip back: either that is refused and nothing
has changed, or the stored headers, the unspent set and the counters are those that were committed
last before the header of the tip came in. -/
theorem rollback_restores_or_refuses (named : Traceable H)
    (apart : ∀ a b, T a → T b → a.hash = b.hash → a = b) {hubs past : List Hub} {n : Hub}
    (run : Hub.LooseTrail H T hubs) (moment : n :: past <:+ hubs) {l : Ledger}
    (mem : l ∈ n.ledgers) {bodies : Archive} (known : bodies.Knows T) :
    (∃ e, (Ledger.removeTip bodies).on ⟨l, n.db⟩ = (.error e, ⟨l, n.db⟩)) ∨
    ∃ tip s m, (Ledger.removeTip bodies).on ⟨l, n.db⟩ = (.ok tip, s) ∧
      past.find? (fun m => !m.stores tip) = some m ∧
      s.db.committed.tables.headers = m.db.committed.tables.headers ∧
      s.db.committed.tables.unspent = m.db.committed.tables.unspent ∧
      s.db.committed.tables.counters = m.db.committed.tables.counters := by
  have kept := run.kept named apart _ _ moment
  have serves := kept.serves l mem
  have hremoved := Ledger.removed (s := ⟨l, n.db⟩) serves.idle bodies
  generalize (Ledger.removeTip bodies).on ⟨l, n.db⟩ = result at hremoved ⊢
  cases hremoved with
  | @refused e => exact .inl ⟨e, rfl⟩
  | @disconnected block live' chain s' above found free staged shrunk moved =>
    obtain ⟨below, stock₀, t₀, -, -, agrees₀, m, hfind, hbase⟩ :=
      kept.undo named apart known serves.known above found staged
    refine .inr ⟨_, s', m, rfl, hfind, ?_⟩
    rw [moved.tables]
    exact ⟨agrees₀.headers.trans hbase.headers.symm, agrees₀.unspent.trans hbase.unspent.symm,
      agrees₀.counters.trans hbase.counters.symm⟩

def exchangedTxs : List Transaction :=
  [coinbase 1, coinbase 2, coinbase 3, passOn (coinbase 1), passOn (passOn (coinbase 1))]

/-- The archive with another body under the header of the coin block. -/
def coinArchiveWith (txs : List Transaction) : Archive :=
  coinArchive.add { coinBlock with txs }

/-- The source of the coin is still found where another transaction came behind it, and no longer
where one came before it. -/
lemma spentSession_evaluated :
    ((Ledger.removeTip (coinArchiveWith [coinbase 1, coinbase 3])).on spentSession).1 =
      .ok spendingHeader ∧
    ((Ledger.removeTip (coinArchiveWith [coinbase 3, coinbase 1])).on spentSession).1.toOption =
      none ∧
    (Hub.ofSession coinArchive [] [] coinSession).stores spendingHeader = false ∧
    ∀ a ∈ exchangedTxs, ∀ b ∈ exchangedTxs, a.hash = b.hash → a = b := by decide +kernel

lemma coinArchive_knows : coinArchive.Knows (· ∈ exchangedTxs) := by
  have empty : Archive.empty.Knows (· ∈ exchangedTxs) := Archive.knows_empty
  refine (empty.add (show ∀ tx ∈ coinBlock.txs, _ from ?_)).add
    (show ∀ tx ∈ spendingBlock.txs, _ from ?_)
  · simp [coinBlock, blockAbove, exchangedTxs]
  · simp [spendingBlock, blockAbove, exchangedTxs]

lemma coinArchiveWith_knows {txs : List Transaction} (known : ∀ tx ∈ txs, tx ∈ exchangedTxs) :
    (coinArchiveWith txs).Knows (· ∈ exchangedTxs) :=
  coinArchive_knows.add known

lemma coinArchive_bounds {hash : Hash} {block : Block}
    (found : coinArchive.block? hash = some block) : block.InBounds := by
  rcases Archive.eq_or_block?_of_add found with ⟨-, rfl⟩ | found
  · exact ⟨by decide, by decide, by decide⟩
  rcases Archive.eq_or_block?_of_add found with ⟨-, rfl⟩ | found
  · exact ⟨by decide, by decide, by decide⟩
  · simp [Archive.block?, Archive.empty] at found

lemma spentSession_trail : ∃ past, Hub.LooseTrail (· ∈ coinHeaders) (· ∈ exchangedTxs)
    (Hub.ofSession coinArchive [] [] spentSession :: Hub.ofSession coinArchive [] [] coinSession ::
      past) := by
  have stored := @Hub.LooseTrail.exchanged (· ∈ coinHeaders) (· ∈ exchangedTxs) _ _ _ _ .fresh
    coinArchive (fun _ _ => coinArchive_bounds) coinArchive_knows
  have opened : Hub.LooseTrail (· ∈ coinHeaders) (· ∈ exchangedTxs)
      (Hub.ofSession coinArchive [] [] coinStart :: _) :=
    stored.start List.mem_cons_self _ _ rfl rfl
  have moved := (opened.added (show coinHeader ∈ coinHeaders by simp [coinHeaders])).added
    (show spendingHeader ∈ coinHeaders by simp [coinHeaders])
  exact ⟨_, moved⟩

theorem rollback_restores_or_refuses_coins : ∃ past,
    Hub.LooseTrail (· ∈ coinHeaders) (· ∈ exchangedTxs)
      (Hub.ofSession coinArchive [] [] spentSession :: past) ∧
    (∃ s, (Ledger.removeTip (coinArchiveWith [coinbase 1, coinbase 3])).on spentSession =
        (.ok spendingHeader, s) ∧
      s.db.committed.tables.headers = coinSession.db.committed.tables.headers ∧
      s.db.committed.tables.unspent = coinSession.db.committed.tables.unspent ∧
      s.db.committed.tables.counters = coinSession.db.committed.tables.counters) ∧
    ∃ e, (Ledger.removeTip (coinArchiveWith [coinbase 3, coinbase 1])).on spentSession =
      (.error e, spentSession) := by
  obtain ⟨succeeds, fails, before, apart⟩ := spentSession_evaluated
  obtain ⟨past, trail⟩ := spentSession_trail
  have mem : spentSession.ledger ∈ (Hub.ofSession coinArchive [] [] spentSession).ledgers := by
    simp [Hub.ofSession]
  have extended := rollback_restores_or_refuses coinHeaders_apart.traceable
    (fun a b ha hb => apart a ha b hb) trail List.suffix_rfl mem
    (coinArchiveWith_knows (show ∀ tx ∈ [coinbase 1, coinbase 3], _ by simp [exchangedTxs]))
  have displaced := rollback_restores_or_refuses coinHeaders_apart.traceable
    (fun a b ha hb => apart a ha b hb) trail List.suffix_rfl mem
    (coinArchiveWith_knows (show ∀ tx ∈ [coinbase 3, coinbase 1], _ by simp [exchangedTxs]))
  -- The session at this moment is `spentSession`, which must not be evaluated here.
  have session (s : LedgerSession) : ⟨s.ledger, (Hub.ofSession coinArchive [] [] s).db⟩ = s := rfl
  rw [session] at extended displaced
  refine ⟨_, trail, ?_, ?_⟩
  · rcases extended with ⟨e, hon⟩ | ⟨tip, s, m, hon, hfind, restored⟩
    · rw [hon] at succeeds
      exact nomatch succeeds
    · rw [hon] at succeeds
      cases succeeds
      rw [List.find?_cons_of_pos (by simp [before])] at hfind
      rw [← Option.some.inj hfind, Hub.db_ofSession] at restored
      exact ⟨s, hon, restored⟩
  · rcases displaced with refused | ⟨tip, s, m, hon, -⟩
    · exact refused
    · rw [hon] at fails
      exact nomatch fails

end UtxoLedger

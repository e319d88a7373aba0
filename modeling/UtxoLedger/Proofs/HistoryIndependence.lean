import Mathlib.Tactic.Common
import UtxoLedger.Proofs.RebuiltStore

/-!
# History independence

A node is a database with an archive beside it, and at most one ledger that works on it. Whatever
the ledger was asked for, whether or not the calls failed, and however often it was closed and
opened again: what is committed is the store of its current chain. Only journals may be fewer, where
blocks have left the rollback window.
-/
namespace UtxoLedger

/-- A database and an archive, with the ledger that is open on them. -/
structure Node where
  db : Database
  archive : Archive
  ledger? : Option Ledger

/-- The headers that come up in a run: genesis and whatever the calls bring along. Each bears the
name of its fields, and no chain of them repeats a name. -/
structure GenuineHeaders (genesis : ChainedHeader) (H : ChainedHeader → Prop) : Prop where
  genesis : H genesis
  real : ∀ h, H h → h.hash = h.header.hash
  distinct : ∀ chain : Chain, (∀ h ∈ chain.headers, H h) →
    (chain.headers.map ChainedHeader.hash).Nodup

/-- The nodes that come out of any run on an empty store. Blocks come into the archive at any time,
but the body under a name never changes. The ledger is opened, asked, dropped and opened again at
will, always with the same genesis, under rules and settings that `P` admits. -/
inductive Reachable (genesis : ChainedHeader) (H : ChainedHeader → Prop)
    (P : Rules → Settings → Prop) : Node → Prop
  | fresh : Reachable genesis H P ⟨.fresh, .empty, none⟩
  | stored {db : Database} {archive : Archive} {ledger? : Option Ledger}
      (before : Reachable genesis H P ⟨db, archive, ledger?⟩) (block : Block)
      (bounds : block.InBounds)
      (same : ∀ old, archive.block? block.hash = some old → old = block) :
      Reachable genesis H P ⟨db, archive.add block, ledger?⟩
  | opened {db : Database} {archive : Archive} (before : Reachable genesis H P ⟨db, archive, none⟩)
      {rules : Rules} {settings : Settings} (admitted : P rules settings) :
      Reachable genesis H P ⟨(Ledger.openOn db rules settings genesis).2, archive,
        (Ledger.openOn db rules settings genesis).1.toOption⟩
  | dropped {db : Database} {archive : Archive} {l : Ledger}
      (before : Reachable genesis H P ⟨db, archive, some l⟩) :
      Reachable genesis H P ⟨l.closeOn db, archive, none⟩
  | called {db : Database} {archive : Archive} {l : Ledger}
      (before : Reachable genesis H P ⟨db, archive, some l⟩) {call : Ledger.Call}
      (known : ∀ h ∈ call.headers, H h) :
      Reachable genesis H P ⟨((call.run archive).on ⟨l, db⟩).2.db, archive,
        some ((call.run archive).on ⟨l, db⟩).2.ledger⟩

/-- No journal is ever pruned. -/
def Unpruned (P : Rules → Settings → Prop) : Prop :=
  ∀ rules settings, P rules settings → settings.maxRollbackDepth = 0

namespace Table

variable {a b : Table}

/-- Every entry of `a` is in `b`. -/
def Within (a b : Table) : Prop := ∀ k v : Bytes, a[k]? = some v → b[k]? = some v

lemma Within.eq_none (h : a.Within b) {k : Bytes} (hk : b[k]? = none) : a[k]? = none := by
  by_contra hne
  obtain ⟨v, hv⟩ := Option.ne_none_iff_exists'.1 hne
  simp [h k v hv] at hk

lemma Within.insert (h : a.Within b) (k v : Bytes) :
    Within (Std.ExtTreeMap.insert a k v) (Std.ExtTreeMap.insert b k v) := by
  intro k' v' hv
  rw [getElem?_insert] at hv ⊢
  by_cases hk : k = k'
  · rwa [if_pos hk] at hv ⊢
  · rw [if_neg hk] at hv ⊢
    exact h k' v' hv

lemma Within.erase (h : a.Within b) (k : Bytes) :
    Within (Std.ExtTreeMap.erase a k) (Std.ExtTreeMap.erase b k) := by
  intro k' v' hv
  rw [getElem?_erase] at hv ⊢
  by_cases hk : k = k'
  · simp [hk] at hv
  · rw [if_neg hk] at hv ⊢
    exact h k' v' hv

lemma erase_within (a : Table) (k : Bytes) : Within (Std.ExtTreeMap.erase a k) a := by
  intro k' v' hv
  rw [getElem?_erase] at hv
  by_cases hk : k = k'
  · simp [hk] at hv
  · rwa [if_neg hk] at hv

end Table

/-- `live` is `t`, except that journals may be missing; none is if `full` holds. -/
structure Agrees (full : Prop) (live t : Tables) : Prop where
  headers : live.headers = t.headers
  unspent : live.unspent = t.unspent
  counters : live.counters = t.counters
  spent : live.spent.Within t.spent
  unminted : live.unminted.Within t.unminted
  journals : full → live.spent = t.spent ∧ live.unminted = t.unminted

namespace Agrees

variable {full : Prop} {live t : Tables}

lemma refl (full : Prop) (t : Tables) : Agrees full t t :=
  ⟨rfl, rfl, rfl, fun _ _ h => h, fun _ _ h => h, fun _ => ⟨rfl, rfl⟩⟩

/-- Both are closed over the same block. -/
lemma closed (h : Agrees full live t) (c : Connecting) (U : Table) :
    Agrees full (c.closed { live with unspent := U }) (c.closed { t with unspent := U }) where
  headers := by simp [Connecting.closed, h.headers]
  unspent := by simp [Connecting.closed]
  counters := Tables.counters_withCounters_congr (fun _ _ => by simp [h.counters]) _
  spent := by
    simp only [Connecting.closed, Tables.spent_withCounters]
    exact h.spent.insert _ _
  unminted := by
    simp only [Connecting.closed, Tables.unminted_withCounters]
    exact h.unminted.insert _ _
  journals hfull := by
    obtain ⟨hspent, hunminted⟩ := h.journals hfull
    simp [Connecting.closed, hspent, hunminted]

/-- Pruning takes journals away, unless there is no rollback window. -/
lemma pruned (h : Agrees full live t) (l : Ledger) (header : ChainedHeader)
    (hfull : full → l.settings.maxRollbackDepth = 0) : Agrees full (l.pruned header live) t := by
  unfold Ledger.pruned
  cases hold : Ledger.prunable? l.chain l.settings.maxRollbackDepth header.height with
  | none => exact h
  | some old =>
    have hspent := fun k v hv => h.spent k v (Table.erase_within _ (Height.key old.height) k v hv)
    have hunminted := fun k v hv => h.unminted k v (Table.erase_within _ old.hash.bytes k v hv)
    refine ⟨h.headers, h.unspent, h.counters, hspent, hunminted, fun hf => ?_⟩
    simp [Ledger.prunable?, hfull hf] at hold

/-- Undoing the block over which both were closed leads back to where they were, whatever the live
tables were in between. -/
lemma reopened {c : Connecting} {header : ChainedHeader} {U : Table} {cs : Counters}
    (h : Agrees full live (c.closed { t with unspent := U })) (hheader : c.locator.header = header)
    (headers : t.headers[Height.key header.height]? = none)
    (spent : t.spent[Height.key header.height]? = none)
    (unminted : t.unminted[header.hash.bytes]? = none)
    (counters : t.counters = (Tables.empty.withCounters cs).counters) :
    Agrees full (Disconnecting.reopened header t.unspent cs live) t := by
  have hspent : (c.closed { t with unspent := U }).spent.erase (Height.key header.height) =
      t.spent := by
    simp only [Connecting.closed, Tables.spent_withCounters, hheader]
    exact Table.erase_insert spent
  have hunminted : (c.closed { t with unspent := U }).unminted.erase header.hash.bytes =
      t.unminted := by
    simp only [Connecting.closed, Tables.unminted_withCounters, hheader]
    exact Table.erase_insert unminted
  have hclosed : (c.closed { t with unspent := U }).counters =
      (Tables.empty.withCounters c.counters).counters :=
    Tables.counters_withCounters counters _
  refine ⟨?_, ?_, ?_, ?_, ?_, fun hfull => ?_⟩
  · simp only [Disconnecting.reopened, Tables.headers_withCounters, h.headers, Connecting.closed,
      hheader]
    exact Table.erase_insert headers
  · simp [Disconnecting.reopened]
  · rw [counters]
    exact Tables.counters_withCounters (h.counters.trans hclosed) cs
  · simp only [Disconnecting.reopened, Tables.withoutJournal, Tables.spent_withCounters]
    exact hspent ▸ h.spent.erase _
  · simp only [Disconnecting.reopened, Tables.withoutJournal, Tables.unminted_withCounters]
    exact hunminted ▸ h.unminted.erase _
  · obtain ⟨hs, hu⟩ := h.journals hfull
    simp only [Disconnecting.reopened, Tables.withoutJournal, Tables.spent_withCounters,
      Tables.unminted_withCounters, hs, hu]
    exact ⟨hspent, hunminted⟩

/-- What the tables of a chain hold at their top, the live ones hold as well if its journal is still
there. -/
lemma holds {tables : Tables} {c : Connecting} {U : Table} (h : Agrees full live tables)
    (held : Disconnecting.Holds tables c U)
    (spent : ∃ v, live.spent[Height.key c.locator.header.height]? = some v)
    (unminted : ∃ v, live.unminted[c.locator.header.hash.bytes]? = some v) :
    Disconnecting.Holds live c U where
  unspent := h.unspent.trans held.unspent
  counters := (Tables.readCounters_congr h.counters).trans held.counters
  tip := by
    have htip : live.tip? = tables.tip? := by simp [Tables.tip?, h.headers]
    rw [htip]
    exact held.tip
  stored := by
    have hat : live.headerAt? c.locator.header.height =
        tables.headerAt? c.locator.header.height := by
      simp [Tables.headerAt?, Tables.record?, Tables.get, h.headers]
    rw [hat]
    exact held.stored
  spent := by
    obtain ⟨v, hv⟩ := spent
    rw [hv, ← h.spent _ _ hv, held.spent]
  unminted := by
    obtain ⟨v, hv⟩ := unminted
    rw [hv, ← h.unminted _ _ hv, held.unminted]

end Agrees

lemma GenuineHeaders.chain {genesis : ChainedHeader} {H : ChainedHeader → Prop}
    (gen : GenuineHeaders genesis H) {chain : Chain} (known : ∀ h ∈ chain.headers, H h) :
    chain.Genuine := ⟨fun h hh => gen.real h (known h hh), gen.distinct chain known⟩

/-- Undoing a block within a ledger is undoing it from start to close. -/
lemma Ledger.staged_disconnectBlock {archive : Archive} {header : ChainedHeader} {block : Block}
    {t t' : Tables} : (disconnectBlock archive header block).staged t = .ok ((), t') ↔
      ∃ cs, (Disconnecting.whole archive header block).staged t = .ok (cs, t') := by
  have hbind : disconnectBlock archive header block =
      Disconnecting.whole archive header block >>= fun _ => pure () := by
    simp [disconnectBlock, Disconnecting.whole]
  rw [hbind, StoreM.staged_bind_eq_ok]
  constructor
  · rintro ⟨cs, u, hwhole, h⟩
    cases h
    exact ⟨cs, hwhole⟩
  · rintro ⟨cs, hwhole⟩
    exact ⟨cs, t', hwhole, rfl⟩

/-- What connecting a block comes to, in tables that agree with those of the chain below: the block
passes the rules and can be connected in the tables of that chain, and the tables agree again once
it is closed. The archive need not be the one that the chain was built from. -/
lemma Built.connect {l : Ledger} {stock archive : Archive} {chain : Chain} {header : ChainedHeader}
    {block : Block} {full : Prop} {live live' t : Tables} (built : Built stock l.chain t)
    (sound : stock.Sound) (genuine : chain.GenuineBelow) (agrees : Agrees full live t)
    (window : full → l.settings.maxRollbackDepth = 0)
    (grown : chain.headers = l.chain.headers ++ [header])
    (staged : (l.connectBlock archive header block).staged live = .ok ((), live')) :
    ∃ cs loaded c U, t.readCounters = .ok cs ∧
      Connecting.ConnectsAll (.taken archive l.chain header block cs) block.txs t.unspent loaded
        c U ∧
      l.rules.checkBlock header block loaded = .ok () ∧
      Agrees full live' (c.closed { t with unspent := U }) := by
  obtain ⟨hbelow, hnew⟩ := genuine.of_grown grown
  obtain ⟨-, hspent, hunminted⟩ :=
    (built.solid sound hbelow).free_above (Chain.extends_of_grown grown) hnew
  obtain ⟨start, connects, close, -, rules⟩ := Ledger.connected_of_staged staged
  rename_i c c' loaded items U counters live₁
  obtain ⟨-, -, -, cs, hcs, rfl, -⟩ := Connecting.staged_start_eq_ok.1 start
  have hlocator : c'.locator = ⟨archive, header, block⟩ := connects.same.1
  obtain ⟨-, -, rfl⟩ := (Connecting.staged_close_eq_ok
    (by rw [hlocator]; exact agrees.spent.eq_none hspent)
    (by rw [hlocator]; exact agrees.unminted.eq_none hunminted)).1 close
  rw [Tables.readCounters_congr agrees.counters] at hcs
  rw [agrees.unspent] at connects
  exact ⟨cs, loaded, c', U, hcs, connects, rules, (agrees.closed c' U).pruned _ header window⟩

/-- A block that is undone had its journal. -/
lemma Disconnecting.recorded_of_staged_whole {archive : Archive} {header : ChainedHeader}
    {block : Block} {t t' : Tables} {cs : Counters}
    (staged : (whole archive header block).staged t = .ok (cs, t')) :
    (∃ v, t.spent[Height.key header.height]? = some v) ∧
      ∃ w, t.unminted[header.hash.bytes]? = some w := by
  obtain ⟨d, u, hstart, -⟩ := StoreM.staged_bind_eq_ok.1 staged
  obtain ⟨-, -, j, -, -, hload, -⟩ := staged_start_eq_ok.1 hstart
  obtain ⟨hspent, hunminted⟩ := Journal.load_eq_ok.1 hload
  obtain ⟨v, hv, -⟩ := Tables.record?_eq_some.1 hspent
  obtain ⟨w, hw, -⟩ := Tables.record?_eq_some.1 hunminted
  exact ⟨⟨v, hv⟩, w, hw⟩

/-- Undoing the tip block of a chain, in tables that agree with those of the chain and still have
its journal: with the body that was connected it succeeds unless a transaction has come back, and
leads to tables that agree with those of the chain below; with another body it succeeds only if that
has the same transactions by name, and none has come back. -/
theorem Built.undoable {archive : Archive} {chain : Chain} {full : Prop} {live t : Tables}
    (built : Built archive chain t) (sound : archive.Sound) (genuine : chain.Genuine)
    (agrees : Agrees full live t) (above : chain.tip.height ≠ 0) :
    ∃ below block t₀ cs, Built archive below t₀ ∧
      chain.headers = below.headers ++ [chain.tip] ∧
      archive.block? chain.tip.hash = some block ∧
      Agrees full (Disconnecting.reopened chain.tip t₀.unspent cs live) t₀ ∧
      (full → (∃ v, live.spent[Height.key chain.tip.height]? = some v) ∧
        ∃ w, live.unminted[chain.tip.hash.bytes]? = some w) ∧
      ((∃ v, live.spent[Height.key chain.tip.height]? = some v) →
        (∃ w, live.unminted[chain.tip.hash.bytes]? = some w) →
        (block.NoneReturns → (Disconnecting.whole archive chain.tip block).staged live =
          .ok (cs, Disconnecting.reopened chain.tip t₀.unspent cs live)) ∧
        ∀ stock body r, (Disconnecting.whole stock chain.tip body).staged live = .ok r →
          block.NoneReturns ∧ body.txs.map Transaction.hash = block.txs.map Transaction.hash) := by
  cases built with
  | genesis sole =>
    rw [Chain.height_ne_zero_iff] at above
    simp [sole] at above
  | @above _ below header block t₀ cs loaded c U built found counters connects grown =>
    have htip := Chain.tip_of_grown grown
    have hx := Chain.extends_of_grown grown
    obtain ⟨hbelow, real, hnew⟩ := genuine.of_grown grown
    obtain ⟨hhash, bounds⟩ := sound _ _ found
    have solid := built.solid sound hbelow
    obtain ⟨hheaders, hspent, hunminted⟩ := solid.free_above hx hnew
    have hlocator : c.locator = ⟨archive, header, block⟩ := connects.same.1
    have hheader : c.locator.header = header := by rw [hlocator]
    have hg := solid.anchored.grounded hx hnew block
    have held := Disconnecting.holds_closed connects hx real solid.anchored.tip
    have hlength := below.length_le
    have room := (solid.room header counters bounds).mono
      (by omega : below.headers.length * 2 ^ 31 ≤ 2 ^ 64)
    obtain ⟨stored, hstored, -⟩ := solid.counters
    have heq := Tables.readCounters_congr hstored
    rw [counters, Tables.readCounters_withCounters] at heq
    cases heq
    rw [htip]
    refine ⟨below, block, t₀, cs, built, grown, found,
      agrees.reopened hheader hheaders hspent hunminted hstored, fun hfull => ?_, fun hv hw => ?_⟩
    · obtain ⟨hjspent, hjunminted⟩ := agrees.journals hfull
      rw [hjspent, hjunminted, ← hheader]
      exact ⟨⟨_, held.spent⟩, _, held.unminted⟩
    · have holds := agrees.holds held (by rwa [hheader]) (by rwa [hheader])
      exact ⟨fun hnone => Disconnecting.staged_whole_of_holds connects hg solid.anchored.left hhash
        bounds room hnone holds,
        fun stock body r => Disconnecting.body_of_staged_whole connects hg bounds holds⟩

/-- What undoing the tip block of a chain comes to, in tables that agree with those of the chain: if
it succeeds, nothing has come back in the block, and the tables agree with those of the chain below.
If journals are never pruned and nothing has come back, it does succeed. -/
theorem Built.undo {archive : Archive} {chain : Chain} {full : Prop} {live t : Tables}
    (built : Built archive chain t) (sound : archive.Sound) (genuine : chain.Genuine)
    (agrees : Agrees full live t) (above : chain.tip.height ≠ 0) :
    ∃ below block t₀, Built archive below t₀ ∧ chain.headers = below.headers ++ [chain.tip] ∧
      archive.block? chain.tip.hash = some block ∧
      (∀ cs live', (Disconnecting.whole archive chain.tip block).staged live = .ok (cs, live') →
        block.NoneReturns ∧ Agrees full live' t₀ ∧
          ∃ cs, live' = Disconnecting.reopened chain.tip t₀.unspent cs live) ∧
      (full → block.NoneReturns → ∃ cs live',
        (Disconnecting.whole archive chain.tip block).staged live = .ok (cs, live')) := by
  obtain ⟨below, block, t₀, cs, built₀, grown, found, agrees₀, recorded, undo⟩ :=
    built.undoable sound genuine agrees above
  refine ⟨below, block, t₀, built₀, grown, found, fun cs' live' hok => ?_, fun hfull hnone => ?_⟩
  · obtain ⟨hv, hw⟩ := Disconnecting.recorded_of_staged_whole hok
    obtain ⟨succeeds, only⟩ := undo hv hw
    have hnone := (only _ _ _ hok).1
    cases hok.symm.trans (succeeds hnone)
    exact ⟨hnone, agrees₀, cs, rfl⟩
  · obtain ⟨hv, hw⟩ := recorded hfull
    exact ⟨_, _, (undo hv hw).1 hnone⟩

/-- A ledger at rest over the store of its chain. -/
structure Follows (H : ChainedHeader → Prop) (P : Rules → Settings → Prop) (archive : Archive)
    (s : LedgerSession) : Prop where
  idle : s.ledger.cursor = .idle
  free : s.db.writerOpen = false
  known : ∀ h ∈ s.ledger.chain.headers, H h
  admitted : P s.ledger.rules s.ledger.settings
  built : ∃ t, Built archive s.ledger.chain t ∧ Agrees (Unpruned P) s.db.committed.tables t

namespace Follows

variable {genesis header : ChainedHeader} {H : ChainedHeader → Prop} {P : Rules → Settings → Prop}
  {archive : Archive} {s s' : LedgerSession}

lemma add (gen : GenuineHeaders genesis H) (sound : archive.Sound) (hf : Follows H P archive s)
    (hH : H header) (hon : (Ledger.add archive header).on s = (.ok (), s')) :
    Follows H P archive s' := by
  have hadded := Ledger.added hf.idle archive header
  rw [hon] at hadded
  cases hadded with
  | @connected block live' chain s' found free staged grown moved =>
    obtain ⟨t, built, agrees⟩ := hf.built
    have grown := (Chain.add_eq_ok.1 grown).2
    have known := (Chain.forall_mem_iff_of_grown grown).2 ⟨hf.known, hH⟩
    obtain ⟨cs, loaded, c, U, hcs, connects, -, agrees'⟩ := built.connect sound
      (gen.chain known).genuineBelow agrees (fun hfull => hfull _ _ hf.admitted) grown staged
    refine ⟨moved.idle, moved.free, ?_, ?_, ?_⟩
    · rw [moved.chain]
      exact known
    · rw [moved.rules, moved.settings]
      exact hf.admitted
    · rw [moved.chain, moved.tables]
      exact ⟨_, .above built found hcs connects grown, agrees'⟩

lemma removeTip (gen : GenuineHeaders genesis H) (sound : archive.Sound)
    (hf : Follows H P archive s) (hon : (Ledger.removeTip archive).on s = (.ok header, s')) :
    Follows H P archive s' := by
  have hremoved := Ledger.removed hf.idle archive
  rw [hon] at hremoved
  cases hremoved with
  | @disconnected block live' chain s' above found free staged shrunk moved =>
    obtain ⟨t, built, agrees⟩ := hf.built
    obtain ⟨below, block', t₀, built₀, grown, found', hsucceeds, -⟩ :=
      built.undo sound (gen.chain hf.known) agrees above
    cases found.symm.trans found'
    obtain ⟨cs, hwhole⟩ := Ledger.staged_disconnectBlock.1 staged
    obtain ⟨-, agrees₀, -⟩ := hsucceeds cs live' hwhole
    obtain rfl := Chain.eq_of_removed above shrunk grown
    refine ⟨moved.idle, moved.free, ?_, ?_, ?_⟩
    · rw [moved.chain]
      exact ((Chain.forall_mem_iff_of_grown grown).1 hf.known).1
    · rw [moved.rules, moved.settings]
      exact hf.admitted
    · rw [moved.chain, moved.tables]
      exact ⟨t₀, built₀, agrees₀⟩

/-- Every call keeps the ledger on the store of its chain. -/
lemma kept (gen : GenuineHeaders genesis H) (sound : archive.Sound) :
    Ledger.Kept archive H (Follows H P archive) where
  idle hf := hf.idle
  add hH hf hon := hf.add gen sound hH hon
  removeTip hf hon := hf.removeTip gen sound hon
  flush hf := ⟨hf.idle, hf.free, hf.known, hf.admitted, hf.built⟩

lemma within {a : Archive} (hf : Follows H P archive s) (hw : archive.Within a) :
    Follows H P a s := by
  obtain ⟨t, built, agrees⟩ := hf.built
  exact ⟨hf.idle, hf.free, hf.known, hf.admitted, t, built.within hw, agrees⟩

end Follows

/-- A database that no ledger works on is empty, or the store of a chain. -/
structure Rests (H : ChainedHeader → Prop) (P : Rules → Settings → Prop) (archive : Archive)
    (db : Database) : Prop where
  free : db.writerOpen = false
  filled : db.committed.tables = .empty ∨ ∃ chain t, (∀ h ∈ chain.headers, H h) ∧
    Built archive chain t ∧ Agrees (Unpruned P) db.committed.tables t

namespace Rests

variable {genesis : ChainedHeader} {H : ChainedHeader → Prop} {P : Rules → Settings → Prop}
  {archive : Archive} {db : Database} {rules : Rules} {settings : Settings}

lemma within {a : Archive} (hr : Rests H P archive db) (hw : archive.Within a) :
    Rests H P a db := by
  refine ⟨hr.free, ?_⟩
  rcases hr.filled with hempty | ⟨chain, t, known, built, agrees⟩
  · exact .inl hempty
  · exact .inr ⟨chain, t, known, built.within hw, agrees⟩

/-- The headers that a ledger finds are those of the chain. -/
lemma chainHeaders (gen : GenuineHeaders genesis H) (sound : archive.Sound) {chain : Chain}
    {t : Tables} (known : ∀ h ∈ chain.headers, H h) (built : Built archive chain t)
    (agrees : Agrees (Unpruned P) db.committed.tables t) :
    db.committed.tables.chainHeaders = .ok chain.headers := by
  have genuine := gen.chain known
  have hstored := (built.solid sound genuine).chainHeaders genuine
  simp only [Tables.chainHeaders, Tables.records, Tables.get] at hstored ⊢
  rw [agrees.headers, hstored]

/-- Opening a ledger seeds an empty store, and takes over the chain of a filled one. -/
lemma opened (gen : GenuineHeaders genesis H) (sound : archive.Sound) (hr : Rests H P archive db)
    (admitted : P rules settings) :
    match Ledger.openOn db rules settings genesis with
    | (.ok l, db') => Follows H P archive ⟨l, db'⟩
    | (.error _, db') => Rests H P archive db' := by
  have hopened := Ledger.opening db rules settings genesis
  generalize Ledger.openOn db rules settings genesis = r at hopened ⊢
  cases hopened with
  | @seeded t chain n height empty free staged headers =>
    rcases hr.filled with hempty | ⟨chain₀, t₀, known, built, agrees⟩
    · rw [hempty] at staged
      cases (Ledger.staged_seeding genesis).symm.trans staged
      refine ⟨rfl, free, ?_, admitted, _, .genesis headers, .refl _ _⟩
      intro h hh
      rw [headers, List.mem_singleton] at hh
      rw [hh]
      exact gen.genesis
    · have hstored := chainHeaders gen sound known built agrees
      rw [empty, Except.ok.injEq] at hstored
      exact absurd hstored.symm chain₀.nonempty
  | @loaded chain height stored same =>
    rcases hr.filled with hempty | ⟨chain₀, t₀, known, built, agrees⟩
    · rw [hempty] at stored
      exact absurd (Except.ok.inj stored).symm chain.nonempty
    · have hstored := chainHeaders gen sound known built agrees
      rw [stored, Except.ok.injEq] at hstored
      obtain rfl := Chain.ext_headers hstored
      exact ⟨rfl, hr.free, known, admitted, t₀, built, agrees⟩
  | refused => exact hr

end Rests

/-- What a run keeps of a node. -/
structure Node.Sound (H : ChainedHeader → Prop) (P : Rules → Settings → Prop) (n : Node) :
    Prop where
  archive : n.archive.Sound
  follows : ∀ l, n.ledger? = some l → Follows H P n.archive ⟨l, n.db⟩
  rests : n.ledger? = none → Rests H P n.archive n.db

lemma Archive.within_add {archive : Archive} {block : Block}
    (same : ∀ old, archive.block? block.hash = some old → old = block) :
    archive.Within (archive.add block) := by
  intro hash old hold
  simp only [block?, add, Std.ExtTreeMap.getElem?_insert] at hold ⊢
  by_cases hkey : block.hash = hash
  · subst hkey
    simp [same old hold]
  · rwa [if_neg fun heq => hkey (Std.LawfulEqOrd.eq_of_compare heq)]

lemma Archive.block?_add (archive : Archive) (block : Block) :
    (archive.add block).block? block.hash = some block := by
  simp [block?, add]

lemma Archive.eq_or_block?_of_add {archive : Archive} {block found : Block} {hash : Hash}
    (h : (archive.add block).block? hash = some found) :
    (block.hash = hash ∧ found = block) ∨ archive.block? hash = some found := by
  simp only [block?, Archive.add, Std.ExtTreeMap.getElem?_insert] at h
  by_cases hkey : block.hash = hash
  · simp only [hkey, Std.ReflOrd.compare_self, if_true, Option.some.injEq] at h
    exact .inl ⟨hkey, h.symm⟩
  · rw [if_neg fun heq => hkey (Std.LawfulEqOrd.eq_of_compare heq)] at h
    exact .inr h

lemma Archive.Sound.add {archive : Archive} {block : Block} (sound : archive.Sound)
    (bounds : block.InBounds) : (archive.add block).Sound := by
  intro hash found hfound
  rcases eq_or_block?_of_add hfound with ⟨hhash, rfl⟩ | hold
  · exact ⟨hhash, bounds⟩
  · exact sound hash found hold

/-- Every step of a run keeps the node sound. -/
theorem Reachable.sound {genesis : ChainedHeader} {H : ChainedHeader → Prop}
    {P : Rules → Settings → Prop} (gen : GenuineHeaders genesis H) {n : Node}
    (h : Reachable genesis H P n) : n.Sound H P := by
  induction h with
  | fresh =>
    refine ⟨?_, by simp, fun _ => ⟨rfl, .inl rfl⟩⟩
    intro hash block hfound
    simp [Archive.block?, Archive.empty] at hfound
  | stored before block bounds same ih =>
    have hw := Archive.within_add same
    exact ⟨ih.archive.add bounds, fun l hl => (ih.follows l hl).within hw,
      fun hnone => (ih.rests hnone).within hw⟩
  | @opened db archive before rules settings admitted ih =>
    have hopened := (ih.rests rfl).opened gen ih.archive admitted
    generalize Ledger.openOn db rules settings genesis = r at hopened ⊢
    obtain ⟨_ | l, db'⟩ := r
    · exact ⟨ih.archive, by simp [Except.toOption], fun _ => hopened⟩
    · refine ⟨ih.archive, fun l' hl => ?_, by simp [Except.toOption]⟩
      obtain rfl : l = l' := by simpa [Except.toOption] using hl
      exact hopened
  | @dropped db archive l before ih =>
    have hf := ih.follows l rfl
    rw [Ledger.closeOn_of_idle hf.idle]
    exact ⟨ih.archive, by simp, fun _ => ⟨hf.free, .inr ⟨_, hf.built.choose, hf.known,
      hf.built.choose_spec⟩⟩⟩
  | @called db archive l before call known ih =>
    have hf := (Follows.kept gen ih.archive).after_call known (ih.follows l rfl)
    refine ⟨ih.archive, fun l' hl => ?_, by simp⟩
    obtain rfl := Option.some.inj hl
    exact hf

/-- The stored headers are those of the ledger. -/
lemma Reachable.chainHeaders {genesis : ChainedHeader} {H : ChainedHeader → Prop}
    {P : Rules → Settings → Prop} (gen : GenuineHeaders genesis H) {db : Database}
    {archive : Archive} {l : Ledger} (run : Reachable genesis H P ⟨db, archive, some l⟩) :
    db.committed.tables.chainHeaders = .ok l.chain.headers := by
  have sound := run.sound gen
  have hf := sound.follows l rfl
  obtain ⟨t, built, agrees⟩ := hf.built
  exact Rests.chainHeaders gen sound.archive hf.known built agrees

/-- After any run, whatever was asked and whatever failed, the committed headers, unspent set and
counters are those of an empty store into which the chain of the ledger was built: genesis, then
every block above it, once, in order. If no journal is ever pruned, the journals are the same
too. -/
theorem history_independent {genesis : ChainedHeader} {H : ChainedHeader → Prop}
    {P : Rules → Settings → Prop} (gen : GenuineHeaders genesis H) {db : Database}
    {archive : Archive} {l : Ledger} (run : Reachable genesis H P ⟨db, archive, some l⟩) :
    ∃ s : Session, (l.chain.rebuild archive).on ⟨.fresh, .idle⟩ = (.ok l.chain, s) ∧
      db.committed.tables.headers = s.db.committed.tables.headers ∧
      db.committed.tables.unspent = s.db.committed.tables.unspent ∧
      db.committed.tables.counters = s.db.committed.tables.counters ∧
      (Unpruned P → db.committed.tables.spent = s.db.committed.tables.spent ∧
        db.committed.tables.unminted = s.db.committed.tables.unminted) := by
  have sound := run.sound gen
  have hf := sound.follows l rfl
  obtain ⟨t, built, agrees⟩ := hf.built
  obtain ⟨db', rfl, -, hon⟩ := built.on_rebuild sound.archive (gen.chain hf.known)
  exact ⟨_, hon, agrees.headers, agrees.unspent, agrees.counters, agrees.journals⟩

lemma Chain.nodup_headers (chain : Chain) : chain.headers.Nodup := by
  refine List.nodup_iff_injective_getElem.2 fun i j heq => ?_
  have hi := chain.heights i i.isLt
  have hj := chain.heights j j.isLt
  dsimp only at heq
  rw [heq, hj] at hi
  omega

/-- Finitely many headers are genuine if no two of them share a name. -/
lemma GenuineHeaders.of_list {genesis : ChainedHeader} {hs : List ChainedHeader}
    (mem : genesis ∈ hs) (real : ∀ h ∈ hs, h.hash = h.header.hash)
    (inj : ∀ a ∈ hs, ∀ b ∈ hs, a.hash = b.hash → a = b) : GenuineHeaders genesis (· ∈ hs) where
  genesis := mem
  real := real
  distinct chain known :=
    List.Nodup.map_on (fun a ha b hb => inj a (known a ha) b (known b hb)) chain.nodup_headers

/-- The session after some calls. -/
def Ledger.Call.runAll (archive : Archive) (calls : List Call) (s : LedgerSession) :
    LedgerSession :=
  calls.foldl (fun s call => ((call.run archive).on s).2) s

lemma Reachable.calls {genesis : ChainedHeader} {H : ChainedHeader → Prop}
    {P : Rules → Settings → Prop} {archive : Archive} {s : LedgerSession}
    (before : Reachable genesis H P ⟨s.db, archive, some s.ledger⟩) (calls : List Ledger.Call)
    (known : ∀ call ∈ calls, ∀ h ∈ call.headers, H h) :
    Reachable genesis H P ⟨(Ledger.Call.runAll archive calls s).db, archive,
      some (Ledger.Call.runAll archive calls s).ledger⟩ := by
  induction calls generalizing s with
  | nil => exact before
  | cons call rest ih =>
    exact ih (before.called (known call List.mem_cons_self))
      fun call' h => known call' (List.mem_cons_of_mem _ h)

/-- A ledger that was just opened on a fresh database. -/
lemma Reachable.start {H : ChainedHeader → Prop} {P : Rules → Settings → Prop}
    {rules : Rules} {settings : Settings} {genesis : ChainedHeader} {chain : Chain}
    {archive : Archive} (before : Reachable genesis H P ⟨.fresh, archive, none⟩)
    (admitted : P rules settings) (sole : chain.headers = [genesis]) (height : genesis.height = 0) :
    Reachable genesis H P ⟨(Ledger.openOn .fresh rules settings genesis).2, archive,
      some ⟨rules, settings, chain, .idle, 0⟩⟩ := by
  obtain ⟨chain', db, hheaders, -, -, hopen⟩ := Ledger.openOn_fresh rules settings height
  obtain rfl : chain' = chain := Chain.ext_headers (by rw [hheaders, sole])
  have hopened : Reachable genesis H P ⟨(Ledger.openOn .fresh rules settings genesis).2, archive,
      (Ledger.openOn .fresh rules settings genesis).1.toOption⟩ := before.opened admitted
  rw [hopen] at hopened ⊢
  exact hopened

def soleChain : Chain where
  headers := [soleGenesis]
  nonempty := List.cons_ne_nil _ _
  heights := by decide +kernel
  linked i hi := by simp at hi

def unprunedSettings : Settings := { Settings.deterministic with maxRollbackDepth := 0 }

def coinHeaders : List ChainedHeader := [soleGenesis, coinHeader, spendingHeader]

def coinStart : LedgerSession :=
  ⟨⟨.permissive fun _ => .accepted, unprunedSettings, soleChain, .idle, 0⟩,
    (Ledger.openOn .fresh (.permissive fun _ => .accepted) unprunedSettings soleGenesis).2⟩

/-- The coin is there. -/
def coinSession : LedgerSession := Ledger.Call.runAll coinArchive [.add coinHeader] coinStart

/-- The coin is spent. -/
def spentSession : LedgerSession := Ledger.Call.runAll coinArchive [.add spendingHeader] coinSession

/-- A coin comes in, cannot come in twice, is spent, and the block that spent it is undone. -/
def coinCalls : List Ledger.Call :=
  [.add coinHeader, .add coinHeader, .add spendingHeader, .removeTip]

lemma coinRun_evaluated :
    (Ledger.Call.runAll coinArchive coinCalls coinStart).ledger.chain.headers =
      [soleGenesis, coinHeader] ∧
    (∀ a ∈ coinHeaders, ∀ b ∈ coinHeaders, a.hash = b.hash → a = b) ∧
    (Archive.empty.add coinBlock).block? spendingBlock.hash = none ∧
    (Ledger.Call.runAll coinArchive coinCalls coinStart).db.committed.tables.unspent =
      coinTables.unspent := by decide +kernel

lemma coinHeaders_genuine : GenuineHeaders soleGenesis (· ∈ coinHeaders) := by
  refine .of_list List.mem_cons_self ?_ coinRun_evaluated.2.1
  simp only [coinHeaders, List.forall_mem_cons]
  exact ⟨rfl, ChainedHeader.hash_above _ _, ChainedHeader.hash_above _ _, by simp⟩

/-- A ledger on a fresh database, with both blocks in the archive. -/
lemma coinStart_reachable : Reachable soleGenesis (· ∈ coinHeaders)
    (fun _ settings => settings.maxRollbackDepth = 0)
    ⟨coinStart.db, coinArchive, some coinStart.ledger⟩ := by
  have stored : Reachable soleGenesis (· ∈ coinHeaders)
      (fun _ settings => settings.maxRollbackDepth = 0) ⟨.fresh, coinArchive, none⟩ := by
    refine (Reachable.fresh.stored coinBlock ?_ ?_).stored spendingBlock ?_ ?_
    · exact ⟨by decide, by decide, by decide⟩
    · simp [Archive.block?, Archive.empty]
    · exact ⟨by decide, by decide, by decide⟩
    · simp [coinRun_evaluated.2.2.1]
  exact stored.start rfl rfl rfl

lemma coinRun_reachable : Reachable soleGenesis (· ∈ coinHeaders)
    (fun _ settings => settings.maxRollbackDepth = 0)
    ⟨(Ledger.Call.runAll coinArchive coinCalls coinStart).db, coinArchive,
      some (Ledger.Call.runAll coinArchive coinCalls coinStart).ledger⟩ :=
  coinStart_reachable.calls coinCalls (by simp [coinCalls, coinHeaders, Ledger.Call.headers])

lemma coinRun_chainHeaders :
    (Ledger.Call.runAll coinArchive coinCalls coinStart).db.committed.tables.chainHeaders =
      .ok coinChain.headers := by
  rw [coinRun_reachable.chainHeaders coinHeaders_genuine, coinRun_evaluated.1, coinChain]

theorem history_independent_coins : ∃ db archive l,
    Reachable soleGenesis (· ∈ coinHeaders) (fun _ settings => settings.maxRollbackDepth = 0)
      ⟨db, archive, some l⟩ ∧
    l.chain.headers = [soleGenesis, coinHeader] ∧
    ∃ s : Session, (l.chain.rebuild archive).on ⟨.fresh, .idle⟩ = (.ok l.chain, s) ∧
      db.committed.tables.unspent = s.db.committed.tables.unspent ∧
      db.committed.tables.spent = s.db.committed.tables.spent := by
  have run := coinRun_reachable
  obtain ⟨s, hbuilt, -, hunspent, -, hjournals⟩ := history_independent coinHeaders_genuine run
  exact ⟨_, _, _, run, coinRun_evaluated.1, s, hbuilt, hunspent, (hjournals fun _ _ h => h).1⟩

end UtxoLedger

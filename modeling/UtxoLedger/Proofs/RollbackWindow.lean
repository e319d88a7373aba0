import Mathlib.Tactic.Common
import UtxoLedger.Proofs.ReplayAgreement
import UtxoLedger.Proofs.Trails

/-!
# The rollback window

A block that comes in brings its journal and prunes the one that its depth puts out of reach; a
block that goes takes its journal along. Only the highest tip so far decides what is left: below it
the tip may fall and rise again, and each block that comes in on the way prunes a journal that is
gone already. So the journals on record are those of the chain from the depth below the highest tip
on, and a tip that is still lower has none and can fall no further.
-/
namespace UtxoLedger

open Chain (Step)

/-- A header above genesis that lies at most `depth` below the height `top`; no depth at all covers
them all. -/
def ChainedHeader.Covered (depth : UInt32) (top : Nat) (h : ChainedHeader) : Prop :=
  1 ≤ h.height.toInt ∧ (depth ≠ 0 → (top : Int) - depth.toNat ≤ h.height.toInt)

instance (depth : UInt32) (top : Nat) (h : ChainedHeader) : Decidable (h.Covered depth top) :=
  inferInstanceAs (Decidable (_ ∧ _))

namespace Chain

variable {chain below : Chain} {header h : ChainedHeader}

lemma getElem?_eq_some_iff {n : Nat} :
    chain.headers[n]? = some h ↔ h ∈ chain.headers ∧ h.height.toInt = n := by
  constructor
  · intro hget
    obtain ⟨hn, rfl⟩ := List.getElem?_eq_some_iff.1 hget
    exact ⟨List.getElem_mem hn, chain.heights n hn⟩
  · rintro ⟨hmem, hheight⟩
    obtain ⟨i, hi, rfl⟩ := List.getElem_of_mem hmem
    obtain rfl : i = n := Int.ofNat_inj.1 ((chain.heights i hi).symm.trans hheight)
    exact List.getElem?_eq_getElem hi

/-- Headers at one height of a chain are one header. -/
lemma eq_of_height {a b : ChainedHeader} (ha : a ∈ chain.headers) (hb : b ∈ chain.headers)
    (height : a.height = b.height) : a = b := by
  obtain ⟨i, hi, rfl⟩ := List.getElem_of_mem ha
  have hget := getElem?_eq_some_iff.2 ⟨hb, by rw [← height, chain.heights i hi]⟩
  exact Option.some.inj ((List.getElem?_eq_getElem hi).symm.trans hget)

lemma height_le_tip (hh : h ∈ chain.headers) :
    0 ≤ h.height.toInt ∧ h.height.toInt ≤ chain.tip.height.toInt := by
  obtain ⟨i, hi, rfl⟩ := List.getElem_of_mem hh
  have htip : chain.tip.height.toInt = (chain.headers.length - 1 : Nat) := chain.toInt_height
  rw [chain.heights i hi, htip]
  omega

end Chain

/-- What is pruned lies just below the window of the block that comes in. -/
lemma Ledger.prunable?_eq_some {chain : Chain} {depth : UInt32} {height : Height}
    {old : ChainedHeader} : prunable? chain depth height = some old ↔
      depth ≠ 0 ∧ old ∈ chain.headers ∧ 1 ≤ old.height.toInt ∧
        old.height.toInt + depth.toNat + 1 = height.toInt := by
  unfold prunable?
  dsimp only
  split
  next hnone =>
    constructor
    · exact fun h => nomatch h
    · rintro ⟨hdepth, -, hpos, hheight⟩
      rcases hnone with hzero | hlow
      · exact absurd hzero hdepth
      · omega
  next hsome =>
    rw [not_or] at hsome
    rw [Chain.getElem?_eq_some_iff]
    constructor
    · rintro ⟨hmem, hheight⟩
      exact ⟨hsome.1, hmem, by omega, by omega⟩
    · rintro ⟨-, hmem, hpos, hheight⟩
      exact ⟨hmem, by omega⟩

/-- The window after a block came in covers what it covered before and the block, less what is
pruned. -/
lemma ChainedHeader.covered_of_grown {chain below : Chain} {header h : ChainedHeader}
    {depth : UInt32} {top : Nat} (grown : chain.headers = below.headers ++ [header])
    (le : below.tip.height.toInt ≤ top)
    (near : depth ≠ 0 → (top : Int) ≤ below.tip.height.toInt + depth.toNat + 1)
    (hh : h ∈ chain.headers) : h.Covered depth (max header.height.toInt.toNat top) ↔
      (h = header ∨ h.Covered depth top) ∧
        Ledger.prunable? below depth header.height ≠ some h := by
  have hnext := (Chain.extends_of_grown grown).1
  have hpos : 0 ≤ below.tip.height.toInt :=
    (Chain.height_le_tip (List.getLast_mem below.nonempty)).1
  rw [Ne, Ledger.prunable?_eq_some]
  by_cases hnew : h = header
  · subst hnew
    refine iff_of_true ⟨by omega, fun hdepth => ?_⟩ ⟨.inl rfl, fun hold => ?_⟩
    · have := near hdepth
      omega
    · have := (Chain.height_le_tip hold.2.1).2
      omega
  · have hmem : h ∈ below.headers := by simpa [grown, hnew] using hh
    have hheight := (Chain.height_le_tip hmem).2
    by_cases hdepth : depth = 0
    · simp [Covered, hdepth, hnew]
    · have := near hdepth
      simp only [Covered, hdepth, hnew, hmem, ne_eq, not_false_eq_true, forall_const, false_or,
        true_and]
      omega

namespace ChainedHeader

/-- The key of what a block spent. -/
def spentKey (h : ChainedHeader) : Bytes := Height.key h.height

/-- The key of what a block unminted. -/
def unmintedKey (h : ChainedHeader) : Bytes := h.hash.bytes

end ChainedHeader

namespace Chain

variable {chain : Chain} {a b : ChainedHeader}

lemma spentKey_inj (ha : a ∈ chain.headers) (hb : b ∈ chain.headers)
    (h : a.spentKey = b.spentKey) : a = b :=
  eq_of_height ha hb (Height.key_inj.1 h)

lemma unmintedKey_inj (distinct : (chain.headers.map ChainedHeader.hash).Nodup)
    (ha : a ∈ chain.headers) (hb : b ∈ chain.headers) (h : a.unmintedKey = b.unmintedKey) :
    a = b :=
  List.inj_on_of_nodup_map distinct ha hb (Hash.bytes_inj.1 h)

end Chain

/-- The keys of a journal table are those of the covered headers. -/
def Table.Marks (key : ChainedHeader → Bytes) (m : Table) (depth : UInt32) (top : Nat)
    (chain : Chain) : Prop :=
  ∀ k : Bytes, m[k]?.isSome = true ↔ ∃ h ∈ chain.headers, key h = k ∧ h.Covered depth top

/-- A journal table without the entry of a block that is pruned. -/
def Table.pruned (key : ChainedHeader → Bytes) (old? : Option ChainedHeader) (m : Table) : Table :=
  match old? with
  | some old => m.erase (key old)
  | none => m

namespace Table

variable {key : ChainedHeader → Bytes} {m : Table} {chain below : Chain} {header : ChainedHeader}
  {depth : UInt32} {top : Nat}

lemma isSome_pruned {old? : Option ChainedHeader} {k : Bytes} :
    (m.pruned key old?)[k]?.isSome = true ↔
      m[k]?.isSome = true ∧ ∀ old, old? = some old → key old ≠ k := by
  cases old? with
  | none => simp [pruned]
  | some old =>
    rw [pruned, getElem?_erase]
    by_cases hk : key old = k <;> simp [hk]

lemma isSome_insert {k k' v : Bytes} :
    (Std.ExtTreeMap.insert m k v)[k']?.isSome = true ↔ k = k' ∨ m[k']?.isSome = true := by
  rw [getElem?_insert]
  by_cases hk : k = k' <;> simp [hk]

/-- A block comes in. -/
lemma Marks.grown (marks : m.Marks key depth top below)
    (inj : ∀ a ∈ chain.headers, ∀ b ∈ chain.headers, key a = key b → a = b)
    (grown : chain.headers = below.headers ++ [header])
    (le : below.tip.height.toInt ≤ top)
    (near : depth ≠ 0 → (top : Int) ≤ below.tip.height.toInt + depth.toNat + 1) (v : Bytes) :
    Marks key (pruned key (Ledger.prunable? below depth header.height)
        (Std.ExtTreeMap.insert m (key header) v)) depth
      (max header.height.toInt.toNat top) chain := by
  have hsub : ∀ h ∈ below.headers, h ∈ chain.headers := fun h hh => by simp [grown, hh]
  have hheader : header ∈ chain.headers := by simp [grown]
  intro k
  rw [isSome_pruned, isSome_insert, marks k]
  constructor
  · rintro ⟨hentry, hkept⟩
    obtain ⟨h, hh, hkey, hcovered⟩ : ∃ h ∈ chain.headers, key h = k ∧
        (h = header ∨ h.Covered depth top) := by
      rcases hentry with hkey | ⟨h, hh, hkey, hcovered⟩
      · exact ⟨header, hheader, hkey, .inl rfl⟩
      · exact ⟨h, hsub h hh, hkey, .inr hcovered⟩
    refine ⟨h, hh, hkey, (ChainedHeader.covered_of_grown grown le near hh).2 ⟨hcovered, ?_⟩⟩
    exact fun hold => hkept h hold hkey
  · rintro ⟨h, hh, hkey, hcovered⟩
    obtain ⟨hbefore, hkept⟩ := (ChainedHeader.covered_of_grown grown le near hh).1 hcovered
    constructor
    · by_cases hnew : h = header
      · exact .inl (hnew ▸ hkey)
      · have hmem : h ∈ below.headers := by simpa [grown, hnew] using hh
        exact .inr ⟨h, hmem, hkey, hbefore.resolve_left hnew⟩
    · intro old hold heq
      obtain ⟨-, hmem, -⟩ := Ledger.prunable?_eq_some.1 hold
      obtain rfl := inj old (hsub old hmem) h hh (heq.trans hkey.symm)
      exact hkept hold

/-- The place of the next header is free. -/
lemma Marks.free_above (marks : m.Marks key depth top below)
    (inj : ∀ a ∈ chain.headers, ∀ b ∈ chain.headers, key a = key b → a = b)
    (grown : chain.headers = below.headers ++ [header]) : m[key header]? = none := by
  have hnext := (Chain.extends_of_grown grown).1
  rw [← Option.not_isSome_iff_eq_none, marks]
  rintro ⟨h, hh, hkey, -⟩
  obtain rfl := inj h (by simp [grown, hh]) header (by simp [grown]) hkey
  have := (Chain.height_le_tip hh).2
  omega

/-- A block goes. -/
lemma Marks.shrunk (marks : m.Marks key depth top chain)
    (inj : ∀ a ∈ chain.headers, ∀ b ∈ chain.headers, key a = key b → a = b)
    (grown : chain.headers = below.headers ++ [header]) :
    Marks key (Std.ExtTreeMap.erase m (key header)) depth top below := by
  have hnext := (Chain.extends_of_grown grown).1
  intro k
  rw [getElem?_erase]
  constructor
  · intro hentry
    split at hentry
    · exact nomatch hentry
    next hother =>
      obtain ⟨h, hh, hkey, hcovered⟩ := (marks k).1 hentry
      have hmem : h ∈ below.headers := by
        rw [grown, List.mem_append, List.mem_singleton] at hh
        rcases hh with hh | rfl
        · exact hh
        · exact absurd hkey hother
      exact ⟨h, hmem, hkey, hcovered⟩
  · rintro ⟨h, hh, hkey, hcovered⟩
    have hne : h ≠ header := by
      rintro rfl
      have := (Chain.height_le_tip hh).2
      omega
    have hmem : h ∈ chain.headers := by simp [grown, hh]
    have hother : key header ≠ k := fun heq =>
      hne (inj h hmem header (by simp [grown]) (hkey.trans heq.symm))
    rw [if_neg hother]
    exact (marks k).2 ⟨h, hmem, hkey, hcovered⟩

end Table

/-- Both journals are those that the window covers, and the tip is at most one block below it. -/
structure Windowed (depth : UInt32) (top : Nat) (chain : Chain) (t : Tables) : Prop where
  spent : t.spent.Marks ChainedHeader.spentKey depth top chain
  unminted : t.unminted.Marks ChainedHeader.unmintedKey depth top chain
  le : chain.tip.height.toInt ≤ top
  near : depth ≠ 0 → (top : Int) ≤ chain.tip.height.toInt + depth.toNat + 1

/-- A connected block leaves its journal, and takes the pruned one away. -/
lemma Ledger.Connected.journals {l : Ledger} {archive : Archive} {header : ChainedHeader}
    {block : Block} {t t' : Tables} (h : l.Connected archive header block t t')
    (spent : t.spent[header.spentKey]? = none) (unminted : t.unminted[header.unmintedKey]? = none) :
    ∃ v w, t'.spent = Table.pruned ChainedHeader.spentKey
        (prunable? l.chain l.settings.maxRollbackDepth header.height)
        (t.spent.insert header.spentKey v) ∧
      t'.unminted = Table.pruned ChainedHeader.unmintedKey
        (prunable? l.chain l.settings.maxRollbackDepth header.height)
        (t.unminted.insert header.unmintedKey w) := by
  obtain ⟨start, connects, close, -, -⟩ := h
  rename_i c c' loaded items U counters t₁
  obtain ⟨-, -, -, cs, -, rfl, -⟩ := Connecting.staged_start_eq_ok.1 start
  have hlocator : c'.locator = ⟨archive, header, block⟩ := connects.same.1
  obtain ⟨-, -, rfl⟩ := (Connecting.staged_close_eq_ok (by rw [hlocator]; exact spent)
    (by rw [hlocator]; exact unminted)).1 close
  refine ⟨c'.journal.spent.encode, c'.journal.unminted.encode, ?_⟩
  unfold Ledger.pruned Table.pruned
  cases prunable? l.chain l.settings.maxRollbackDepth header.height with
  | none => simp [Connecting.closed, hlocator, ChainedHeader.spentKey, ChainedHeader.unmintedKey]
  | some old =>
    simp [Connecting.closed, Tables.withoutJournal, hlocator, ChainedHeader.spentKey,
      ChainedHeader.unmintedKey]

namespace Windowed

variable {archive : Archive} {chain below : Chain} {header : ChainedHeader} {block : Block}
  {t t' : Tables} {depth : UInt32} {top : Nat}

/-- A genesis header alone has no journal, and is not covered. -/
lemma genesis (sole : chain.headers = [header]) :
    Windowed depth (max chain.tip.height.toInt.toNat 0) chain (Ledger.seedTables header) := by
  have hheight : header.height.toInt = 0 := by
    have := chain.heights 0 chain.length_pos
    simpa [sole] using this
  have htip : chain.tip = header := by simp [Chain.tip, sole]
  have marks (key : ChainedHeader → Bytes) : Table.Marks key ∅ depth 0 chain := by
    intro k
    refine iff_of_false (by simp) ?_
    rintro ⟨h, hh, -, hcovered⟩
    rw [sole, List.mem_singleton] at hh
    have := hh ▸ hcovered.1
    omega
  rw [htip, hheight]
  refine ⟨marks _, marks _, ?_, fun _ => ?_⟩
  · rw [htip]
    omega
  · rw [htip]
    omega

lemma grown {l : Ledger} (window : Windowed l.settings.maxRollbackDepth top l.chain t)
    (connected : l.Connected archive header block t t')
    (grown : chain.headers = l.chain.headers ++ [header])
    (distinct : (chain.headers.map ChainedHeader.hash).Nodup) :
    Windowed l.settings.maxRollbackDepth (max header.height.toInt.toNat top) chain t' := by
  have hspent : ∀ a ∈ chain.headers, ∀ b ∈ chain.headers, a.spentKey = b.spentKey → a = b :=
    fun a ha b hb => Chain.spentKey_inj ha hb
  have hunminted : ∀ a ∈ chain.headers, ∀ b ∈ chain.headers,
      a.unmintedKey = b.unmintedKey → a = b := fun a ha b hb => Chain.unmintedKey_inj distinct ha hb
  have hnext := (Chain.extends_of_grown grown).1
  have htip : chain.tip = header := Chain.tip_of_grown grown
  obtain ⟨v, w, hs, hu⟩ := connected.journals (window.spent.free_above hspent grown)
    (window.unminted.free_above hunminted grown)
  refine ⟨?_, ?_, ?_, fun hdepth => ?_⟩
  · rw [hs]
    exact window.spent.grown hspent grown window.le window.near v
  · rw [hu]
    exact window.unminted.grown hunminted grown window.le window.near w
  · rw [htip]
    omega
  · have := window.near hdepth
    rw [htip]
    omega

/-- A block that goes was covered, so the tip below it is at most one block out of the window. -/
lemma shrunk (window : Windowed depth top chain t)
    (grown : chain.headers = below.headers ++ [header])
    (distinct : (chain.headers.map ChainedHeader.hash).Nodup)
    (entry : t.spent[header.spentKey]?.isSome = true)
    (spent : t'.spent = t.spent.erase header.spentKey)
    (unminted : t'.unminted = t.unminted.erase header.unmintedKey) :
    Windowed depth top below t' := by
  have hnext := (Chain.extends_of_grown grown).1
  have htip : chain.tip = header := Chain.tip_of_grown grown
  have hheader : header ∈ chain.headers := by simp [grown]
  have hle := window.le
  rw [htip] at hle
  refine ⟨?_, ?_, by omega, fun hdepth => ?_⟩
  · rw [spent]
    exact window.spent.shrunk (fun a ha b hb => Chain.spentKey_inj ha hb) grown
  · rw [unminted]
    exact window.unminted.shrunk (fun a ha b hb => Chain.unmintedKey_inj distinct ha hb) grown
  · obtain ⟨h, hh, hkey, hcovered⟩ := (window.spent header.spentKey).1 entry
    obtain rfl := Chain.spentKey_inj hh hheader hkey
    have := hcovered.2 hdepth
    omega

end Windowed

/-- An empty store, or that of a chain with just the journals that the window covers. -/
def Tables.KeepsWindow (depth : UInt32) (top : Nat) (t : Tables) : Prop :=
  t = .empty ∧ top = 0 ∨
    ∃ chain : Chain, t.chainHeaders = .ok chain.headers ∧ Windowed depth top chain t

/-- The height of the stored tip, or zero for an empty store. -/
def Database.top (db : Database) : Nat :=
  match db.committed.tables.tip? with
  | .ok (some tip) => tip.height.toInt.toNat
  | _ => 0

variable {H : ChainedHeader → Prop} {P : Rules → Settings → Prop} {archive : Archive}
  {depth : UInt32} {top : Nat}

namespace Stored

variable {db : Database} {chain : Chain}

lemma tip?_of_chainHeaders (named : Traceable H) (sound : archive.Sound)
    (hs : Stored H P archive db) (headers : db.committed.tables.chainHeaders = .ok chain.headers) :
    db.committed.tables.tip? = .ok (some chain.tip) := by
  obtain ⟨known, t, vetted, agrees⟩ := hs.of_chainHeaders named sound headers
  exact (chainHeaders_tip? named sound known vetted agrees).2

lemma top_eq (named : Traceable H) (sound : archive.Sound) (hs : Stored H P archive db)
    (headers : db.committed.tables.chainHeaders = .ok chain.headers) :
    db.top = chain.tip.height.toInt.toNat := by
  rw [Database.top, hs.tip?_of_chainHeaders named sound headers]

/-- The stored tip is no higher than the highest. -/
lemma max_top (named : Traceable H) (sound : archive.Sound) (hs : Stored H P archive db)
    (keeps : db.committed.tables.KeepsWindow depth top) : max db.top top = top := by
  apply Nat.max_eq_right
  rcases keeps with ⟨hempty, -⟩ | ⟨chain, headers, window⟩
  · rw [Database.top, hempty]
    exact Nat.zero_le _
  · have := window.le
    rw [hs.top_eq named sound headers]
    omega

/-- Where the tables stay as they are, so does the window. -/
lemma unmoved (named : Traceable H) (sound : archive.Sound) (hs : Stored H P archive db)
    {db' : Database} (same : db'.committed.tables = db.committed.tables)
    (keeps : db.committed.tables.KeepsWindow depth top) :
    db'.committed.tables.KeepsWindow depth (max db'.top top) := by
  have htop : db'.top = db.top := by rw [Database.top, Database.top, same]
  rw [same, htop, hs.max_top named sound keeps]
  exact keeps

end Stored

namespace Shares

variable {s s' : LedgerSession} {header : ChainedHeader}

/-- The stored chain of a ledger that is up to date is its own. -/
lemma windowed (hs : s.db.committed.tables.KeepsWindow depth top)
    (current : s.db.committed.tables.chainHeaders = .ok s.ledger.chain.headers) :
    Windowed depth top s.ledger.chain s.db.committed.tables := by
  rcases hs with ⟨hempty, -⟩ | ⟨chain, headers, window⟩
  · rw [hempty] at current
    exact absurd (Except.ok.inj current).symm s.ledger.chain.nonempty
  · obtain rfl := Chain.ext_headers (Except.ok.inj (headers.symm.trans current))
    exact window

lemma add_keeps (named : Traceable H) (sound : archive.Sound) (hs : Shares H P archive s)
    (uniform : s.ledger.settings.maxRollbackDepth = depth) (hH : H header)
    (hon : (Ledger.add archive header).on s = (.ok (), s'))
    (keeps : s.db.committed.tables.KeepsWindow depth top) :
    s'.db.committed.tables.KeepsWindow depth (max s'.db.top top) := by
  obtain ⟨-, hs', -⟩ := hs.add named sound hH hon
  obtain ⟨current, next⟩ := hs.add_moves named sound hH hon
  have window := windowed keeps current
  subst uniform
  have hadded := Ledger.added hs.serves.idle archive header
  rw [hon] at hadded
  cases hadded with
  | @connected block t chain s' found free staged grown moved =>
    have grown := (Chain.add_eq_ok.1 grown).2
    have known := (Chain.forall_mem_iff_of_grown grown).2 ⟨hs.serves.known, hH⟩
    rw [← grown] at next
    rw [hs'.stored.top_eq named sound next, Chain.tip_of_grown grown]
    refine .inr ⟨chain, next, ?_⟩
    rw [moved.tables]
    exact window.grown (Ledger.connected_of_staged staged) grown (named.distinct chain known)

lemma removeTip_keeps (named : Traceable H) (sound : archive.Sound) (hs : Shares H P archive s)
    (hon : (Ledger.removeTip archive).on s = (.ok header, s'))
    (keeps : s.db.committed.tables.KeepsWindow depth top) :
    s'.db.committed.tables.KeepsWindow depth top := by
  obtain ⟨⟨t, vetted, agrees⟩, hs', after⟩ := hs.removeTip named sound hon
  obtain ⟨-, -, current, -⟩ := hs.removeTip_moves named sound hon
  have window := windowed keeps current
  have next := (hs'.upToDate_iff named sound).1 after
  have genuine := named.genuine hs.serves.known
  have hremoved := Ledger.removed hs.serves.idle archive
  rw [hon] at hremoved
  cases hremoved with
  | @disconnected block live' chain s' above found free staged shrunk moved =>
    obtain ⟨cs, hwhole⟩ := Ledger.staged_disconnectBlock.1 staged
    obtain ⟨⟨v, hv⟩, -⟩ := Disconnecting.recorded_of_staged_whole hwhole
    obtain ⟨below, block', t₀, -, grown, found', hsucceeds, -⟩ :=
      vetted.built.undo sound genuine agrees above
    cases found.symm.trans found'
    obtain ⟨-, -, cs', rfl⟩ := hsucceeds cs live' hwhole
    obtain rfl := Chain.eq_of_removed above shrunk grown
    rw [moved.chain] at next
    refine .inr ⟨chain, next, ?_⟩
    rw [moved.tables]
    refine window.shrunk grown genuine.distinct (by simp [ChainedHeader.spentKey, hv]) ?_ ?_
    · simp [Disconnecting.reopened, Tables.withoutJournal, ChainedHeader.spentKey]
    · simp [Disconnecting.reopened, Tables.withoutJournal, ChainedHeader.unmintedKey]

/-- The highest tip may be that of the call itself. -/
lemma call_keeps (named : Traceable H) (sound : archive.Sound) (hs : Shares H P archive s)
    (uniform : s.ledger.settings.maxRollbackDepth = depth) {call : Ledger.Call}
    (known : ∀ h ∈ call.headers, H h) (single : call.Single)
    (keeps : s.db.committed.tables.KeepsWindow depth top) :
    ((call.run archive).on s).2.db.committed.tables.KeepsWindow depth
      (max ((call.run archive).on s).2.db.top top) := by
  have unmoved {s' : LedgerSession} (same : s'.db.committed.tables = s.db.committed.tables) :
      s'.db.committed.tables.KeepsWindow depth (max s'.db.top top) :=
    hs.stored.unmoved named sound same keeps
  cases call with
  | add header =>
    rw [Ledger.Call.run]
    have hadded := Ledger.added hs.serves.idle archive header
    generalize hon : (Ledger.add archive header).on s = result at hadded
    cases hadded with
    | refused => exact unmoved rfl
    | connected =>
      exact hs.add_keeps named sound uniform (known header List.mem_cons_self) hon keeps
  | removeTip =>
    have hremoved := Ledger.removed hs.serves.idle archive
    generalize hon : (Ledger.removeTip archive).on s = result at hremoved
    cases hremoved with
    | refused =>
      rw [Ledger.Call.run, LedgerM.on_bind_of_error hon]
      exact unmoved rfl
    | disconnected =>
      obtain ⟨-, hs', -⟩ := hs.removeTip named sound hon
      have keeps' := hs.removeTip_keeps named sound hon keeps
      rw [Ledger.Call.run, LedgerM.on_bind_of_ok hon, LedgerM.on_pure]
      rwa [hs'.stored.max_top named sound keeps']
  | flush | defragment => exact unmoved rfl
  | counters =>
    exact unmoved (Ledger.after_bind (P := fun s' => s'.db.committed.tables =
      s.db.committed.tables) rfl fun _ _ h => h)
  | navigateTo | reorganizeIfBetter => exact single.elim

end Shares

/-- Where both entries of a block are on record, they are those that connecting it left, and so they
can be read. -/
lemma Agrees.exists_journal {chain : Chain} {full : Prop} {live t : Tables} {h : ChainedHeader}
    (agrees : Agrees full live t) (built : Built archive chain t) (sound : archive.Sound)
    (genuine : chain.Genuine) (mem : h ∈ chain.headers) (above : 1 ≤ h.height.toInt)
    (spent : live.spent[h.spentKey]?.isSome = true)
    (unminted : live.unminted[h.unmintedKey]?.isSome = true) :
    ∃ j, Journal.find? live h = .ok (some j) := by
  obtain ⟨below, block, t₀, cs, loaded, c, U, -, found, -, connects, -, -, hspent, hunminted⟩ :=
    built.recorded genuine mem (by omega)
  obtain ⟨-, bounds⟩ := sound _ _ found
  obtain ⟨entries, hentries, describes⟩ := connects.describes
  obtain ⟨v, hv⟩ := Option.isSome_iff_exists.1 spent
  obtain ⟨w, hw⟩ := Option.isSome_iff_exists.1 unminted
  obtain rfl := Option.some.inj ((agrees.spent _ _ hv).symm.trans hspent)
  obtain rfl := Option.some.inj ((agrees.unminted _ _ hw).symm.trans hunminted)
  refine ⟨c.journal, Journal.find?_eq_some.2 ⟨?_, ?_⟩⟩
  · exact Disconnecting.spent?_of_entry connects bounds hv
  · rw [← show c.journal.unminted = entries from hentries] at describes
    exact Disconnecting.unminted?_of_entry describes bounds hw

namespace Hub

/-- The height of the highest tip on a trail. -/
def peak : List Hub → Nat
  | [] => 0
  | n :: past => max n.db.top (peak past)

/-- Each hub of a trail is sound, and keeps the window below the highest tip until then. -/
def Watched (H : ChainedHeader → Prop) (P : Rules → Settings → Prop) (depth : UInt32) :
    List Hub → Prop
  | [] => True
  | n :: past => n.Sound H P ∧ n.db.committed.tables.KeepsWindow depth (peak (n :: past)) ∧
      Watched H P depth past

namespace Watched

variable {n : Hub} {past hubs : List Hub} {others more : List Ledger} {s : LedgerSession}

lemma of_suffix (watched : Watched H P depth hubs) (suffix : n :: past <:+ hubs) :
    n.Sound H P ∧ n.db.committed.tables.KeepsWindow depth (peak (n :: past)) := by
  induction hubs with
  | nil => exact absurd (List.suffix_nil.1 suffix) (List.cons_ne_nil _ _)
  | cons n' past' ih =>
    rcases List.suffix_cons_iff.1 suffix with heq | hlater
    · cases heq
      exact ⟨watched.1, watched.2.1⟩
    · exact ih watched.2.2 hlater

/-- A hub that leaves the tables as they are. -/
lemma unmoved (named : Traceable H) (watched : Watched H P depth (n :: past)) {n' : Hub}
    (sound : n'.Sound H P) (same : n'.db.committed.tables = n.db.committed.tables) :
    Watched H P depth (n' :: n :: past) :=
  ⟨sound, watched.1.stored.unmoved named watched.1.archive same watched.2.1, watched⟩

/-- A call that is over after one session. -/
lemma asked (named : Traceable H)
    (uniform : ∀ rules settings, P rules settings → settings.maxRollbackDepth = depth)
    (watched : Watched H P depth (ofSession archive others more s :: past))
    {call : Ledger.Call} (known : ∀ h ∈ call.headers, H h) (single : call.Single) :
    Watched H P depth (ofSession archive others more ((call.run archive).on s).2 ::
      ofSession archive others more s :: past) := by
  have hs : Shares H P archive s :=
    ⟨watched.1.serves s.ledger (by simp [ofSession]), watched.1.stored⟩
  have keeps := hs.call_keeps named watched.1.archive (uniform _ _ hs.serves.admitted) known single
    watched.2.1
  exact ⟨Hub.Sound.called (l := s.ledger) named watched.1 known, keeps, watched⟩

/-- The store of a genesis header has no journal, and needs none. -/
lemma opened (named : Traceable H) {db : Database} {ledgers : List Ledger}
    (watched : Watched H P depth (⟨db, archive, ledgers⟩ :: past)) {genesis : ChainedHeader}
    (known : H genesis) {rules : Rules} {settings : Settings} (admitted : P rules settings) :
    Watched H P depth (⟨(Ledger.openOn db rules settings genesis).2, archive,
      (Ledger.openOn db rules settings genesis).1.toOption.toList ++ ledgers⟩ ::
        ⟨db, archive, ledgers⟩ :: past) := by
  have sound' := watched.1.opened named known admitted
  have hopened := Ledger.opening db rules settings genesis
  generalize Ledger.openOn db rules settings genesis = result at hopened sound' ⊢
  cases hopened with
  | loaded | refused => exact watched.unmoved named sound' rfl
  | @seeded t chain n height empty free staged headers =>
    refine ⟨sound', ?_, watched⟩
    rcases watched.2.1 with ⟨hempty, hpeak⟩ | ⟨stored, filled, -⟩
    · change db.committed.tables = .empty at hempty
      rw [hempty] at staged
      cases (Ledger.staged_seeding genesis).symm.trans staged
      have hchain : ∀ h ∈ chain.headers, H h := by simp [headers, known]
      have genuine := named.genuine hchain
      have built : Built archive chain (Ledger.seedTables genesis) := .genesis headers
      have filled := (built.solid watched.1.archive genuine).chainHeaders genuine
      refine .inr ⟨chain, filled, ?_⟩
      rw [peak, hpeak, sound'.stored.top_eq named sound'.archive filled]
      exact .genesis headers
    · exact absurd (Except.ok.inj (filled.symm.trans empty)) stored.nonempty

end Watched

/-- The window is kept all along. -/
lemma Trail.watched (named : Traceable H)
    (uniform : ∀ rules settings, P rules settings → settings.maxRollbackDepth = depth)
    {hubs : List Hub} (trail : Trail H P hubs) : Watched H P depth hubs := by
  induction trail with
  | fresh => exact ⟨.fresh, .inl ⟨rfl, rfl⟩, trivial⟩
  | stored _ block bounds same ih => exact ih.unmoved named (ih.1.add bounds same) rfl
  | opened _ known admitted ih => exact ih.opened named known admitted
  | @dropped db archive others more l past _ ih =>
    have idle : l.cursor = .idle := (ih.1.serves l (by simp)).idle
    refine ih.unmoved named ih.1.dropped ?_
    rw [Ledger.closeOn_of_idle idle]
  | called _ known ih =>
    exact kept_by_call (fun watched known single => watched.asked named uniform known single)
      known ih

end Hub

/-- On any run, and at every moment of it, both journals of a block are on record and readable if
the block lies on the stored chain, above genesis, and no deeper below the highest tip until then
than a rollback may go; no other height and no other name has one. So the tip cannot have come
further down than one block below that depth. The moments are those of a trail, and every run of
ledgers leaves one (`Hub.Reached.exists_trail`). -/
theorem journals_cover_window (named : Traceable H)
    (uniform : ∀ rules settings, P rules settings → settings.maxRollbackDepth = depth)
    {hubs past : List Hub} {n : Hub} (run : Hub.Trail H P hubs) (moment : n :: past <:+ hubs) :
    ∃ headers, n.db.committed.tables.chainHeaders = .ok headers ∧
      (∀ header ∈ headers, header.Covered depth (Hub.peak (n :: past)) →
        ∃ j, Journal.find? n.db.committed.tables header = .ok (some j)) ∧
      (∀ height, (∀ header ∈ headers, header.height = height →
          ¬ header.Covered depth (Hub.peak (n :: past))) →
        n.db.committed.tables.spent? height = .ok none) ∧
      (∀ hash, (∀ header ∈ headers, header.hash = hash →
          ¬ header.Covered depth (Hub.peak (n :: past))) →
        n.db.committed.tables.unminted? hash = .ok none) ∧
      (depth ≠ 0 → ∀ tip ∈ headers.getLast?,
        (Hub.peak (n :: past) : Int) - depth.toNat - 1 ≤ tip.height.toInt) := by
  obtain ⟨sound, keeps⟩ := (run.watched named uniform).of_suffix moment
  rcases keeps with ⟨hempty, -⟩ | ⟨chain, headers, window⟩
  · rw [hempty]
    refine ⟨[], rfl, by simp, fun height _ => ?_, fun hash _ => ?_, by simp⟩
    · exact Tables.record?_eq_none.2 (by simp [Tables.get, Tables.empty])
    · exact Tables.record?_eq_none.2 (by simp [Tables.get, Tables.empty])
  · obtain ⟨known, t, vetted, agrees⟩ := sound.stored.of_chainHeaders named sound.archive headers
    refine ⟨chain.headers, headers, fun header mem covered => ?_, fun height bare => ?_,
      fun hash bare => ?_, fun hdepth tip htip => ?_⟩
    · exact agrees.exists_journal vetted.built sound.archive (named.genuine known) mem covered.1
        ((window.spent _).2 ⟨header, mem, rfl, covered⟩)
        ((window.unminted _).2 ⟨header, mem, rfl, covered⟩)
    · refine Tables.record?_eq_none.2 (Option.not_isSome_iff_eq_none.1 fun hentry => ?_)
      obtain ⟨header, mem, hkey, covered⟩ := (window.spent _).1 hentry
      exact bare header mem (Height.key_inj.1 hkey) covered
    · refine Tables.record?_eq_none.2 (Option.not_isSome_iff_eq_none.1 fun hentry => ?_)
      obtain ⟨header, mem, hkey, covered⟩ := (window.unminted _).1 hentry
      exact bare header mem (Hash.bytes_inj.1 hkey) covered
    · have hlast : chain.headers.getLast? = some chain.tip :=
        List.getLast?_eq_some_getLast chain.nonempty
      obtain rfl : chain.tip = tip := Option.some.inj (hlast.symm.trans htip)
      have := window.near hdepth
      omega

def shallowSettings : Settings := { Settings.deterministic with maxRollbackDepth := 1 }

def secondBlock : Block := blockAbove coinHeader [coinbase 2]

def secondHeader : ChainedHeader := coinHeader.above secondBlock.header

def thirdBlock : Block := blockAbove secondHeader [coinbase 3]

def thirdHeader : ChainedHeader := secondHeader.above thirdBlock.header

def minedChain : Chain where
  headers := [soleGenesis, coinHeader, secondHeader, thirdHeader]
  nonempty := List.cons_ne_nil _ _
  heights := by decide +kernel
  linked i hi := by
    obtain rfl | rfl | rfl : i = 0 ∨ i = 1 ∨ i = 2 := by
      simp only [List.length_cons, List.length_nil] at hi
      omega
    all_goals rfl

def minedArchive : Archive := ((Archive.empty.add coinBlock).add secondBlock).add thirdBlock

def minedStart : LedgerSession :=
  ⟨⟨.permissive fun _ => .accepted, shallowSettings, soleChain, .idle, 0⟩,
    (Ledger.openOn .fresh (.permissive fun _ => .accepted) shallowSettings soleGenesis).2⟩

lemma minedRun_evaluated :
    ((Ledger.Call.navigateTo minedChain).stops minedArchive minedStart).map
        (fun s => (s.db.top, s.db.committed.tables.chainHeaders)) =
      [(1, .ok [soleGenesis, coinHeader]), (2, .ok [soleGenesis, coinHeader, secondHeader]),
        (3, .ok minedChain.headers)] ∧
    minedStart.db.top = 0 ∧
    (∀ a ∈ minedChain.headers, ∀ b ∈ minedChain.headers, a.hash = b.hash → a = b) ∧
    (Archive.empty.add coinBlock).block? secondBlock.hash = none ∧
    ((Archive.empty.add coinBlock).add secondBlock).block? thirdBlock.hash = none := by
  decide +kernel

lemma minedHeaders_apart : NamedApart (· ∈ minedChain.headers) where
  real := by
    simp only [minedChain, List.forall_mem_cons]
    exact ⟨rfl, ChainedHeader.hash_above _ _, ChainedHeader.hash_above _ _,
      ChainedHeader.hash_above _ _, by simp⟩
  apart a b ha hb := minedRun_evaluated.2.2.1 a ha b hb

/-- A ledger that keeps the journals of two blocks goes from genesis through three. -/
lemma minedRun_trail : ∃ n past, Hub.Trail (· ∈ minedChain.headers)
      (fun _ settings => settings.maxRollbackDepth = 1) (n :: past) ∧
    Hub.peak (n :: past) = 3 ∧
    n.db.committed.tables.chainHeaders = .ok minedChain.headers := by
  obtain ⟨walked, start, -, second, third⟩ := minedRun_evaluated
  have stored : Hub.Trail (· ∈ minedChain.headers)
      (fun _ settings => settings.maxRollbackDepth = 1) (⟨.fresh, minedArchive, []⟩ :: _) :=
    ((Hub.Trail.fresh.stored coinBlock ⟨by decide, by decide, by decide⟩
      (by simp [Archive.block?, Archive.empty])).stored secondBlock
      ⟨by decide, by decide, by decide⟩ (by simp [second])).stored thirdBlock
      ⟨by decide, by decide, by decide⟩ (by simp [third])
  have opened : Hub.Trail (· ∈ minedChain.headers)
      (fun _ settings => settings.maxRollbackDepth = 1)
      (Hub.ofSession minedArchive [] [] minedStart :: _) :=
    stored.start List.mem_cons_self rfl rfl rfl
  have trail := @Hub.Trail.called _ _ _ _ _ _ _ opened (.navigateTo minedChain) fun _ hh => hh
  generalize (Ledger.Call.navigateTo minedChain).stops minedArchive minedStart = stops
    at walked trail
  simp only [List.map_eq_cons_iff, List.map_eq_nil_iff, Prod.mk.injEq] at walked
  obtain ⟨s₁, -, rfl, ⟨top₁, -⟩, s₂, -, rfl, ⟨top₂, -⟩, s₃, -, rfl, ⟨top₃, headers⟩, rfl⟩ := walked
  have fresh : Database.top .fresh = 0 := rfl
  exact ⟨_, _, trail, by simp [Hub.peak, Hub.ofSession, top₁, top₂, top₃, start, fresh], headers⟩

theorem journals_cover_window_shallow : ∃ n past, Hub.Trail (· ∈ minedChain.headers)
      (fun _ settings => settings.maxRollbackDepth = 1) (n :: past) ∧
    Hub.peak (n :: past) = 3 ∧
    n.db.committed.tables.chainHeaders = .ok minedChain.headers ∧
    n.db.committed.tables.spent? coinHeader.height = .ok none ∧
    n.db.committed.tables.unminted? coinHeader.hash = .ok none ∧
    (∃ j, Journal.find? n.db.committed.tables secondHeader = .ok (some j)) ∧
    ∃ j, Journal.find? n.db.committed.tables thirdHeader = .ok (some j) := by
  obtain ⟨n, past, trail, peak, stored⟩ := minedRun_trail
  obtain ⟨headers, hheaders, covered, spent, unminted, -⟩ := journals_cover_window
    minedHeaders_apart.traceable (fun _ _ admitted => admitted) trail List.suffix_rfl
  cases stored.symm.trans hheaders
  rw [peak] at covered spent unminted
  have coin : coinHeader ∈ minedChain.headers := by simp [minedChain]
  have second : secondHeader ∈ minedChain.headers := by simp [minedChain]
  have third : thirdHeader ∈ minedChain.headers := by simp [minedChain]
  obtain ⟨hcoin, hsecond, hthird⟩ : ¬ coinHeader.Covered 1 3 ∧ secondHeader.Covered 1 3 ∧
      thirdHeader.Covered 1 3 := by decide +kernel
  refine ⟨n, past, trail, peak, stored, spent _ fun h mem height => ?_,
    unminted _ fun h mem hash => ?_, covered _ second hsecond, covered _ third hthird⟩
  · rwa [Chain.eq_of_height mem coin height]
  · rwa [minedHeaders_apart.apart _ _ mem coin hash]

end UtxoLedger

import Mathlib.Tactic.Common
import UtxoLedger.Proofs.BlockYields
import UtxoLedger.Proofs.HistoryIndependence

/-!
# The stored chain of a ledger

The record of a header holds its fields, its height and its work; its name is worked out again when
it is read. A ledger takes headers as they are given, so the name that it goes by need not be the
one that is read back. Before a block moves, though, the name of the tip is compared with the stored
one: below the tip every header bears the name of its fields, and a tip that does not can neither be
built upon nor taken back.
-/
namespace UtxoLedger

open StoreM

namespace StoreM

variable {α β : Type}

/-- Work that leaves the headers as they are. -/
class SparesHeaders (act : StoreM α) : Prop where
  headers_eq : ∀ {t t' : Tables} {a : α}, act.staged t = .ok (a, t') → t'.headers = t.headers

lemma SparesHeaders.bind {act : StoreM α} {f : α → StoreM β} [Staging act] (h : SparesHeaders act)
    (hf : ∀ a, SparesHeaders (f a)) : SparesHeaders (act >>= f) where
  headers_eq hstaged := by
    obtain ⟨a, u, hact, hrest⟩ := staged_bind_eq_ok.1 hstaged
    rw [(hf a).headers_eq hrest, h.headers_eq hact]

instance (act : StoreM α) (f : α → StoreM β) [Staging act] [h : SparesHeaders act]
    [hf : ∀ a, SparesHeaders (f a)] : SparesHeaders (act >>= f) := h.bind hf

instance (p : Prop) [Decidable p] (act act' : StoreM α) [SparesHeaders act]
    [SparesHeaders act'] : SparesHeaders (if p then act else act') := by
  split <;> infer_instance

instance (f : Tables → Except LedgerError α) : SparesHeaders (read f) where
  headers_eq h := congrArg Tables.headers (staged_read_eq_ok.1 h).2

instance (r : Except LedgerError α) : SparesHeaders (lift r) :=
  inferInstanceAs (SparesHeaders (read fun _ => r))

instance (a : α) : SparesHeaders (pure a : StoreM α) :=
  inferInstanceAs (SparesHeaders (lift (.ok a)))

instance (e : LedgerError) : SparesHeaders (fail e : StoreM α) :=
  inferInstanceAs (SparesHeaders (lift (.error e)))

instance (r : Except Inconsistency α) : SparesHeaders (consistent r) :=
  inferInstanceAs (SparesHeaders (lift _))

instance (ok : Bool) (fault : Inconsistency) : SparesHeaders (require ok fault) := by
  unfold require
  infer_instance

instance (op : WriteOp) : SparesHeaders (touch op) where
  headers_eq h := by
    cases h
    rfl

/-- A change of another table. -/
lemma sparesHeaders_stage {f : Tables → Tables} (h : ∀ t, (f t).headers = t.headers) :
    SparesHeaders (stage f) where
  headers_eq hstaged := by
    cases hstaged
    exact h _

lemma sparesHeaders_tryInsert {name : TableName} (h : name ≠ .headers) (op : WriteOp)
    (key value : Bytes) : SparesHeaders (tryInsert op name key value) where
  headers_eq hstaged := by
    rw [staged_tryInsert] at hstaged
    split at hstaged
    · cases hstaged
      rfl
    · cases hstaged
      exact Tables.get_set_of_ne _ h _

lemma sparesHeaders_tryErase {name : TableName} (h : name ≠ .headers) (op : WriteOp)
    (key : Bytes) : SparesHeaders (tryErase op name key) where
  headers_eq hstaged := by
    cases hstaged
    exact Tables.get_set_of_ne _ h _

instance (u : UnspentTx) : SparesHeaders (tryAddUnspent u) :=
  sparesHeaders_tryInsert (by decide) _ _ _

instance (tx : Hash) : SparesHeaders (tryRemoveUnspent tx) :=
  sparesHeaders_tryErase (by decide) _ _

instance (u : UnspentTx) : SparesHeaders (tryUpdateUnspent u) :=
  .bind inferInstance fun _ => .bind inferInstance fun stored => by
    cases stored with
    | none => infer_instance
    | some stored => exact .bind (sparesHeaders_stage fun _ => rfl) fun _ => inferInstance

instance (height : Height) (txs : SpentList) : SparesHeaders (tryAddSpent height txs) :=
  sparesHeaders_tryInsert (by decide) _ _ _

instance (height : Height) : SparesHeaders (tryRemoveSpent height) :=
  sparesHeaders_tryErase (by decide) _ _

instance (block : Hash) (txs : UnmintedList) : SparesHeaders (tryAddUnminted block txs) :=
  sparesHeaders_tryInsert (by decide) _ _ _

instance (block : Hash) : SparesHeaders (tryRemoveUnminted block) :=
  sparesHeaders_tryErase (by decide) _ _

instance (values : Counters) : SparesHeaders (writeCounters values) where
  headers_eq h := by
    cases (staged_writeCounters _ _).symm.trans h
    exact Tables.headers_withCounters _ _

end StoreM

namespace Journal

instance (j : Journal) (h : ChainedHeader) : SparesHeaders (j.write h) := by
  unfold write writeSpent writeUnminted
  infer_instance

instance (h : ChainedHeader) : SparesHeaders (remove h) := by
  unfold remove erase
  infer_instance

end Journal

instance {σ α : Type} (work : σ → α → StoreM (LoadedTx × σ)) [∀ s a, Staging (work s a)]
    [∀ s a, SparesHeaders (work s a)] (state : σ) (items : List α) :
    SparesHeaders (Progress.workOff work state items) := by
  induction items generalizing state with
  | nil => exact inferInstanceAs (SparesHeaders (pure state))
  | cons a rest ih => exact .bind inferInstance fun _ => ih _

namespace Disconnecting

instance (d : Disconnecting) (tx : Transaction) (hash : Hash) :
    SparesHeaders (d.unmint tx hash) := by
  unfold unmint
  split
  · infer_instance
  · exact .bind inferInstance fun found => by cases found <;> infer_instance

instance (d : Disconnecting) (o : OutPoint) (place : TxLocation) :
    SparesHeaders (d.unspend o place) :=
  .bind inferInstance fun found => by cases found <;> infer_instance

instance (d : Disconnecting) (spent : List (TxInput × TxLocation)) :
    SparesHeaders (d.unspendAll spent) := by
  induction spent generalizing d with
  | nil => exact inferInstanceAs (SparesHeaders (pure _))
  | cons s rest ih => exact .bind inferInstance fun _ => .bind (ih _) fun _ => inferInstance

instance (d : Disconnecting) (item : Transaction × Nat) : SparesHeaders (d.disconnect item) := by
  unfold disconnect
  infer_instance

instance (txs : SpentList) : SparesHeaders (checkRestored txs) := by
  induction txs with
  | nil => exact inferInstanceAs (SparesHeaders (pure ()))
  | cons tx rest ih =>
    exact .bind inferInstance fun found => by cases found <;> infer_instance

end Disconnecting

variable {archive : Archive} {header : ChainedHeader} {block : Block} {t t' : Tables}

/-- A connected block adds its header, and no other. -/
lemma Ledger.Connected.headers {l : Ledger} (h : l.Connected archive header block t t') :
    t'.headers = t.headers.insert (Height.key header.height) header.encode := by
  obtain ⟨start, connects, close, -, -⟩ := h
  rename_i c c' loaded items U counters t₁
  obtain ⟨-, -, -, cs, -, rfl, -⟩ := Connecting.staged_start_eq_ok.1 start
  have hlocator : c'.locator = ⟨archive, header, block⟩ := connects.same.1
  have hpruned : (l.pruned header t₁).headers = t₁.headers := by
    unfold pruned
    cases prunable? l.chain l.settings.maxRollbackDepth header.height <;> rfl
  obtain ⟨⟨⟩, t₂, hwrite, h⟩ := staged_bind_eq_ok.1 close
  obtain ⟨-, h⟩ := staged_addHeader_bind_eq_ok.1 h
  obtain ⟨⟨⟩, t₃, hcounters, h⟩ := staged_bind_eq_ok.1 h
  cases (staged_pure _).symm.trans h
  rw [hpruned, SparesHeaders.headers_eq hcounters, SparesHeaders.headers_eq hwrite, hlocator]

namespace Disconnecting

variable {d : Disconnecting}

lemma headers_of_staged_close {counters : Counters}
    (h : d.close.staged t = .ok (counters, t')) :
    t'.headers = t.headers.erase (Height.key d.locator.header.height) := by
  obtain ⟨⟨⟩, t₁, hrestored, h⟩ := staged_bind_eq_ok.1 h
  obtain ⟨⟨⟩, t₂, hjournal, h⟩ := staged_bind_eq_ok.1 h
  obtain ⟨⟨⟩, t₃, hremove, h⟩ := staged_bind_eq_ok.1 h
  obtain ⟨⟨⟩, t₄, hcounters, h⟩ := staged_bind_eq_ok.1 h
  cases (staged_pure _).symm.trans h
  have herase : t₃.headers = t₂.headers.erase (Height.key d.locator.header.height) := by
    obtain ⟨stored, -, h⟩ := staged_read_bind_eq_ok.1 hremove
    cases stored with
    | none => exact nomatch h
    | some stored =>
      obtain ⟨-, h⟩ := staged_require_bind_eq_ok.1 h
      cases h
      rfl
  rw [SparesHeaders.headers_eq hcounters, herase, SparesHeaders.headers_eq hjournal,
    SparesHeaders.headers_eq hrestored]

end Disconnecting

/-- A disconnected block was the stored tip, and takes its header away, and no other. -/
lemma Ledger.headers_of_staged_disconnectBlock
    (h : (disconnectBlock archive header block).staged t = .ok ((), t')) :
    (∃ tip, t.tip? = .ok (some tip) ∧ tip.hash = header.hash) ∧
      t'.headers = t.headers.erase (Height.key header.height) := by
  obtain ⟨d, u, hstart, h⟩ := staged_bind_eq_ok.1 h
  obtain ⟨⟨tip, htip, hhash, -⟩, -, j, counters, V, -, -, -, -, rfl, rfl⟩ :=
    Disconnecting.staged_start_eq_ok.1 hstart
  obtain ⟨cs, u, hfinish, h⟩ := staged_bind_eq_ok.1 h
  cases (staged_pure _).symm.trans h
  obtain ⟨d, u₁, hwork, hclose⟩ := staged_bind_eq_ok.1 hfinish
  refine ⟨⟨tip, htip, hhash⟩, ?_⟩
  have hwork : (Progress.workOff Disconnecting.disconnect _ _).staged { t with unspent := V } =
      .ok (d, u₁) := hwork
  have hspared := SparesHeaders.headers_eq hwork
  obtain ⟨loaded, yields⟩ := Progress.staged_workOff_iff_yields.1 hwork
  have same := Disconnecting.sameJournal_of_yields yields
  rw [Disconnecting.headers_of_staged_close hclose, hspared, same.1]
  rfl

lemma Table.toList_erase_last {m : Table} {front : List (Bytes × Bytes)} {k v : Bytes}
    (h : m.toList = front ++ [(k, v)]) : (m.erase k).toList = front := by
  have hsorted : m.toList.Pairwise fun a b => compare a.1 b.1 = .lt :=
    Std.ExtTreeMap.ordered_keys_toList
  have hget : m[k]? = some v := by
    rw [← Std.ExtTreeMap.mem_toList_iff_getElem?_eq_some, h]
    simp
  -- The entry comes back behind all others, where it was.
  have hback : (m.erase k).insert k v = m := by
    apply Std.ExtTreeMap.ext_getElem?
    intro a
    rw [getElem?_insert]
    split
    next hk => rw [← hk, hget]
    next hk => rw [getElem?_erase, if_neg hk]
  have hbehind : ∀ d ∈ (m.erase k).toList, compare d.1 k = .lt := by
    rintro ⟨a, w⟩ hd
    rw [Std.ExtTreeMap.mem_toList_iff_getElem?_eq_some, getElem?_erase] at hd
    split at hd
    · exact nomatch hd
    next hk =>
      rw [← Std.ExtTreeMap.mem_toList_iff_getElem?_eq_some, h, List.mem_append,
        List.mem_singleton] at hd
      rw [h, List.pairwise_append] at hsorted
      rcases hd with hd | heq
      · exact hsorted.2.2 _ hd _ List.mem_cons_self
      · exact absurd (congrArg Prod.fst heq).symm hk
  have hlist := toList_insert_last (v := v) hbehind
  rw [hback, h] at hlist
  exact (List.append_inj_left' hlist rfl).symm

/-- The headers table lists a chain, and below its tip every header bears the name of its fields. -/
structure Tables.Lists (t : Tables) (chain : Chain) : Prop where
  headers : t.headers.toList = chain.headers.map fun h => (Height.key h.height, h.encode)
  real : ∀ h ∈ chain.headers.dropLast, h.hash = h.header.hash

namespace Tables.Lists

variable {chain below : Chain}

lemma chainHeaders (hl : t.Lists chain) :
    t.chainHeaders = .ok (chain.headers.map ChainedHeader.rehashed) :=
  Tables.chainHeaders_of_toList hl.headers

lemma tip? (hl : t.Lists chain) : t.tip? = .ok (some chain.tip.rehashed) :=
  Tables.tip?_eq_some.2 ⟨_, _, Solid.getLast?_headers hl.headers, ChainedHeader.decode_encode _⟩

/-- The names of all headers are theirs exactly if that of the tip is. -/
lemma map_rehashed_iff (hl : t.Lists chain) :
    chain.headers.map ChainedHeader.rehashed = chain.headers ↔
      chain.tip.hash = chain.tip.header.hash := by
  rw [ChainedHeader.map_rehashed_eq_self]
  constructor
  · exact fun all => all _ (List.getLast_mem chain.nonempty)
  · intro htip h hh
    rw [← List.dropLast_append_getLast chain.nonempty, List.mem_append, List.mem_singleton] at hh
    rcases hh with hh | rfl
    · exact hl.real h hh
    · exact htip

/-- A tip that is stored under its name bears the name of its fields. -/
lemma real_of_tip? (hl : t.Lists chain)
    (h : ∃ tip, t.tip? = .ok (some tip) ∧ tip.hash = chain.tip.hash) :
    chain.tip.hash = chain.tip.header.hash := by
  obtain ⟨tip, htip, hhash⟩ := h
  cases hl.tip?.symm.trans htip
  exact hhash.symm

end Tables.Lists

/-- What comes out of any run on one store, empty at first, that no other ledger works on: ledgers
are opened, asked and dropped one after the other, with any headers, under any rules and settings
and with any archive. The genesis header is the one that the ledger was opened with. -/
inductive Alone : Database → Option (ChainedHeader × Ledger) → Prop
  | fresh : Alone .fresh none
  | opened {db : Database} (before : Alone db none) (rules : Rules) (settings : Settings)
      (genesis : ChainedHeader) : Alone (Ledger.openOn db rules settings genesis).2
        ((Ledger.openOn db rules settings genesis).1.toOption.map (genesis, ·))
  | called {db : Database} {genesis : ChainedHeader} {l : Ledger}
      (before : Alone db (some (genesis, l))) (archive : Archive) (call : Ledger.Call) :
      Alone ((call.run archive).on ⟨l, db⟩).2.db
        (some (genesis, ((call.run archive).on ⟨l, db⟩).2.ledger))
  | dropped {db : Database} {genesis : ChainedHeader} {l : Ledger}
      (before : Alone db (some (genesis, l))) : Alone (l.closeOn db) none

/-- The store lists the chain of the ledger, which starts with the given genesis header. -/
structure Ledger.Stores (genesis : ChainedHeader) (s : LedgerSession) : Prop where
  idle : s.ledger.cursor = .idle
  free : s.db.writerOpen = false
  height : genesis.height = 0
  root : s.ledger.chain.genesis.hash = genesis.hash
  lists : s.db.committed.tables.Lists s.ledger.chain

namespace Ledger.Stores

variable {genesis : ChainedHeader} {s s' : LedgerSession}

/-- A tip that is not stored under its name is never built upon. -/
lemma real_of_add (hs : Stores genesis s)
    (hon : (Ledger.add archive header).on s = (.ok (), s')) :
    s.ledger.chain.tip.hash = s.ledger.chain.tip.header.hash := by
  have hadded := Ledger.added hs.idle archive header
  rw [hon] at hadded
  cases hadded with
  | connected found free staged grown moved =>
    obtain ⟨start, -⟩ := Ledger.connected_of_staged staged
    obtain ⟨-, ⟨tip, htip, hhash, -⟩, -⟩ := Connecting.staged_start_eq_ok.1 start
    exact hs.lists.real_of_tip? ⟨tip, htip, hhash⟩

/-- Nor is it taken back. -/
lemma real_of_removeTip (hs : Stores genesis s)
    (hon : (Ledger.removeTip archive).on s = (.ok header, s')) :
    s.ledger.chain.tip.hash = s.ledger.chain.tip.header.hash := by
  have hremoved := Ledger.removed hs.idle archive
  rw [hon] at hremoved
  cases hremoved with
  | disconnected above found free staged shrunk moved =>
    exact hs.lists.real_of_tip? (Ledger.headers_of_staged_disconnectBlock staged).1

lemma add (hs : Stores genesis s) (hon : (Ledger.add archive header).on s = (.ok (), s')) :
    Stores genesis s' := by
  have real := hs.real_of_add hon
  have hadded := Ledger.added hs.idle archive header
  rw [hon] at hadded
  cases hadded with
  | @connected block t chain s' found free staged grown moved =>
    have hconnected := Ledger.connected_of_staged staged
    have grown := (Chain.add_eq_ok.1 grown).2
    have hx := Chain.extends_of_grown grown
    have hnonneg : 0 ≤ s.ledger.chain.tip.height.toInt := by
      have hheight : s.ledger.chain.tip.height.toInt = _ := s.ledger.chain.toInt_height
      omega
    have hbehind := Table.lt_of_getLast? (Solid.getLast?_headers hs.lists.headers)
      (Height.compare_key_of_lt hnonneg (by rw [hx.1]; omega) :
        compare _ (Height.key header.height) = .lt)
    refine ⟨moved.idle, moved.free, hs.height, ?_, ?_⟩
    · rw [moved.chain, Chain.genesis_of_grown grown, hs.root]
    rw [moved.tables, moved.chain]
    refine ⟨?_, fun h hh => ?_⟩
    · rw [hconnected.headers, Table.toList_insert_last hbehind, hs.lists.headers, grown,
        List.map_append, List.map_singleton]
    · rw [grown, List.dropLast_concat,
        ← List.dropLast_append_getLast s.ledger.chain.nonempty, List.mem_append,
        List.mem_singleton] at hh
      rcases hh with hh | rfl
      · exact hs.lists.real h hh
      · exact real

lemma removeTip (hs : Stores genesis s)
    (hon : (Ledger.removeTip archive).on s = (.ok header, s')) : Stores genesis s' := by
  have hremoved := Ledger.removed hs.idle archive
  rw [hon] at hremoved
  cases hremoved with
  | @disconnected block t chain s' above found free staged shrunk moved =>
    obtain ⟨_, hremove, hdrop⟩ := Chain.remove_tip_eq_ok above
    cases shrunk.symm.trans hremove
    have grown : s.ledger.chain.headers = chain.headers ++ [s.ledger.chain.tip] := by
      rw [hdrop]
      exact (List.dropLast_append_getLast s.ledger.chain.nonempty).symm
    have htables := (Ledger.headers_of_staged_disconnectBlock staged).2
    have hlist := hs.lists.headers
    rw [grown, List.map_append, List.map_singleton] at hlist
    refine ⟨moved.idle, moved.free, hs.height, ?_, ?_⟩
    · rw [moved.chain, ← Chain.genesis_of_grown grown, hs.root]
    rw [moved.tables, moved.chain]
    refine ⟨?_, fun h hh => hs.lists.real h ?_⟩
    · rw [htables, Table.toList_erase_last hlist]
    · rw [← hdrop]
      exact List.dropLast_subset _ hh

/-- Every call keeps the chain stored, whatever headers it brings along. -/
lemma kept (archive : Archive) (genesis : ChainedHeader) :
    Ledger.Kept archive (fun _ => True) (Stores genesis) where
  idle hs := hs.idle
  add _ hs hon := hs.add hon
  removeTip hs hon := hs.removeTip hon
  flush hs := ⟨hs.idle, hs.free, hs.height, hs.root, hs.lists⟩

end Ledger.Stores

/-- A store between the calls, with its ledger if one is open. -/
def StoresChain (db : Database) : Option (ChainedHeader × Ledger) → Prop
  | some (genesis, l) => Ledger.Stores genesis ⟨l, db⟩
  | none => db.writerOpen = false ∧
      (db.committed.tables = .empty ∨ ∃ chain, db.committed.tables.Lists chain)

/-- Every step of a run keeps the chain stored. -/
lemma Alone.storesChain {db : Database} {l? : Option (ChainedHeader × Ledger)} (run : Alone db l?) :
    StoresChain db l? := by
  induction run with
  | fresh => exact ⟨rfl, .inl rfl⟩
  | @opened db before rules settings genesis ih =>
    obtain ⟨free, filled⟩ := ih
    have hopened := Ledger.opening db rules settings genesis
    generalize Ledger.openOn db rules settings genesis = r at hopened ⊢
    cases hopened with
    | @seeded t chain n height empty free staged headers =>
      have hempty : db.committed.tables = .empty := by
        rcases filled with hempty | ⟨stored, hl⟩
        · exact hempty
        · have hlist := Except.ok.inj (hl.chainHeaders.symm.trans empty)
          exact absurd (List.map_eq_nil_iff.1 hlist) stored.nonempty
      rw [hempty] at staged
      cases (Ledger.staged_seeding genesis).symm.trans staged
      refine ⟨rfl, free, height, by simp [Chain.genesis, headers], ?_, by simp [headers]⟩
      exact (Solid.seed .empty headers).headers
    | @loaded chain height stored same =>
      refine ⟨rfl, free, height, same, ?_⟩
      rcases filled with hempty | ⟨c, hl⟩
      · rw [hempty] at stored
        exact absurd (Except.ok.inj stored).symm chain.nonempty
      · have hheaders := Except.ok.inj (stored.symm.trans hl.chainHeaders)
        refine ⟨?_, fun h hh => ?_⟩
        · rw [hl.headers, hheaders, List.map_map]
          rfl
        · have hmem := List.dropLast_subset _ hh
          rw [hheaders] at hmem
          obtain ⟨h', -, rfl⟩ := List.mem_map.1 hmem
          rfl
    | refused => exact ⟨free, filled⟩
  | @called db genesis l before archive call ih =>
    exact (Ledger.Stores.kept archive genesis).after_call (fun _ _ => trivial) ih
  | @dropped db genesis l before ih =>
    have hs : Ledger.Stores genesis ⟨l, db⟩ := ih
    rw [Ledger.closeOn_of_idle hs.idle]
    exact ⟨hs.free, .inr ⟨_, hs.lists⟩⟩

/-- The store holds the chain of the ledger with every name worked out again from the fields, and
all names below the tip are right. So the stored headers are those of the ledger, and opening the
store again gives its chain, exactly if the tip bears the name of its fields; where it does not, no
block comes in on top of it and it is not taken back. -/
theorem stored_chain_iff_real_tip {db : Database} {genesis : ChainedHeader} {l : Ledger}
    (run : Alone db (some (genesis, l))) :
    db.committed.tables.chainHeaders = .ok (l.chain.headers.map ChainedHeader.rehashed) ∧
    (∀ h ∈ l.chain.headers.dropLast, h.hash = h.header.hash) ∧
    (db.committed.tables.chainHeaders = .ok l.chain.headers ↔
      l.chain.tip.hash = l.chain.tip.header.hash) ∧
    (∀ rules settings,
      (∃ l' db', Ledger.openOn db rules settings genesis = (.ok l', db') ∧ l'.chain = l.chain) ↔
        l.chain.tip.hash = l.chain.tip.header.hash) ∧
    (l.chain.tip.hash ≠ l.chain.tip.header.hash → ∀ archive : Archive,
      (∀ header, ∃ e, (Ledger.add archive header).on ⟨l, db⟩ = (.error e, ⟨l, db⟩)) ∧
      ∃ e, (Ledger.removeTip archive).on ⟨l, db⟩ = (.error e, ⟨l, db⟩)) := by
  have hs : Ledger.Stores genesis ⟨l, db⟩ := run.storesChain
  have hread := hs.lists.chainHeaders
  have hiff : db.committed.tables.chainHeaders = .ok l.chain.headers ↔
      l.chain.tip.hash = l.chain.tip.header.hash := by
    rw [hread, Except.ok.injEq]
    exact hs.lists.map_rehashed_iff
  refine ⟨hread, hs.lists.real, hiff, fun rules settings => ⟨?_, fun real => ?_⟩,
    fun unreal archive => ⟨fun header => ?_, ?_⟩⟩
  · rintro ⟨l', db', hopen, hchain⟩
    have hopened := Ledger.opening db rules settings genesis
    rw [hopen] at hopened
    rw [← hiff, ← hchain]
    cases hopened with
    | seeded _ empty =>
      exact absurd (Except.ok.inj (hread.symm.trans empty))
        (mt List.map_eq_nil_iff.1 l.chain.nonempty)
    | loaded _ stored => exact stored
  · exact ⟨_, _, Ledger.openOn_stored rules settings (hiff.2 real) hs.height hs.root, rfl⟩
  · exact Ledger.add_refused hs.idle fun _ hon => unreal (hs.real_of_add hon)
  · exact Ledger.removeTip_refused hs.idle fun _ _ hon => unreal (hs.real_of_removeTip hon)

/-- A block that does not build on `soleGenesis`. -/
def foreignBlock : Block := ⟨⟨1, .zero, .zero, 1, 0x207fffff, 0⟩, []⟩

/-- Fields that build on `soleGenesis`, under the name of the foreign block. -/
def foreignHeader : ChainedHeader :=
  { soleGenesis.above ⟨1, soleGenesis.hash, .zero, 2, 0x207fffff, 0⟩ with
    hash := foreignBlock.hash }

/-- The session after the foreign header was added on top of genesis. -/
def foreignRun : LedgerSession :=
  (((Ledger.Call.add foreignHeader).run (Archive.empty.add foreignBlock)).on coinStart).2

lemma foreignRun_evaluated : foreignRun.ledger.chain.headers = [soleGenesis, foreignHeader] ∧
    foreignHeader.hash ≠ foreignHeader.header.hash := by decide +kernel

lemma coinStart_alone : Alone coinStart.db (some (soleGenesis, coinStart.ledger)) := by
  have hopened := Alone.fresh.opened coinStart.ledger.rules unprunedSettings soleGenesis
  have height : soleGenesis.height = 0 := rfl
  obtain ⟨chain, db, hheaders, -, -, hopen⟩ :=
    Ledger.openOn_fresh coinStart.ledger.rules unprunedSettings height
  have hdb : coinStart.db = db := congrArg Prod.snd hopen
  obtain rfl : chain = soleChain := Chain.ext_headers hheaders
  rw [hopen] at hopened
  rw [hdb]
  exact hopened

lemma Alone.after {s : LedgerSession} {genesis : ChainedHeader}
    (before : Alone s.db (some (genesis, s.ledger))) (archive : Archive) (call : Ledger.Call) :
    Alone ((call.run archive).on s).2.db (some (genesis, ((call.run archive).on s).2.ledger)) :=
  before.called archive call

theorem stored_chain_iff_real_tip_foreign : ∃ db l, Alone db (some (soleGenesis, l)) ∧
    l.chain.headers = [soleGenesis, foreignHeader] ∧
    db.committed.tables.chainHeaders ≠ .ok l.chain.headers ∧
    ∀ archive : Archive, ∃ e, (Ledger.removeTip archive).on ⟨l, db⟩ = (.error e, ⟨l, db⟩) := by
  have run : Alone foreignRun.db (some (soleGenesis, foreignRun.ledger)) := by
    unfold foreignRun
    exact coinStart_alone.after _ _
  obtain ⟨hheaders, hname⟩ := foreignRun_evaluated
  have unreal : foreignRun.ledger.chain.tip.hash ≠ foreignRun.ledger.chain.tip.header.hash := by
    simpa [Chain.tip, hheaders] using hname
  obtain ⟨-, -, hstored, -, stuck⟩ := stored_chain_iff_real_tip run
  exact ⟨_, _, run, hheaders, mt hstored.1 unreal, fun archive => (stuck unreal archive).2⟩

end UtxoLedger

import Mathlib.Tactic.Common
import UtxoLedger.Proofs.ConnectSteps

/-!
# Calls of a ledger

One block forward or backward either takes place as a whole or leaves ledger and database exactly as
they were. Every other call is made of such steps and of flushes, so whatever these preserve is
preserved by every call, also by one that ends in an error.
-/
namespace UtxoLedger

namespace LedgerM

variable {α β : Type}

@[simp] lemma on_pure (a : α) (s : LedgerSession) : (pure a : LedgerM α).on s = (.ok a, s) := rfl

lemma on_ledger (s : LedgerSession) : ledger.on s = (.ok s.ledger, s) := rfl

lemma on_bind (act : LedgerM α) (f : α → LedgerM β) (s : LedgerSession) :
    (act >>= f).on s = match act.on s with
      | (.ok a, s') => (f a).on s'
      | (.error e, s') => (.error e, s') := by
  change (ExceptT.bindCont f (act.on s).1) (act.on s).2 = _
  rcases act.on s with ⟨_ | a, s'⟩ <;> rfl

lemma on_bind_of_ok {act : LedgerM α} {f : α → LedgerM β} {s s' : LedgerSession} {a : α}
    (h : act.on s = (.ok a, s')) : (act >>= f).on s = (f a).on s' := by rw [on_bind, h]

lemma on_bind_of_error {act : LedgerM α} {f : α → LedgerM β} {s s' : LedgerSession}
    {e : LedgerError} (h : act.on s = (.error e, s')) : (act >>= f).on s = (.error e, s') := by
  rw [on_bind, h]

/-- How a write transaction of an idle ledger ends. -/
inductive Transacted (body : StoreM α) (s : LedgerSession) : Except LedgerError α × LedgerSession →
    Prop
  | published {a : α} {t : Tables} {n : Nat} (free : s.db.writerOpen = false)
      (staged : body.staged s.db.committed.tables = .ok (a, t)) :
      Transacted body s (.ok a, { s with db := { s.db with committed := ⟨t, n⟩ } })
  | refused {e : LedgerError} (why : s.db.writerOpen = false →
      body.staged s.db.committed.tables = .error e) : Transacted body s (.error e, s)

lemma transacted {s : LedgerSession} (idle : s.ledger.cursor = .idle) (body : StoreM α)
    [StoreM.Staging body] : Transacted body s ((store (StoreM.atomically body)).on s) := by
  obtain ⟨⟨rules, settings, chain, cursor, blocks⟩, db⟩ := s
  cases (idle : cursor = .idle)
  have hstore : (store (StoreM.atomically body)).on ⟨⟨rules, settings, chain, .idle, blocks⟩, db⟩ =
      (((StoreM.atomically body).on ⟨db, .idle⟩).1,
        ⟨⟨rules, settings, chain, ((StoreM.atomically body).on ⟨db, .idle⟩).2.cursor, blocks⟩,
          ((StoreM.atomically body).on ⟨db, .idle⟩).2.db⟩) := rfl
  rw [hstore]
  cases hw : db.writerOpen with
  | true =>
    rw [StoreM.on_atomically_busy hw]
    exact .refused fun free => nomatch hw.symm.trans free
  | false =>
    rcases StoreM.on_atomically_free hw body with ⟨a, t, n, hstaged, hon⟩ | ⟨e, hstaged, hon⟩
    · rw [hon]
      exact .published hw hstaged
    · rw [hon]
      exact .refused fun _ => hstaged

end LedgerM

namespace Chain

variable {c c' : Chain} {h : ChainedHeader}

lemma add_eq_ok : c.add h = .ok c' ↔ h.Extends c.tip ∧ c'.headers = c.headers ++ [h] := by
  unfold add
  split
  next hx =>
    constructor
    · intro heq
      cases heq
      exact ⟨hx, rfl⟩
    · rintro ⟨-, heq⟩
      exact congrArg Except.ok (ext_headers heq.symm)
  next hx => simp [hx]

lemma height_ne_zero_iff : c.tip.height ≠ 0 ↔ c.headers.length ≠ 1 := by
  have ht : c.tip.height.toInt = (c.headers.length - 1 : Nat) := c.toInt_height
  have hp := c.length_pos
  have h0 : c.tip.height = 0 ↔ c.tip.height.toInt = 0 := Int32.toInt_inj.symm
  rw [Ne, h0, ht]
  omega

lemma remove_tip_eq_ok (h : c.tip.height ≠ 0) :
    ∃ c', c.remove c.tip = .ok c' ∧ c'.headers = c.headers.dropLast := by
  unfold remove
  rw [dif_neg (height_ne_zero_iff.1 h), if_pos rfl]
  exact ⟨_, rfl, rfl⟩

lemma tip_of_grown {chain below : Chain} {header : ChainedHeader}
    (grown : chain.headers = below.headers ++ [header]) : chain.tip = header := by
  simp [tip, grown]

lemma extends_of_grown {chain below : Chain} {header : ChainedHeader}
    (grown : chain.headers = below.headers ++ [header]) :
    header.Extends below.tip := by
  have hpos := below.length_pos
  have hlength : chain.headers.length = below.headers.length + 1 := by simp [grown]
  have htip : below.tip = below.headers[below.headers.length - 1] :=
    below.tip_eq_getElem _ (by omega)
  have hheight := chain.heights below.headers.length (by omega)
  have hlink := chain.linked (below.headers.length - 1) (by omega)
  have hbelow : below.tip.height.toInt = (below.headers.length - 1 : Nat) := below.toInt_height
  constructor
  · simp only [grown, List.getElem_concat_length] at hheight
    omega
  · have hsucc : below.headers.length - 1 + 1 = below.headers.length := by omega
    simp only [grown, hsucc, List.getElem_concat_length] at hlink
    rw [htip, hlink, List.getElem_append_left]

/-- The chain that is left is the one below. -/
lemma eq_of_removed {below : Chain} (above : c.tip.height ≠ 0) (shrunk : c.remove c.tip = .ok c')
    (grown : c.headers = below.headers ++ [c.tip]) : c' = below := by
  obtain ⟨c'', hremove, hdrop⟩ := remove_tip_eq_ok above
  cases shrunk.symm.trans hremove
  exact ext_headers (by rw [hdrop, grown, List.dropLast_concat])

lemma headers_of_ofHeaders {hs : List ChainedHeader} (h : ofHeaders hs = .ok c) :
    c.headers = hs := by
  unfold ofHeaders at h
  split at h
  · cases h
  · split at h
    · cases h
    · split at h
      · cases h
      · cases h
        rfl

/-- The headers of a chain form that chain. -/
lemma ofHeaders_headers (c : Chain) : ofHeaders c.headers = .ok c := by
  have hheights : heightFault? 0 c.headers = none :=
    heightFault?_eq_none_iff.2 fun j hj => by simpa using c.heights j hj
  have hlinks : linkFault? c.headers = none := linkFault?_eq_none_iff.2 c.linked
  unfold ofHeaders
  rw [dif_neg c.nonempty]
  split
  next hh => exact nomatch hheights.symm.trans hh
  · split
    next hl => exact nomatch hlinks.symm.trans hl
    · rfl

lemma ofGenesis_eq_ok (h0 : h.height = 0) : ∃ c, ofGenesis h = .ok c ∧ c.headers = [h] := by
  let c : Chain :=
    { headers := [h]
      nonempty := List.cons_ne_nil h []
      heights := fun i hi => by
        obtain rfl : i = 0 := by simpa using hi
        rw [List.getElem_cons_zero, h0]
        rfl
      linked := fun i hi => absurd hi (by simp) }
  exact ⟨c, ofHeaders_headers c, rfl⟩

/-- Steps up a path bring headers of its target. -/
lemma Path.mem_target_of_mem_walk {n : Nat} {p : Path} {step : Step}
    (hmem : step ∈ (walk n p).1.map Prod.snd) (hdir : step.direction = .forward) :
    step.header ∈ p.target.headers := by
  induction n generalizing p with
  | zero => exact nomatch hmem
  | succ n ih =>
    unfold walk at hmem
    cases hnext : p.next? with
    | none =>
      rw [hnext] at hmem
      exact nomatch hmem
    | some next =>
      obtain ⟨first, rest⟩ := next
      rw [hnext, List.map_cons, List.mem_cons] at hmem
      unfold next? at hnext
      split at hnext
      · obtain ⟨h, hget, heq⟩ := Option.map_eq_some_iff.1 hnext
        cases heq
        rcases hmem with rfl | hmem
        · exact nomatch hdir
        · have hrest := ih hmem
          exact hrest
      · split at hnext
        · obtain ⟨h, hget, heq⟩ := Option.map_eq_some_iff.1 hnext
          cases heq
          rcases hmem with rfl | hmem
          · exact List.mem_of_getElem? hget
          · have hrest := ih hmem
            exact hrest
        · exact nomatch hnext

lemma Path.target_of_between {source target : Chain} {path : Path}
    (h : between source target = .ok path) : path.target = target := by
  unfold between at h
  dsimp only at h
  split at h
  · split at h
    · cases h
      rfl
    · exact nomatch h
  · exact nomatch h

lemma Path.mem_target_of_mem_steps {source target : Chain} {path : Path} {step : Step}
    (h : between source target = .ok path) (hmem : step ∈ path.steps)
    (hdir : step.direction = .forward) : step.header ∈ target.headers := by
  rw [← target_of_between h]
  exact mem_target_of_mem_walk hmem hdir

end Chain

namespace Ledger

variable {archive : Archive} {header : ChainedHeader} {s s' : LedgerSession}

lemma Connected.extends {l : Ledger} {block : Block} {t t' : Tables}
    (h : l.Connected archive header block t t') : header.Extends l.chain.tip := by
  obtain ⟨start, -, -, -, -⟩ := h
  exact (Connecting.staged_start_eq_ok.1 start).1

/-- `s'` is `s` after a committed change of the tables to `t` and of the chain to `chain`. -/
structure Moved (s : LedgerSession) (t : Tables) (chain : Chain) (s' : LedgerSession) : Prop where
  rules : s'.ledger.rules = s.ledger.rules
  settings : s'.ledger.settings = s.ledger.settings
  chain : s'.ledger.chain = chain
  idle : s'.ledger.cursor = .idle
  tables : s'.db.committed.tables = t
  free : s'.db.writerOpen = false

/-- Counting a block changes nothing but when the next flush is due. -/
lemma on_countBlock {t : Tables} {chain : Chain} (h : Moved s t chain s') :
    ∃ s'', countBlock.on s' = (.ok (), s'') ∧ Moved s t chain s'' := by
  have hcount : countBlock.on s' =
      (if 0 < s'.ledger.settings.flushInterval.toNat ∧
          s'.ledger.settings.flushInterval.toNat ≤ s'.ledger.blocksSinceFlush + 1 then flush
        else pure ()).on
        { s' with ledger.blocksSinceFlush := s'.ledger.blocksSinceFlush + 1 } := rfl
  rw [hcount]
  split
  · exact ⟨_, rfl, h.rules, h.settings, h.chain, h.idle, h.tables, h.free⟩
  · exact ⟨_, rfl, h.rules, h.settings, h.chain, h.idle, h.tables, h.free⟩

lemma on_fetch_of_some {hash : Hash} {block : Block} (h : archive.block? hash = some block)
    (s : LedgerSession) : (fetch archive hash).on s = (.ok block, s) := by
  unfold fetch
  rw [h]
  rfl

lemma on_fetch_of_none {hash : Hash} (h : archive.block? hash = none) (s : LedgerSession) :
    (fetch archive hash).on s = (.error (.blockNotFound (.notStored hash)), s) := by
  unfold fetch
  rw [h]
  rfl

/-- How an addition ends. -/
inductive Added (archive : Archive) (header : ChainedHeader) (s : LedgerSession) :
    Except LedgerError Unit × LedgerSession → Prop
  | connected {block : Block} {t : Tables} {chain : Chain} {s' : LedgerSession}
      (found : archive.block? header.hash = some block) (free : s.db.writerOpen = false)
      (staged : (s.ledger.connectBlock archive header block).staged s.db.committed.tables =
        .ok ((), t))
      (grown : s.ledger.chain.add header = .ok chain) (moved : Moved s t chain s') :
      Added archive header s (.ok (), s')
  | refused {e : LedgerError} : Added archive header s (.error e, s)

/-- The chain grows whenever the block was committed, as its header was checked before. -/
theorem added (idle : s.ledger.cursor = .idle) (archive : Archive) (header : ChainedHeader) :
    Added archive header s ((add archive header).on s) := by
  cases hfound : archive.block? header.hash with
  | none =>
    rw [add, LedgerM.on_bind_of_error (on_fetch_of_none hfound s)]
    exact .refused
  | some block =>
    rw [add, LedgerM.on_bind_of_ok (on_fetch_of_some hfound s),
      LedgerM.on_bind_of_ok (LedgerM.on_ledger s)]
    have htrans := LedgerM.transacted idle (s.ledger.connectBlock archive header block)
    generalize hstore : (LedgerM.store _).on s = r at htrans
    cases htrans with
    | refused =>
      rw [LedgerM.on_bind_of_error hstore]
      exact .refused
    | @published x t n free staged =>
      obtain ⟨chain, hchain⟩ : ∃ chain, s.ledger.chain.add header = .ok chain := by
        unfold Chain.add
        rw [dif_pos (connected_of_staged staged).extends]
        exact ⟨_, rfl⟩
      rw [LedgerM.on_bind_of_ok hstore, hchain]
      change Added archive header s (countBlock.on ⟨{ s.ledger with chain := chain }, _⟩)
      have hm : Moved s t chain
          ⟨{ s.ledger with chain := chain }, { s.db with committed := ⟨t, n⟩ }⟩ :=
        ⟨rfl, rfl, rfl, idle, rfl, free⟩
      obtain ⟨s', hcount, hmoved⟩ := on_countBlock hm
      rw [hcount]
      exact .connected hfound free staged hchain hmoved

/-- A block that is not added is refused with an error, and nothing has changed. -/
lemma add_refused (idle : s.ledger.cursor = .idle) {archive : Archive} {header : ChainedHeader}
    (never : ∀ s', (add archive header).on s ≠ (.ok (), s')) :
    ∃ e, (add archive header).on s = (.error e, s) := by
  have hadded := added idle archive header
  generalize hon : (add archive header).on s = r at hadded
  cases hadded with
  | connected => exact absurd hon (never _)
  | @refused e => exact ⟨e, rfl⟩

/-- How a removal of the tip ends. -/
inductive Removed (archive : Archive) (s : LedgerSession) :
    Except LedgerError ChainedHeader × LedgerSession → Prop
  | disconnected {block : Block} {t : Tables} {chain : Chain} {s' : LedgerSession}
      (above : s.ledger.chain.tip.height ≠ 0)
      (found : archive.block? s.ledger.chain.tip.hash = some block)
      (free : s.db.writerOpen = false)
      (staged : (disconnectBlock archive s.ledger.chain.tip block).staged s.db.committed.tables =
        .ok ((), t))
      (shrunk : s.ledger.chain.remove s.ledger.chain.tip = .ok chain) (moved : Moved s t chain s') :
      Removed archive s (.ok s.ledger.chain.tip, s')
  | refused {e : LedgerError} (why : ∀ block t, s.ledger.chain.tip.height ≠ 0 →
      archive.block? s.ledger.chain.tip.hash = some block → s.db.writerOpen = false →
      (disconnectBlock archive s.ledger.chain.tip block).staged s.db.committed.tables ≠
        .ok ((), t)) : Removed archive s (.error e, s)

theorem removed (idle : s.ledger.cursor = .idle) (archive : Archive) :
    Removed archive s ((removeTip archive).on s) := by
  rw [removeTip, LedgerM.on_bind_of_ok (LedgerM.on_ledger s)]
  by_cases habove : s.ledger.chain.tip.height = 0
  · dsimp only
    rw [if_pos habove]
    exact .refused fun _ _ h => absurd habove h
  · dsimp only
    rw [if_neg habove]
    cases hfound : archive.block? s.ledger.chain.tip.hash with
    | none =>
      rw [LedgerM.on_bind_of_error (on_fetch_of_none hfound s)]
      exact .refused fun _ _ _ h => nomatch hfound.symm.trans h
    | some block =>
      rw [LedgerM.on_bind_of_ok (on_fetch_of_some hfound s)]
      have htrans := LedgerM.transacted idle (disconnectBlock archive s.ledger.chain.tip block)
      generalize hstore : (LedgerM.store _).on s = r at htrans
      cases htrans with
      | refused why =>
        rw [LedgerM.on_bind_of_error hstore]
        refine .refused fun block' t _ hfound' free hstaged => ?_
        cases hfound.symm.trans hfound'
        exact nomatch (why free).symm.trans hstaged
      | @published x t n free staged =>
        obtain ⟨chain, hchain, -⟩ := Chain.remove_tip_eq_ok habove
        rw [LedgerM.on_bind_of_ok hstore, hchain]
        exact .disconnected habove hfound free staged hchain ⟨rfl, rfl, rfl, idle, rfl, free⟩

/-- So is the removal of a tip. -/
lemma removeTip_refused (idle : s.ledger.cursor = .idle) {archive : Archive}
    (never : ∀ header s', (removeTip archive).on s ≠ (.ok header, s')) :
    ∃ e, (removeTip archive).on s = (.error e, s) := by
  have hremoved := removed idle archive
  generalize hon : (removeTip archive).on s = r at hremoved
  cases hremoved with
  | disconnected => exact absurd hon (never _ _)
  | @refused e => exact ⟨e, rfl⟩

/-- What a user asks of a ledger. -/
inductive Call
  | add (header : ChainedHeader)
  | removeTip
  | navigateTo (target : Chain)
  | reorganizeIfBetter (candidate : Chain)
  | flush
  | defragment
  | counters

/-- The headers that a call brings along. -/
def Call.headers : Call → List ChainedHeader
  | add header => [header]
  | navigateTo chain | reorganizeIfBetter chain => chain.headers
  | _ => []

/-- A call, without what it returns beside an error. -/
def Call.run (archive : Archive) : Call → LedgerM Unit
  | add header => Ledger.add archive header
  | removeTip => do let _ ← Ledger.removeTip archive; return ()
  | navigateTo target => do let _ ← Ledger.navigateTo archive target; return ()
  | reorganizeIfBetter candidate => do
    let _ ← Ledger.reorganizeIfBetter archive candidate
    return ()
  | flush => Ledger.flush
  | defragment => Ledger.defragment
  | counters => do let _ ← Ledger.counters; return ()

/-- Single steps, with headers from `H`, keep `P`. -/
structure Kept (archive : Archive) (H : ChainedHeader → Prop) (P : LedgerSession → Prop) :
    Prop where
  idle : ∀ {s}, P s → s.ledger.cursor = .idle
  add : ∀ {header s s'}, H header → P s → (Ledger.add archive header).on s = (.ok (), s') → P s'
  removeTip : ∀ {h s s'}, P s → (Ledger.removeTip archive).on s = (.ok h, s') → P s'
  flush : ∀ {s}, P s → P (Ledger.flush.on s).2

section Kept

variable {H : ChainedHeader → Prop} {P : LedgerSession → Prop}

lemma Kept.after_add (k : Kept archive H P) (hH : H header) (hs : P s) :
    P ((Ledger.add archive header).on s).2 := by
  have h := added (k.idle hs) archive header
  generalize hr : (Ledger.add archive header).on s = r at h
  cases h with
  | connected => exact k.add hH hs hr
  | refused => exact hs

lemma Kept.after_removeTip (k : Kept archive H P) (hs : P s) :
    P ((Ledger.removeTip archive).on s).2 := by
  have h := removed (k.idle hs) archive
  generalize hr : (Ledger.removeTip archive).on s = r at h
  cases h with
  | disconnected => exact k.removeTip hs hr
  | refused => exact hs

lemma after_bind {α β : Type} {act : LedgerM α} {f : α → LedgerM β} (hact : P (act.on s).2)
    (hf : ∀ a s', P s' → P ((f a).on s').2) : P ((act >>= f).on s).2 := by
  rw [LedgerM.on_bind]
  generalize act.on s = r at hact
  obtain ⟨_ | a, s'⟩ := r
  · exact hact
  · exact hf a s' hact

lemma Kept.after_follow (k : Kept archive H P) {steps : List Chain.Step}
    (hH : ∀ step ∈ steps, step.direction = .forward → H step.header) (r : Reorganization)
    (hs : P s) : P ((follow archive r steps).on s).2 := by
  induction steps generalizing r s with
  | nil => exact hs
  | cons step rest ih =>
    have ih := fun r' s' => ih (s := s') (fun step' hmem => hH step' (.tail _ hmem)) r'
    unfold follow
    cases hdir : step.direction with
    | backward =>
      refine after_bind (k.after_removeTip hs) fun removed s' hs' => ?_
      split
      · exact hs'
      · exact ih _ s' hs'
    | forward =>
      refine after_bind (k.after_add (hH step List.mem_cons_self hdir) hs) fun _ s' hs' => ?_
      exact ih _ s' hs'

/-- A navigation follows the path from the chain of the ledger. -/
lemma on_navigateTo (target : Chain) (s : LedgerSession) : (navigateTo archive target).on s =
    match Chain.Path.between s.ledger.chain target with
    | .ok path => (follow archive ⟨path.ancestor, [], []⟩ path.steps).on s
    | .error e => (.error e, s) := by
  unfold navigateTo
  rw [LedgerM.on_bind_of_ok (LedgerM.on_ledger s)]
  cases hp : Chain.Path.between s.ledger.chain target <;> rfl

lemma Kept.after_navigateTo (k : Kept archive H P) {target : Chain}
    (hH : ∀ h ∈ target.headers, H h) (hs : P s) :
    P ((navigateTo archive target).on s).2 := by
  rw [on_navigateTo]
  cases hp : Chain.Path.between s.ledger.chain target with
  | error e => exact hs
  | ok path =>
    refine k.after_follow (fun step hmem hdir => hH _ ?_) _ hs
    exact Chain.Path.mem_target_of_mem_steps hp hmem hdir

/-- What single steps keep, every call keeps, whether it succeeds or not. -/
theorem Kept.after_call (k : Kept archive H P) {call : Call} (hH : ∀ h ∈ call.headers, H h)
    (hs : P s) : P ((call.run archive).on s).2 := by
  cases call with
  | add header => exact k.after_add (hH header (List.mem_singleton_self header)) hs
  | removeTip => exact after_bind (k.after_removeTip hs) fun _ _ hs' => hs'
  | navigateTo target => exact after_bind (k.after_navigateTo hH hs) fun _ _ hs' => hs'
  | reorganizeIfBetter candidate =>
    refine after_bind ?_ fun _ _ hs' => hs'
    refine after_bind hs fun l s' hs' => ?_
    split
    · exact after_bind (k.after_navigateTo hH hs') fun _ _ hs'' => hs''
    · exact hs'
  | flush => exact k.flush hs
  | defragment => exact hs
  | counters => exact after_bind hs fun _ _ hs' => hs'

end Kept

/-- The tables of a store that holds nothing but a genesis header. -/
def seedTables (genesis : ChainedHeader) : Tables :=
  { Tables.empty with
    headers := Tables.empty.headers.insert (Height.key genesis.height) genesis.encode
  }.withCounters .zero

/-- What a store is seeded with. -/
abbrev seeding (genesis : ChainedHeader) : StoreM Unit := do
  StoreM.addHeader genesis
  StoreM.writeCounters .zero

lemma staged_seeding (genesis : ChainedHeader) :
    (seeding genesis).staged .empty = .ok ((), seedTables genesis) := by
  rw [StoreM.staged_addHeader_bind_eq_ok]
  exact ⟨Std.ExtTreeMap.getElem?_empty, StoreM.staged_writeCounters _ _⟩

/-- What opening a ledger comes to: an empty store is seeded, a filled one is read. -/
inductive Opened (db : Database) (rules : Rules) (settings : Settings) (genesis : ChainedHeader) :
    Except LedgerError Ledger × Database → Prop
  | seeded {t : Tables} {chain : Chain} {n : Nat} (height : genesis.height = 0)
      (empty : db.committed.tables.chainHeaders = .ok []) (free : db.writerOpen = false)
      (staged : (seeding genesis).staged db.committed.tables = .ok ((), t))
      (headers : chain.headers = [genesis]) :
      Opened db rules settings genesis
        (.ok ⟨rules, settings, chain, .idle, 0⟩, { db with committed := ⟨t, n⟩ })
  | loaded {chain : Chain} (height : genesis.height = 0)
      (stored : db.committed.tables.chainHeaders = .ok chain.headers)
      (same : chain.genesis.hash = genesis.hash) :
      Opened db rules settings genesis (.ok ⟨rules, settings, chain, .idle, 0⟩, db)
  | refused {e : LedgerError} (why : genesis.height = 0 →
      db.committed.tables.chainHeaders = .ok [] → db.writerOpen = false →
      ∀ t, (seeding genesis).staged db.committed.tables ≠ .ok ((), t)) :
      Opened db rules settings genesis (.error e, db)

section Opening

variable {db : Database} {rules : Rules} {settings : Settings} {genesis : ChainedHeader}
  {chain : Chain} {headers : List ChainedHeader} {e : LedgerError}

lemma on_seed (hchain : Chain.ofGenesis genesis = .ok chain) (db : Database) :
    (∃ t n, db.writerOpen = false ∧
      (seeding genesis).staged db.committed.tables = .ok ((), t) ∧
      (seed genesis).on ⟨db, .idle⟩ = (.ok chain, ⟨{ db with committed := ⟨t, n⟩ }, .idle⟩)) ∨
    ∃ e, (db.writerOpen = false →
        (seeding genesis).staged db.committed.tables = .error e) ∧
      (seed genesis).on ⟨db, .idle⟩ = (.error e, ⟨db, .idle⟩) := by
  cases hw : db.writerOpen with
  | true =>
    refine .inr ⟨.transactionState .writerBusy, (fun h => nomatch h), ?_⟩
    rw [seed, StoreM.on_bind, StoreM.on_atomically_busy hw]
  | false =>
    rcases StoreM.on_atomically_free hw (seeding genesis) with
      ⟨⟨⟩, t, n, hstaged, hon⟩ | ⟨e, hstaged, hon⟩
    · refine .inl ⟨t, n, rfl, hstaged, ?_⟩
      rw [seed, StoreM.on_bind, hon, hchain, hw]
      rfl
    · refine .inr ⟨e, fun _ => hstaged, ?_⟩
      rw [seed, StoreM.on_bind, hon]

lemma on_read_idle (db : Database) : (StoreM.read Tables.chainHeaders).on ⟨db, .idle⟩ =
    (db.committed.tables.chainHeaders, ⟨db, .idle⟩) := rfl

lemma on_loadChain_error (h : db.committed.tables.chainHeaders = .error e)
    (genesis : ChainedHeader) : (loadChain genesis).on ⟨db, .idle⟩ = (.error e, ⟨db, .idle⟩) := by
  rw [loadChain, StoreM.on_bind, on_read_idle, h]

lemma on_loadChain_nil (h : db.committed.tables.chainHeaders = .ok []) (genesis : ChainedHeader) :
    (loadChain genesis).on ⟨db, .idle⟩ = (seed genesis).on ⟨db, .idle⟩ := by
  rw [loadChain, StoreM.on_bind, on_read_idle, h]
  rfl

/-- Stored headers are loaded when they form a chain that starts at the given genesis header. -/
lemma on_loadChain_filled (h : db.committed.tables.chainHeaders = .ok headers)
    (hne : headers ≠ []) (genesis : ChainedHeader) :
    (∃ chain : Chain, chain.headers = headers ∧ chain.genesis.hash = genesis.hash ∧
      (loadChain genesis).on ⟨db, .idle⟩ = (.ok chain, ⟨db, .idle⟩)) ∨
    ∃ e, (loadChain genesis).on ⟨db, .idle⟩ = (.error e, ⟨db, .idle⟩) := by
  have hempty : ¬ headers.isEmpty = true := by simpa using hne
  have hload : (loadChain genesis).on ⟨db, .idle⟩ =
      (do
        let chain ← StoreM.lift ((Chain.ofHeaders headers).mapError .chain)
        if chain.genesis.hash = genesis.hash then return chain
        else StoreM.fail (.chain (.otherGenesis chain.genesis.hash genesis.hash)) :
        StoreM Chain).on ⟨db, .idle⟩ := by
    rw [loadChain, StoreM.on_bind, on_read_idle, h]
    dsimp only
    rw [if_neg hempty]
  rw [hload, StoreM.on_bind, StoreM.on_lift]
  cases hchain : Chain.ofHeaders headers with
  | error fault => exact .inr ⟨.chain fault, rfl⟩
  | ok chain =>
    dsimp only [Except.mapError]
    by_cases hsame : chain.genesis.hash = genesis.hash
    · rw [if_pos hsame, StoreM.on_pure]
      exact .inl ⟨chain, Chain.headers_of_ofHeaders hchain, hsame, rfl⟩
    · rw [if_neg hsame, StoreM.on_fail]
      exact .inr ⟨_, rfl⟩

lemma openOn_eq_ok {s : Session} (height : genesis.height = 0)
    (h : (loadChain genesis).on ⟨db, .idle⟩ = (.ok chain, s)) :
    openOn db rules settings genesis = (.ok ⟨rules, settings, chain, s.cursor, 0⟩, s.db) := by
  rw [openOn, if_neg (not_not.2 height), h]

lemma openOn_eq_error {s : Session} (height : genesis.height = 0)
    (h : (loadChain genesis).on ⟨db, .idle⟩ = (.error e, s)) :
    openOn db rules settings genesis = (.error e, s.release.db) := by
  rw [openOn, if_neg (not_not.2 height), h]

theorem opening (db : Database) (rules : Rules) (settings : Settings) (genesis : ChainedHeader) :
    Opened db rules settings genesis (openOn db rules settings genesis) := by
  by_cases height : genesis.height = 0
  · cases hheaders : db.committed.tables.chainHeaders with
    | error e =>
      rw [openOn_eq_error height (on_loadChain_error hheaders genesis)]
      exact .refused fun _ h => by simp [hheaders] at h
    | ok headers =>
      by_cases hempty : headers = []
      · rw [hempty] at hheaders
        have hload := on_loadChain_nil hheaders genesis
        obtain ⟨chain, hchain, hlist⟩ := Chain.ofGenesis_eq_ok height
        rcases on_seed hchain db with ⟨t, n, free, hstaged, hon⟩ | ⟨e, hstaged, hon⟩
        · rw [openOn_eq_ok height (hload.trans hon)]
          exact .seeded height hheaders free hstaged hlist
        · rw [openOn_eq_error height (hload.trans hon)]
          exact .refused fun _ _ free t ht => by simp [hstaged free] at ht
      · have hne : db.committed.tables.chainHeaders ≠ .ok [] := by simp [hheaders, hempty]
        rcases on_loadChain_filled hheaders hempty genesis with
          ⟨chain, hlist, hsame, hon⟩ | ⟨e, hon⟩
        · rw [openOn_eq_ok height hon]
          exact .loaded height (by rw [hheaders, hlist]) hsame
        · rw [openOn_eq_error height hon]
          exact .refused fun _ h => absurd h hne
  · have hopen : openOn db rules settings genesis =
        (.error (.chain (.genesisHeight genesis.hash genesis.height)), db) := if_pos height
    rw [hopen]
    exact .refused fun h => absurd h height

/-- A store is opened with the genesis header of its chain, and stays as it is. -/
lemma openOn_stored (rules : Rules) (settings : Settings)
    (stored : db.committed.tables.chainHeaders = .ok chain.headers) (height : genesis.height = 0)
    (same : chain.genesis.hash = genesis.hash) :
    openOn db rules settings genesis = (.ok ⟨rules, settings, chain, .idle, 0⟩, db) := by
  have hempty : ¬ chain.headers.isEmpty = true := by simpa using chain.nonempty
  refine openOn_eq_ok (s := ⟨db, .idle⟩) height ?_
  rw [loadChain, StoreM.on_bind, on_read_idle, stored]
  dsimp only
  rw [if_neg hempty, StoreM.on_bind, StoreM.on_lift, Chain.ofHeaders_headers]
  dsimp only [Except.mapError]
  rw [if_pos same, StoreM.on_pure]

end Opening

/-- A fresh database takes any genesis header at height zero. -/
theorem openOn_fresh (rules : Rules) (settings : Settings) {genesis : ChainedHeader}
    (height : genesis.height = 0) : ∃ chain db, chain.headers = [genesis] ∧
      db.committed.tables = seedTables genesis ∧ db.writerOpen = false ∧
      openOn .fresh rules settings genesis = (.ok ⟨rules, settings, chain, .idle, 0⟩, db) := by
  have h := opening .fresh rules settings genesis
  generalize openOn .fresh rules settings genesis = r at h
  cases h with
  | @seeded t chain n _ _ free staged headers =>
    cases (staged_seeding genesis).symm.trans staged
    exact ⟨chain, _, headers, rfl, rfl, rfl⟩
  | @loaded chain _ stored _ => exact absurd (Except.ok.inj stored).symm chain.nonempty
  | refused why => exact absurd (staged_seeding genesis) (why height rfl rfl _)

/-- An idle ledger leaves nothing behind. -/
lemma closeOn_of_idle {l : Ledger} (idle : l.cursor = .idle) (db : Database) :
    l.closeOn db = db := by
  simp [closeOn, Session.release, idle]

/-- A ledger that was opened on some database and then took calls, each on whatever the database had
become and with whatever the archive held. -/
inductive InUse : Ledger → Prop
  | opened {db db' : Database} {rules : Rules} {settings : Settings} {genesis : ChainedHeader}
      {l : Ledger} (h : openOn db rules settings genesis = (.ok l, db')) : InUse l
  | called {l : Ledger} (h : InUse l) (archive : Archive) (call : Call) (db : Database) :
      InUse ((call.run archive).on ⟨l, db⟩).2.ledger

/-- Between calls a ledger has no transaction open. -/
theorem InUse.idle {l : Ledger} (h : l.InUse) : l.cursor = .idle := by
  induction h with
  | @opened db db' rules settings genesis l h =>
    have hopened := opening db rules settings genesis
    rw [h] at hopened
    cases hopened with
    | seeded => rfl
    | loaded => rfl
  | called h archive call db ih =>
    have hkept : Kept archive (fun _ => True) fun s => s.ledger.cursor = .idle := by
      refine ⟨id, ?_, ?_, ?_⟩
      · intro header s s' _ idle hon
        have hadded := added idle archive header
        rw [hon] at hadded
        cases hadded with
        | connected _ _ _ _ moved => exact moved.idle
      · intro header s s' idle hon
        have hremoved := removed idle archive
        rw [hon] at hremoved
        cases hremoved with
        | disconnected _ _ _ _ _ moved => exact moved.idle
      · intro s idle
        exact idle
    exact hkept.after_call (fun _ _ => trivial) ih

end Ledger
end UtxoLedger

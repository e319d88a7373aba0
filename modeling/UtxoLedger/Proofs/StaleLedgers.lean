import Mathlib.Tactic.Common
import UtxoLedger.Proofs.SharedLedgers

/-!
# Ledgers that were overtaken

A ledger knows its own chain only, and what it compares with the store is the name and the height of
one tip. Headers are made one on top of the other, so a name at a height fixes everything below it:
a ledger that moves the store was up to date, and one that others have overtaken can neither add a
block nor take one back. So the stored chain changes by one block at its tip and by nothing else,
and the store stays what connecting that chain anew gives.
-/
namespace UtxoLedger

namespace ChainedHeader

/-- A genesis header, or one chained onto a known header that was made so, as long as heights do not
run over. -/
inductive Made (H : ChainedHeader → Prop) : ChainedHeader → Prop
  | genesis (h : BlockHeader) : Made H (.genesis h)
  | onto {parent made : ChainedHeader} {h : BlockHeader} (known : H parent)
      (before : Made H parent) (chained : parent.onto h = .ok made)
      (room : parent.height.toInt + 1 < 2 ^ 31) : Made H made

variable {H : ChainedHeader → Prop} {a : ChainedHeader}

lemma Made.nonneg (made : Made H a) : 0 ≤ a.height.toInt := by
  induction made with
  | genesis h => exact le_rfl
  | onto known before chained room ih =>
    obtain ⟨-, rfl⟩ := onto_eq_ok.1 chained
    rw [toInt_height_above ih room]
    omega

lemma Made.real (made : Made H a) : a.hash = a.header.hash := by
  cases made with
  | genesis h => rfl
  | onto known before chained room =>
    obtain ⟨-, rfl⟩ := onto_eq_ok.1 chained
    rfl

end ChainedHeader

/-- The known headers were made one above the other, their names tell their fields apart, and no
chain of them repeats a name. -/
structure MadeHeaders (H : ChainedHeader → Prop) : Prop where
  made : ∀ h, H h → ChainedHeader.Made H h
  apart : ∀ a b, H a → H b → a.hash = b.hash → a.header = b.header
  distinct : ∀ chain : Chain, (∀ h ∈ chain.headers, H h) →
    (chain.headers.map ChainedHeader.hash).Nodup

namespace MadeHeaders

variable {H : ChainedHeader → Prop}

/-- A name and a height determine a known header: its fields, and through them its parent and the
work below it. -/
lemma eq_of_hash (headers : MadeHeaders H) {a b : ChainedHeader} (made : ChainedHeader.Made H a)
    (ha : H a) (hb : H b) (hash : a.hash = b.hash) (height : a.height = b.height) : a = b := by
  induction made generalizing b with
  | genesis h =>
    cases headers.made b hb with
    | genesis h' => exact congrArg _ (headers.apart _ _ ha hb hash)
    | @onto parent _ h' known before chained room =>
      -- only a genesis header is at height zero
      obtain ⟨-, rfl⟩ := ChainedHeader.onto_eq_ok.1 chained
      have habove := ChainedHeader.toInt_height_above (h := h') before.nonneg room
      rw [← height] at habove
      have hzero : (ChainedHeader.genesis h).height.toInt = 0 := rfl
      have hnonneg := before.nonneg
      omega
  | @onto parent made h known before chained room ih =>
    obtain ⟨hprev, rfl⟩ := ChainedHeader.onto_eq_ok.1 chained
    have hfields := headers.apart _ _ ha hb hash
    have habove := ChainedHeader.toInt_height_above (h := h) before.nonneg room
    have hnonneg := before.nonneg
    cases headers.made b hb with
    | genesis h' =>
      rw [height] at habove
      have hzero : (ChainedHeader.genesis h').height.toInt = 0 := rfl
      omega
    | @onto parent' _ h' known' before' chained' room' =>
      obtain ⟨hprev', rfl⟩ := ChainedHeader.onto_eq_ok.1 chained'
      have habove' := ChainedHeader.toInt_height_above (h := h') before'.nonneg room'
      -- the same fields name the same parent, one height below
      obtain rfl : h = h' := hfields
      have hparent : parent.height = parent'.height := by
        rw [← Int32.toInt_inj]
        rw [height] at habove
        omega
      rw [ih known known' (hprev.symm.trans hprev') hparent]

lemma traceable (headers : MadeHeaders H) : Traceable H where
  real h hh := (headers.made h hh).real
  apart a _ ha hb := headers.eq_of_hash (headers.made a ha) ha hb
  distinct := headers.distinct

end MadeHeaders

variable {H : ChainedHeader → Prop} {P : Rules → Settings → Prop} {archive : Archive}

namespace Shares

variable {s s' : LedgerSession} {header : ChainedHeader}

/-- The chain of a ledger is the stored one exactly if its headers are the stored ones. -/
lemma upToDate_iff (named : Traceable H) (sound : archive.Sound) (hs : Shares H P archive s) :
    UpToDate P archive s ↔ s.db.committed.tables.chainHeaders = .ok s.ledger.chain.headers := by
  constructor
  · rintro ⟨t, vetted, agrees⟩
    exact (Stored.chainHeaders_tip? named sound hs.serves.known vetted agrees).1
  · intro headers
    exact (hs.stored.of_chainHeaders named sound headers).2

/-- One block more: the stored chain is that of the ledger before and after. -/
lemma add_moves (named : Traceable H) (sound : archive.Sound) (hs : Shares H P archive s)
    (hH : H header) (hon : (Ledger.add archive header).on s = (.ok (), s')) :
    s.db.committed.tables.chainHeaders = .ok s.ledger.chain.headers ∧
      s'.db.committed.tables.chainHeaders = .ok (s.ledger.chain.headers ++ [header]) := by
  obtain ⟨before, hs', after⟩ := hs.add named sound hH hon
  have hadded := Ledger.added hs.serves.idle archive header
  rw [hon] at hadded
  cases hadded with
  | connected found free staged grown moved =>
    have grown := (Chain.add_eq_ok.1 grown).2
    rw [← moved.chain] at grown
    rw [← grown]
    exact ⟨(hs.upToDate_iff named sound).1 before, (hs'.upToDate_iff named sound).1 after⟩

/-- One block less. -/
lemma removeTip_moves (named : Traceable H) (sound : archive.Sound) (hs : Shares H P archive s)
    (hon : (Ledger.removeTip archive).on s = (.ok header, s')) :
    ∃ below, s.ledger.chain.headers = below ++ [header] ∧
      s.db.committed.tables.chainHeaders = .ok s.ledger.chain.headers ∧
      s'.db.committed.tables.chainHeaders = .ok below := by
  obtain ⟨before, hs', after⟩ := hs.removeTip named sound hon
  have hremoved := Ledger.removed hs.serves.idle archive
  rw [hon] at hremoved
  cases hremoved with
  | @disconnected _ _ chain _ above found free staged shrunk moved =>
    obtain ⟨_, hremove, hdrop⟩ := Chain.remove_tip_eq_ok above
    cases shrunk.symm.trans hremove
    refine ⟨chain.headers, ?_, (hs.upToDate_iff named sound).1 before, ?_⟩
    · rw [hdrop]
      exact (List.dropLast_append_getLast s.ledger.chain.nonempty).symm
    · rw [← moved.chain]
      exact (hs'.upToDate_iff named sound).1 after

/-- A call neither moves the tables nor the chain of a ledger that was overtaken: whatever steps it
is made of, the first of them that would move is refused. -/
lemma stays (named : Traceable H) (sound : archive.Sound) (chain : Chain) (t : Tables)
    (stale : t.chainHeaders ≠ .ok chain.headers) :
    Ledger.Kept archive H fun s =>
      Shares H P archive s ∧ s.ledger.chain = chain ∧ s.db.committed.tables = t where
  idle hs := hs.1.serves.idle
  add hH hs hon := by
    obtain ⟨hshares, rfl, rfl⟩ := hs
    exact absurd (hshares.add_moves named sound hH hon).1 stale
  removeTip hs hon := by
    obtain ⟨hshares, rfl, rfl⟩ := hs
    obtain ⟨-, -, current, -⟩ := hshares.removeTip_moves named sound hon
    exact absurd current stale
  flush hs := ⟨(kept named sound).flush hs.1, hs.2⟩

/-- A filled store is never emptied. -/
lemma filled (named : Traceable H) (sound : archive.Sound) :
    Ledger.Kept archive H fun s => Shares H P archive s ∧ s.db.committed.tables ≠ .empty where
  idle hs := hs.1.serves.idle
  add hH hs hon := by
    refine ⟨(hs.1.add named sound hH hon).2.1, fun hempty => ?_⟩
    have hmoved := (hs.1.add_moves named sound hH hon).2
    rw [hempty] at hmoved
    exact absurd (Except.ok.inj hmoved).symm (List.concat_ne_nil _ _)
  removeTip hs hon := by
    obtain ⟨-, hs', after⟩ := hs.1.removeTip named sound hon
    refine ⟨hs', fun hempty => ?_⟩
    have hmoved := (hs'.upToDate_iff named sound).1 after
    rw [hempty] at hmoved
    exact absurd (Except.ok.inj hmoved).symm (Chain.nonempty _)
  flush hs := ⟨(kept named sound).flush hs.1, hs.2⟩

end Shares

/-- A store on which a ledger is open holds a chain. -/
lemma Hub.Reached.filled (named : Traceable H) {n : Hub} (run : Hub.Reached H P n) :
    n.ledgers = [] ∨ n.db.committed.tables ≠ .empty := by
  induction run with
  | fresh => exact .inl rfl
  | stored _ _ _ _ ih => exact ih
  | @opened db archive ledgers before genesis known rules settings admitted ih =>
    have sound := before.sound named
    have hopened := Ledger.opening db rules settings genesis
    generalize Ledger.openOn db rules settings genesis = r at hopened ⊢
    cases hopened with
    | @seeded t _ _ _ unfilled _ staged _ =>
      rcases sound.stored.filled with hempty | ⟨chain, t₀, hchain, vetted, agrees⟩
      · rw [hempty] at staged
        cases (Ledger.staged_seeding genesis).symm.trans staged
        refine .inr fun hseeded => ?_
        have hget := congrArg (fun t : Tables => t.headers[Height.key genesis.height]?) hseeded
        simp [Ledger.seedTables, Tables.empty] at hget
      · have hheaders := (Stored.chainHeaders_tip? named sound.archive hchain vetted agrees).1
        exact absurd (Except.ok.inj (hheaders.symm.trans unfilled)) chain.nonempty
    | @loaded chain _ stored _ =>
      refine .inr fun hempty => ?_
      dsimp only at hempty
      rw [hempty] at stored
      exact absurd (Except.ok.inj stored).symm chain.nonempty
    | refused => exact ih
  | @dropped db archive others more l before ih =>
    have idle := ((before.sound named).serves l (by simp)).idle
    rw [Ledger.closeOn_of_idle idle]
    exact .inr (ih.resolve_left (by simp))
  | @called db archive others more l before call known ih =>
    have sound := before.sound named
    have hs := (Shares.filled named sound.archive).after_call known (s := ⟨l, db⟩)
      ⟨⟨sound.serves l (by simp), sound.stored⟩, ih.resolve_left (by simp)⟩
    exact .inr hs.2

namespace Ledger

variable {s : LedgerSession}

/-- Steps leave what single calls leave: up to the first that fails, each is a call of its own. -/
lemma exists_calls_of_follow {hs : List ChainedHeader} {steps : List Chain.Step}
    (brought : ∀ step ∈ steps, step.direction = .forward → step.header ∈ hs) (r : Reorganization) :
    ∃ calls : List Call, (∀ call ∈ calls, call = .removeTip ∨ ∃ h ∈ hs, call = .add h) ∧
      ((follow archive r steps).on s).2 = Call.runAll archive calls s := by
  induction steps generalizing r s with
  | nil => exact ⟨[], by simp, rfl⟩
  | cons step rest ih =>
    have ih := fun r' s' => ih (s := s') (fun step' h => brought step' (.tail _ h)) r'
    unfold follow
    cases hdir : step.direction with
    | backward =>
      have hcall : ((Call.removeTip.run archive).on s).2 = ((removeTip archive).on s).2 := by
        rw [Call.run, LedgerM.on_bind]
        rcases (removeTip archive).on s with ⟨_ | removed, s'⟩ <;> rfl
      rw [LedgerM.on_bind]
      cases hon : (removeTip archive).on s with
      | mk result s' =>
        rw [hon] at hcall
        -- a step that fails, or takes back another header, is the last
        have last : s' = Call.runAll archive [.removeTip] s := hcall.symm
        cases result with
        | error e => exact ⟨[.removeTip], by simp, last⟩
        | ok removed =>
          dsimp only
          split
          · exact ⟨[.removeTip], by simp, last⟩
          · obtain ⟨calls, hcalls, hrest⟩ := ih { r with
              disconnected := r.disconnected ++ [removed] } s'
            refine ⟨.removeTip :: calls, List.forall_mem_cons.2 ⟨.inl rfl, hcalls⟩, ?_⟩
            exact hrest.trans (congrArg (Call.runAll archive calls) hcall.symm)
    | forward =>
      have hmem := brought step List.mem_cons_self hdir
      rw [LedgerM.on_bind]
      cases hon : (add archive step.header).on s with
      | mk result s' =>
        have hcall : (((Call.add step.header).run archive).on s).2 = s' := congrArg Prod.snd hon
        cases result with
        | error e => exact ⟨[.add step.header], by simp [hmem], hcall.symm⟩
        | ok _ =>
          obtain ⟨calls, hcalls, hrest⟩ := ih { r with
            connected := r.connected ++ [step.header] } s'
          refine ⟨.add step.header :: calls,
            List.forall_mem_cons.2 ⟨.inr ⟨_, hmem, rfl⟩, hcalls⟩, ?_⟩
          exact hrest.trans (congrArg (Call.runAll archive calls) hcall.symm)

lemma exists_calls_of_navigateTo (archive : Archive) (target : Chain) (s : LedgerSession) :
    ∃ calls : List Call,
      (∀ call ∈ calls, call = .removeTip ∨ ∃ h ∈ target.headers, call = .add h) ∧
      ((navigateTo archive target).on s).2 = Call.runAll archive calls s := by
  rw [on_navigateTo]
  cases hp : Chain.Path.between s.ledger.chain target with
  | error e => exact ⟨[], by simp, rfl⟩
  | ok path =>
    refine exists_calls_of_follow (fun step hmem hdir => ?_) _
    exact Chain.Path.mem_target_of_mem_steps hp hmem hdir

end Ledger

/-- However many ledgers work on a store, it is the store of one chain: connecting that chain anew,
each block once, gives the committed unspent set and counters. Whichever ledger moves the committed
tables has the stored chain for its own at that moment; a block comes in or goes only at the tip of
that chain. A ledger with another chain is refused every block, in both directions, and nothing that
it is asked for moves the tables or its chain. A navigation moves as single calls do, so others may
come in between its blocks. -/
theorem stale_ledger_harmless (headers : MadeHeaders H) {db : Database} {ledgers : List Ledger}
    (run : Hub.Reached H P ⟨db, archive, ledgers⟩) :
    (db.committed.tables = .empty ∧ ledgers = [] ∨ ∃ (chain : Chain) (s : Session),
      db.committed.tables.chainHeaders = .ok chain.headers ∧
      (chain.rebuild archive).on ⟨.fresh, .idle⟩ = (.ok chain, s) ∧
      db.committed.tables.unspent = s.db.committed.tables.unspent ∧
      db.committed.tables.counters = s.db.committed.tables.counters) ∧
    ∀ l ∈ ledgers,
      (∀ call : Ledger.Call, (∀ h ∈ call.headers, H h) →
        ((call.run archive).on ⟨l, db⟩).2.db.committed.tables ≠ db.committed.tables →
        db.committed.tables.chainHeaders = .ok l.chain.headers) ∧
      (∀ header s', H header → (Ledger.add archive header).on ⟨l, db⟩ = (.ok (), s') →
        db.committed.tables.chainHeaders = .ok l.chain.headers ∧
        s'.db.committed.tables.chainHeaders = .ok (l.chain.headers ++ [header])) ∧
      (∀ header s', (Ledger.removeTip archive).on ⟨l, db⟩ = (.ok header, s') →
        ∃ below, l.chain.headers = below ++ [header] ∧
          db.committed.tables.chainHeaders = .ok l.chain.headers ∧
          s'.db.committed.tables.chainHeaders = .ok below) ∧
      (db.committed.tables.chainHeaders ≠ .ok l.chain.headers →
        (∀ header, H header →
          ∃ e, (Ledger.add archive header).on ⟨l, db⟩ = (.error e, ⟨l, db⟩)) ∧
        (∃ e, (Ledger.removeTip archive).on ⟨l, db⟩ = (.error e, ⟨l, db⟩)) ∧
        ∀ call : Ledger.Call, (∀ h ∈ call.headers, H h) →
          ((call.run archive).on ⟨l, db⟩).2.db.committed.tables = db.committed.tables ∧
          ((call.run archive).on ⟨l, db⟩).2.ledger.chain = l.chain) ∧
      ∀ target : Chain, ∃ calls : List Ledger.Call,
        (∀ call ∈ calls, call = .removeTip ∨ ∃ h ∈ target.headers, call = .add h) ∧
        ((Ledger.navigateTo archive target).on ⟨l, db⟩).2 =
          Ledger.Call.runAll archive calls ⟨l, db⟩ := by
  have named := headers.traceable
  have sound := run.sound named
  refine ⟨?_, fun l hl => ?_⟩
  · rcases sound.stored.filled with hempty | ⟨chain, t, known, vetted, agrees⟩
    · exact .inl ⟨hempty, (run.filled named).resolve_right (not_not.2 hempty)⟩
    · obtain ⟨db', rfl, -, hon⟩ :=
        vetted.built.on_rebuild sound.archive (named.genuine known)
      have hheaders := (Stored.chainHeaders_tip? named sound.archive known vetted agrees).1
      exact .inr ⟨chain, _, hheaders, hon, agrees.unspent, agrees.counters⟩
  have hs : Shares H P archive ⟨l, db⟩ := ⟨sound.serves l hl, sound.stored⟩
  have stays (stale : db.committed.tables.chainHeaders ≠ .ok l.chain.headers)
      (call : Ledger.Call) (known : ∀ h ∈ call.headers, H h) :=
    (Shares.stays named sound.archive l.chain db.committed.tables stale).after_call known
      (s := ⟨l, db⟩) ⟨hs, rfl, rfl⟩
  refine ⟨fun call known moved => ?_, fun header s' hH => hs.add_moves named sound.archive hH,
    fun header s' => hs.removeTip_moves named sound.archive, fun stale => ⟨?_, ?_, ?_⟩,
    fun target => Ledger.exists_calls_of_navigateTo archive target _⟩
  · by_contra stale
    exact moved (stays stale call known).2.2
  · intro header hH
    refine Ledger.add_refused hs.serves.idle fun s' hon => stale ?_
    exact (hs.add_moves named sound.archive hH hon).1
  · refine Ledger.removeTip_refused hs.serves.idle fun header s' hon => stale ?_
    obtain ⟨-, -, current, -⟩ := hs.removeTip_moves named sound.archive hon
    exact current
  · intro call known
    obtain ⟨-, hchain, htables⟩ := stays stale call known
    exact ⟨htables, hchain⟩

lemma Hub.Reached.calls {s : LedgerSession} {others more : List Ledger}
    (before : Hub.Reached H P ⟨s.db, archive, others ++ s.ledger :: more⟩)
    (calls : List Ledger.Call) (known : ∀ call ∈ calls, ∀ h ∈ call.headers, H h) :
    Hub.Reached H P ⟨(Ledger.Call.runAll archive calls s).db, archive,
      others ++ (Ledger.Call.runAll archive calls s).ledger :: more⟩ := by
  induction calls generalizing s with
  | nil => exact before
  | cons call rest ih =>
    exact ih (before.called (known call List.mem_cons_self))
      fun call' h => known call' (List.mem_cons_of_mem _ h)

lemma coinHeaders_made : MadeHeaders (· ∈ coinHeaders) where
  made h hh := by
    have hcoin : ChainedHeader.Made (· ∈ coinHeaders) coinHeader :=
      .onto List.mem_cons_self (.genesis _) (ChainedHeader.onto_eq_ok.2 ⟨rfl, rfl⟩) (by decide)
    simp only [coinHeaders, List.mem_cons, List.not_mem_nil, or_false] at hh
    rcases hh with rfl | rfl | rfl
    · exact .genesis _
    · exact hcoin
    · exact .onto (by simp [coinHeaders]) hcoin (ChainedHeader.onto_eq_ok.2 ⟨rfl, rfl⟩) (by decide)
  apart a b ha hb hash := congrArg _ (coinRun_evaluated.2.1 a ha b hb hash)
  distinct := coinHeaders_genuine.distinct

/-- A ledger stays at genesis, while another on the same store works through the blocks. -/
lemma coinRun_overtaken : Hub.Reached (· ∈ coinHeaders)
    (fun _ settings => settings.maxRollbackDepth = 0)
    ⟨(Ledger.Call.runAll coinArchive coinCalls coinStart).db, coinArchive,
      [coinStart.ledger, (Ledger.Call.runAll coinArchive coinCalls coinStart).ledger]⟩ := by
  have first := coinStart_reachable.hub_singleton List.mem_cons_self
  have hopen : Ledger.openOn coinStart.db coinStart.ledger.rules unprunedSettings soleGenesis =
      (.ok coinStart.ledger, coinStart.db) :=
    Ledger.openOn_stored _ _ (coinStart_reachable.chainHeaders coinHeaders_genuine) rfl rfl
  have second := @Hub.Reached.opened _ _ _ _ _ first soleGenesis List.mem_cons_self
    coinStart.ledger.rules unprunedSettings rfl
  rw [hopen] at second
  have calls : ∀ call ∈ coinCalls, ∀ h ∈ call.headers, h ∈ coinHeaders := by
    simp [coinCalls, coinHeaders, Ledger.Call.headers]
  exact Hub.Reached.calls (s := coinStart) second coinCalls calls

theorem stale_ledger_harmless_coins : ∃ db ledgers l e,
    Hub.Reached (· ∈ coinHeaders) (fun _ settings => settings.maxRollbackDepth = 0)
      ⟨db, coinArchive, ledgers⟩ ∧ l ∈ ledgers ∧ l.chain.headers = [soleGenesis] ∧
    db.committed.tables.chainHeaders = .ok [soleGenesis, coinHeader] ∧
    (Ledger.add coinArchive coinHeader).on ⟨l, db⟩ = (.error e, ⟨l, db⟩) := by
  have run := coinRun_overtaken
  obtain ⟨-, hledgers⟩ := stale_ledger_harmless coinHeaders_made run
  obtain ⟨-, -, -, stale, -⟩ := hledgers coinStart.ledger List.mem_cons_self
  have hne : soleChain.headers ≠ coinChain.headers := by simp [soleChain, coinChain]
  obtain ⟨e, hon⟩ := (stale fun same =>
    hne (Except.ok.inj (same.symm.trans coinRun_chainHeaders))).1 coinHeader (by simp [coinHeaders])
  exact ⟨_, _, _, e, run, List.mem_cons_self, rfl, coinRun_chainHeaders, hon⟩

end UtxoLedger

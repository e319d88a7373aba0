import Mathlib.Tactic.Common
import UtxoLedger.Proofs.SettledBlock

/-!
# The steps of disconnecting a block

Disconnecting takes up the block under the stored tip, brings back what the journal lists as spent,
and from there on turns the unspent table back. The steps are told in terms of that table: what has
to be there for a step to succeed, and what the step makes of it.
-/
namespace UtxoLedger

open StoreM

namespace Journal

variable {t : Tables} {header : ChainedHeader} {b : Block} {j : Journal}

/-- A journal is found if both its entries are there. -/
lemma find?_eq_some : find? t header = .ok (some j) ↔
    t.spent? header.height = .ok (some j.spent) ∧
      t.unminted? header.hash = .ok (some j.unminted) := by
  unfold find?
  cases hspent : t.spent? header.height with
  | error e => simp [bind, Except.bind]
  | ok spent =>
    cases hunminted : t.unminted? header.hash with
    | error e => simp [bind, Except.bind]
    | ok unminted =>
      cases spent <;> cases unminted <;>
        simp [bind, Except.bind, pure, Except.pure, throw, throwThe, MonadExceptOf.throw]
      constructor
      · rintro rfl
        exact ⟨rfl, rfl⟩
      · rintro ⟨rfl, rfl⟩
        rfl

lemma load_eq_ok_iff_find? : load t header = .ok j ↔ find? t header = .ok (some j) := by
  unfold load
  rcases find? t header with e | _ | j' <;>
    simp [bind, Except.bind, pure, Except.pure, throw, throwThe, MonadExceptOf.throw]

/-- A journal is loaded if both its entries are there. -/
lemma load_eq_ok : load t header = .ok j ↔ t.spent? header.height = .ok (some j.spent) ∧
    t.unminted? header.hash = .ok (some j.unminted) := by
  rw [load_eq_ok_iff_find?, find?_eq_some]

lemma entryFault?_of_describes {entries : UnmintedList} {txs : List Transaction}
    (h : Describes entries txs) (i : Nat) : entryFault? i entries txs = none := by
  induction h generalizing i with
  | nil => rfl
  | @cons u tx us txs hentry _ ih =>
    have hcount : sourceCount tx = tx.spending.length := by
      unfold sourceCount Transaction.spending
      split <;> rfl
    rw [entryFault?, if_pos ⟨hentry.1, hcount ▸ hentry.2⟩]
    exact ih (i + 1)

lemma verify_of_describes (h : Describes j.unminted b.txs) : j.verify b = .ok () := by
  rw [verify, if_neg (not_not.2 (List.Forall₂.length_eq h)), entryFault?_of_describes h]

lemma map_hash_of_entryFault? {entries : UnmintedList} {txs : List Transaction} {i : Nat}
    (length : entries.length = txs.length) (h : entryFault? i entries txs = none) :
    entries.map UnmintedTx.hash = txs.map Transaction.hash := by
  induction entries generalizing txs i with
  | nil => rw [List.eq_nil_of_length_eq_zero length.symm, List.map_nil, List.map_nil]
  | cons u us ih =>
    cases txs with
    | nil => exact nomatch length
    | cons tx txs =>
      unfold entryFault? at h
      split at h
      next hentry =>
        rw [List.map_cons, List.map_cons, hentry.1, ih (Nat.succ.inj length) h]
      next => exact nomatch h

/-- A journal goes only with bodies that have its transactions by name, in its order. -/
lemma map_hash_of_verify (h : j.verify b = .ok ()) :
    j.unminted.map UnmintedTx.hash = b.txs.map Transaction.hash := by
  unfold verify at h
  split at h
  · exact nomatch h
  next hlength =>
    split at h
    · exact nomatch h
    next hfault => exact map_hash_of_entryFault? (not_not.1 hlength) hfault

lemma Describes.map_hash {entries : UnmintedList} {txs : List Transaction}
    (h : Describes entries txs) : entries.map UnmintedTx.hash = txs.map Transaction.hash := by
  induction h with
  | nil => rfl
  | cons hentry _ ih => rw [List.map_cons, List.map_cons, hentry.1, ih]

/-- The mentions of a block name by name, as the journal goes through them. -/
lemma map_zip_eq_mentions {entries : UnmintedList} {txs : List Transaction}
    (h : Describes entries txs) : ((txs.zip entries).flatMap fun (tx, u) =>
      tx.inputs.zip u.sources).map (fun e => (e.1.prevout.hash, e.2)) = mentions txs entries := by
  induction h with
  | nil => rfl
  | @cons u tx us txs hentry _ ih =>
    have hfirst : (tx.inputs.zip u.sources).map (fun e => (e.1.prevout.hash, e.2)) =
        tx.mentions u.sources := by
      have hlength := hentry.2
      unfold Transaction.mentions Transaction.sourceNames Transaction.spending at *
      split at hlength
      · rw [List.length_nil, List.length_eq_zero_iff] at hlength
        simp [hlength]
      next hcoinbase =>
        rw [if_neg hcoinbase, List.zip_map_left]
        rfl
    simp only [List.zip_cons_cons, List.flatMap_cons, List.map_append, mentions]
    rw [hfirst, ih]
    rfl

lemma getElem?_foldl_insert {es : List (TxInput × TxLocation)} {name : Hash} {place : TxLocation}
    (hagree : ∀ e ∈ es, e.1.prevout.hash = name → e.2 = place) (m : Std.ExtTreeMap Hash TxLocation)
    (h : m[name]? = some place ∨ ∃ e ∈ es, e.1.prevout.hash = name) :
    (es.foldl (fun m e => m.insert e.1.prevout.hash e.2) m)[name]? = some place := by
  induction es generalizing m with
  | nil => simpa using h
  | cons e es ih =>
    refine ih (fun e' he' => hagree e' (.tail _ he')) _ ?_
    rw [Std.ExtTreeMap.getElem?_insert]
    by_cases hname : e.1.prevout.hash = name
    · left
      rw [hname, Std.ReflOrd.compare_self, if_pos rfl, hagree e List.mem_cons_self hname]
    · rw [if_neg (fun heq => hname (Std.LawfulEqOrd.eq_of_compare heq))]
      rcases h with hm | ⟨e', he', hname'⟩
      · exact .inl hm
      · rcases List.mem_cons.1 he' with rfl | he'
        · exact absurd hname' hname
        · exact .inr ⟨e', he', hname'⟩

/-- If all mentions of a source agree, that is its location. -/
lemma getElem?_locations (hd : Describes j.unminted b.txs) {name : Hash} {place : TxLocation}
    (hmem : (name, place) ∈ mentions b.txs j.unminted)
    (hagree : ∀ p p', (name, p) ∈ mentions b.txs j.unminted →
      (name, p') ∈ mentions b.txs j.unminted → p = p') :
    (j.locations b)[name]? = some place := by
  rw [← map_zip_eq_mentions hd] at hmem hagree
  refine getElem?_foldl_insert (fun e he hname => ?_) ∅ (.inr ?_)
  · exact hagree _ _ (List.mem_map.2 ⟨e, he, by rw [hname]⟩) hmem
  · obtain ⟨e, he, heq⟩ := List.mem_map.1 hmem
    exact ⟨e, he, congrArg Prod.fst heq⟩

end Journal

namespace Disconnecting

variable {d d' : Disconnecting} {t t' : Tables} {V V' : Table} {l : Locator}
  {places : Std.ExtTreeMap Hash TxLocation}

/-- The record under which a spent transaction comes back. -/
def skeleton (name : Hash) (place : TxLocation) (source : Transaction) : UnspentTx :=
  ⟨name, place.height, place.index, .filled source.outputs.length .spent⟩

/-- The listed transactions come back one after the other, each under a name that is free. -/
inductive Restores (l : Locator) (places : Std.ExtTreeMap Hash TxLocation) :
    SpentList → Table → Table → Prop
  | nil (V : Table) : Restores l places [] V V
  | cons {name : Hash} {rest : SpentList} {place : TxLocation} {source : Transaction} {V V' : Table}
      (located : places[name]? = some place) (resolved : l.resolve place name = .ok source)
      (free : V[name.bytes]? = none) (more : Restores l places rest
        (V.insert name.bytes (skeleton name place source).encode) V') :
      Restores l places (name :: rest) V V'

lemma staged_restore_eq_ok {names : SpentList} {counters counters' : Counters} :
    (restore l places counters names).staged t = .ok (counters', t') ↔
      ∃ V, Restores l places names t.unspent V ∧
        counters' = counters.raise .unspentTxs names.length ∧ t' = { t with unspent := V } := by
  induction names generalizing counters t with
  | nil =>
    constructor
    · intro h
      cases h
      exact ⟨_, .nil _, (Counters.raise_zero _ _).symm, rfl⟩
    · rintro ⟨V, h, rfl, rfl⟩
      cases h
      rw [List.length_nil, Counters.raise_zero]
      rfl
  | cons name rest ih =>
    have hcount (cs : Counters) : (cs.raise .unspentTxs 1).raise .unspentTxs rest.length =
        cs.raise .unspentTxs (name :: rest).length := by
      rw [Counters.raise_raise, List.length_cons, Nat.add_comm]
    unfold restore
    cases hplace : places[name]? with
    | none =>
      constructor
      · intro h
        exact nomatch h
      · rintro ⟨V, h, -⟩
        cases h with
        | cons located => exact nomatch hplace.symm.trans located
    | some place =>
      dsimp only
      rw [staged_consistent_bind_eq_ok]
      constructor
      · rintro ⟨source, resolved, h⟩
        rw [tryAddUnspent, staged_tryInsert_bind] at h
        split at h
        · exact nomatch (staged_require_bind_eq_ok.1 h).1
        next hfree =>
          obtain ⟨V, hV, rfl, rfl⟩ := ih.1 (staged_require_bind_eq_ok.1 h).2
          have hfree := Table.contains_eq_false.1 (Bool.eq_false_iff.2 hfree)
          exact ⟨V, .cons hplace resolved hfree hV, hcount _, rfl⟩
      · rintro ⟨V, h, rfl, rfl⟩
        cases h with
        | @cons _ _ place' source _ _ located resolved free more =>
          cases hplace.symm.trans located
          refine ⟨source, resolved, ?_⟩
          rw [tryAddUnspent, staged_tryInsert_bind]
          refine (if_neg (Tables.not_contains free)).trans ?_
          refine staged_require_bind_eq_ok.2 ⟨rfl, ?_⟩
          exact ih.2 ⟨V, more, (hcount _).symm, rfl⟩

lemma staged_start_eq_ok {archive : Archive} {header : ChainedHeader} {block : Block} :
    (start archive header block).staged t = .ok (d, t') ↔
      (∃ tip, t.tip? = .ok (some tip) ∧ tip.hash = header.hash ∧ tip.height = header.height) ∧
      block.hash = header.hash ∧ ∃ j counters V, Journal.load t header = .ok j ∧
        j.verify block = .ok () ∧ t.readCounters = .ok counters ∧
        Restores ⟨archive, header, block⟩ (j.locations block) j.spent t.unspent V ∧
        d = ⟨⟨archive, header, block⟩, j, counters.raise .unspentTxs j.spent.length⟩ ∧
        t' = { t with unspent := V } := by
  simp only [start, staged_checkTip_bind_eq_ok, staged_consistent_bind_eq_ok,
    staged_read_bind_eq_ok, Locator.make_eq_ok]
  simp only [staged_bind_eq_ok, staged_restore_eq_ok, staged_pure, Except.ok.injEq, Prod.mk.injEq]
  constructor
  · rintro ⟨htip, l, ⟨hhash, rfl⟩, j, hj, ⟨⟩, hverify, counters, hcounters, cs, u,
      ⟨V, hV, rfl, rfl⟩, rfl, rfl⟩
    exact ⟨htip, hhash, j, counters, V, hj, hverify, hcounters, hV, rfl, rfl⟩
  · rintro ⟨htip, hhash, j, counters, V, hj, hverify, hcounters, hV, rfl, rfl⟩
    exact ⟨htip, _, ⟨hhash, rfl⟩, j, hj, (), hverify, counters, hcounters, _, _,
      ⟨V, hV, rfl, rfl⟩, rfl, rfl⟩

/-- What comes back was away, and comes back once. -/
lemma Restores.nodup {names : SpentList} (h : Restores l places names V V') :
    names.Nodup ∧ ∀ name ∈ names, V[name.bytes]? = none := by
  induction h with
  | nil => exact ⟨List.nodup_nil, by simp⟩
  | @cons name rest place source V V' _ _ free _ ih =>
    have hne {other : Hash} (hother : other ∈ rest) : name ≠ other ∧ V[other.bytes]? = none := by
      have hnone := ih.2 other hother
      rw [Table.getElem?_insert] at hnone
      split at hnone
      · exact nomatch hnone
      next hkey => exact ⟨fun heq => hkey (by rw [heq]), hnone⟩
    refine ⟨List.nodup_cons.2 ⟨fun hmem => (hne hmem).1 rfl, ih.1⟩, ?_⟩
    intro other hother
    rcases List.mem_cons.1 hother with rfl | hother
    · exact free
    · exact (hne hother).2

/-- Names that are free, listed once and located all come back, and nothing else changes. -/
lemma exists_restores {names : SpentList} (hnodup : names.Nodup)
    (hfree : ∀ name ∈ names, V[name.bytes]? = none)
    (hsource : ∀ name ∈ names, ∃ place source, places[name]? = some place ∧
      l.resolve place name = .ok source) :
    ∃ V', Restores l places names V V' ∧
      (∀ k, (∀ name ∈ names, name.bytes ≠ k) → V'[k]? = V[k]?) ∧
      ∀ name ∈ names, ∃ place source, places[name]? = some place ∧
        l.resolve place name = .ok source ∧
        V'[name.bytes]? = some (skeleton name place source).encode := by
  induction names generalizing V with
  | nil => exact ⟨V, .nil V, fun _ _ => rfl, by simp⟩
  | cons name rest ih =>
    obtain ⟨hnotMem, hnodup⟩ := List.nodup_cons.1 hnodup
    obtain ⟨place, source, located, resolved⟩ := hsource name List.mem_cons_self
    have hne {other : Hash} (hother : other ∈ rest) : name.bytes ≠ other.bytes :=
      fun heq => hnotMem (Hash.bytes_inj.1 heq ▸ hother)
    obtain ⟨V', hrestores, hframe, hback⟩ := ih
      (V := V.insert name.bytes (skeleton name place source).encode) hnodup
      (fun other hother => by
        rw [Table.getElem?_insert, if_neg (hne hother)]
        exact hfree other (.tail _ hother))
      fun other hother => hsource other (.tail _ hother)
    refine ⟨V', .cons located resolved (hfree name List.mem_cons_self) hrestores, ?_, ?_⟩
    · intro k hk
      rw [hframe k fun other hother => hk other (.tail _ hother), Table.getElem?_insert,
        if_neg (hk name List.mem_cons_self)]
    · intro other hother
      rcases List.mem_cons.1 hother with rfl | hother
      · refine ⟨place, source, located, resolved, ?_⟩
        rw [hframe _ fun next hnext => (hne hnext).symm, Table.getElem?_insert, if_pos rfl]
      · exact hback other hother

/-- What a minted transaction left is taken out as long as nothing of it is spent. -/
lemma staged_unmint {tx : Transaction} {name : Hash} {u : UnspentTx} {lowered counters : Counters}
    (houtputs : tx.outputs ≠ []) (found : t.unspent[name.bytes]? = some u.encode)
    (size_lt : u.states.size < 2 ^ 32) (height : u.height = d.locator.header.height)
    (all : u.states.allUnspent = true) (txs : d.counters.lower .unspentTxs 1 = .ok lowered)
    (outputs : lowered.lower .unspentOutputs tx.outputs.length = .ok counters) :
    (d.unmint tx name).staged t =
      .ok ({ d with counters }, { t with unspent := t.unspent.erase name.bytes }) := by
  rw [unmint, if_neg (by simpa using houtputs), staged_read_bind_eq_ok]
  refine ⟨some u, Tables.unspent?_eq_some.2 ⟨found, size_lt⟩, ?_⟩
  refine staged_require_bind_eq_ok.2 ⟨by rw [all, Bool.and_true, decide_eq_true height], ?_⟩
  rw [tryRemoveUnspent, staged_tryErase_bind]
  refine staged_consistent_bind_eq_ok.2 ⟨lowered, txs, ?_⟩
  exact staged_consistent_bind_eq_ok.2 ⟨counters, outputs, rfl⟩

lemma staged_unmint_empty {tx : Transaction} (houtputs : tx.outputs = []) (name : Hash) :
    (d.unmint tx name).staged t = .ok (d, t) := by
  rw [unmint, if_pos (by simp [houtputs])]
  rfl

/-- A spent output of a recorded transaction becomes unspent again. -/
lemma staged_unspend {o : OutPoint} {place : TxLocation} {u : UnspentTx} {states : OutputStates}
    {source : Transaction} (found : t.unspent[o.hash.bytes]? = some u.encode)
    (size_lt : u.states.size < 2 ^ 32) (name : u.hash = o.hash)
    (spent : unspentStates u o = .ok states)
    (resolved : d.locator.resolve place o.hash = .ok source) :
    (d.unspend o place).staged t =
      .ok ((source, { d with counters := d.counters.raise .unspentOutputs 1 }),
        { t with unspent := t.unspent.insert o.hash.bytes { u with states }.encode }) := by
  have hu : t.unspent? o.hash = .ok (some u) := Tables.unspent?_eq_some.2 ⟨found, size_lt⟩
  rw [unspend, staged_read_bind_eq_ok]
  refine ⟨some u, hu, staged_consistent_bind_eq_ok.2 ⟨states, spent, ?_⟩⟩
  refine staged_tryUpdateUnspent_bind_eq_ok.2 (.inr ⟨u, by rw [name]; exact hu, ?_⟩)
  rw [← name] at resolved ⊢
  exact staged_consistent_bind_eq_ok.2 ⟨source, resolved, rfl⟩

lemma staged_unspendAll_append {d₁ d₂ : Disconnecting} {t₁ t₂ : Tables}
    {as bs : List (TxInput × TxLocation)} {sources more : List Transaction}
    (has : (d.unspendAll as).staged t = .ok ((sources, d₁), t₁))
    (hbs : (d₁.unspendAll bs).staged t₁ = .ok ((more, d₂), t₂)) :
    (d.unspendAll (as ++ bs)).staged t = .ok ((sources ++ more, d₂), t₂) := by
  induction as generalizing d t sources with
  | nil =>
    cases has
    exact hbs
  | cons e rest ih =>
    obtain ⟨⟨source, d'⟩, u, hfirst, h⟩ := staged_bind_eq_ok.1 has
    obtain ⟨⟨sources', d''⟩, u', hrest, h⟩ := staged_bind_eq_ok.1 h
    cases h
    refine staged_bind_eq_ok.2 ⟨_, _, hfirst, ?_⟩
    exact staged_bind_eq_ok.2 ⟨_, _, ih hrest, rfl⟩

lemma staged_workOff_append {σ α : Type} {work : σ → α → StoreM (LoadedTx × σ)}
    [∀ s a, Staging (work s a)] {s s₁ s₂ : σ} {t₁ t₂ : Tables} {as bs : List α}
    (has : (Progress.workOff work s as).staged t = .ok (s₁, t₁))
    (hbs : (Progress.workOff work s₁ bs).staged t₁ = .ok (s₂, t₂)) :
    (Progress.workOff work s (as ++ bs)).staged t = .ok (s₂, t₂) := by
  induction as generalizing s t with
  | nil =>
    cases has
    exact hbs
  | cons a rest ih =>
    obtain ⟨⟨l, s'⟩, u, hfirst, hrest⟩ := staged_bind_eq_ok.1 has
    exact staged_bind_eq_ok.2 ⟨_, _, hfirst, ih hrest⟩

lemma staged_checkRestored {names : SpentList} (h : ∀ name ∈ names,
    t.unspent[name.bytes]? = none ∨ ∃ u : UnspentTx, t.unspent[name.bytes]? = some u.encode ∧
      u.states.size < 2 ^ 32 ∧ u.states.allSpent = false) :
    (checkRestored names).staged t = .ok ((), t) := by
  induction names with
  | nil => rfl
  | cons name rest ih =>
    have hrest := ih fun other hother => h other (.tail _ hother)
    rw [checkRestored, staged_read_bind_eq_ok]
    rcases h name List.mem_cons_self with hnone | ⟨u, hu, hlt, hleft⟩
    · exact ⟨none, Tables.unspent?_eq_none.2 hnone, hrest⟩
    · refine ⟨some u, Tables.unspent?_eq_some.2 ⟨hu, hlt⟩, ?_⟩
      exact staged_require_bind_eq_ok.2 ⟨by rw [hleft]; rfl, hrest⟩

/-- Closing an undone block takes away exactly what closing the connected block had added. -/
lemma staged_close {stored : ChainedHeader}
    (hrestored : (checkRestored d.journal.spent).staged t = .ok ((), t))
    (hspent : t.containsSpent d.locator.header.height = true)
    (hunminted : t.containsUnminted d.locator.header.hash = true)
    (hstored : t.headerAt? d.locator.header.height = .ok (some stored))
    (hhash : stored.hash = d.locator.header.hash) :
    d.close.staged t = .ok (d.counters,
      { t.withoutJournal d.locator.header with
        headers := t.headers.erase (Height.key d.locator.header.height)
      }.withCounters d.counters) := by
  have hremove : (Journal.remove d.locator.header).staged t =
      .ok ((), t.withoutJournal d.locator.header) := by
    refine staged_bind_eq_ok.2 ⟨_, _, Journal.staged_erase _ t, ?_⟩
    rw [hspent, hunminted]
    rfl
  have hheader : (removeHeader d.locator.header).staged (t.withoutJournal d.locator.header) =
      .ok ((), { t.withoutJournal d.locator.header with
        headers := t.headers.erase (Height.key d.locator.header.height) }) := by
    refine staged_read_bind_eq_ok.2 ⟨some stored, hstored, ?_⟩
    exact staged_require_bind_eq_ok.2 ⟨decide_eq_true hhash, rfl⟩
  refine staged_bind_eq_ok.2 ⟨_, _, hrestored, ?_⟩
  refine staged_bind_eq_ok.2 ⟨_, _, hremove, ?_⟩
  refine staged_bind_eq_ok.2 ⟨_, _, hheader, ?_⟩
  exact staged_bind_eq_ok.2 ⟨_, _, staged_writeCounters _ _, rfl⟩

end Disconnecting
end UtxoLedger

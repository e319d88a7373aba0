import Mathlib.Tactic.Common
import UtxoLedger.Proofs.CounterExactness

/-!
# Other bodies under the same names

The archive is no part of the store: a body may be put in another's place at any time. Nothing
comes of it as long as no two transactions share a name. Whatever is found bears the name that it
was looked for by, so connecting a block goes as it would over the archive that the chain was built
from, and undoing one either fails or goes the way it would go with the body that was connected.
-/
namespace UtxoLedger

open StoreM

/-- All transactions of the archive are among `T`. -/
def Archive.Knows (T : Transaction → Prop) (a : Archive) : Prop :=
  ∀ hash block, a.block? hash = some block → ∀ tx ∈ block.txs, T tx

namespace Archive

variable {T : Transaction → Prop} {a : Archive}

lemma knows_empty : empty.Knows T := fun _ _ found => by simp [block?, empty] at found

lemma Knows.add (h : a.Knows T) {block : Block} (known : ∀ tx ∈ block.txs, T tx) :
    (a.add block).Knows T := by
  intro hash body found
  rcases eq_or_block?_of_add found with ⟨-, rfl⟩ | hold
  · exact known
  · exact h hash body hold

end Archive

namespace Locator

/-- The locators work on the same transactions under one header, and what both find under a name is
the same. -/
structure Twin (l l' : Locator) : Prop where
  header : l.header = l'.header
  txs : l.block.txs = l'.block.txs
  resolve : ∀ place name tx tx', l.resolve place name = .ok tx → l'.resolve place name = .ok tx' →
    tx = tx'

variable {T : Transaction → Prop} {l l' : Locator} {place : TxLocation} {name : Hash}
  {tx : Transaction}

lemma known_of_resolve (harchive : l.archive.Knows T) (hblock : ∀ tx ∈ l.block.txs, T tx)
    (h : l.resolve place name = .ok tx) : T tx := by
  obtain ⟨-, htx, -⟩ := resolve_eq_ok.1 h
  unfold txAt? at htx
  split at htx
  · exact hblock tx (List.mem_of_getElem? htx)
  · obtain ⟨block, found, hat⟩ := Option.bind_eq_some_iff.1 htx
    exact harchive _ block found tx (List.mem_of_getElem? hat)

/-- Locators over archives of known transactions, no two of which share a name. -/
lemma twin_of_knows (apart : ∀ a b, T a → T b → a.hash = b.hash → a = b)
    (header : l.header = l'.header) (txs : l.block.txs = l'.block.txs)
    (hblock : ∀ tx ∈ l.block.txs, T tx) (harchive : l.archive.Knows T)
    (harchive' : l'.archive.Knows T) : l.Twin l' where
  header := header
  txs := txs
  resolve place name tx tx' h h' := by
    refine apart tx tx' (known_of_resolve harchive hblock h)
      (known_of_resolve harchive' (txs ▸ hblock) h') ?_
    rw [(resolve_eq_ok.1 h).2.2, (resolve_eq_ok.1 h').2.2]

end Locator

namespace Connecting

variable {c c' : Connecting} {a : Archive} {U U' : Table} {o : OutPoint} {source tx : Transaction}
  {place : TxLocation} {inputs : List TxInput} {sources txs : List Transaction}
  {places : List TxLocation} {ld : LoadedTx} {loaded : List LoadedTx}

/-- The archive `a` leads from every record to its transaction, and has nothing else under a name
than what the connection finds. -/
structure BackedUp (a : Archive) (c : Connecting) (U : Table) : Prop where
  keyed : U.Keyed
  grounded : Grounded (c.backedBy a).locator c.chain U
  twin : c.locator.Twin (c.backedBy a).locator

namespace BackedUp

lemma congr (h : BackedUp a c U) (locator : c'.locator = c.locator) (chain : c'.chain = c.chain) :
    BackedUp a c' U := by
  refine ⟨h.keyed, ?_, ?_⟩
  · rw [backedBy, locator, chain]
    exact h.grounded
  · rw [backedBy, locator]
    exact h.twin

/-- The record that is spent from leads to the source in both archives. -/
lemma spend (hb : BackedUp a c U) (h : Spends c o U source place c' U') :
    Spends (c.backedBy a) o U source place (c'.backedBy a) U' ∧ BackedUp a c' U' := by
  have hfound : ∃ u : UnspentTx, U[o.hash.bytes]? = some u.encode ∧ u.states.size < 2 ^ 32 ∧
      c.locator.placeOf c.chain u = .ok place := by
    cases h with
    | last found size_lt _ _ located => exact ⟨_, found, size_lt, located⟩
    | more found size_lt _ _ located => exact ⟨_, found, size_lt, located⟩
  obtain ⟨u, found, size_lt, located⟩ := hfound
  obtain ⟨place', tx, located', resolved, -⟩ := hb.grounded _ u found size_lt
  obtain rfl : place = place' := Except.ok.inj (located.symm.trans located')
  rw [hb.keyed.name_eq found size_lt] at resolved
  obtain rfl := hb.twin.resolve _ _ _ _ h.resolved resolved
  have hspends := h.backedBy_of_resolve resolved
  refine ⟨hspends, (h.exchanges hb.keyed).1, (hspends.own hb.grounded).grounded hb.grounded, ?_⟩
  rw [backedBy, h.sameBlock.locator]
  exact hb.twin

lemma spendAll (hb : BackedUp a c U) (h : SpendsAll c inputs U sources places c' U') :
    SpendsAll (c.backedBy a) inputs U sources places (c'.backedBy a) U' ∧ BackedUp a c' U' := by
  induction h with
  | nil => exact ⟨.nil _ _, hb⟩
  | cons first _ ih =>
    obtain ⟨hfirst, hb₁⟩ := hb.spend first
    obtain ⟨hmore, hb₂⟩ := ih hb₁
    exact ⟨.cons hfirst hmore, hb₂⟩

lemma connect (hb : BackedUp a c U) (h : Connects c tx U ld c' U')
    (hat : c.locator.block.txs[c.position]? = some tx) (hposition : c.position < 2 ^ 31)
    (hlength : tx.outputs.length < 2 ^ 32) :
    Connects (c.backedBy a) tx U ld (c'.backedBy a) U' ∧ BackedUp a c' U' := by
  obtain ⟨new, free, spends, mints⟩ := h
  have hstart : BackedUp a { c with minted := c.minted.insert tx.hash } U := hb.congr rfl rfl
  obtain ⟨hspends, hspent⟩ := hstart.spendAll spends
  have hconnects := Connects.intro (c := c.backedBy a) new free hspends mints.backedBy
  obtain ⟨hlocator, hchain, -⟩ := spends.sameBlock.trans mints.sameBlock.1
  refine ⟨hconnects, (mints.records_perm hspent.keyed hlength).1, ?_, ?_⟩
  · exact hconnects.grounded hb.grounded hat hposition hlength
  · exact (hb.congr hlocator hchain).twin

/-- Connecting a block over one archive is connecting it over the other. -/
theorem connectAll (hb : BackedUp a c U) (h : ConnectsAll c txs U loaded c' U')
    (hat : c.locator.block.txs.drop c.position = txs)
    (hcount : c.locator.block.txs.length ≤ 2 ^ 31)
    (hlength : ∀ tx ∈ txs, tx.outputs.length < 2 ^ 32) :
    ConnectsAll (c.backedBy a) txs U loaded (c'.backedBy a) U' := by
  induction h with
  | nil => exact .nil _ _
  | cons first _ ih =>
    obtain ⟨htx, hposition, hpending, hcount'⟩ := first.next hat hcount
    obtain ⟨hfirst, hb₁⟩ := hb.connect first htx hposition (hlength _ List.mem_cons_self)
    exact .cons hfirst (ih hb₁ hpending hcount' fun tx htx => hlength tx (.tail _ htx))

end BackedUp
end Connecting

namespace StoreM

variable {α α' β β' : Type} {R : α → α' → Prop} {S : β → β' → Prop}

/-- Wherever both succeed they leave the same tables, with results that `R` relates. -/
def Concur (R : α → α' → Prop) (act : StoreM α) (act' : StoreM α') : Prop :=
  ∀ ⦃t t₁ t₂ : Tables⦄ ⦃a : α⦄ ⦃a' : α'⦄, act.staged t = .ok (a, t₁) →
    act'.staged t = .ok (a', t₂) → R a a' ∧ t₁ = t₂

namespace Concur

lemma refl (act : StoreM α) : Concur Eq act act := by
  intro t t₁ t₂ a a' h h'
  cases h.symm.trans h'
  exact ⟨rfl, rfl⟩

lemma pure {a : α} {a' : α'} (h : R a a') : Concur R (Pure.pure a) (Pure.pure a') := by
  intro t t₁ t₂ b b' hb hb'
  cases hb
  cases hb'
  exact ⟨h, rfl⟩

lemma fail (e : LedgerError) (act : StoreM α') : Concur R (StoreM.fail e : StoreM α) act :=
  fun _ _ _ _ _ h => nomatch h

lemma consistent {r : Except Inconsistency α} {r' : Except Inconsistency α'}
    (h : ∀ a a', r = .ok a → r' = .ok a' → R a a') :
    Concur R (StoreM.consistent r) (StoreM.consistent r') := by
  intro t t₁ t₂ a a' ha ha'
  obtain ⟨hr, rfl⟩ := staged_consistent_eq_ok.1 ha
  obtain ⟨hr', rfl⟩ := staged_consistent_eq_ok.1 ha'
  exact ⟨h a a' hr hr', rfl⟩

lemma bind {act : StoreM α} {act' : StoreM α'} {f : α → StoreM β} {f' : α' → StoreM β'}
    [Staging act] [Staging act'] (h : Concur R act act')
    (hf : ∀ a a', R a a' → Concur S (f a) (f' a')) : Concur S (act >>= f) (act' >>= f') := by
  intro t t₁ t₂ b b' hb hb'
  obtain ⟨a, u, ha, hfa⟩ := staged_bind_eq_ok.1 hb
  obtain ⟨a', u', ha', hfa'⟩ := staged_bind_eq_ok.1 hb'
  obtain ⟨hR, rfl⟩ := h ha ha'
  exact hf a a' hR hfa hfa'

/-- Both begin with the same step. -/
lemma after {act : StoreM α} {f : α → StoreM β} {f' : α → StoreM β'} [Staging act]
    (hf : ∀ a, Concur S (f a) (f' a)) : Concur S (act >>= f) (act >>= f') :=
  (refl act).bind fun a _ heq => heq ▸ hf a

end Concur
end StoreM

namespace Disconnecting

variable {d d' : Disconnecting} {l l' : Locator}

/-- Two undos of one block at the same point. -/
structure Twin (d d' : Disconnecting) : Prop where
  locator : d.locator.Twin d'.locator
  journal : d.journal = d'.journal
  counters : d.counters = d'.counters

lemma restore_concurs (h : l.Twin l') (places : Std.ExtTreeMap Hash TxLocation)
    (counters : Counters) (names : SpentList) :
    Concur Eq (restore l places counters names) (restore l' places counters names) := by
  induction names generalizing counters with
  | nil => exact .refl _
  | cons name rest ih =>
    unfold restore
    cases places[name]? with
    | none => exact .fail _ _
    | some place =>
      refine (Concur.consistent (h.resolve place name)).bind fun source source' heq => ?_
      subst heq
      exact .after fun _ => .after fun _ => ih _

lemma start_concurs {archive archive' : Archive} {header : ChainedHeader} {block block' : Block}
    (h : (Locator.mk archive header block).Twin ⟨archive', header, block'⟩) :
    Concur Twin (start archive header block) (start archive' header block') := by
  have hlocations (j : Journal) : j.locations block' = j.locations block := by
    rw [Journal.locations, Journal.locations, show block.txs = block'.txs from h.txs]
  unfold start
  refine .after fun _ => ?_
  refine @Concur.bind _ _ _ _ Locator.Twin _ _ _ _ _ _ _ (.consistent fun l l' hl hl' => ?_)
    fun l l' hl => ?_
  · rw [(Locator.make_eq_ok.1 hl).2, (Locator.make_eq_ok.1 hl').2]
    exact h
  refine .after fun j => ?_
  refine @Concur.bind _ _ _ _ (fun _ _ => True) _ _ _ _ _ _ _ (.consistent fun _ _ _ _ => trivial)
    fun _ _ _ => ?_
  refine .after fun counters => ?_
  rw [hlocations]
  refine (restore_concurs hl _ _ _).bind fun counters counters' heq => ?_
  exact .pure ⟨hl, rfl, heq⟩

lemma Twin.unmint (h : d.Twin d') (tx : Transaction) (name : Hash) :
    Concur Twin (d.unmint tx name) (d'.unmint tx name) := by
  obtain ⟨l, j, counters⟩ := d
  obtain ⟨l', j', counters'⟩ := d'
  obtain ⟨hl, rfl, rfl⟩ := h
  unfold Disconnecting.unmint
  split
  · exact .pure ⟨hl, rfl, rfl⟩
  · refine .after fun u? => ?_
    cases u? with
    | none => exact .fail _ _
    | some u =>
      dsimp only
      rw [show l.header = l'.header from hl.header]
      exact .after fun _ => .after fun _ => .after fun _ => .after fun _ => .pure ⟨hl, rfl, rfl⟩

lemma Twin.unspend (h : d.Twin d') (o : OutPoint) (place : TxLocation) :
    Concur (fun r r' => r.1 = r'.1 ∧ r.2.Twin r'.2) (d.unspend o place) (d'.unspend o place) := by
  unfold Disconnecting.unspend
  refine .after fun u? => ?_
  cases u? with
  | none => exact .fail _ _
  | some u =>
    refine .after fun states => .after fun _ => ?_
    refine (Concur.consistent (h.locator.resolve place o.hash)).bind fun source source' heq => ?_
    exact .pure ⟨heq, h.locator, h.journal, by rw [h.counters]⟩

lemma Twin.unspendAll (h : d.Twin d') (spent : List (TxInput × TxLocation)) :
    Concur (fun r r' => r.1 = r'.1 ∧ r.2.Twin r'.2) (d.unspendAll spent)
      (d'.unspendAll spent) := by
  induction spent generalizing d d' with
  | nil => exact .pure ⟨rfl, h⟩
  | cons e rest ih =>
    refine (h.unspend e.1.prevout e.2).bind ?_
    rintro ⟨source, d₁⟩ ⟨source', d₁'⟩ ⟨hsource, h₁⟩
    refine (ih h₁).bind ?_
    rintro ⟨sources, d₂⟩ ⟨sources', d₂'⟩ ⟨hsources, h₂⟩
    exact .pure ⟨congrArg₂ List.cons hsource hsources, h₂⟩

lemma Twin.disconnect (h : d.Twin d') (item : Transaction × Nat) :
    Concur (fun r r' => r.1 = r'.1 ∧ r.2.Twin r'.2) (d.disconnect item) (d'.disconnect item) := by
  obtain ⟨tx, index⟩ := item
  refine (h.unmint tx tx.hash).bind fun d₁ d₁' h₁ => ?_
  rw [h₁.journal]
  refine (h₁.unspendAll _).bind ?_
  rintro ⟨sources, d₂⟩ ⟨sources', d₂'⟩ ⟨hsources, h₂⟩
  obtain rfl : sources = sources' := hsources
  dsimp only
  rw [show d₂.counters = d₂'.counters from h₂.counters]
  exact .after fun _ => .after fun _ => .after fun _ => .pure ⟨rfl, h₂.locator, h₂.journal, rfl⟩

lemma Twin.workOff (h : d.Twin d') (items : List (Transaction × Nat)) :
    Concur Twin (Progress.workOff Disconnecting.disconnect d items)
      (Progress.workOff Disconnecting.disconnect d' items) := by
  induction items generalizing d d' with
  | nil => exact .pure h
  | cons item rest ih => exact (h.disconnect item).bind fun r r' hr => ih hr.2

lemma Twin.close (h : d.Twin d') : Concur Eq d.close d'.close := by
  unfold Disconnecting.close
  rw [h.journal, h.locator.header, h.counters]
  exact .refl _

/-- Two undos of one block from different archives: if both succeed, they do the same. -/
theorem whole_concurs {archive archive' : Archive} {header : ChainedHeader} {block block' : Block}
    (h : (Locator.mk archive header block).Twin ⟨archive', header, block'⟩) :
    Concur Eq (whole archive header block) (whole archive' header block') := by
  refine (start_concurs h).bind fun d d' hd => ?_
  refine Concur.bind (R := Twin) ?_ fun d₁ d₁' hd₁ => hd₁.close
  change Concur Twin (Progress.workOff _ d d.locator.block.txs.zipIdx.reverse)
    (Progress.workOff _ d' d'.locator.block.txs.zipIdx.reverse)
  rw [hd.locator.txs]
  exact hd.workOff _

end Disconnecting

section Exchanged

variable {T : Transaction → Prop} {stock archive : Archive} {chain : Chain} {full : Prop}
  {live live' t : Tables}

lemma eq_of_map_hash (apart : ∀ a b, T a → T b → a.hash = b.hash → a = b)
    {txs txs' : List Transaction} (known : ∀ tx ∈ txs, T tx) (known' : ∀ tx ∈ txs', T tx)
    (names : txs.map Transaction.hash = txs'.map Transaction.hash) : txs = txs' := by
  induction txs generalizing txs' with
  | nil => exact (List.map_eq_nil_iff.1 names.symm).symm
  | cons tx txs ih =>
    cases txs' with
    | nil => exact nomatch names
    | cons tx' txs' =>
      rw [List.map_cons, List.map_cons, List.cons.injEq] at names
      rw [List.forall_mem_cons] at known known'
      rw [apart tx tx' known.1 known'.1 names.1, ih known.2 known'.2 names.2]

/-- Whatever archive an undo of the tip block has worked with, its tables agree with those of the
chain below. -/
theorem Built.undo_exchanged (built : Built stock chain t) (sound : stock.Sound)
    (genuine : chain.Genuine) (agrees : Agrees full live t) (above : chain.tip.height ≠ 0)
    (apart : ∀ a b, T a → T b → a.hash = b.hash → a = b) (hstock : stock.Knows T)
    (harchive : archive.Knows T) {body : Block}
    (found : archive.block? chain.tip.hash = some body) {cs : Counters}
    (staged : (Disconnecting.whole archive chain.tip body).staged live = .ok (cs, live')) :
    ∃ below t₀, Built stock below t₀ ∧ chain.headers = below.headers ++ [chain.tip] ∧
      Agrees full live' t₀ := by
  obtain ⟨below, block, t₀, cs₀, built₀, grown, hblock, agrees₀, -, undo⟩ :=
    built.undoable sound genuine agrees above
  obtain ⟨hv, hw⟩ := Disconnecting.recorded_of_staged_whole staged
  obtain ⟨succeeds, only⟩ := undo hv hw
  obtain ⟨hnone, hnames⟩ := only archive body _ staged
  have hbody := harchive _ body found
  have htxs : body.txs = block.txs := eq_of_map_hash apart hbody (hstock _ block hblock) hnames
  have twin : (Locator.mk archive chain.tip body).Twin ⟨stock, chain.tip, block⟩ :=
    Locator.twin_of_knows apart rfl htxs hbody harchive hstock
  obtain ⟨-, rfl⟩ := Disconnecting.whole_concurs twin staged (succeeds hnone)
  exact ⟨below, t₀, built₀, grown, agrees₀⟩

end Exchanged

end UtxoLedger

import Mathlib.Tactic.Common
import UtxoLedger.Proofs.LedgerCalls

/-!
# What it takes to be added

However the scripts of a block are shared among workers, the report is that of judging them one
after the other. A block whose transactions connect, whose inputs all find their outputs, whose
scripts are all accepted and which passes the rules is added: nothing else can stop it.
-/
namespace UtxoLedger

open StoreM

namespace Workforce

variable {α : Type} {verify : ScriptVerifier} {items : List ScriptItem}

/-- Shares that are large enough hold every item, in order. -/
lemma flatten_sharesOf {size n : Nat} {items : List α} (h : items.length ≤ n * size) :
    (sharesOf size n items).flatten = items := by
  induction n generalizing items with
  | zero =>
    rw [Nat.zero_mul, Nat.le_zero] at h
    rw [List.eq_nil_of_length_eq_zero h]
    rfl
  | succ n ih =>
    have hrest : (items.drop size).length ≤ n * size := by
      rw [List.length_drop]
      rw [Nat.succ_mul] at h
      omega
    rw [sharesOf, List.flatten_cons, ih hrest, List.take_append_drop]

/-- The shares, laid end to end, are the items. -/
lemma flatten_shares (w : Workforce) (items : List α) : (w.shares items).flatten = items := by
  cases w with
  | inline => simp [shares]
  | workers count =>
    refine flatten_sharesOf ?_
    generalize hn : max 1 (min count items.length) = n
    have hpos : 0 < n := by omega
    have hdiv := Nat.div_add_mod (items.length + n - 1) n
    have hmod := Nat.mod_lt (items.length + n - 1) hpos
    omega

/-- What the workers find between them is what is found in all their shares. -/
lemma collect_judge (verify : ScriptVerifier) (shares : List (List ScriptItem)) :
    ScriptReport.collect (shares.map (judge verify)) = ⟨shares.flatten.length,
      (shares.flatten.filterMap (ScriptItem.failure? verify)).mergeSort
        ScriptFailure.notAfter⟩ := by
  have hcount : ((shares.map (judge verify)).map Prod.fst).foldr (· + ·) 0 =
      shares.flatten.length := by
    induction shares with
    | nil => rfl
    | cons share rest ih =>
      rw [List.map_cons, List.map_cons, List.foldr_cons, ih, List.flatten_cons, List.length_append]
      rfl
  have hfailures : (shares.map (judge verify)).flatMap Prod.snd =
      shares.flatten.filterMap (ScriptItem.failure? verify) := by
    rw [List.flatMap_map, List.filterMap_flatten, List.flatMap_def]
    rfl
  rw [ScriptReport.collect, hcount, hfailures]

/-- The report does not tell how the work was shared. -/
theorem validate_eq (w : Workforce) (verify : ScriptVerifier) (items : List ScriptItem) :
    w.validate verify items = ⟨items.length,
      (items.filterMap (ScriptItem.failure? verify)).mergeSort ScriptFailure.notAfter⟩ := by
  rw [validate, collect_judge, flatten_shares]

lemma result_validate_eq_ok {w : Workforce} : (w.validate verify items).result = .ok () ↔
    ∀ item ∈ items, item.failure? verify = none := by
  have hnil : (w.validate verify items).failures.isEmpty = true ↔
      ∀ item ∈ items, item.failure? verify = none := by
    rw [validate_eq, List.isEmpty_iff_length_eq_zero, List.length_mergeSort,
      List.length_eq_zero_iff, List.filterMap_eq_nil_iff]
  rw [ScriptReport.result, ← hnil]
  split
  next h => simp [h]
  next h => simp [h]

end Workforce

namespace Ledger

variable {l : Ledger} {archive : Archive} {header : ChainedHeader} {block : Block}
  {c c' : Connecting} {t t' : Tables} {txs : List Transaction} {loaded : List LoadedTx}
  {items : List ScriptItem}

/-- Loading a block connects it and lists the script items of its transactions in order. -/
lemma staged_loadAll_eq_ok :
    (loadAll header c txs).staged t = .ok ((loaded, items, c'), t') ↔ ∃ U parts,
      Connecting.ConnectsAll c txs t.unspent loaded c' U ∧
      List.Forall₂ (fun l part => l.scriptItems header = .ok part) loaded parts ∧
      items = parts.flatten ∧ t' = { t with unspent := U } := by
  induction txs generalizing c t loaded items with
  | nil =>
    constructor
    · intro h
      cases h
      exact ⟨_, [], .nil _ _, .nil, rfl, rfl⟩
    · rintro ⟨U, parts, connects, hparts, rfl, rfl⟩
      cases connects
      cases hparts
      rfl
  | cons tx rest ih =>
    refine staged_bind_eq_ok.trans ?_
    constructor
    · rintro ⟨⟨l, c₁⟩, t₁, hfirst, h⟩
      obtain ⟨U₁, first, rfl⟩ := Connecting.staged_connect_eq_ok.1 hfirst
      obtain ⟨part, hpart, h⟩ := staged_consistent_bind_eq_ok.1 h
      obtain ⟨⟨ls, more, c₂⟩, t₂, hmore, h⟩ := staged_bind_eq_ok.1 h
      cases h
      obtain ⟨U₂, parts, connects, hparts, rfl, rfl⟩ := ih.1 hmore
      exact ⟨U₂, part :: parts, .cons first connects, .cons hpart hparts, rfl, rfl⟩
    · rintro ⟨U, parts, connects, hparts, rfl, rfl⟩
      cases connects with
      | cons first more =>
        cases hparts with
        | cons hpart hrest =>
          refine ⟨_, _, Connecting.staged_connect_eq_ok.2 ⟨_, first, rfl⟩, ?_⟩
          refine staged_consistent_bind_eq_ok.2 ⟨_, hpart, ?_⟩
          exact staged_bind_eq_ok.2 ⟨_, _, ih.2 ⟨_, _, more, hrest, rfl, rfl⟩, rfl⟩

/-- A block that passes every check is connected. -/
theorem staged_connectBlock {U : Table} {counters : Counters} {t₁ : Tables}
    {parts : List (List ScriptItem)}
    (start : (Connecting.start archive l.chain header block).staged t = .ok (c, t))
    (connects : Connecting.ConnectsAll c block.txs t.unspent loaded c' U)
    (parted : List.Forall₂ (fun l part => l.scriptItems header = .ok part) loaded parts)
    (close : c'.close.staged { t with unspent := U } = .ok (counters, t₁))
    (scripts : ∀ item ∈ parts.flatten, item.failure? l.rules.verify = none)
    (rules : l.rules.checkBlock header block loaded = .ok ()) :
    (l.connectBlock archive header block).staged t = .ok ((), l.pruned header t₁) := by
  have hload := staged_loadAll_eq_ok.2 ⟨U, parts, connects, parted, rfl, rfl⟩
  refine staged_bind_eq_ok.2 ⟨_, _, start, staged_bind_eq_ok.2 ⟨_, _, hload, ?_⟩⟩
  refine staged_bind_eq_ok.2 ⟨_, _, close, ?_⟩
  refine staged_lift_bind_eq_ok.2 ⟨_, Workforce.result_validate_eq_ok.2 scripts, ?_⟩
  refine staged_lift_bind_eq_ok.2 ⟨_, rules, ?_⟩
  unfold pruned
  cases prunable? l.chain l.settings.maxRollbackDepth header.height <;> rfl

/-- A stored block that can be connected is added, as long as nobody else is writing. -/
theorem on_add_of_staged {s : LedgerSession} (idle : s.ledger.cursor = .idle)
    (free : s.db.writerOpen = false) (found : archive.block? header.hash = some block)
    (staged : (s.ledger.connectBlock archive header block).staged s.db.committed.tables =
      .ok ((), t)) : ∃ s', (add archive header).on s = (.ok (), s') := by
  rw [add, LedgerM.on_bind_of_ok (on_fetch_of_some found s),
    LedgerM.on_bind_of_ok (LedgerM.on_ledger s)]
  have htrans := LedgerM.transacted idle (s.ledger.connectBlock archive header block)
  generalize hstore : (LedgerM.store _).on s = r at htrans
  cases htrans with
  | refused why => cases staged.symm.trans (why free)
  | @published x t n _ staged =>
    obtain ⟨chain, hchain⟩ : ∃ chain, s.ledger.chain.add header = .ok chain := by
      simp [Chain.add, (connected_of_staged staged).extends]
    rw [LedgerM.on_bind_of_ok hstore, hchain]
    have moved : Moved s t chain
        ⟨{ s.ledger with chain := chain }, { s.db with committed := ⟨t, n⟩ }⟩ :=
      ⟨rfl, rfl, rfl, idle, rfl, free⟩
    obtain ⟨s', hcount, -⟩ := on_countBlock moved
    exact ⟨s', hcount⟩

end Ledger
end UtxoLedger

import Mathlib.Tactic.Common
import UtxoLedger.Proofs.HistoryIndependence

/-!
# Unwinding

When no journal is pruned, one thing alone keeps a tip from being disconnected: a transaction of its
block that came back under a name which the block had spent from before. Connecting such a block
succeeds, as the record of the name was gone by then. A ledger that meets one on its way down stays
there, since a removal that fails changes nothing.
-/
namespace UtxoLedger

variable {genesis : ChainedHeader} {H : ChainedHeader → Prop} {P : Rules → Settings → Prop}
  {archive : Archive} {s : LedgerSession}

/-- Up to `n` tips are removed in a row. -/
def unwound (archive : Archive) (n : Nat) (s : LedgerSession) : LedgerSession :=
  Ledger.Call.runAll archive (List.replicate n .removeTip) s

lemma unwound_succ_of_ok {n : Nat} {h : ChainedHeader} {s' : LedgerSession}
    (hon : (Ledger.removeTip archive).on s = (.ok h, s')) :
    unwound archive (n + 1) s = unwound archive n s' := by
  have hcall : ((Ledger.Call.removeTip.run archive).on s).2 = s' := by
    rw [Ledger.Call.run, LedgerM.on_bind, hon]
    rfl
  simp [unwound, Ledger.Call.runAll, List.replicate_succ, hcall]

/-- Where a removal fails, the ledger stays. -/
lemma unwound_of_error {e : LedgerError} (hon : (Ledger.removeTip archive).on s = (.error e, s))
    (n : Nat) : unwound archive n s = s := by
  have hcall : ((Ledger.Call.removeTip.run archive).on s).2 = s := by
    rw [Ledger.Call.run, LedgerM.on_bind, hon]
  induction n with
  | zero => rfl
  | succ n ih =>
    rw [unwound, Ledger.Call.runAll, List.replicate_succ, List.foldl_cons, hcall]
    exact ih

lemma Chain.tail_of_grown {below c : Chain} {h : ChainedHeader}
    (grown : c.headers = below.headers ++ [h]) : c.headers.tail = below.headers.tail ++ [h] := by
  rw [grown, List.tail_append_of_ne_nil below.nonempty]

lemma Chain.tip_mem_tail {c : Chain} (above : c.tip.height ≠ 0) : c.tip ∈ c.headers.tail := by
  obtain ⟨below, -, hdrop⟩ := remove_tip_eq_ok above
  have grown : c.headers = below.headers ++ [c.tip] := by
    rw [hdrop]
    exact (List.dropLast_concat_getLast c.nonempty).symm
  rw [tail_of_grown grown]
  exact List.mem_append_right _ List.mem_cons_self

/-- A ledger gets down to genesis from a block exactly if it does so from the block below. -/
lemma exists_unwound_iff_of_ok {h : ChainedHeader} {s' : LedgerSession}
    (hon : (Ledger.removeTip archive).on s = (.ok h, s'))
    (grown : s.ledger.chain.headers = s'.ledger.chain.headers ++ [h]) :
    (∃ n, (unwound archive n s).ledger.chain.headers = [s.ledger.chain.genesis]) ↔
      ∃ n, (unwound archive n s').ledger.chain.headers = [s'.ledger.chain.genesis] := by
  rw [Chain.genesis_of_grown grown]
  constructor
  · rintro ⟨_ | n, hn⟩
    · have hn : s.ledger.chain.headers = [s'.ledger.chain.genesis] := hn
      have hlength := congrArg List.length (grown.symm.trans hn)
      have hpos := s'.ledger.chain.length_pos
      simp only [List.length_append, List.length_singleton] at hlength
      omega
    · exact ⟨n, by rw [← unwound_succ_of_ok hon, hn]⟩
  · rintro ⟨n, hn⟩
    exact ⟨n + 1, by rw [unwound_succ_of_ok hon, hn]⟩

namespace Follows

/-- A tip above genesis is removed, or a transaction of its block has come back and the session
stays as it is. -/
lemma tip_removed (gen : GenuineHeaders genesis H) (sound : archive.Sound)
    (unpruned : Unpruned P) (hf : Follows H P archive s) (above : s.ledger.chain.tip.height ≠ 0) :
    ∃ (below : Chain) (block : Block),
      s.ledger.chain.headers = below.headers ++ [s.ledger.chain.tip] ∧
      archive.block? s.ledger.chain.tip.hash = some block ∧
      ((block.NoneReturns ∧ ∃ s', (Ledger.removeTip archive).on s = (.ok s.ledger.chain.tip, s') ∧
          s'.ledger.chain = below) ∨
        ¬ block.NoneReturns ∧ ∃ e, (Ledger.removeTip archive).on s = (.error e, s)) := by
  obtain ⟨t, built, agrees⟩ := hf.built
  obtain ⟨below, block, t₀, -, grown, found, hsucceeds, hundo⟩ :=
    built.undo sound (gen.chain hf.known) agrees above
  refine ⟨below, block, grown, found, ?_⟩
  have hremoved := Ledger.removed hf.idle archive
  generalize hon : (Ledger.removeTip archive).on s = r at hremoved
  cases hremoved with
  | @disconnected block' t' chain s' _ found' _ staged shrunk moved =>
    cases found.symm.trans found'
    obtain ⟨cs, hwhole⟩ := Ledger.staged_disconnectBlock.1 staged
    obtain rfl := Chain.eq_of_removed above shrunk grown
    exact .inl ⟨(hsucceeds _ _ hwhole).1, s', rfl, moved.chain⟩
  | refused why =>
    refine .inr ⟨fun hnone => ?_, _, rfl⟩
    obtain ⟨cs, live', hwhole⟩ := hundo unpruned hnone
    exact why block live' above found hf.free (Ledger.staged_disconnectBlock.2 ⟨cs, hwhole⟩)

/-- Unwinding gets down to genesis exactly if nothing has come back in any block on the way. -/
lemma exists_unwound_iff (gen : GenuineHeaders genesis H) (sound : archive.Sound)
    (unpruned : Unpruned P) (hf : Follows H P archive s) :
    (∃ n, (unwound archive n s).ledger.chain.headers = [s.ledger.chain.genesis]) ↔
      ∀ h ∈ s.ledger.chain.headers.tail,
        ∃ block, archive.block? h.hash = some block ∧ block.NoneReturns := by
  -- Every removal shortens the chain.
  induction hlen : s.ledger.chain.headers.length generalizing s with
  | zero => exact absurd (List.length_eq_zero_iff.1 hlen) s.ledger.chain.nonempty
  | succ k ih =>
    by_cases above : s.ledger.chain.tip.height = 0
    · have hone : s.ledger.chain.headers.length = 1 := by
        by_contra hne
        exact Chain.height_ne_zero_iff.2 hne above
      obtain ⟨g, hg⟩ := List.length_eq_one_iff.1 hone
      have hstart : (unwound archive 0 s).ledger.chain.headers = [s.ledger.chain.genesis] := by
        simp [unwound, Ledger.Call.runAll, Chain.genesis, hg]
      simp only [hg, List.tail_cons, List.not_mem_nil, false_imp_iff, implies_true, iff_true]
      exact ⟨0, hstart⟩
    · obtain ⟨below, block, grown, found, hcases⟩ := hf.tip_removed gen sound unpruned above
      have hblock : (∃ b, archive.block? s.ledger.chain.tip.hash = some b ∧ b.NoneReturns) ↔
          block.NoneReturns := by simp [found]
      rw [Chain.tail_of_grown grown, List.forall_mem_append, List.forall_mem_singleton, hblock]
      rcases hcases with ⟨hnone, s', hon, rfl⟩ | ⟨hreturns, e, hon⟩
      · have hlen' : s'.ledger.chain.headers.length = k := by
          rw [grown] at hlen
          simpa using hlen
        rw [exists_unwound_iff_of_ok hon grown, ih (hf.removeTip gen sound hon) hlen']
        simp [hnone]
      · have hone := Chain.height_ne_zero_iff.1 above
        simp only [unwound_of_error hon, hreturns, and_false, iff_false]
        rintro ⟨-, hn⟩
        simp [hn] at hone

end Follows

/-- After any run without pruning, the tip above genesis can be disconnected exactly if no
transaction of its block has come back under a name that the block had spent from; and the ledger
can be unwound to genesis exactly if that is so for every block on its chain. -/
theorem tip_removable_iff (gen : GenuineHeaders genesis H) (unpruned : Unpruned P) {db : Database}
    {l : Ledger} (run : Reachable genesis H P ⟨db, archive, some l⟩) :
    (l.chain.tip.height ≠ 0 → ∃ block, archive.block? l.chain.tip.hash = some block ∧
      ((∃ h s', (Ledger.removeTip archive).on ⟨l, db⟩ = (.ok h, s')) ↔ block.NoneReturns)) ∧
    ((∃ n, (unwound archive n ⟨l, db⟩).ledger.chain.headers = [l.chain.genesis]) ↔
      ∀ h ∈ l.chain.headers.tail,
        ∃ block, archive.block? h.hash = some block ∧ block.NoneReturns) := by
  have sound := run.sound gen
  have hf := sound.follows l rfl
  refine ⟨fun above => ?_, hf.exists_unwound_iff gen sound.archive unpruned⟩
  obtain ⟨_, block, _, found, hcases⟩ := hf.tip_removed gen sound.archive unpruned above
  refine ⟨block, found, ?_⟩
  rcases hcases with ⟨hnone, s', hon, -⟩ | ⟨hreturns, e, hon⟩
  · exact ⟨fun _ => hnone, fun _ => ⟨_, s', hon⟩⟩
  · simp [hon, hreturns]

/-- A coinbase, and a transaction that spends it. -/
def firstBlock : Block := blockAbove soleGenesis [coinbase 1, passOn (coinbase 1)]

def firstHeader : ChainedHeader := soleGenesis.above firstBlock.header

/-- Both come once more, after what the second had minted was passed on. -/
def returningBlock : Block :=
  blockAbove firstHeader [coinbase 1, passOn (passOn (coinbase 1)), passOn (coinbase 1)]

def returningHeader : ChainedHeader := firstHeader.above returningBlock.header

def returningHeaders : List ChainedHeader := [soleGenesis, firstHeader, returningHeader]

def returningArchive : Archive := (Archive.empty.add firstBlock).add returningBlock

/-- Consensus rules, and all journals kept. -/
def Strict (rules : Rules) (settings : Settings) : Prop :=
  (∃ verify, rules = .consensus verify) ∧ settings.maxRollbackDepth = 0

def returningStart : LedgerSession :=
  ⟨⟨.consensus fun _ => .accepted, unprunedSettings, soleChain, .idle, 0⟩,
    (Ledger.openOn .fresh (.consensus fun _ => .accepted) unprunedSettings soleGenesis).2⟩

def returningCalls : List Ledger.Call := [.add firstHeader, .add returningHeader]

lemma returning_evaluated :
    (Ledger.Call.runAll returningArchive returningCalls returningStart).ledger.chain.tip =
      returningHeader ∧
    (∀ a ∈ returningHeaders, ∀ b ∈ returningHeaders, a.hash = b.hash → a = b) ∧
    (Archive.empty.add firstBlock).block? returningBlock.hash = none ∧
    ¬ returningBlock.txs.Pairwise (fun earlier later =>
      later.outputs ≠ [] → later.hash ∉ earlier.sourceNames) := by decide +kernel

lemma returningHeaders_genuine : GenuineHeaders soleGenesis (· ∈ returningHeaders) := by
  refine .of_list List.mem_cons_self ?_ returning_evaluated.2.1
  simp only [returningHeaders, List.forall_mem_cons]
  exact ⟨rfl, ChainedHeader.hash_above _ _, ChainedHeader.hash_above _ _, by simp⟩

/-- The run, on a fresh database with both blocks in the archive. -/
lemma returning_reachable : Reachable soleGenesis (· ∈ returningHeaders) Strict
    ⟨(Ledger.Call.runAll returningArchive returningCalls returningStart).db, returningArchive,
      some (Ledger.Call.runAll returningArchive returningCalls returningStart).ledger⟩ := by
  have stored : Reachable soleGenesis (· ∈ returningHeaders) Strict
      ⟨.fresh, returningArchive, none⟩ := by
    refine (Reachable.fresh.stored firstBlock ?_ ?_).stored returningBlock ?_ ?_
    · exact ⟨by decide, by decide, by decide⟩
    · simp [Archive.block?, Archive.empty]
    · exact ⟨by decide, by decide, by decide⟩
    · simp [returning_evaluated.2.2.1]
  have start : Reachable soleGenesis (· ∈ returningHeaders) Strict
      ⟨returningStart.db, returningArchive, some returningStart.ledger⟩ :=
    stored.start ⟨⟨_, rfl⟩, rfl⟩ rfl rfl
  exact start.calls returningCalls (by
    simp [returningCalls, returningHeaders, Ledger.Call.headers])

/-- Two blocks are connected under the consensus rules, and the upper one cannot be disconnected. -/
theorem tip_removable_iff_returning : ∃ db l,
    Reachable soleGenesis (· ∈ returningHeaders) Strict ⟨db, returningArchive, some l⟩ ∧
    l.chain.tip = returningHeader ∧
    (¬ ∃ h s', (Ledger.removeTip returningArchive).on ⟨l, db⟩ = (.ok h, s')) ∧
    ¬ ∃ n, (unwound returningArchive n ⟨l, db⟩).ledger.chain.headers = [l.chain.genesis] := by
  have run := returning_reachable
  obtain ⟨htip, -, -, hreturns⟩ := returning_evaluated
  have above : (Ledger.Call.runAll returningArchive returningCalls
      returningStart).ledger.chain.tip.height ≠ 0 := by
    rw [htip]
    decide
  obtain ⟨hremovable, hunwound⟩ :=
    tip_removable_iff returningHeaders_genuine (fun _ _ h => h.2) run
  obtain ⟨block, found, hiff⟩ := hremovable above
  have hblock : block = returningBlock := by
    rw [htip] at found
    have hkey : returningHeader.hash = returningBlock.hash := rfl
    simpa [hkey, returningArchive, Archive.add, Archive.block?] using found.symm
  subst hblock
  refine ⟨_, _, run, htip, fun hok => hreturns (hiff.1 hok), fun hdown => ?_⟩
  obtain ⟨block, found', hnone⟩ := hunwound.1 hdown _ (Chain.tip_mem_tail above)
  cases found.symm.trans found'
  exact hreturns hnone

end UtxoLedger

import Mathlib.Algebra.GroupWithZero.Nat
import Mathlib.Data.List.Basic
import Mathlib.Data.List.Perm.Basic
import Mathlib.Tactic.Common
import UtxoLedger.Proofs.BlockAcceptance
import UtxoLedger.Script.Run

/-!
# Every schedule of the script workers

A run of the validation loses no item and judges none twice, whoever takes it and when. It can go
on until everybody has left, and every step brings the end nearer. What is reported in the end is
the number of items and their failures in block order; items at places of their own leave no choice
in that order, so the report is that of judging them one after the other.
-/
namespace UtxoLedger

namespace ScriptFailure

variable {f g k : ScriptFailure}

lemma notAfter_iff : f.notAfter g = true ↔
    f.txIndex < g.txIndex ∨ (f.txIndex = g.txIndex ∧ f.inputIndex ≤ g.inputIndex) := by
  simp [notAfter]

lemma notAfter_trans (hf : f.notAfter g = true) (hg : g.notAfter k = true) :
    f.notAfter k = true := by
  rw [notAfter_iff] at *
  omega

lemma notAfter_total (f g : ScriptFailure) : (f.notAfter g || g.notAfter f) = true := by
  rw [Bool.or_eq_true, notAfter_iff, notAfter_iff]
  omega

lemma position_eq_of_notAfter (hf : f.notAfter g = true) (hg : g.notAfter f = true) :
    f.position = g.position := by
  rw [notAfter_iff] at *
  rw [position, position, Prod.mk.injEq]
  omega

lemma pairwise_mergeSort (failures : List ScriptFailure) :
    (failures.mergeSort notAfter).Pairwise fun f g => f.notAfter g = true :=
  @List.pairwise_mergeSort _ notAfter (fun _ _ _ => notAfter_trans) notAfter_total failures

end ScriptFailure

namespace ScriptItem

variable {verify : ScriptVerifier} {items items' : List ScriptItem} {item : ScriptItem}
  {f g : ScriptFailure}

lemma position_of_failure? (h : item.failure? verify = some f) : f.position = item.position := by
  obtain ⟨reason, -, rfl⟩ := Option.map_eq_some_iff.1 h
  rfl

/-- Of items at places of their own, the place tells the failure. -/
lemma failure_eq_of_position (apart : (items.map position).Nodup)
    (hf : f ∈ items.filterMap (failure? verify)) (hg : g ∈ items.filterMap (failure? verify))
    (same : f.position = g.position) : f = g := by
  obtain ⟨i, hi, hfi⟩ := List.mem_filterMap.1 hf
  obtain ⟨j, hj, hgj⟩ := List.mem_filterMap.1 hg
  rw [position_of_failure? hfi, position_of_failure? hgj] at same
  obtain rfl := List.inj_on_of_nodup_map apart hi hj same
  exact Option.some.inj (hfi.symm.trans hgj)

end ScriptItem

namespace ScriptReport

variable {verify : ScriptVerifier} {items items' : List ScriptItem} {report report' : ScriptReport}

/-- A report that counts every item and lists every failure, as often as it occurs, in block
order. -/
structure Covers (report : ScriptReport) (verify : ScriptVerifier) (items : List ScriptItem) :
    Prop where
  checked : report.checked = items.length
  failures : report.failures.Perm (items.filterMap (ScriptItem.failure? verify))
  sorted : report.failures.Pairwise fun f g => f.notAfter g = true

lemma Covers.of_perm (h : report.Covers verify items) (perm : items.Perm items') :
    report.Covers verify items' :=
  ⟨h.checked.trans perm.length_eq, h.failures.trans (perm.filterMap _), h.sorted⟩

/-- Items at places of their own have only one such report. -/
lemma Covers.unique (h : report.Covers verify items) (h' : report'.Covers verify items)
    (apart : (items.map ScriptItem.position).Nodup) : report = report' := by
  have hfailures : report.failures = report'.failures := by
    refine List.Perm.eq_of_pairwise (fun f g hf hg hfg hgf => ?_) h.sorted h'.sorted
      (h.failures.trans h'.failures.symm)
    exact ScriptItem.failure_eq_of_position apart (h.failures.mem_iff.1 hf)
      (h'.failures.mem_iff.1 hg) (ScriptFailure.position_eq_of_notAfter hfg hgf)
  have hchecked : report.checked = report'.checked := h.checked.trans h'.checked.symm
  cases report
  cases report'
  simp_all

lemma validate_covers (w : Workforce) (verify : ScriptVerifier) (items : List ScriptItem) :
    (w.validate verify items).Covers verify items := by
  rw [Workforce.validate_eq]
  exact ⟨rfl, List.mergeSort_perm _ _, ScriptFailure.pairwise_mergeSort _⟩

end ScriptReport

namespace ScriptRun

variable {verify : ScriptVerifier} {capacity : Nat} {items done : List ScriptItem}
  {first r r' : ScriptRun}

/-- The items that are under judgement. -/
def hands (r : ScriptRun) : List ScriptItem := r.workers.filterMap Worker.hand?

/-- The items `done` have been judged, and the others are still on their way. -/
structure Accounts (verify : ScriptVerifier) (items : List ScriptItem) (r : ScriptRun)
    (done : List ScriptItem) : Prop where
  all : ∀ item, done.count item + r.hands.count item + r.queue.count item +
    r.pending.count item = items.count item
  judged : r.aside.1 + (r.workers.map Worker.judged).sum = done.length
  failures : ∀ failure, r.aside.2.count failure + r.channel.count failure =
    (done.filterMap (ScriptItem.failure? verify)).count failure
  submitted : r.closed = true → r.pending = []
  emptied : r.workers.any Worker.present = false → r.queue = []

lemma accounts_start (workers : Nat) : Accounts verify items (start workers items) [] where
  all item := by
    have hidle : (Worker.waiting 0).hand? = none := rfl
    simp [hands, start, List.filterMap_replicate_of_none hidle]
  judged := by simp [start, Worker.judged]
  failures failure := by simp [start]
  submitted h := nomatch h
  emptied _ := rfl

/-- One step keeps the account; judging an item enters it. -/
lemma Accounts.step (h : Accounts verify items r done) (next : Step verify capacity r r') :
    ∃ done', Accounts verify items r' done' := by
  obtain ⟨hall, hjudged, hfailures, hsubmitted, hemptied⟩ := h
  have hentered (item : ScriptItem) : (done ++ [item]).filterMap (ScriptItem.failure? verify) =
      done.filterMap (ScriptItem.failure? verify) ++ (item.failure? verify).toList := by
    rw [List.filterMap_append]
    cases hf : item.failure? verify <;> simp [hf]
  cases next with
  | @submit item pending queue workers channel aside room staffed =>
    refine ⟨done, ⟨fun i => ?_, hjudged, hfailures, fun h => (nomatch h), fun h => ?_⟩⟩
    · have hi := hall i
      simp only [hands, List.count_append, List.count_cons, List.count_nil] at hi ⊢
      omega
    · rw [staffed] at h
      exact nomatch h
  | @aside item pending queue workers channel failures judged unstaffed =>
    refine ⟨done ++ [item], ⟨fun i => ?_, ?_, fun f => ?_, fun h => (nomatch h), hemptied⟩⟩
    · have hi := hall i
      simp only [hands, List.count_append, List.count_cons, List.count_nil] at hi ⊢
      omega
    · simp only [List.length_append, List.length_singleton] at hjudged ⊢
      omega
    · have hf := hfailures f
      rw [hentered]
      simp only [List.count_append] at hf ⊢
      omega
  | close => exact ⟨done, ⟨hall, hjudged, hfailures, fun _ => rfl, hemptied⟩⟩
  | @take item pending queue closed n before after channel aside =>
    refine ⟨done, ⟨fun i => ?_, ?_, hfailures, hsubmitted, fun h => ?_⟩⟩
    · have hi := hall i
      simp only [hands, List.filterMap_append, List.filterMap_cons, Worker.hand?, List.count_append,
        List.count_cons] at hi ⊢
      omega
    · simpa [Worker.judged] using hjudged
    · simp [Worker.present] at h
  | @judge item pending queue closed n before after channel aside =>
    refine ⟨done ++ [item], ⟨fun i => ?_, ?_, fun f => ?_, hsubmitted, fun h => ?_⟩⟩
    · have hi := hall i
      simp only [hands, List.filterMap_append, List.filterMap_cons, Worker.hand?, List.count_append,
        List.count_cons, List.count_nil] at hi ⊢
      omega
    · simp [Worker.judged] at hjudged ⊢
      omega
    · have hf := hfailures f
      rw [hentered]
      simp only [List.count_append] at hf ⊢
      omega
    · simp [Worker.present] at h
  | @leave pending n before after channel aside =>
    refine ⟨done, ⟨fun i => ?_, ?_, hfailures, hsubmitted, fun _ => rfl⟩⟩
    · have hi := hall i
      simp only [hands, List.filterMap_append, List.filterMap_cons, Worker.hand?] at hi ⊢
      exact hi
    · simpa [Worker.judged] using hjudged

lemma Leads.accounts {workers : Nat} (h : Leads verify capacity (start workers items) r) :
    ∃ done, Accounts verify items r done := by
  induction h with
  | refl => exact ⟨[], accounts_start workers⟩
  | step _ next ih =>
    obtain ⟨done, haccounts⟩ := ih
    exact haccounts.step next

/-- Somebody can take a step, until everybody has left. -/
lemma exists_step (room : 0 < capacity) (going : ¬ r.Finished) :
    ∃ r', Step verify capacity r r' := by
  obtain ⟨pending, queue, closed, workers, channel, aside⟩ := r
  cases hstaffed : workers.any Worker.present with
  | true =>
    obtain ⟨worker, hmem, hpresent⟩ := List.any_eq_true.1 hstaffed
    obtain ⟨before, after, rfl⟩ := List.append_of_mem hmem
    cases worker with
    | gone n => exact nomatch hpresent
    | judging n item => exact ⟨_, .judge⟩
    | waiting n =>
      cases queue with
      | cons item queue => exact ⟨_, .take⟩
      | nil =>
        cases closed with
        | true => exact ⟨_, .leave⟩
        | false =>
          cases pending with
          | nil => exact ⟨_, .close⟩
          | cons item pending => exact ⟨_, .submit room hstaffed⟩
  | false =>
    cases closed with
    | true => exact absurd ⟨rfl, hstaffed⟩ going
    | false =>
      cases pending with
      | nil => exact ⟨_, .close⟩
      | cons item pending =>
        obtain ⟨judged, failures⟩ := aside
        exact ⟨_, .aside hstaffed⟩

/-- What is left to do: items are submitted, taken and judged, the queue is closed, and the workers
leave. -/
def effort (r : ScriptRun) : Nat :=
  3 * r.pending.length + 2 * r.queue.length + r.hands.length + (if r.closed then 0 else 1) +
    r.workers.countP Worker.present

lemma Step.effort_lt (next : Step verify capacity r r') : r'.effort < r.effort := by
  cases next with
  | submit =>
    simp [effort, hands]
    omega
  | aside => simp [effort, hands]
  | close => simp [effort, hands]
  | take =>
    simp [effort, hands, List.filterMap_cons, Worker.hand?, List.countP_cons, Worker.present]
    omega
  | judge =>
    simp [effort, hands, List.filterMap_cons, Worker.hand?, List.countP_cons, Worker.present]
  | leave =>
    simp [effort, hands, List.filterMap_cons, Worker.hand?, List.countP_cons, Worker.present]

/-- No run goes on for ever. -/
lemma wellFounded_step (verify : ScriptVerifier) (capacity : Nat) :
    WellFounded fun r' r => Step verify capacity r r' :=
  Subrelation.wf Step.effort_lt (measure effort).wf

/-- A run that has begun can be brought to its end. -/
lemma Leads.exists_finished (room : 0 < capacity) (h : Leads verify capacity first r) :
    ∃ last, Leads verify capacity first last ∧ last.Finished := by
  induction r using (wellFounded_step verify capacity).induction with
  | _ r ih =>
    by_cases hend : r.Finished
    · exact ⟨r, h, hend⟩
    · obtain ⟨r', next⟩ := exists_step room hend
      exact ih r' next (h.step next)

lemma report_eq (r : ScriptRun) : r.report = ⟨r.aside.1 + (r.workers.map Worker.judged).sum,
    (r.aside.2 ++ r.channel).mergeSort ScriptFailure.notAfter⟩ := by
  have hcount : ((r.workers.map fun w => (w.judged, ([] : List ScriptFailure))).map
      Prod.fst).foldr (· + ·) 0 = (r.workers.map Worker.judged).sum := by
    rw [List.map_map]
    rfl
  have hnone : (r.workers.map fun w => (w.judged, ([] : List ScriptFailure))).flatMap Prod.snd =
      [] := by
    simp
  rw [report, ScriptReport.collect, List.map_cons, List.map_cons, List.foldr_cons, List.foldr_cons,
    hcount, List.flatMap_cons, List.flatMap_cons, hnone, List.append_nil, Nat.zero_add]

/-- In the end everything is judged. -/
lemma Accounts.perm_of_finished (h : Accounts verify items r done) (ended : r.Finished) :
    done.Perm items := by
  have hnone : r.hands = [] := by
    rw [hands, List.filterMap_eq_nil_iff]
    intro w hw
    have hgone := List.any_eq_false.1 ended.2 w hw
    cases w <;> simp_all [Worker.present, Worker.hand?]
  rw [List.perm_iff_count]
  intro item
  have hitem := h.all item
  rw [hnone, h.submitted ended.1, h.emptied ended.2] at hitem
  simpa using hitem

/-- The report of a run that has ended covers all items. -/
theorem Leads.covers {workers : Nat} (h : Leads verify capacity (start workers items) r)
    (ended : r.Finished) : r.report.Covers verify items := by
  obtain ⟨done, haccounts⟩ := h.accounts
  have hall := haccounts.perm_of_finished ended
  have hfailures : (r.aside.2 ++ r.channel).Perm (done.filterMap (ScriptItem.failure? verify)) := by
    rw [List.perm_iff_count]
    intro failure
    rw [List.count_append]
    exact haccounts.failures failure
  rw [report_eq]
  refine ⟨haccounts.judged.trans hall.length_eq, ?_, ScriptFailure.pairwise_mergeSort _⟩
  exact (List.mergeSort_perm _ _).trans (hfailures.trans (hall.filterMap _))

end ScriptRun

end UtxoLedger

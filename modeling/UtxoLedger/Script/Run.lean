import UtxoLedger.Script.Validation

/-!
# Validation under way

One validation, step by step. Items are submitted one after the other to a bounded queue, from which
the workers take them; a worker judges one item at a time and sends what there is against it into a
channel that all workers share. Once everything is submitted the queue is closed, and a worker that
finds it empty leaves. With no worker present an item is judged as it is submitted. Which of the
possible steps comes next is left open, so that the runs are all schedules of the workers.
-/
namespace UtxoLedger

/-- A worker waits for an item, judges one, or has left; it counts the items it has judged. -/
inductive Worker
  | waiting (judged : Nat)
  | judging (judged : Nat) (item : ScriptItem)
  | gone (judged : Nat)
  deriving DecidableEq

namespace Worker

/-- The number of items judged. -/
def judged : Worker → Nat
  | waiting n | judging n _ | gone n => n

/-- The item under judgement. -/
def hand? : Worker → Option ScriptItem
  | judging _ item => some item
  | _ => none

/-- Has not left. -/
def present : Worker → Bool
  | gone _ => false
  | _ => true

end Worker

/-- A validation under way: what is still to be submitted, the queue and whether it is closed, the
workers, the failures sent so far, and what was judged without a worker. -/
structure ScriptRun where
  pending : List ScriptItem
  queue : List ScriptItem
  closed : Bool
  workers : List Worker
  channel : List ScriptFailure
  aside : Nat × List ScriptFailure
  deriving DecidableEq

namespace ScriptRun

/-- The run before anything is submitted. -/
def start (workers : Nat) (items : List ScriptItem) : ScriptRun :=
  ⟨items, [], false, List.replicate workers (.waiting 0), [], (0, [])⟩

/-- One step, under a verifier and with room for so many items in the queue. -/
inductive Step (verify : ScriptVerifier) (capacity : Nat) : ScriptRun → ScriptRun → Prop
  | submit {item : ScriptItem} {pending queue : List ScriptItem} {workers : List Worker}
      {channel : List ScriptFailure} {aside : Nat × List ScriptFailure}
      (room : queue.length < capacity) (staffed : workers.any Worker.present = true) :
      Step verify capacity ⟨item :: pending, queue, false, workers, channel, aside⟩
        ⟨pending, queue ++ [item], false, workers, channel, aside⟩
  | aside {item : ScriptItem} {pending queue : List ScriptItem} {workers : List Worker}
      {channel failures : List ScriptFailure} {judged : Nat}
      (unstaffed : workers.any Worker.present = false) :
      Step verify capacity ⟨item :: pending, queue, false, workers, channel, (judged, failures)⟩
        ⟨pending, queue, false, workers, channel,
          (judged + 1, failures ++ (item.failure? verify).toList)⟩
  | close {queue : List ScriptItem} {workers : List Worker} {channel : List ScriptFailure}
      {aside : Nat × List ScriptFailure} :
      Step verify capacity ⟨[], queue, false, workers, channel, aside⟩
        ⟨[], queue, true, workers, channel, aside⟩
  | take {item : ScriptItem} {pending queue : List ScriptItem} {closed : Bool} {n : Nat}
      {before after : List Worker} {channel : List ScriptFailure}
      {aside : Nat × List ScriptFailure} :
      Step verify capacity
        ⟨pending, item :: queue, closed, before ++ .waiting n :: after, channel, aside⟩
        ⟨pending, queue, closed, before ++ .judging n item :: after, channel, aside⟩
  | judge {item : ScriptItem} {pending queue : List ScriptItem} {closed : Bool} {n : Nat}
      {before after : List Worker} {channel : List ScriptFailure}
      {aside : Nat × List ScriptFailure} :
      Step verify capacity
        ⟨pending, queue, closed, before ++ .judging n item :: after, channel, aside⟩
        ⟨pending, queue, closed, before ++ .waiting (n + 1) :: after,
          channel ++ (item.failure? verify).toList, aside⟩
  | leave {pending : List ScriptItem} {n : Nat} {before after : List Worker}
      {channel : List ScriptFailure} {aside : Nat × List ScriptFailure} :
      Step verify capacity ⟨pending, [], true, before ++ .waiting n :: after, channel, aside⟩
        ⟨pending, [], true, before ++ .gone n :: after, channel, aside⟩

/-- What comes of a run by any number of steps. -/
inductive Leads (verify : ScriptVerifier) (capacity : Nat) (first : ScriptRun) : ScriptRun → Prop
  | refl : Leads verify capacity first first
  | step {r r' : ScriptRun} (before : Leads verify capacity first r)
      (next : Step verify capacity r r') : Leads verify capacity first r'

/-- The queue is closed and everybody has left. -/
def Finished (r : ScriptRun) : Prop := r.closed = true ∧ r.workers.any Worker.present = false

instance (r : ScriptRun) : Decidable r.Finished := inferInstanceAs (Decidable (_ ∧ _))

/-- The report that is drawn up in the end: what was judged aside comes first, then the failures in
the order of the channel, and the counts of the workers. -/
def report (r : ScriptRun) : ScriptReport :=
  .collect (r.aside :: (0, r.channel) :: r.workers.map fun w => (w.judged, []))

end ScriptRun
end UtxoLedger

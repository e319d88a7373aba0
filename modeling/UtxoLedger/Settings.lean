import UtxoLedger.Json
import UtxoLedger.Script.Validation

/-!
# Settings

How a ledger schedules script validation, how often it flushes, and how far back it can undo. The
settings are read from JSON: an object with any of five keys, or the five values in order.
-/
namespace UtxoLedger

structure Settings where
  /-- `none` leaves the number of workers to the machine. -/
  scriptWorkers : Option UInt64
  concurrentScripts : Bool
  queueCapacity : UInt64
  /-- Blocks between flushes; zero for no flush on its own. -/
  flushInterval : UInt32
  /-- Journals this far below the tip are dropped; zero keeps all. -/
  maxRollbackDepth : UInt32
  deriving DecidableEq

/-- Why settings are refused. -/
inductive SettingsFault
  | malformed
  | noWorkers
  | noCapacity
  | rollbackDepth
  deriving DecidableEq

def SettingsFault.message : SettingsFault → String
  | malformed => "failed to parse chain-state config"
  | noWorkers => "script_workers must be at least 1"
  | noCapacity => "script_queue_capacity must be at least 1"
  | rollbackDepth => "max_rollback_depth must not exceed 2147483647"

namespace Settings

/-- What holds for everything that is not set. -/
def default : Settings := ⟨none, true, 4096, 100, 2016⟩

/-- One worker on the spot, and no flush on its own. -/
def deterministic : Settings := ⟨some 1, false, 4096, 0, 2016⟩

/-- A key, and what its value does to the settings. -/
structure Field where
  key : String
  set? : Json → Settings → Option Settings

/-- The five fields in order. -/
def fields : List Field :=
  [⟨"script_workers", fun v s =>
      (v.natBelow? UInt64.size).map fun n => { s with scriptWorkers := some (UInt64.ofNat n) }⟩,
   ⟨"concurrent_script_validation", fun v s =>
      v.bool?.map fun b => { s with concurrentScripts := b }⟩,
   ⟨"script_queue_capacity", fun v s =>
      (v.natBelow? UInt64.size).map fun n => { s with queueCapacity := UInt64.ofNat n }⟩,
   ⟨"flush_interval", fun v s =>
      (v.natBelow? UInt32.size).map fun n => { s with flushInterval := UInt32.ofNat n }⟩,
   ⟨"max_rollback_depth", fun v s =>
      (v.natBelow? UInt32.size).map fun n => { s with maxRollbackDepth := UInt32.ofNat n }⟩]

/-- Reads members one by one. A known key may come once; unknown keys are passed over. -/
def ofMembers (seen : List String) (s : Settings) :
    List (Option String × Json) → Option Settings
  | [] => some s
  | (none, _) :: _ => none
  | (some key, v) :: rest =>
    match fields.find? fun f => f.key = key with
    | none => ofMembers seen s rest
    | some f =>
      if seen.contains key then none
      else match f.set? v s with
        | none => none
        | some s => ofMembers (key :: seen) s rest

/-- Reads values in field order; fewer values leave the last fields as they are. -/
def ofItems (s : Settings) : List Field → List Json → Option Settings
  | _, [] => some s
  | [], _ :: _ => none
  | f :: fs, v :: vs =>
    match f.set? v s with
    | none => none
    | some s => ofItems s fs vs

def ofJson? : Json → Option Settings
  | .object members => ofMembers [] default members
  | .array items => ofItems default fields items
  | _ => none

/-- The first limit that settings break. -/
def fault? (s : Settings) : Option SettingsFault :=
  if s.scriptWorkers = some 0 then some .noWorkers
  else if s.queueCapacity = 0 then some .noCapacity
  else if 2147483647 < s.maxRollbackDepth then some .rollbackDepth
  else none

/-- Reads and checks settings. -/
def parse (text : String) : Except SettingsFault Settings :=
  match (Json.parse? text).bind ofJson? with
  | none => .error .malformed
  | some s =>
    match s.fault? with
    | some fault => .error fault
    | none => .ok s

/-- Writes settings as an object; a number of workers left open is left out. -/
def render (s : Settings) : String :=
  let workers := match s.scriptWorkers with
    | some n => "\"script_workers\":" ++ toString n ++ ","
    | none => ""
  "\x7b" ++ workers ++ "\"concurrent_script_validation\":" ++ toString s.concurrentScripts
    ++ ",\"script_queue_capacity\":" ++ toString s.queueCapacity
    ++ ",\"flush_interval\":" ++ toString s.flushInterval
    ++ ",\"max_rollback_depth\":" ++ toString s.maxRollbackDepth ++ "\x7d"

/-- Who validates the scripts under these settings. -/
def workforce (s : Settings) : Workforce :=
  if s.concurrentScripts then .workers (s.scriptWorkers.getD 1).toNat else .inline

end Settings
end UtxoLedger

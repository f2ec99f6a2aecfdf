import GraphLowering.Command.Host
import GraphLowering.Command.Outcome
import GraphLowering.Timing.Summary

/-! # The command that reports timing records

Prints the records of a stream, or statistics by kind. -/

namespace GraphLowering.Command.ReportTiming

open Timing (Reading Sample)

def flags : List Flag := [
  ⟨"sort", .switch, "With -sums, order kinds by total time"⟩,
  ⟨"sums", .switch, "Print per-kind statistics instead of raw records"⟩]

inductive Fault where
  | flags (f : FlagFault)
  /-- There is not exactly one file. -/
  | operands
  | openStream (path : String) (f : FileFault)
  /-- The stream cannot be read to its end. -/
  | stream (reason : String)
  /-- The same when statistics were asked for. -/
  | statistics (reason : String)
deriving DecidableEq, Repr

namespace Fault

def message : Fault → String
  | flags f => f.message
  | operands => "expected one timeslice file"
  | openStream path f => "open timeslice file: " ++ f.opening path
  | stream reason => reason
  | statistics reason => "read timeslice file: " ++ reason

def isUsage : Fault → Bool
  | flags _ | operands => true
  | _ => false

end Fault

def reporting : Reporting Fault where
  command := "timeslice"
  flags := flags
  message := Fault.message
  usage := Fault.isUsage
  quiet e := e = .flags .help

def sampleText (s : Sample) : String :=
  s.kind.name ++ " " ++ s.kind.flagText ++ " " ++ Timing.durationText s.duration

def listed (r : Reading) : Outcome Fault where
  output := endLines (r.samples.map sampleText)
  fault := r.fault.map fun f => .stream f.message

/-- The statistics, if there is no fault. -/
def summarized (sorted : Bool) (r : Reading) : Outcome Fault :=
  match r.fault with
  | some f => { fault := some (.statistics f.message) }
  | none =>
    let sts := Timing.statistics r.samples
    { output := endLines ((if sorted then Timing.bySum sts else sts).map (·.text)) }

/-- What is said about a directory, which has no bytes. -/
def directoryReason (path : String) : String :=
  "timeslice: read header: " ++ FileFault.isDirectory.reading path

section

variable {m : Type → Type} [Monad m]

def run (h : Host m) (args : List String) : m (Outcome Fault) := do
  match parse flags args with
  | .error f => return { fault := some (.flags f) }
  | .ok p =>
    match p.operands with
    | [path] =>
      let sums := p.isSet "sums"
      match ← h.read path with
      | .error .isDirectory =>
        let reason := directoryReason path
        return { fault := some (if sums then .statistics reason else .stream reason) }
      | .error f => return { fault := some (.openStream path f) }
      | .ok bytes =>
        let r := Timing.readStream bytes
        return if sums then summarized (p.isSet "sort") r else listed r
    | _ => return { fault := some .operands }

end

end GraphLowering.Command.ReportTiming

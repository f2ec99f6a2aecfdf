import GraphLowering.Command.Host
import GraphLowering.Command.Outcome
import GraphLowering.FunctionFile.Build
import GraphLowering.Graph.Listing
import GraphLowering.Lower.Exposition
import GraphLowering.Subtarget.BuiltIn
import GraphLowering.Subtarget.File
import GraphLowering.Usim.Target

/-! # The command that lowers functions

Reads a description and a file of functions, lowers the functions and prints them. -/

namespace GraphLowering.Command.LowerFunctions

open Subtarget (Description)

def flags : List Flag := [
  ⟨"desc", .text, "Subtarget description YAML (default: built-in usim)"⟩,
  ⟨"print-desc", .switch, "Print the effective subtarget description and exit"⟩,
  ⟨"stats", .switch, "Print lowering metrics after the run"⟩,
  ⟨"timeslice", .text, "Write phase timings to this file"⟩,
  ⟨"v", .switch, "Log at debug level"⟩,
  ⟨"workers", .integer, "Functions lowered in parallel"⟩]

inductive Fault where
  | flags (f : FlagFault)
  /-- There is not exactly one file of functions. -/
  | operands
  | readDescription (path : String) (f : FileFault)
  | description (f : Subtarget.Fault)
  | readFunctions (path : String) (f : FileFault)
  | functions (f : FunctionFile.Fault)
  | target (f : Usim.TargetFault)
  | createStream (path : String) (f : FileFault)
  | lowering (f : Lower.Failure)
deriving DecidableEq, Repr

namespace Fault

def message : Fault → String
  | flags f => f.message
  | operands => "usage: usimlower [flags] funcs.yaml"
  | readDescription path f => "subtarget: read " ++ path ++ ": " ++ f.reading path
  | description f => f.message
  | readFunctions path f => "dagfile: read " ++ path ++ ": " ++ f.reading path
  | functions f => f.message
  | target f => f.message
  | createStream path f => "create timeslice file: " ++ f.opening path
  | lowering f => f.message

def isUsage : Fault → Bool
  | flags _ | operands => true
  | _ => false

end Fault

def reporting : Reporting Fault where
  command := "usimlower"
  flags := flags
  message := Fault.message
  usage := Fault.isUsage
  quiet e := e = .flags .help

structure Job where
  target : Lower.Target
  graphs : List Graph
  /-- Where timing records go. -/
  stream : Option String
  verbose : Bool
  stats : Bool

inductive Request where
  | describe (d : Description)
  | lower (job : Job)

section

variable {m : Type → Type} [Monad m]

/-- The description in a file; the built-in one without a file. -/
def loadDescription (h : Host m) (path : String) : ExceptT Fault m Description := do
  if path.isEmpty then return Description.builtIn
  match ← h.read path with
  | .error f => throw (.readDescription path f)
  | .ok bytes =>
    match String.fromUTF8? ⟨bytes.toArray⟩ with
    | none => throw (.description .text)
    | some text => MonadExcept.ofExcept ((Description.parse text).mapError .description)

def loadFunctions (h : Host m) (path : String) : ExceptT Fault m (List Graph) := do
  match ← h.read path with
  | .error f => throw (.readFunctions path f)
  | .ok bytes =>
    match String.fromUTF8? ⟨bytes.toArray⟩ with
    | none => throw (.functions .text)
    | some text => MonadExcept.ofExcept ((FunctionFile.parse text).mapError .functions)

/-- Makes the file for timing records, if there is to be one. -/
def createStream (h : Host m) (path : String) : ExceptT Fault m (Option String) := do
  if path.isEmpty then return none
  match ← h.create path with
  | .error f => throw (.createStream path f)
  | .ok () => return some path

def request (h : Host m) (args : List String) : ExceptT Fault m Request := do
  let p ← MonadExcept.ofExcept ((parse flags args).mapError .flags)
  let d ← loadDescription h (p.text "desc")
  if p.isSet "print-desc" then return .describe d
  match p.operands with
  | [path] =>
    let graphs ← loadFunctions h path
    let target ← MonadExcept.ofExcept ((Usim.targetFor (some d)).mapError .target)
    let stream ← createStream h (p.text "timeslice")
    return .lower { target, graphs, stream, verbose := p.isSet "v", stats := p.isSet "stats" }
  | _ => throw .operands

def Job.text (job : Job) (r : Lower.ModuleResult) : String :=
  Text.join "\n" (r.graphs.map fun g => endLines (g.listing job.target.names)) ++
    if job.stats then "\n" ++ endLines r.metrics.lines else ""

def Job.log (job : Job) (r : Lower.ModuleResult) : List LogRecord :=
  (if job.verbose then r.log.toList else []) ++
    match r.failure with
    | none => []
    | some f => [{ level := .error, message := "lowering failed", fields := [("error", f.message)] }]

def Job.run (h : Host m) (job : Job) : m (Outcome Fault) := do
  let (r, records) ← Lower.lowerModuleTimed h.clock job.target {} {} [] job.graphs
  let file := job.stream.map fun path => (path, Timing.streamBytes Lower.Phase.kinds records)
  return {
    output := if r.failure.isSome then "" else job.text r
    log := job.log r
    fault := r.failure.map .lowering
    file }

def run (h : Host m) (args : List String) : m (Outcome Fault) := do
  match ← (request h args).run with
  | .error f => return { fault := some f }
  | .ok (.describe d) => return { output := d.render }
  | .ok (.lower job) => job.run h

end

end GraphLowering.Command.LowerFunctions

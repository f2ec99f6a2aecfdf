import GraphLowering.Lower.Combine
import GraphLowering.Lower.Legalize

/-! # Lowering functions

A function is legalized, freed of dead nodes, combined and verified. The functions of a module are
lowered one after the other until one fails. -/

namespace GraphLowering.Lower

open Lowering

structure Options where
  libcalls : Libcalls := Libcalls.standard
  /-- How many sweeps legalization may take; the usual number if this is not positive. -/
  maxRounds : Int := 0

def defaultRounds : Int := 8

def Options.rounds (o : Options) : Int := if o.maxRounds ≤ 0 then defaultRounds else o.maxRounds

def verifyNode (t : Target) (kept : List Nat) (id : Nat) : Lowering Unit := do
  let op := (← node id).op
  if op.isTarget || id ∈ kept then return ()
  let action := t.classify op (← nodeTypes id)
  if action ≠ .legal then unsupported id (.remains action)

def verify (t : Target) (kept : List Nat) : Lowering Unit := do
  (← graph).nodes.forM (verifyNode t kept)

def cleanup : Lowering Unit := do
  let (cleaned, removed) := (← graph).removeDead
  setGraph cleaned
  debug "removed dead nodes" [("count", toString removed)]

/-- What a stage does. The nodes that legalization kept as they are go from stage to stage. -/
def stage (t : Target) (o : Options) (kept : List Nat) : Phase → Lowering (List Nat)
  | .legalize => legalizeWithin t o.libcalls o.rounds o.rounds.toNat []
  | .cleanup => do cleanup; return kept
  | .combine => do combine t; return kept
  | .verify => do verify t kept; return kept

/-- How far the lowering of a function has come: the nodes that were kept, or a failure. -/
abbrev Progress := Except Failure (List Nat) × Session

/-- Carries a stage out, unless an earlier one failed, and notes that it ended. -/
def advance (t : Target) (o : Options) (x : Progress) (p : Phase) : Progress :=
  match x with
  | (.error f, s) => (.error f, s)
  | (.ok kept, s) =>
    match stage t o kept p s with
    | (.ok kept, s) => (.ok kept, s.note p)
    | (.error f, s) => (.error f, if p.notesFailure then s.note p else s)

/-- Before the first stage. -/
def begin (s : Session) : Progress := (.ok [], { s with formals := none })

def finish (x : Progress) : Except Failure Unit × Session :=
  let (r, s) := x
  let s := { s with metrics := { s.metrics with functions := s.metrics.functions + 1 } }
  let logged (message : String) (fields : List (String × String)) (s : Session) : Session :=
    let fields := ("function", s.graph.signature.name) :: fields
    { s with log := s.log.push { level := .debug, message, fields } }
  match r with
  | .error f =>
    let s := { s with metrics := { s.metrics with failures := s.metrics.failures + 1 } }
    (.error f, logged "lowering failed" [("error", f.message)] s)
  | .ok _ => (.ok (), logged "lowered function" [("nodes", toString s.graph.size)] s)

def lower (t : Target) (o : Options) : Lowering Unit := fun s =>
  finish (Phase.all.foldl (advance t o) (begin s))

/-- Lowers a graph; counts and log continue those given. -/
def lowerGraph (t : Target) (o : Options) (g : Graph) (metrics : Metrics := {})
    (log : Array LogRecord := #[]) : Except Failure Unit × Session :=
  lower t o (t.session g metrics log)

structure ModuleResult where
  /-- The functions that were lowered. -/
  graphs : List Graph := []
  /-- The functions that were worked on, and whether they were lowered. -/
  done : List (String × Bool) := []
  metrics : Metrics := {}
  phases : Array Phase := #[]
  log : Array LogRecord := #[]
  failure : Option Failure := none

namespace ModuleResult

/-- Adds the outcome of a function that was lowered on its own. -/
def add (m : ModuleResult) (outcome : Except Failure Unit × Session) : ModuleResult :=
  let (r, s) := outcome
  let name := s.graph.signature.name
  let m := { m with
    metrics := m.metrics + s.metrics, log := m.log ++ s.log, phases := m.phases ++ s.phases }
  match r with
  | .error f => { m with done := m.done ++ [(name, false)], failure := some f }
  | .ok () => { m with graphs := m.graphs ++ [s.graph], done := m.done ++ [(name, true)] }

end ModuleResult

/-- Lowers functions in order until one fails. -/
def lowerModule (t : Target) (o : Options) (m : ModuleResult) : List Graph → ModuleResult
  | [] => m
  | g :: rest =>
    let m := m.add (lowerGraph t o g)
    if m.failure.isSome then m else lowerModule t o m rest

end GraphLowering.Lower

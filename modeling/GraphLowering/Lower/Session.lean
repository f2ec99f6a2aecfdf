import GraphLowering.Graph.Build
import GraphLowering.Graph.Reach
import GraphLowering.Log
import GraphLowering.Lower.Failure
import GraphLowering.Lower.Metrics

/-! # Working on a graph

Rules work on a session: the graph of a function that is lowered for a target, and what has been
found out about it. What a rule did before it failed stays in the session. -/

namespace GraphLowering.Lower

inductive Phase where
  | legalize
  | cleanup
  | combine
  | verify
deriving DecidableEq, Repr, Inhabited

namespace Phase

/-- The stages in order. -/
def all : List Phase := [legalize, cleanup, combine, verify]

/-- Whether the end of a stage is noted even if it failed. -/
def notesFailure : Phase → Bool
  | combine => false
  | _ => true

end Phase

structure Session where
  graph : Graph
  /-- The name of the target. -/
  target : String
  /-- How the target calls operations. -/
  opName : Opcode → String
  /-- The values of the parameters, once they are lowered. -/
  formals : Option (List (Option Value)) := none
  log : Array LogRecord := #[]
  metrics : Metrics := {}
  /-- The stages that ended. -/
  phases : Array Phase := #[]

def Session.note (s : Session) (p : Phase) : Session := { s with phases := s.phases.push p }

abbrev Lowering := ExceptT Failure (StateM Session)

namespace Lowering

variable {α : Type}

def graph : Lowering Graph := return (← get).graph

/-- Fails on a graph that no rule makes. -/
def malformed : Lowering α := throw .malformed

def orMalformed : Option α → Lowering α
  | some a => return a
  | none => malformed

def setGraph (g : Graph) : Lowering Unit := modify fun s => { s with graph := g }

def build (f : Graph → Graph × α) : Lowering α := do
  let (g, a) := f (← graph)
  setGraph g
  return a

def build? (f : Graph → Option (Graph × α)) : Lowering α := do
  let (g, a) ← orMalformed (f (← graph))
  setGraph g
  return a

def value (f : Graph → Graph × Value) : Lowering (Option Value) := return some (← build f)

/-- Adds a node and gives its result number `i`. -/
def result (i : Nat) (f : Graph → Graph × Nat) : Lowering (Option Value) :=
  return some ⟨← build f, i⟩

def modifyFrame (f : Frame → Frame) : Lowering Unit :=
  modify fun s => { s with graph := { s.graph with frame := f s.graph.frame } }

def node (id : Nat) : Lowering Node := return (← graph).node id

/-- Operand number `i` of a node, which it must have. -/
def operand (id i : Nat) : Lowering (Option Value) := do
  orMalformed ((← node id).operands[i]?)

/-- The type of result number `i` of a node, which it must have. -/
def resultType (id i : Nat) : Lowering ValueType := do
  orMalformed ((← node id).types[i]?)

def typeOf (v : Option Value) : Lowering ValueType := do
  orMalformed ((← graph).operandType? v)

def nodeOf (v : Option Value) : Lowering Node := do
  node (← orMalformed v).node

def opcodeOf (v : Option Value) : Lowering Opcode := return (← nodeOf v).op

def functionName : Lowering String := return (← graph).signature.name

def targetName : Lowering String := return (← get).target

/-- Fails for a node that the target does not support. -/
def unsupported (id : Nat) (reason : Reason) : Lowering α := do
  let s ← get
  throw (.unsupported s.target s.graph.signature.name (s.opName (s.graph.node id).op) reason)

/-- Fails because a calling convention cannot pass something. -/
def unrepresentable (what : Unpassed) : Lowering α := do
  throw (.unrepresentable (← targetName) (← functionName) what)

def debug (message : String) (fields : List (String × String)) : Lowering Unit :=
  modify fun s =>
    let fields := ("function", s.graph.signature.name) :: fields
    { s with log := s.log.push { level := .debug, message, fields } }

def count (f : Metrics → Metrics) : Lowering Unit :=
  modify fun s => { s with metrics := f s.metrics }

/-- The types that decide how a node is treated: those of its results, then those of its operands
that are not tokens. -/
def nodeTypes (id : Nat) : Lowering (List ValueType) := do
  let n ← node id
  let operands ← n.operands.mapM typeOf
  return n.types ++ operands.filter (!·.isToken)

end Lowering

end GraphLowering.Lower

import GraphLowering.FunctionFile.Entry
import GraphLowering.Graph.Build

/-! # From a function file to graphs

Nodes are built in the order in which they are written. An operand is a name, or a name and the number
of a result. The last node is the root unless the function names another value. -/

namespace GraphLowering.FunctionFile

structure Draft where
  graph : Graph
  /-- The nodes by name, newest first. -/
  names : List (String × Nat)
  last : Option Value := none

structure Typed where
  value : Value
  type : ValueType

def Typed.operand (t : Typed) : Option Value := some t.value

namespace Draft

def splitReference (s : String) : Except Cause (String × Int64) :=
  let cs := s.toList.reverse
  match cs.dropWhile (· ≠ ':') with
  | [] => .ok (s, 0)
  | _ :: name =>
    match Text.readInt64 (cs.takeWhile (· ≠ ':')).reverse with
    | .ok n => .ok (String.ofList name.reverse, n)
    | .error _ => .error (.badOperand s)

def reference (d : Draft) (s : String) : Except Cause Typed := do
  let (name, result) ← splitReference s
  match d.names.lookup name with
  | none => .error (.unknownOperand name)
  | some id =>
    if result < 0 then .error (.noResult name result)
    match (d.graph.node id).types[result.toNatClampNeg]? with
    | none => .error (.noResult name result)
    | some type => return { value := ⟨id, result.toNatClampNeg⟩, type }

def references (d : Draft) (e : NodeEntry) : Except Cause (List Typed) :=
  e.ops.mapM d.reference

/-- The operands of a node that takes `want` of them. -/
def exactly (d : Draft) (e : NodeEntry) (want : Nat) : Except Cause (List Typed) := do
  if e.ops.length ≠ want then .error (.operandCount e.op want e.ops.length)
  d.references e

end Draft

namespace NodeEntry

/-- The type of a node; a chain cannot be a default. -/
def typeOr (e : NodeEntry) (default : ValueType) : Except Cause ValueType :=
  if e.type = "" then
    if default = .chain then .error (.needsType e.op) else .ok default
  else (ValueType.parse e.type).mapError .name

def needType (e : NodeEntry) : Except Cause ValueType := e.typeOr .chain

def condCode (e : NodeEntry) : Except Cause CondCode := (CondCode.parse e.cc).mapError .name

end NodeEntry

def parseTypes (wrap : NameFault → Cause) (names : List String) : Except Cause (List ValueType) :=
  names.mapM fun s => (ValueType.parse s).mapError wrap

namespace Draft

/-- The first result of a node that was just built. -/
def first (built : Graph × Nat) : Graph × Value := (built.1, ⟨built.2, 0⟩)

def leaf (d : Draft) (e : NodeEntry) (op : Opcode) : Except Cause (Graph × Value) := do
  let g := d.graph
  match op with
  | .constant => return g.constant e.value (← e.needType)
  | .undef => return g.undef (← e.needType)
  | .argument =>
    let vt ← e.needType
    if e.index < 0 || Int64.ofNat g.signature.params.length ≤ e.index then
      .error (.argumentRange e.index)
    return g.argument e.index vt
  | .frameAddr => return g.frameAddr e.value (← e.needType)
  | .returnAddr => return g.returnAddr e.value (← e.needType)
  | .globalAddress =>
    if e.symbol = "" then .error (.needsSymbol e.op)
    return g.globalAddress e.symbol e.offset (← e.typeOr .i32)
  | .externalSymbol =>
    if e.symbol = "" then .error (.needsSymbol e.op)
    return g.externalSymbol e.symbol (← e.typeOr .i32)
  | .frameIndex =>
    let vt ← e.typeOr .i32
    if e.size ≤ 0 then .error .frameSize
    let (frame, i) := g.frame.createLocal e.size (if e.align = 0 then e.size else e.align)
    return { g with frame }.frameIndex i vt
  | _ => .error (.notWritable e.op)

def branch (d : Draft) (e : NodeEntry) (op : Opcode) : Except Cause (Graph × Value) := do
  let g := d.graph
  if e.block = "" then .error (.needsBlock e.op)
  match op with
  | .br =>
    match ← d.exactly e 1 with
    | [chain] => return g.br chain.operand e.block
    | ops => .error (.operandCount e.op 1 ops.length)
  | .brCond =>
    match ← d.exactly e 2 with
    | [chain, cond] => return g.brCond chain.operand cond.operand e.block
    | ops => .error (.operandCount e.op 2 ops.length)
  | .brCC =>
    match ← d.exactly e 3 with
    | [chain, a, b] => return g.brCC chain.operand (← e.condCode) a.operand b.operand e.block
    | ops => .error (.operandCount e.op 3 ops.length)
  | _ => .error (.notWritable e.op)

def call (d : Draft) (e : NodeEntry) : Except Cause (Graph × Value) := do
  match ← d.references e with
  | chain :: callee :: args =>
    let results ← parseTypes .result e.results
    let callConv ← (CallConv.parse e.callConv).mapError .name
    if Int64.ofNat args.length < e.fixed then .error (.fixedCount e.fixed args.length)
    let info := { callConv, variadic := e.variadic, fixedArgs := e.fixed, tail := e.tail }
    return first (d.graph.call chain.operand callee.operand (args.map (·.operand)) results info)
  | _ => .error .callOperands

def build (d : Draft) (e : NodeEntry) : Except Cause (Graph × Value) := do
  let g := d.graph
  let op ← (Opcode.parse e.op).mapError .name
  match op with
  | .constant | .undef | .argument | .frameAddr | .returnAddr | .globalAddress | .externalSymbol
  | .frameIndex => d.leaf e op
  | .add | .sub | .mul | .sdiv | .udiv | .srem | .urem | .and | .or | .xor | .shl | .sra | .srl
  | .buildPair =>
    match ← d.exactly e 2 with
    | [a, b] => return g.binary op (← e.typeOr a.type) a.operand b.operand
    | ops => .error (.operandCount e.op 2 ops.length)
  | .signExtend | .zeroExtend | .truncate =>
    match ← d.exactly e 1 with
    | [a] => return g.unary op (← e.needType) a.operand
    | ops => .error (.operandCount e.op 1 ops.length)
  | .extractElement =>
    match ← d.exactly e 1 with
    | [a] => return g.extractElement (← e.typeOr .i32) a.operand e.index
    | ops => .error (.operandCount e.op 1 ops.length)
  | .setCC =>
    match ← d.exactly e 2 with
    | [a, b] => return g.setCC (← e.typeOr .i1) a.operand b.operand (← e.condCode)
    | ops => .error (.operandCount e.op 2 ops.length)
  | .select =>
    match ← d.exactly e 3 with
    | [c, t, f] => return g.select t.type c.operand t.operand f.operand
    | ops => .error (.operandCount e.op 3 ops.length)
  | .selectCC =>
    match ← d.exactly e 4 with
    | [a, b, t, f] =>
      return g.selectCC t.type a.operand b.operand t.operand f.operand (← e.condCode)
    | ops => .error (.operandCount e.op 4 ops.length)
  | .br | .brCond | .brCC => d.branch e op
  | .load =>
    match ← d.exactly e 2 with
    | [chain, ptr] => return first (g.load chain.operand ptr.operand (← e.needType))
    | ops => .error (.operandCount e.op 2 ops.length)
  | .store =>
    match ← d.exactly e 3 with
    | [chain, v, ptr] => return g.store chain.operand v.operand ptr.operand
    | ops => .error (.operandCount e.op 3 ops.length)
  | .atomicLoadAdd =>
    match ← d.exactly e 3 with
    | [chain, ptr, inc] =>
      return first (g.atomicLoadAdd inc.type chain.operand ptr.operand inc.operand)
    | ops => .error (.operandCount e.op 3 ops.length)
  | .tokenFactor => return g.tokenFactor ((← d.references e).map (·.operand))
  | .call => d.call e
  | .ret =>
    match ← d.references e with
    | chain :: values => return g.ret chain.operand (values.map (·.operand))
    | [] => .error .returnChain
  | _ => .error (.notWritable e.op)

def add (k : Decoder) (d : Draft) (n : Yaml.Node) : Except Cause Draft := do
  match k.node? n with
  | none => .error .shape
  | some e =>
    if e.name = "" then .error .noName
    if (d.names.lookup e.name).isSome then .error (.nodeTwice e.name)
    let (graph, v) ← d.build e
    return { graph, names := (e.name, v.node) :: d.names, last := some v }

end Draft

namespace FunctionEntry

def signature (f : FunctionEntry) : Except Cause Signature := do
  return {
    name := f.name
    callConv := ← (CallConv.parse f.callConv).mapError .name
    variadic := f.variadic
    params := ← parseTypes .param f.params
    results := ← parseTypes .result f.results }

/-- Reads the nodes one by one; a fault is at the line of its node. -/
def readNodes (k : Decoder) (f : FunctionEntry) (d : Draft) : List Yaml.Node → Except Fault Draft
  | [] => .ok d
  | n :: rest =>
    match d.add k n with
    | .error cause => .error (.at f.name (some n.line) cause)
    | .ok d => readNodes k f d rest

def rootOf (f : FunctionEntry) (d : Draft) : Except Cause Value := do
  if f.root ≠ "" then return (← d.reference f.root).value
  match d.last with
  | some v => return v
  | none => .error .noNodes

def graph (k : Decoder) (f : FunctionEntry) : Except Fault Graph := do
  let signature ← f.signature.mapError (.at f.name none)
  let start : Draft := { graph := Graph.empty signature, names := [("entry", Graph.entry.node)] }
  let d ← f.readNodes k start f.nodes
  let root ← (f.rootOf d).mapError (.at f.name none)
  return { d.graph with root := some root }

end FunctionEntry

/-- Builds the functions in order; `seen` are the names of those before. -/
def buildAll (k : Decoder) (seen : List String) : List FunctionEntry → Except Fault (List Graph)
  | [] => .ok []
  | f :: rest => do
    if f.name = "" then .error (.unnamed seen.length)
    if f.name ∈ seen then .error (.at f.name none .functionTwice)
    let g ← f.graph k
    return g :: (← buildAll k (f.name :: seen) rest)

namespace Decoder

def build (k : Decoder) : Option (List FunctionEntry) → Except Fault (List Graph)
  | none => .error .text
  | some fs => buildAll k [] fs

def parse (k : Decoder) (text : String) : Except Fault (List Graph) := k.build (k.functions? text)

end Decoder

def parse (text : String) : Except Fault (List Graph) := yaml.parse text

end GraphLowering.FunctionFile

import GraphLowering.Ir.NameFault
import GraphLowering.Text.Decimal
import GraphLowering.Yaml.Decode

/-! # Entries of a function file

A file lists functions. A function lists its nodes in order; every node has a name by which later
nodes refer to it. Which fields of a node matter depends on its operation. -/

namespace GraphLowering.FunctionFile

open Yaml (Mismatch)

structure NodeEntry where
  name : String := ""
  op : String := ""
  type : String := ""
  ops : List String := []
  value : Int64 := 0
  index : Int64 := 0
  symbol : String := ""
  offset : Int64 := 0
  cc : String := ""
  block : String := ""
  size : Int64 := 0
  align : Int64 := 0
  results : List String := []
  callConv : String := ""
  variadic : Bool := false
  fixed : Int64 := 0
  tail : Bool := false
deriving DecidableEq, Repr, Inhabited

/-- A function as it is written; its nodes are read one after the other. -/
structure FunctionEntry where
  name : String := ""
  callConv : String := ""
  variadic : Bool := false
  params : List String := []
  results : List String := []
  root : String := ""
  nodes : List Yaml.Node := []

namespace NodeEntry

def ofNode (n : Yaml.Node) : Except Mismatch (Option NodeEntry) := do
  let some fs ← n.asFields | return none
  return some {
    name := ← fs.get "name" Yaml.Node.asText ""
    op := ← fs.get "op" Yaml.Node.asText ""
    type := ← fs.get "type" Yaml.Node.asText ""
    ops := ← fs.get "ops" (Yaml.Node.asList Yaml.Node.asText) []
    value := ← fs.get "value" Yaml.Node.asInt64 0
    index := ← fs.get "index" Yaml.Node.asInt64 0
    symbol := ← fs.get "symbol" Yaml.Node.asText ""
    offset := ← fs.get "offset" Yaml.Node.asInt64 0
    cc := ← fs.get "cc" Yaml.Node.asText ""
    block := ← fs.get "block" Yaml.Node.asText ""
    size := ← fs.get "size" Yaml.Node.asInt64 0
    align := ← fs.get "align" Yaml.Node.asInt64 0
    results := ← fs.get "results" (Yaml.Node.asList Yaml.Node.asText) []
    callConv := ← fs.get "callConv" Yaml.Node.asText ""
    variadic := ← fs.get "varargs" Yaml.Node.asBool false
    fixed := ← fs.get "fixed" Yaml.Node.asInt64 0
    tail := ← fs.get "tail" Yaml.Node.asBool false }

end NodeEntry

namespace FunctionEntry

def ofNode (n : Yaml.Node) : Except Mismatch (Option FunctionEntry) := do
  let some fs ← n.asFields | return none
  return some {
    name := ← fs.get "name" Yaml.Node.asText ""
    callConv := ← fs.get "callConv" Yaml.Node.asText ""
    variadic := ← fs.get "varargs" Yaml.Node.asBool false
    params := ← fs.get "params" (Yaml.Node.asList Yaml.Node.asText) []
    results := ← fs.get "results" (Yaml.Node.asList Yaml.Node.asText) []
    root := ← fs.get "root" Yaml.Node.asText ""
    nodes := ← fs.get "nodes" Yaml.Node.asItems [] }

end FunctionEntry

/-- The functions of a file; `none` if the text is not YAML of the right shape. -/
def entries? (cs : List Char) : Option (List FunctionEntry) :=
  match Yaml.read cs with
  | .error _ => none
  | .ok none => some []
  | .ok (some n) =>
    let read : Except Mismatch (List FunctionEntry) := do
      let some fs ← n.asFields | return []
      fs.get "functions" (Yaml.Node.asList FunctionEntry.ofNode) []
    read.toOption

/-- How files are read: first the functions, with their nodes as they stand, then one node after the other. Either
is `none` where the shape is not the right one. -/
structure Decoder where
  functions? : String → Option (List FunctionEntry)
  node? : Yaml.Node → Option NodeEntry

def yaml : Decoder where
  functions? text := entries? text.toList
  node? n := (NodeEntry.ofNode n).toOption.map (·.getD {})

inductive Cause where
  | functionTwice
  | name (f : NameFault)
  | param (f : NameFault)
  | result (f : NameFault)
  /-- The node does not have the right shape. -/
  | shape
  | noName
  | nodeTwice (name : String)
  | badOperand (text : String)
  | unknownOperand (name : String)
  | noResult (name : String) (result : Int64)
  | operandCount (op : String) (want got : Nat)
  | needsType (op : String)
  | needsSymbol (op : String)
  | needsBlock (op : String)
  | argumentRange (index : Int64)
  | frameSize
  | returnChain
  | callOperands
  | fixedCount (fixed : Int64) (passed : Nat)
  /-- The operation cannot be written in a file. -/
  | notWritable (op : String)
  | noNodes
deriving DecidableEq, Repr

def Cause.message : Cause → String
  | functionTwice => "defined twice"
  | name f => f.message
  | param f => "params: " ++ f.message
  | result f => "results: " ++ f.message
  | shape => "yaml"
  | noName => "node has no name"
  | nodeTwice s => "node " ++ Text.quote s ++ " defined twice"
  | badOperand s => "bad operand " ++ Text.quote s
  | unknownOperand s => "unknown operand " ++ Text.quote s
  | noResult s n => Text.quote s ++ " has no result " ++ Text.ofInt64 n
  | operandCount op want got =>
    op ++ " takes " ++ toString want ++ " operands, got " ++ toString got
  | needsType op => op ++ " needs a type"
  | needsSymbol op => op ++ " needs a symbol"
  | needsBlock op => op ++ " needs a block"
  | argumentRange i => "argument " ++ Text.ofInt64 i ++ " out of range"
  | frameSize => "frame object needs a positive size"
  | returnChain => "return needs a chain"
  | callOperands => "call needs a chain and a callee"
  | fixedCount n passed =>
    Text.ofInt64 n ++ " fixed arguments but only " ++ toString passed ++ " passed"
  | notWritable op => op ++ " cannot be written in a function file"
  | noNodes => "function has no nodes"

inductive Fault where
  /-- The text is not YAML of the right shape. -/
  | text
  | unnamed (index : Nat)
  /-- A fault of a function, at the line of one of its nodes or of none. -/
  | at (function : String) (line : Option Nat) (cause : Cause)
deriving DecidableEq, Repr

def Fault.message : Fault → String
  | text => "dagfile: parse: yaml"
  | unnamed i => "dagfile: function " ++ toString i ++ " has no name"
  | .at f line cause =>
    "dagfile: function " ++ Text.quote f ++ ": " ++
      (match line with
        | some l => "line " ++ toString l ++ ": "
        | none => "") ++ cause.message

end GraphLowering.FunctionFile

import GraphLowering.Ir.CallConv
import GraphLowering.Ir.CondCode
import GraphLowering.Ir.Opcode
import GraphLowering.Ir.Register
import GraphLowering.Ir.ValueType

/-! # Nodes and values

A node is an operation with operands and result types. A value is one result of a node. Some
operations carry data beside their operands. -/

namespace GraphLowering

/-- Result number `result` of the node with id `node`. -/
structure Value where
  node : Nat
  result : Nat
deriving DecidableEq, Repr, Inhabited

def Value.text (v : Value) : String :=
  "t" ++ toString v.node ++ if v.result = 0 then "" else ":" ++ toString v.result

def valueText : Option Value → String
  | none => "<null>"
  | some v => v.text

structure CallInfo where
  callConv : CallConv := CallConv.c
  variadic : Bool := false
  /-- How many arguments match declared parameters of a variadic callee. -/
  fixedArgs : Int64 := 0
  /-- The call is meant to be the last thing the function does. -/
  tail : Bool := false
deriving DecidableEq, Repr, Inhabited

inductive Payload where
  | none
  | integer (n : Int64)
  | register (r : Register)
  | registers (rs : List Register)
  | index (i : Int)
  | symbol (name : String) (offset : Int64)
  | condition (cc : CondCode)
  | call (info : CallInfo)
deriving DecidableEq, Repr, Inhabited

structure Node where
  op : Opcode
  types : List ValueType
  /-- The operands; replacing a value by nothing leaves an operand empty. -/
  operands : List (Option Value)
  payload : Payload := .none
deriving DecidableEq, Repr, Inhabited

namespace Node

def integer (n : Node) : Int64 :=
  match n.payload with
  | .integer k => k
  | .symbol _ offset => offset
  | _ => 0

def register (n : Node) : Register :=
  match n.payload with
  | .register r => r
  | _ => .none

def registers (n : Node) : List Register :=
  match n.payload with
  | .registers rs => rs
  | _ => []

def index (n : Node) : Int :=
  match n.payload with
  | .index i => i
  | _ => 0

def symbol (n : Node) : String :=
  match n.payload with
  | .symbol name _ => name
  | _ => ""

def condition (n : Node) : CondCode :=
  match n.payload with
  | .condition cc => cc
  | _ => .setFalse

def callInfo? (n : Node) : Option CallInfo :=
  match n.payload with
  | .call info => some info
  | _ => none

def constant? (n : Node) : Option Int64 :=
  match n.op with
  | .constant | .targetConstant => some n.integer
  | _ => none

end Node

structure Signature where
  name : String := ""
  callConv : CallConv := CallConv.c
  variadic : Bool := false
  params : List ValueType := []
  results : List ValueType := []
deriving DecidableEq, Repr, Inhabited

end GraphLowering

import GraphLowering.Ir.CallConv
import GraphLowering.Ir.CondCode
import GraphLowering.Ir.Opcode
import GraphLowering.Ir.ValueType

/-! # Names that denote nothing

Reading a name of an operation, a type, a predicate or a convention, with the complaint about a name
that is none of them. -/

namespace GraphLowering

inductive NameFault where
  | opcode (s : String)
  | valueType (s : String)
  | condCode (s : String)
  | callConv (s : String)
deriving DecidableEq, Repr

def NameFault.message : NameFault → String
  | opcode s => "dag: unknown opcode " ++ Text.quote s
  | valueType s => "dag: unknown value type " ++ Text.quote s
  | condCode s => "dag: unknown condition code " ++ Text.quote s
  | callConv s => "dag: unknown calling convention " ++ Text.quote s

def Opcode.parse (s : String) : Except NameFault Opcode :=
  match parse? s with
  | some op => .ok op
  | none => .error (.opcode s)

def ValueType.parse (s : String) : Except NameFault ValueType :=
  match parse? s with
  | some vt => .ok vt
  | none => .error (.valueType s)

def CondCode.parse (s : String) : Except NameFault CondCode :=
  match parse? s with
  | some cc => .ok cc
  | none => .error (.condCode s)

def CallConv.parse (s : String) : Except NameFault CallConv :=
  match parse? s with
  | some cc => .ok cc
  | none => .error (.callConv s)

end GraphLowering

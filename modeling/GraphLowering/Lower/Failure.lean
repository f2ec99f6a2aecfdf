import GraphLowering.Graph.Replace
import GraphLowering.Lower.Action
import GraphLowering.Usim.Cond
import GraphLowering.Usim.Sequence

/-! # Why lowering fails -/

namespace GraphLowering.Lower

/-- Why an operation is not supported. -/
inductive Reason where
  | noRule
  | noExpansion
  | libcallTypes (callee : String) (types : List ValueType)
  | unknownAction (a : Action)
  /-- The operation is still not legal when legalization has ended. -/
  | remains (a : Action)
  | argumentRange (index : Int) (count : Nat)
  | argumentType (index : Int) (type declared : ValueType)
  | noSplit (types : List ValueType)
  | noDoubleCompare
  | invalidCond (cc : CondCode)
  | noWideCompare (cc : CondCode)
  | frameDepth
  | refused (why : String)
deriving DecidableEq, Repr

def Reason.message : Reason → String
  | noRule => "no lowering rule"
  | noExpansion => "no expansion"
  | libcallTypes callee types =>
    "libcall " ++ callee ++ " needs i32 operands, got " ++ ValueType.listName types
  | unknownAction a => "unknown legality action " ++ a.name
  | remains a => "still " ++ a.name ++ " after legalization"
  | argumentRange i n =>
    "argument " ++ toString i ++ " out of range, function has " ++ toString n
  | argumentType i vt declared =>
    "argument " ++ toString i ++ " is " ++ vt.name ++ ", signature says " ++ declared.name
  | noSplit types => "no expansion for " ++ ValueType.listName types ++ " values"
  | noDoubleCompare => "no f64 compare"
  | invalidCond cc => Usim.invalidCondMessage cc
  | noWideCompare cc => "no 64-bit lowering for " ++ cc.name
  | frameDepth => "frame depth must be a non-negative constant"
  | refused why => why

/-- What a calling convention cannot pass. -/
inductive Unpassed where
  | formals (f : Usim.SequenceFault)
  | callArguments (f : Usim.SequenceFault)
  | callResults (f : Usim.SequenceFault)
  | results (types : List ValueType)
deriving DecidableEq, Repr

def Unpassed.message : Unpassed → String
  | formals f => "formal arguments: " ++ f.message
  | callArguments f => "call arguments: " ++ f.message
  | callResults f => "call results: " ++ f.message
  | results types => "cannot return " ++ ValueType.listName types ++ " in registers"

inductive Failure where
  | unsupported (target function op : String) (reason : Reason)
  | unrepresentable (target function : String) (what : Unpassed)
  /-- A rule gave the wrong number of values. -/
  | replacement (target function : String) (mismatch : Graph.CountMismatch)
  | rounds (target function : String) (limit : Int)
  | noFixedPoint (target function : String)
  /-- A node lacks an operand, a result or a type that its operation must have. -/
  | malformed
deriving DecidableEq, Repr

namespace Failure

def header (target function : String) : String :=
  "lower: " ++ target ++ ": function " ++ Text.quote function

def message : Failure → String
  | unsupported t f op reason =>
    let detail := reason.message
    "lower: " ++ t ++ ": unsupported operation " ++ op ++ " in function " ++ Text.quote f ++
      if detail = "" then "" else ": " ++ detail
  | unrepresentable t f what =>
    header t f ++ ": " ++ Usim.SequenceFault.unrepresentable ++ ": " ++ what.message
  | replacement t f m => header t f ++ ": " ++ m.message
  | rounds t f n => header t f ++ " did not legalize within " ++ toString n ++ " rounds"
  | noFixedPoint t f => header t f ++ ": combiner did not reach a fixed point"
  | malformed => "lower: malformed node"

end Failure

end GraphLowering.Lower

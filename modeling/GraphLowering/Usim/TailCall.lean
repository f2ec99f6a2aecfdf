import GraphLowering.Usim.Arguments

/-! # Which calls can take over the frame

A call can jump to its callee in place of calling it if nothing is left to do after it and the stack
arguments fit where those of the caller are. -/

namespace GraphLowering.Usim

open Lower (Lowering)
open Lower.Lowering
open Subtarget (Description)

inductive TailObstacle where
  | unmarked
  | convention
  | variadic
  | stackSpace
  | noReturn
  | notChained
  | sharedChain
  | notForwarded
  | changedResult
  | sharedResult
  | localArgument
deriving DecidableEq, Repr

def TailObstacle.message : TailObstacle → String
  | unmarked => "not marked as a tail call"
  | convention => "calling convention mismatch"
  | variadic => "variadic caller or callee"
  | stackSpace => "callee needs more stack argument space than the caller has"
  | noReturn => "function does not end in a return"
  | notChained => "return is not chained to the call"
  | sharedChain => "call chain has other users"
  | notForwarded => "return does not forward the call results"
  | changedResult => "result is modified before return"
  | sharedResult => "result has other users"
  | localArgument => "argument points into the caller frame"

/-- The size of the stack arguments of the function, also of those without a frame object yet. -/
def incomingArea (d : Description) (g : Graph) : Int64 :=
  let size := g.frame.incomingSize
  let f := g.signature
  match sequenceArguments d f.callConv f.variadic (fixedArguments f.params) with
  | .ok (_, needed) => if size < needed then needed else size
  | .error _ => size

/-- Whether a value is the address of a local object, or may be one by additions, subtractions and
disjunctions nested at most `depth` deep. -/
def refersToLocal : Nat → Option Value → Lowering Bool
  | depth, v => do
    let v ← orMalformed v
    let n ← node v.node
    match n.op with
    | .frameIndex => return !(← graph).frame.isFixed n.index
    | .add | .sub | .or =>
      match depth with
      | 0 => return true
      | depth + 1 =>
        if ← refersToLocal depth (← operand v.node 0) then return true
        refersToLocal depth (← operand v.node 1)
    | _ => return false

def addressDepth : Nat := 4

/-- The first obstacle among the results of a call: each must be returned as it is, and only that. -/
def resultObstacle? (call ret : Nat) : List Nat → Lowering (Option TailObstacle)
  | [] => return none
  | i :: rest => do
    let v := some ⟨call, i⟩
    if (← operand ret (i + 1)) ≠ v then return some .changedResult
    if (← graph).valueUsers v ≠ [ret] then return some .sharedResult
    resultObstacle? call ret rest

/-- The first argument that points to a local object. -/
def argumentObstacle? : List (Option Value) → Lowering (Option TailObstacle)
  | [] => return none
  | a :: rest => do
    if ← refersToLocal addressDepth a then return some .localArgument
    argumentObstacle? rest

/-- What keeps a call with `bytes` of stack arguments from taking over the frame. -/
def tailObstacle? (d : Description) (call : Nat) (bytes : Int64) :
    Lowering (Option TailObstacle) := do
  let g ← graph
  let n := g.node call
  match n.callInfo? with
  | none => return some .unmarked
  | some info =>
    if !info.tail then return some .unmarked
    if info.callConv ≠ g.signature.callConv then return some .convention
    if info.variadic || g.signature.variadic then return some .variadic
    if incomingArea d g < bytes then return some .stackSpace
    match g.root with
    | none => return some .noReturn
    | some root =>
      let ret := root.node
      if (g.node ret).op ≠ .ret || root.result ≠ 0 then return some .noReturn
      if (← operand ret 0) ≠ g.outChain call then return some .notChained
      if g.valueUsers (g.outChain call) ≠ [ret] then return some .sharedChain
      let results := n.types.length - 1
      if (g.node ret).operands.length - 1 ≠ results then return some .notForwarded
      match ← resultObstacle? call ret (List.range results) with
      | some o => return some o
      | none => argumentObstacle? (n.operands.drop 2)

def passedArguments (info : CallInfo) (args : List (Option Value)) : Lowering (List Passed) :=
  args.zipIdx.mapM fun (a, i) => do
    let fixed := !info.variadic || Int64.ofNat i < info.fixedArgs
    return { type := ← typeOf a, fixed }

def mayTailCall (d : Description) (id : Nat) : Lowering Bool := do
  let n ← node id
  if n.op ≠ .call then return false
  if n.operands.length < 2 then malformed
  match n.callInfo? with
  | none => return false
  | some info =>
    let passed ← passedArguments info (n.operands.drop 2)
    match sequenceArguments d info.callConv info.variadic passed with
    | .error _ => return false
    | .ok (_, bytes) => return (← tailObstacle? d id bytes).isNone

end GraphLowering.Usim

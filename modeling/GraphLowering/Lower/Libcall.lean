import GraphLowering.Lower.Target

/-! # Library calls

Arithmetic that a machine lacks becomes a call of a function that computes it. -/

namespace GraphLowering.Lower

structure Libcalls where
  callees : List (Opcode × String)
  callConv : CallConv := CallConv.c
deriving DecidableEq, Repr, Inhabited

def Libcalls.standard : Libcalls where
  callees := [
    (.mul, "__mulsi3"), (.sdiv, "__divsi3"), (.udiv, "__udivsi3"), (.srem, "__modsi3"),
    (.urem, "__umodsi3")]

open Lowering in
/-- Puts a call in place of a node. The call joins the chain of the root before the first operation
on it that needs the result, so calls stay in one order. -/
def Libcalls.expand (l : Libcalls) (id : Nat) : Lowering (List (Option Value)) := do
  let n ← node id
  match l.callees.lookup n.op with
  | none => unsupported id .noExpansion
  | some callee =>
    if n.types ≠ [.i32] then
      unsupported id (.libcallTypes callee n.types)
    else
      let (before, chain) ← orMalformed ((← graph).splicePoint (some id))
      let symbol ← value (·.externalSymbol callee .i32)
      let call ← build (·.call chain symbol n.operands [.i32] { callConv := l.callConv })
      match before with
      | some user => setGraph (← orMalformed ((← graph).updateOperand ⟨user, 0⟩ (some ⟨call, 1⟩)))
      | none => modify fun s => { s with graph := { s.graph with root := some ⟨call, 1⟩ } }
      debug "expanded to libcall" [("op", n.op.name), ("callee", callee)]
      return [some ⟨call, 0⟩]

end GraphLowering.Lower

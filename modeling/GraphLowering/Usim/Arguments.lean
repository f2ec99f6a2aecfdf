import GraphLowering.Usim.Sequence
import GraphLowering.Usim.Words

/-! # Parameters of a function

Parameters in registers are copied out of them at the entry; parameters on the stack are loaded from
fixed objects of the frame. All parameters are lowered when the first one is needed. -/

namespace GraphLowering.Usim

open Lower (Lowering)
open Lower.Lowering
open Subtarget (Description)

def fixedArguments (types : List ValueType) : List Passed := types.map fun type => { type }

def readIncoming (l : Location) : Lowering (Option Value) := do
  match l.place with
  | .register r => result 0 (·.copyFromReg (some Graph.entry) r l.type none)
  | .stack offset =>
    let g ← graph
    let (frame, i) := g.frame.createFixed l.size offset true
    setGraph { g with frame }
    let ptr ← value (·.frameIndex i pointerType)
    result 0 (·.load (some Graph.entry) ptr l.type)

/-- The words of value number `i` among words with their locations. -/
def wordsAt (i : Nat) (words : List (Location × Option Value)) : List (Option Value) :=
  (words.filter (·.1.value = i)).map (·.2)

def lowerFormals (d : Description) : Lowering (List (Option Value)) := do
  let f := (← graph).signature
  match sequenceArguments d f.callConv f.variadic (fixedArguments f.params) with
  | .error e => unrepresentable (.formals e)
  | .ok (locations, _) =>
    let words ← locations.mapM fun l => return (l, ← readIncoming l)
    let formals ← f.params.zipIdx.mapM fun (vt, i) => ofWords vt (wordsAt i words)
    modify fun s => { s with formals := some formals }
    return formals

def lowerArgument (d : Description) (id : Nat) : Lowering (List (Option Value)) := do
  let formals ← match (← get).formals with
    | some formals => pure formals
    | none => lowerFormals d
  let index := (← node id).index
  if index < 0 then unsupported id (.argumentRange index formals.length)
  match formals[index.toNat]? with
  | none => unsupported id (.argumentRange index formals.length)
  | some v =>
    let declared ← typeOf v
    let vt ← resultType id 0
    if declared ≠ vt then unsupported id (.argumentType index vt declared)
    return [v]

end GraphLowering.Usim

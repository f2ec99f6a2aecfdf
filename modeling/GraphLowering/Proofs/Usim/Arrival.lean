import GraphLowering.Proofs.Usim.Sequence

/-!
# How parameters arrive

A parameter is put together from the words at its places. A word in a register is copied out of it
at the entry, and one on the stack is loaded from a fixed object at its offset. The parameters are
read once for a function, and the node of a parameter stands for one of them.
-/

namespace GraphLowering.Usim

open Lower (Lowering)
open Lower.Lowering
open Subtarget (Description)

/-- The values of parameters at their places. -/
def formalsAt (params : List ValueType) (ls : List Location) : Lowering (List (Option Value)) := do
  let words ← ls.mapM fun l => return (l, ← readIncoming l)
  params.zipIdx.mapM fun (vt, i) => ofWords vt (wordsAt i words)

/-- Parameters are read at their places once, and remembered. -/
theorem lowerFormals_eq (d : Description) : lowerFormals d = (do
    let f := (← graph).signature
    match sequenceArguments d f.callConv f.variadic (fixedArguments f.params) with
    | .error e => unrepresentable (.formals e)
    | .ok (ls, _) =>
      let formals ← formalsAt f.params ls
      modify fun s => { s with formals := some formals }
      return formals) := by
  unfold lowerFormals formalsAt
  simp only [bind_assoc] <;> rfl

/-- The parameters, which are lowered when the first one is needed. -/
def formalsOnce (d : Description) : Lowering (List (Option Value)) := do
  match (← get).formals with
  | some formals => pure formals
  | none => lowerFormals d

/-- The parameter that a node stands for. -/
def argumentAmong (id : Nat) (formals : List (Option Value)) : Lowering (List (Option Value)) := do
  let index := (← node id).index
  if index < 0 then unsupported id (.argumentRange index formals.length)
  match formals[index.toNat]? with
  | none => unsupported id (.argumentRange index formals.length)
  | some v =>
    let declared ← typeOf v
    let vt ← resultType id 0
    if declared ≠ vt then unsupported id (.argumentType index vt declared)
    return [v]

theorem lowerArgument_eq (d : Description) (id : Nat) :
    lowerArgument d id = formalsOnce d >>= argumentAmong id := by
  unfold lowerArgument formalsOnce
  rw [bind_assoc]
  refine bind_congr fun s => ?_
  cases s.formals <;> rfl

end GraphLowering.Usim

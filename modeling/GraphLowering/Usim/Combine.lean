import GraphLowering.Usim.Compare

/-! # Comparisons with a known outcome

A select or a branch whose outcome is known needs no comparison. -/

namespace GraphLowering.Usim

open Lower (Lowering)
open Lower.Lowering

/-- The outcome of a condition on two values, if it is known: both are constants, or both are the same
integer. -/
def knownOutcome? (g : Graph) (c : Cond) (lhs rhs : Option Value) : Option Bool :=
  match c with
  | .al => some true
  | .nv => some false
  | c =>
    if c.isFloat then none
    else match g.constant? lhs, g.constant? rhs with
      | some a, some b => c.holds? a b
      | _, _ => if lhs = rhs then c.holds? 0 0 else none

def combineSelect (id : Nat) : Lowering (Option (Option Value)) := do
  let ifTrue ← operand id 2
  let ifFalse ← operand id 3
  if ifTrue = ifFalse then return some ifTrue
  let g ← graph
  let c := condOfValue g (← operand id 4)
  match knownOutcome? g c (← operand id 0) (← operand id 1) with
  | some true => return some ifTrue
  | some false => return some ifFalse
  | none => return none

/-- A branch with a known outcome is no branch or one without a condition. -/
def combineBranch (id : Nat) : Lowering (Option (Option Value)) := do
  let g ← graph
  let c := condOfValue g (← operand id 1)
  match knownOutcome? g c (← operand id 2) (← operand id 3) with
  | none => return none
  | some false => return some (← operand id 0)
  | some true =>
    let chain ← operand id 0
    let dest ← operand id 4
    return some (← value (·.single .br .chain [chain, dest]))

def combineNode (id : Nat) : Lowering (Option (Option Value)) := do
  let op := (← node id).op
  if op = Op.selectCC then combineSelect id
  else if op = Op.brCC then combineBranch id
  else return none

end GraphLowering.Usim

import GraphLowering.Graph.Order
import GraphLowering.Lower.Target

/-! # Combining

Target nodes are simplified until nothing more can be. -/

namespace GraphLowering.Lower

open Lowering

/-- The target nodes among `ids`. -/
def targetNodes (g : Graph) (ids : List Nat) : List Nat := ids.filter fun id => (g.node id).op.isTarget

/-- The value that a node is combined to, if there is one and it is not the node itself. -/
def combined? (t : Target) (id : Nat) : Lowering (Option (Option Value)) := do
  let g ← graph
  if !g.contains id || !g.hasUses (some id) then return none
  match ← t.combine id with
  | none => return none
  | some v => return if v = some ⟨id, 0⟩ then none else some v

/-- The first node of a worklist that is combined, with its value and the nodes behind it. -/
def nextCombined? (t : Target) : List Nat → Lowering (Option (Nat × Option Value × List Nat))
  | [] => return none
  | id :: rest => do
    match ← combined? t id with
    | none => nextCombined? t rest
    | some v => return some (id, v, rest)

/-- Combines nodes in ascending order. A combined node is looked at again, and so are its users; at
most `budget` nodes are replaced. -/
def combineAll (t : Target) (budget : Nat) (worklist : List Nat) : Lowering Unit := do
  match ← nextCombined? t worklist with
  | none => return ()
  | some (id, v, rest) =>
    match budget with
    | 0 => throw (.noFixedPoint (← targetName) (← functionName))
    | budget + 1 =>
      let users := (← graph).valueUsers (some ⟨id, 0⟩)
      setGraph ((← graph).replaceValue (some ⟨id, 0⟩) v)
      count fun m => { m with combines := m.combines + 1 }
      let g ← graph
      let new ← orMalformed v
      combineAll t budget (Graph.enqueue rest (targetNodes g (new.node :: users)))

/-- Combines all target nodes and removes what is no longer needed. -/
def combine (t : Target) : Lowering Unit := do
  let g ← graph
  combineAll t (16 * (g.size + 1)) (Graph.ascending (targetNodes g g.nodes))
  setGraph (← graph).removeDead.1

end GraphLowering.Lower

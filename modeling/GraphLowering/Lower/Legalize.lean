import GraphLowering.Graph.Order
import GraphLowering.Lower.Libcall

/-! # Legalization

Sweeps over the graph put legal operations in place of the others, until a sweep changes nothing. -/

namespace GraphLowering.Lower

open Lowering

structure Sweep where
  /-- The custom nodes that are in their final form. -/
  kept : List Nat
  changed : Bool := false

/-- The values in place of a node that is not legal; `none` if it is in its final form. -/
def substitute (t : Target) (l : Libcalls) (action : Action) (id : Nat) :
    Lowering (Option (List (Option Value))) := do
  match action with
  | .custom => t.lower id
  | .expand => return some (← l.expand id)
  | a => unsupported id (.unknownAction a)

def replace (id : Nat) (values : List (Option Value)) : Lowering Unit := do
  match (← graph).replaceNode id values with
  | .error m => throw (.replacement (← targetName) (← functionName) m)
  | .ok g => setGraph g

/-- Treats one node, unless it is unused, kept or of the target. -/
def legalizeNode (t : Target) (l : Libcalls) (s : Sweep) (id : Nat) : Lowering Sweep := do
  let g ← graph
  let op := (g.node id).op
  if !g.hasUses (some id) || id ∈ s.kept || op.isTarget then return s
  let action := t.classify op (← nodeTypes id)
  count fun m => { m with classified := increment action.name m.classified }
  if action = .legal then return s
  match ← substitute t l action id with
  | none => return { s with kept := id :: s.kept }
  | some values =>
    replace id values
    count fun m => { m with replaced := increment (t.label op) m.replaced }
    return { s with changed := true }

def sweep (t : Target) (l : Libcalls) (kept : List Nat) : Lowering Sweep := do
  (← graph).nodes.foldlM (legalizeNode t l) { kept }

/-- Sweeps at most `left` times of `limit`; gives the custom nodes that are in their final form. -/
def legalizeWithin (t : Target) (l : Libcalls) (limit : Int) : Nat → List Nat → Lowering (List Nat)
  | 0, _ => do throw (.rounds (← targetName) (← functionName) limit)
  | left + 1, kept => do
    let s ← sweep t l kept
    if s.changed then legalizeWithin t l limit left s.kept else return s.kept

end GraphLowering.Lower

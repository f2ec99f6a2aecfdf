import GraphLowering.Lower.Target

/-! # Targets given by tables

A target that looks up the treatment of every operation by name. It shows how lowering works without
the details of a machine. -/

namespace GraphLowering.Lower

inductive TableRule where
  /-- The node is in its final form. -/
  | keep
  | fail
  /-- No values at all. -/
  | empty
  /-- An absent value for every result. -/
  | absent
  /-- The first operand. -/
  | first
  /-- The same node with another operation. -/
  | become (op : Opcode)
deriving DecidableEq, Repr, Inhabited

inductive TableFold where
  /-- The node itself. -/
  | self
  /-- The first operand. -/
  | first
  /-- The same node with another operation. -/
  | become (op : Opcode)
deriving DecidableEq, Repr, Inhabited

structure Table where
  name : String
  /-- Stands before the name of every operation. -/
  opHeader : String
  actions : List (String × Action) := []
  rules : List (String × TableRule) := []
  folds : List (String × TableFold) := []

namespace Table

open Lowering

def names (tb : Table) : NodeNames where
  op o := tb.opHeader ++ o.name
  register r := r.text

def copyAs (id : Nat) (op : Opcode) : Lowering Nat := do
  let n ← node id
  build (·.newNode op n.types n.operands)

def lower (tb : Table) (id : Nat) : Lowering (Option (List (Option Value))) := do
  let n ← node id
  match (tb.rules.lookup n.op.name).getD .fail with
  | .keep => return none
  | .fail => unsupported id (.refused tb.name)
  | .empty => return some []
  | .absent => return some (n.types.map fun _ => none)
  | .first => return some [← operand id 0]
  | .become op =>
    let new ← copyAs id op
    return some ((List.range n.types.length).map fun i => some ⟨new, i⟩)

def combine (tb : Table) (id : Nat) : Lowering (Option (Option Value)) := do
  match tb.folds.lookup (← node id).op.name with
  | none => return none
  | some .self => return some (some ⟨id, 0⟩)
  | some .first => return some (← operand id 0)
  | some (.become op) => return some (some ⟨← copyAs id op, 0⟩)

def target (tb : Table) : Target where
  name := tb.name
  names := tb.names
  classify op _ := (tb.actions.lookup op.name).getD .legal
  lower := tb.lower
  combine := tb.combine

end Table

end GraphLowering.Lower

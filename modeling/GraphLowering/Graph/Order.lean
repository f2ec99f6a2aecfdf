import GraphLowering.Graph.Basic

/-! # Operands before users

The nodes of a graph in an order in which every node follows its operands. Among the nodes that could
come next, the one with the lowest id does, so the order is unique. -/

namespace GraphLowering.Graph

def pendingCount (g : Graph) (n : Node) : Nat :=
  n.operands.countP fun v => v.any fun v => g.contains v.node

/-- The operands that every node waits for; nodes that were removed wait for none. -/
def pendingCounts (g : Graph) : Array Int :=
  g.entries.map fun e => if e.present then (g.pendingCount e.node : Int) else 0

def initiallyReady (g : Graph) : List Nat :=
  (List.range g.entries.size).filter fun id => g.contains id && g.pendingCount (g.node id) = 0

/-- A node that waited for an operand waits for one less; it is ready once it waits for none. -/
def release (state : Array Int × List Nat) (u : Use) : Array Int × List Nat :=
  let left := state.1.getD u.user 0 - 1
  (state.1.setIfInBounds u.user left,
    if left = 0 then insertAscending u.user state.2 else state.2)

def takeReady (g : Graph) : Nat → Array Int → List Nat → List Nat
  | 0, _, _ => []
  | _, _, [] => []
  | fuel + 1, pending, id :: ready =>
    let state := (g.usesOf (some id)).foldl release (pending, ready)
    id :: takeReady g fuel state.1 state.2

def nodes (g : Graph) : List Nat := g.takeReady g.entries.size g.pendingCounts g.initiallyReady

end GraphLowering.Graph

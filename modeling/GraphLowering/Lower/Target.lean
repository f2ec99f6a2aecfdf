import GraphLowering.Graph.Listing
import GraphLowering.Lower.Session

/-! # Targets -/

namespace GraphLowering.Lower

structure Target where
  name : String
  names : NodeNames
  classify : Opcode → List ValueType → Action
  /-- The values in place of the results of a custom node, or `none` if it is in its final form. -/
  lower : Nat → Lowering (Option (List (Option Value)))
  /-- The value in place of the first result of a target node, or `none` if it stays. -/
  combine : Nat → Lowering (Option (Option Value))

namespace Target

def label (t : Target) (op : Opcode) : String := if op.isTarget then t.names.op op else op.name

/-- A session that lowers a graph for the target; counts and log continue those given. -/
def session (t : Target) (graph : Graph) (metrics : Metrics := {}) (log : Array LogRecord := #[]) :
    Session :=
  { graph, target := t.name, opName := t.names.op, metrics, log }

end Target

end GraphLowering.Lower

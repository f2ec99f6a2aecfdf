import GraphLowering.Graph.Basic

/-! # Reachability

What depends on a node, what the root depends on, and where a new operation joins the chain that ends
in the root. -/

namespace GraphLowering.Graph

/-- Marks a node and puts it on the list of nodes to visit, unless it is marked. -/
def visit (state : List Nat × Array Bool) (id : Nat) : List Nat × Array Bool :=
  if state.2.getD id true then state else (id :: state.1, state.2.setIfInBounds id true)

/-- Marks all that can be reached through `next`; every node is visited at most once. -/
def spread (next : Nat → List Nat) : Nat → List Nat → Array Bool → Array Bool
  | 0, _, marked => marked
  | _, [], marked => marked
  | fuel + 1, id :: rest, marked =>
    let state := (next id).foldl visit (rest, marked)
    spread next fuel state.1 state.2

def unmarked (g : Graph) : Array Bool := Array.replicate g.entries.size false

def dependents (g : Graph) (of : Option Nat) : Array Bool :=
  let state := ((g.usesOf of).map (·.user)).foldl visit ([], g.unmarked)
  spread (fun id => (g.usesOf (some id)).map (·.user)) g.entries.size state.1 state.2

def operandNodes (g : Graph) (id : Nat) : List Nat :=
  (g.node id).operands.filterMap fun v => v.map (·.node)

def live (g : Graph) : Array Bool :=
  let state := (entry.node :: (g.root.map (·.node)).toList).foldl visit ([], g.unmarked)
  spread g.operandNodes g.entries.size state.1 state.2

def removeNode (g : Graph) (id : Nat) : Graph :=
  let g := (g.node id).operands.zipIdx.foldl
    (fun g (v, slot) => g.dropUse (v.map (·.node)) { user := id, slot }) g
  { g with entries := g.entries.modify id fun e => { e with present := false, uses := [] } }

/-- The nodes that the root does not need. -/
def deadNodes (g : Graph) : List Nat :=
  let live := g.live
  (List.range g.entries.size).filter fun id => g.contains id && !live.getD id false

/-- Removes a node and counts it. -/
def removeCounted (x : Graph × Nat) (id : Nat) : Graph × Nat := (x.1.removeNode id, x.2 + 1)

/-- Removes the nodes that the root does not need, and tells how many they were. -/
def removeDead (g : Graph) : Graph × Nat := g.deadNodes.foldl removeCounted (g, 0)

inductive ChainLink where
  /-- The node has no chain operand. -/
  | ends
  | follows (v : Value)
  /-- The first operand is a result that its node does not have. -/
  | broken
deriving DecidableEq, Repr

/-- The chain that a node takes, which is its first operand. -/
def chain (g : Graph) (id : Nat) : ChainLink :=
  match (g.node id).operands with
  | some v :: _ =>
    match g.type? v with
    | some .chain => .follows v
    | some _ => .ends
    | none => .broken
  | _ => .ends

/-- The nodes along the chain that ends in `id`, last one first; `none` if a link is broken. -/
def spineFrom (g : Graph) : Nat → Nat → Option (List Nat)
  | 0, _ => some []
  | fuel + 1, id =>
    match g.chain id with
    | .ends => some [id]
    | .follows v => (spineFrom g fuel v.node).map (id :: ·)
    | .broken => none

def spine (g : Graph) : Option (List Nat) :=
  match g.root with
  | none => some []
  | some v => g.spineFrom (g.entries.size + 1) v.node

/-- Whether `id` takes glue from `pred`; `none` if it takes a result that `pred` does not have. -/
def gluedTo (g : Graph) (id pred : Nat) : Option Bool :=
  let taken := (g.node id).operands.filterMap fun v => v.filter (·.node = pred)
  match taken.find? fun v => g.type? v = some .glue || g.type? v = none with
  | none => some false
  | some v => (g.type? v).map fun _ => true

/-- The rest of a spine from the first node that is not glued to the one before it on the chain. -/
def unglue (g : Graph) : List Nat → Option (List Nat)
  | a :: b :: rest => do
    if ← g.gluedTo a b then unglue g (b :: rest) else some (a :: b :: rest)
  | spine => some spine

/-- Where a chained replacement of a node joins the chain of the root: the node before which it goes,
if anything on the chain depends on the replaced node, and the chain that it takes. Nodes that are
glued together stay together. -/
def splicePoint (g : Graph) (of : Option Nat) : Option (Option Nat × Option Value) := do
  let deps := g.dependents of
  let spine ← g.spine
  let upTo := spine.reverse.dropWhile fun id => !deps.getD id false
  match upTo with
  | [] => return (none, g.root)
  | _ =>
    match ← g.unglue (spine.drop (upTo.length - 1)) with
    | [] => return (none, g.root)
    | before :: _ =>
      match g.chain before with
      | .follows v => return (some before, some v)
      | .ends => return (some before, none)
      | .broken => none

end GraphLowering.Graph

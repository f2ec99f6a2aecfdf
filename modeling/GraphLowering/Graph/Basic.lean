import GraphLowering.Graph.Frame
import GraphLowering.Graph.Node

/-! # Graphs

The computation of one function. Nodes are known by their ids in order of creation, also after they
have been removed. Every node keeps a list of its uses: the operands of other nodes that are one of
its results. Operands that were emptied are kept as uses of nothing. Node zero is the entry token,
where every chain starts; the root is the value in which the last chain ends. -/

namespace GraphLowering

/-- Operand number `slot` of node `user`. -/
structure Use where
  user : Nat
  slot : Nat
deriving DecidableEq, Repr, Inhabited

structure Entry where
  node : Node
  /-- False once the node is removed. -/
  present : Bool := true
  uses : List Use := []
deriving DecidableEq, Repr, Inhabited

structure Graph where
  signature : Signature
  frame : Frame := {}
  entries : Array Entry := #[]
  /-- The empty operands. -/
  emptyUses : List Use := []
  root : Option Value := none
deriving DecidableEq, Repr, Inhabited

namespace Graph

def node? (g : Graph) (id : Nat) : Option Node := (g.entries[id]?).map (·.node)

def node (g : Graph) (id : Nat) : Node := (g.entries.getD id default).node

def contains (g : Graph) (id : Nat) : Bool := (g.entries[id]?).any (·.present)

def size (g : Graph) : Nat := (g.entries.filter (·.present)).size

/-- The type of a value; `none` if the node has no such result. -/
def type? (g : Graph) (v : Value) : Option ValueType :=
  (g.node? v.node).bind (·.types[v.result]?)

def usesOf (g : Graph) : Option Nat → List Use
  | some id => (g.entries.getD id default).uses
  | none => g.emptyUses

def setUses (g : Graph) (of : Option Nat) (uses : List Use) : Graph :=
  match of with
  | some id => { g with entries := g.entries.modify id fun e => { e with uses } }
  | none => { g with emptyUses := uses }

def addUse (g : Graph) (of : Option Nat) (u : Use) : Graph := g.setUses of (g.usesOf of ++ [u])

/-- Forgets a use, if it is known. -/
def dropUse (g : Graph) (of : Option Nat) (u : Use) : Graph :=
  g.setUses of ((g.usesOf of).erase u)

def operand (g : Graph) (u : Use) : Option Value := ((g.node u.user).operands[u.slot]?).join

def setOperand (g : Graph) (u : Use) (v : Option Value) : Graph :=
  { g with
    entries := g.entries.modify u.user fun e =>
      { e with node := { e.node with operands := e.node.operands.set u.slot v } } }

/-- A new node with the operands that are not empty, and its id. -/
def newNode (g : Graph) (op : Opcode) (types : List ValueType) (operands : List (Option Value))
    (payload : Payload := .none) : Graph × Nat :=
  let id := g.entries.size
  let values := operands.filterMap (·)
  let node : Node := { op, types, operands := values.map some, payload }
  let g := { g with entries := g.entries.push { node } }
  (values.zipIdx.foldl (fun g (v, slot) => g.addUse (some v.node) { user := id, slot }) g, id)

/-- The graph that holds the entry token only. -/
def empty (signature : Signature) : Graph :=
  let (g, id) := Graph.newNode { signature } .entryToken [.chain] []
  { g with root := some ⟨id, 0⟩ }

def entry : Value := ⟨0, 0⟩

def insertAscending (id : Nat) : List Nat → List Nat
  | [] => [id]
  | x :: rest => if id ≤ x then id :: x :: rest else x :: insertAscending id rest

/-- Puts ids into an ascending list without repetition. -/
def enqueue (worklist ids : List Nat) : List Nat :=
  ids.foldl (fun w id => if id ∈ w then w else insertAscending id w) worklist

/-- Distinct ids in ascending order. -/
def ascending (ids : List Nat) : List Nat := enqueue [] ids

def users (g : Graph) (of : Option Nat) : List Nat := ascending ((g.usesOf of).map (·.user))

/-- Which result an operand takes; an empty operand counts as the first. -/
def resultNo : Option Value → Nat
  | some v => v.result
  | none => 0

def valueUses (g : Graph) (v : Option Value) : List Use :=
  (g.usesOf (v.map (·.node))).filter fun u => resultNo (g.operand u) = resultNo v

def valueUsers (g : Graph) (v : Option Value) : List Nat :=
  ascending ((g.valueUses v).map (·.user))

def hasUses (g : Graph) (of : Option Nat) : Bool :=
  !(g.usesOf of).isEmpty || g.root.map (·.node) = of

def valueHasUses (g : Graph) (v : Option Value) : Bool :=
  g.root = v || !(g.valueUses v).isEmpty

/-- The first chain result of a node. -/
def outChain (g : Graph) (id : Nat) : Option Value :=
  let types := (g.node id).types
  if .chain ∈ types then some ⟨id, types.idxOf .chain⟩ else none

def constant? (g : Graph) (v : Option Value) : Option Int64 :=
  v.bind fun v => (g.node v.node).constant?

end Graph

end GraphLowering

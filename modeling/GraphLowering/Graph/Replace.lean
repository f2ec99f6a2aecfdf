import GraphLowering.Graph.Basic

/-! # Putting values in place of values -/

namespace GraphLowering.Graph

/-- Whether a use of `old` moves when `new` takes its place: the operand is still `old` and does not
belong to the node of `new` itself. -/
def moves (g : Graph) (old new : Option Value) (u : Use) : Bool :=
  g.operand u = old && new.map (·.node) ≠ some u.user

/-- Puts `new` in place of `old` in every operand and in the root. Operands of the node of `new` keep
`old`, so that a value can be built from the one it replaces. -/
def replaceValue (g : Graph) (old new : Option Value) : Graph :=
  if old = new then g
  else
    let oldNode := old.map (·.node)
    let newNode := new.map (·.node)
    let (moved, kept) := (g.usesOf oldNode).partition (g.moves old new)
    let g := if g.root = old then { g with root := new } else g
    let g := moved.foldl (fun g u => g.setOperand u new) g
    let g := g.setUses oldNode kept
    g.setUses newNode (g.usesOf newNode ++ moved)

/-- The number of values does not match the number of results. -/
structure CountMismatch where
  op : Opcode
  node : Nat
  got : Nat
  want : Nat
deriving DecidableEq, Repr

def CountMismatch.message (m : CountMismatch) : String :=
  "dag: replacing " ++ m.op.name ++ " t" ++ toString m.node ++ ": got " ++ toString m.got ++
    " values, want " ++ toString m.want

/-- Puts one value in place of every result of a node; an absent value leaves its result in use. -/
def replaceNode (g : Graph) (id : Nat) (values : List (Option Value)) :
    Except CountMismatch Graph :=
  let n := g.node id
  if values.length ≠ n.types.length then
    .error { op := n.op, node := id, got := values.length, want := n.types.length }
  else
    .ok (values.zipIdx.foldl (fun g (v, i) =>
      match v with
      | none => g
      | some _ => g.replaceValue (some ⟨id, i⟩) v) g)

/-- Puts a value into an operand; `none` if the node has no such operand. -/
def updateOperand (g : Graph) (u : Use) (v : Option Value) : Option Graph :=
  match (g.node u.user).operands[u.slot]? with
  | none => none
  | some old =>
    if old = v then some g
    else
      let g := g.dropUse (old.map (·.node)) u
      let g := g.setOperand u v
      some (g.addUse (v.map (·.node)) u)

end GraphLowering.Graph

import GraphLowering.Graph.Order
import GraphLowering.Text.Decimal

/-! # Listings of graphs -/

namespace GraphLowering

structure NodeNames where
  op : Opcode → String
  register : Register → String

/-- The names without a target. -/
def NodeNames.generic : NodeNames where
  op o := o.name
  register r := r.text

namespace CallInfo

def text (i : CallInfo) : String :=
  i.callConv.name ++ (if i.variadic then " varargs(" ++ Text.ofInt64 i.fixedArgs ++ ")" else "") ++
    if i.tail then " tail" else ""

end CallInfo

namespace Node

def payloadText (n : Node) (names : NodeNames) : String :=
  match n.op with
  | .constant | .targetConstant => Text.ofInt64 n.integer
  | .register => names.register n.register
  | .registerMask => Text.join " " (n.registers.map names.register)
  | .frameIndex | .argument => toString n.index
  | .basicBlock | .externalSymbol | .targetExternalSymbol => n.symbol
  | .globalAddress | .targetGlobalAddress =>
    "@" ++ n.symbol ++ if n.integer = 0 then "" else Text.ofInt64Signed n.integer
  | .condCode => n.condition.name
  | .call =>
    match n.callInfo? with
    | some info => info.text
    | none => ""
  | _ => ""

def text (n : Node) (names : NodeNames) (id : Nat) : String :=
  let payload := n.payloadText names
  "t" ++ toString id ++ ": " ++ Text.join "," (n.types.map (·.name)) ++ " = " ++
    (if n.op.isTarget then names.op n.op else n.op.name) ++
    (if payload = "" then "" else "<" ++ payload ++ ">") ++
    if n.operands.isEmpty then "" else " " ++ Text.join ", " (n.operands.map valueText)

end Node

def Graph.listing (g : Graph) (names : NodeNames) : List String :=
  (if g.signature.name = "" then [] else ["function " ++ g.signature.name ++ ":"]) ++
    g.nodes.map (fun id => (g.node id).text names id) ++ ["root: " ++ valueText g.root]

end GraphLowering

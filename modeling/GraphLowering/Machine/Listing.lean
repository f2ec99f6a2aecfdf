import GraphLowering.Machine.Function
import GraphLowering.Text.Decimal

/-! # Listings of machine code -/

namespace GraphLowering.Machine

structure Names where
  op : Op → String
  register : Register → String

namespace Names

def generic : Names where
  op o := "op" ++ toString o.number
  register r := r.text

def opName (n : Names) : Op → String
  | .phi => "PHI"
  | .copy => "COPY"
  | o => n.op o

def registerName (n : Names) (r : Register) : String :=
  if r.isPhysical then n.register r else r.text

end Names

namespace Function

def blockRef (f : Function) (b : Nat) : String := "%bb." ++ (f.block b).name

/-- An instruction: what it defines, its name, what it uses. -/
def instrText (f : Function) (n : Names) (i : Instr) : String :=
  let defs := i.operands.filterMap fun
    | .define r => some (n.registerName r)
    | _ => none
  let uses := i.operands.filterMap fun
    | .use r => some (n.registerName r)
    | .imm k => some (Text.ofInt64 k)
    | .block b => some (f.blockRef b)
    | .define _ => none
  (if defs.isEmpty then "" else Text.join ", " defs ++ " = ") ++ n.opName i.op ++
    if uses.isEmpty then "" else " " ++ Text.join ", " uses

def blockHeader (f : Function) (n : Names) (b : Block) : String :=
  "bb." ++ b.name ++ ": ; succs: " ++ Text.join ", " (b.succs.map f.blockRef) ++
    if b.liveIns.isEmpty then ""
    else " ; live-ins: " ++ Text.join ", " (b.liveIns.map n.registerName)

/-- The blocks in layout order, one instruction a line. -/
def listing (f : Function) (n : Names) : List String :=
  f.layout.flatMap fun b =>
    let blk := f.block b
    f.blockHeader n blk :: blk.instrs.map fun i => "  " ++ f.instrText n (f.instr i)

end Function

end GraphLowering.Machine

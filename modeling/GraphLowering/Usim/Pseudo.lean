import GraphLowering.Log
import GraphLowering.Usim.Cond
import GraphLowering.Usim.Instr

/-! # Pseudo instructions

A select and an atomic addition stand for several blocks. Expanding one splits its block: what follows
the instruction moves to a new block, which takes over the successors. -/

namespace GraphLowering.Usim

open Machine (Function Operand Op)

/-- Why a pseudo instruction is not expanded. -/
inductive PseudoFault where
  /-- The instruction is not in the block. -/
  | elsewhere (block : String)
  /-- The instruction is not a pseudo instruction. -/
  | noExpansion (function instr : String)
  | operandCount (instr : String) (got want : Nat)
  | operandKind (instr : String) (index : Nat)
  /-- The block is not part of the layout. -/
  | notPlaced (message : String)
deriving DecidableEq, Repr

def PseudoFault.message : PseudoFault → String
  | elsewhere b => "usim: instruction is not in block " ++ b
  | noExpansion f i =>
    "lower: usim: unsupported operation " ++ i ++ " in function " ++ Text.quote f ++
      ": no custom inserter"
  | operandCount i got want =>
    i ++ ": usim: " ++ toString got ++ " operands, want " ++ toString want
  | operandKind i k => i ++ ": usim: operand " ++ toString k ++ " has the wrong kind"
  | notPlaced m => m

/-- A change of a function that may stop at a fault; what was done until then stays. -/
abbrev Expand := ExceptT PseudoFault (StateM Function)

/-- A new block behind `pos` in which the same registers are live as in `b`. -/
def newBlockAfter (b pos : Nat) (name : String) : Expand Nat := do
  let f ← get
  let (g, new) := f.createBlock name
  match g.insertAfter pos new with
  | none => throw (.notPlaced (f.notPlacedMessage pos))
  | some g =>
    set ((f.block b).liveIns.foldl (fun g r => g.addLiveIn new r) g)
    return new

/-- Moves what follows instruction `i` of block `b` to a new block behind `pos`, with the successors
of `b`, and removes `i`. -/
def splitAfter (i b pos : Nat) (name : String) : Expand Nat := do
  let tail ← newBlockAfter b pos name
  modify fun f => f.splice tail b ((f.block b).instrs.idxOf i + 1)
  modify fun f => f.transferSuccessors tail b
  modify fun f => (f.remove b i).1
  return tail

def emit (f : Function) (b : Nat) (code : List (Op × List Operand)) : Function :=
  code.foldl (fun f (op, operands) =>
    let (f, i) := f.newInstr op operands
    f.append b [i]) f

/-- Branches over an empty block; the value depends on where control came from. -/
def expandSelect (i b : Nat) (dst lhs rhs ifTrue ifFalse : Register) (cc : Cond) : Expand Nat := do
  let name := ((← get).block b).name
  let skipped ← newBlockAfter b b (name ++ ".copy0")
  let sink ← splitAfter i b skipped (name ++ ".sink")
  modify fun f => emit f b [
    (if cc.isFloat then Instr.fcmpRR else Instr.cmpRR, [.use lhs, .use rhs]),
    (Instr.bcc, [.imm (Int64.ofNat cc.number), .block sink])]
  modify fun f => f.addSuccessor b skipped
  modify fun f => f.addSuccessor b sink
  modify fun f => f.addSuccessor skipped sink
  modify fun f =>
    let (f, phi) := f.newInstr .phi [.define dst, .use ifTrue, .block b, .use ifFalse, .block skipped]
    f.prepend sink [phi]
  return sink

def expandAtomicLoadAdd (i b : Nat) (dst ptr inc : Register) : Expand Nat := do
  let name := ((← get).block b).name
  let loop ← newBlockAfter b b (name ++ ".atomic")
  let done ← splitAfter i b loop (name ++ ".atomic.done")
  let sum ← modifyGet fun f => f.newVirtual.swap
  let status ← modifyGet fun f => f.newVirtual.swap
  modify fun f => emit f loop [
    (Instr.loadLinked, [.define dst, .use ptr]),
    (Instr.addRR, [.define sum, .use dst, .use inc]),
    (Instr.storeConditional, [.define status, .use sum, .use ptr]),
    (Instr.cmpRI, [.use status, .imm 0]),
    (Instr.bcc, [.imm (Int64.ofNat Cond.ne.number), .block loop])]
  modify fun f => f.addSuccessor b loop
  modify fun f => f.addSuccessor loop loop
  modify fun f => f.addSuccessor loop done
  return done

def operandRegister? : Operand → Option Register
  | .use r | .define r => some r
  | _ => none

/-- The registers of the first operands. The fault names the first operand that is none. -/
def operandRegisters (instr : String) (operands : List Operand) :
    Except PseudoFault (List Register) :=
  operands.zipIdx.mapM fun (o, k) =>
    match operandRegister? o with
    | some r => .ok r
    | none => .error (.operandKind instr k)

def condOfImmediate (n : Int64) : Cond := Cond.ofNumber n.toInt8.toUInt8.toNat

inductive PseudoInstr where
  | select (dst lhs rhs ifTrue ifFalse : Register) (cc : Cond)
  | atomicLoadAdd (dst ptr inc : Register)

/-- The pseudo instruction that instruction `i` is. -/
def pseudoInstr (f : Function) (i : Nat) : Except PseudoFault PseudoInstr := do
  let instr := f.instr i
  let operands := instr.operands
  if instr.op = Instr.select then
    if operands.length ≠ 6 then .error (.operandCount "SELECT" operands.length 6)
    let regs ← operandRegisters "SELECT" (operands.take 5)
    match regs, operands.drop 5 with
    | [dst, lhs, rhs, ifTrue, ifFalse], [Operand.imm cc] =>
      return .select dst lhs rhs ifTrue ifFalse (condOfImmediate cc)
    | _, _ => .error (.operandKind "SELECT" 5)
  else if instr.op = Instr.atomicLoadAdd then
    if operands.length ≠ 3 then .error (.operandCount "ATOMIC_LOAD_ADD" operands.length 3)
    match ← operandRegisters "ATOMIC_LOAD_ADD" operands with
    | [dst, ptr, inc] => return .atomicLoadAdd dst ptr inc
    | rs => .error (.operandCount "ATOMIC_LOAD_ADD" rs.length 3)
  else .error (.noExpansion f.name (instrName instr.op))

def PseudoInstr.expand (i b : Nat) : PseudoInstr → Expand Nat
  | select dst lhs rhs ifTrue ifFalse cc => expandSelect i b dst lhs rhs ifTrue ifFalse cc
  | atomicLoadAdd dst ptr inc => expandAtomicLoadAdd i b dst ptr inc

/-- Expands instruction `i`, which is in block `b`; gives the block where the code behind it is now. -/
def expandPseudo (i b : Nat) : Expand Nat := do
  match pseudoInstr (← get) i with
  | .error e => throw e
  | .ok x => x.expand i b

/-- Expands an instruction of a block, with what is logged about it and the function as it is left. -/
def insertInto (f : Function) (i b : Nat) : List LogRecord × Except PseudoFault Nat × Function :=
  if (f.instr i).parent ≠ some b then ([], .error (.elsewhere (f.block b).name), f)
  else
    ([{ level := .debug, message := "expanding pseudo",
        fields := [("instr", instrName (f.instr i).op), ("block", (f.block b).name)] }],
      expandPseudo i b f)

/-- The function with an instruction of a block expanded, and what is logged about it. -/
def insertPseudo (f : Function) (i b : Nat) :
    List LogRecord × Except PseudoFault (Function × Nat) :=
  let (log, result, f') := insertInto f i b
  (log, result.map (f', ·))

end GraphLowering.Usim

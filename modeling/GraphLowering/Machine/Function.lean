import GraphLowering.Ir.Register
import GraphLowering.Text.Quoted

/-! # Functions of machine code

A function is a list of blocks in layout order. Blocks hold instructions and are joined by edges to
their successors; every edge is kept at both ends. Blocks and instructions are known by their numbers
in order of creation, also while they are not part of the layout or of a block. -/

namespace GraphLowering.Machine

/-- The operation of an instruction: a shared one, or number `n` of the machine. -/
inductive Op where
  | phi
  | copy
  | machine (n : Nat)
deriving DecidableEq, Repr, Inhabited

namespace Op

def ofNumber : Nat → Op
  | 0 => phi
  | 1 => copy
  | n + 2 => machine n

def number : Op → Nat
  | phi => 0
  | copy => 1
  | machine n => n + 2

end Op

inductive Operand where
  | use (r : Register)
  | define (r : Register)
  | imm (n : Int64)
  | block (b : Nat)
deriving DecidableEq, Repr, Inhabited

structure Instr where
  op : Op
  operands : List Operand
  /-- The block that took the instruction last, unless it was removed since. -/
  parent : Option Nat := none
deriving DecidableEq, Repr, Inhabited

structure Block where
  name : String
  instrs : List Nat := []
  succs : List Nat := []
  preds : List Nat := []
  liveIns : List Register := []
deriving DecidableEq, Repr, Inhabited

structure Function where
  name : String
  blocks : Array Block := #[]
  instrs : Array Instr := #[]
  /-- The blocks in the order in which they are laid out. -/
  layout : List Nat := []
  /-- How many virtual registers have been handed out. -/
  virtualCount : Nat := 0
deriving DecidableEq, Repr, Inhabited

namespace Function

def block (f : Function) (b : Nat) : Block := f.blocks.getD b default

def instr (f : Function) (i : Nat) : Instr := f.instrs.getD i default

def modifyBlock (f : Function) (b : Nat) (change : Block → Block) : Function :=
  { f with blocks := f.blocks.modify b change }

def modifyInstr (f : Function) (i : Nat) (change : Instr → Instr) : Function :=
  { f with instrs := f.instrs.modify i change }

def createBlock (f : Function) (name : String) : Function × Nat :=
  ({ f with blocks := f.blocks.push { name } }, f.blocks.size)

def newBlock (f : Function) (name : String) : Function × Nat :=
  let (f, b) := f.createBlock name
  ({ f with layout := f.layout ++ [b] }, b)

/-- The layout with `b` behind the first `pos`; `none` if `pos` is not in it. -/
def placeAfter (pos b : Nat) : List Nat → Option (List Nat)
  | [] => none
  | c :: rest => if c = pos then some (c :: b :: rest) else (placeAfter pos b rest).map (c :: ·)

/-- Places block `b` behind `pos`. -/
def insertAfter (f : Function) (pos b : Nat) : Option Function :=
  (placeAfter pos b f.layout).map fun layout => { f with layout }

/-- The complaint about a block that is not in the layout. -/
def notPlacedMessage (f : Function) (pos : Nat) : String :=
  "mir: block " ++ Text.quote (f.block pos).name ++ " not in function " ++ Text.quote f.name

def newVirtual (f : Function) : Function × Register :=
  ({ f with virtualCount := f.virtualCount + 1 }, Register.virt f.virtualCount)

def newInstr (f : Function) (op : Op) (operands : List Operand) : Function × Nat :=
  ({ f with instrs := f.instrs.push { op, operands } }, f.instrs.size)

def addLiveIn (f : Function) (b : Nat) (r : Register) : Function :=
  f.modifyBlock b fun blk =>
    if r ∈ blk.liveIns then blk else { blk with liveIns := blk.liveIns ++ [r] }

/-- Makes `b` the block of the instructions `is`. -/
def adopt (f : Function) (b : Nat) (is : List Nat) : Function :=
  is.foldl (fun f i => f.modifyInstr i fun x => { x with parent := some b }) f

def append (f : Function) (b : Nat) (is : List Nat) : Function :=
  (f.adopt b is).modifyBlock b fun blk => { blk with instrs := blk.instrs ++ is }

def prepend (f : Function) (b : Nat) (is : List Nat) : Function :=
  (f.adopt b is).modifyBlock b fun blk => { blk with instrs := is ++ blk.instrs }

/-- The first place of an instruction in a block. -/
def indexOf? (f : Function) (b i : Nat) : Option Nat :=
  let is := (f.block b).instrs
  if i ∈ is then some (is.idxOf i) else none

/-- Takes an instruction out of a block; false if it is not there. -/
def remove (f : Function) (b i : Nat) : Function × Bool :=
  if i ∈ (f.block b).instrs then
    let f := f.modifyBlock b fun blk => { blk with instrs := blk.instrs.erase i }
    (f.modifyInstr i fun x => { x with parent := none }, true)
  else (f, false)

/-- Moves the instructions of `source` from number `start` on to the end of `b`. -/
def splice (f : Function) (b source start : Nat) : Function :=
  let moved := (f.block source).instrs.drop start
  if moved.isEmpty then f
  else
    let f := f.modifyBlock source fun blk => { blk with instrs := blk.instrs.take start }
    f.append b moved

def isSuccessor (f : Function) (b s : Nat) : Bool := s ∈ (f.block b).succs

def addSuccessor (f : Function) (b s : Nat) : Function :=
  if f.isSuccessor b s then f
  else
    let f := f.modifyBlock b fun blk => { blk with succs := blk.succs ++ [s] }
    f.modifyBlock s fun blk => { blk with preds := blk.preds ++ [b] }

def removeSuccessor (f : Function) (b s : Nat) : Function :=
  let f := f.modifyBlock b fun blk => { blk with succs := blk.succs.filter (· ≠ s) }
  f.modifyBlock s fun blk => { blk with preds := blk.preds.filter (· ≠ b) }

/-- In the phis at the head of block `s`, values that came from `old` come from `new`. -/
def retargetPhis (f : Function) (s old new : Nat) : Function :=
  let phis := (f.block s).instrs.takeWhile fun i => (f.instr i).op = .phi
  phis.foldl (fun f i => f.modifyInstr i fun x =>
    { x with operands := x.operands.map fun o => if o = .block old then .block new else o }) f

/-- Moves the edge from `source` to `s` over to `b`. -/
def transferSuccessor (b source : Nat) (f : Function) (s : Nat) : Function :=
  ((f.removeSuccessor source s).addSuccessor b s).retargetPhis s source b

/-- Moves all outgoing edges of `source` over to `b`. -/
def transferSuccessors (f : Function) (b source : Nat) : Function :=
  (f.block source).succs.foldl (transferSuccessor b source) f

end Function

end GraphLowering.Machine

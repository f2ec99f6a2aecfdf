import GraphLowering.Ir.CallConv
import GraphLowering.Ir.Register
import GraphLowering.Subtarget.Version
import GraphLowering.Text.Decimal
import GraphLowering.Text.Quoted

/-! # Descriptions of a machine

What lowering may ask about a machine: its registers, the widths of pointers and stack slots, its
calling conventions, its addressing forms and its optional instructions. -/

namespace GraphLowering.Subtarget

structure Features where
  mul : Bool := false
  div : Bool := false
  atomics : Bool := false
deriving DecidableEq, Repr, Inhabited

structure Addressing where
  /-- Width of the signed offset beside a register. -/
  offsetBits : Int64 := 0
  /-- Largest power of two that scales an index register. -/
  maxScale : Int64 := 0
  /-- Whether a bare global address is a memory operand. -/
  absolute : Bool := false
deriving DecidableEq, Repr, Inhabited

structure Convention where
  name : String := ""
  id : CallConv := CallConv.c
  args : List String := []
  returns : List String := []
  calleeSaved : List String := []
  slotSize : Int64 := 0
  stackAlign : Int64 := 0
  /-- Whether the arguments of a variadic call beyond the declared ones all go to the stack. -/
  varargsOnStack : Bool := false
deriving DecidableEq, Repr, Inhabited

structure Description where
  schema : String := ""
  name : String := ""
  pointerBits : Int64 := 0
  stackAlign : Int64 := 0
  registers : List String := []
  stackPointer : String := ""
  framePointer : String := ""
  linkRegister : String := ""
  /-- How many saved frame pointers may be followed to reach an outer frame. -/
  maxFrameDepth : Int64 := 0
  savedFramePointerOffset : Int64 := 0
  savedLinkRegisterOffset : Int64 := 0
  features : Features := {}
  addressing : Addressing := {}
  conventions : List Convention := []
deriving DecidableEq, Repr, Inhabited

def isPowerOfTwo (n : Int64) : Bool := 0 < n && n &&& (n - 1) == 0

def orDefault (n d : Int64) : Int64 := if n = 0 then d else n

namespace Description

def normalize (d : Description) : Description :=
  let pointerBits := orDefault d.pointerBits 32
  let stackAlign := orDefault d.stackAlign 8
  { d with
    schema := if d.schema = "" then "v1.0.0" else d.schema
    pointerBits
    stackAlign
    addressing := { d.addressing with maxScale := orDefault d.addressing.maxScale 1 }
    conventions := d.conventions.map fun c =>
      { c with
        slotSize := orDefault c.slotSize (pointerBits / 8)
        stackAlign := orDefault c.stackAlign stackAlign } }

/-- The register called `name`: registers are numbered from one in the order of the list. -/
def register? (d : Description) (name : String) : Option Register :=
  if name ∈ d.registers then some ⟨UInt32.ofNat (d.registers.idxOf name + 1)⟩ else none

/-- The name of a register, or its number if the description does not name it. -/
def registerName (d : Description) (r : Register) : String :=
  if r.isPhysical then d.registers[r.number.toNat - 1]?.getD r.text else r.text

/-- The registers called by `names`. -/
def registersOf (d : Description) (names : List String) : List Register :=
  names.filterMap d.register?

def sp (d : Description) : Register := (d.register? d.stackPointer).getD .none

def fp (d : Description) : Register := (d.register? d.framePointer).getD .none

def lr (d : Description) : Register := (d.register? d.linkRegister).getD .none

def convention? (d : Description) (id : CallConv) : Option Convention :=
  d.conventions.find? (·.id = id)

def argRegisters (d : Description) (c : Convention) : List Register := d.registersOf c.args

def returnRegisters (d : Description) (c : Convention) : List Register := d.registersOf c.returns

def savedRegisters (d : Description) (c : Convention) : List Register :=
  d.registersOf c.calleeSaved

end Description

inductive Fault where
  /-- The text is not YAML of the right shape. -/
  | text
  | schemaVersion (s : String)
  | schemaMajor (s : String)
  | pointerBits (n : Int64)
  | stackAlign (n : Int64)
  | maxScale (n : Int64)
  | offsetBits (n : Int64)
  | maxFrameDepth
  | unnamedRegister (index : Nat)
  | duplicateRegister (name : String)
  | specialRegister (name : String)
  | duplicateConvention (id : CallConv)
  | conventionLayout (name : String)
  /-- A list of a convention names a register that does not exist. -/
  | conventionRegister (convention list register : String)
  /-- There is no convention with this id. -/
  | noConvention (description : String) (id : CallConv)
deriving DecidableEq, Repr

namespace Fault

def message : Fault → String
  | text => "subtarget: parse description: yaml"
  | schemaVersion s => "subtarget: invalid schema version " ++ Text.quote s
  | schemaMajor s => "subtarget: unsupported schema " ++ s ++ ", want v1.x"
  | pointerBits n => "subtarget: pointerBits " ++ Text.ofInt64 n ++ " unsupported, want 32"
  | stackAlign n => "subtarget: stackAlign " ++ Text.ofInt64 n ++ " is not a power of two"
  | maxScale n => "subtarget: maxScale " ++ Text.ofInt64 n ++ " is not a power of two"
  | offsetBits n => "subtarget: offsetBits " ++ Text.ofInt64 n ++ " out of range"
  | maxFrameDepth => "subtarget: negative maxFrameDepth"
  | unnamedRegister i => "subtarget: register " ++ toString i ++ " has no name"
  | duplicateRegister s => "subtarget: duplicate register " ++ Text.quote s
  | specialRegister s => "subtarget: unknown special register " ++ Text.quote s
  | duplicateConvention id => "subtarget: duplicate convention id " ++ toString id.id.toNat
  | conventionLayout s => "subtarget: convention " ++ s ++ ": bad slot size or alignment"
  | conventionRegister c l r =>
    "subtarget: convention " ++ c ++ " " ++ l ++ ": unknown register " ++ Text.quote r
  | noConvention d id => "subtarget: " ++ d ++ " has no calling convention " ++ id.name

end Fault

namespace Description

def convention (d : Description) (id : CallConv) : Except Fault Convention :=
  match d.convention? id with
  | some c => .ok c
  | none => .error (.noConvention d.name id)

/-- The first register name that is empty or repeats one of `seen`. -/
def checkRegisters (seen : List String) : List String → Except Fault Unit
  | [] => .ok ()
  | name :: rest =>
    if name = "" then .error (.unnamedRegister seen.length)
    else if name ∈ seen then .error (.duplicateRegister name)
    else checkRegisters (name :: seen) rest

/-- The first of `names` that is no register of the description. -/
def unknownRegister? (d : Description) (names : List String) : Option String :=
  names.find? fun n => n ∉ d.registers

def checkList (d : Description) (convention list : String) (names : List String) :
    Except Fault Unit :=
  match d.unknownRegister? names with
  | some r => .error (.conventionRegister convention list r)
  | none => .ok ()

def checkConventions (d : Description) (seen : List CallConv) : List Convention → Except Fault Unit
  | [] => .ok ()
  | c :: rest => do
    if c.id ∈ seen then .error (.duplicateConvention c.id)
    if c.slotSize ≤ 0 || !isPowerOfTwo c.stackAlign then .error (.conventionLayout c.name)
    d.checkList c.name "args" c.args
    d.checkList c.name "returns" c.returns
    d.checkList c.name "calleeSaved" c.calleeSaved
    checkConventions d (c.id :: seen) rest

/-- Finds the first fault of a description. -/
def validate (d : Description) : Except Fault Unit := do
  match Version.major? d.schema with
  | none => .error (.schemaVersion d.schema)
  | some major => if major ≠ 1 then .error (.schemaMajor d.schema)
  if d.pointerBits ≠ 32 then .error (.pointerBits d.pointerBits)
  if !isPowerOfTwo d.stackAlign then .error (.stackAlign d.stackAlign)
  if !isPowerOfTwo d.addressing.maxScale then .error (.maxScale d.addressing.maxScale)
  if d.addressing.offsetBits < 0 || 32 < d.addressing.offsetBits then
    .error (.offsetBits d.addressing.offsetBits)
  if d.maxFrameDepth < 0 then .error .maxFrameDepth
  checkRegisters [] d.registers
  match d.unknownRegister? [d.stackPointer, d.framePointer, d.linkRegister] with
  | some name => .error (.specialRegister name)
  | none => pure ()
  d.checkConventions [] d.conventions

end Description

end GraphLowering.Subtarget

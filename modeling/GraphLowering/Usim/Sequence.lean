import GraphLowering.Ir.ValueType
import GraphLowering.Subtarget.Description

/-! # Where values are passed

A calling convention assigns every value of a call, a function or a return to registers or to stack
slots. Values travel in 32-bit parts, a value of two words low part first, and never partly in
registers and partly on the stack. Caller and callee use the same assignment. -/

namespace GraphLowering.Usim

open Subtarget (Description Convention)

structure Passed where
  type : ValueType
  /-- False for the arguments of a variadic call beyond the declared ones. -/
  fixed : Bool := true
deriving DecidableEq, Repr, Inhabited

inductive Place where
  | register (r : Register)
  | stack (offset : Int64)
deriving DecidableEq, Repr, Inhabited

structure Location where
  /-- Which value, counted from zero. -/
  value : Nat
  /-- Which part of it, low part first. -/
  part : Nat
  parts : Nat
  type : ValueType
  place : Place
  size : Int64
deriving DecidableEq, Repr, Inhabited

namespace Location

def text (l : Location) : String :=
  "v" ++ toString l.value ++ "." ++ toString l.part ++ ":" ++ l.type.name ++ ":" ++
    match l.place with
    | .register r => r.text
    | .stack offset => "stack+" ++ Text.ofInt64 offset

end Location

/-- Why values cannot be passed. -/
inductive SequenceFault where
  | noConvention (f : Subtarget.Fault)
  | noRule (convention : String) (type : ValueType)
  | returnsDoNotFit (convention : String) (count : Nat)
deriving DecidableEq, Repr

namespace SequenceFault

def unrepresentable : String := "unrepresentable calling convention"

def message : SequenceFault → String
  | noConvention f => "usim: " ++ unrepresentable ++ ": " ++ f.message
  | noRule c vt => "usim: convention " ++ c ++ " has no rule for " ++ vt.name ++ ": " ++ unrepresentable
  | returnsDoNotFit c n =>
    "usim: convention " ++ c ++ ": " ++ toString n ++ " return values do not fit in registers: " ++
      unrepresentable

end SequenceFault

/-- The parts in which a value of a type travels; narrow integers are widened. -/
def partTypes? : ValueType → Option (List ValueType)
  | .i1 | .i8 | .i16 | .i32 => some [.i32]
  | .f32 => some [.f32]
  | .i64 | .f64 => some [.i32, .i32]
  | _ => none

/-- The least multiple of `align` that is at least `n`. -/
def alignTo (n align : Int64) : Int64 :=
  if align ≤ 1 then n else (n + align - 1) / align * align

structure Assignment where
  registers : List Register
  claimed : List Register := []
  offset : Int64 := 0
  locations : List Location := []

namespace Assignment

def free (a : Assignment) : List Register := a.registers.filter (· ∉ a.claimed)

/-- Puts the parts of value `value` into the registers `regs`. -/
def inRegisters (a : Assignment) (value : Nat) (parts : List ValueType) (regs : List Register) :
    Assignment :=
  let placed := (parts.zip regs).zipIdx.map fun ((vt, r), i) =>
    { value, part := i, parts := parts.length, type := vt, place := .register r, size := 4 }
  { a with
    claimed := a.claimed ++ regs.take parts.length
    locations := a.locations ++ placed }

/-- Puts the parts of value `value` into consecutive slots. -/
def onStack (a : Assignment) (c : Convention) (value : Nat) (parts : List ValueType) : Assignment :=
  let base := alignTo a.offset (if 1 < parts.length then c.stackAlign else c.slotSize)
  let placed := parts.zipIdx.map fun (vt, i) =>
    { value, part := i, parts := parts.length, type := vt,
      place := .stack (base + Int64.ofNat i * c.slotSize), size := c.slotSize }
  { a with
    offset := base + Int64.ofNat parts.length * c.slotSize
    locations := a.locations ++ placed }

/-- Claims every free register: none is used after a value went to the stack for want of them. -/
def exhaust (a : Assignment) : Assignment := { a with claimed := a.claimed ++ a.free }

def argument (a : Assignment) (c : Convention) (variadic : Bool) (value : Nat) (p : Passed) :
    Except SequenceFault Assignment :=
  match partTypes? p.type with
  | none => .error (.noRule c.name p.type)
  | some parts =>
    if variadic && !p.fixed && c.varargsOnStack then .ok (a.onStack c value parts)
    else if parts.length ≤ a.free.length then .ok (a.inRegisters value parts a.free)
    else .ok (a.exhaust.onStack c value parts)

/-- Assigns one of `count` return values, which go to registers only. -/
def result (a : Assignment) (c : Convention) (count value : Nat) (vt : ValueType) :
    Except SequenceFault Assignment :=
  match partTypes? vt with
  | none => .error (.noRule c.name vt)
  | some parts =>
    if parts.length ≤ a.free.length then .ok (a.inRegisters value parts a.free)
    else .error (.returnsDoNotFit c.name count)

end Assignment

def conventionOf (d : Description) (cc : CallConv) : Except SequenceFault Convention :=
  match d.convention cc with
  | .ok c => .ok c
  | .error f => .error (.noConvention f)

def sequenceArguments (d : Description) (cc : CallConv) (variadic : Bool) (args : List Passed) :
    Except SequenceFault (List Location × Int64) := do
  let c ← conventionOf d cc
  let start : Assignment := { registers := d.argRegisters c }
  let a ← args.zipIdx.foldlM (fun a (p, i) => a.argument c variadic i p) start
  return (a.locations, alignTo a.offset c.stackAlign)

def sequenceResults (d : Description) (cc : CallConv) (types : List ValueType) :
    Except SequenceFault (List Location) := do
  let c ← conventionOf d cc
  let start : Assignment := { registers := d.returnRegisters c }
  let a ← types.zipIdx.foldlM (fun a (vt, i) => a.result c types.length i vt) start
  return a.locations

def canReturn (d : Description) (cc : CallConv) (types : List ValueType) : Bool :=
  (sequenceResults d cc types).isOk

end GraphLowering.Usim

import GraphLowering.Ir.ValueType
import GraphLowering.Subtarget.Description

/-! # Memory operands

Loads and stores take a register or a global with an offset, or a register with a scaled register. -/

namespace GraphLowering.Usim

open Subtarget (Addressing)

/-- A candidate operand: `baseSymbol + baseOffset + base + index * scale`. -/
structure AddrMode where
  baseSymbol : String := ""
  baseOffset : Int64 := 0
  hasBase : Bool := false
  scale : Int64 := 0
deriving DecidableEq, Repr, Inhabited

def fitsOffset (a : Addressing) (offset : Int64) : Bool :=
  if a.offsetBits ≤ 0 then offset == 0
  else
    let limit := (1 : Int64) <<< (a.offsetBits - 1)
    offset < limit && -limit ≤ offset

/-- How far the last word of an access lies behind its address; `none` if the machine does not access
the type. -/
def lastWordOffset? : ValueType → Option Int64
  | .i8 | .i16 | .i32 | .f32 => some 0
  | .i64 | .f64 => some 4
  | _ => none

namespace AddrMode

def inReach (m : AddrMode) (a : Addressing) (last : Int64) : Bool :=
  fitsOffset a m.baseOffset && fitsOffset a (m.baseOffset + last)

/-- Whether the operand folds into a load or store of type `access`. -/
def isLegal (m : AddrMode) (a : Addressing) (access : ValueType) (addressSpace : Nat) : Bool :=
  if addressSpace ≠ 0 then false
  else match lastWordOffset? access with
    | none => false
    | some last =>
      if m.baseSymbol ≠ "" then
        a.absolute && !m.hasBase && m.scale == 0 && m.inReach a last
      else if m.scale = 0 then m.hasBase && m.inReach a last
      else Subtarget.isPowerOfTwo m.scale && m.scale ≤ a.maxScale && m.baseOffset == 0 &&
        last == 0 && (m.hasBase || m.scale == 1)

end AddrMode

end GraphLowering.Usim

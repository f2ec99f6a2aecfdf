/-! # Registers

Physical registers are numbered from one, virtual ones from `2 ^ 31`; zero is no register. -/

namespace GraphLowering

structure Register where
  number : UInt32
deriving DecidableEq, Repr, Inhabited

namespace Register

def none : Register := ⟨0⟩

/-- The number of the first virtual register. -/
def firstVirtual : UInt32 := 0x80000000

def virt (n : Nat) : Register := ⟨firstVirtual + UInt32.ofNat n⟩

def isVirtual (r : Register) : Bool := firstVirtual ≤ r.number

def isPhysical (r : Register) : Bool := r.number ≠ 0 && r.number < firstVirtual

/-- The text of a register whose name is not known. -/
def text (r : Register) : String :=
  if r.number = 0 then "$noreg"
  else if r.isVirtual then "%v" ++ toString (r.number - firstVirtual).toNat
  else "$" ++ toString r.number.toNat

end Register

end GraphLowering

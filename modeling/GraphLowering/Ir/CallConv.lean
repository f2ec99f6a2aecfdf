import GraphLowering.Text.Quoted

/-! # Calling conventions

A convention is known by its number; two of them have names. -/

namespace GraphLowering

structure CallConv where
  id : UInt32
deriving DecidableEq, Repr, Inhabited

namespace CallConv

def c : CallConv := ⟨0⟩

def fast : CallConv := ⟨8⟩

def name (cc : CallConv) : String :=
  if cc = c then "c" else if cc = fast then "fast" else "cc" ++ toString cc.id.toNat

/-- The convention called `s`; without a name it is the convention of C. -/
def parse? (s : String) : Option CallConv :=
  if s = "" || s = "c" then some c else if s = "fast" then some fast else none

end CallConv

end GraphLowering

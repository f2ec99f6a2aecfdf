import GraphLowering.Text.Quoted

/-! # Targets by name

A registry holds the ways to make targets by name. A name is never given twice. -/

namespace GraphLowering.Lower

/-- How to make targets, by name; `α` is what a target is made from and `β` what making one gives. -/
structure Registry (α β : Type) where
  makers : List (String × (α → β)) := []

/-- Why a target cannot be registered. -/
inductive RegistryFault where
  | emptyName
  | noMaker
  | taken (name : String)
deriving DecidableEq, Repr

def RegistryFault.message : RegistryFault → String
  | emptyName => "lower: cannot register target with empty name"
  | noMaker => "lower: target factory must be non-nil"
  | taken s => "lower: target " ++ s ++ " already registered"

namespace Registry

variable {α β : Type}

def register (r : Registry α β) (name : String) (maker : Option (α → β)) :
    Except RegistryFault (Registry α β) :=
  if name = "" then .error .emptyName
  else match maker with
    | none => .error .noMaker
    | some m =>
      if (r.makers.lookup name).isSome then .error (.taken name)
      else .ok { makers := r.makers ++ [(name, m)] }

/-- The registered names in order. -/
def names (r : Registry α β) : List String := (r.makers.map (·.1)).mergeSort (· ≤ ·)

def maker? (r : Registry α β) (name : String) : Option (α → β) := r.makers.lookup name

end Registry

end GraphLowering.Lower

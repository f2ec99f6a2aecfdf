import GraphLowering.Text.Quoted

/-! # Comparison predicates

The predicates of the graph. On floats the ordered forms are false and the unordered forms true when
an operand is not a number; on integers the unordered orderings compare unsigned. -/

namespace GraphLowering

inductive CondCode where
  | setFalse
  | oeq
  | ogt
  | oge
  | olt
  | ole
  | one
  | ord
  | uno
  | ueq
  | ugt
  | uge
  | ult
  | ule
  | une
  | setTrue
  | setFalse2
  | eq
  | gt
  | ge
  | lt
  | le
  | ne
  | setTrue2
  /-- The code whose number is `n` beyond the valid ones. -/
  | invalid (n : Nat)
deriving DecidableEq, Repr, Inhabited

namespace CondCode

/-- The valid predicates in the order of their numbers. -/
def all : List CondCode := [
  .setFalse, .oeq, .ogt, .oge, .olt, .ole, .one, .ord, .uno, .ueq, .ugt, .uge, .ult, .ule, .une,
  .setTrue, .setFalse2, .eq, .gt, .ge, .lt, .le, .ne, .setTrue2]

def number : CondCode → Nat
  | invalid n => all.length + n
  | cc => all.idxOf cc

def ofNumber (n : Nat) : CondCode := all[n]?.getD (invalid (n - all.length))

def isValid : CondCode → Bool
  | invalid _ => false
  | _ => true

def name : CondCode → String
  | setFalse => "setfalse"
  | oeq => "setoeq"
  | ogt => "setogt"
  | oge => "setoge"
  | olt => "setolt"
  | ole => "setole"
  | one => "setone"
  | ord => "seto"
  | uno => "setuo"
  | ueq => "setueq"
  | ugt => "setugt"
  | uge => "setuge"
  | ult => "setult"
  | ule => "setule"
  | une => "setune"
  | setTrue => "settrue"
  | setFalse2 => "setfalse2"
  | eq => "seteq"
  | gt => "setgt"
  | ge => "setge"
  | lt => "setlt"
  | le => "setle"
  | ne => "setne"
  | setTrue2 => "settrue2"
  | invalid n => "cond" ++ toString (all.length + n)

def parse? (s : String) : Option CondCode := all.find? (·.name = s)

end CondCode

end GraphLowering

import GraphLowering.Ir.CondCode
import GraphLowering.Ir.ValueType

/-! # Conditions of the machine

A branch or a select tests one condition on the flags that a compare leaves. Every predicate of the
graph is one condition, or holds if one of two conditions holds. -/

namespace GraphLowering.Usim

/-- A condition on the flags. After a float compare the `f` forms are false and the `fu` forms true if
an operand is not a number; `fne` is the negation of `feq`. -/
inductive Cond where
  | invalid
  | al
  | nv
  | eq
  | ne
  | lt
  | le
  | gt
  | ge
  | ult
  | ule
  | ugt
  | uge
  | feq
  | fne
  | flt
  | fle
  | fgt
  | fge
  | fult
  | fule
  | fugt
  | fuge
  | ford
  | funo
  /-- The number `n` beyond the known conditions. -/
  | unknown (n : Nat)
deriving DecidableEq, Repr, Inhabited

namespace Cond

/-- The known conditions in the order of their numbers. -/
def known : List Cond := [
  .invalid, .al, .nv, .eq, .ne, .lt, .le, .gt, .ge, .ult, .ule, .ugt, .uge, .feq, .fne, .flt, .fle,
  .fgt, .fge, .fult, .fule, .fugt, .fuge, .ford, .funo]

def number : Cond → Nat
  | unknown n => known.length + n
  | c => known.idxOf c

def ofNumber (n : Nat) : Cond := known[n]?.getD (unknown (n - known.length))

def name : Cond → String
  | invalid => "invalid"
  | al => "al"
  | nv => "nv"
  | eq => "eq"
  | ne => "ne"
  | lt => "lt"
  | le => "le"
  | gt => "gt"
  | ge => "ge"
  | ult => "ult"
  | ule => "ule"
  | ugt => "ugt"
  | uge => "uge"
  | feq => "feq"
  | fne => "fne"
  | flt => "flt"
  | fle => "fle"
  | fgt => "fgt"
  | fge => "fge"
  | fult => "fult"
  | fule => "fule"
  | fugt => "fugt"
  | fuge => "fuge"
  | ford => "for"
  | funo => "fun"
  | unknown n => "cc" ++ toString (known.length + n)

def isFloat : Cond → Bool
  | feq | fne | flt | fle | fgt | fge | fult | fule | fugt | fuge | ford | funo => true
  | _ => false

/-- The condition on the low words of two integers; `none` if it is not an integer condition. -/
def holds? (c : Cond) (a b : Int64) : Option Bool :=
  let sa := a.toInt32
  let sb := b.toInt32
  let ua := sa.toUInt32
  let ub := sb.toUInt32
  match c with
  | al => some true
  | nv => some false
  | eq => some (sa == sb)
  | ne => some (sa != sb)
  | lt => some (sa < sb)
  | le => some (sa ≤ sb)
  | gt => some (sb < sa)
  | ge => some (sb ≤ sa)
  | ult => some (ua < ub)
  | ule => some (ua ≤ ub)
  | ugt => some (ub < ua)
  | uge => some (ub ≤ ua)
  | _ => none

end Cond

inductive FlagTest where
  | one (c : Cond)
  /-- Two tests; the predicate holds if either does. -/
  | either (a b : Cond)
deriving DecidableEq, Repr, Inhabited

namespace FlagTest

def isPair : FlagTest → Bool
  | one _ => false
  | either .. => true

def first : FlagTest → Cond
  | one c => c
  | either a _ => a

def second? : FlagTest → Option Cond
  | one _ => none
  | either _ b => some b

def name : FlagTest → String
  | one c => c.name
  | either a b => a.name ++ "|" ++ b.name

/-- The test of a predicate on integers, where ordered and unordered forms coincide except that the
unordered orderings compare unsigned; `none` for an invalid predicate. -/
def ofInteger? : CondCode → Option FlagTest
  | .setFalse | .setFalse2 | .uno => some (one .nv)
  | .setTrue | .setTrue2 | .ord => some (one .al)
  | .oeq | .ueq | .eq => some (one .eq)
  | .one | .une | .ne => some (one .ne)
  | .ogt | .gt => some (one .gt)
  | .oge | .ge => some (one .ge)
  | .olt | .lt => some (one .lt)
  | .ole | .le => some (one .le)
  | .ugt => some (one .ugt)
  | .uge => some (one .uge)
  | .ult => some (one .ult)
  | .ule => some (one .ule)
  | .invalid _ => none

/-- The test of a predicate on floats. The forms that ignore order take the ordered test, and
inequality the negation of equality. -/
def ofFloat? : CondCode → Option FlagTest
  | .setFalse | .setFalse2 => some (one .nv)
  | .setTrue | .setTrue2 => some (one .al)
  | .oeq | .eq => some (one .feq)
  | .ogt | .gt => some (one .fgt)
  | .oge | .ge => some (one .fge)
  | .olt | .lt => some (one .flt)
  | .ole | .le => some (one .fle)
  | .one => some (either .flt .fgt)
  | .ord => some (one .ford)
  | .uno => some (one .funo)
  | .ueq => some (either .feq .funo)
  | .ugt => some (one .fugt)
  | .uge => some (one .fuge)
  | .ult => some (one .fult)
  | .ule => some (one .fule)
  | .une | .ne => some (one .fne)
  | .invalid _ => none

def ofPredicate? (cc : CondCode) (vt : ValueType) : Option FlagTest :=
  if vt.isFloat then ofFloat? cc else ofInteger? cc

end FlagTest

/-- The complaint about a predicate that has no test. -/
def invalidCondMessage (cc : CondCode) : String :=
  "usim: invalid condition code " ++ toString cc.number

end GraphLowering.Usim

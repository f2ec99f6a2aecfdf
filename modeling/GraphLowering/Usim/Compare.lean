import GraphLowering.Usim.Cond
import GraphLowering.Usim.Words

/-! # Comparisons

Predicates become conditions of the machine. A predicate that needs two conditions becomes two
branches to the same block, or a select in the false arm of another. Values of two words are compared
word by word into a truth value, which is then compared with zero. -/

namespace GraphLowering.Usim

open Lower (Lowering)
open Lower.Lowering

structure Comparison where
  lhs : Option Value
  rhs : Option Value
  test : FlagTest

def selectNode (lhs rhs ifTrue ifFalse : Option Value) (c : Cond) : Lowering (Option Value) := do
  let vt ← typeOf ifTrue
  let code ← value (·.targetConstant (Int64.ofNat c.number) .i32)
  value (·.single Op.selectCC vt [lhs, rhs, ifTrue, ifFalse, code])

def branchNode (chain : Option Value) (c : Cond) (lhs rhs dest : Option Value) :
    Lowering (Option Value) := do
  let code ← value (·.targetConstant (Int64.ofNat c.number) .i32)
  value (·.single Op.brCC .chain [chain, code, lhs, rhs, dest])

/-- One value if the comparison holds, else another. -/
def selectOn (c : Comparison) (ifTrue ifFalse : Option Value) : Lowering (Option Value) := do
  match c.test with
  | .one a => selectNode c.lhs c.rhs ifTrue ifFalse a
  | .either a b =>
    let inner ← selectNode c.lhs c.rhs ifTrue ifFalse b
    selectNode c.lhs c.rhs ifTrue inner a

/-- Branches if the comparison holds. -/
def branchOn (c : Comparison) (chain dest : Option Value) : Lowering (Option Value) := do
  match c.test with
  | .one a => branchNode chain a c.lhs c.rhs dest
  | .either a b =>
    let chain ← branchNode chain a c.lhs c.rhs dest
    branchNode chain b c.lhs c.rhs dest

/-- How an ordering of two words is decided: by the high words under the first condition, and by the
low words under the second if the high words are equal. -/
def wideOrdering? : CondCode → Option (Cond × Cond)
  | .gt | .ogt => some (.gt, .ugt)
  | .ge | .oge => some (.gt, .uge)
  | .lt | .olt => some (.lt, .ult)
  | .le | .ole => some (.lt, .ule)
  | .ugt => some (.ugt, .ugt)
  | .uge => some (.ugt, .uge)
  | .ult => some (.ult, .ult)
  | .ule => some (.ult, .ule)
  | _ => none

/-- How an equality of two words is decided once the words are reduced to their difference. -/
def wideEquality? : CondCode → Option CondCode
  | .eq | .oeq | .ueq => some .eq
  | .ne | .one | .une => some .ne
  | _ => none

/-- Predicates whose outcome does not depend on integer operands. -/
def isFixedOutcome : CondCode → Bool
  | .setTrue | .setTrue2 | .setFalse | .setFalse2 | .ord | .uno => true
  | _ => false

def narrow (id : Nat) (lhs rhs : Option Value) (cc : CondCode) :
    Lowering (Option Value × Option Value × CondCode) := do
  let (lhsLow, lhsHigh) ← halves lhs
  let (rhsLow, rhsHigh) ← halves rhs
  let zero ← value (·.constant 0 .i32)
  let one ← value (·.constant 1 .i32)
  match wideEquality? cc with
  | some equality =>
    let low ← value (·.binary .xor .i32 lhsLow rhsLow)
    let high ← value (·.binary .xor .i32 lhsHigh rhsHigh)
    let difference ← value (·.binary .or .i32 low high)
    return (difference, zero, equality)
  | none =>
    if isFixedOutcome cc then return (lhsLow, rhsLow, cc)
    match wideOrdering? cc with
    | none => unsupported id (.noWideCompare cc)
    | some (highCond, lowCond) =>
      let low ← selectNode lhsLow rhsLow one zero lowCond
      let high ← selectNode lhsHigh rhsHigh one zero highCond
      let result ← selectNode lhsHigh rhsHigh low high .eq
      return (result, zero, .ne)

def compare (id : Nat) (lhs rhs : Option Value) (cc : CondCode) : Lowering Comparison := do
  let vt ← typeOf lhs
  if vt = .f64 then unsupported id .noDoubleCompare
  let (lhs, rhs, cc) ← if vt = .i64 then narrow id lhs rhs cc else pure (lhs, rhs, cc)
  match FlagTest.ofPredicate? cc (← typeOf lhs) with
  | none => unsupported id (.invalidCond cc)
  | some test => return { lhs, rhs, test }

/-- The condition that a constant names by its low eight bits; an operand that is no constant counts
as zero. -/
def condOfValue (g : Graph) (v : Option Value) : Cond :=
  Cond.ofNumber ((g.constant? v).getD 0).toInt8.toUInt8.toNat

/-- The comparison behind a truth value that a select computes: a select of one and zero, or one whose
false arm is such a select on the same operands. -/
def booleanOf? (v : Option Value) : Lowering (Option Comparison) := do
  let v ← orMalformed v
  let n ← node v.node
  if n.op ≠ Op.selectCC then return none
  let g ← graph
  let lhs ← operand v.node 0
  let rhs ← operand v.node 1
  if g.constant? (← operand v.node 2) ≠ some 1 then return none
  let outer := condOfValue g (← operand v.node 4)
  let arm ← operand v.node 3
  if g.constant? arm = some 0 then return some { lhs, rhs, test := .one outer }
  let arm ← orMalformed arm
  if (← node arm.node).op ≠ Op.selectCC then return none
  if (← operand arm.node 0) ≠ lhs then return none
  if (← operand arm.node 1) ≠ rhs then return none
  let ifTrue ← operand arm.node 2
  let ifFalse ← operand arm.node 3
  if g.constant? ifTrue ≠ some 1 || g.constant? ifFalse ≠ some 0 then return none
  let inner := condOfValue g (← operand arm.node 4)
  return some { lhs, rhs, test := if inner = .invalid then .one outer else .either outer inner }

/-- The comparison that decides whether a value is not zero. -/
def truthOf (id : Nat) (cond : Option Value) : Lowering Comparison := do
  match ← booleanOf? cond with
  | some c => return c
  | none =>
    let vt ← typeOf cond
    let zero ← value (·.constant 0 vt)
    compare id cond zero .ne

def predicateOf (v : Option Value) : Lowering CondCode := return (← nodeOf v).condition

def lowerBrCC (id : Nat) : Lowering (List (Option Value)) := do
  let lhs ← operand id 2
  let rhs ← operand id 3
  let cc ← predicateOf (← operand id 1)
  let c ← compare id lhs rhs cc
  return [← branchOn c (← operand id 0) (← operand id 4)]

def lowerBrCond (id : Nat) : Lowering (List (Option Value)) := do
  let c ← truthOf id (← operand id 1)
  return [← branchOn c (← operand id 0) (← operand id 2)]

def lowerSetCC (id : Nat) : Lowering (List (Option Value)) := do
  let vt ← resultType id 0
  let lhs ← operand id 0
  let rhs ← operand id 1
  let cc ← predicateOf (← operand id 2)
  let c ← compare id lhs rhs cc
  let one ← value (·.constant 1 vt)
  let zero ← value (·.constant 0 vt)
  return [← selectOn c one zero]

def selectByTruth (id : Nat) (cond ifTrue ifFalse : Option Value) : Lowering (Option Value) := do
  selectOn (← truthOf id cond) ifTrue ifFalse

def selectByPredicate (id : Nat) (lhs rhs ifTrue ifFalse : Option Value) (cc : CondCode) :
    Lowering (Option Value) := do
  selectOn (← compare id lhs rhs cc) ifTrue ifFalse

def lowerSelect (id : Nat) : Lowering (List (Option Value)) := do
  let cond ← operand id 0
  let ifTrue ← operand id 1
  let ifFalse ← operand id 2
  return [← selectByTruth id cond ifTrue ifFalse]

def lowerSelectCC (id : Nat) : Lowering (List (Option Value)) := do
  let lhs ← operand id 0
  let rhs ← operand id 1
  let ifTrue ← operand id 2
  let ifFalse ← operand id 3
  let cc ← predicateOf (← operand id 4)
  return [← selectByPredicate id lhs rhs ifTrue ifFalse cc]

end GraphLowering.Usim

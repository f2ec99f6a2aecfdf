import GraphLowering.Lower.Target
import GraphLowering.Usim.Legality

/-! # Values as words

The machine moves 32-bit words. A value of two words is a pair of halves, low half first; a narrow
integer is widened. -/

namespace GraphLowering.Usim

open Lower (Lowering)
open Lower.Lowering

def pointerType : ValueType := .i32

def nodeNames (d : Subtarget.Description) : NodeNames where
  op := opName
  register := d.registerName

def lowWord (n : Int64) : Int64 := n.toInt32.toInt64

def highWord (n : Int64) : Int64 := (n >>> 32).toInt32.toInt64

def constantHalves (n : Int64) : Lowering (Option Value × Option Value) := do
  let low ← value (·.constant (lowWord n) .i32)
  let high ← value (·.constant (highWord n) .i32)
  return (low, high)

def undefHalves : Lowering (Option Value × Option Value) := do
  let low ← value (·.undef .i32)
  let high ← value (·.undef .i32)
  return (low, high)

def halves (v : Option Value) : Lowering (Option Value × Option Value) := do
  let v' ← orMalformed v
  let n ← node v'.node
  match n.op with
  | .buildPair => return (← operand v'.node 0, ← operand v'.node 1)
  | .constant => constantHalves n.integer
  | .undef => undefHalves
  | _ =>
    let low ← value (·.extractElement .i32 v 0)
    let high ← value (·.extractElement .i32 v 1)
    return (low, high)

def wordsOf (v : Option Value) : Lowering (List (Option Value)) := do
  let vt ← typeOf v
  if vt.isWide then
    let (low, high) ← halves v
    return [low, high]
  else if vt.isNarrow then return [← value (·.unary .zeroExtend .i32 v)]
  else return [v]

/-- The value of type `vt` that consists of words. -/
def ofWords (vt : ValueType) (words : List (Option Value)) : Lowering (Option Value) := do
  match words with
  | [low, high] => value (·.buildPair vt low high)
  | word :: _ => if vt.isNarrow then value (·.unary .truncate vt word) else return word
  | [] => malformed

def addressAt (ptr : Option Value) (offset : Int64) : Lowering (Option Value) := do
  if offset = 0 then return ptr
  let offset ← value (·.constant offset .i32)
  value (·.binary .add pointerType ptr offset)

def touchesWide (id : Nat) : Lowering Bool := return (← nodeTypes id).any (·.isWide)

end GraphLowering.Usim

import GraphLowering.Usim.Compare

/-! # Splitting values of two words

An operation on values of two words becomes operations on words, joined to a pair. Whatever takes the
pair looks through it, so the words reach every user. -/

namespace GraphLowering.Usim

open Lower (Lowering)
open Lower.Lowering

def wordSize : Int64 := 4

def splitLoad (id : Nat) (vt : ValueType) : Lowering (List (Option Value)) := do
  let chain ← operand id 0
  let ptr ← operand id 1
  let low ← build (·.load chain ptr .i32)
  let highPtr ← addressAt ptr wordSize
  let high ← build (·.load chain highPtr .i32)
  let out ← value (·.tokenFactor [some ⟨low, 1⟩, some ⟨high, 1⟩])
  let pair ← value (·.buildPair vt (some ⟨low, 0⟩) (some ⟨high, 0⟩))
  return [pair, out]

def splitStore (chain v ptr : Option Value) : Lowering (List (Option Value)) := do
  let (low, high) ← halves v
  let lowStore ← value (·.store chain low ptr)
  let highPtr ← addressAt ptr wordSize
  let highStore ← value (·.store chain high highPtr)
  return [← value (·.tokenFactor [lowStore, highStore])]

/-- Adds or subtracts words, with the carry out of the low words: a sum of words carries if it is
below an addend, a difference borrows if the first word is below the second. -/
def splitAdd (op : Opcode) (a b : Option Value) : Lowering (List (Option Value)) := do
  let (aLow, aHigh) ← halves a
  let (bLow, bHigh) ← halves b
  let low ← value (·.binary op .i32 aLow bLow)
  let one ← value (·.constant 1 .i32)
  let zero ← value (·.constant 0 .i32)
  let carry ←
    if op = .add then selectNode low aLow one zero .ult else selectNode aLow bLow one zero .ult
  let high ← value (·.binary op .i32 aHigh bHigh)
  let high ← value (·.binary op .i32 high carry)
  return [← value (·.buildPair .i64 low high)]

def splitBitwise (op : Opcode) (a b : Option Value) : Lowering (List (Option Value)) := do
  let (aLow, aHigh) ← halves a
  let (bLow, bHigh) ← halves b
  let low ← value (·.binary op .i32 aLow bLow)
  let high ← value (·.binary op .i32 aHigh bHigh)
  return [← value (·.buildPair .i64 low high)]

def splitExtend (op : Opcode) (a : Option Value) : Lowering (List (Option Value)) := do
  let vt ← typeOf a
  let word ← if vt = .i32 then pure a else value (·.unary op .i32 a)
  let zero ← value (·.constant 0 .i32)
  let high ←
    if op = .signExtend then do
      let count ← value (·.constant 31 .i32)
      value (·.binary .sra .i32 word count)
    else pure zero
  return [← value (·.buildPair .i64 word high)]

def splitTruncate (vt : ValueType) (a : Option Value) : Lowering (List (Option Value)) := do
  let (low, _) ← halves a
  if vt = .i32 then return [low] else return [← value (·.unary .truncate vt low)]

def splitSelect (id : Nat) (select : Option Value → Option Value → Lowering (Option Value))
    (ifTrue ifFalse : Option Value) : Lowering (List (Option Value)) := do
  let (trueLow, trueHigh) ← halves ifTrue
  let (falseLow, falseHigh) ← halves ifFalse
  let low ← select trueLow falseLow
  let high ← select trueHigh falseHigh
  let vt ← resultType id 0
  return [← value (·.buildPair vt low high)]

/-- Fails for a node whose values cannot be split. -/
def noSplit {α : Type} (id : Nat) : Lowering α := do
  unsupported id (.noSplit (← nodeTypes id))

/-- The values in place of a node that takes or gives values of two words; `none` if the node only
carries pairs, or has nothing to do with them. -/
def split (id : Nat) : Lowering (Option (List (Option Value))) := do
  let n ← node id
  if carriesPairs n.op then return none
  if !(← touchesWide id) then return none
  match n.op with
  | .constant =>
    let (low, high) ← constantHalves n.integer
    let vt ← resultType id 0
    return some [← value (·.buildPair vt low high)]
  | .undef =>
    let vt ← resultType id 0
    let (low, high) ← undefHalves
    return some [← value (·.buildPair vt low high)]
  | .load => return some (← splitLoad id (← resultType id 0))
  | .store =>
    let chain ← operand id 0
    let v ← operand id 1
    let ptr ← operand id 2
    if (← typeOf v).isWide then return some (← splitStore chain v ptr) else noSplit id
  | .add | .sub =>
    if (← resultType id 0) = .i64 then
      return some (← splitAdd n.op (← operand id 0) (← operand id 1))
    else noSplit id
  | .and | .or | .xor =>
    if (← resultType id 0) = .i64 then
      return some (← splitBitwise n.op (← operand id 0) (← operand id 1))
    else noSplit id
  | .zeroExtend | .signExtend =>
    if (← resultType id 0) = .i64 then return some (← splitExtend n.op (← operand id 0))
    else noSplit id
  | .truncate =>
    let a ← operand id 0
    if (← typeOf a) = .i64 then return some (← splitTruncate (← resultType id 0) a)
    else noSplit id
  | .select =>
    let ifTrue ← operand id 1
    let ifFalse ← operand id 2
    let select (t f : Option Value) : Lowering (Option Value) := do
      selectByTruth id (← operand id 0) t f
    return some (← splitSelect id select ifTrue ifFalse)
  | .selectCC =>
    if (← resultType id 0).isWide then
      let ifTrue ← operand id 2
      let ifFalse ← operand id 3
      let select (t f : Option Value) : Lowering (Option Value) := do
        let lhs ← operand id 0
        let rhs ← operand id 1
        selectByPredicate id lhs rhs t f (← predicateOf (← operand id 4))
      return some (← splitSelect id select ifTrue ifFalse)
    else noSplit id
  | _ => noSplit id

end GraphLowering.Usim

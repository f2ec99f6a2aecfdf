import GraphLowering.Usim.TailCall

/-! # Calls and returns

Arguments are stored to the stack and copied to registers; results are copied out of registers. The
copies are glued to the call, so nothing comes between them. -/

namespace GraphLowering.Usim

open Lower (Lowering)
open Lower.Lowering
open Subtarget (Description)

structure Copies where
  chain : Option Value
  glue : Option Value := none
  registers : List (Option Value) := []

def wordFor (words : List (List (Option Value))) (l : Location) : Lowering (Option Value) := do
  orMalformed ((words[l.value]?).bind (·[l.part]?))

def copyToRegisters (chain : Option Value) (locations : List Location)
    (words : List (List (Option Value))) : Lowering Copies :=
  locations.foldlM (fun c l => do
    match l.place with
    | .stack _ => return c
    | .register r =>
      let word ← wordFor words l
      let copy ← build? (·.copyToReg? c.chain r word c.glue)
      let reg ← value (·.register r l.type)
      return {
        chain := some ⟨copy, 0⟩
        glue := some ⟨copy, 1⟩
        registers := c.registers ++ [reg] }) { chain }

/-- A direct callee in the form that is not an address to compute. -/
def targetCallee (callee : Option Value) : Lowering (Option Value) := do
  let n ← nodeOf callee
  match n.op with
  | .globalAddress => value (·.targetGlobalAddress n.symbol n.integer pointerType)
  | .externalSymbol => value (·.targetExternalSymbol n.symbol pointerType)
  | _ => return callee

def preserved (d : Description) (cc : CallConv) : List Register :=
  match d.convention? cc with
  | some c => d.savedRegisters c ++ [d.sp]
  | none => [d.sp]

def incomingLoads : Lowering (List (Option Value)) := do
  let g ← graph
  g.nodes.foldlM (fun chains id => do
    if (g.node id).op ≠ .load then return chains
    let ptr ← nodeOf (← operand id 1)
    if ptr.op = .frameIndex && g.frame.isFixed ptr.index then
      return chains ++ [some ⟨id, 1⟩]
    else return chains) []

/-- The fixed object that takes an outgoing argument: one that is there and may be written, or a new
one. -/
def outgoingSlot (size offset : Int64) : Lowering Int := do
  let g ← graph
  let found := (g.frame.fixedAt? offset).filter fun o => o.size = size && !o.immutable
  match found with
  | some o => return o.index
  | none =>
    let (frame, i) := g.frame.createFixed size offset false
    setGraph { g with frame }
    return i

/-- Stores the stack arguments of a tail call over those of the function, after all reads of them. -/
def storeOverIncoming (chain : Option Value) (locations : List Location)
    (words : List (List (Option Value))) : Lowering (Option Value) := do
  let onStack := locations.filter fun l => !(l.place matches .register _)
  if onStack.isEmpty then return chain
  let loads ← incomingLoads
  let start ← value (·.tokenFactor (chain :: loads))
  let stores ← onStack.mapM fun l => do
    match l.place with
    | .register _ => malformed
    | .stack offset =>
      let i ← outgoingSlot l.size offset
      let word ← wordFor words l
      let ptr ← value (·.frameIndex i pointerType)
      value (·.store start word ptr)
  value (·.tokenFactor stores)

/-- Jumps to the callee; the jump is the end of the function. -/
def lowerTailCall (id : Nat) (callee : Option Value) (locations : List Location)
    (words : List (List (Option Value))) : Lowering (List (Option Value)) := do
  let n ← node id
  let chain ← storeOverIncoming (← operand id 0) locations words
  let c ← copyToRegisters chain locations words
  let dest ← targetCallee callee
  let jump ← value (·.single Op.tailCall .chain (c.chain :: dest :: c.registers ++ [c.glue]))
  modify fun s => { s with graph := { s.graph with root := jump } }
  debug "emitted tail call" [("callee", valueText callee)]
  let results ← n.types.dropLast.mapM fun vt => value (·.undef vt)
  return results ++ [jump]

def storeOutgoing (d : Description) (chain : Option Value) (locations : List Location)
    (words : List (List (Option Value))) : Lowering (Option Value) := do
  let onStack := locations.filter fun l => !(l.place matches .register _)
  if onStack.isEmpty then return chain
  let sp ← result 0 (·.copyFromReg chain d.sp pointerType none)
  let stores ← onStack.mapM fun l => do
    match l.place with
    | .register _ => malformed
    | .stack offset =>
      let word ← wordFor words l
      let ptr ← addressAt sp offset
      value (·.store chain word ptr)
  value (·.tokenFactor stores)

/-- Copies the results of a call out of their registers; gives them with the last chain. -/
def copyResults (chain glue : Option Value) (locations : List Location) :
    Lowering (List (Location × Option Value) × Option Value) := do
  let (words, chain, _) ← locations.foldlM (fun (words, chain, glue) l => do
    match l.place with
    | .stack _ => return (words, chain, glue)
    | .register r =>
      let copy ← build (·.copyFromReg chain r l.type glue)
      return (words ++ [(l, some ⟨copy, 0⟩)], some ⟨copy, 1⟩, some ⟨copy, 2⟩))
    (([] : List (Location × Option Value)), chain, glue)
  return (words, chain)

def lowerPlainCall (d : Description) (id : Nat) (info : CallInfo) (callee : Option Value)
    (locations resultLocations : List Location) (bytes : Int64)
    (words : List (List (Option Value))) : Lowering (List (Option Value)) := do
  modifyFrame fun f =>
    { f with
      adjustsStack := true
      maxCallFrameSize := if f.maxCallFrameSize < bytes then bytes else f.maxCallFrameSize }
  let chain ← operand id 0
  let start ← value (·.callSeqStart chain bytes)
  let stored ← storeOutgoing d start locations words
  let c ← copyToRegisters stored locations words
  let dest ← targetCallee callee
  let mask ← value (·.registerMask (preserved d info.callConv))
  let call ← build (·.newNode Op.call [.chain, .glue]
    (c.chain :: dest :: c.registers ++ [mask, c.glue]))
  let last ← build (·.callSeqEnd (some ⟨call, 0⟩) bytes (some ⟨call, 1⟩))
  let (resultWords, out) ← copyResults (some ⟨last, 0⟩) (some ⟨last, 1⟩) resultLocations
  let results ← (← node id).types.dropLast.zipIdx.mapM fun (vt, i) =>
    ofWords vt (wordsAt i resultWords)
  return results ++ [out]

def lowerCall (d : Description) (id : Nat) : Lowering (List (Option Value)) := do
  let n ← node id
  let info := n.callInfo?.getD {}
  let _ ← operand id 0
  let callee ← operand id 1
  let args := n.operands.drop 2
  if n.types.isEmpty then malformed
  let passed ← passedArguments info args
  match sequenceArguments d info.callConv info.variadic passed with
  | .error e => unrepresentable (.callArguments e)
  | .ok (locations, bytes) =>
    match sequenceResults d info.callConv n.types.dropLast with
    | .error e => unrepresentable (.callResults e)
    | .ok resultLocations =>
      let words ← args.mapM wordsOf
      if info.tail then
        match ← tailObstacle? d id bytes with
        | none => lowerTailCall id callee locations words
        | some o =>
          debug "tail call rejected" [("reason", o.message)]
          lowerPlainCall d id info callee locations resultLocations bytes words
      else lowerPlainCall d id info callee locations resultLocations bytes words

def lowerReturn (d : Description) (id : Nat) : Lowering (List (Option Value)) := do
  let chain ← operand id 0
  let values := (← node id).operands.drop 1
  let types ← values.mapM typeOf
  match sequenceResults d (← graph).signature.callConv types with
  | .error _ => unrepresentable (.results types)
  | .ok locations =>
    let words ← values.mapM wordsOf
    let c ← copyToRegisters chain locations words
    return [← value (·.single Op.ret .chain (c.chain :: c.registers ++ [c.glue]))]

end GraphLowering.Usim

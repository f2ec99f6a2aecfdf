import GraphLowering.Usim.Words

/-! # Addresses of frames

The frame of a caller is found by following saved frame pointers, up to a depth that the description
sets; beyond it the address is undefined. -/

namespace GraphLowering.Usim

open Lower (Lowering)
open Lower.Lowering
open Subtarget (Description)

/-- Follows `depth` saved frame pointers. -/
def followFrames (d : Description) (vt : ValueType) : Nat → Option Value → Lowering (Option Value)
  | 0, fp => return fp
  | depth + 1, fp => do
    let ptr ← addressAt fp d.savedFramePointerOffset
    followFrames d vt depth (← result 0 (·.load (some Graph.entry) ptr vt))

/-- The frame pointer `depth` frames out; undefined and false beyond the reach of the machine. -/
def frameAddress (d : Description) (depth : Int64) (vt : ValueType) :
    Lowering (Option Value × Bool) := do
  if d.maxFrameDepth < depth then return (← value (·.undef vt), false)
  let fp ← result 0 (·.copyFromReg (some Graph.entry) d.fp vt none)
  return (← followFrames d vt depth.toNatClampNeg fp, true)

def frameDepth (id : Nat) : Lowering Int64 := do
  match (← graph).constant? (← operand id 0) with
  | some depth => if depth < 0 then unsupported id .frameDepth else return depth
  | none => unsupported id .frameDepth

def lowerFrameAddr (d : Description) (id : Nat) : Lowering (List (Option Value)) := do
  let depth ← frameDepth id
  modifyFrame fun f => { f with frameAddressTaken := true }
  let (v, reached) ← frameAddress d depth (← resultType id 0)
  if !reached then
    debug "frame depth out of reach"
      [("depth", Text.ofInt64 depth), ("max", Text.ofInt64 d.maxFrameDepth)]
  return [v]

/-- The return address of the function is in the link register; those of its callers are saved in
their frames. -/
def lowerReturnAddr (d : Description) (id : Nat) : Lowering (List (Option Value)) := do
  let depth ← frameDepth id
  modifyFrame fun f => { f with returnAddressTaken := true }
  let vt ← resultType id 0
  if depth = 0 then return [← result 0 (·.copyFromReg (some Graph.entry) d.lr vt none)]
  modifyFrame fun f => { f with frameAddressTaken := true }
  let (fp, reached) ← frameAddress d depth vt
  if !reached then return [fp]
  let ptr ← addressAt fp d.savedLinkRegisterOffset
  return [← result 0 (·.load (some Graph.entry) ptr vt)]

end GraphLowering.Usim

import GraphLowering.Lower.Registry
import GraphLowering.Usim.Call
import GraphLowering.Usim.Combine
import GraphLowering.Usim.FrameAddress
import GraphLowering.Usim.Wide

/-! # The machine as a target -/

namespace GraphLowering.Usim

open Lower (Lowering Target)
open Lower.Lowering
open Subtarget (Description)

def lowerWide (id : Nat) : Lowering (Option (List (Option Value))) := do
  if ← touchesWide id then split id else unsupported id .noRule

def lowerNode (d : Description) (id : Nat) : Lowering (Option (List (Option Value))) := do
  match (← node id).op with
  | .argument => return some (← lowerArgument d id)
  | .call => return some (← lowerCall d id)
  | .ret => return some (← lowerReturn d id)
  | .brCC => return some (← lowerBrCC id)
  | .brCond => return some (← lowerBrCond id)
  | .setCC => return some (← lowerSetCC id)
  | .frameAddr => return some (← lowerFrameAddr d id)
  | .returnAddr => return some (← lowerReturnAddr d id)
  | .select =>
    if (← resultType id 0).isWide then lowerWide id else return some (← lowerSelect id)
  | .selectCC =>
    if (← resultType id 0).isWide then lowerWide id else return some (← lowerSelectCC id)
  | _ => lowerWide id

def name : String := "usim"

def target (d : Description) : Target where
  name
  names := nodeNames d
  classify := classify d.features
  lower := lowerNode d
  combine := combineNode

/-- Why there is no target for a description. -/
inductive TargetFault where
  | noDescription
  | unregistered (name : String)
  | pointerWidth (bits : Int64)
  | description (f : Subtarget.Fault)
deriving DecidableEq, Repr

def TargetFault.message : TargetFault → String
  | noDescription => "lower: description must be non-nil"
  | unregistered s => "lower: no target registered for " ++ Text.quote s
  | pointerWidth n => "usim: pointer width " ++ Text.ofInt64 n ++ " unsupported"
  | description f => "usim: " ++ f.message

def make (d : Description) : Except TargetFault Target :=
  if d.pointerBits ≠ 32 then .error (.pointerWidth d.pointerBits)
  else match d.convention CallConv.c with
    | .error f => .error (.description f)
    | .ok _ => .ok (target d)

def registry : Lower.Registry Description (Except TargetFault Target) where
  makers := [(name, make)]

def targetFor : Option Description → Except TargetFault Target
  | none => .error .noDescription
  | some d =>
    match registry.maker? d.name with
    | none => .error (.unregistered d.name)
    | some maker => maker d

end GraphLowering.Usim

import GraphLowering.Subtarget.Description

/-! # The built-in machine

Sixteen registers, a multiplier but no divider, and two calling conventions. -/

namespace GraphLowering.Subtarget

def Convention.standard : Convention where
  name := "c"
  id := CallConv.c
  args := ["r0", "r1", "r2", "r3"]
  returns := ["r0", "r1"]
  calleeSaved := ["r4", "r5", "r6", "r7", "r8", "r9", "r10", "r11", "r14"]
  slotSize := 4
  stackAlign := 8
  varargsOnStack := true

def Convention.fast : Convention where
  name := "fast"
  id := CallConv.fast
  args := ["r0", "r1", "r2", "r3", "r4", "r5", "r6", "r7"]
  returns := ["r0", "r1", "r2", "r3"]
  calleeSaved := ["r8", "r9", "r10", "r11", "r14"]
  slotSize := 4
  stackAlign := 8
  varargsOnStack := false

def Description.builtIn : Description where
  schema := "v1.0.0"
  name := "usim"
  pointerBits := 32
  stackAlign := 8
  registers := ["r0", "r1", "r2", "r3", "r4", "r5", "r6", "r7", "r8", "r9", "r10", "r11", "r12",
    "r13", "r14", "r15"]
  stackPointer := "r15"
  framePointer := "r14"
  linkRegister := "r13"
  maxFrameDepth := 4
  savedFramePointerOffset := 0
  savedLinkRegisterOffset := 4
  features := { mul := true, div := false, atomics := true }
  addressing := { offsetBits := 16, maxScale := 4, absolute := true }
  conventions := [Convention.standard, Convention.fast]

end GraphLowering.Subtarget

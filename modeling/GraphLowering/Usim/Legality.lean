import GraphLowering.Ir.Opcode
import GraphLowering.Ir.ValueType
import GraphLowering.Lower.Action
import GraphLowering.Subtarget.Description

/-! # What the machine computes

The machine works on 32-bit words. Its own operations are legal. A shared operation that touches a
value of two words is custom, one that touches 128 bits is expanded, and the rest follow a table. -/

namespace GraphLowering.Usim

open Lower (Action)
open Subtarget (Features)

namespace Op

def firstNumber : Opcode := .target 0

/-- Returns through the link register: chain, registers, glue. -/
def ret : Opcode := .target 1

/-- Calls: chain, callee, registers, mask, glue; gives a chain and glue. -/
def call : Opcode := .target 2

/-- Branches: chain, condition, left, right, destination. -/
def brCC : Opcode := .target 3

/-- Selects: left, right, value if true, value if false, condition. -/
def selectCC : Opcode := .target 4

/-- Jumps to a callee in place of returning: chain, callee, registers, glue. -/
def tailCall : Opcode := .target 5

end Op

def opName : Opcode → String
  | .target 0 => "USimISD::FIRST_NUMBER"
  | .target 1 => "USimISD::RET"
  | .target 2 => "USimISD::CALL"
  | .target 3 => "USimISD::BR_CC"
  | .target 4 => "USimISD::SELECT_CC"
  | .target 5 => "USimISD::TAILCALL"
  | op => op.name

/-- How a shared operation is treated on words; operations not in the table are expanded. -/
def wordAction? (f : Features) : Opcode → Option Action
  | .entryToken | .tokenFactor | .constant | .targetConstant | .register | .registerMask
  | .basicBlock | .frameIndex | .globalAddress | .targetGlobalAddress | .externalSymbol
  | .targetExternalSymbol | .condCode | .undef | .copyToReg | .copyFromReg | .mergeValues
  | .buildPair | .extractElement | .add | .sub | .and | .or | .xor | .shl | .sra | .srl
  | .signExtend | .zeroExtend | .truncate | .load | .store | .br | .callSeqStart | .callSeqEnd =>
    some .legal
  | .argument | .call | .ret | .brCC | .brCond | .setCC | .select | .selectCC | .frameAddr
  | .returnAddr => some .custom
  | .mul => some (if f.mul then .legal else .expand)
  | .sdiv | .udiv | .srem | .urem => some (if f.div then .legal else .expand)
  | .atomicLoadAdd => if f.atomics then some .legal else none
  | _ => none

/-- Operations that carry values of two words without computing on them. -/
def carriesPairs : Opcode → Bool
  | .buildPair | .extractElement | .mergeValues => true
  | _ => false

/-- How an operation on values of the given types is treated. The first type that is not a word
decides. -/
def classify (f : Features) (op : Opcode) (types : List ValueType) : Action :=
  if op.isTarget then .legal
  else match wordAction? f op with
    | none => .expand
    | some action =>
      if carriesPairs op then action
      else match types.find? fun vt => vt = .i128 || vt.isWide with
        | some .i128 => .expand
        | some _ => .custom
        | none => action

end GraphLowering.Usim

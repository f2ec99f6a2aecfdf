import GraphLowering.Text.Quoted

/-! # Operations of the graph

The operations every target shares, and an open range of operations that a target adds. Every
operation has a number and a name; the shared ones come first. -/

namespace GraphLowering

inductive Opcode where
  | invalid
  | entryToken
  | tokenFactor
  | constant
  | targetConstant
  | register
  | registerMask
  | basicBlock
  | frameIndex
  | globalAddress
  | targetGlobalAddress
  | externalSymbol
  | targetExternalSymbol
  | condCode
  | undef
  | argument
  | copyToReg
  | copyFromReg
  | mergeValues
  | buildPair
  | extractElement
  | add
  | sub
  | mul
  | sdiv
  | udiv
  | srem
  | urem
  | and
  | or
  | xor
  | shl
  | sra
  | srl
  | signExtend
  | zeroExtend
  | truncate
  | setCC
  | select
  | selectCC
  | brCC
  | brCond
  | br
  | load
  | store
  | atomicLoadAdd
  | call
  | ret
  | callSeqStart
  | callSeqEnd
  | frameAddr
  | returnAddr
  /-- The target operation number `n`, counted from zero. -/
  | target (n : Nat)
deriving DecidableEq, Repr, Inhabited

namespace Opcode

/-- The shared operations in the order of their numbers. -/
def shared : List Opcode := [
  .invalid, .entryToken, .tokenFactor, .constant, .targetConstant, .register, .registerMask,
  .basicBlock, .frameIndex, .globalAddress, .targetGlobalAddress, .externalSymbol,
  .targetExternalSymbol, .condCode, .undef, .argument, .copyToReg, .copyFromReg, .mergeValues,
  .buildPair, .extractElement, .add, .sub, .mul, .sdiv, .udiv, .srem, .urem, .and, .or, .xor,
  .shl, .sra, .srl, .signExtend, .zeroExtend, .truncate, .setCC, .select, .selectCC, .brCC,
  .brCond, .br, .load, .store, .atomicLoadAdd, .call, .ret, .callSeqStart, .callSeqEnd,
  .frameAddr, .returnAddr]

/-- The first number that belongs to targets. -/
def targetBase : Nat := 52

def number : Opcode → Nat
  | target n => targetBase + n
  | op => shared.idxOf op

def ofNumber (n : Nat) : Opcode := shared[n]?.getD (target (n - targetBase))

def isTarget : Opcode → Bool
  | target _ => true
  | _ => false

def name : Opcode → String
  | invalid => "invalid"
  | entryToken => "EntryToken"
  | tokenFactor => "TokenFactor"
  | constant => "Constant"
  | targetConstant => "TargetConstant"
  | register => "Register"
  | registerMask => "RegisterMask"
  | basicBlock => "BasicBlock"
  | frameIndex => "FrameIndex"
  | globalAddress => "GlobalAddress"
  | targetGlobalAddress => "TargetGlobalAddress"
  | externalSymbol => "ExternalSymbol"
  | targetExternalSymbol => "TargetExternalSymbol"
  | condCode => "condcode"
  | undef => "undef"
  | argument => "Argument"
  | copyToReg => "CopyToReg"
  | copyFromReg => "CopyFromReg"
  | mergeValues => "merge_values"
  | buildPair => "build_pair"
  | extractElement => "extract_element"
  | add => "add"
  | sub => "sub"
  | mul => "mul"
  | sdiv => "sdiv"
  | udiv => "udiv"
  | srem => "srem"
  | urem => "urem"
  | and => "and"
  | or => "or"
  | xor => "xor"
  | shl => "shl"
  | sra => "sra"
  | srl => "srl"
  | signExtend => "sign_extend"
  | zeroExtend => "zero_extend"
  | truncate => "truncate"
  | setCC => "setcc"
  | select => "select"
  | selectCC => "select_cc"
  | brCC => "br_cc"
  | brCond => "brcond"
  | br => "br"
  | load => "load"
  | store => "store"
  | atomicLoadAdd => "atomic_load_add"
  | call => "call"
  | ret => "return"
  | callSeqStart => "callseq_start"
  | callSeqEnd => "callseq_end"
  | frameAddr => "frameaddr"
  | returnAddr => "returnaddr"
  | target n => "target+" ++ toString n

/-- The shared operation called `s`; the invalid one cannot be named. -/
def parse? (s : String) : Option Opcode := (shared.drop 1).find? (·.name = s)

end Opcode

end GraphLowering

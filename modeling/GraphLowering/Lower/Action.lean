/-! # How an operation is treated

An operation is legal (it is an instruction), custom (its target replaces it) or expanded (it becomes
a library call). -/

namespace GraphLowering.Lower

inductive Action where
  | legal
  | custom
  | expand
  /-- The number `n` beyond the known actions. -/
  | unknown (n : Nat)
deriving DecidableEq, Repr, Inhabited

namespace Action

def ofNumber : Nat → Action
  | 0 => legal
  | 1 => custom
  | 2 => expand
  | n + 3 => unknown n

def name : Action → String
  | legal => "legal"
  | custom => "custom"
  | expand => "expand"
  | unknown n => "action" ++ toString (n + 3)

end Action

end GraphLowering.Lower

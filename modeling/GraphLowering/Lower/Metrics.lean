/-! # Counts of work done -/

namespace GraphLowering.Lower

structure Metrics where
  /-- How many combines replaced a node. -/
  combines : Nat := 0
  /-- How many functions failed. -/
  failures : Nat := 0
  /-- How many functions were lowered, failed ones included. -/
  functions : Nat := 0
  /-- How many nodes were classified, by action. -/
  classified : List (String × Nat) := []
  /-- How many nodes were replaced, by operation. -/
  replaced : List (String × Nat) := []
deriving DecidableEq, Repr, Inhabited

/-- Counts `k` more under a label. -/
def addCount (k : Nat) (label : String) : List (String × Nat) → List (String × Nat)
  | [] => [(label, k)]
  | (l, n) :: rest => if l = label then (l, n + k) :: rest else (l, n) :: addCount k label rest

def increment (label : String) : List (String × Nat) → List (String × Nat) := addCount 1 label

def addCounts (counts more : List (String × Nat)) : List (String × Nat) :=
  more.foldl (fun counts (label, k) => addCount k label counts) counts

instance : Add Metrics where
  add m n :=
    { combines := m.combines + n.combines
      failures := m.failures + n.failures
      functions := m.functions + n.functions
      classified := addCounts m.classified n.classified
      replaced := addCounts m.replaced n.replaced }

end GraphLowering.Lower

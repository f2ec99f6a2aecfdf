import GraphLowering.Timing.Duration
import GraphLowering.Timing.Stream

/-! # Summaries of timing records -/

namespace GraphLowering.Timing

def addTo (name : String) (d : Int64) : List (String × Int64) → List (String × Int64)
  | [] => [(name, d)]
  | (n, total) :: rest => if n = name then (n, total + d) :: rest else (n, total) :: addTo name d rest

/-- The total duration by name of kind, in the order in which the names appear. -/
def totals (samples : List Sample) : List (String × Int64) :=
  samples.foldl (fun t s => addTo s.kind.name s.duration t) []

structure Statistics where
  name : String
  flags : String
  count : Nat := 0
  sum : Int64 := 0
  min : Int64 := 0
  max : Int64 := 0
deriving DecidableEq, Repr, Inhabited

namespace Statistics

/-- Takes a duration into account. The maximum is at least zero. -/
def add (s : Statistics) (d : Int64) : Statistics :=
  { s with
    count := s.count + 1
    sum := s.sum + d
    min := if s.count = 0 || d < s.min then d else s.min
    max := if s.max < d then d else s.max }

def average (s : Statistics) : Int64 := s.sum / Int64.ofNat s.count

def text (s : Statistics) : String :=
  Text.padLeft 24 s.name ++ " flags=" ++ Text.padLeft 12 s.flags ++ " count=" ++
    Text.padLeft 6 (" " ++ toString s.count) ++ " sum=" ++ Text.padLeft 14 (durationText s.sum) ++
    " min=" ++ Text.padLeft 12 (durationText s.min) ++ " max=" ++
    Text.padLeft 12 (durationText s.max) ++ " avg=" ++ Text.padLeft 12 (durationText s.average)

end Statistics

def addSample (s : Sample) : List Statistics → List Statistics
  | [] => [{ name := s.kind.name, flags := s.kind.flagText : Statistics }.add s.duration]
  | st :: rest =>
    if st.name = s.kind.name then st.add s.duration :: rest else st :: addSample s rest

/-- Statistics by name of kind, in the order in which the names appear. -/
def statistics (samples : List Sample) : List Statistics :=
  samples.foldl (fun sts s => addSample s sts) []

/-- The same with the largest totals first. -/
def bySum (sts : List Statistics) : List Statistics := sts.mergeSort fun a b => b.sum ≤ a.sum

end GraphLowering.Timing

import GraphLowering.Lower.Metrics
import GraphLowering.Text.Quoted

/-! # Metrics as text

Counts are printed in the text format of metrics: for each family its help, its type and its
samples. Families and the samples of a family are in the order of their names. -/

namespace GraphLowering.Lower

inductive FamilyType where
  | counter
  | histogram
deriving DecidableEq, Repr, Inhabited

def FamilyType.name : FamilyType → String
  | counter => "counter"
  | histogram => "histogram"

structure MetricSample where
  suffix : String := ""
  label : Option (String × String) := none
  value : Nat
deriving DecidableEq, Repr, Inhabited

structure MetricFamily where
  name : String
  help : String
  type : FamilyType
  samples : List MetricSample
deriving DecidableEq, Repr, Inhabited

/-- A count; from a million on it has one digit before the point and an exponent. -/
def countText (n : Nat) : String :=
  if n < 1000000 then toString n
  else
    let digits := (toString n).toList
    let exponent := toString (digits.length - 1)
    let decimals := (digits.tail.reverse.dropWhile (· = '0')).reverse
    String.ofList (digits.take 1 ++ if decimals.isEmpty then [] else '.' :: decimals) ++ "e+" ++
      (if exponent.length < 2 then "0" else "") ++ exponent

def MetricSample.text (family : String) (s : MetricSample) : String :=
  family ++ s.suffix ++
    (match s.label with
      | some (l, v) => "\x7b" ++ l ++ "=\"" ++ v ++ "\"\x7d"
      | none => "") ++ " " ++ countText s.value

/-- The lines of a family; a family without samples is not printed. -/
def MetricFamily.lines (f : MetricFamily) : List String :=
  if f.samples.isEmpty then []
  else ("# HELP " ++ f.name ++ " " ++ f.help) :: ("# TYPE " ++ f.name ++ " " ++ f.type.name) ::
    f.samples.map (MetricSample.text f.name)

def labelled (label : String) (counts : List (String × Nat)) : List MetricSample :=
  (counts.mergeSort fun a b => a.1 ≤ b.1).map fun (v, n) => { label := some (label, v), value := n }

namespace Metrics

def families (m : Metrics) : List MetricFamily := [
  { name := "usim_lower_combines_total"
    help := "Target combines that replaced a node."
    type := .counter
    samples := [{ value := m.combines }] },
  { name := "usim_lower_failures_total"
    help := "Functions whose lowering failed."
    type := .counter
    samples := [{ value := m.failures }] },
  { name := "usim_lower_function_duration_seconds"
    help := "Wall time spent lowering one function."
    type := .histogram
    samples := [
      { suffix := "_bucket", label := some ("le", "+Inf"), value := m.functions },
      { suffix := "_count", value := m.functions }] },
  { name := "usim_lower_nodes_classified_total"
    help := "Nodes visited by legalization, by legality action."
    type := .counter
    samples := labelled "action" m.classified },
  { name := "usim_lower_rewrites_total"
    help := "Nodes replaced during legalization, by opcode."
    type := .counter
    samples := labelled "op" m.replaced }]

def lines (m : Metrics) : List String := m.families.flatMap MetricFamily.lines

end Metrics

end GraphLowering.Lower

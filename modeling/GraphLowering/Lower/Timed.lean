import GraphLowering.Lower.Run
import GraphLowering.Timing.Stream

/-! # Lowering by a clock

Stages are carried out one by one, and each that ends leaves a timing record. -/

namespace GraphLowering.Lower

open Timing (Record KindTable)

structure Clock (m : Type → Type) where
  timed : {α : Type} → (Unit → α) → m (α × Int64)

def Clock.stopped : Clock Id where
  timed f := (f (), 0)

namespace Phase

def kind : Phase → UInt64
  | legalize => 1
  | cleanup => 2
  | combine => 3
  | verify => 4

def name : Phase → String
  | legalize => "lower::legalize"
  | cleanup => "lower::cleanup"
  | combine => "lower::combine"
  | verify => "lower::verify"

def kinds : KindTable := all.map fun p => (p.kind, { name := p.name, flags := 1 })

end Phase

section

variable {m : Type → Type} [Monad m]

/-- Carries stages out; each stage that is noted adds a record. -/
def advanceTimed (c : Clock m) (t : Target) (o : Options) (x : Progress) (records : List Record) :
    List Phase → m (Progress × List Record)
  | [] => return (x, records)
  | p :: rest => do
    let (y, duration) ← c.timed fun _ => advance t o x p
    let records :=
      if x.2.phases.size < y.2.phases.size then records ++ [{ kind := p.kind, duration }] else records
    advanceTimed c t o y records rest

/-- Lowers functions in order until one fails. -/
def lowerModuleTimed (c : Clock m) (t : Target) (o : Options) (r : ModuleResult)
    (records : List Record) : List Graph → m (ModuleResult × List Record)
  | [] => return (r, records)
  | g :: rest => do
    let start := begin (t.session g)
    let (x, records) ← advanceTimed c t o start records Phase.all
    let r := r.add (finish x)
    if r.failure.isSome then return (r, records) else lowerModuleTimed c t o r records rest

end

/-- With a clock that stands still, the stages are those of lowering without a clock. -/
theorem advanceTimed_stopped (t : Target) (o : Options) (x : Progress) (records : List Record)
    (ps : List Phase) :
    (advanceTimed Clock.stopped t o x records ps : Progress × List Record).1 =
      ps.foldl (advance t o) x := by
  induction ps generalizing x records with
  | nil => rfl
  | cons p ps ih => exact ih (advance t o x p) _

/-- A clock changes nothing about the result. -/
theorem lowerModuleTimed_stopped (t : Target) (o : Options) (r : ModuleResult)
    (records : List Record) (gs : List Graph) :
    (lowerModuleTimed Clock.stopped t o r records gs : ModuleResult × List Record).1 =
      lowerModule t o r gs := by
  induction gs generalizing r records with
  | nil => rfl
  | cons g gs ih =>
    have h := advanceTimed_stopped t o (begin (t.session g)) records Phase.all
    generalize hy : advanceTimed Clock.stopped t o (begin (t.session g)) records
      Phase.all = y at h
    have hl : lowerGraph t o g = finish (Prod.fst y) := by rw [h]; rfl
    obtain ⟨x, records'⟩ := y
    simp only [lowerModuleTimed, lowerModule, hl, hy, bind, pure]
    split
    · rfl
    · exact ih _ _

end GraphLowering.Lower

import GraphLowering.Command.Flags
import GraphLowering.Log

/-! # Outcomes of commands -/

namespace GraphLowering.Command

/-- What a command leaves behind; `ε` is what can go wrong with it. -/
structure Outcome (ε : Type) where
  output : String := ""
  log : List LogRecord := []
  fault : Option ε := none
  /-- A file to be written. -/
  file : Option (String × List UInt8) := none

structure Reporting (ε : Type) where
  command : String
  flags : List Flag
  message : ε → String
  /-- Whether the usage is printed. -/
  usage : ε → Bool
  /-- Whether the usage is all that is printed. -/
  quiet : ε → Bool

namespace Outcome

variable {ε : Type}

def exitCode (o : Outcome ε) : UInt32 := if o.fault.isSome then 1 else 0

def errorText (r : Reporting ε) (o : Outcome ε) : String :=
  match o.fault with
  | none => ""
  | some e => if r.quiet e then "" else r.command ++ ": " ++ r.message e

def showsUsage (r : Reporting ε) (o : Outcome ε) : Bool := o.fault.any r.usage

end Outcome

def endLines (lines : List String) : String := String.join (lines.map (· ++ "\n"))

end GraphLowering.Command

import GraphLowering.Text.Decimal
import GraphLowering.Text.Quoted

/-! # Flags of a command

Flags start with one or two hyphens and stand before the operands; two hyphens alone end them. A value
follows an equals sign or, unless the flag is a switch, is the next argument. -/

namespace GraphLowering.Command

inductive FlagKind where
  | text
  | switch
  | integer
deriving DecidableEq, Repr, Inhabited

structure Flag where
  name : String
  kind : FlagKind
  help : String := ""
deriving DecidableEq, Repr, Inhabited

inductive FlagValue where
  | text (s : String)
  | switch (b : Bool)
  | integer (n : Int64)
deriving DecidableEq, Repr, Inhabited

inductive FlagFault where
  /-- Help was asked for. -/
  | help
  | badSyntax (arg : String)
  | undefined (name : String)
  | needsArgument (name : String)
  | badSwitch (value name : String)
  | badInteger (value name : String) (fault : Text.IntFault)
deriving DecidableEq, Repr

def FlagFault.message : FlagFault → String
  | help => ""
  | badSyntax s => "bad flag syntax: " ++ s
  | undefined s => "flag provided but not defined: -" ++ s
  | needsArgument s => "flag needs an argument: -" ++ s
  | badSwitch v s => "invalid boolean value " ++ Text.quote v ++ " for -" ++ s ++ ": parse error"
  | badInteger v s f =>
    "invalid value " ++ Text.quote v ++ " for flag -" ++ s ++ ": " ++
      match f with
      | .malformed => "parse error"
      | .outOfRange => "value out of range"

/-! ## Values -/

def readSwitch? (s : String) : Option Bool :=
  if ["1", "t", "T", "TRUE", "true", "True"].contains s then some true
  else if ["0", "f", "F", "FALSE", "false", "False"].contains s then some false
  else none

/-- The base of a number and its digits: a zero leads to base eight, or with a letter to base two,
eight or sixteen. -/
def numberBase : List Char → Nat × List Char
  | '0' :: c :: d :: rest =>
    match c.toLower with
    | 'b' => (2, d :: rest)
    | 'o' => (8, d :: rest)
    | 'x' => (16, d :: rest)
    | _ => (8, c :: d :: rest)
  | '0' :: rest => (8, rest)
  | cs => (10, cs)

def digitValue? (c : Char) : Option Nat :=
  if c.isDigit then some (c.toNat - 48)
  else if 'a' ≤ c.toLower && c.toLower ≤ 'z' then some (c.toLower.toNat - 87)
  else none

/-- The value of digits, at most 64 bits wide. The first thing that is wrong counts. -/
def readDigits (base : Nat) (n : Nat) : List Char → Except Text.IntFault Nat
  | [] => .ok n
  | '_' :: rest => readDigits base n rest
  | c :: rest =>
    match digitValue? c with
    | none => .error .malformed
    | some d =>
      if base ≤ d then .error .malformed
      else if UInt64.size ≤ base * n + d then .error .outOfRange
      else readDigits base (base * n + d) rest

/-- Whether every underscore stands between digits; `afterDigit` tells about the character before. -/
def underscoresFit (afterDigit : Bool) : List Char → Bool
  | [] => true
  | '_' :: c :: rest => afterDigit && c ≠ '_' && underscoresFit true (c :: rest)
  | ['_'] => false
  | _ :: rest => underscoresFit true rest

/-- Whether underscores are where they may be; the mark of a base counts as a digit. -/
def underscoresOk (cs : List Char) : Bool :=
  match cs with
  | '0' :: c :: rest =>
    if ['b', 'o', 'x'].contains c.toLower then underscoresFit true rest
    else underscoresFit false cs
  | _ => underscoresFit false cs

/-- A number without sign, in any base. -/
def readMagnitude (cs : List Char) : Except Text.IntFault Nat := do
  if cs.isEmpty then .error .malformed
  let (base, digits) := numberBase cs
  let n ← readDigits base 0 digits
  if '_' ∈ digits && !underscoresOk cs then .error .malformed
  return n

def readInteger (s : String) : Except Text.IntFault Int64 := do
  match s.toList with
  | '-' :: cs =>
    let n ← readMagnitude cs
    if Nat.pow 2 63 < n then .error .outOfRange else return Int64.ofInt (-(n : Int))
  | cs =>
    let n ← readMagnitude (if cs.head? = some '+' then cs.tail else cs)
    if Nat.pow 2 63 ≤ n then .error .outOfRange else return Int64.ofNat n

def readValue (f : Flag) (value : String) : Except FlagFault FlagValue :=
  match f.kind with
  | .text => .ok (.text value)
  | .switch =>
    match readSwitch? value with
    | some b => .ok (.switch b)
    | none => .error (.badSwitch value f.name)
  | .integer =>
    match readInteger value with
    | .ok n => .ok (.integer n)
    | .error e => .error (.badInteger value f.name e)

/-! ## Arguments -/

inductive Argument where
  | operand
  /-- Ends the flags. -/
  | terminator
  | malformed
  | flag (name : String) (value : Option String)

def splitFlag (cs : List Char) : Argument :=
  match cs with
  | [] => .malformed
  | '-' :: _ => .malformed
  | '=' :: _ => .malformed
  | _ =>
    let value := match cs.dropWhile (· ≠ '=') with
      | [] => none
      | _ :: v => some (String.ofList v)
    .flag (String.ofList (cs.takeWhile (· ≠ '='))) value

def argumentOf (s : String) : Argument :=
  match s.toList with
  | ['-', '-'] => .terminator
  | '-' :: '-' :: cs => splitFlag cs
  | ['-'] => .operand
  | '-' :: cs => splitFlag cs
  | _ => .operand

/-- The flags that were given, in order, and the operands. -/
structure Parsed where
  values : List (String × FlagValue) := []
  operands : List String := []

def Parsed.add (p : Parsed) (name : String) (v : FlagValue) : Parsed :=
  { p with values := (name, v) :: p.values }

def parse (flags : List Flag) : List String → Except FlagFault Parsed
  | [] => .ok {}
  | arg :: rest =>
    match argumentOf arg with
    | .operand => .ok { operands := arg :: rest }
    | .terminator => .ok { operands := rest }
    | .malformed => .error (.badSyntax arg)
    | .flag name value =>
      match flags.find? (·.name = name) with
      | none => .error (if name = "help" || name = "h" then .help else .undefined name)
      | some f =>
        match value, f.kind with
        | some v, _ => do
          let v ← readValue f v
          return (← parse flags rest).add name v
        | none, .switch => do return (← parse flags rest).add name (.switch true)
        | none, _ =>
          match rest with
          | [] => .error (.needsArgument name)
          | v :: rest => do
            let v ← readValue f v
            return (← parse flags rest).add name v

namespace Parsed

def value? (p : Parsed) (name : String) : Option FlagValue :=
  ((p.values.filter (·.1 = name)).getLast?).map (·.2)

def isSet (p : Parsed) (name : String) : Bool := p.value? name = some (.switch true)

def text (p : Parsed) (name : String) : String :=
  match p.value? name with
  | some (.text s) => s
  | _ => ""

end Parsed

/-- What is printed about flags that are not understood. -/
def usageText (tool : String) (flags : List Flag) : String :=
  "Usage of " ++ tool ++ ":\n" ++ String.join (flags.map fun f =>
    "  -" ++ f.name ++
      (match f.kind with
        | .text => " string"
        | .integer => " int"
        | .switch => "") ++ "\n    \t" ++ f.help ++ "\n")

end GraphLowering.Command

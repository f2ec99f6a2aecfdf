/-! # Semantic versions

A version is `vMAJOR`, `vMAJOR.MINOR` or `vMAJOR.MINOR.PATCH`; the last form may carry a pre-release
after a hyphen and a build after a plus sign. -/

namespace GraphLowering.Subtarget

namespace Version

/-- A number without leading zeros, and the rest. -/
def number? (cs : List Char) : Option (Nat × List Char) :=
  let ds := cs.takeWhile Char.isDigit
  if ds.isEmpty || (ds.head? = some '0' && ds.length ≠ 1) then none
  else some (ds.foldl (fun n c => 10 * n + (c.toNat - 48)) 0, cs.dropWhile Char.isDigit)

def identifiers (cs : List Char) : List (List Char) :=
  cs.foldr (fun c acc =>
    if c = '.' then [] :: acc
    else match acc with
      | g :: gs => (c :: g) :: gs
      | [] => [[c]]) [[]]

def isIdentifier (cs : List Char) : Bool :=
  !cs.isEmpty && cs.all fun c => c.isAlphanum || c = '-'

/-- A number of a pre-release has no leading zeros either. -/
def isPaddedNumber (cs : List Char) : Bool :=
  cs.all Char.isDigit && 1 < cs.length && cs.head? = some '0'

def isPreRelease (cs : List Char) : Bool :=
  (identifiers cs).all fun i => isIdentifier i && !isPaddedNumber i

def isBuild (cs : List Char) : Bool := (identifiers cs).all isIdentifier

def isSuffix (cs : List Char) : Bool :=
  match cs with
  | '-' :: r =>
    isPreRelease (r.takeWhile (· ≠ '+')) &&
      match r.dropWhile (· ≠ '+') with
      | [] => true
      | _ :: build => isBuild build
  | '+' :: build => isBuild build
  | _ => cs.isEmpty

/-- The major number of a version; `none` if the text is not a version. -/
def major? (s : String) : Option Nat :=
  match s.toList with
  | 'v' :: cs => do
    let (major, cs) ← number? cs
    match cs with
    | [] => some major
    | '.' :: cs =>
      let (_, cs) ← number? cs
      match cs with
      | [] => some major
      | '.' :: cs =>
        let (_, cs) ← number? cs
        if isSuffix cs then some major else none
      | _ => none
    | _ => none
  | _ => none

end Version

end GraphLowering.Subtarget

import GraphLowering.Yaml.Node
import GraphLowering.Yaml.Resolve

/-! # Typed reading of a tree

A tree is read into records of known shape. A missing or empty value leaves the default of its field.
A value of the wrong shape is refused, and so is a key that occurs twice. Keys that the record does
not have are ignored. -/

namespace GraphLowering.Yaml

/-- The tree does not have the shape that is asked for. -/
structure Mismatch where
  line : Nat
deriving DecidableEq, Repr

namespace Node

def resolved : Node → Except Mismatch Node
  | .alias _ _ (some n) => .ok n
  | .alias l _ none => .error ⟨l⟩
  | n => .ok n

def meaning? (n : Node) : Except Mismatch (Option Meaning) := do
  match ← n.resolved with
  | .scalar l tag text style =>
    match scalarMeaning? tag style text with
    | some m => return some m
    | none => .error ⟨l⟩
  | _ => return none

/-- Reads a scalar: `none` if it is empty. -/
def scalarAs {α : Type} (f : Meaning → String → Option α) (n : Node) :
    Except Mismatch (Option α) := do
  match ← n.resolved with
  | .scalar l tag text style =>
    match scalarMeaning? tag style text with
    | some .null => return none
    | some m =>
      match f m text with
      | some a => return some a
      | none => .error ⟨l⟩
    | none => .error ⟨l⟩
  | m => .error ⟨m.line⟩

/-- Text: whatever a scalar means, its own characters, unless they are in base 64. -/
def asText : Node → Except Mismatch (Option String) :=
  scalarAs fun m text =>
    match m with
    | .binary s => some s
    | _ => some text

def asInt64 : Node → Except Mismatch (Option Int64) :=
  scalarAs fun m _ =>
    match m with
    | .integer n => if n < Nat.pow 2 63 then some (Int64.ofInt n) else none
    | .real x => x.toInt64?
    | _ => none

def asUInt32 : Node → Except Mismatch (Option UInt32) :=
  scalarAs fun m _ =>
    match m with
    | .integer n => if 0 ≤ n && n < UInt32.size then some (UInt32.ofNat n.toNat) else none
    | .real x => x.toUInt32?
    | _ => none

def asBool : Node → Except Mismatch (Option Bool) :=
  scalarAs fun m _ =>
    match m with
    | .bool b => some b
    | .text s | .binary s =>
      if ["y", "Y", "yes", "on"].contains s then some true
      else if ["n", "N", "no", "off"].contains s then some false
      else none
    | _ => none

def isNull (n : Node) : Except Mismatch Bool := do
  match ← n.meaning? with
  | some .null => return true
  | _ => return false

/-- The items of a sequence; `none` if there is nothing in its place. -/
def asItems (n : Node) : Except Mismatch (Option (List Node)) := do
  if ← n.isNull then return none
  match ← n.resolved with
  | .sequence _ _ items => return some items
  | m => .error ⟨m.line⟩

/-- A list read item by item; items that read as nothing are left out. -/
def asList {α : Type} (f : Node → Except Mismatch (Option α)) (n : Node) :
    Except Mismatch (Option (List α)) := do
  match ← n.asItems with
  | none => return none
  | some items => return some ((← items.mapM f).filterMap id)

/-- What makes two keys of a mapping equal: their kind and their text. -/
def keyIdentity : Node → Nat × String
  | .scalar _ _ text _ => (0, text)
  | .sequence .. => (1, "")
  | .mapping .. => (2, "")
  | .alias _ name _ => (3, name)

def isMerge : Node → Bool
  | .scalar _ tag text style =>
    text = "<<" && ((tag.isEmpty || tag = "!") && style = .plain || shortTag tag = "!!merge")
  | _ => false

end Node

abbrev Fields := List (String × Node)

def ownFields (line : Nat) (entries : List (Node × Node)) :
    Except Mismatch (Fields × Option Node) := do
  let ids := entries.map (·.1.keyIdentity)
  if !decide ids.Nodup then .error ⟨line⟩
  let merge := (entries.filter (·.1.isMerge)).getLast?.map (·.2)
  let named ← (entries.filter (!·.1.isMerge)).filterMapM fun (k, v) => do
    return (← k.asText).map (·, v)
  return (named, merge)

/-- The fields of a mapping node, with those of merged mappings behind its own; `depth` bounds how
far merges may nest. -/
def fieldsOf : Nat → Node → Except Mismatch Fields
  | 0, n => .error ⟨n.line⟩
  | depth + 1, n => do
    match ← n.resolved with
    | .mapping l _ entries =>
      let (own, merge) ← ownFields l entries
      match merge with
      | none => return own
      | some m =>
        let sources ← match m with
          | .sequence _ _ items => pure items
          | m => pure [m]
        let merged ← sources.mapM fun s => do
          match ← s.resolved with
          | .mapping .. => fieldsOf depth s
          | t => .error ⟨t.line⟩
        return merged.foldl
          (fun fs new => fs ++ new.filter fun (k, _) => !(fs.any (·.1 = k))) own
    | m => .error ⟨m.line⟩

def mergeDepth : Nat := 1000

/-- The fields of a record; `none` if there is nothing in its place. -/
def Node.asFields (n : Node) : Except Mismatch (Option Fields) := do
  if ← n.isNull then return none
  return some (← fieldsOf mergeDepth n)

namespace Fields

/-- Reads the field `name`, or takes the default if it is missing or empty. -/
def get {α : Type} (fs : Fields) (name : String) (read : Node → Except Mismatch (Option α))
    (default : α) : Except Mismatch α := do
  match fs.filter (·.1 = name) with
  | [] => return default
  | [(_, n)] => return (← read n).getD default
  | (_, n) :: _ => .error ⟨n.line⟩

end Fields

end GraphLowering.Yaml

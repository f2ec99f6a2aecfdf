import GraphLowering.Subtarget.Description
import GraphLowering.Yaml.Decode
import GraphLowering.Yaml.Write

/-! # Descriptions as text

A description is written as a YAML record. Reading fills in what is left out and validates. -/

namespace GraphLowering.Subtarget

open Yaml (Mismatch Doc)

namespace Features

def ofNode (n : Yaml.Node) : Except Mismatch (Option Features) := do
  let some fs ← n.asFields | return none
  return some {
    mul := ← fs.get "mul" Yaml.Node.asBool false
    div := ← fs.get "div" Yaml.Node.asBool false
    atomics := ← fs.get "atomics" Yaml.Node.asBool false }

def toDoc (f : Features) : Doc :=
  .record [("mul", .bool f.mul), ("div", .bool f.div), ("atomics", .bool f.atomics)]

end Features

namespace Addressing

def ofNode (n : Yaml.Node) : Except Mismatch (Option Addressing) := do
  let some fs ← n.asFields | return none
  return some {
    offsetBits := ← fs.get "offsetBits" Yaml.Node.asInt64 0
    maxScale := ← fs.get "maxScale" Yaml.Node.asInt64 0
    absolute := ← fs.get "absolute" Yaml.Node.asBool false }

def toDoc (a : Addressing) : Doc :=
  .record [
    ("offsetBits", .integer a.offsetBits.toInt),
    ("maxScale", .integer a.maxScale.toInt),
    ("absolute", .bool a.absolute)]

end Addressing

def textsDoc (names : List String) : Doc := .list (names.map .text)

namespace Convention

def ofNode (n : Yaml.Node) : Except Mismatch (Option Convention) := do
  let some fs ← n.asFields | return none
  return some {
    name := ← fs.get "name" Yaml.Node.asText ""
    id := ⟨← fs.get "id" Yaml.Node.asUInt32 0⟩
    args := ← fs.get "args" (Yaml.Node.asList Yaml.Node.asText) []
    returns := ← fs.get "returns" (Yaml.Node.asList Yaml.Node.asText) []
    calleeSaved := ← fs.get "calleeSaved" (Yaml.Node.asList Yaml.Node.asText) []
    slotSize := ← fs.get "slotSize" Yaml.Node.asInt64 0
    stackAlign := ← fs.get "stackAlign" Yaml.Node.asInt64 0
    varargsOnStack := ← fs.get "varargsOnStack" Yaml.Node.asBool false }

def toDoc (c : Convention) : Doc :=
  .record [
    ("name", .text c.name),
    ("id", .integer c.id.id.toNat),
    ("args", textsDoc c.args),
    ("returns", textsDoc c.returns),
    ("calleeSaved", textsDoc c.calleeSaved),
    ("slotSize", .integer c.slotSize.toInt),
    ("stackAlign", .integer c.stackAlign.toInt),
    ("varargsOnStack", .bool c.varargsOnStack)]

end Convention

namespace Description

def ofNode (n : Yaml.Node) : Except Mismatch (Option Description) := do
  let some fs ← n.asFields | return none
  return some {
    schema := ← fs.get "schema" Yaml.Node.asText ""
    name := ← fs.get "name" Yaml.Node.asText ""
    pointerBits := ← fs.get "pointerBits" Yaml.Node.asInt64 0
    stackAlign := ← fs.get "stackAlign" Yaml.Node.asInt64 0
    registers := ← fs.get "registers" (Yaml.Node.asList Yaml.Node.asText) []
    stackPointer := ← fs.get "stackPointer" Yaml.Node.asText ""
    framePointer := ← fs.get "framePointer" Yaml.Node.asText ""
    linkRegister := ← fs.get "linkRegister" Yaml.Node.asText ""
    maxFrameDepth := ← fs.get "maxFrameDepth" Yaml.Node.asInt64 0
    savedFramePointerOffset := ← fs.get "savedFramePointerOffset" Yaml.Node.asInt64 0
    savedLinkRegisterOffset := ← fs.get "savedLinkRegisterOffset" Yaml.Node.asInt64 0
    features := ← fs.get "features" Features.ofNode {}
    addressing := ← fs.get "addressing" Addressing.ofNode {}
    conventions := ← fs.get "conventions" (Yaml.Node.asList Convention.ofNode) [] }

/-- The record in a text; the empty text holds the empty record. -/
def ofText? (text : String) : Option Description :=
  match Yaml.read text.toList with
  | .error _ => none
  | .ok none => some {}
  | .ok (some n) =>
    match ofNode n with
    | .error _ => none
    | .ok d => some (d.getD {})

def encode (d : Description) : String :=
  Yaml.render [
    ("schema", .text d.schema),
    ("name", .text d.name),
    ("pointerBits", .integer d.pointerBits.toInt),
    ("stackAlign", .integer d.stackAlign.toInt),
    ("registers", textsDoc d.registers),
    ("stackPointer", .text d.stackPointer),
    ("framePointer", .text d.framePointer),
    ("linkRegister", .text d.linkRegister),
    ("maxFrameDepth", .integer d.maxFrameDepth.toInt),
    ("savedFramePointerOffset", .integer d.savedFramePointerOffset.toInt),
    ("savedLinkRegisterOffset", .integer d.savedLinkRegisterOffset.toInt),
    ("features", d.features.toDoc),
    ("addressing", d.addressing.toDoc),
    ("conventions", .list (d.conventions.map Convention.toDoc))]

end Description

structure Codec where
  encode : Description → String
  decode? : String → Option Description

namespace Codec

def parse (k : Codec) (text : String) : Except Fault Description := do
  match k.decode? text with
  | none => .error .text
  | some d =>
    let d := d.normalize
    d.validate
    return d

/-- Writes a description with everything that was left out filled in. Its conventions are filled in where they
are, all else in a copy: the second component is what is left of the description. -/
def write (k : Codec) (d : Description) : String × Description :=
  (k.encode d.normalize, { d with conventions := d.normalize.conventions })

end Codec

def yaml : Codec := ⟨Description.encode, Description.ofText?⟩

namespace Description

def parse (text : String) : Except Fault Description := yaml.parse text

def render (d : Description) : String := (yaml.write d).1

end Description

end GraphLowering.Subtarget

import GraphLowering.Yaml.Scanner

/-! # The tree of a YAML document

`Yaml.read` gives the tree of the first document of a text. Every node knows the line on which it
starts. An alias carries the node that it names; an alias inside that very node carries nothing. -/

namespace GraphLowering.Yaml

inductive Node where
  | scalar (line : Nat) (tag : String) (text : String) (style : Style)
  | sequence (line : Nat) (tag : String) (items : List Node)
  | mapping (line : Nat) (tag : String) (entries : List (Node × Node))
  | alias (line : Nat) (name : String) (target : Option Node)

namespace Node

def line : Node → Nat
  | scalar l .. => l
  | sequence l .. => l
  | mapping l .. => l
  | .alias l .. => l

end Node

/-- What the reader of tokens keeps: the tokens to come, the fault after them, the anchors (an anchor
whose node is still open has none), and the tag handles of the document. -/
structure Reader where
  tokens : List Token
  fault : Option Fault
  anchors : List (String × Option Node)
  handles : List (String × String)

abbrev Read := StateT Reader (Except Fault)

namespace Read

def peek : Read Token := fun r =>
  match r.tokens, r.fault with
  | t :: _, _ => .ok (t, r)
  | [], some f => .error f
  | [], none => .error ⟨"unexpected end of tokens", 1⟩

def skip : Read Unit := modify fun r => { r with tokens := r.tokens.drop 1 }

def fault {α : Type} (problem : String) (line : Nat) : Read α := throw ⟨problem, line⟩

def empty (line : Nat) : Node := .scalar line "" "" .plain

def expandTag (handle suffix : String) (line : Nat) : Read String := do
  if handle.isEmpty then return suffix
  match (← get).handles.find? (·.1 = handle) with
  | some (_, expansion) => return expansion ++ suffix
  | none => fault "found undefined tag handle" line

/-- The anchor and the tag before a node, in either order, and the line of the first of them. -/
def properties : Read (Option String × String × Option Nat) := do
  let t ← peek
  match t.kind with
  | .anchor name =>
    skip
    let u ← peek
    match u.kind with
    | .tag h s =>
      skip
      return (some name, ← expandTag h s u.line, some t.line)
    | _ => return (some name, "", some t.line)
  | .tag h s =>
    skip
    let tag ← expandTag h s t.line
    let u ← peek
    match u.kind with
    | .anchor name =>
      skip
      return (some name, tag, some t.line)
    | _ => return (none, tag, some t.line)
  | _ => return (none, "", none)

def openAnchor (anchor : Option String) : Read Unit :=
  match anchor with
  | some name => modify fun r => { r with anchors := (name, none) :: r.anchors }
  | none => pure ()

def closeAnchor (anchor : Option String) (node : Node) : Read Node := do
  match anchor with
  | some name => modify fun r => { r with anchors := (name, some node) :: r.anchors }
  | none => pure ()
  return node

mutual

/-- A node. In a block context `block` allows block collections, and `indentless` a sequence that is
not indented under its key. -/
def node : Nat → Bool → Bool → Read Node
  | 0, _, _ => fault "nesting too deep" 1
  | n + 1, block, indentless => do
    let t ← peek
    match t.kind with
    | .alias name =>
      skip
      match (← get).anchors.find? (·.1 = name) with
      | some (_, target) => return .alias t.line name target
      | none => fault "unknown anchor" t.line
    | _ =>
      let (anchor, tag, start) ← properties
      let t ← peek
      let line := start.getD t.line
      match t.kind with
      | .blockEntry =>
        if indentless then
          openAnchor anchor
          closeAnchor anchor (.sequence line tag (← indentlessItems n))
        else if start.isSome then closeAnchor anchor (.scalar line tag "" .plain)
        else fault "did not find expected node content" t.line
      | .scalar text style =>
        skip
        closeAnchor anchor (.scalar line tag text style)
      | .flowSequenceStart =>
        skip
        openAnchor anchor
        closeAnchor anchor (.sequence line tag (← flowItems n true))
      | .flowMappingStart =>
        skip
        openAnchor anchor
        closeAnchor anchor (.mapping line tag (← flowEntries n true))
      | .blockSequenceStart =>
        if block then
          skip
          openAnchor anchor
          closeAnchor anchor (.sequence line tag (← blockItems n))
        else if start.isSome then closeAnchor anchor (.scalar line tag "" .plain)
        else fault "did not find expected node content" t.line
      | .blockMappingStart =>
        if block then
          skip
          openAnchor anchor
          closeAnchor anchor (.mapping line tag (← blockEntries n))
        else if start.isSome then closeAnchor anchor (.scalar line tag "" .plain)
        else fault "did not find expected node content" t.line
      | _ =>
        if start.isSome then closeAnchor anchor (.scalar line tag "" .plain)
        else fault "did not find expected node content" t.line

def blockItems : Nat → Read (List Node)
  | 0 => fault "nesting too deep" 1
  | n + 1 => do
    let t ← peek
    match t.kind with
    | .blockEntry =>
      skip
      let item ← match (← peek).kind with
        | .blockEntry | .blockEnd => pure (empty t.line)
        | _ => node n true false
      return item :: (← blockItems n)
    | .blockEnd =>
      skip
      return []
    | _ => fault "did not find expected '-' indicator" t.line

def indentlessItems : Nat → Read (List Node)
  | 0 => fault "nesting too deep" 1
  | n + 1 => do
    let t ← peek
    match t.kind with
    | .blockEntry =>
      skip
      let item ← match (← peek).kind with
        | .blockEntry | .key | .value | .blockEnd => pure (empty t.line)
        | _ => node n true false
      return item :: (← indentlessItems n)
    | _ => return []

def blockEntries : Nat → Read (List (Node × Node))
  | 0 => fault "nesting too deep" 1
  | n + 1 => do
    let t ← peek
    match t.kind with
    | .key =>
      skip
      let key ← match (← peek).kind with
        | .key | .value | .blockEnd => pure (empty t.line)
        | _ => node n true true
      let value ← blockValue n
      return (key, value) :: (← blockEntries n)
    | .blockEnd =>
      skip
      return []
    | _ => fault "did not find expected key" t.line

def blockValue : Nat → Read Node
  | 0 => fault "nesting too deep" 1
  | n + 1 => do
    let t ← peek
    match t.kind with
    | .value =>
      skip
      match (← peek).kind with
      | .key | .value | .blockEnd => return empty t.line
      | _ => node n true true
    | _ => return empty t.line

/-- The entries of a flow sequence up to its bracket. A key makes an entry a mapping of one pair. -/
def flowItems : Nat → Bool → Read (List Node)
  | 0, _ => fault "nesting too deep" 1
  | n + 1, first => do
    let t ← peek
    if t.kind = .flowSequenceEnd then
      skip
      return []
    if !first then
      if t.kind = .flowEntry then skip else fault "did not find expected ',' or ']'" t.line
    let t ← peek
    match t.kind with
    | .flowSequenceEnd =>
      skip
      return []
    | .key =>
      skip
      let key ← match (← peek).kind with
        | .value | .flowEntry | .flowSequenceEnd =>
          skip
          pure (empty t.line)
        | _ => node n false false
      let v ← peek
      let value ← match v.kind with
        | .value =>
          skip
          match (← peek).kind with
          | .flowEntry | .flowSequenceEnd => pure (empty v.line)
          | _ => node n false false
        | _ => pure (empty v.line)
      return .mapping t.line "" [(key, value)] :: (← flowItems n false)
    | _ =>
      let item ← node n false false
      return item :: (← flowItems n false)

def flowEntries : Nat → Bool → Read (List (Node × Node))
  | 0, _ => fault "nesting too deep" 1
  | n + 1, first => do
    let t ← peek
    if t.kind = .flowMappingEnd then
      skip
      return []
    if !first then
      if t.kind = .flowEntry then skip else fault "did not find expected ',' or '\x7d'" t.line
    let t ← peek
    match t.kind with
    | .flowMappingEnd =>
      skip
      return []
    | .key =>
      skip
      let key ← match (← peek).kind with
        | .value | .flowEntry | .flowMappingEnd => pure (empty t.line)
        | _ => node n false false
      let v ← peek
      let value ← match v.kind with
        | .value =>
          skip
          match (← peek).kind with
          | .flowEntry | .flowMappingEnd => pure (empty v.line)
          | _ => node n false false
        | _ => pure (empty v.line)
      return (key, value) :: (← flowEntries n false)
    | _ =>
      let key ← node n false false
      return (key, empty t.line) :: (← flowEntries n false)

end

def directives : Nat → Bool → List String → Read Unit
  | 0, _, _ => pure ()
  | n + 1, versioned, seen => do
    let t ← peek
    match t.kind with
    | .versionDirective major minor =>
      skip
      if versioned then fault "found duplicate %YAML directive" t.line
      else if major ≠ 1 || minor ≠ 1 then fault "found incompatible YAML document" t.line
      else directives n true seen
    | .tagDirective handle expansion =>
      skip
      if seen.contains handle then fault "found duplicate %TAG directive" t.line
      else
        modify fun r => { r with handles := (handle, expansion) :: r.handles }
        directives n versioned (handle :: seen)
    | _ => pure ()

/-- The first document; `none` if the text holds nothing but comments. -/
def document (fuel : Nat) : Read (Option Node) := do
  skip
  let t ← peek
  match t.kind with
  | .streamEnd => return none
  | .versionDirective .. | .tagDirective .. | .documentStart =>
    directives fuel false []
    let t ← peek
    if t.kind = .documentStart then skip
    else fault "did not find expected <document start>" t.line
    let u ← peek
    match u.kind with
    | .versionDirective .. | .tagDirective .. | .documentStart | .documentEnd | .streamEnd =>
      return some (empty u.line)
    | _ => return some (← node fuel true false)
  | _ => return some (← node fuel true false)

def documentWithEnd (fuel : Nat) : Read (Option Node) := do
  let root ← document fuel
  let _ ← peek
  return root

end Read

/-- The tree of the first document of a text; `none` for a text without a document. -/
def read (cs : List Char) : Except Fault (Option Node) := do
  let (tokens, fault) := tokenize cs
  let start : Reader := {
    tokens := tokens, fault := fault, anchors := []
    handles := [("!", "!"), ("!!", "tag:yaml.org,2002:")] }
  let (root, _) ← (Read.documentWithEnd (2 * tokens.length + 2)).run start
  return root

end GraphLowering.Yaml

import GraphLowering.Yaml.Token

/-! # Scalars in a YAML text

Scanning of the five scalar styles. Each function starts at the first character of the scalar and
answers the text it stands for and the place after it. Line breaks inside quoted, plain and folded
scalars fold: one break is a space, and each further break stays. -/

namespace GraphLowering.Yaml

structure Gap where
  /-- Whether a line break was passed. -/
  broken : Bool := false
  /-- Blanks on the line of the first word. -/
  blanks : List Char := []
  /-- The first break. -/
  first : List Char := []
  /-- The breaks after it. -/
  more : List Char := []

def Gap.text (g : Gap) : List Char :=
  if g.broken then
    if g.first.head? = some '\n' then
      if g.more.isEmpty then [' '] else g.more
    else g.first ++ g.more
  else g.blanks

/-- Over blanks and breaks, collecting them in `g`. On a fresh line a tab before column `indent` is
refused if `strict`. -/
def scanGap (strict : Bool) (indent : Int) : Nat → Cursor → Gap → Except Fault (Cursor × Gap)
  | 0, cur, g => .ok (cur, g)
  | n + 1, cur, g =>
    match cur.peek with
    | none => .ok (cur, g)
    | some c =>
      if isBlank c then
        if strict && g.broken && (cur.column : Int) < indent && c = '\t' then
          cur.fault "found a tab character that violates indentation"
        else if g.broken then scanGap strict indent n cur.skip g
        else scanGap strict indent n cur.skip { g with blanks := g.blanks ++ [c] }
      else if isBreak c then
        if g.broken then
          scanGap strict indent n cur.skipBreak { g with more := g.more ++ cur.breakText }
        else
          scanGap strict indent n cur.skipBreak
            { g with broken := true, blanks := [], first := cur.breakText }
      else .ok (cur, g)

/-! ## Quoted scalars -/

def simpleEscape? : Char → Option Char
  | '0' => some (Char.ofNat 0)
  | 'a' => some (Char.ofNat 7)
  | 'b' => some (Char.ofNat 8)
  | 't' => some '\t'
  | '\t' => some '\t'
  | 'n' => some '\n'
  | 'v' => some (Char.ofNat 11)
  | 'f' => some (Char.ofNat 12)
  | 'r' => some '\r'
  | 'e' => some (Char.ofNat 27)
  | ' ' => some ' '
  | '"' => some '"'
  | '\'' => some '\''
  | '\\' => some '\\'
  | 'N' => some (Char.ofNat 0x85)
  | '_' => some (Char.ofNat 0xa0)
  | 'L' => some (Char.ofNat 0x2028)
  | 'P' => some (Char.ofNat 0x2029)
  | _ => none

def codeLength? : Char → Option Nat
  | 'x' => some 2
  | 'u' => some 4
  | 'U' => some 8
  | _ => none

def scanEscape (cur : Cursor) : Except Fault (Char × Cursor) :=
  match cur.peekAt 1 with
  | none => cur.fault "found unknown escape character"
  | some e =>
    match simpleEscape? e, codeLength? e with
    | some c, _ => .ok (c, cur.skipMany 2)
    | none, some k =>
      let digits := ((cur.rest.drop 2).take k).filterMap hexValue?
      if digits.length < k then cur.fault "did not find expected hexdecimal number"
      else
        let n := digits.foldl (fun n d => 16 * n + d) 0
        if (0xd800 ≤ n && n ≤ 0xdfff) || n > 0x10ffff then
          cur.fault "found invalid Unicode character escape code"
        else .ok (Char.ofNat n, cur.skipMany (2 + k))
    | none, none => cur.fault "found unknown escape character"

/-- The characters up to the next blank, break or closing quote. The flag says that an escaped line
break ended them. -/
def scanQuotedWord (quote : Char) : Nat → Cursor → List Char →
    Except Fault (Cursor × List Char × Bool)
  | 0, cur, acc => .ok (cur, acc, false)
  | n + 1, cur, acc =>
    match cur.peek with
    | none => .ok (cur, acc, false)
    | some c =>
      if isBlank c || isBreak c then .ok (cur, acc, false)
      else if quote = '\'' && c = '\'' && cur.peekAt 1 = some '\'' then
        scanQuotedWord quote n (cur.skipMany 2) ('\'' :: acc)
      else if c = quote then .ok (cur, acc, false)
      else if quote = '"' && c = '\\' then
        if (cur.peekAt 1).any isBreak then .ok (cur.skip.skipBreak, acc, true)
        else do
          let (e, cur) ← scanEscape cur
          scanQuotedWord quote n cur (e :: acc)
      else scanQuotedWord quote n cur.skip (c :: acc)

/-- The rest of a quoted scalar; `acc` holds its characters so far, last one first. -/
def scanQuotedBody (quote : Char) : Nat → Cursor → List Char → Except Fault (String × Cursor)
  | 0, cur, _ => cur.fault "found unexpected end of stream"
  | n + 1, cur, acc =>
    if cur.atMarker '-' || cur.atMarker '.' then cur.fault "found unexpected document indicator"
    else if cur.rest.isEmpty then cur.fault "found unexpected end of stream"
    else do
      let (cur, acc, escapedBreak) ← scanQuotedWord quote cur.rest.length cur acc
      if cur.peek = some quote then
        return (String.ofList acc.reverse, cur.skip)
      let (cur, gap) ← scanGap false 0 cur.rest.length cur { broken := escapedBreak }
      scanQuotedBody quote n cur (gap.text.reverse ++ acc)

def scanQuoted (quote : Char) (cur : Cursor) : Except Fault (String × Cursor) :=
  scanQuotedBody quote (cur.rest.length + 1) cur.skip []

/-! ## Plain scalars -/

/-- Whether the character `c` followed by `next` ends a plain scalar. -/
def endsPlain (inFlow : Bool) (c : Char) (next : Option Char) : Bool :=
  (c = ':' && isGap next) || (inFlow && ",?[]\x7b\x7d".toList.contains c)

def scanPlainWord (inFlow : Bool) : Nat → Cursor → List Char → Cursor × List Char
  | 0, cur, acc => (cur, acc)
  | n + 1, cur, acc =>
    match cur.peek with
    | none => (cur, acc)
    | some c =>
      if isBlank c || isBreak c || endsPlain inFlow c (cur.peekAt 1) then (cur, acc)
      else scanPlainWord inFlow n cur.skip (c :: acc)

/-- The rest of a plain scalar. `gap` is what was passed since the last word; it counts only if
another word follows. The flag says that the scan ended on a fresh line. -/
def scanPlainBody (inFlow : Bool) (indent : Int) : Nat → Cursor → List Char → Gap →
    Except Fault (String × Cursor × Bool)
  | 0, cur, acc, gap => .ok (String.ofList acc.reverse, cur, gap.broken)
  | n + 1, cur, acc, gap =>
    if cur.atMarker '-' || cur.atMarker '.' || cur.peek = some '#' then
      .ok (String.ofList acc.reverse, cur, gap.broken)
    else do
      let (next, word) := scanPlainWord inFlow cur.rest.length cur []
      let acc := if word.isEmpty then acc else word ++ gap.text.reverse ++ acc
      let gap : Gap := if word.isEmpty then gap else {}
      if !(next.atBlank || next.atBreak) then
        return (String.ofList acc.reverse, next, gap.broken)
      let (next, gap) ← scanGap true indent next.rest.length next gap
      if !inFlow && (next.column : Int) < indent then
        return (String.ofList acc.reverse, next, gap.broken)
      scanPlainBody inFlow indent n next acc gap

/-- A plain scalar inside a block that is indented by `indent`. -/
def scanPlain (inFlow : Bool) (indent : Int) (cur : Cursor) :
    Except Fault (String × Cursor × Bool) :=
  scanPlainBody inFlow (indent + 1) (cur.rest.length + 1) cur [] {}

/-! ## Block scalars -/

inductive Chomp where
  | strip
  | clip
  | keep
deriving DecidableEq

/-- Over the indentation and empty lines before the next line of a block scalar. `indent` is zero
until the first line has fixed it; `widest` is the widest blank line so far. -/
def scanBlockBreaks (indent : Nat) : Nat → Cursor → List Char → Nat →
    Except Fault (Cursor × List Char × Nat)
  | 0, cur, breaks, widest => .ok (cur, breaks, widest)
  | n + 1, cur, breaks, widest =>
    let spaces := (cur.rest.takeWhile (· = ' ')).length
    let cur := cur.skipMany (if indent = 0 then spaces else min spaces (indent - cur.column))
    let widest := max widest cur.column
    if (indent = 0 || cur.column < indent) && cur.peek = some '\t' then
      cur.fault "found a tab character where an indentation space is expected"
    else if cur.atBreak then
      scanBlockBreaks indent n cur.skipBreak (breaks ++ cur.breakText) widest
    else .ok (cur, breaks, widest)

/-- The lines of a block scalar. `lead` is the break after the last line, `trail` the breaks of the
empty lines after it; `afterBlank` says that the last line began with a blank. -/
def scanBlockLines (fold : Bool) (chomp : Chomp) (indent : Nat) : Nat → Cursor → List Char →
    List Char → List Char → Bool → Except Fault (String × Cursor)
  | 0, cur, acc, _, _, _ => .ok (String.ofList acc.reverse, cur)
  | n + 1, cur, acc, lead, trail, afterBlank =>
    if cur.column = indent && !cur.rest.isEmpty then do
      let blank := cur.atBlank
      let joint :=
        if fold && !afterBlank && !blank && lead.head? = some '\n' then
          (if trail.isEmpty then [' '] else []) ++ trail
        else lead ++ trail
      let text := cur.rest.takeWhile (!isBreak ·)
      let cur := cur.skipMany text.length
      let acc := text.reverse ++ joint.reverse ++ acc
      let lead := if cur.atBreak then cur.breakText else []
      let cur := if cur.atBreak then cur.skipBreak else cur
      let (cur, trail, _) ← scanBlockBreaks indent (cur.rest.length + 1) cur [] 0
      scanBlockLines fold chomp indent n cur acc lead trail blank
    else
      let tail := match chomp with
        | .strip => []
        | .clip => lead
        | .keep => lead ++ trail
      .ok (String.ofList (tail.reverse ++ acc).reverse, cur)

/-- The indicators after the bar or the angle bracket: how to chomp, and an explicit indentation. -/
def scanBlockHeader (cur : Cursor) : Except Fault (Chomp × Nat × Cursor) :=
  let chompAt (cur : Cursor) : Option Chomp :=
    match cur.peek with
    | some '+' => some .keep
    | some '-' => some .strip
    | _ => none
  let digitAt (cur : Cursor) : Option Nat :=
    match cur.peek with
    | some c => if c.isDigit then some (c.toNat - 48) else none
    | none => none
  let zero := "found an indentation indicator equal to 0"
  match chompAt cur with
  | some ch =>
    match digitAt cur.skip with
    | some 0 => cur.fault zero
    | some d => .ok (ch, d, cur.skip.skip)
    | none => .ok (ch, 0, cur.skip)
  | none =>
    match digitAt cur with
    | some 0 => cur.fault zero
    | some d =>
      match chompAt cur.skip with
      | some ch => .ok (ch, d, cur.skip.skip)
      | none => .ok (.clip, d, cur.skip)
    | none => .ok (.clip, 0, cur)

/-- A literal or folded scalar inside a block that is indented by `parent`. -/
def scanBlock (fold : Bool) (parent : Int) (cur : Cursor) : Except Fault (String × Cursor) := do
  let (chomp, increment, cur) ← scanBlockHeader cur.skip
  let cur := cur.skipWhile isBlank
  let cur := if cur.peek = some '#' then cur.skipWhile (!isBreak ·) else cur
  if !isLineEnd cur.peek then
    return ← cur.fault "did not find expected comment or line break"
  let cur := if cur.atBreak then cur.skipBreak else cur
  let given : Nat := if increment = 0 then 0 else parent.toNat + increment
  let (cur, trail, widest) ← scanBlockBreaks given (cur.rest.length + 1) cur [] 0
  let indent := if given = 0 then max (max widest (parent + 1).toNat) 1 else given
  scanBlockLines fold chomp indent (cur.rest.length + 1) cur [] [] trail false

end GraphLowering.Yaml

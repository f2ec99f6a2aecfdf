import GraphLowering.Yaml.Resolve

/-! # Writing YAML

Documents are written in block style with two columns per level. A text is written plainly if it then
reads back as itself, else in the quotes it needs; a text of several lines becomes a literal block. -/

namespace GraphLowering.Yaml

inductive Doc where
  | text (s : String)
  | integer (n : Int)
  | bool (b : Bool)
  | list (items : List Doc)
  | record (fields : List (String × Doc))

/-! ## Which style a text needs -/

def isPlainChar (c : Char) : Bool :=
  let n := c.toNat
  n = 0x0a || (0x20 ≤ n && n ≤ 0x7e) || (0xa0 ≤ n && n < 0xd800) ||
    (0xe000 ≤ n && n ≤ 0xfffd && n ≠ 0xfeff)

def isBaseSixty (s : String) : Bool :=
  let cs := s.toList
  let cs := match cs with
    | c :: r => if c = '+' || c = '-' then r else cs
    | [] => cs
  match splitColons cs with
  | first :: groups =>
    !groups.isEmpty && first.head?.any Char.isDigit &&
      first.all (fun c => c.isDigit || c = '_') &&
      groups.dropLast.all isGroup && groups.getLast?.any fun g =>
        isGroup (g.takeWhile (· ≠ '.')) &&
          (g.dropWhile (· ≠ '.')).all fun c => c.isDigit || c = '_' || c = '.' &&
            (g.filter (· = '.')).length ≤ 1
  | [] => false
where
  splitColons (cs : List Char) : List (List Char) :=
    cs.foldr (fun c acc =>
      if c = ':' then [] :: acc
      else match acc with
        | g :: gs => (c :: g) :: gs
        | [] => [[c]]) [[]]
  isGroup : List Char → Bool
    | [d] => d.isDigit
    | [t, d] => '0' ≤ t && t ≤ '5' && d.isDigit
    | _ => false

def isOldBool (s : String) : Bool :=
  ["y", "Y", "yes", "Yes", "YES", "on", "On", "ON",
   "n", "N", "no", "No", "NO", "off", "Off", "OFF"].contains s

structure Traits where
  /-- Holds an indicator that a plain scalar in a block may not hold. -/
  indicators : Bool
  multiline : Bool
  /-- A blank or a break at either end. -/
  edges : Bool
  trailingSpace : Bool
  /-- A break followed by a space. -/
  breakSpace : Bool
  /-- A space followed by a break. -/
  spaceBreak : Bool
  tabs : Bool
  /-- Characters that only double quotes can show. -/
  special : Bool

def isIndicator (before : Option Char) (c : Char) (after : Option Char) : Bool :=
  let spaced := after.all isBlank
  match before with
  | none =>
    "#,[]\x7b\x7d&*!|>'\"%@\x60".toList.contains c || ((c = '?' || c = ':' || c = '-') && spaced)
  | some b => (c = ':' && spaced) || (c = '#' && (isBlank b || isBreak b))

def hasIndicator : Option Char → List Char → Bool
  | _, [] => false
  | before, c :: r => isIndicator before c r.head? || hasIndicator (some c) r

/-- Whether a character of the first kind stands right before one of the second. -/
def hasPair (p q : Char → Bool) : List Char → Bool
  | a :: b :: r => (p a && q b) || hasPair p q (b :: r)
  | _ => false

def traits (cs : List Char) : Traits where
  indicators := hasIndicator none cs || cs.take 3 = ['-', '-', '-'] || cs.take 3 = ['.', '.', '.']
  multiline := cs.any isBreak
  edges := (cs.head?.any fun c => c = ' ' || isBreak c) || cs.getLast?.any fun c => c = ' ' || isBreak c
  trailingSpace := cs.getLast? = some ' '
  breakSpace := hasPair isBreak (· = ' ') cs
  spaceBreak := hasPair (· = ' ') isBreak cs
  tabs := cs.contains '\t'
  special := cs.any fun c => c ≠ '\t' && !isPlainChar c

def styleOf (s : String) : Style :=
  let t := traits s.toList
  if s.toList.contains '\n' then
    if t.trailingSpace || t.spaceBreak || t.special then .doubleQuoted else .literal
  else if !(meaning true s).isText || isBaseSixty s || isOldBool s then .doubleQuoted
  else if t.breakSpace || t.spaceBreak || t.tabs || t.special then .doubleQuoted
  else if t.edges || t.multiline || t.indicators then .singleQuoted
  else .plain

/-! ## Texts in each style -/

/-- The upper-case hexadecimal digits of `n`, `width` of them. -/
def upperHex (width n : Nat) : List Char :=
  match width with
  | 0 => []
  | w + 1 =>
    let d := n % 16
    upperHex w (n / 16) ++ [if d < 10 then Char.ofNat (48 + d) else Char.ofNat (55 + d)]

def escape (c : Char) : List Char :=
  if isPlainChar c && !isBreak c && c ≠ '"' && c ≠ '\\' then [c]
  else match c.toNat with
    | 0x00 => ['\\', '0']
    | 0x07 => ['\\', 'a']
    | 0x08 => ['\\', 'b']
    | 0x09 => ['\\', 't']
    | 0x0a => ['\\', 'n']
    | 0x0b => ['\\', 'v']
    | 0x0c => ['\\', 'f']
    | 0x0d => ['\\', 'r']
    | 0x1b => ['\\', 'e']
    | 0x22 => ['\\', '"']
    | 0x5c => ['\\', '\\']
    | 0x85 => ['\\', 'N']
    | 0xa0 => ['\\', '_']
    | 0x2028 => ['\\', 'L']
    | 0x2029 => ['\\', 'P']
    | n =>
      if n ≤ 0xff then '\\' :: 'x' :: upperHex 2 n
      else if n ≤ 0xffff then '\\' :: 'u' :: upperHex 4 n
      else '\\' :: 'U' :: upperHex 8 n

/-- The indicators of a literal block: an explicit indentation if it starts with a blank, and how its
last breaks are read. -/
def literalHeader (cs : List Char) : String :=
  let hint := if cs.head?.any fun c => c = ' ' || isBreak c then "2" else ""
  let chomp := match cs.reverse with
    | [] => "-"
    | [c] => if isBreak c then "+" else "-"
    | c :: d :: _ => if !isBreak c then "-" else if isBreak d then "+" else ""
  "|" ++ hint ++ chomp

/-- The characters of a text with `margin` before each one that follows a break. -/
def indented (margin : List Char) (afterBreak : Bool) : List Char → List Char
  | [] => []
  | c :: r =>
    if isBreak c then c :: indented margin true r
    else (if afterBreak then margin else []) ++ c :: indented margin false r

/-- A text as the rest of a line and the lines below it; what follows a break is indented by
`indent`. -/
def textLines (indent : Nat) (s : String) : String × List String :=
  let margin := List.replicate indent ' '
  match styleOf s with
  | .plain => (s, [])
  | .singleQuoted =>
    let quoted := (indented margin false s.toList).flatMap fun c =>
      if c = '\'' then ['\'', '\''] else [c]
    ("'" ++ String.ofList quoted ++ "'", [])
  | .literal =>
    -- a break that starts the text ends the line of the header
    let start := if s.toList.head?.any isBreak then "" else "\n"
    let lines := (start ++ String.ofList (indented margin true s.toList)).splitOn "\n"
    let lines := if lines.getLast? = some "" then lines.dropLast else lines
    match lines with
    | first :: rest => (literalHeader s.toList ++ first, rest)
    | [] => (literalHeader s.toList, [])
  | _ => ("\"" ++ String.ofList (s.toList.flatMap escape) ++ "\"", [])

/-! ## Documents -/

def pad (indent : Nat) : String := String.ofList (List.replicate indent ' ')

mutual

/-- A document after a key or a dash: what stands on the same line, if anything, and the lines below.
`indent` is the column of the key or the text after the dash. -/
def Doc.lines (indent : Nat) : Doc → Option String × List String
  | .text s =>
    let (first, rest) := textLines (indent + 2) s
    (some first, rest)
  | .integer n => (some (toString n), [])
  | .bool b => (some (if b then "true" else "false"), [])
  | .list [] => (some "[]", [])
  | .list items => (none, Doc.itemLines (indent + 2) items)
  | .record [] => (some "\x7b\x7d", [])
  | .record fields => (none, Doc.fieldLines (indent + 2) fields)

/-- The items of a list, each behind a dash in column `indent`. -/
def Doc.itemLines (indent : Nat) : List Doc → List String
  | [] => []
  | item :: items =>
    let own := match item with
      | .record (f :: fs) =>
        match Doc.fieldLines (indent + 2) (f :: fs) with
        | first :: rest => (pad indent ++ "- " ++ (first.drop (indent + 2)).toString) :: rest
        | [] => []
      | .text s =>
        let (first, rest) := textLines (indent + 2) s
        (pad indent ++ "- " ++ first) :: rest
      | .integer n => [pad indent ++ "- " ++ toString n]
      | .bool b => [pad indent ++ "- " ++ (if b then "true" else "false")]
      | .record [] => [pad indent ++ "- \x7b\x7d"]
      | .list [] => [pad indent ++ "- []"]
      | .list (i :: is) =>
        match Doc.itemLines (indent + 2) (i :: is) with
        | first :: rest => (pad indent ++ "- " ++ (first.drop (indent + 2)).toString) :: rest
        | [] => []
    own ++ Doc.itemLines indent items

/-- The fields of a record, each key in column `indent`. -/
def Doc.fieldLines (indent : Nat) : List (String × Doc) → List String
  | [] => []
  | (key, value) :: fields =>
    let (first, rest) := Doc.lines indent value
    let head := pad indent ++ key ++ ":" ++ (match first with
      | some t => " " ++ t
      | none => "")
    head :: rest ++ Doc.fieldLines indent fields

end

def render (fields : List (String × Doc)) : String :=
  String.join ((Doc.fieldLines 0 fields).map (· ++ "\n"))

end GraphLowering.Yaml

import GraphLowering.Text.Decimal
import GraphLowering.Text.Quoted
import GraphLowering.Text.Utf8

/-! # JSON

Values as trees. Numbers keep their text, and objects all their fields in order. -/

namespace GraphLowering.JsonText

inductive Tree where
  | null
  | bool (b : Bool)
  | number (digits : List Char)
  | text (s : String)
  | array (items : List Tree)
  | object (fields : List (String × Tree))

/-! ## Reading -/

def isBlank (c : Char) : Bool := c = ' ' || c = '\t' || c = '\n' || c = '\r'

def skipBlanks (cs : List Char) : List Char := cs.dropWhile isBlank

def stringBody : List Char → Option (List Char × List Char)
  | [] => none
  | '"' :: rest => some ([], rest)
  | '\\' :: c :: rest => (stringBody rest).map fun (b, r) => ('\\' :: c :: b, r)
  | c :: rest => if c.toNat < 0x20 then none else (stringBody rest).map fun (b, r) => (c :: b, r)

def hexValue? (c : Char) : Option Nat :=
  if '0' ≤ c && c ≤ '9' then some (c.toNat - 48)
  else if 'a' ≤ c && c ≤ 'f' then some (c.toNat - 87)
  else if 'A' ≤ c && c ≤ 'F' then some (c.toNat - 55)
  else none

def hexValues? (a b c d : Char) : Option Nat := do
  return (← hexValue? a) * 4096 + (← hexValue? b) * 256 + (← hexValue? c) * 16 + (← hexValue? d)

def isSurrogate (n : Nat) : Bool := 0xd800 ≤ n && n < 0xe000

def surrogatePair? (high low : Nat) : Option Char :=
  if high < 0xdc00 && 0xdc00 ≤ low && low < 0xe000 then
    some (Char.ofNat (0x10000 + (high - 0xd800) * 1024 + (low - 0xdc00)))
  else none

def simpleEscape? : Char → Option Char
  | '"' => some '"'
  | '\\' => some '\\'
  | '/' => some '/'
  | 'b' => some (Char.ofNat 8)
  | 'f' => some (Char.ofNat 12)
  | 'n' => some '\n'
  | 'r' => some '\r'
  | 't' => some '\t'
  | _ => none

/-- A part of a string: a character, or half of one. -/
inductive Piece where
  | char (c : Char)
  | surrogate (n : Nat)

def pieces : List Char → Option (List Piece)
  | [] => some []
  | '\\' :: 'u' :: a :: b :: c :: d :: rest =>
    match hexValues? a b c d with
    | none => none
    | some n =>
      let piece := if isSurrogate n then Piece.surrogate n else .char (Char.ofNat n)
      (pieces rest).map (piece :: ·)
  | '\\' :: c :: rest =>
    match simpleEscape? c with
    | some ch => (pieces rest).map (.char ch :: ·)
    | none => none
  | c :: rest => (pieces rest).map (.char c :: ·)

/-- What a surrogate without its partner stands for. -/
def alone (pending : Option Nat) : List Char := pending.toList.map fun _ => Text.replacement

/-- The characters that parts stand for; `pending` is a surrogate that was just read. -/
def joinPieces (pending : Option Nat) : List Piece → List Char
  | [] => alone pending
  | .char c :: rest => alone pending ++ c :: joinPieces none rest
  | .surrogate n :: rest =>
    match pending.bind (surrogatePair? · n) with
    | some ch => ch :: joinPieces none rest
    | none => alone pending ++ joinPieces (some n) rest

def readString (cs : List Char) : Option (String × List Char) := do
  let (body, rest) ← stringBody cs
  return (String.ofList (joinPieces none (← pieces body)), rest)

def isDigits (cs : List Char) : Bool := !cs.isEmpty && cs.all Char.isDigit

def isExponent (cs : List Char) : Bool :=
  match cs with
  | [] => true
  | e :: rest =>
    (e = 'e' || e = 'E') &&
      match rest with
      | s :: ds => if s = '+' || s = '-' then isDigits ds else isDigits rest
      | [] => false

def isFraction (cs : List Char) : Bool :=
  match cs with
  | '.' :: rest => isDigits (rest.takeWhile Char.isDigit) && isExponent (rest.dropWhile Char.isDigit)
  | _ => isExponent cs

def isUnsigned (cs : List Char) : Bool :=
  match cs with
  | '0' :: rest => isFraction rest
  | c :: _ => c.isDigit && isFraction (cs.dropWhile Char.isDigit)
  | [] => false

def isNumber (cs : List Char) : Bool :=
  match cs with
  | '-' :: rest => isUnsigned rest
  | _ => isUnsigned cs

def isNumberChar (c : Char) : Bool :=
  c.isDigit || c = '-' || c = '+' || c = '.' || c = 'e' || c = 'E'

/-- A value without parts. -/
def readAtom (cs : List Char) : Option (Tree × List Char) :=
  match cs with
  | '"' :: rest => (readString rest).map fun (s, r) => (.text s, r)
  | 'n' :: 'u' :: 'l' :: 'l' :: rest => some (.null, rest)
  | 't' :: 'r' :: 'u' :: 'e' :: rest => some (.bool true, rest)
  | 'f' :: 'a' :: 'l' :: 's' :: 'e' :: rest => some (.bool false, rest)
  | _ =>
    let token := cs.takeWhile isNumberChar
    if isNumber token then some (.number token, cs.dropWhile isNumberChar) else none

mutual

/-- A value; `depth` bounds how far values nest. -/
def readTree : Nat → Nat → List Char → Option (Tree × List Char)
  | 0, _, _ => none
  | fuel + 1, depth, cs =>
    match skipBlanks cs with
    | '\x7b' :: rest =>
      if depth = 0 then none
      else match skipBlanks rest with
        | '\x7d' :: rest => some (.object [], rest)
        | rest => (readFields fuel (depth - 1) rest).map fun (fs, r) => (.object fs, r)
    | '[' :: rest =>
      if depth = 0 then none
      else match skipBlanks rest with
        | ']' :: rest => some (.array [], rest)
        | rest => (readItems fuel (depth - 1) rest).map fun (ts, r) => (.array ts, r)
    | cs => readAtom cs

def readItems : Nat → Nat → List Char → Option (List Tree × List Char)
  | 0, _, _ => none
  | fuel + 1, depth, cs =>
    match readTree fuel depth cs with
    | none => none
    | some (t, rest) =>
      match skipBlanks rest with
      | ',' :: rest => (readItems fuel depth rest).map fun (ts, r) => (t :: ts, r)
      | ']' :: rest => some ([t], rest)
      | _ => none

def readFields : Nat → Nat → List Char → Option (List (String × Tree) × List Char)
  | 0, _, _ => none
  | fuel + 1, depth, cs =>
    match skipBlanks cs with
    | '"' :: rest =>
      match readString rest with
      | none => none
      | some (k, rest) =>
        match skipBlanks rest with
        | ':' :: rest =>
          match readTree fuel depth rest with
          | none => none
          | some (t, rest) =>
            match skipBlanks rest with
            | ',' :: rest => (readFields fuel depth rest).map fun (fs, r) => ((k, t) :: fs, r)
            | '\x7d' :: rest => some ([(k, t)], rest)
            | _ => none
        | _ => none
    | _ => none

end

def maxDepth : Nat := 10000

def read? (cs : List Char) : Option Tree :=
  match readTree (cs.length + 1) maxDepth cs with
  | some (t, rest) => if (skipBlanks rest).isEmpty then some t else none
  | none => none

/-! ## Writing -/

/-- A character of a string. Characters that mean something in markup are written by number. -/
def escapeChar (c : Char) : String :=
  let n := c.toNat
  if c = '"' then "\\\""
  else if c = '\\' then "\\\\"
  else if n = 8 then "\\b"
  else if n = 12 then "\\f"
  else if c = '\n' then "\\n"
  else if c = '\r' then "\\r"
  else if c = '\t' then "\\t"
  else if n < 0x20 || c = '<' || c = '>' || c = '&' || n = 0x2028 || n = 0x2029 then
    "\\u" ++ String.ofList (Text.hexPadded 4 n)
  else c.toString

def quote (s : String) : String := "\"" ++ String.join (s.toList.map escapeChar) ++ "\""

end GraphLowering.JsonText

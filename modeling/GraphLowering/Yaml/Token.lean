/-! # Tokens of a YAML text

The alphabet between the characters of a document and its tree, with the character classes that the
scanner asks about. -/

namespace GraphLowering.Yaml

/-- A text that is not a YAML document: what was found, and on which line (from one). -/
structure Fault where
  problem : String
  line : Nat
deriving DecidableEq, Repr

inductive Style where
  | plain
  | singleQuoted
  | doubleQuoted
  | literal
  | folded
deriving DecidableEq, Repr

inductive TokenKind where
  | streamStart
  | streamEnd
  | versionDirective (major minor : Nat)
  | tagDirective (handle expansion : String)
  | documentStart
  | documentEnd
  | blockSequenceStart
  | blockMappingStart
  | blockEnd
  | flowSequenceStart
  | flowSequenceEnd
  | flowMappingStart
  | flowMappingEnd
  | blockEntry
  | flowEntry
  | key
  | value
  | alias (name : String)
  | anchor (name : String)
  | tag (handle suffix : String)
  | scalar (text : String) (style : Style)
deriving DecidableEq, Repr

structure Token where
  kind : TokenKind
  line : Nat
deriving DecidableEq, Repr

def isBlank (c : Char) : Bool := c = ' ' || c = '\t'

def isBreak (c : Char) : Bool :=
  c = '\n' || c = '\r' || c.toNat = 0x85 || c.toNat = 0x2028 || c.toNat = 0x2029

def isGap : Option Char → Bool
  | none => true
  | some c => isBlank c || isBreak c

def isLineEnd : Option Char → Bool
  | none => true
  | some c => isBreak c

def isWordChar (c : Char) : Bool := c.isAlphanum || c = '_' || c = '-'

def isUriChar (c : Char) : Bool :=
  isWordChar c || ";/?:@&=+$,.!~*'()[]%".toList.contains c

def isAllowed (c : Char) : Bool :=
  let n := c.toNat
  n = 0x09 || n = 0x0a || n = 0x0d || (0x20 ≤ n && n ≤ 0x7e) || n = 0x85 ||
    (0xa0 ≤ n && n ≤ 0xd7ff) || (0xe000 ≤ n && n ≤ 0xfffd) || (0x10000 ≤ n && n ≤ 0x10ffff)

def hexValue? (c : Char) : Option Nat :=
  let n := c.toNat
  if 48 ≤ n && n ≤ 57 then some (n - 48)
  else if 65 ≤ n && n ≤ 70 then some (n - 55)
  else if 97 ≤ n && n ≤ 102 then some (n - 87)
  else none

/-- A place in the text: what is left, and how far the scanner has come. -/
structure Cursor where
  rest : List Char
  index : Nat
  line : Nat
  column : Nat

namespace Cursor

def peek (c : Cursor) : Option Char := c.rest.head?

def peekAt (c : Cursor) (k : Nat) : Option Char := c.rest[k]?

def skip (c : Cursor) : Cursor :=
  match c.rest with
  | [] => c
  | _ :: r => { c with rest := r, index := c.index + 1, column := c.column + 1 }

/-- Over `k` characters of the same line. -/
def skipMany (c : Cursor) : Nat → Cursor
  | 0 => c
  | k + 1 => c.skip.skipMany k

/-- Over one line break; a carriage return and a line feed are one break. -/
def skipBreak (c : Cursor) : Cursor :=
  match c.rest with
  | '\r' :: '\n' :: r => { rest := r, index := c.index + 2, line := c.line + 1, column := 0 }
  | _ :: r => { rest := r, index := c.index + 1, line := c.line + 1, column := 0 }
  | [] => c

def breakText (c : Cursor) : List Char :=
  match c.rest with
  | [] => []
  | b :: _ => if b.toNat = 0x2028 || b.toNat = 0x2029 then [b] else ['\n']

/-- Over the leading characters that satisfy `p`. -/
def skipWhile (c : Cursor) (p : Char → Bool) : Cursor :=
  c.skipMany (c.rest.takeWhile p).length

def atBlank (c : Cursor) : Bool := c.peek.any isBlank

def atBreak (c : Cursor) : Bool := c.peek.any isBreak

/-- Whether a document marker (three equal characters at the start of a line, then a gap) stands
here. -/
def atMarker (c : Cursor) (m : Char) : Bool :=
  c.column = 0 && c.rest.take 3 = [m, m, m] && isGap (c.peekAt 3)

def fault {α : Type} (c : Cursor) (problem : String) : Except Fault α :=
  .error ⟨problem, c.line + 1⟩

end Cursor

end GraphLowering.Yaml

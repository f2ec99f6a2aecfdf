import GraphLowering.Text.Base64
import GraphLowering.Text.Binary64
import GraphLowering.Text.Utf8
import GraphLowering.Yaml.Token

/-! # What a plain scalar means

A scalar without quotes may stand for nothing, a truth value, a number or a date; everything else is
text. The same rules decide which texts must be quoted when they are written. -/

namespace GraphLowering.Yaml

open Text (Binary64)

inductive Meaning where
  | null
  | bool (b : Bool)
  | integer (n : Int)
  | real (x : Binary64)
  | timestamp
  | text (s : String)
  /-- Text that is written in base 64. -/
  | binary (s : String)
deriving Repr

def Meaning.isText : Meaning → Bool
  | text _ => true
  | _ => false

/-! ## Numbers -/

def digitIn? (base : Nat) (c : Char) : Option Nat :=
  (hexValue? c).bind fun d => if d < base then some d else none

/-- A number in a given base; with no digits it is zero. -/
def readDigits? (base : Nat) (cs : List Char) : Option Nat :=
  cs.foldlM (fun n c => (digitIn? base c).map (base * n + ·)) 0

/-- An unsigned number whose base shows in how it starts: `0x`, `0o`, `0b`, or a zero for octal. -/
def readMagnitude? : List Char → Option Nat
  | [] => none
  | ['0'] => some 0
  | '0' :: p :: d :: ds =>
    if p = 'x' || p = 'X' then readDigits? 16 (d :: ds)
    else if p = 'o' || p = 'O' then readDigits? 8 (d :: ds)
    else if p = 'b' || p = 'B' then readDigits? 2 (d :: ds)
    else readDigits? 8 (p :: d :: ds)
  | '0' :: ds => readDigits? 8 ds
  | ds => readDigits? 10 ds

/-- A number with an optional sign, read by `magnitude?`, if it fits in 64 bits. Without a sign the
unsigned range counts too. -/
def readSigned? (magnitude? : List Char → Option Nat) : List Char → Option Int
  | '-' :: ds => (magnitude? ds).bind fun n => if n ≤ Nat.pow 2 63 then some (-(n : Int)) else none
  | '+' :: ds => (magnitude? ds).bind fun n => if n < Nat.pow 2 63 then some (n : Int) else none
  | ds => (magnitude? ds).bind fun n => if n < UInt64.size then some (n : Int) else none

/-- Digits in a base after a prefix that says the base again; there has to be one at least. -/
def readBased? (base : Nat) (ds : List Char) : Option Nat :=
  if ds.isEmpty then none else readDigits? base ds

def readInnerSigned? : List Char → Option Int
  | '0' :: 'b' :: ds => readSigned? (readBased? 2) ds
  | '0' :: 'o' :: ds => readSigned? (readBased? 8) ds
  | _ => none

/-- Digits, a point, digits and an exponent, with at least one digit before the exponent. Gives the
digits as one number and the power of ten. -/
def readUnsignedReal? (cs : List Char) : Option (Nat × Int) :=
  let whole := cs.takeWhile Char.isDigit
  let rest := cs.dropWhile Char.isDigit
  let (frac, rest) := match rest with
    | '.' :: r => (r.takeWhile Char.isDigit, r.dropWhile Char.isDigit)
    | r => ([], r)
  let value := fun (e : Int) =>
    (readDigits? 10 (whole ++ frac)).map fun n => (n, e - frac.length)
  if whole.isEmpty && frac.isEmpty then none
  else match rest with
    | [] => value 0
    | e :: ds =>
      if e = 'e' || e = 'E' then
        let (negative, ds) := match ds with
          | '-' :: r => (true, r)
          | '+' :: r => (false, r)
          | r => (false, r)
        if ds.isEmpty || !ds.all Char.isDigit then none
        else (readDigits? 10 ds).bind fun n => value (if negative then -(n : Int) else n)
      else none

/-- A decimal fraction with an optional sign, rounded; `none` if malformed or too large. -/
def readReal? (cs : List Char) : Option Binary64 :=
  let (negative, cs) := match cs with
    | '-' :: r => (true, r)
    | '+' :: r => (false, r)
    | r => (false, r)
  (readUnsignedReal? cs).bind fun (n, e) => Binary64.ofDecimal? negative n e

/-! ## Dates -/

def readField? (lo hi : Nat) (cs : List Char) : Option (Nat × List Char) :=
  let ds := (cs.take 2).takeWhile Char.isDigit
  match readBased? 10 ds with
  | some n => if lo ≤ n && n ≤ hi then some (n, cs.drop ds.length) else none
  | none => none

def daysIn (year month : Nat) : Nat :=
  let leap := year % 4 = 0 && (year % 100 ≠ 0 || year % 400 = 0)
  match month with
  | 2 => if leap then 29 else 28
  | 4 | 6 | 9 | 11 => 30
  | _ => 31

/-- What follows `c`. -/
def expect? (c : Char) : List Char → Option (List Char)
  | d :: r => if d = c then some r else none
  | [] => none

/-- A zone: `Z`, or a sign, two digits, a colon and two digits. -/
def isZone (cs : List Char) : Bool :=
  match cs with
  | ['Z'] => true
  | [s, a, b, ':', c, d] =>
    (s = '+' || s = '-') && [a, b, c, d].all Char.isDigit &&
      (readDigits? 10 [a, b]).any (· ≤ 24) && (readDigits? 10 [c, d]).any (· < 60)
  | _ => false

/-- A time of day, with an optional fraction of a second; what follows must satisfy `tail`. -/
def isTime (tail : List Char → Bool) (cs : List Char) : Bool :=
  ((do
    let (_, r) ← readField? 0 23 cs
    let r ← expect? ':' r
    let (_, r) ← readField? 0 59 r
    let r ← expect? ':' r
    let (_, r) ← readField? 0 59 r
    let r := match r with
      | p :: d :: ds => if (p = '.' || p = ',') && d.isDigit then ds.dropWhile Char.isDigit else r
      | _ => r
    return tail r) : Option Bool).getD false

def isTimestamp (cs : List Char) : Bool :=
  ((do
    let year ← readBased? 10 (cs.takeWhile Char.isDigit)
    if (cs.takeWhile Char.isDigit).length ≠ 4 then none
    let r ← expect? '-' (cs.drop 4)
    let (month, r) ← readField? 1 12 r
    let r ← expect? '-' r
    let (_, r) ← readField? 1 (daysIn year month) r
    match r with
    | [] => return true
    | t :: r =>
      if t = 'T' || t = 't' then return isTime isZone r
      else if t = ' ' then return isTime List.isEmpty r
      else return false) : Option Bool).getD false

/-! ## Words -/

def wordMeaning? : String → Option Meaning
  | "true" | "True" | "TRUE" => some (.bool true)
  | "false" | "False" | "FALSE" => some (.bool false)
  | "" | "~" | "null" | "Null" | "NULL" => some .null
  | ".nan" | ".NaN" | ".NAN" => some (.real .nan)
  | ".inf" | ".Inf" | ".INF" | "+.inf" | "+.Inf" | "+.INF" => some (.real (.infinite false))
  | "-.inf" | "-.Inf" | "-.INF" => some (.real (.infinite true))
  | _ => none

/-- What a text that starts with a digit or a sign means. `dates` says whether dates count. -/
def numberMeaning (dates : Bool) (s : String) : Meaning :=
  let cs := s.toList
  let digits := cs.filter (· ≠ '_')
  if dates && isTimestamp cs then .timestamp
  else match readSigned? readMagnitude? digits with
    | some n => .integer n
    | none =>
      match readReal? digits with
      | some x => .real x
      | none =>
        match readInnerSigned? digits with
        | some n => .integer n
        | none => .text s

def meaning (dates : Bool) (s : String) : Meaning :=
  match wordMeaning? s with
  | some m => m
  | none =>
    match s.toList with
    | [] => .null
    | c :: _ =>
      if c.isDigit || c = '+' || c = '-' then numberMeaning dates s
      else if c = '.' then
        match readReal? s.toList with
        | some x => .real x
        | none => .text s
      else .text s

/-! ## Tags -/

def shortTag (tag : String) : String :=
  let long := "tag:yaml.org,2002:"
  if tag.startsWith long then "!!" ++ (tag.drop long.length).toString else tag

/-- What a scalar with a tag (short form, not empty) means; `none` if the text cannot have that
tag. Tags of other vocabularies leave the text as it is. -/
def taggedMeaning? (tag : String) (s : String) : Option Meaning :=
  let m := meaning (tag = "!!timestamp") s
  match tag with
  | "!!str" => some (.text s)
  | "!!null" => match m with
    | .null => some m
    | _ => none
  | "!!bool" => match m with
    | .bool _ => some m
    | _ => none
  | "!!int" => match m with
    | .integer _ => some m
    | _ => none
  | "!!float" => match m with
    | .real _ => some m
    | .integer n =>
      if n < Nat.pow 2 63 then (Binary64.ofDecimal? (n < 0) n.natAbs 0).map .real else none
    | _ => none
  | "!!timestamp" => match m with
    | .timestamp => some m
    | _ => none
  | "!!binary" => (Text.base64? s.toList).map fun bytes => .binary (String.ofList (Text.decode bytes))
  | _ => some (.text s)

/-- What a scalar means: quotes make it text, a tag decides, else its own form does. -/
def scalarMeaning? (tag : String) (style : Style) (s : String) : Option Meaning :=
  if tag.isEmpty || tag = "!" then
    if style = .plain then some (meaning true s) else some (.text s)
  else taggedMeaning? (shortTag tag) s

end GraphLowering.Yaml

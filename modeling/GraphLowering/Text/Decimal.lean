/-! # Decimal integers in text

Reading and writing of decimal integers where a format allows nothing but an optional sign and
digits. -/

namespace GraphLowering.Text

/-- The number written by decimal digits alone; `none` for the empty text and for anything else. -/
def readNat? (cs : List Char) : Option Nat :=
  if cs.isEmpty || !cs.all Char.isDigit then none
  else some (cs.foldl (fun n c => 10 * n + (c.toNat - 48)) 0)

inductive IntFault where
  | malformed
  | outOfRange
deriving DecidableEq, Repr

/-- A signed 64-bit integer: an optional sign, then digits. -/
def readInt64 (cs : List Char) : Except IntFault Int64 :=
  let read (negative : Bool) (ds : List Char) : Except IntFault Int64 :=
    match readNat? ds with
    | none => .error .malformed
    | some n =>
      if negative then
        if n ≤ Nat.pow 2 63 then .ok (Int64.ofInt (-(n : Int))) else .error .outOfRange
      else if n < Nat.pow 2 63 then .ok (Int64.ofNat n) else .error .outOfRange
  match cs with
  | '-' :: ds => read true ds
  | '+' :: ds => read false ds
  | ds => read false ds

def ofInt64 (n : Int64) : String := toString n.toInt

def ofInt64Signed (n : Int64) : String :=
  if n < 0 then ofInt64 n else "+" ++ ofInt64 n

def join (sep : String) (parts : List String) : String := sep.intercalate parts

/-- `s` with blanks before it up to `width` characters. -/
def padLeft (width : Nat) (s : String) : String :=
  String.ofList (List.replicate (width - s.length) ' ') ++ s

end GraphLowering.Text

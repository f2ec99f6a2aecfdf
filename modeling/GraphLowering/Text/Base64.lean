/-! # Base 64

Bytes written as letters, four for three bytes; equals signs fill up the last four. Line breaks do
not count. -/

namespace GraphLowering.Text

def base64Digit? (c : Char) : Option Nat :=
  if c.isUpper then some (c.toNat - 65)
  else if c.isLower then some (c.toNat - 71)
  else if c.isDigit then some (c.toNat + 4)
  else if c = '+' then some 62
  else if c = '/' then some 63
  else none

/-- The bytes of groups of four letters; bits that fill no byte are left out. -/
def base64Groups? : List Char → Option (List UInt8)
  | [] => some []
  | [a, b, '=', '='] => do
    let n := 64 * (← base64Digit? a) + (← base64Digit? b)
    return [UInt8.ofNat (n / 16)]
  | [a, b, c, '='] => do
    let n := 64 * (64 * (← base64Digit? a) + (← base64Digit? b)) + (← base64Digit? c)
    return [UInt8.ofNat (n / 1024), UInt8.ofNat (n / 4)]
  | a :: b :: c :: d :: rest => do
    let high := 64 * (← base64Digit? a) + (← base64Digit? b)
    let n := 64 * (64 * high + (← base64Digit? c)) + (← base64Digit? d)
    return UInt8.ofNat (n / 65536) :: UInt8.ofNat (n / 256) :: UInt8.ofNat n :: (← base64Groups? rest)
  | _ => none

def base64? (cs : List Char) : Option (List UInt8) :=
  base64Groups? (cs.filter fun c => c ≠ '\n' && c ≠ '\r')

example : base64? "eWVz\nIQ==".toList = some [121, 101, 115, 33] := by decide

end GraphLowering.Text

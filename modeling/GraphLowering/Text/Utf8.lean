/-! # Characters from bytes

Bytes are read as UTF-8. A byte that does not belong to a character is read as the replacement
character. -/

namespace GraphLowering.Text

/-- Stands for a byte that is not part of a character. -/
def replacement : Char := Char.ofNat 0xfffd

def isContinuation (b : UInt8) : Bool := 0x80 ≤ b && b ≤ 0xbf

def continuationBits (b : UInt8) : Nat := b.toNat % 64

/-- The bytes that may follow a first byte of three: no overlong forms and no surrogates. -/
def secondOfThree (a b : UInt8) : Bool :=
  if a = 0xe0 then 0xa0 ≤ b && b ≤ 0xbf
  else if a = 0xed then 0x80 ≤ b && b ≤ 0x9f
  else isContinuation b

/-- The bytes that may follow a first byte of four: no overlong forms and nothing beyond the last
character. -/
def secondOfFour (a b : UInt8) : Bool :=
  if a = 0xf0 then 0x90 ≤ b && b ≤ 0xbf
  else if a = 0xf4 then 0x80 ≤ b && b ≤ 0x8f
  else isContinuation b

/-- The character at the start of bytes, and how many bytes follow its first one. -/
def firstChar (a : UInt8) (rest : List UInt8) : Char × Nat :=
  if a < 0x80 then (Char.ofNat a.toNat, 0)
  else if 0xc2 ≤ a && a ≤ 0xdf then
    match rest with
    | b :: _ =>
      if isContinuation b then (Char.ofNat (a.toNat % 32 * 64 + continuationBits b), 1)
      else (replacement, 0)
    | [] => (replacement, 0)
  else if 0xe0 ≤ a && a ≤ 0xef then
    match rest with
    | b :: c :: _ =>
      if secondOfThree a b && isContinuation c then
        (Char.ofNat (a.toNat % 16 * 4096 + continuationBits b * 64 + continuationBits c), 2)
      else (replacement, 0)
    | _ => (replacement, 0)
  else if 0xf0 ≤ a && a ≤ 0xf4 then
    match rest with
    | b :: c :: d :: _ =>
      if secondOfFour a b && isContinuation c && isContinuation d then
        (Char.ofNat (a.toNat % 8 * 262144 + continuationBits b * 4096 + continuationBits c * 64 +
          continuationBits d), 3)
      else (replacement, 0)
    | _ => (replacement, 0)
  else (replacement, 0)

def decode (bytes : List UInt8) : List Char :=
  match bytes with
  | [] => []
  | a :: rest =>
    let (c, used) := firstChar a rest
    c :: decode (rest.drop used)
termination_by bytes.length
decreasing_by simp only [List.length_drop, List.length_cons]; omega

end GraphLowering.Text

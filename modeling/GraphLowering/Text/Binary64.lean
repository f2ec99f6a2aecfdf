/-! # Decimal fractions as double-precision numbers

Some formats let an integer be written as a decimal fraction, which counts as the nearest
double-precision number. Rounding goes through exact arithmetic: the fraction is a quotient of natural
numbers, and of the two neighbouring multiples of the last place the nearer one is taken, on a tie the
even one. -/

namespace GraphLowering.Text

/-- A double-precision number: a sign and a mantissa times a power of two, or one of the special
values. -/
inductive Binary64 where
  | finite (negative : Bool) (mantissa : Nat) (exponent : Int)
  | infinite (negative : Bool)
  | nan
deriving DecidableEq, Repr

def roundHalfEven (num den : Nat) : Nat :=
  let q := num / den
  let r := num % den
  if 2 * r > den || (2 * r = den && q % 2 = 1) then q + 1 else q

/-- `n * 2 ^ e` as a numerator and a denominator. -/
def scaleBy (e : Int) (n : Nat) : Nat × Nat :=
  if e < 0 then (n, Nat.pow 2 (-e).toNat) else (n * Nat.pow 2 e.toNat, 1)

/-- The number nearest to `digits * 10 ^ exponent`; `none` if it is too large. -/
def Binary64.ofDecimal? (negative : Bool) (digits : Nat) (exponent : Int) : Option Binary64 :=
  let size := (Nat.toDigits 10 digits).length
  if digits = 0 || (size : Int) + exponent < -330 then some (.finite negative 0 0)
  else if (size : Int) + exponent > 310 then none
  else
    let num := digits * Nat.pow 10 exponent.toNat
    let den := Nat.pow 10 (-exponent).toNat
    let guess : Int := (num.log2 : Int) - den.log2 - 52
    -- `guess` may be one too large: then the mantissa would have 52 bits only
    let fits (e : Int) : Bool :=
      let (a, b) := scaleBy (-e) num
      Nat.pow 2 52 * (b * den) ≤ a
    let e := max (if fits guess then guess else guess - 1) (-1074)
    let (a, b) := scaleBy (-e) num
    let m := roundHalfEven a (b * den)
    let (m, e) := if m = Nat.pow 2 53 then (Nat.pow 2 52, e + 1) else (m, e)
    if e > 971 then none else some (.finite negative m e)

def truncate (mantissa : Nat) (exponent : Int) : Nat :=
  if exponent < 0 then mantissa / Nat.pow 2 (-exponent).toNat else mantissa * Nat.pow 2 exponent.toNat

/-- The signed 64-bit integer that a number counts as: its integer part, or the least integer for
numbers below the range. Numbers above `2 ^ 63` and the undefined number count as none. -/
def Binary64.toInt64? : Binary64 → Option Int64
  | .nan => none
  | .infinite true => some Int64.minValue
  | .infinite false => none
  | .finite negative m e =>
    let t := truncate m e
    if negative then
      if t ≤ Nat.pow 2 63 then some (Int64.ofInt (-(t : Int))) else some Int64.minValue
    else if t < Nat.pow 2 63 then some (Int64.ofNat t)
    else
      let (a, b) := scaleBy e m
      if a = Nat.pow 2 63 * b then some Int64.minValue else none

def Binary64.toUInt32? : Binary64 → Option UInt32
  | .finite negative m e =>
    let t := truncate m e
    if t < UInt32.size && (!negative || t = 0) then some (UInt32.ofNat t) else none
  | _ => none

end GraphLowering.Text

import GraphLowering.Text.Decimal

/-! # Durations as text

A duration is a number of nanoseconds. Below a second it is written in the largest unit that leaves
a whole part, else in hours, minutes and seconds; fractions have no trailing zeros. -/

namespace GraphLowering.Timing

/-- The `places` decimals of `n` behind a point, without trailing zeros. -/
def fraction (n places : Nat) : String :=
  let digits := (toString n).toList
  let padded := List.replicate (places - digits.length) '0' ++ digits
  let kept := (padded.reverse.dropWhile (· = '0')).reverse
  if n = 0 then "" else "." ++ String.ofList kept

/-- `n` in units of which `10 ^ places` make one. -/
def decimal (n places : Nat) : String :=
  toString (n / Nat.pow 10 places) ++ fraction (n % Nat.pow 10 places) places

def magnitudeText (n : Nat) : String :=
  if n = 0 then "0s"
  else if n < 1000 then toString n ++ "ns"
  else if n < 1000000 then decimal n 3 ++ "µs"
  else if n < 1000000000 then decimal n 6 ++ "ms"
  else
    let seconds := n / 1000000000
    let rest := toString (seconds % 60) ++ fraction (n % 1000000000) 9 ++ "s"
    if seconds < 60 then rest
    else
      let minutes := seconds / 60
      let rest := toString (minutes % 60) ++ "m" ++ rest
      if minutes < 60 then rest else toString (minutes / 60) ++ "h" ++ rest

def durationText (d : Int64) : String :=
  (if d < 0 then "-" else "") ++ magnitudeText d.toInt.natAbs

end GraphLowering.Timing

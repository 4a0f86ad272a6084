/-! Rounding to binary floating point with 53 significant bits, and to a fixed number of decimals. A
non-negative rational is a pair of a numerator and a positive denominator; both roundings go to the
nearest value and from the middle to the even one. -/

namespace PointsTo

/-- A non-negative rational number. -/
structure Ratio where
  num : Nat
  den : Nat

namespace Ratio

/-- The nearest natural number, the even one of two. -/
def roundHalfEven (r : Ratio) : Nat :=
  let quotient := r.num / r.den
  let twice := 2 * (r.num % r.den)
  if twice < r.den then quotient
  else if r.den < twice then quotient + 1
  else quotient + quotient % 2

/-- The number of binary digits. -/
def bitLength (n : Nat) : Nat := if n = 0 then 0 else Nat.log2 n + 1

/-- The nearest number with 53 significant bits, no bounds set to its size. -/
def toBinary64 (r : Ratio) : Ratio :=
  if r.num = 0 then ⟨0, 1⟩
  else
    let up := bitLength r.den + 53 - bitLength r.num
    let down := bitLength r.num - (bitLength r.den + 53)
    let scaled : Ratio := ⟨r.num <<< up, r.den <<< down⟩
    -- The quotient of `scaled` has 53 or 54 bits; in the second case one bit too many is kept.
    let extra := if scaled.num / scaled.den < 1 <<< 53 then 0 else 1
    let mantissa := roundHalfEven ⟨scaled.num, scaled.den <<< extra⟩
    ⟨mantissa <<< (down + extra), 1 <<< up⟩

/-- The middle between the greatest finite number and the power of two above it. What is not below it
is rounded beyond all finite numbers. -/
def overflowBound : Nat := (1 <<< 54 - 1) <<< 970

def mul (r s : Ratio) : Ratio := ⟨r.num * s.num, r.den * s.den⟩

def add (r s : Ratio) : Ratio := ⟨r.num * s.den + s.num * r.den, r.den * s.den⟩

/-- The decimal text with the given number of places after the point. -/
def toFixed (r : Ratio) (places : Nat) : String :=
  let one := Nat.pow 10 places
  let units := roundHalfEven ⟨r.num * one, r.den⟩
  let fraction := toString (units % one)
  let zeros := String.ofList (List.replicate (places - fraction.length) '0')
  toString (units / one) ++ "." ++ zeros ++ fraction

end Ratio

/-- A span of time in seconds with three decimals. Whole seconds and the fraction, counted in
nanoseconds, are put together in binary floating point before the decimals are taken. -/
def secondsText (microseconds : Nat) : String :=
  let whole : Ratio := Ratio.toBinary64 ⟨microseconds / 1000000, 1⟩
  let fraction : Ratio := Ratio.toBinary64 ⟨microseconds % 1000000 * 1000, 1000000000⟩
  (whole.add fraction).toBinary64.toFixed 3

end PointsTo

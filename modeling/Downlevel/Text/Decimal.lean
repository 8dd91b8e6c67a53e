import Downlevel.Text.Escape

/-! Decimal numerals, and whether their nearest floating-point value is zero. -/

namespace Downlevel.Text

/-- A decimal numeral: its digits as one number, scaled by a power of ten. -/
structure Decimal where
  digits : Nat
  exponent : Int
deriving DecidableEq

/-- The value of at least one decimal digit. -/
def digits? (text : List Char) : Option Nat :=
  if text.isEmpty then none else digitsValue? 10 0 text

/-- The exponent of a numeral: nothing, or a letter, a sign and digits. -/
def exponent? : List Char → Option Int
  | [] => some 0
  | mark :: rest =>
    if mark != 'e' && mark != 'E' then none
    else
      match rest with
      | '-' :: digits => (digits? digits).map fun value => -(value : Int)
      | '+' :: digits => (digits? digits).map Int.ofNat
      | digits => (digits? digits).map Int.ofNat

/-- A plain numeral with an optional point and exponent. Other notations and separators have
none. -/
def decimal? (text : String) : Option Decimal := do
  let whole := text.toList.takeWhile isDecimalDigit
  let (fraction, rest) := match text.toList.dropWhile isDecimalDigit with
    | '.' :: rest => (rest.takeWhile isDecimalDigit, rest.dropWhile isDecimalDigit)
    | rest => ([], rest)
  if whole.isEmpty && fraction.isEmpty then none
  let digits ← digitsValue? 10 0 (whole ++ fraction)
  return ⟨digits, (← exponent? rest) - fraction.length⟩

/-- Whether a numeral is so small that its nearest double-precision value is zero. Half of the
smallest positive value, which is two to the power of -1075, still goes to zero. -/
def Decimal.roundsToZero (decimal : Decimal) : Bool :=
  if decimal.digits = 0 then true
  else if 0 ≤ decimal.exponent then false
  else
    let scale := decimal.exponent.natAbs
    -- So many more places than digits are out of reach of the smallest value.
    if (Nat.toDigits 10 decimal.digits).length + 400 < scale then true
    else decimal.digits * Nat.pow 2 1075 ≤ Nat.pow 10 scale

end Downlevel.Text

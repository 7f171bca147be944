import SnapBlocks.Decimal.Shortest

/-! Doubles as decimal text and back. -/

namespace SnapBlocks.Decimal

/-- How a finite double is laid out: between two exponents positionally, always with a fraction;
outside of them in scientific form, without a fraction when there is one digit. -/
structure Style where
  /-- Least exponent of the first digit that is written positionally. -/
  least : Int
  /-- Greatest exponent of the first digit that is written positionally. -/
  greatest : Int
  /-- Whether a positive exponent carries its sign. -/
  plus : Bool

/-- Lay out digits positionally. -/
def Digits.positional (d : Digits) : List Char :=
  let count := d.digits.length
  if d.exponent < 0 then
    '0' :: '.' :: (List.replicate (-d.exponent - 1).toNat '0' ++ d.digits)
  else
    let whole := d.exponent.toNat + 1
    if count ≤ whole then
      d.digits ++ List.replicate (whole - count) '0' ++ ['.', '0']
    else
      d.digits.take whole ++ '.' :: d.digits.drop whole

/-- Lay out digits in scientific form. -/
def Digits.scientific (d : Digits) (plus : Bool) : List Char :=
  let mantissa := match d.digits with
    | c :: rest@(_ :: _) => c :: '.' :: rest
    | ds => ds
  let sign := if d.exponent < 0 then ['-'] else if plus then ['+'] else []
  mantissa ++ 'e' :: sign ++ Nat.toDigits 10 d.exponent.natAbs

/-- Lay out digits in a style. -/
def Style.layOut (style : Style) (d : Digits) : List Char :=
  if style.least ≤ d.exponent ∧ d.exponent ≤ style.greatest then d.positional
  else d.scientific style.plus

/-- The text of a finite double: a sign, also before zero, and the fewest digits. -/
def Style.chars (style : Style) (x : Float) : List Char :=
  let bits := x.toBits.toNat
  let b := Binary.ofBits bits
  let body := if b.significand = 0 then ['0', '.', '0'] else style.layOut b.shortest
  if Nat.pow 2 63 ≤ bits then '-' :: body else body

/-- The double nearest to `mantissa * 10 ^ exponent` with a sign; infinite when that is beyond
the range. The two guards only spare work on exponents far outside the range. -/
def nearest (negative : Bool) (mantissa : Nat) (exponent : Int) : Float :=
  let size := (Nat.toDigits 10 mantissa).length + exponent
  let x : Float :=
    if mantissa = 0 ∨ size < -400 then 0
    else if 400 < size then 1 / 0
    else Float.ofScientific mantissa (exponent < 0) exponent.natAbs
  if negative then -x else x

/-- The value of a list of decimal digits. -/
def natOfDigits (ds : List Char) : Nat :=
  ds.foldl (fun n c => 10 * n + (c.toNat - '0'.toNat)) 0

end SnapBlocks.Decimal

import SnapBlocks.Decimal.Float
import SnapBlocks.Text.Blank

/-! Conditions compare two texts. Two numbers are compared as numbers, two truth values as truth
values, and all else as trimmed text, by code point. A missing operand is the empty text, and an
operator that is none makes the condition false. -/

namespace SnapBlocks

/-- The operators of conditions. -/
inductive Operator where
  | equals
  | different
  | lessThan
  | greaterThan
  | lessThanOrEqual
  | greaterThanOrEqual
  deriving DecidableEq, Repr, Inhabited

namespace Operator

/-- The operator that a text names, blanks around it aside. -/
def parse? (text : String) : Option Operator :=
  let t := Text.trim text
  if t = "==" then some equals
  else if t = "!=" then some different
  else if t = "<" then some lessThan
  else if t = ">" then some greaterThan
  else if t = "<=" ∨ t = "=<" then some lessThanOrEqual
  else if t = ">=" then some greaterThanOrEqual
  else none

/-- Whether an operator holds of two operands, given how they compare. Operands that do not
compare are only different. -/
def holds (op : Operator) : Option Ordering → Bool
  | none => op = different
  | some o =>
    match op with
    | equals => o = .eq
    | different => o ≠ .eq
    | lessThan => o = .lt
    | greaterThan => o = .gt
    | lessThanOrEqual => o ≠ .gt
    | greaterThanOrEqual => o ≠ .lt

end Operator

namespace Condition

/-- An ASCII digit. -/
def isDigit (c : Char) : Bool := '0' ≤ c && c ≤ '9'

/-- A sign in front, if there is one: whether it is a minus, and the rest. -/
def splitSign : List Char → Bool × List Char
  | '-' :: rest => (true, rest)
  | '+' :: rest => (false, rest)
  | cs => (false, cs)

/-- The exponent of a decimal: nothing, or a mark and an integer. -/
def exponent? : List Char → Option Int
  | [] => some 0
  | c :: rest =>
    if c = 'e' ∨ c = 'E' then
      let (negative, digits) := splitSign rest
      if digits.isEmpty ∨ ¬ digits.all isDigit then none
      else
        let n := Decimal.natOfDigits digits
        some (if negative then Int.negOfNat n else n)
    else none

/-- A decimal with a point and at least one digit beside it. Beyond the range of doubles it is
infinite. -/
def decimal? (cs : List Char) : Option Float :=
  let (negative, body) := splitSign cs
  let whole := body.takeWhile isDigit
  match body.dropWhile isDigit with
  | '.' :: rest =>
    let fraction := rest.takeWhile isDigit
    if whole.isEmpty ∧ fraction.isEmpty then none
    else
      (exponent? (rest.dropWhile isDigit)).map fun e =>
        Decimal.nearest negative (Decimal.natOfDigits (whole ++ fraction)) (e - fraction.length)
  | _ => none

/-- A signed integer of 64 bits. -/
def integer? (cs : List Char) : Option Int :=
  let (negative, digits) := splitSign cs
  if digits.isEmpty ∨ ¬ digits.all isDigit then none
  else
    let n := Decimal.natOfDigits digits
    if negative then if n ≤ Nat.pow 2 63 then some (Int.negOfNat n) else none
    else if n < Nat.pow 2 63 then some n else none

/-- The number that a text names, blanks around it aside: a decimal when it has a point, and else
an integer, which stands for the nearest double. -/
def number? (text : String) : Option Float :=
  let cs := Text.trimChars text.toList
  if cs.contains '.' then decimal? cs else (integer? cs).map Float.ofInt

/-- The truth value that a text names, blanks around it and case aside. No character but the
ASCII capitals has one of these letters as its small form. -/
def truth? (text : String) : Option Bool :=
  let cs := (Text.trimChars text.toList).map Char.toLower
  if cs = ['!', '!', 't', 'r', 'u', 'e'] then some true
  else if cs = ['!', '!', 'f', 'a', 'l', 's', 'e'] then some false
  else none

/-- How two doubles compare. -/
def compareFloats (x y : Float) : Option Ordering :=
  if x < y then some .lt
  else if x == y then some .eq
  else if y < x then some .gt
  else none

/-- How two operands compare. -/
def compareOperands (a b : String) : Option Ordering :=
  match number? a, number? b with
  | some x, some y => compareFloats x y
  | _, _ =>
    match truth? a, truth? b with
    | some x, some y => some (compare x y)
    | _, _ => some (compare (Text.trim a) (Text.trim b))

/-- Whether `a operator b` holds. -/
def holds (a b operator : Option String) : Bool :=
  match operator.bind Operator.parse? with
  | none => false
  | some op => op.holds (compareOperands (a.getD "") (b.getD ""))

end Condition

end SnapBlocks

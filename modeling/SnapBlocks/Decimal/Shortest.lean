/-! The fewest decimal digits that stand for a double. A positive finite double is
`significand * 2 ^ exponent`; the reals that round to it form an interval around it, its cell.
For one, two, … seventeen digits the two neighbours of the double on that decimal grid are
tried, and the first grid with a neighbour inside the cell gives the digits. If a grid has any
point inside the cell it has one of those two, so no shorter decimal reads back. -/

namespace SnapBlocks.Decimal

/-- A positive double as a significand and a binary exponent. -/
structure Binary where
  significand : Nat
  exponent : Int
  deriving DecidableEq, Repr

/-- The value of a finite double without its sign; zero has significand zero. -/
def Binary.ofBits (bits : Nat) : Binary :=
  let field : Nat := bits / Nat.pow 2 52 % Nat.pow 2 11
  let fraction : Nat := bits % Nat.pow 2 52
  if field = 0 then ⟨fraction, -1074⟩ else ⟨fraction + Nat.pow 2 52, (field : Int) - 1075⟩

/-- The interval of reals that round to one double, over a common denominator. Its ends belong
to it when `closed`. -/
structure Cell where
  low : Nat
  value : Nat
  high : Nat
  unit : Nat
  closed : Bool
  deriving DecidableEq, Repr

/-- The cell of a double. Below a power of two the neighbours are half as far away, except at
the bottom of the range. An end belongs to the cell when the significand is even. -/
def Binary.cell (b : Binary) : Cell :=
  let below := if b.significand = Nat.pow 2 52 ∧ -1074 < b.exponent then 1 else 2
  let shift := b.exponent - 2
  let scale := Nat.pow 2 shift.toNat
  { low := (4 * b.significand - below) * scale
    value := 4 * b.significand * scale
    high := (4 * b.significand + 2) * scale
    unit := Nat.pow 2 (-shift).toNat
    closed := b.significand % 2 = 0 }

/-- Measure a cell in units of a power of ten. -/
def Cell.onGrid (c : Cell) (grid : Int) : Cell :=
  let up := Nat.pow 10 (-grid).toNat
  { low := c.low * up
    value := c.value * up
    high := c.high * up
    unit := c.unit * Nat.pow 10 grid.toNat
    closed := c.closed }

/-- Whether `d` units lie in the cell. -/
def Cell.holds (c : Cell) (d : Nat) : Bool :=
  let point := d * c.unit
  if c.closed then c.low ≤ point && point ≤ c.high else c.low < point && point < c.high

/-- The neighbour of the value among whole units that lies in the cell. Of two the nearer, and
of two equally near the even one. -/
def Cell.pick? (c : Cell) : Option Nat :=
  let d := c.value / c.unit
  match c.holds d, c.holds (d + 1) with
  | true, false => some d
  | false, true => some (d + 1)
  | false, false => none
  | true, true =>
    let under := 2 * (c.value - d * c.unit)
    if under < c.unit || (under = c.unit && d % 2 = 0) then some d else some (d + 1)

/-- The exponent of the first digit: `10 ^ magnitude ≤ value < 10 ^ (magnitude + 1)`. -/
def Cell.magnitude (c : Cell) : Int :=
  if c.unit ≤ c.value then
    ((Nat.toDigits 10 (c.value / c.unit)).length : Int) - 1
  else
    let inverse := (c.unit + c.value - 1) / c.value
    Int.negOfNat (Nat.toDigits 10 (inverse - 1)).length

/-- The digits on the first of `fuel` grids that has a neighbour in the cell, and the exponent of
the last digit. The first grid has `count + 1` digits. -/
def Cell.digitsFrom (c : Cell) (top : Int) : (fuel count : Nat) → Nat × Int
  | 0, count =>
    let grid := top - count
    ((c.onGrid grid).value / (c.onGrid grid).unit, grid)
  | fuel + 1, count =>
    let grid := top - count
    match (c.onGrid grid).pick? with
    | some d => (d, grid)
    | none => c.digitsFrom top fuel (count + 1)

/-- A decimal number `d.ddd * 10 ^ exponent`: digits without trailing zeros, and the exponent
of the first. -/
structure Digits where
  digits : List Char
  exponent : Int
  deriving DecidableEq, Repr

/-- Drop the zeros at the end of a list of digits. -/
def dropZeros (ds : List Char) : List Char :=
  (ds.reverse.dropWhile (· = '0')).reverse

/-- The fewest digits for a positive finite double. Seventeen always suffice. -/
def Binary.shortest (b : Binary) : Digits :=
  let (d, grid) := b.cell.digitsFrom b.cell.magnitude 17 0
  let ds := Nat.toDigits 10 d
  ⟨dropZeros ds, grid + ds.length - 1⟩

end SnapBlocks.Decimal

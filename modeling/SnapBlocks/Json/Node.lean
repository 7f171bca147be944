import SnapBlocks.Json.Basic

/-! What can be read of a text that may not be JSON. A `Node` is the tree of a text as far as it
goes: where reading stopped, the tree holds the reason. A decoder then walks the tree in the
order of the text, so of two faults the one that stands first is reported, whether it lies in the
text or in the shape of a value. -/

namespace SnapBlocks.Json

/-- Why a text gives no value: it ended early, it is not JSON, or its value has the wrong
shape. -/
inductive Problem where
  | cut
  | malformed
  | mismatch
  deriving DecidableEq, Repr

/-- A number as it is written: `mantissa * 10 ^ exponent` with a sign, and whether it is written
without fraction and exponent. -/
structure Numeral where
  negative : Bool
  whole : Bool
  mantissa : Nat
  exponent : Int
  deriving DecidableEq, Repr

/-- The value of a number: an integer when it is written as one and fits 64 bits, with or without
a sign, and else the nearest double. A number beyond the range of doubles has no value, and
minus zero is a double. -/
def Numeral.value? (n : Numeral) : Option Json :=
  if n.whole ∧ ¬ n.negative ∧ n.mantissa < Nat.pow 2 64 then some (.int n.mantissa)
  else if n.whole ∧ n.negative ∧ 0 < n.mantissa ∧ n.mantissa ≤ Nat.pow 2 63 then
    some (.int (Int.negOfNat n.mantissa))
  else
    let x := Decimal.nearest n.negative n.mantissa n.exponent
    if x.isFinite then some (.float x) else none

/-- The key of a member. -/
inductive Key where
  | text (s : String)
  /-- A text with an escape that names half of a surrogate pair. It may only be skipped. -/
  | unpaired
  /-- No text stands where the key should be, and this is wrong. -/
  | absent (p : Problem)
  deriving Inhabited

/-- The tree of a text, as far as it was read. -/
inductive Node where
  | null
  | bool (b : Bool)
  | num (n : Numeral)
  | str (s : String)
  /-- A text with an escape that names half of a surrogate pair. It is no text, but it may be
  skipped; `tail` is what is wrong with it otherwise. -/
  | unpaired (tail : Option Problem)
  /-- An array, and what is wrong behind its last item. -/
  | arr (items : List Node) (tail : Option Problem)
  /-- An object, and what is wrong behind its last member. A member without a key has no value
  either. -/
  | obj (members : List (Key × Node)) (tail : Option Problem)
  /-- The start of `null`, `true` or `false`, and what is wrong with it. -/
  | brokenWord (p : Problem)
  /-- The start of a number, and what is wrong with it. -/
  | brokenNumber (p : Problem)
  /-- Where reading stopped for any other reason. -/
  | broken (p : Problem)
  deriving Inhabited

/-- Reading gives a tree, and the text that is left unless reading stopped. -/
abbrev Reading (α : Type) := α × Option (List Char)

/-- The four characters between tokens. -/
def isSpace (c : Char) : Bool :=
  c = ' ' || c = '\n' || c = '\t' || c = '\r'

/-- Drop the space in front. -/
def skipSpace (cs : List Char) : List Char := cs.dropWhile isSpace

/-- A decimal digit. -/
def isDigit (c : Char) : Bool := '0' ≤ c && c ≤ '9'

/-- What an absent digit means: the text ended, or something else stands there. -/
def missing (rest : List Char) : Problem :=
  if rest.isEmpty then .cut else .malformed

/-- At least one digit, and the text behind the digits. -/
def readDigits (cs : List Char) : Except Problem (List Char × List Char) :=
  match cs.span isDigit with
  | ([], rest) => .error (missing rest)
  | (ds, rest) => .ok (ds, rest)

/-- The integral digits: one zero, or digits that start with another. -/
def readWhole (cs : List Char) : Except Problem (List Char × List Char) :=
  match cs with
  | '0' :: rest =>
    if (rest.head?.map isDigit).getD false then .error .malformed else .ok (['0'], rest)
  | _ => readDigits cs

/-- The digits of a fraction, none when there is no point. -/
def readFraction (cs : List Char) : Except Problem (List Char × List Char) :=
  match cs with
  | '.' :: rest => readDigits rest
  | _ => .ok ([], cs)

/-- An exponent, absent when there is no mark. -/
def readExponent (cs : List Char) : Except Problem (Option Int × List Char) :=
  let unsigned (negative : Bool) (rest : List Char) : Except Problem (Option Int × List Char) :=
    match readDigits rest with
    | .error p => .error p
    | .ok (ds, rest) =>
      let n := Decimal.natOfDigits ds
      .ok (some (if negative then Int.negOfNat n else n), rest)
  match cs with
  | c :: rest =>
    if c = 'e' ∨ c = 'E' then
      match rest with
      | '-' :: rest => unsigned true rest
      | '+' :: rest => unsigned false rest
      | _ => unsigned false rest
    else .ok (none, cs)
  | [] => .ok (none, cs)

/-- A number without its sign. -/
def readUnsigned (negative : Bool) (cs : List Char) : Except Problem (Numeral × List Char) := do
  let (whole, cs) ← readWhole cs
  let (fraction, rest) ← readFraction cs
  let (exponent, after) ← readExponent rest
  let noFraction := fraction.isEmpty
  return ({ negative := negative
            whole := noFraction && exponent.isNone
            mantissa := Decimal.natOfDigits (whole ++ fraction)
            exponent := exponent.getD 0 - fraction.length }, after)

/-- A number. -/
def readNumber : List Char → Except Problem (Numeral × List Char)
  | '-' :: rest => readUnsigned true rest
  | cs => readUnsigned false cs

/-- What stands between quotes: a character, or the sixteen bits of a surrogate escape. -/
inductive Piece where
  | char (c : Char)
  | half (unit : Nat)

/-- The value of a hexadecimal digit. -/
def hexDigit? (c : Char) : Option Nat :=
  if '0' ≤ c ∧ c ≤ '9' then some (c.toNat - '0'.toNat)
  else if 'a' ≤ c ∧ c ≤ 'f' then some (c.toNat - 'a'.toNat + 10)
  else if 'A' ≤ c ∧ c ≤ 'F' then some (c.toNat - 'A'.toNat + 10)
  else none

/-- The piece that four hexadecimal digits name. -/
def hexPiece? (a b c d : Char) : Option Piece := do
  let n := (((← hexDigit? a) * 16 + (← hexDigit? b)) * 16 + (← hexDigit? c)) * 16 + (← hexDigit? d)
  return if 0xD800 ≤ n ∧ n < 0xE000 then .half n else .char (Char.ofNat n)

/-- The character that a backslash and one character stand for. -/
def escaped? (c : Char) : Option Char :=
  if c = '"' ∨ c = '\\' ∨ c = '/' then some c
  else if c = 'b' then some '\x08'
  else if c = 'f' then some '\x0c'
  else if c = 'n' then some '\n'
  else if c = 'r' then some '\r'
  else if c = 't' then some '\t'
  else none

/-- What is wrong with an escape that has no four characters to name a unit: the text ended if
fewer than four bytes are left. -/
def shortEscape (rest : List Char) : Problem :=
  if rest.foldl (fun size c => size + c.utf8Size) 0 < 4 then .cut else .malformed

/-- The pieces up to the closing quote, last first, and the text behind the quote. -/
def readPieces (pieces : List Piece) : List Char → List Piece × Except Problem (List Char)
  | [] => (pieces, .error .cut)
  | c :: rest =>
    if c = '"' then (pieces, .ok rest)
    else if c = '\\' then
      match rest with
      | [] => (pieces, .error .cut)
      | e :: rest =>
        if e = 'u' then
          match rest with
          | h₀ :: h₁ :: h₂ :: h₃ :: rest =>
            match hexPiece? h₀ h₁ h₂ h₃ with
            | some piece => readPieces (piece :: pieces) rest
            | none => (pieces, .error .malformed)
          | short => (pieces, .error (shortEscape short))
        else
          match escaped? e with
          | some c => readPieces (.char c :: pieces) rest
          | none => (pieces, .error .malformed)
    else if c.toNat < 0x20 then (pieces, .error .malformed)
    else readPieces (.char c :: pieces) rest

/-- The characters of pieces. A high half needs a low half right behind it, unless the text was
cut off there (`cutOff`); a low half alone stands for nothing. -/
def joinPieces (cutOff : Bool) : List Piece → Option (List Char)
  | [] => some []
  | .char c :: rest => (joinPieces cutOff rest).map (c :: ·)
  | .half high :: rest =>
    if 0xDC00 ≤ high then none
    else
      match rest with
      | .half low :: rest =>
        if low < 0xDC00 then none
        else
          (joinPieces cutOff rest).map
            (Char.ofNat (0x10000 + (high - 0xD800) * 0x400 + (low - 0xDC00)) :: ·)
      | [] => if cutOff then some [] else none
      | .char _ :: _ => none

/-- A text behind its opening quote: the text if it is one, and what follows. -/
def readText (cs : List Char) : Option String × Except Problem (List Char) :=
  let (pieces, after) := readPieces [] cs
  ((joinPieces after.toBool.not pieces.reverse).map String.ofList, after)

/-- Read an exact word, the rest of `null`, `true` or `false`. -/
def readWord (node : Node) : (word cs : List Char) → Reading Node
  | [], cs => (node, some cs)
  | _ :: _, [] => (.brokenWord .cut, none)
  | w :: word, c :: cs =>
    if c = w then readWord node word cs else (.brokenWord .malformed, none)

/-- A text as a value. -/
def readTextNode (cs : List Char) : Reading Node :=
  match readText cs with
  | (some s, .ok rest) => (.str s, some rest)
  | (none, .ok rest) => (.unpaired none, some rest)
  | (some _, .error p) => (.broken p, none)
  | (none, .error p) => (.unpaired (some p), none)

/-- A number as a value. -/
def readNumberNode (cs : List Char) : Reading Node :=
  match readNumber cs with
  | .ok (n, rest) => (.num n, some rest)
  | .error p => (.brokenNumber p, none)

mutual
/-- Read one value. Each call below takes a character, except for the value that is the first
item behind a bracket, so `fuel` beyond twice the length of the text is enough. -/
def readValue : (fuel : Nat) → List Char → Reading Node
  | 0, _ => (.broken .cut, none)
  | fuel + 1, cs =>
    match skipSpace cs with
    | [] => (.broken .cut, none)
    | c :: rest =>
      if c = 'n' then readWord .null ['u', 'l', 'l'] rest
      else if c = 't' then readWord (.bool true) ['r', 'u', 'e'] rest
      else if c = 'f' then readWord (.bool false) ['a', 'l', 's', 'e'] rest
      else if c = '"' then readTextNode rest
      else if c = '-' ∨ isDigit c then readNumberNode (c :: rest)
      else if c = '[' then
        let (items, tail, after) := readItems fuel true rest
        (.arr items tail, after)
      else if c = '\x7b' then
        let (members, tail, after) := readMembers fuel true rest
        (.obj members tail, after)
      else (.broken .malformed, none)

/-- Read items up to the closing bracket; `first` before the first of them. -/
def readItems : (fuel : Nat) → (first : Bool) → List Char →
    List Node × Option Problem × Option (List Char)
  | 0, _, _ => ([], some .cut, none)
  | fuel + 1, first, cs =>
    match skipSpace cs with
    | [] => ([], some .cut, none)
    | c :: rest =>
      if c = ']' then ([], none, some rest)
      else if first ∨ c = ',' then
        let start := if first then c :: rest else skipSpace rest
        if start.head? = some ']' then ([], some .malformed, none)
        else
          match readValue fuel start with
          | (item, none) => ([item], none, none)
          | (item, some rest) =>
            let (items, tail, after) := readItems fuel false rest
            (item :: items, tail, after)
      else ([], some .malformed, none)

/-- Read members up to the closing brace; `first` before the first of them. -/
def readMembers : (fuel : Nat) → (first : Bool) → List Char →
    List (Key × Node) × Option Problem × Option (List Char)
  | 0, _, _ => ([], some .cut, none)
  | fuel + 1, first, cs =>
    match skipSpace cs with
    | [] => ([], some .cut, none)
    | c :: rest =>
      if c = '\x7d' then ([], none, some rest)
      else if first ∨ c = ',' then
        match (if first then c :: rest else skipSpace rest) with
        | [] => ([(.absent .cut, .broken .cut)], none, none)
        | q :: rest =>
          if q = '"' then
            match readText rest with
            | (some _, .error p) => ([(.absent p, .broken p)], none, none)
            | (none, .error p) => ([(.unpaired, .broken p)], none, none)
            | (key, .ok rest) =>
              let key := match key with
                | some s => Key.text s
                | none => .unpaired
              match skipSpace rest with
              | [] => ([(key, .broken .cut)], none, none)
              | colon :: rest =>
                if colon = ':' then
                  match readValue fuel rest with
                  | (value, none) => ([(key, value)], none, none)
                  | (value, some rest) =>
                    let (members, tail, after) := readMembers fuel false rest
                    ((key, value) :: members, tail, after)
                else ([(key, .broken .malformed)], none, none)
          else ([(.absent .malformed, .broken .malformed)], none, none)
      else ([], some .malformed, none)
end

/-- The tree of a text, and what is wrong behind its value: anything but space is. -/
def readNode (cs : List Char) : Node × Option Problem :=
  match readValue (2 * cs.length + 2) cs with
  | (node, none) => (node, none)
  | (node, some rest) => (node, if (skipSpace rest).isEmpty then none else some .malformed)

end SnapBlocks.Json

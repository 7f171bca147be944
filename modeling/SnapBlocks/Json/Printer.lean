import SnapBlocks.Json.Basic

/-! JSON text in two forms: compact, without any blank, and pretty, with one member or item a
line and two spaces for each level. Each function puts the text of a value in front of the text
that follows it, so that no text is copied. -/

namespace SnapBlocks.Json

/-- Floats are positional from `10 ^ -5` up to below `10 ^ 16`, with a fraction; outside of that
they are scientific, with a sign on a positive exponent. -/
def floatStyle : Decimal.Style := ⟨-5, 15, true⟩

/-- A decimal integer. -/
def intChars (n : Int) : List Char :=
  let digits := Nat.toDigits 10 n.natAbs
  if n < 0 then '-' :: digits else digits

/-- A character inside quotes. The quote, the backslash and control characters are escaped. -/
def quotedChar (c : Char) : List Char :=
  if c = '"' then ['\\', '"']
  else if c = '\\' then ['\\', '\\']
  else if c = '\n' then ['\\', 'n']
  else if c = '\r' then ['\\', 'r']
  else if c = '\t' then ['\\', 't']
  else if c = '\x08' then ['\\', 'b']
  else if c = '\x0c' then ['\\', 'f']
  else if c.toNat < 0x20 then
    ['\\', 'u', '0', '0', Nat.digitChar (c.toNat / 16), Nat.digitChar (c.toNat % 16)]
  else [c]

/-- A text in quotes. -/
def quoted (s : String) (behind : List Char) : List Char :=
  '"' :: s.toList.foldr (fun c text => quotedChar c ++ text) ('"' :: behind)

mutual
/-- The compact form. -/
def compact : Json → List Char → List Char
  | .null, behind => 'n' :: 'u' :: 'l' :: 'l' :: behind
  | .bool true, behind => 't' :: 'r' :: 'u' :: 'e' :: behind
  | .bool false, behind => 'f' :: 'a' :: 'l' :: 's' :: 'e' :: behind
  | .int n, behind => intChars n ++ behind
  | .float x, behind => floatStyle.chars x ++ behind
  | .str s, behind => quoted s behind
  | .arr items, behind => '[' :: compactItems items (']' :: behind)
  | .obj members, behind => '\x7b' :: compactMembers members ('\x7d' :: behind)

/-- Items with commas between them. -/
def compactItems : List Json → List Char → List Char
  | [], behind => behind
  | [j], behind => j.compact behind
  | j :: rest, behind => j.compact (',' :: compactItems rest behind)

/-- Members with commas between them. -/
def compactMembers : List (String × Json) → List Char → List Char
  | [], behind => behind
  | [(k, j)], behind => quoted k (':' :: j.compact behind)
  | (k, j) :: rest, behind => quoted k (':' :: j.compact (',' :: compactMembers rest behind))
end

/-- A new line at a level. -/
def lineBreak (level : Nat) (behind : List Char) : List Char :=
  '\n' :: (List.replicate (2 * level) ' ' ++ behind)

mutual
/-- The pretty form at a level. An empty array or object stays on its line. -/
def pretty (level : Nat) : Json → List Char → List Char
  | .arr (j :: rest), behind =>
    '[' :: prettyItems (level + 1) (j :: rest) (lineBreak level (']' :: behind))
  | .obj (m :: rest), behind =>
    '\x7b' :: prettyMembers (level + 1) (m :: rest) (lineBreak level ('\x7d' :: behind))
  | j, behind => j.compact behind

/-- Items, each on a line of its own. -/
def prettyItems (level : Nat) : List Json → List Char → List Char
  | [], behind => behind
  | [j], behind => lineBreak level (j.pretty level behind)
  | j :: rest, behind =>
    lineBreak level (j.pretty level (',' :: prettyItems level rest behind))

/-- Members, each on a line of its own. -/
def prettyMembers (level : Nat) : List (String × Json) → List Char → List Char
  | [], behind => behind
  | [(k, j)], behind => lineBreak level (quoted k (':' :: ' ' :: j.pretty level behind))
  | (k, j) :: rest, behind =>
    lineBreak level
      (quoted k (':' :: ' ' :: j.pretty level (',' :: prettyMembers level rest behind)))
end

/-- The compact text. -/
def toCompact (j : Json) : String := String.ofList (j.compact [])

/-- The pretty text. -/
def toPretty (j : Json) : String := String.ofList (j.pretty 0 [])

end SnapBlocks.Json

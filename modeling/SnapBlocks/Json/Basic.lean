import SnapBlocks.Decimal.Float
import SnapBlocks.Table

/-! JSON values. Integers and floats are apart, as they are written apart, and the members of an
object stand in the order in which they are written. -/

namespace SnapBlocks

/-- A JSON value. -/
inductive Json where
  | null
  | bool (b : Bool)
  | int (n : Int)
  | float (x : Float)
  | str (s : String)
  | arr (items : List Json)
  | obj (members : List (String × Json))
  deriving Inhabited

namespace Json

/-- A float as a value; JSON has no number for an infinite one, so that becomes `null`. -/
def ofFloat (x : Float) : Json :=
  if x.isFinite then .float x else .null

/-- An optional value, `null` when absent. -/
def ofOption (f : α → Json) : Option α → Json
  | none => .null
  | some a => f a

/-- An optional text, `null` when absent. -/
def ofText? : Option String → Json := ofOption .str

/-- An array. -/
def ofList (f : α → Json) (as : List α) : Json := .arr (as.map f)

/-- A map as an object, in key order. -/
def ofTable (f : α → Json) (t : Table α) : Json :=
  .obj (t.toList.map fun p => (p.1, f p.2))

/-- A member that is written only when present. -/
def member? (key : String) (f : α → Json) : Option α → List (String × Json)
  | none => []
  | some a => [(key, f a)]

mutual
/-- The same value with the members of every object in key order; of members with one key the
last stays. -/
def sorted : Json → Json
  | .arr items => .arr (sortedItems items)
  | .obj members => .obj (sortedMembers members).toList
  | j => j

/-- Sort inside each item. -/
def sortedItems : List Json → List Json
  | [] => []
  | j :: rest => j.sorted :: sortedItems rest

/-- Gather members by key; a later one replaces an earlier one, so the first is put in last. -/
def sortedMembers : List (String × Json) → Table Json
  | [] => ∅
  | (k, j) :: rest => (sortedMembers rest).insertIfNew k j.sorted
end

mutual
/-- How many arrays and objects nest. -/
def depth : Json → Nat
  | .arr items => itemsDepth items + 1
  | .obj members => membersDepth members + 1
  | _ => 0

/-- The greatest depth among items. -/
def itemsDepth : List Json → Nat
  | [] => 0
  | j :: rest => max j.depth (itemsDepth rest)

/-- The greatest depth among members. -/
def membersDepth : List (String × Json) → Nat
  | [] => 0
  | (_, j) :: rest => max j.depth (membersDepth rest)
end

end Json

end SnapBlocks

import Std.Data.ExtTreeMap
import Std.Data.ExtTreeSet

/-! Finite maps and sets keyed by text. Both are extensional, so two that answer every look-up
alike are equal, and both list their keys in ascending order. Text is ordered by code point,
which is also the bytewise order of its UTF-8 form. -/

namespace SnapBlocks

/-- A finite map from text. -/
abbrev Table (α : Type) := Std.ExtTreeMap String α

/-- A finite set of texts. -/
abbrev TextSet := Std.ExtTreeSet String

namespace Table

/-- The map of a list of pairs; of two pairs with one key the later wins. -/
def ofPairs (pairs : List (String × α)) : Table α :=
  pairs.foldl (fun t p => t.insert p.1 p.2) ∅

@[simp] theorem ofPairs_nil : ofPairs ([] : List (String × α)) = ∅ := rfl

end Table

/-- Put a pair into a list of pairs in ascending key order, over any pair with that key. -/
def insertSorted (key : String) (value : α) : List (String × α) → List (String × α)
  | [] => [(key, value)]
  | p :: rest =>
    if key < p.1 then (key, value) :: p :: rest
    else if key = p.1 then (key, value) :: rest
    else p :: insertSorted key value rest

/-- Keys ascend strictly, so every key occurs once. -/
def Ascending (pairs : List (String × α)) : Prop :=
  pairs.Pairwise (fun p q => p.1 < q.1)

/-- The pair with a key, in a list of pairs. -/
def valueOf? (pairs : List (String × α)) (key : String) : Option α :=
  (pairs.find? (·.1 = key)).map (·.2)

end SnapBlocks

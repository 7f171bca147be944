import SnapBlocks.Json.Node

/-! From the tree of a text to a value of a type. A decoder is given the number of levels that
may still nest below it: a text that nests deeper than `levels` is malformed where it does so,
while a value that nobody asks for may nest as deep as it likes.

A record is decoded from an object, or from an array that lists its fields in order. In an object
unknown members are skipped, a member that occurs twice is a mismatch, and an absent member takes
the value that its field has for that case. -/

namespace SnapBlocks.Json

/-- How deep a text may nest. -/
def levels : Nat := 127

/-- Decode a tree, with a number of levels to spare. -/
abbrev Decoder (α : Type) := Nat → Node → Except Problem α

mutual
/-- Pass over a value of no interest. Only its grammar counts, and a number that the text cuts short
is no number. -/
def Node.skip : Node → Except Problem Unit
  | .unpaired (some p) => .error p
  | .arr items tail => skipItems tail items
  | .obj members tail => skipMembers tail members
  | .brokenNumber _ => .error .malformed
  | .brokenWord p | .broken p => .error p
  | _ => .ok ()

/-- Pass over items and what stands behind them. -/
def skipItems (tail : Option Problem) : List Node → Except Problem Unit
  | [] => match tail with
    | none => .ok ()
    | some p => .error p
  | node :: rest => do node.skip; skipItems tail rest

/-- Pass over members and what stands behind them. -/
def skipMembers (tail : Option Problem) : List (Key × Node) → Except Problem Unit
  | [] => match tail with
    | none => .ok ()
    | some p => .error p
  | (.absent p, _) :: _ => .error p
  | (_, node) :: rest => do node.skip; skipMembers tail rest
end

/-- What a decoder answers on a value of another kind: scalars are read before they are refused,
arrays and objects are not. -/
def Node.refusal : Node → Problem
  | .broken p | .brokenWord p | .brokenNumber p => p
  | .unpaired _ => .malformed
  | .num n => if n.value?.isSome then .mismatch else .malformed
  | _ => .mismatch

/-- The text of a key. -/
def Key.text? : Key → Except Problem String
  | .text s => .ok s
  | .unpaired => .error .malformed
  | .absent p => .error p

/-- Nothing may be wrong behind the last item or member. -/
def closed (tail : Option Problem) (a : α) : Except Problem α :=
  match tail with
  | none => .ok a
  | some p => .error p

namespace Decoder

/-- A text. -/
def text : Decoder String := fun _ node =>
  match node with
  | .str s => .ok s
  | node => .error node.refusal

/-- A truth value. -/
def flag : Decoder Bool := fun _ node =>
  match node with
  | .bool b => .ok b
  | node => .error node.refusal

/-- A double. An integer stands for the nearest one. -/
def float : Decoder Float := fun _ node =>
  match node with
  | .num n =>
    match n.value? with
    | some (.int i) => .ok (Float.ofInt i)
    | some (.float x) => .ok x
    | _ => .error .malformed
  | node => .error node.refusal

/-- A natural number of 64 bits, written as an integer. -/
def nat : Decoder Nat := fun _ node =>
  match node with
  | .num n =>
    match n.value? with
    | some (.int i) => if 0 ≤ i then .ok i.toNat else .error .mismatch
    | some _ => .error .mismatch
    | none => .error .malformed
  | node => .error node.refusal

/-- A value or `null`. -/
def option (d : Decoder α) : Decoder (Option α) := fun room node =>
  match node with
  | .null => .ok none
  | node => (d room node).map some

/-- Decode each item. -/
def items (d : Decoder α) (room : Nat) : List Node → Except Problem (List α)
  | [] => .ok []
  | node :: rest => do
    let a ← d room node
    let as ← items d room rest
    return a :: as

/-- An array of values. -/
def list (d : Decoder α) : Decoder (List α) := fun room node =>
  match node, room with
  | .arr _ _, 0 => .error .malformed
  | .arr nodes tail, room + 1 => do closed tail (← items d room nodes)
  | node, _ => .error node.refusal

/-- Decode each member. -/
def members (d : Decoder α) (room : Nat) :
    List (Key × Node) → Except Problem (List (String × α))
  | [] => .ok []
  | (key, node) :: rest => do
    let key ← key.text?
    let a ← d room node
    let as ← members d room rest
    return (key, a) :: as

/-- An object with values of one type; of members with one key the last counts. -/
def table (d : Decoder α) : Decoder (Table α) := fun room node =>
  match node, room with
  | .obj _ _, 0 => .error .malformed
  | .obj nodes tail, room + 1 => do closed tail (Table.ofPairs (← members d room nodes))
  | node, _ => .error node.refusal

/-- One of some names, written as a text, or as an object with that one member, which is
`null`. A scalar of another kind is not read. -/
def oneOf (names : List (String × α)) : Decoder α := fun room node =>
  let named (key : String) : Except Problem α :=
    match valueOf? names key with
    | some a => .ok a
    | none => .error .mismatch
  match node, room with
  | .str s, _ => named s
  | .obj _ _, 0 => .error .malformed
  | .obj nodes tail, _ + 1 =>
    match nodes with
    | [] => .error (tail.getD .malformed)
    | (key, node) :: rest => do
      let a ← named (← key.text?)
      match node with
      | .null => if rest.isEmpty then closed tail a else .error .malformed
      | node => .error node.refusal
  | .broken p, _ => .error p
  | _, _ => .error .malformed

mutual
/-- Any value. -/
def value (room : Nat) : Node → Except Problem Json
  | .null => .ok .null
  | .bool b => .ok (.bool b)
  | .num n => match n.value? with
    | some j => .ok j
    | none => .error .malformed
  | .str s => .ok (.str s)
  | .arr nodes tail =>
    match room with
    | 0 => .error .malformed
    | room + 1 => do closed tail (.arr (← values room nodes))
  | .obj nodes tail =>
    match room with
    | 0 => .error .malformed
    | room + 1 => do
      let pairs ← valueMembers room nodes
      closed tail (.obj (Table.ofPairs pairs).toList)
  | .unpaired _ => .error .malformed
  | .brokenWord p | .brokenNumber p | .broken p => .error p

/-- Any values. -/
def values (room : Nat) : List Node → Except Problem (List Json)
  | [] => .ok []
  | node :: rest => do
    let j ← value room node
    let js ← values room rest
    return j :: js

/-- Members with any values. -/
def valueMembers (room : Nat) :
    List (Key × Node) → Except Problem (List (String × Json))
  | [] => .ok []
  | (key, node) :: rest => do
    let key ← key.text?
    let j ← value room node
    let js ← valueMembers room rest
    return (key, j) :: js
end

end Decoder

/-- How the fields of a record are decoded; `σ` holds the fields that have been met. -/
structure Fields (σ α : Type) where
  /-- No field has been met. -/
  start : σ
  /-- Take a member in; `none` when no field has its key. -/
  take (room : Nat) (key : String) (node : Node) (met : σ) : Option (Except Problem σ)
  /-- The record, once all members have been taken in. -/
  finish (met : σ) : Except Problem α
  /-- Take the fields from a list of items instead; gives back the items left over. -/
  inOrder (room : Nat) (nodes : List Node) (tail : Option Problem) :
    Except Problem (α × List Node)

namespace Fields

/-- One field. When its member is absent it has the value `absent`, and when the list of items
ends before it the value `absentItem`. -/
def field (key : String) (d : Decoder α) (absent absentItem : Option α) :
    Fields (Option α) α where
  start := none
  take room key' node met :=
    if key' = key then
      some (if met.isSome then .error .mismatch else (d room node).map some)
    else none
  finish met :=
    match met, absent with
    | some a, _ => .ok a
    | none, some a => .ok a
    | none, none => .error .mismatch
  inOrder room nodes tail :=
    match nodes with
    | node :: rest => do return (← d room node, rest)
    | [] =>
      match tail, absentItem with
      | some p, _ => .error p
      | none, some a => .ok (a, [])
      | none, none => .error .mismatch

/-- A field that has to be there. -/
def required (key : String) (d : Decoder α) : Fields (Option α) α := field key d none none

/-- A field that is absent or `null` when it has no value. -/
def optional (key : String) (d : Decoder α) : Fields (Option (Option α)) (Option α) :=
  field key d.option (some none) none

/-- An optional field that may also be missing from a list of items. -/
def omittable (key : String) (d : Decoder α) : Fields (Option (Option α)) (Option α) :=
  field key d.option (some none) (some none)

/-- A field with a value for the case that it is absent. -/
def defaulted (key : String) (d : Decoder α) (a : α) : Fields (Option α) α :=
  field key d (some a) (some a)

/-- The fields of two records side by side. -/
def and (f : Fields σ α) (g : Fields τ β) : Fields (σ × τ) (α × β) where
  start := (f.start, g.start)
  take room key node met :=
    match f.take room key node met.1 with
    | some r => some (r.map fun s => (s, met.2))
    | none => (g.take room key node met.2).map fun r => r.map fun t => (met.1, t)
  finish met := do return (← f.finish met.1, ← g.finish met.2)
  inOrder room nodes tail := do
    let (a, nodes) ← f.inOrder room nodes tail
    let (b, nodes) ← g.inOrder room nodes tail
    return ((a, b), nodes)

/-- Build a record from its fields. -/
def map (f : Fields σ α) (build : α → β) : Fields σ β where
  start := f.start
  take := f.take
  finish met := (f.finish met).map build
  inOrder room nodes tail := (f.inOrder room nodes tail).map fun r => (build r.1, r.2)

/-- Take members in, in the order of the text; gives the fields met before the first problem,
and that problem. -/
def scan (f : Fields σ α) (room : Nat) (tail : Option Problem) :
    σ → List (Key × Node) → σ × Option Problem
  | met, [] => (met, tail)
  | met, (key, node) :: rest =>
    match key.text? with
    | .error p => (met, some p)
    | .ok key =>
      match f.take room key node met with
      | some (.ok met) => f.scan room tail met rest
      | some (.error p) => (met, some p)
      | none =>
        match node.skip with
        | .ok () => f.scan room tail met rest
        | .error p => (met, some p)

/-- Decode a record. -/
def decoder (f : Fields σ α) : Decoder α := fun room node =>
  match node, room with
  | .obj _ _, 0 => .error .malformed
  | .obj nodes tail, room + 1 =>
    match f.scan room tail f.start nodes with
    | (met, none) => f.finish met
    | (_, some p) => .error p
  | .arr _ _, 0 => .error .malformed
  | .arr nodes tail, room + 1 => do
    let (a, rest) ← f.inOrder room nodes tail
    if rest.isEmpty then closed tail a else .error .malformed
  | node, _ => .error node.refusal

end Fields

/-- Decode a whole text. -/
def decode (d : Decoder α) (text : String) : Except Problem α :=
  let (node, tail) := readNode text.toList
  do closed tail (← d levels node)

end SnapBlocks.Json

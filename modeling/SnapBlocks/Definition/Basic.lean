import SnapBlocks.Table

/-! Block definitions. A block is a stack of segments. A segment may have a divot, by which the
block hangs below another, and a notch, from which another block hangs; it declares the inputs
that its row of the block shows. -/

namespace SnapBlocks

/-- The place of a segment in its block. -/
inductive SegmentKind where
  | header
  | divider
  | footer
  deriving DecidableEq, Repr, Inhabited

/-- What an input names: a variable, or a variable that holds an operator. -/
inductive InputType where
  | operand
  | operator
  deriving DecidableEq, Repr, Inhabited

/-- Whether a block reads or writes the variable that an input names. -/
inductive InputMode where
  | read
  | write
  deriving DecidableEq, Repr, Inhabited

/-- An input that a segment declares. -/
structure InputDeclaration where
  id : String
  /-- The name by which running code finds the input. -/
  internalName : String
  /-- The name on the block. -/
  name : String
  inputType : InputType
  mode : InputMode
  deriving DecidableEq, Repr, Inhabited

/-- A segment of a block definition. -/
structure Segment where
  id : String
  name : String
  kind : SegmentKind
  text : Option String := none
  notch : Bool := false
  divot : Bool := false
  inputs : List InputDeclaration := []
  deriving DecidableEq, Repr, Inhabited

/-- How a block looks and what its continuation means. -/
structure BlockStyle where
  color : String
  /-- The block's continuation is its body, and not the statement after it. -/
  forceScope : Bool := false
  deriving DecidableEq, Repr, Inhabited

/-- The definition of a kind of block. A block keeps the definition it was made from. -/
structure Definition where
  name : String
  /-- Whether a chain that starts with such a block is an entry of the program. -/
  isEntry : Bool := false
  segments : List Segment
  style : BlockStyle
  deriving DecidableEq, Repr, Inhabited

/-- The first segment with an id. -/
def Definition.segment? (d : Definition) (id : String) : Option Segment :=
  d.segments.find? (·.id = id)

/-- The name of the segment with an id; empty when there is none. -/
def Definition.segmentName (d : Definition) (id : String) : String :=
  ((d.segment? id).map (·.name)).getD ""

/-- Definitions by name. -/
abbrev Catalog := Table Definition

/-- Add a definition, in place of one with its name. -/
def Catalog.register (c : Catalog) (d : Definition) : Catalog := c.insert d.name d

/-- A catalog of some definitions. -/
def Catalog.ofList (ds : List Definition) : Catalog := ds.foldl Catalog.register ∅

end SnapBlocks

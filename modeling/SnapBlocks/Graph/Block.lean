import SnapBlocks.Graph.Snap

/-! Blocks on the canvas. A block is made from a definition, and what follows from that is not
stored a second time: its name, its snap points and which of them are primary. -/

namespace SnapBlocks

/-- An input of a block and what it is bound to. -/
structure InputBinding where
  declaration : InputDeclaration
  /-- The variable that the input names. -/
  key : Option String := none
  displayText : Option String := none
  occupied : Bool := false
  constant : Bool := false
  deriving DecidableEq, Repr, Inhabited

/-- The text on an input. -/
def InputBinding.label (i : InputBinding) : String :=
  i.displayText.getD i.declaration.name

/-- A change of an input; absent parts stay as they are. -/
structure InputUpdate where
  displayText : Option String := none
  key : Option String := none
  occupied : Option Bool := none
  constant : Option Bool := none
  deriving DecidableEq, Repr, Inhabited

/-- Change an input. -/
def InputUpdate.apply (u : InputUpdate) (i : InputBinding) : InputBinding :=
  { i with
    displayText := u.displayText <|> i.displayText
    key := u.key <|> i.key
    occupied := u.occupied.getD i.occupied
    constant := u.constant.getD i.constant }

/-- Take the variable and the text off an input. -/
def InputBinding.reset (i : InputBinding) : InputBinding :=
  { i with key := none, displayText := none, occupied := false }

/-- Where a block is. -/
inductive Placement where
  /-- On its own, at a point of the canvas. -/
  | root (position : Point)
  /-- Hanging from a notch, and moving with it. -/
  | attached (notch : SnapId) (offset : Point)
  deriving DecidableEq, Inhabited

/-- A block on the canvas. -/
structure Block where
  id : BlockId
  definition : Definition
  /-- The height of what hangs inside of each segment, by segment id. -/
  extra : Table Float
  /-- The last block of the chain that starts here. -/
  deepest : BlockId
  /-- The inputs of each segment that has any, by segment id. -/
  inputs : Table (List InputBinding)
  height : Float
  placement : Placement

instance : Inhabited Block := ⟨⟨"", default, ∅, "", ∅, 0, default⟩⟩

namespace Block

/-- The name of a block. -/
def name (b : Block) : String := b.definition.name

/-- The snap points of a block, segment by segment. -/
def snapPoints (b : Block) : List SnapId := b.definition.slots.map (·.snapId b.id)

/-- The notch for the next statement. -/
def primaryNotch (b : Block) : Option SnapId :=
  (b.definition.slot? .primaryNotch).map (·.snapId b.id)

/-- The divot by which the block hangs. -/
def primaryDivot (b : Block) : Option SnapId :=
  (b.definition.slot? .primaryDivot).map (·.snapId b.id)

/-- Whether chains may nest in the block, so that its height depends on what hangs in it. -/
def isDynamic (b : Block) : Bool := b.definition.slots.any (·.kind = .secondaryNotch)

/-- Whether the continuation of the block is its body. -/
def isForceScope (b : Block) : Bool := b.definition.style.forceScope

/-- Whether the block hangs from no notch. -/
def isRoot (b : Block) : Bool :=
  match b.placement with
  | .root _ => true
  | .attached _ _ => false

/-- The input with an id, in the segment with an id. -/
def input? (b : Block) (segmentId inputId : String) : Option InputBinding :=
  b.inputs[segmentId]?.bind (·.find? (·.declaration.id = inputId))

/-- A new block, a root. Of segments with one id the last one with inputs gives them. -/
def fresh (id : BlockId) (d : Definition) (position : Point) : Block :=
  { id := id
    definition := d
    extra := Table.ofPairs (d.segments.map fun s => (s.id, 0))
    deepest := id
    inputs := Table.ofPairs <|
      (d.segments.filter (! ·.inputs.isEmpty)).map fun s =>
        (s.id, s.inputs.map fun i => { declaration := i })
    height := 0
    placement := .root position }

end Block

end SnapBlocks

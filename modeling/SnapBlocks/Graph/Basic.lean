import SnapBlocks.Config
import SnapBlocks.Graph.Layout

/-! The graph of an editing session: its blocks and snap points by id, the registries of notches
and divots, and the drag that is under way.

An operation that may fail is an `Edit`. It leaves a graph also when it fails, which may have
changed in part by then. -/

namespace SnapBlocks

/-- A notch and a divot that may snap together, and how far apart they are. -/
structure Candidate where
  notch : SnapId
  divot : SnapId
  distance : Float
  deriving DecidableEq, Inhabited

/-- A drag. Only one block is dragged at a time; it holds the token. -/
structure Drag where
  /-- The block that holds the token. -/
  active : Option BlockId := none
  /-- Where the block would snap if it were let go. -/
  pending : Option Candidate := none
  deriving DecidableEq, Inhabited

/-- The state of an editing session. -/
structure Graph where
  config : GraphConfig
  catalog : Catalog
  layout : Layout
  blocks : Table Block
  snaps : Table SnapPoint
  notches : TextSet
  divots : TextSet
  drag : Drag

/-- A walk that a sound graph always ends in time went on for too long. -/
inductive Overrun where
  | height (start : BlockId) (hops : Nat)
  | deepest (start : BlockId) (hops : Nat)
  | chain (start : BlockId) (hops : Nat)
  | ancestry (start : BlockId)
  | descent (start : BlockId)
  | placement (start : BlockId)
  | revisited (block start : BlockId)
  deriving DecidableEq, Repr, Inhabited

/-- The text of an overrun. -/
def Overrun.message : Overrun → String
  | height start hops =>
    "height propagation from block " ++ start ++ " exceeded " ++ toString hops ++ " hops"
  | deepest start hops =>
    "deepest-child propagation from block " ++ start ++ " exceeded " ++ toString hops ++ " hops"
  | chain start hops =>
    "primary chain from block " ++ start ++ " exceeded " ++ toString hops ++ " blocks (cycle?)"
  | ancestry start => "ancestry of block " ++ start ++ " does not reach a root"
  | descent start => "blocks below " ++ start ++ " do not form a tree"
  | placement start => "placement of block " ++ start ++ " does not reach a root"
  | revisited block start =>
    "block " ++ block ++ " reached twice while generating chain from " ++ start

/-- Why an operation on a graph fails. -/
inductive GraphError where
  | structural (overrun : Overrun)
  | blockNotFound (id : BlockId)
  | snapNotFound (id : SnapId)
  | unknownDefinition (name : String)
  | inputNotFound (block : BlockId) (segment input : String)
  deriving DecidableEq, Repr, Inhabited

/-- The text of an error. -/
def GraphError.message : GraphError → String
  | structural o => "structural error: " ++ o.message
  | blockNotFound id => "block not found: " ++ id
  | snapNotFound id => "snap point not found: " ++ id
  | unknownDefinition name => "unknown block definition: " ++ name
  | inputNotFound block segment input =>
    "input '" ++ input ++ "' not found in segment '" ++ segment ++ "' of block " ++ block

namespace Graph

/-- A graph without blocks. -/
def empty (catalog : Catalog) (config : GraphConfig := {}) (layout : Layout := .stacked) :
    Graph :=
  { config, catalog, layout, blocks := ∅, snaps := ∅, notches := ∅, divots := ∅, drag := {} }

instance : Inhabited Graph := ⟨empty ∅⟩

/-- The number of blocks. -/
def size (g : Graph) : Nat := g.blocks.size

/-- The block with an id. -/
def block (g : Graph) (id : BlockId) : Except GraphError Block :=
  match g.blocks[id]? with
  | some b => .ok b
  | none => .error (.blockNotFound id)

/-- The snap point with an id. -/
def snap (g : Graph) (id : SnapId) : Except GraphError SnapPoint :=
  match g.snaps[id]? with
  | some p => .ok p
  | none => .error (.snapNotFound id)

/-- Whether an id is that of a notch. -/
def isNotch (g : Graph) (id : SnapId) : Bool := g.notches.contains id

/-- Whether an id is that of a divot. -/
def isDivot (g : Graph) (id : SnapId) : Bool := g.divots.contains id

/-- All blocks, by id. -/
def blockList (g : Graph) : List Block := g.blocks.toList.map (·.2)

/-- The blocks that hang from no notch, by id. -/
def roots (g : Graph) : List Block := g.blockList.filter Block.isRoot

/-- The block that holds the drag token. -/
def activeBlock (g : Graph) : Option BlockId := g.drag.active

/-- Change a block. -/
def modifyBlock (g : Graph) (id : BlockId) (f : Block → Block) : Graph :=
  { g with blocks := g.blocks.modify id f }

/-- Change a snap point. -/
def modifySnap (g : Graph) (id : SnapId) (f : SnapPoint → SnapPoint) : Graph :=
  { g with snaps := g.snaps.modify id f }

/-- Set what hangs from a notch. -/
def setNext (g : Graph) (notch : SnapId) (next : Option SnapId) : Graph :=
  g.modifySnap notch fun p => { p with next := next }

/-- Set what a divot hangs from. -/
def setPrevious (g : Graph) (divot : SnapId) (previous : Option SnapId) : Graph :=
  g.modifySnap divot fun p => { p with previous := previous }

/-- Set where a block is. -/
def setPlacement (g : Graph) (id : BlockId) (placement : Placement) : Graph :=
  g.modifyBlock id fun b => { b with placement := placement }

/-- Set the last block of the chain that starts at a block. -/
def setDeepest (g : Graph) (id tail : BlockId) : Graph :=
  g.modifyBlock id fun b => { b with deepest := tail }

/-- Set the height of what hangs in a segment, if the block has such a segment. -/
def setExtra (g : Graph) (id : BlockId) (segmentId : String) (height : Float) : Graph :=
  g.modifyBlock id fun b => { b with extra := b.extra.modify segmentId fun _ => height }

end Graph

/-- An operation on a graph. Also when it fails it leaves a graph. -/
abbrev Edit (α : Type) := ExceptT GraphError (StateM Graph) α

namespace Edit

/-- Run an operation: what it answers, and the graph that it leaves. -/
def run (e : Edit α) (g : Graph) : Except GraphError α × Graph := StateT.run (ExceptT.run e) g

/-- Ask the graph. -/
def ask (f : Graph → Except GraphError α) : Edit α := do ofExcept (f (← get))

/-- Change the graph. -/
def change (f : Graph → Graph) : Edit Unit := modify f

/-- The operation fails unless there is such a block. -/
def needBlock (id : BlockId) : Edit Block := ask (·.block id)

/-- The operation fails unless there is such a snap point. -/
def needSnap (id : SnapId) : Edit SnapPoint := ask (·.snap id)

end Edit

end SnapBlocks

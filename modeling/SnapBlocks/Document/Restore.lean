import SnapBlocks.Document.Basic
import SnapBlocks.Graph.Inputs
import SnapBlocks.Graph.Insert
import SnapBlocks.Graph.Link

/-! Saving a graph, and making it again. Blocks come back from the definitions that were saved
with them. Links are made in the order of their notches; one that names an unknown snap point, or
that something speaks against, is skipped. Recorded offsets are put back at the end. -/

namespace SnapBlocks

namespace Rejection

/-- The name of a reason with its details. -/
def describe : Rejection → String
  | notANotch => "NotANotch"
  | notADivot => "NotADivot"
  | alreadyLinked => "AlreadyLinked"
  | sameBlock => "SameBlock"
  | wouldCycle => "WouldCycle"
  | tooDeep depth limit =>
    "TooDeep \x7b depth: " ++ toString depth ++ ", limit: " ++ toString limit ++ " \x7d"
  | outOfRange _ => "OutOfRange"

end Rejection

/-- What a load skipped. -/
inductive Skipped where
  | input (error : GraphError)
  | unknownSnap (notch divot : SnapId)
  | link (notch divot : SnapId) (reason : Rejection)
  deriving DecidableEq

/-- The text of a notice. -/
def Skipped.text : Skipped → String
  | input e => "[SERDE] Skipping input binding: " ++ e.message
  | unknownSnap notch divot =>
    "[SERDE] Skipping connection " ++ notch ++ " -> " ++ divot ++ ": unknown snap point"
  | link notch divot reason =>
    "[SERDE] Skipping connection " ++ notch ++ " -> " ++ divot ++ ": " ++ reason.describe

namespace Document

/-- Save an input. -/
def saveInput (i : InputBinding) : SavedInput :=
  { id := i.declaration.id
    key := i.key
    displayText := i.displayText
    occupied := i.occupied
    constant := i.constant }

/-- Save the inputs of a block, segment by segment. -/
def saveSegments (b : Block) : List SavedSegment :=
  b.definition.segments.map fun s =>
    { id := s.id, inputs := ((b.inputs[s.id]?).getD []).map saveInput }

/-- The offset of a block that hangs from a notch. -/
def offsetOf : Placement → Option Point
  | .root _ => none
  | .attached _ offset => some offset

/-- Save a block. -/
def saveBlock (g : Graph) (b : Block) : Except GraphError SavedBlock := do
  return {
    id := b.id
    name := b.name
    position := ← g.globalPosition b.id
    offset := offsetOf b.placement
    segments := saveSegments b
    definition := b.definition
    primaryNotchId := b.primaryNotch
    primaryDivotId := b.primaryDivot }

/-- Save the link of a snap point, if it is a notch from which something hangs. -/
def saveLink (g : Graph) (id : SnapId) : Except GraphError (Option SavedLink) := do
  let n ← g.snap id
  match n.kind.isNotch, n.next with
  | true, some divot =>
    let d ← g.snap divot
    return some {
      notchBlockId := n.block
      divotBlockId := d.block
      notchId := n.id
      divotId := d.id
      notchSegmentId := n.segmentId
      divotSegmentId := d.segmentId
      isPrimary := n.kind = .primaryNotch }
  | _, _ => return none

/-- Save the links of some snap points. -/
def saveLinks (g : Graph) (d : Document) : List SnapId → Except GraphError Document
  | [] => return d
  | id :: rest => do
    match ← saveLink g id with
    | none => saveLinks g d rest
    | some link => saveLinks g { d with notches := d.notches.insert link.notchId link } rest

/-- Save some blocks and the links that hang from them. -/
def saveBlocks (g : Graph) (d : Document) : List Block → Except GraphError Document
  | [] => return d
  | b :: rest => do
    let saved ← saveBlock g b
    let d ← saveLinks g { d with blocks := d.blocks.insert b.id saved } b.snapPoints
    saveBlocks g d rest

/-- Save a graph. -/
def ofGraph (g : Graph) : Except GraphError Document := saveBlocks g {} g.blockList

/-- A graph as far as it is loaded, and what was skipped on the way. -/
structure Loading where
  graph : Graph
  skipped : List Skipped := []

/-- Note what was skipped. -/
def Loading.note (l : Loading) (s : Skipped) : Loading := { l with skipped := l.skipped ++ [s] }

/-- A step of a load. Also when it fails, what was skipped by then is known. -/
abbrev Load := ExceptT GraphError (StateM Loading)

/-- Carry out an operation on the graph being loaded. -/
def onGraph (e : Edit α) : Load α := do
  let l ← get
  let (result, graph) := e.run l.graph
  set { l with graph }
  ofExcept result

/-- The change of an input that puts back what was saved. -/
def SavedInput.update (i : SavedInput) : InputUpdate :=
  { displayText := i.displayText
    key := i.key
    occupied := some i.occupied
    constant := some i.constant }

/-- Put back the inputs of a segment; one that the block does not have is skipped. -/
def loadInputs (block : BlockId) (segmentId : String) : List SavedInput → Load Unit
  | [] => return ()
  | i :: rest => do
    let l ← get
    match (Graph.updateInput block segmentId i.id (SavedInput.update i)).run l.graph with
    | (.ok _, graph) => set { l with graph }
    | (.error e, graph) => set ({ l with graph }.note (.input e))
    loadInputs block segmentId rest

/-- Put back the inputs of a block. -/
def loadSegments (block : BlockId) : List SavedSegment → Load Unit
  | [] => return ()
  | s :: rest => do
    loadInputs block s.id s.inputs
    loadSegments block rest

/-- Make the blocks, each a root where it was. -/
def loadBlocks : List (BlockId × SavedBlock) → Load Unit
  | [] => return ()
  | (id, b) :: rest => do
    let _ ← onGraph (Graph.insertDefinition id b.definition b.position)
    loadSegments id b.segments
    loadBlocks rest

/-- Make the links. Heights change while this goes on, so distances do not count. -/
def loadLinks : List (SnapId × SavedLink) → Load Unit
  | [] => return ()
  | (notch, link) :: rest => do
    let g := (← get).graph
    if g.isNotch notch && g.isDivot link.divotId then
      match ← onGraph (Edit.ask (·.linkRejection notch link.divotId)) with
      | some reason => modify (·.note (.link notch link.divotId reason))
      | none =>
        let _ ← onGraph (Graph.attach notch link.divotId)
    else
      modify (·.note (.unknownSnap notch link.divotId))
    loadLinks rest

/-- Put back the offsets of the blocks that hang from a notch. -/
def loadOffsets : List (BlockId × SavedBlock) → Load Unit
  | [] => return ()
  | (id, saved) :: rest => do
    match saved.offset with
    | none => loadOffsets rest
    | some offset =>
      let b ← onGraph (Edit.needBlock id)
      match b.placement with
      | .root _ => loadOffsets rest
      | .attached notch _ =>
        onGraph (Edit.change (·.setPlacement id (.attached notch offset)))
        loadOffsets rest

/-- Make the graph of a document: blocks, links, offsets. -/
def load (d : Document) : Load Unit := do
  loadBlocks d.blocks.toList
  loadLinks d.notches.toList
  loadOffsets d.blocks.toList

/-- The graph of a document, and what was skipped. -/
def toGraph (d : Document) (catalog : Catalog) (config : GraphConfig := {}) :
    Except GraphError Graph × List Skipped :=
  let (result, l) := StateT.run (ExceptT.run d.load) { graph := .empty catalog config }
  (result.map fun _ => l.graph, l.skipped)

end Document

end SnapBlocks

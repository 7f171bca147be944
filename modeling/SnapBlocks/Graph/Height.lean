import SnapBlocks.Graph.Chain

/-! Heights. What hangs inside of a block stretches it, and with it every block around it. -/

namespace SnapBlocks.Graph

/-- Place the snap points of a block, in order; surplus places are not used. -/
def setPositions (g : Graph) : List (SnapId × Point) → Graph
  | [] => g
  | (id, position) :: rest =>
    (g.modifySnap id fun p => { p with position := position }).setPositions rest

/-- Ask the layout for the height of a block and the places of its snap points. -/
def placeBlock (g : Graph) (b : Block) : Graph :=
  let placing := g.layout.place b.definition b.extra
  (g.setPositions (b.snapPoints.zip placing.positions)).modifyBlock b.id fun b =>
    { b with height := placing.height }

/-- Lay out a block anew. -/
def relayout (id : BlockId) : Edit Unit := do
  let b ← Edit.needBlock id
  Edit.change (·.placeBlock b)

/-- The sum of the heights of some blocks, from the left. -/
def sumHeights (g : Graph) (total : Float) : List BlockId → Except GraphError Float
  | [] => return total
  | id :: rest => do g.sumHeights (total + (← g.block id).height) rest

/-- The height of the chain that starts with the block of a divot. -/
def scopeHeight (g : Graph) (divot : SnapId) : Except GraphError Float := do
  g.sumHeights 0 (← g.primaryChain (← g.owner divot))

/-- The height of what hangs from a notch: nothing when the notch is free. -/
def hangingHeight (g : Graph) : Option SnapId → Except GraphError Float
  | none => return 0
  | some divot => g.scopeHeight divot

/-- The notches of a block from which nested chains hang, and what hangs there. -/
def scopes (g : Graph) : List SnapId → Except GraphError (List (String × Option SnapId))
  | [] => return []
  | id :: rest => do
    let p ← g.snap id
    let others ← g.scopes rest
    return if p.kind = .secondaryNotch then (p.segmentId, p.next) :: others else others

/-- Measure what hangs from some notches of a block. -/
def measureScopes (id : BlockId) : List (String × Option SnapId) → Edit Unit
  | [] => return ()
  | (segmentId, next) :: rest => do
    let height ← Edit.ask (·.hangingHeight next)
    Edit.change (·.setExtra id segmentId height)
    measureScopes id rest

/-- Measure what hangs in a block and lay it out anew, if anything may hang in it. -/
def refreshHeight (id : BlockId) : Edit (List BlockId) := do
  let b ← Edit.needBlock id
  if b.isDynamic then
    measureScopes id (← Edit.ask (·.scopes b.snapPoints))
    relayout id
    return [id]
  else
    return []

/-- Refresh the heights of the blocks on a walk up. -/
def refreshHeights (start : BlockId) : (room : Nat) → Option BlockId → Edit (List BlockId)
  | _, none => return []
  | 0, some _ => do
    throw (.structural (.height start (← get).config.maxChainHops))
  | room + 1, some id => do
    let redrawn ← refreshHeight id
    let above ← refreshHeights start room (← Edit.ask (·.predecessor id))
    return redrawn ++ above

/-- Refresh the heights of a block and of every block around it. Answers the blocks that were
laid out anew, innermost first. -/
def adjustHeight (id : BlockId) : Edit (List BlockId) := do
  refreshHeights id (← get).config.maxChainHops (some id)

end SnapBlocks.Graph

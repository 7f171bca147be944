import SnapBlocks.Graph.Basic

/-! Where blocks and snap points are on the canvas. A root has a point of its own; a block that
hangs from a notch lies at an offset from it. -/

namespace SnapBlocks.Graph

/-- Where a block is: the place of the block above, plus the place of the notch in it, plus the
offset. -/
def positionWithin (g : Graph) (start : BlockId) : (room : Nat) → BlockId →
    Except GraphError Point
  | 0, _ => throw (.structural (.placement start))
  | room + 1, id => do
    match (← g.block id).placement with
    | .root position => return position
    | .attached notch offset =>
      let p ← g.snap notch
      return (← g.positionWithin start room p.block) + p.position + offset

/-- Where the origin of a block is. -/
def globalPosition (g : Graph) (id : BlockId) : Except GraphError Point :=
  g.positionWithin id (g.size + 1) id

/-- Where a snap point is. -/
def snapPosition (g : Graph) (id : SnapId) : Except GraphError Point := do
  let p ← g.snap id
  return (← g.globalPosition p.block) + p.position

/-- Move a block. One that hangs from a notch stays linked to it, at another offset. -/
def moveBlock (id : BlockId) (position : Point) : Edit Unit := do
  match (← Edit.needBlock id).placement with
  | .root _ => Edit.change (·.setPlacement id (.root position))
  | .attached notch _ =>
    let anchor ← Edit.ask (·.snapPosition notch)
    Edit.change (·.setPlacement id (.attached notch (position - anchor)))

/-- Make a block a root, where it is. -/
def detachToRoot (id : BlockId) : Edit Unit := do
  let position ← Edit.ask (·.globalPosition id)
  Edit.change (·.setPlacement id (.root position))

end SnapBlocks.Graph

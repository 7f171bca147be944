import SnapBlocks.Graph.Link

/-! Removing blocks. What hangs from a block that goes becomes a root where it is. -/

namespace SnapBlocks.Graph

/-- Break the links of a snap point. Answers the blocks at their other ends. -/
def release (id : SnapId) : Edit (List BlockId) := do
  let p ← Edit.needSnap id
  let above ← match p.previous with
    | none => pure []
    | some notch => do
      let owner ← Edit.ask (·.owner notch)
      unlink notch id
      pure [owner]
  let below ← match p.next with
    | none => pure []
    | some divot => do
      let owner ← Edit.ask (·.owner divot)
      detachToRoot owner
      unlink id divot
      pure [owner]
  return above ++ below

/-- Break the links of some snap points. -/
def releaseAll : List SnapId → Edit (List BlockId)
  | [] => return []
  | id :: rest => do
    let here ← release id
    return here ++ (← releaseAll rest)

/-- Take snap points out of the table and the registries. -/
def dropSnaps (g : Graph) (ids : List SnapId) : Graph :=
  { g with
    snaps := ids.foldl (·.erase ·) g.snaps
    notches := ids.foldl (·.erase ·) g.notches
    divots := ids.foldl (·.erase ·) g.divots }

/-- Take a block out of the table. If it is being dragged, the drag is over. -/
def dropBlock (g : Graph) (id : BlockId) : Graph :=
  { g with
    blocks := g.blocks.erase id
    drag := if g.drag.active = some id then {} else g.drag }

/-- Refresh what depends on the links of some blocks. -/
def refreshAll : List BlockId → Edit Unit
  | [] => return ()
  | id :: rest => do
    let _ ← calculateDeepest id
    let _ ← adjustHeight id
    refreshAll rest

/-- Remove a block and its snap points. -/
def remove (id : BlockId) : Edit Unit := do
  let ids := (← Edit.needBlock id).snapPoints
  let touched ← releaseAll ids
  Edit.change (·.dropSnaps ids)
  Edit.change (·.dropBlock id)
  refreshAll touched

end SnapBlocks.Graph

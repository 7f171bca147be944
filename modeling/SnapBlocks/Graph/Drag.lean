import SnapBlocks.Graph.Link
import SnapBlocks.Graph.Nearest

/-! Dragging. The first move of a block takes the token, and only that block is dragged until it
is let go; then it snaps to the place that its last move found. -/

namespace SnapBlocks

/-- What comes of letting a block go. -/
inductive DragOutcome where
  /-- The block does not hold the token. -/
  | ignored
  | finished (disconnect : Option DisconnectOutcome) (connect : Option ConnectOutcome)
  deriving DecidableEq, Inhabited

namespace Graph

/-- Drag a block to a point. Answers where it would snap. -/
def dragMove (id : BlockId) (position : Point) : Edit (Option Candidate) := do
  if (← get).drag.active.any (· ≠ id) then return none
  else
    Edit.change fun g => { g with drag := { g.drag with active := some id } }
    moveBlock id position
    let candidate ← Edit.ask (·.nearest id)
    Edit.change fun g => { g with drag := { g.drag with pending := candidate } }
    return candidate

/-- Break or mend the link from which a block hangs, if there is one. -/
def releaseAbove (id : BlockId) : Edit (Option DisconnectOutcome) := do
  match (← Edit.needBlock id).primaryDivot with
  | none => return none
  | some divot =>
    if (← Edit.needSnap divot).previous.isSome then return some (← disconnect divot)
    else return none

/-- Let a block go. -/
def dragEnd (id : BlockId) : Edit DragOutcome := do
  if (← get).drag.active ≠ some id then return .ignored
  else
    let pending := (← get).drag.pending
    Edit.change fun g => { g with drag := {} }
    let released ← releaseAbove id
    match pending with
    | none => return .finished released none
    | some c => return .finished released (some (← connect c.notch c.divot))

/-- Where the two ends of the pending snap are. -/
def dragIndicator (g : Graph) : Except GraphError (Option (Point × Point)) :=
  match g.drag.pending with
  | none => return none
  | some c => do return some (← g.snapPosition c.notch, ← g.snapPosition c.divot)

end Graph

end SnapBlocks

import SnapBlocks.Graph.Height
import SnapBlocks.Graph.Position

/-! Linking notches and divots. A link needs a free notch and a free divot of different blocks;
it may neither close a loop nor make a way from a root to a leaf too long. -/

namespace SnapBlocks

/-- Why two snap points are not linked. -/
inductive Rejection where
  | notANotch
  | notADivot
  | alreadyLinked
  | sameBlock
  | wouldCycle
  | tooDeep (depth limit : Nat)
  | outOfRange (delta : Point)
  deriving DecidableEq, Inhabited

/-- A link that was made, and the blocks that were laid out anew. -/
structure Connection where
  notch : SnapId
  divot : SnapId
  relayout : List BlockId
  deriving DecidableEq, Repr, Inhabited

/-- What comes of linking. -/
inductive ConnectOutcome where
  | connected (c : Connection)
  | rejected (r : Rejection)
  deriving DecidableEq, Inhabited

/-- What comes of pulling a block away from where it hangs. -/
inductive DisconnectOutcome where
  /-- It is a root now. -/
  | detached (c : Connection)
  /-- It was not far off, and went back by `correction`. -/
  | realigned (correction : Point)
  | notLinked
  deriving DecidableEq, Inhabited

/-- Add those texts of a list that are not there yet. -/
def appendNew (xs ys : List String) : List String :=
  ys.foldl (fun acc y => if acc.contains y then acc else acc ++ [y]) xs

namespace Graph

/-- The reason against a link, apart from the distance: the kinds, then occupied ends, one block,
a loop, and at last the depth. -/
def linkRejection (g : Graph) (notch divot : SnapId) : Except GraphError (Option Rejection) := do
  let n ← g.snap notch
  let d ← g.snap divot
  if ! n.kind.isNotch then return some .notANotch
  else if ! d.kind.isDivot then return some .notADivot
  else if n.next.isSome || d.previous.isSome then return some .alreadyLinked
  else if n.block = d.block then return some .sameBlock
  else if ← g.wouldCycle n.block d.block then return some .wouldCycle
  else
    let depth := (← g.depthAbove n.block) + (← g.depthBelow d.block)
    if g.config.maxChainHops < depth then
      return some (.tooDeep depth g.config.maxChainHops)
    else return none

/-- Refresh what depends on a link that was made or broken. Answers the blocks that were laid
out anew. -/
def refreshAround (notchBlock divotBlock : BlockId) : Edit (List BlockId) := do
  let _ ← calculateDeepest notchBlock
  let _ ← calculateDeepest divotBlock
  let above ← adjustHeight notchBlock
  let below ← adjustHeight divotBlock
  return appendNew above below

/-- Link a notch and a divot, and hang the block of the divot so that the two coincide. -/
def attach (notch divot : SnapId) : Edit Connection := do
  let d ← Edit.needSnap divot
  let n ← Edit.needSnap notch
  Edit.change (·.setNext notch (some divot))
  Edit.change (·.setPrevious divot (some notch))
  let _ ← Edit.needBlock d.block
  Edit.change (·.setPlacement d.block (.attached notch (-d.position)))
  return { notch, divot, relayout := ← refreshAround n.block d.block }

/-- Break a link. -/
def unlink (notch divot : SnapId) : Edit Unit := do
  let _ ← Edit.needSnap notch
  Edit.change (·.setNext notch none)
  let _ ← Edit.needSnap divot
  Edit.change (·.setPrevious divot none)

/-- Link a notch and a divot if nothing speaks against it and they are close enough. -/
def connect (notch divot : SnapId) : Edit ConnectOutcome := do
  match ← Edit.ask (·.linkRejection notch divot) with
  | some r => return .rejected r
  | none =>
    let notchPosition ← Edit.ask (·.snapPosition notch)
    let divotPosition ← Edit.ask (·.snapPosition divot)
    if divotPosition.within notchPosition (← get).config.snapRadius then
      return .connected (← attach notch divot)
    else
      return .rejected (.outOfRange (divotPosition - notchPosition))

/-- Break the link of a divot if its block was pulled far enough away, and else put the block
back where the link holds it. -/
def disconnect (divot : SnapId) : Edit DisconnectOutcome := do
  let d ← Edit.needSnap divot
  match d.previous with
  | none => return .notLinked
  | some notch =>
    let notchBlock ← Edit.ask (·.owner notch)
    let divotPosition ← Edit.ask (·.snapPosition divot)
    let notchPosition ← Edit.ask (·.snapPosition notch)
    let delta := divotPosition - notchPosition
    if divotPosition.within notchPosition (← get).config.snapRadius then
      let position ← Edit.ask (·.globalPosition d.block)
      moveBlock d.block (position - delta)
      return .realigned (-delta)
    else
      detachToRoot d.block
      unlink notch divot
      return .detached { notch, divot, relayout := ← refreshAround notchBlock d.block }

end Graph

end SnapBlocks

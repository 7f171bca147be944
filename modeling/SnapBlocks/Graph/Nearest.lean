import SnapBlocks.Graph.Chain
import SnapBlocks.Graph.Position

/-! The search for the place where a dragged block would snap: the end of its chain with any free
divot, or its own divot with any free notch. The closest pair wins, and of two equally close the
one with the lower ids. -/

namespace SnapBlocks

/-- Whether one pair comes before another. -/
def Candidate.precedes (a b : Candidate) : Bool :=
  a.distance < b.distance ||
    (a.distance == b.distance && (a.notch < b.notch || (a.notch = b.notch && a.divot < b.divot)))

/-- The better of the best pair so far and another one, which has to be closer than `radius`. -/
def Candidate.better (radius : Float) (best : Option Candidate) (c : Candidate) :
    Option Candidate :=
  if c.distance ≥ radius then best
  else
    match best with
    | none => some c
    | some b => if c.precedes b then some c else some b

namespace Graph

/-- The pairs of a free notch, at `origin`, with each free divot of another block that does not
stand above it. -/
def pairsBelow (g : Graph) (active anchorBlock : BlockId) (anchor : SnapId) (origin : Point) :
    List SnapId → Except GraphError (List Candidate)
  | [] => return []
  | divot :: rest => do
    let d ← g.snap divot
    let skip ← if d.block = active || d.previous.isSome then pure true
      else g.wouldCycle anchorBlock d.block
    if skip then g.pairsBelow active anchorBlock anchor origin rest
    else
      let distance := origin.distanceTo (← g.snapPosition divot)
      return ⟨anchor, divot, distance⟩ :: (← g.pairsBelow active anchorBlock anchor origin rest)

/-- The pairs of a block's divot, at `origin`, with each notch that is free or holds it already,
and whose block does not hang below. -/
def pairsAbove (g : Graph) (active : BlockId) (divot : SnapId) (origin : Point) :
    List SnapId → Except GraphError (List Candidate)
  | [] => return []
  | notch :: rest => do
    let n ← g.snap notch
    let skip ← if n.next.any (· ≠ divot) then pure true
      else g.wouldCycle n.block active
    if skip then g.pairsAbove active divot origin rest
    else
      let distance := origin.distanceTo (← g.snapPosition notch)
      return ⟨notch, divot, distance⟩ :: (← g.pairsAbove active divot origin rest)

/-- The notch at the end of a block's chain; if the last block has none, the block's own. -/
def anchorOf (g : Graph) (b : Block) : Except GraphError (Option SnapId) := do
  let tail ← g.block b.deepest
  return tail.primaryNotch <|> b.primaryNotch

/-- The pairs of the end of a block's chain with some divots. -/
def candidatesBelow (g : Graph) (b : Block) (divots : List SnapId) :
    Except GraphError (List Candidate) := do
  match ← g.anchorOf b with
  | none => return []
  | some anchor =>
    let n ← g.snap anchor
    if n.next.isSome then return []
    else g.pairsBelow b.id n.block anchor (← g.snapPosition anchor) divots

/-- The pairs of a block's divot with some notches. -/
def candidatesAbove (g : Graph) (b : Block) (notches : List SnapId) :
    Except GraphError (List Candidate) := do
  match b.primaryDivot with
  | none => return []
  | some divot => g.pairsAbove b.id divot (← g.snapPosition divot) notches

/-- The place where a block would snap, if there is one within the snap radius. -/
def nearest (g : Graph) (active : BlockId) : Except GraphError (Option Candidate) := do
  let b ← g.block active
  let below ← g.candidatesBelow b g.divots.toList
  let above ← g.candidatesAbove b g.notches.toList
  return (below ++ above).foldl (Candidate.better g.config.snapRadius) none

end Graph

end SnapBlocks

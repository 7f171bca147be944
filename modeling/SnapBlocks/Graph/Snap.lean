import SnapBlocks.Definition.Basic
import SnapBlocks.Point

/-! Snap points: the notches and divots by which blocks hang together. They follow from the
definition of a block, and their ids from the id of the block. -/

namespace SnapBlocks

/-- The id of a block. -/
abbrev BlockId := String

/-- The id of a snap point. -/
abbrev SnapId := String

/-- What may hang from a snap point. -/
inductive SnapKind where
  /-- The next statement of the chain hangs here. -/
  | primaryNotch
  /-- Here the block hangs from a notch. -/
  | primaryDivot
  /-- The first statement of a nested chain hangs here. -/
  | secondaryNotch
  /-- Nothing hangs here. -/
  | joint
  deriving DecidableEq, Repr, Inhabited

namespace SnapKind

/-- Whether a block may hang here. -/
def isNotch : SnapKind → Bool
  | primaryNotch | secondaryNotch => true
  | _ => false

/-- Whether the block hangs from here. -/
def isDivot : SnapKind → Bool
  | primaryDivot => true
  | _ => false

/-- The word for a kind in ids. -/
def slug : SnapKind → String
  | primaryNotch | secondaryNotch => "notch"
  | primaryDivot => "divot"
  | joint => "joint"

end SnapKind

/-- The id of a snap point: the word for its kind, the index of its segment and its block. -/
def SnapId.derive (block : BlockId) (index : Nat) (kind : SnapKind) : SnapId :=
  kind.slug ++ "-" ++ toString index ++ "-" ++ block

/-- A snap point of a definition. -/
structure Slot where
  index : Nat
  segmentId : String
  kind : SnapKind
  deriving DecidableEq, Repr, Inhabited

/-- The kind of a segment's notch. A header opens a nested chain unless it is the whole block, a
divider always does, and from a footer hangs the next statement. -/
def SegmentKind.notchKind (count : Nat) : SegmentKind → SnapKind
  | .header => if count = 1 then .primaryNotch else .secondaryNotch
  | .divider => .secondaryNotch
  | .footer => .primaryNotch

/-- The snap points of a segment, among `count` segments: its divot, then its notch. -/
def Segment.slots (count : Nat) (s : Segment) (index : Nat) : List Slot :=
  (if s.divot then [⟨index, s.id, .primaryDivot⟩] else []) ++
    (if s.notch then [⟨index, s.id, s.kind.notchKind count⟩] else [])

/-- The snap points of a definition, segment by segment. -/
def Definition.slots (d : Definition) : List Slot :=
  d.segments.zipIdx.flatMap fun p => p.1.slots d.segments.length p.2

/-- The last snap point of a kind. -/
def Definition.slot? (d : Definition) (kind : SnapKind) : Option Slot :=
  (d.slots.filter (·.kind = kind)).getLast?

/-- The id of a snap point of a block. -/
def Slot.snapId (block : BlockId) (s : Slot) : SnapId :=
  SnapId.derive block s.index s.kind

/-- A snap point of a block. -/
structure SnapPoint where
  id : SnapId
  /-- The block it belongs to. -/
  block : BlockId
  segmentId : String
  segmentIndex : Nat
  kind : SnapKind
  /-- The notch that a divot hangs from. -/
  previous : Option SnapId := none
  /-- The divot that hangs from a notch. -/
  next : Option SnapId := none
  /-- Where it lies, from the origin of its block. -/
  position : Point := Point.origin
  deriving DecidableEq, Inhabited

/-- A free snap point of a new block. -/
def Slot.fresh (block : BlockId) (s : Slot) : SnapPoint :=
  { id := s.snapId block
    block := block
    segmentId := s.segmentId
    segmentIndex := s.index
    kind := s.kind }

/-- Whether anything hangs here. -/
def SnapPoint.isLinked (p : SnapPoint) : Bool := p.previous.isSome || p.next.isSome

end SnapBlocks

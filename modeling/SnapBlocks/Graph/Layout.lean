import SnapBlocks.Graph.Block

/-! Layouts give a block its height and its snap points their places. Segments are stacked from
top to bottom. In a block of several segments each but the last is followed by a slot, which
grows with the chain that hangs in it. -/

namespace SnapBlocks

/-- What a layout answers: the height of a block, and the places of its snap points in order. -/
structure Placing where
  height : Float
  positions : List Point

/-- A layout, asked with a definition and the extra height of each segment. -/
structure Layout where
  place (d : Definition) (extra : Table Float) : Placing

namespace Layout

/-- All lengths are scaled by this. -/
def scale : Float := 0.75

/-- The thickness of a block's wall. -/
def wall : Float := 30 * scale

/-- The height of a header, and of any segment with a text. -/
def headerHeight : Float := 80 * scale

/-- The height of a divider without a text. -/
def dividerHeight : Float := 20 * scale

/-- The height of a footer without a text. -/
def footerHeight : Float := 30 * scale

/-- How far a notch reaches down. -/
def notchDepth : Float := 15 * scale

/-- The width of a notch. -/
def notchWidth : Float := 40 * scale

/-- The height of an empty slot. -/
def slotHeight : Float := 120 * scale

/-- The height of a segment. -/
def segmentHeight (s : Segment) : Float :=
  match s.kind with
  | .header => headerHeight
  | .divider => if s.text.isSome then headerHeight else dividerHeight
  | .footer => if s.text.isSome then headerHeight else footerHeight

/-- Stack segments from a height on, with a slot behind each but the last. Gives the top and the
bottom of each segment, and where the last one ends. -/
def stack (extra : Table Float) : Float → List Segment → List (Float × Float) × Float
  | top, [] => ([], top)
  | top, [s] =>
    let bottom := top + segmentHeight s
    ([(top, bottom)], bottom)
  | top, s :: rest =>
    let bottom := top + segmentHeight s
    let (spans, finish) := stack extra (bottom + (slotHeight + (extra[s.id]?).getD 0)) rest
    ((top, bottom) :: spans, finish)

/-- The place of a snap point in a segment between `top` and `bottom`. -/
def slotPosition (top bottom : Float) : SnapKind → Point
  | .primaryDivot => ⟨wall + notchWidth / 2, top + notchDepth⟩
  | .secondaryNotch => ⟨2 * wall + notchWidth / 2, bottom + notchDepth⟩
  | .primaryNotch | .joint => ⟨wall + notchWidth / 2, bottom + notchDepth⟩

/-- The layout of stacked segments. -/
def stacked : Layout where
  place d extra :=
    let (spans, height) := stack extra 0 d.segments
    { height := height
      positions := d.slots.map fun s =>
        let (top, bottom) := (spans[s.index]?).getD (0, 0)
        slotPosition top bottom s.kind }

/-- A layout with a height for each segment, and fixed places. -/
def uniform (base perSegment : Float) (positions : List Point) : Layout where
  place d extra :=
    { height := (base + perSegment * Float.ofNat d.segments.length) +
        extra.toList.foldl (fun sum p => sum + p.2) 0
      positions := positions }

end Layout

end SnapBlocks

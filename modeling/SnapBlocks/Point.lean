import SnapBlocks.Json.Decoder

/-! Points of the canvas. Their coordinates are doubles, and every sum is taken in the order in
which it is written. -/

namespace SnapBlocks

/-- A point of the canvas, or the way from one point to another. -/
structure Point where
  x : Float
  y : Float
  deriving DecidableEq, Inhabited

namespace Point

/-- The origin. -/
def origin : Point := ⟨0, 0⟩

instance : Add Point := ⟨fun a b => ⟨a.x + b.x, a.y + b.y⟩⟩
instance : Sub Point := ⟨fun a b => ⟨a.x - b.x, a.y - b.y⟩⟩
instance : Neg Point := ⟨fun a => ⟨-a.x, -a.y⟩⟩
instance : BEq Point := ⟨fun a b => a.x == b.x && a.y == b.y⟩

/-- The distance of two points. -/
def distanceTo (a b : Point) : Float :=
  ((a.x - b.x) * (a.x - b.x) + (a.y - b.y) * (a.y - b.y)).sqrt

/-- Whether two points are no further apart than `radius` on each axis. -/
def within (a b : Point) (radius : Float) : Bool :=
  (a - b).x.abs ≤ radius && (a - b).y.abs ≤ radius

/-- A point as a value. -/
def toJson (p : Point) : Json := .obj [("x", .ofFloat p.x), ("y", .ofFloat p.y)]

open Json

/-- The fields of a point. -/
def fields : Fields (Option Float × Option Float) Point :=
  ((Fields.required "x" Decoder.float).and (Fields.required "y" Decoder.float)).map
    fun (x, y) => ⟨x, y⟩

/-- Decode a point. -/
def decoder : Decoder Point := fields.decoder

end Point

end SnapBlocks

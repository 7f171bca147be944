import SnapBlocks.Graph.Height

/-! Making blocks. A block comes with all of its snap points, which are free. -/

namespace SnapBlocks.Graph

/-- Put a snap point into the table, and into its registry. -/
def addSnap (g : Graph) (p : SnapPoint) : Graph :=
  { g with
    snaps := g.snaps.insert p.id p
    notches := if p.kind.isNotch then g.notches.insert p.id else g.notches
    divots := if p.kind.isDivot then g.divots.insert p.id else g.divots }

/-- Put a block and its snap points into the tables. -/
def addBlock (g : Graph) (b : Block) : Graph :=
  let g := (b.definition.slots.map (·.fresh b.id)).foldl addSnap g
  { g with blocks := g.blocks.insert b.id b }

/-- Make a block of a definition, as a root. -/
def insertDefinition (id : BlockId) (d : Definition) (position : Point) : Edit BlockId := do
  Edit.change (·.addBlock (.fresh id d position))
  relayout id
  return id

/-- Make a block of the catalog's definition with a name. -/
def insert (id : BlockId) (name : String) (position : Point) : Edit BlockId := do
  match (← get).catalog[name]? with
  | none => throw (.unknownDefinition name)
  | some d => insertDefinition id d position

end SnapBlocks.Graph

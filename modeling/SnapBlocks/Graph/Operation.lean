import SnapBlocks.Graph.Drag
import SnapBlocks.Graph.Inputs
import SnapBlocks.Graph.Insert
import SnapBlocks.Graph.Remove

/-! The operations of an editing session as data, and the graphs that they reach. -/

namespace SnapBlocks.Graph

/-- An operation on a graph. -/
inductive Operation where
  | insert (id : BlockId) (name : String) (position : Point)
  | insertDefinition (id : BlockId) (d : Definition) (position : Point)
  | remove (id : BlockId)
  | move (id : BlockId) (position : Point)
  | connect (notch divot : SnapId)
  | disconnect (divot : SnapId)
  | dragMove (id : BlockId) (position : Point)
  | dragEnd (id : BlockId)
  | updateInput (block : BlockId) (segmentId inputId : String) (u : InputUpdate)
  | resetInput (block : BlockId) (segmentId inputId : String)
  | adjustHeight (id : BlockId)
  | calculateDeepest (id : BlockId)

namespace Operation

/-- Carry out an operation, its answer aside. -/
def perform : Operation → Edit Unit
  | insert id name position => do let _ ← Graph.insert id name position
  | insertDefinition id d position => do let _ ← Graph.insertDefinition id d position
  | remove id => Graph.remove id
  | move id position => moveBlock id position
  | connect notch divot => do let _ ← Graph.connect notch divot
  | disconnect divot => do let _ ← Graph.disconnect divot
  | dragMove id position => do let _ ← Graph.dragMove id position
  | dragEnd id => do let _ ← Graph.dragEnd id
  | updateInput block segmentId inputId u => do
    let _ ← Graph.updateInput block segmentId inputId u
  | resetInput block segmentId inputId => Graph.resetInput block segmentId inputId
  | adjustHeight id => do let _ ← Graph.adjustHeight id
  | calculateDeepest id => do let _ ← Graph.calculateDeepest id

/-- The graph that an operation leaves, also when it fails. -/
def apply (op : Operation) (g : Graph) : Graph := (op.perform.run g).2

/-- The block that an operation makes, with the definition it has then. -/
def creates (op : Operation) (g : Graph) : Option (BlockId × Definition) :=
  match op with
  | insert id name _ => g.catalog[name]?.map fun d => (id, d)
  | insertDefinition id d _ => some (id, d)
  | _ => none

/-- Blocks are made under ids that are not in use. -/
def Fresh (op : Operation) (g : Graph) : Prop :=
  ∀ id d, op.creates g = some (id, d) → g.blocks[id]? = none

end Operation

/-- The graphs that operations reach from one, when blocks are made under fresh ids and every
definition used has a property. -/
inductive Reaches (ok : Definition → Prop) : Graph → Graph → Prop
  | refl (g : Graph) : Reaches ok g g
  | step {g h : Graph} (op : Operation) : Reaches ok g h → op.Fresh h →
      (∀ id d, op.creates h = some (id, d) → ok d) → Reaches ok g (op.apply h)

end SnapBlocks.Graph

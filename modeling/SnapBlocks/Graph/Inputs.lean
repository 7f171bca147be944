import SnapBlocks.Graph.Basic

/-! The inputs of blocks. -/

namespace SnapBlocks

/-- Change the first element with a property. -/
def updateFirst (p : α → Bool) (f : α → α) : List α → List α
  | [] => []
  | a :: rest => if p a then f a :: rest else a :: updateFirst p f rest

/-- Change the input with an id, in the segment with an id. -/
def Block.modifyInput (b : Block) (segmentId inputId : String)
    (f : InputBinding → InputBinding) : Block :=
  { b with inputs := b.inputs.modify segmentId (updateFirst (·.declaration.id = inputId) f) }

namespace Graph

/-- The input with an id, in the segment with an id, of a block. -/
def findInput (g : Graph) (block : BlockId) (segmentId inputId : String) :
    Except GraphError InputBinding := do
  match (← g.block block).input? segmentId inputId with
  | none => throw (.inputNotFound block segmentId inputId)
  | some i => return i

/-- Change an input. Answers it as it is then. -/
def changeInput (block : BlockId) (segmentId inputId : String)
    (f : InputBinding → InputBinding) : Edit InputBinding := do
  let i ← Edit.ask (·.findInput block segmentId inputId)
  Edit.change (·.modifyBlock block fun b => b.modifyInput segmentId inputId f)
  return f i

/-- Change parts of an input. -/
def updateInput (block : BlockId) (segmentId inputId : String) (u : InputUpdate) :
    Edit InputBinding :=
  changeInput block segmentId inputId u.apply

/-- Take the variable and the text off an input. -/
def resetInput (block : BlockId) (segmentId inputId : String) : Edit Unit := do
  let _ ← changeInput block segmentId inputId InputBinding.reset

end Graph

end SnapBlocks

import SnapBlocks.Graph.Basic

/-! Walks along the links of a graph: down a chain, up to the root, and through all that hangs
below a block. Each is bounded, either by the configured number of hops or by the number of
blocks, and fails when a graph that is no forest makes it run on. -/

namespace SnapBlocks.Graph

/-- The block that owns a snap point. -/
def owner (g : Graph) (id : SnapId) : Except GraphError BlockId := do
  return (← g.snap id).block

/-- The block of a linked snap point, if any. -/
def owner? (g : Graph) : Option SnapId → Except GraphError (Option BlockId)
  | none => .ok none
  | some id => do return some (← g.owner id)

/-- The block that hangs from the primary notch of a block. -/
def primaryNext (g : Graph) (id : BlockId) : Except GraphError (Option BlockId) := do
  match (← g.block id).primaryNotch with
  | none => return none
  | some notch => g.owner? (← g.snap notch).next

/-- The block from whose notch a block hangs. -/
def predecessor (g : Graph) (id : BlockId) : Except GraphError (Option BlockId) := do
  match (← g.block id).primaryDivot with
  | none => return none
  | some divot => g.owner? (← g.snap divot).previous

/-- The chain behind a block, of at most `room` blocks. -/
def chainAfter (g : Graph) (start : BlockId) : (room : Nat) → BlockId →
    Except GraphError (List BlockId)
  | room, id => do
    match ← g.primaryNext id with
    | none => return []
    | some next =>
      match room with
      | 0 => throw (.structural (.chain start g.config.maxChainHops))
      | room + 1 => return next :: (← g.chainAfter start room next)

/-- The chain of statements that starts at a block, that block included. -/
def primaryChain (g : Graph) (id : BlockId) : Except GraphError (List BlockId) := do
  return id :: (← g.chainAfter id (g.config.maxChainHops - 1) id)

/-- The last block of the chain that starts at a block. -/
def chainTail (g : Graph) (id : BlockId) : Except GraphError BlockId := do
  return (← g.primaryChain id).getLastD id

/-- Whether a walk up from a block meets `target`. -/
def meetsAbove (g : Graph) (start target : BlockId) : (room : Nat) → Option BlockId →
    Except GraphError Bool
  | _, none => return false
  | room, some id =>
    if id = target then return true
    else
      match room with
      | 0 => throw (.structural (.ancestry start))
      | room + 1 => do g.meetsAbove start target room (← g.predecessor id)

/-- Whether a link from a notch of one block to the divot of another closes a loop: the lower one
stands above the upper one, or is it. -/
def wouldCycle (g : Graph) (notchBlock divotBlock : BlockId) : Except GraphError Bool :=
  g.meetsAbove notchBlock divotBlock g.size (some notchBlock)

/-- The number of blocks on a walk up. -/
def countAbove (g : Graph) (start : BlockId) : (room : Nat) → Option BlockId →
    Except GraphError Nat
  | _, none => return 0
  | 0, some _ => throw (.structural (.ancestry start))
  | room + 1, some id => do return (← g.countAbove start room (← g.predecessor id)) + 1

/-- The number of blocks from the root down to a block, both included. -/
def depthAbove (g : Graph) (id : BlockId) : Except GraphError Nat := do
  return (← g.countAbove id (g.size - 1) (← g.predecessor id)) + 1

/-- The blocks that hang from the notches of a block. -/
def childrenOf (g : Graph) : List SnapId → Except GraphError (List BlockId)
  | [] => return []
  | id :: rest => do
    let p ← g.snap id
    let child ← if p.kind.isNotch then g.owner? p.next else pure none
    return child.toList ++ (← g.childrenOf rest)

/-- The greatest depth that is reached from a stack of blocks with their depths. The last child
of a block is visited first. -/
def deepestFrom (g : Graph) (start : BlockId) : (room : Nat) → List (BlockId × Nat) → Nat →
    Except GraphError Nat
  | _, [], deepest => return deepest
  | 0, _ :: _, _ => throw (.structural (.descent start))
  | room + 1, (id, depth) :: rest, deepest => do
    let children ← g.childrenOf (← g.block id).snapPoints
    g.deepestFrom start room
      ((children.map fun c => (c, depth + 1)).reverse ++ rest) (max deepest depth)

/-- The number of blocks on the longest way down from a block, through any notch, that block
included. -/
def depthBelow (g : Graph) (id : BlockId) : Except GraphError Nat :=
  g.deepestFrom id g.size [(id, 1)] 0

/-- Refresh the last block of the chain of each block on a walk up. -/
def refreshDeepest (start : BlockId) : (room : Nat) → Option BlockId → Edit Unit
  | _, none => return ()
  | 0, some _ => do
    throw (.structural (.deepest start (← get).config.maxChainHops))
  | room + 1, some id => do
    let tail ← Edit.ask (·.chainTail id)
    Edit.change (·.setDeepest id tail)
    refreshDeepest start room (← Edit.ask (·.predecessor id))

/-- Refresh the last block of the chain that starts at a block, and at each block above. Answers
the former. -/
def calculateDeepest (id : BlockId) : Edit BlockId := do
  let tail ← Edit.ask (·.chainTail id)
  Edit.change (·.setDeepest id tail)
  let hops := (← get).config.maxChainHops
  refreshDeepest id hops (← Edit.ask (·.predecessor id))
  return tail

end SnapBlocks.Graph

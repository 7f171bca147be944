import SnapBlocks.Graph.Chain
import SnapBlocks.Program.Basic

/-! From graphs to programs. A chain of blocks becomes a chain of calls. What hangs from a
secondary notch becomes a branch of the call, and what follows a block that forces a scope
becomes the scope of its call, with which the chain ends. No block is compiled twice. -/

namespace SnapBlocks

/-- Why a graph does not compile. -/
inductive CompileError where
  | forceScopeBranch (name : String) (block : BlockId) (segment : String)
  | noEntryBlocks
  | graph (e : GraphError)
  deriving DecidableEq, Repr, Inhabited

/-- The text of an error. -/
def CompileError.message : CompileError → String
  | forceScopeBranch name block segment =>
    "force-scope block '" ++ name ++ "' (" ++ block ++ ") cannot branch at segment " ++ segment
  | noEntryBlocks =>
    "no entry blocks found in graph - add a 'startAgent' or 'onMessage' block"
  | graph e => e.message

namespace Compile

/-- A step of a compilation; the state holds the blocks that were compiled already. -/
abbrev Step := StateT TextSet (Except CompileError)

/-- Ask the graph. -/
def ask (r : Except GraphError α) : Step α :=
  match r with
  | .ok a => pure a
  | .error e => throw (.graph e)

/-- An input of a call. -/
def boundInput (segmentName : String) (i : InputBinding) : BoundInput :=
  { id := i.declaration.id
    name := i.declaration.name
    internalName := i.declaration.internalName
    inputType := i.declaration.inputType
    mode := i.declaration.mode
    key := i.key
    segmentName := segmentName }

/-- The inputs of a block's call, for each segment that has any. -/
def boundInputs (b : Block) : List (String × List BoundInput) :=
  (b.inputs.toList.filter (! ·.2.isEmpty)).map fun p =>
    (p.1, p.2.map (boundInput (b.definition.segmentName p.1)))

/-- The secondary notches of a block from which something hangs: the id of the segment, and the
divot that hangs there. -/
def linkedScopes (g : Graph) : List SnapId → Except GraphError (List (String × SnapId))
  | [] => return []
  | id :: rest => do
    let p ← g.snap id
    let others ← linkedScopes g rest
    match p.kind, p.next with
    | .secondaryNotch, some divot => return (p.segmentId, divot) :: others
    | _, _ => return others

/-- Mark a block as compiled. It must not have been before. -/
def visit (start id : BlockId) : Step Unit := do
  if (← get).contains id then throw (.graph (.structural (.revisited id start)))
  else modify (·.insert id)

/-- Compile the chains that hang inside of a block, notch by notch. -/
def branchList (g : Graph) (b : Block) (compile : BlockId → Step Chain) :
    List (String × SnapId) → Step (List (String × Branch))
  | [] => return []
  | (segment, divot) :: rest => do
    let body ← compile (← ask (g.owner divot))
    let others ← branchList g b compile rest
    return (segment, ⟨b.definition.segmentName segment, body⟩) :: others

/-- List branches by segment id. Of two in segments with one id the later stays. -/
def bySegment (branches : List (String × Branch)) : List (String × Branch) :=
  branches.foldl (fun acc p => insertSorted p.1 p.2 acc) []

/-- Compile the rest of the chain of `start`, from a block on. Each call below marks another
block, so the number of blocks bounds how deep they nest (`room`). -/
def chainFrom (g : Graph) : (room : Nat) → (start id : BlockId) → Step Chain
  | 0, start, id => do
    visit start id
    let _ ← ask (g.block id)
    throw (.graph (.structural (.revisited id start)))
  | room + 1, start, id => do
    visit start id
    let b ← ask (g.block id)
    let scopes ← ask (linkedScopes g b.snapPoints)
    if b.isForceScope then
      match scopes with
      | (segment, _) :: _ => throw (.forceScopeBranch b.name id segment)
      | [] =>
        match ← ask (g.primaryNext id) with
        | none => return [.mk b.name id (boundInputs b) [] none]
        | some next =>
          let body ← chainFrom g room next next
          return [.mk b.name id (boundInputs b) [] (some body)]
    else
      let branches ← branchList g b (fun first => chainFrom g room first first) scopes
      let call := Call.mk b.name id (boundInputs b) (bySegment branches) none
      match ← ask (g.primaryNext id) with
      | none => return [call]
      | some next => return call :: (← chainFrom g room start next)

/-- Compile the chain that starts at a block. -/
def chain (g : Graph) (root : BlockId) : Step Chain := chainFrom g g.size root root

/-- Compile the chains that start at some blocks. -/
def chains (g : Graph) : List BlockId → Step (List Chain)
  | [] => return []
  | root :: rest => do
    let first ← chain g root
    return first :: (← chains g rest)

end Compile

namespace Graph

/-- The program of the one chain that starts at a block. -/
def compileChain (g : Graph) (root : BlockId) : Except CompileError Program := do
  let (chain, _) ← (Compile.chain g root).run ∅
  return ⟨[chain]⟩

/-- The roots whose definition is an entry of programs, by id. -/
def entries (g : Graph) : List BlockId :=
  (g.roots.filter (·.definition.isEntry)).map (·.id)

/-- The program of all entry chains. -/
def compile (g : Graph) : Except CompileError Program := do
  if g.entries.isEmpty then throw .noEntryBlocks
  let (chains, _) ← (Compile.chains g g.entries).run ∅
  return ⟨chains⟩

end Graph

end SnapBlocks

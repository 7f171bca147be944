import SnapBlocks.Definition.Basic

/-! Programs: what block chains compile to. A chain is a list of calls. A call names a function
and carries, by segment, its inputs and the chains that hang inside of it, or else one chain as
its scope. -/

namespace SnapBlocks

/-- An input of a call: the variable that it reads or writes, if one is bound. -/
structure BoundInput where
  id : String
  name : String
  internalName : String
  inputType : InputType
  mode : InputMode
  key : Option String
  segmentName : String
  deriving DecidableEq, Repr, Inhabited

/-- A chain that hangs inside of a call, and the name of the segment it hangs from. -/
structure BranchOf (Call : Type) where
  segmentName : String
  body : List Call

/-- A call of a function by a block. Inputs and branches are listed by ascending segment id. -/
inductive Call where
  | mk (target block : String) (inputs : List (String × List BoundInput))
      (branches : List (String × BranchOf Call)) (scope : Option (List Call))

/-- Calls one after another. -/
abbrev Chain := List Call

/-- A chain that hangs inside of a call. -/
abbrev Branch := BranchOf Call

instance : Inhabited Call := ⟨.mk "" "" [] [] none⟩

namespace Call

/-- The function that a call names. -/
def target : Call → String
  | mk target _ _ _ _ => target

/-- The block that a call comes from. -/
def block : Call → String
  | mk _ block _ _ _ => block

/-- The inputs of a call by segment id. -/
def inputs : Call → List (String × List BoundInput)
  | mk _ _ inputs _ _ => inputs

/-- The branches of a call by segment id. -/
def branches : Call → List (String × Branch)
  | mk _ _ _ branches _ => branches

/-- The scope of a call. -/
def scope : Call → Option Chain
  | mk _ _ _ _ scope => scope

@[simp] theorem target_mk : (mk t b i bs s).target = t := rfl
@[simp] theorem block_mk : (mk t b i bs s).block = b := rfl
@[simp] theorem inputs_mk : (mk t b i bs s).inputs = i := rfl
@[simp] theorem branches_mk : (mk t b i bs s).branches = bs := rfl
@[simp] theorem scope_mk : (mk t b i bs s).scope = s := rfl

/-- The inputs of the first segment with a name, among segments with inputs. -/
def segmentInputs? (c : Call) (segmentName : String) : Option (List BoundInput) :=
  (c.inputs.find? fun p => (p.2.head?.map (·.segmentName)) = some segmentName).map (·.2)

/-- The first branch that hangs from a segment with a name. -/
def branch? (c : Call) (segmentName : String) : Option Branch :=
  (c.branches.find? fun p => p.2.segmentName = segmentName).map (·.2)

end Call

/-- The chains of a program. -/
structure Program where
  entries : List Chain
  deriving Inhabited

end SnapBlocks

import SnapBlocks.Proofs.Refill

/-! What edits of inputs do. An edit is about one input, and it changes how that is bound; the
declarations of the inputs, and all else in a graph, stay. So after any number of edits an input is
bound as those among them say that were about it. -/

namespace SnapBlocks

/-- A reset takes from an input all that binds it, but not its flag as a constant. -/
theorem InputBinding.reset_eq (i : InputBinding) :
    i.reset = { i.unbound with constant := i.constant } := rfl

theorem InputBinding.reset_reset (i : InputBinding) : i.reset.reset = i.reset := rfl

/-! ## Inputs of a block -/

section

variable {f : InputBinding → InputBinding} (hf : ∀ i, (f i).declaration = i.declaration)
include hf

theorem find?_updateFirst (l : List InputBinding) (input x : String) :
    (updateFirst (·.declaration.id = input) f l).find? (·.declaration.id = x) =
      (l.find? (·.declaration.id = x)).map fun i => if input = x then f i else i := by
  induction l with
  | nil => rfl
  | cons i rest ih =>
    unfold updateFirst
    by_cases hi : i.declaration.id = input
    · rw [if_pos (by simpa using hi)]
      by_cases hx : i.declaration.id = x
      · simp [hf, hx, ← hi]
      · have hne : input ≠ x := fun he => hx (hi.trans he)
        simp [hf, hx, hne]
    · rw [if_neg (by simpa using hi)]
      by_cases hx : i.declaration.id = x
      · have hne : input ≠ x := fun he => hi (hx.trans he.symm)
        simp [hx, hne]
      · simpa [hx] using ih

theorem Block.input?_modifyInput (b : Block) (seg input k x : String) :
    (b.modifyInput seg input f).input? k x =
      (b.input? k x).map fun i => if seg = k ∧ input = x then f i else i := by
  unfold input?
  change ((b.inputs.modify seg _)[k]?).bind _ = _
  rw [Table.getElem?_modify]
  split
  next hk =>
    rw [Option.bind_map, Option.map_bind]
    simp only [hk, true_and]
    exact congrArg _ (funext fun l => find?_updateFirst hf l input x)
  next hk => simp [hk]

end

/-- Change all inputs of a block. -/
def Block.mapInputs (f : InputBinding → InputBinding) (b : Block) : Block :=
  { b with inputs := b.inputs.map fun _ l => l.map f }

theorem Block.getElem?_mapInputs (f : InputBinding → InputBinding) (b : Block) (k : String) :
    (b.mapInputs f).inputs[k]? = (b.inputs[k]?).map (·.map f) := Std.ExtTreeMap.getElem?_map

/-- A block apart from how its inputs are bound. -/
def Block.unbound (b : Block) : Block := b.mapInputs InputBinding.unbound

theorem Block.unbound_modifyInput (b : Block) {f : InputBinding → InputBinding}
    (hf : ∀ i, (f i).declaration = i.declaration) (seg input : String) :
    (b.modifyInput seg input f).unbound = b.unbound := by
  have hu (i) : (f i).unbound = i.unbound := congrArg (InputBinding.mk · none none false false) (hf i)
  refine congrArg (fun t => { b with inputs := t }) (Table.ext fun k => ?_)
  refine (getElem?_mapInputs _ _ k).trans (.trans ?_ (getElem?_mapInputs _ _ k).symm)
  rw [modifyInput, Table.getElem?_modify]
  split
  · rw [Option.map_map]
    exact congrArg (Option.map · _) (funext fun l => Graph.updateFirst_map hu l)
  · rfl

/-- Where an input is: in a segment of a block. -/
structure InputPlace where
  block : BlockId
  segment : String
  input : String
  deriving DecidableEq

namespace Graph

variable {g h : Graph} {c c' : InputPlace} {f : InputBinding → InputBinding} {i : InputBinding}
variable {op : Operation} {ops : List Operation} {b : Block}

/-- The input at a place, as it is bound. -/
def inputAt (g : Graph) (c : InputPlace) : Option InputBinding :=
  g.blocks[c.block]?.bind (·.input? c.segment c.input)

/-- A graph apart from how its inputs are bound. -/
def unbound (g : Graph) : Graph := { g with blocks := g.blocks.map fun _ b => b.unbound }

theorem inputAt_of_block {id : BlockId} (hb : g.blocks[id]? = some b) (seg input : String) :
    g.inputAt ⟨id, seg, input⟩ = b.input? seg input := by
  rw [inputAt, hb, Option.bind_some]

theorem findInput_eq_ok : g.findInput c.block c.segment c.input = .ok i ↔ g.inputAt c = some i := by
  unfold inputAt findInput block
  cases g.blocks[c.block]? with
  | none => exact ⟨nofun, nofun⟩
  | some b =>
    cases hi : b.input? c.segment c.input with
    | none => simp [bind, Except.bind, hi]
    | some j => simp [bind, Except.bind, hi, pure, Except.pure]

theorem unbound_modifyBlock {id : BlockId} {f : Block → Block}
    (hf : ∀ b, (f b).unbound = b.unbound) : (g.modifyBlock id f).unbound = g.unbound := by
  refine ext rfl rfl rfl (fun k => ?_) (fun _ => rfl) rfl rfl rfl
  change ((g.blocks.modify id f).map _)[k]? = (g.blocks.map _)[k]?
  rw [Std.ExtTreeMap.getElem?_map, Std.ExtTreeMap.getElem?_map, Table.getElem?_modify]
  split
  · rw [Option.map_map]
    exact congrArg (Option.map · _) (funext hf)
  · rfl

theorem exists_block_of_unbound {id : BlockId} (hu : g.unbound = h.unbound)
    (hb : g.blocks[id]? = some b) : ∃ b', h.blocks[id]? = some b' ∧ b.unbound = b'.unbound := by
  have he : g.unbound.blocks[id]? = h.unbound.blocks[id]? := by rw [hu]
  rw [unbound, unbound, Std.ExtTreeMap.getElem?_map, Std.ExtTreeMap.getElem?_map, hb,
    Option.map_some, eq_comm, Option.map_eq_some_iff] at he
  obtain ⟨b', hb', hbb⟩ := he
  exact ⟨b', hb', hbb.symm⟩

/-! ## Edits -/

section

variable (hf : ∀ i, (f i).declaration = i.declaration)
include hf

theorem inputAt_modifyInput :
    (g.modifyBlock c.block (·.modifyInput c.segment c.input f)).inputAt c' =
      (g.inputAt c').map fun i => if c = c' then f i else i := by
  obtain ⟨id, seg, input⟩ := c
  obtain ⟨id', seg', input'⟩ := c'
  unfold inputAt
  rw [modifyBlock, Table.getElem?_modify]
  simp only [InputPlace.mk.injEq]
  split
  next he =>
    rw [Option.bind_map, Option.map_bind]
    simp only [he, true_and]
    exact congrArg _ (funext fun b => b.input?_modifyInput hf seg input seg' input')
  next he => simp [he]

theorem inputAt_changeInput :
    ((changeInput c.block c.segment c.input f).run g).2.inputAt c' =
      (g.inputAt c').map fun i => if c = c' then f i else i := by
  unfold changeInput
  cases hi : g.findInput c.block c.segment c.input with
  | ok i =>
    rw [Edit.run_bind_ok (by rw [Edit.run_ask, hi])]
    exact inputAt_modifyInput hf
  | error x =>
    have hnone : g.inputAt c = none := by
      refine Option.eq_none_iff_forall_ne_some.mpr fun i hsome => ?_
      rw [findInput_eq_ok.mpr hsome] at hi
      cases hi
    rw [Edit.run_bind_error (by rw [Edit.run_ask, hi])]
    by_cases hc : c = c'
    · rw [← hc, hnone]
      rfl
    · simp [hc]

theorem unbound_changeInput :
    ((changeInput c.block c.segment c.input f).run g).2.unbound = g.unbound :=
  changeInput_fixes (fun _ => unbound_modifyBlock fun b => b.unbound_modifyInput hf _ _) g

end

namespace Operation

/-- The input that an operation edits, and what it makes of that. -/
def edit? : Operation → Option (InputPlace × (InputBinding → InputBinding))
  | updateInput block seg input u => some (⟨block, seg, input⟩, u.apply)
  | resetInput block seg input => some (⟨block, seg, input⟩, InputBinding.reset)
  | _ => none

/-- What an operation makes of the input at a place. -/
def rebind (op : Operation) (c : InputPlace) (i : InputBinding) : InputBinding :=
  match op.edit? with
  | some (c', f) => if c' = c then f i else i
  | none => i

/-- What an operation says of whether the input at a place is a constant. -/
def constant? (op : Operation) (c : InputPlace) : Option Bool :=
  match op with
  | updateInput block seg input u => if ⟨block, seg, input⟩ = c then u.constant else none
  | _ => none

theorem declaration_of_edit? (h : op.edit? = some (c, f)) (i : InputBinding) :
    (f i).declaration = i.declaration := by
  cases op <;> cases h <;> rfl

theorem apply_of_edit? (h : op.edit? = some (c, f)) :
    op.apply g = ((changeInput c.block c.segment c.input f).run g).2 := by
  cases op with
  | updateInput => cases h; exact Edit.state_map _ _
  | resetInput => cases h; exact Edit.state_map _ _
  | _ => cases h

theorem creates_of_edit? (h : op.edit?.isSome) : op.creates g = none := by
  cases op <;> first | rfl | cases h

theorem declaration_rebind (op : Operation) (c : InputPlace) (i : InputBinding) :
    (op.rebind c i).declaration = i.declaration := by
  unfold rebind
  cases h : op.edit? with
  | none => rfl
  | some e =>
    dsimp only
    split
    · exact declaration_of_edit? h i
    · rfl

/-- Only updates say anything of the flag. -/
theorem constant_rebind (op : Operation) (c : InputPlace) (i : InputBinding) :
    (op.rebind c i).constant = (op.constant? c).getD i.constant := by
  unfold rebind constant?
  cases op with
  | updateInput block seg input u => dsimp only [edit?]; split <;> rfl
  | resetInput block seg input => dsimp only [edit?]; split <;> rfl
  | _ => rfl

end Operation

/-- **An edit is about one input**, whose place it names. -/
theorem inputAt_apply (h : op.edit?.isSome) :
    (op.apply g).inputAt c = (g.inputAt c).map (op.rebind c) := by
  obtain ⟨⟨c', f⟩, he⟩ := Option.isSome_iff_exists.mp h
  rw [op.apply_of_edit? he, inputAt_changeInput (Operation.declaration_of_edit? he)]
  refine congrArg (Option.map · _) (funext fun i => ?_)
  rw [Operation.rebind, he]

/-- An edit changes nothing but how inputs are bound. -/
theorem unbound_apply (h : op.edit?.isSome) : (op.apply g).unbound = g.unbound := by
  obtain ⟨⟨c, f⟩, he⟩ := Option.isSome_iff_exists.mp h
  rw [op.apply_of_edit? he, unbound_changeInput (Operation.declaration_of_edit? he)]

/-! ## Histories of edits -/

/-- The graph after some operations. -/
def after (g : Graph) (ops : List Operation) : Graph := ops.foldl (fun g op => op.apply g) g

/-- What some operations make of the input at a place. -/
def rebindAll (ops : List Operation) (c : InputPlace) (i : InputBinding) : InputBinding :=
  ops.foldl (fun i op => op.rebind c i) i

theorem declaration_rebindAll (ops : List Operation) (c : InputPlace) (i : InputBinding) :
    (rebindAll ops c i).declaration = i.declaration := by
  induction ops generalizing i with
  | nil => rfl
  | cons op ops ih => exact (ih _).trans (op.declaration_rebind c i)

/-- The flag of an input is what the last update said that was about it. -/
theorem constant_rebindAll (ops : List Operation) (c : InputPlace) (i : InputBinding) :
    (rebindAll ops c i).constant =
      (ops.filterMap (·.constant? c)).getLast?.getD i.constant := by
  induction ops generalizing i with
  | nil => rfl
  | cons op ops ih =>
    refine (ih _).trans ?_
    rw [op.constant_rebind, List.filterMap_cons]
    cases op.constant? c with
    | none => rfl
    | some k => rw [List.getLast?_cons]; rfl

section

variable (hops : ∀ op ∈ ops, op.edit?.isSome)
include hops

/-- After some edits every input is bound as those that were about it say. -/
theorem inputAt_after : (g.after ops).inputAt c = (g.inputAt c).map (rebindAll ops c) := by
  induction ops generalizing g with
  | nil => exact Option.map_id'.symm
  | cons op ops ih =>
    refine (ih fun o ho => hops o (.tail _ ho)).trans ?_
    rw [inputAt_apply (hops op List.mem_cons_self), Option.map_map]
    rfl

theorem unbound_after : (g.after ops).unbound = g.unbound := by
  induction ops generalizing g with
  | nil => rfl
  | cons op ops ih =>
    exact (ih fun o ho => hops o (.tail _ ho)).trans (unbound_apply (hops op List.mem_cons_self))

theorem Reachable.after {ok : Definition → Prop} (hg : Reachable ok g) :
    Reachable ok (g.after ops) := by
  induction ops generalizing g with
  | nil => exact hg
  | cons op ops ih =>
    have hno := Operation.creates_of_edit? (g := g) (hops op List.mem_cons_self)
    refine ih (fun o ho => hops o (.tail _ ho)) (hg.step op (fun id d hc => ?_) fun id d hc => ?_)
    · cases hno.symm.trans hc
    · cases hno.symm.trans hc

end

end Graph

end SnapBlocks

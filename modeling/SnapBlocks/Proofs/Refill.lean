import SnapBlocks.Proofs.Loading

/-! Inputs come back as they were saved. In a new block no input names anything yet; a load goes
through the segments, and through the inputs of each, and the inputs that it passed are those of
the saved block. -/

namespace SnapBlocks

/-- An input that names nothing. -/
def InputBinding.unbound (i : InputBinding) : InputBinding := { declaration := i.declaration }

theorem updateFirst_append {p : α → Bool} {f : α → α} {pre post : List α} {a : α}
    (hpre : ∀ x ∈ pre, ¬ p x) (ha : p a) :
    updateFirst p f (pre ++ a :: post) = pre ++ f a :: post := by
  induction pre with
  | nil => rw [List.nil_append, updateFirst, if_pos ha]; rfl
  | cons x pre ih =>
    rw [List.cons_append, updateFirst, if_neg (hpre x List.mem_cons_self),
      ih fun y hy => hpre y (.tail _ hy)]
    rfl

/-- An input that names nothing takes all that was saved. -/
theorem InputBinding.apply_saved (i : InputBinding) :
    (Document.SavedInput.update (Document.saveInput i)).apply i.unbound = i := by
  obtain ⟨d, key, text, occupied, constant⟩ := i
  cases key <;> cases text <;> rfl

/-- The inputs of a segment are told apart by their ids. -/
theorem Block.Filled.ids_nodup {b : Block} (hf : b.Filled) (hc : b.definition.Coherent)
    {k : String} {l : List InputBinding} (hl : b.inputs[k]? = some l) :
    (l.map (·.declaration.id)).Nodup := by
  obtain ⟨s, hs, hne, rfl⟩ := hf.segment_of hl
  obtain ⟨l', hl', hdecl⟩ := hf.declared hs hne
  cases hl.symm.trans hl'
  have hinputs := hc.inputs_nodup s hs
  rwa [← hdecl, List.map_map] at hinputs

namespace Document

open SnapBlocks.Graph

variable {g : Graph} {b c : Block} {id : BlockId} {t u : Table (List InputBinding)}
variable {skipped : List Skipped} {seg : String} {pre post l : List InputBinding}
variable {pos : Point}

/-! ## Inputs -/

/-- A graph with some inputs of a block. -/
def withInputs (g : Graph) (id : BlockId) (t : Table (List InputBinding)) : Graph :=
  g.modifyBlock id fun b => { b with inputs := t }

theorem withInputs_self (hb : g.blocks[id]? = some b) : withInputs g id b.inputs = g := by
  refine Graph.ext rfl rfl rfl (fun i => ?_) (fun _ => rfl) rfl rfl rfl
  rw [withInputs, modifyBlock, Table.getElem?_modify]
  split
  next he => rw [← he, hb]; rfl
  next => rfl

theorem getElem?_withInputs (hb : g.blocks[id]? = some b) :
    (withInputs g id t).blocks[id]? = some { b with inputs := t } := by
  rw [withInputs, modifyBlock, Table.getElem?_modify_self, hb]
  rfl

/-- A new block may as well come with some inputs. -/
theorem shape_withInputs {h : Graph} (heq : g.shape = (h.addBlock b).shape) :
    (withInputs g b.id t).shape = (h.addBlock { b with inputs := t }).shape := by
  refine view_ext ((config_eq_of_view heq).trans (config_addBlock.trans config_addBlock.symm))
    ((layout_eq_of_view heq).trans (layout_addBlock.trans layout_addBlock.symm)) (fun i => ?_)
    (fun i => (snaps_eq_of_view heq i).trans ?_) ?_ ?_
  · have hi := blocks_eq_of_view heq i
    rw [getElem?_blocks_addBlock] at hi ⊢
    rw [withInputs, modifyBlock, Table.getElem?_modify]
    split
    next he =>
      rw [if_pos he] at hi
      obtain ⟨c, hc, hbare⟩ := Option.map_eq_some_iff.mp hi
      rw [hc]
      exact congrArg (fun c : Block => some { c with inputs := t }) hbare
    next he => rwa [if_neg he] at hi
  · by_cases hi : i ∈ b.snapPoints
    · obtain ⟨s, hs, rfl⟩ := Block.mem_snapPoints.mp hi
      rw [getElem?_snaps_addBlock_of_mem hs]
      exact congrArg (Option.map SnapPoint.unplaced)
        (getElem?_snaps_addBlock_of_mem (b := { b with inputs := t }) hs).symm
    · rw [getElem?_snaps_addBlock_of_notMem hi,
        getElem?_snaps_addBlock_of_notMem (b := { b with inputs := t }) hi]
  · refine (notches_eq_of_view heq).trans (TextSet.ext fun i => ?_)
    rw [mem_notches_addBlock, mem_notches_addBlock]
  · refine (divots_eq_of_view heq).trans (TextSet.ext fun i => ?_)
    rw [mem_divots_addBlock, mem_divots_addBlock]

theorem updateInput_run (hb : g.blocks[id]? = some b) {i : InputBinding} {u : InputUpdate}
    (ht : t[seg]? = some (pre ++ i :: post))
    (hpre : ∀ j ∈ pre, j.declaration.id ≠ i.declaration.id) :
    (updateInput id seg i.declaration.id u).run (withInputs g id t) =
      (.ok (u.apply i), withInputs g id (t.insert seg (pre ++ u.apply i :: post))) := by
  have hfind : (withInputs g id t).findInput id seg i.declaration.id = .ok i := by
    have hpost : (pre ++ i :: post).find? (·.declaration.id = i.declaration.id) = some i := by
      rw [List.find?_append, List.find?_eq_none.mpr fun j hj => by simpa using hpre j hj]
      simp
    unfold findInput
    simp only [block_of_getElem? (getElem?_withInputs hb), bind, Except.bind, Block.input?, ht,
      Option.bind_some, hpost]
    rfl
  have hmodify : t.modify seg (updateFirst (·.declaration.id = i.declaration.id) u.apply) =
      t.insert seg (pre ++ u.apply i :: post) := by
    refine Table.ext fun k => ?_
    rw [Table.getElem?_modify, Table.getElem?_insert]
    split
    next he =>
      rw [← he, ht, Option.map_some, updateFirst_append (by simpa using hpre) (by simp)]
    next => rfl
  unfold updateInput changeInput
  rw [Edit.run_bind_ok (by rw [Edit.run_ask, hfind]), Edit.run_bind_ok (Edit.run_change _),
    Edit.run_pure, withInputs, modifyBlock_modifyBlock]
  refine Prod.ext rfl (congrArg (g.modifyBlock id) (funext fun c => ?_))
  exact congrArg (fun t => { c with inputs := t }) hmodify

/-- The inputs of a segment come back one after another. -/
theorem loadInputs_run (skipped : List Skipped) (pre : List InputBinding)
    (hb : g.blocks[id]? = some b)
    (hn : ((pre ++ post).map (·.declaration.id)).Nodup)
    (ht : t[seg]? = some (pre ++ post.map (·.unbound))) :
    (loadInputs id seg (post.map saveInput)).run ⟨withInputs g id t, skipped⟩ =
      (.ok (), ⟨withInputs g id (t.insert seg (pre ++ post)), skipped⟩) := by
  induction post generalizing pre t with
  | nil =>
    rw [Table.insert_self (by simpa using ht)]
    rfl
  | cons i rest ih =>
    have hpre : ∀ j ∈ pre, j.declaration.id ≠ i.declaration.id := by
      rw [List.map_append, List.nodup_append] at hn
      exact fun j hj => hn.2.2 _ (List.mem_map_of_mem hj) _ (List.mem_map_of_mem List.mem_cons_self)
    have hrun := updateInput_run (u := SavedInput.update (saveInput i)) (i := i.unbound) hb ht hpre
    rw [i.apply_saved] at hrun
    have hstep : (loadInputs id seg ((i :: rest).map saveInput)).run ⟨withInputs g id t, skipped⟩ =
        (loadInputs id seg (rest.map saveInput)).run
          ⟨withInputs g id (t.insert seg (pre ++ i :: rest.map (·.unbound))), skipped⟩ := by
      obtain ⟨sk, hcons, hskip, _⟩ := loadInputs_cons (l := ⟨withInputs g id t, skipped⟩)
        id seg (saveInput i) (rest.map saveInput)
      rw [List.map_cons, hcons, hskip _ (congrArg Prod.fst hrun)]
      exact congrArg (fun r => (loadInputs id seg (rest.map saveInput)).run ⟨r, skipped⟩)
        (congrArg Prod.snd hrun)
    have hget : (t.insert seg (pre ++ i :: rest.map (·.unbound)))[seg]? =
        some ((pre ++ [i]) ++ rest.map (·.unbound)) := by
      rw [Table.getElem?_insert, if_pos rfl, List.append_assoc]
      rfl
    rw [hstep, ih _ (by rwa [List.append_assoc]) hget, List.append_assoc, Table.insert_insert]
    rfl

/-- The inputs of the segments that are still to come name nothing yet. -/
def Pending (b : Block) (segs : List Segment) (t : Table (List InputBinding)) : Prop :=
  ∀ k, t[k]? = if k ∈ segs.map (·.id) then b.inputs[k]?.map (·.map (·.unbound)) else b.inputs[k]?

theorem loadSegments_run (skipped : List Skipped) (hb : g.blocks[id]? = some c)
    {segs : List Segment} (hn : (segs.map (·.id)).Nodup)
    (hinputs : ∀ s ∈ segs, ∀ l, b.inputs[s.id]? = some l → (l.map (·.declaration.id)).Nodup)
    (hp : Pending b segs t) :
    (loadSegments id (segs.map fun s =>
        ⟨s.id, ((b.inputs[s.id]?).getD []).map saveInput⟩)).run ⟨withInputs g id t, skipped⟩ =
      (.ok (), ⟨withInputs g id b.inputs, skipped⟩) := by
  induction segs generalizing t with
  | nil =>
    rw [show t = b.inputs from Table.ext fun k => by simpa using hp k]
    rfl
  | cons s rest ih =>
    rw [List.map_cons, List.nodup_cons] at hn
    have hs := hp s.id
    rw [if_pos (by simp)] at hs
    have hrest (k : String) (hk : s.id ≠ k) : t[k]? =
        if k ∈ rest.map (·.id) then b.inputs[k]?.map (·.map (·.unbound)) else b.inputs[k]? := by
      rw [hp k]
      simp only [List.map_cons, List.mem_cons, hk.symm, false_or]
    obtain ⟨u, hrun, hu⟩ : ∃ u, (loadInputs id s.id (((b.inputs[s.id]?).getD []).map saveInput)).run
        ⟨withInputs g id t, skipped⟩ = (.ok (), ⟨withInputs g id u, skipped⟩) ∧
        Pending b rest u := by
      cases hl : b.inputs[s.id]? with
      | none =>
        rw [hl, Option.map_none] at hs
        refine ⟨t, rfl, fun k => ?_⟩
        by_cases hk : s.id = k
        · rw [← hk, hs, if_neg hn.1, hl]
        · exact hrest k hk
      | some l =>
        rw [hl, Option.map_some] at hs
        have hnodup := hinputs s List.mem_cons_self l hl
        refine ⟨_, loadInputs_run skipped [] hb hnodup hs, fun k => ?_⟩
        rw [Table.getElem?_insert]
        split
        next hk => rw [← hk, if_neg hn.1, hl]; rfl
        next hk => exact hrest k hk
    rw [List.map_cons, loadSegments]
    exact (Load.run_bind_ok hrun _).trans (ih hn.2 (fun s hs => hinputs s (.tail _ hs)) hu)

theorem pending_fresh (hf : b.Filled) (hc : b.definition.Coherent) (id : BlockId) (pos : Point) :
    Pending b b.definition.segments (Block.fresh id b.definition pos).inputs := by
  intro k
  have hnone {c : Block} (hfc : c.Filled) (hdef : c.definition = b.definition)
      (hk : ∀ seg ∈ b.definition.segments, seg.id = k → seg.inputs = []) : c.inputs[k]? = none := by
    by_contra hsome
    obtain ⟨l, hl⟩ := Option.ne_none_iff_exists'.mp hsome
    obtain ⟨seg, hseg, hne, hid⟩ := hfc.segment_of hl
    exact hne (hk seg (hdef ▸ hseg) hid)
  have hfresh := Block.filled_fresh hc id pos
  by_cases hk : ∃ seg ∈ b.definition.segments, seg.id = k ∧ seg.inputs ≠ []
  · obtain ⟨seg, hseg, rfl, hne⟩ := hk
    obtain ⟨l, hl, hdecl⟩ := hf.declared hseg hne
    rw [Block.inputs_fresh hc id pos hseg hne, if_pos (List.mem_map_of_mem hseg), hl, ← hdecl,
      List.map_map]
    rfl
  · have hk : ∀ seg ∈ b.definition.segments, seg.id = k → seg.inputs = [] :=
      fun seg hseg hid => by_contra fun hne => hk ⟨seg, hseg, hid, hne⟩
    rw [hnone hfresh rfl hk, hnone hf rfl hk]
    simp

/-- A new block takes the inputs that were saved. -/
theorem loadSegments_saved (skipped : List Skipped) (hf : b.Filled) (hc : b.definition.Coherent)
    (hb : g.blocks[id]? = some c)
    (hinputs : c.inputs = (Block.fresh id b.definition pos).inputs) :
    (loadSegments id (saveSegments b)).run ⟨g, skipped⟩ =
      (.ok (), ⟨withInputs g id b.inputs, skipped⟩) := by
  have hpending := pending_fresh hf hc id pos
  rw [← hinputs] at hpending
  have hrun := loadSegments_run skipped hb hc.segments_nodup (fun _ _ _ => hf.ids_nodup hc) hpending
  rwa [withInputs_self hb] at hrun

end Document

end SnapBlocks

import SnapBlocks.Proofs.Relink

/-! Making a block keeps the invariant. The block comes as a root without links, and nothing that
was there before rests on it. -/

namespace SnapBlocks

section
variable {d : Definition} (hd : d.Coherent) (id : BlockId) (pos : Point)
include hd

theorem Block.extra_fresh {seg : Segment} (hseg : seg ∈ d.segments) :
    (Block.fresh id d pos).extra[seg.id]? = some 0 := by
  refine Table.getElem?_ofPairs_of_mem (p := (seg.id, 0)) ?_ (List.mem_map_of_mem hseg)
  simpa [List.map_map, Function.comp_def] using hd.segments_nodup

theorem Block.plain_fresh : (Block.fresh id d pos).Plain := by
  refine ⟨fun {k} => ⟨fun hk => ?_, ?_⟩, fun hseg _ => extra_fresh hd id pos hseg⟩
  · obtain ⟨x, hx⟩ := Table.mem_iff.mp hk
    obtain ⟨seg, hseg, he⟩ := List.mem_map.mp (Table.mem_of_getElem?_ofPairs hx)
    exact ⟨seg, hseg, congrArg Prod.fst he⟩
  · rintro ⟨seg, hseg, rfl⟩
    exact Table.mem_iff.mpr ⟨0, extra_fresh hd id pos hseg⟩

theorem Block.inputs_fresh {seg : Segment} (hseg : seg ∈ d.segments) (hne : seg.inputs ≠ []) :
    (Block.fresh id d pos).inputs[seg.id]? =
      some (seg.inputs.map fun i => { declaration := i }) := by
  let new (s : Segment) : String × List InputBinding :=
    (s.id, s.inputs.map fun i => { declaration := i })
  refine Table.getElem?_ofPairs_of_mem (p := new seg) ?_ ?_
  · rw [List.map_map]
    exact hd.segments_nodup.sublist ((List.filter_sublist).map _)
  · exact List.mem_map_of_mem (List.mem_filter.mpr ⟨hseg, by simpa using hne⟩)

theorem Block.filled_fresh : (Block.fresh id d pos).Filled := by
  refine ⟨fun hseg hne => ⟨_, inputs_fresh hd id pos hseg hne, ?_⟩, fun hk => ?_⟩
  · simp [Function.comp_def]
  · obtain ⟨seg, hseg, he⟩ := List.mem_map.mp (Table.mem_of_getElem?_ofPairs hk)
    obtain ⟨hseg, hne⟩ := List.mem_filter.mp hseg
    exact ⟨seg, hseg, by simpa using hne, congrArg Prod.fst he⟩

end

namespace Graph

variable {ok : Definition → Prop} {g : Graph} {b : Block} {id y : BlockId} {i : SnapId}
variable {p : SnapPoint}

/-- A graph with a new block, laid out. -/
def withNew (g : Graph) (b : Block) : Graph := (g.addBlock b).placeBlock b

theorem shape_withNew (b : Block) : (g.withNew b).shape = (g.addBlock b).shape :=
  shape_placeBlock b

theorem layout_withNew (b : Block) : (g.withNew b).layout = g.layout := by
  rw [withNew, layout_placeBlock, layout_addBlock]

theorem getElem?_blocks_withNew (i : BlockId) :
    (g.withNew b).blocks[i]? =
      if b.id = i then
        some { b with height := (g.layout.place b.definition b.extra).height }
      else g.blocks[i]? := by
  rw [withNew, getElem?_blocks_placeBlock, getElem?_blocks_addBlock, layout_addBlock]
  split <;> rfl

/-- A new block has free ends. -/
theorem snap_withNew {s : Slot} (hs : s ∈ b.definition.slots) :
    ∃ p, (g.withNew b).snaps[s.snapId b.id]? = some p ∧ p.next = none := by
  obtain ⟨p, hp, hpq⟩ := exists_snap_of_view (shape_withNew b).symm
    (getElem?_snaps_addBlock_of_mem (g := g) hs)
  exact ⟨p, hp, (SnapPoint.eq_of_unplaced hpq).2.2.symm⟩

section
variable (hb : g.blocks[b.id]? = none)
include hb

theorem Stocked.snaps_withNew (H : g.Stocked) (hp : g.snaps[i]? = some p) :
    (g.withNew b).snaps[i]? = some p := by
  have hno := H.notMem_of_fresh hb hp
  rw [withNew, getElem?_snaps_placeBlock_of_notMem hno, getElem?_snaps_addBlock_of_notMem hno, hp]

theorem kept_withNew (H : g.Stocked) (hy : y ∈ g.blocks) : Kept g (g.withNew b) y where
  block {c} hc := by
    have hne : b.id ≠ y := by
      rintro rfl
      cases hb.symm.trans hc
    exact ⟨c, by rw [getElem?_blocks_withNew, if_neg hne, hc], rfl⟩
  next _ _ hp := ⟨_, H.snaps_withNew hb hp, rfl⟩

theorem Kempt.withNew (K : g.Kempt) (H : g.Stocked) (hplain : b.Plain) :
    (g.withNew b).Kempt := by
  refine ⟨fun {i c} hc => ?_, fun {i c} hc => ?_⟩
  · rw [getElem?_blocks_withNew] at hc
    split at hc
    · cases hc
      exact hplain.congr rfl rfl
    · exact K.plain hc
  · rw [getElem?_blocks_withNew] at hc
    split at hc
    · cases hc
      rw [Graph.withNew, ← layout_addBlock (g := g) (b := b)]
      refine laid_placeBlock fun i hi => ?_
      obtain ⟨s, hs, rfl⟩ := Block.mem_snapPoints.mp hi
      exact ⟨_, getElem?_snaps_addBlock_of_mem hs⟩
    · refine laid_congr (layout_withNew b).symm (fun i hi => ?_) (K.laid hc)
      obtain ⟨p, hp, _⟩ := H.snap_of_mem hc hi
      rw [hp, H.snaps_withNew hb hp]

theorem Base.withNew (B : g.Base ok) (hc : b.definition.Coherent) (hok : ok b.definition)
    (hroot : b.placement.anchor = none) (hplain : b.Plain) (hfilled : b.Filled) :
    (g.withNew b).Base ok where
  toForest := (B.toForest.addBlock hb hc).of_wires (wires_of_shape (shape_withNew b).symm)
  defined {i c} hi := by
    rw [getElem?_blocks_withNew] at hi
    split at hi
    · cases hi
      exact hok
    · exact B.defined hi
  seated := (B.seated.addBlock B.toWired hb hroot).of_shape (shape_withNew b).symm
  kempt := B.kempt.withNew hb B.toStocked hplain
  filled {i c} hi := by
    rw [getElem?_blocks_withNew] at hi
    split at hi
    · cases hi
      exact hfilled.congr rfl rfl
    · exact B.filled hi

end

/-- A new block is the only one of its chain. -/
theorem chainOf_withNew (b : Block) : (g.withNew b).ChainOf b.id [b.id] := by
  refine .last (primaryNext_eq_none.mpr ⟨_, by rw [getElem?_blocks_withNew, if_pos rfl],
    fun n hn => ?_⟩)
  obtain ⟨s, hs, rfl⟩ := Option.map_eq_some_iff.mp hn
  exact snap_withNew (b := b) (Definition.slot?_eq_some hs).1

/-- The caches of a new block and of the old ones are right. -/
theorem Sound.withNew (S : g.Sound ok) (hb : g.blocks[b.id]? = none)
    (B : (g.withNew b).Base ok) (hdeepest : b.deepest = b.id)
    (hextra : ∀ seg ∈ b.definition.segments, b.extra[seg.id]? = some 0) :
    (g.withNew b).Sound ok := by
  have hold {x} (hx : x ∈ g.blocks) : (g.withNew b).Tailed x ∧ (g.withNew b).Stretched x :=
    S.of_kept B.toForest hx fun y hy => kept_withNew hb S.toStocked (hy.mem_blocks_of_up hx)
  refine { B with tailed := fun {x} hx => ?_, stretched := fun x c hc => ?_ }
  · obtain ⟨c, hc⟩ := Table.mem_iff.mp hx
    have hc' := hc
    rw [getElem?_blocks_withNew] at hc'
    split at hc'
    next he =>
      subst he
      cases hc'
      exact ⟨_, hc, by rw [B.chainTail_eq (chainOf_withNew b)]; exact congrArg _ hdeepest.symm⟩
    next => exact (hold (Table.mem_iff.mpr ⟨c, hc'⟩)).1
  · have hc' := hc
    rw [getElem?_blocks_withNew] at hc'
    split at hc'
    next he =>
      subst he
      cases hc'
      intro s hs _
      obtain ⟨p, hp, hnone⟩ := snap_withNew (g := g) (b := b) hs
      obtain ⟨seg, hseg, hsid⟩ := Definition.segment_of_mem_slots hs
      exact ⟨p, 0, hp, by rw [hnone]; rfl, hsid ▸ hextra seg hseg⟩
    next => exact (hold (Table.mem_iff.mpr ⟨c, hc'⟩)).2 c hc

/-- A block is made of whatever definition, and laid out. -/
theorem insertDefinition_run (id : BlockId) (d : Definition) (pos : Point) (g : Graph) :
    (insertDefinition id d pos).run g = (.ok id, g.withNew (.fresh id d pos)) := by
  have hget : (g.addBlock (.fresh id d pos)).blocks[id]? = some (.fresh id d pos) := by
    rw [getElem?_blocks_addBlock]
    exact if_pos rfl
  unfold insertDefinition
  rw [Edit.run_bind_ok (Edit.run_change _), Edit.run_bind_ok (relayout_run hget), Edit.run_pure]
  rfl

/-- **Making a block.** It comes as a root without links, with all of its caches right. -/
theorem Sound.withFresh (S : g.Sound ok) (hid : g.blocks[id]? = none) {d : Definition}
    (hok : ok d) (hd : d.Coherent) (pos : Point) : (g.withNew (.fresh id d pos)).Sound ok := by
  have B : (g.withNew (.fresh id d pos)).Base ok :=
    S.toBase.withNew hid hd hok rfl (Block.plain_fresh hd id pos) (Block.filled_fresh hd id pos)
  exact S.withNew hid B rfl fun seg hseg => Block.extra_fresh hd id pos hseg

theorem Sound.insert_run (S : g.Sound ok) (hid : g.blocks[id]? = none) {d : Definition}
    (hok : ok d) (hd : d.Coherent) (pos : Point) :
    ∃ h, (insertDefinition id d pos).run g = (.ok id, h) ∧ h.Sound ok ∧
      h.shape = (g.addBlock (.fresh id d pos)).shape :=
  ⟨g.withNew (.fresh id d pos), insertDefinition_run id d pos g, S.withFresh hid hok hd pos,
    shape_withNew _⟩

end Graph

end SnapBlocks

import SnapBlocks.Proofs.Integrity

/-! Links in every session. A load makes blocks and links like a session does, so the links are
whole in every graph that operations reach from nothing or from a document, whatever the
definitions of the blocks are. -/

namespace SnapBlocks

namespace Document

open SnapBlocks.Graph

variable {l : Loading} {g : Graph}

/-! ## Loads -/

/-- The blocks of a document are all made, whatever their definitions are. What the making of a
block and changes of inputs keep, a load of blocks keeps. -/
theorem loadBlocks_makes {P : Graph → Prop} (ok : Definition → Prop)
    (hnew : ∀ g id d pos, ok d → g.blocks[id]? = none → P g → P (g.withNew (.fresh id d pos)))
    (hinput : ∀ id seg input u g, P g → P ((updateInput id seg input u).run g).2)
    (saved : List (BlockId × SavedBlock)) (hn : (saved.map (·.1)).Nodup)
    (hfresh : ∀ p ∈ saved, l.graph.blocks[p.1]? = none)
    (hok : ∀ p ∈ saved, ok p.2.definition) (hl : P l.graph) :
    ∃ m, (loadBlocks saved).run l = (.ok (), m) ∧ P m.graph ∧
      ∀ id, id ∈ m.graph.blocks ↔ id ∈ l.graph.blocks ∨ id ∈ saved.map (·.1) := by
  induction saved generalizing l with
  | nil => exact ⟨l, rfl, hl, by simp⟩
  | cons p rest ih =>
    obtain ⟨id, b⟩ := p
    let new := Block.fresh id b.definition b.position
    have hid := hfresh (id, b) List.mem_cons_self
    have hmade : P (l.graph.withNew new) := hnew _ _ _ _ (hok (id, b) List.mem_cons_self) hid hl
    obtain ⟨m₁, hrun₁, h₁, hw₁⟩ := loadSegments_keeps (l := { l with graph := l.graph.withNew new })
      (P := fun g => P g ∧ g.wires = (l.graph.addBlock new).wires)
      (fun _ _ _ g hg => ⟨hinput id _ _ _ g hg.1, (changeInput_fixes_wires g).trans hg.2⟩)
      b.segments ⟨hmade, wires_of_shape (shape_withNew new)⟩
    have hmem (x : BlockId) : x ∈ m₁.graph.blocks ↔ id = x ∨ x ∈ l.graph.blocks :=
      (mem_blocks_of_view hw₁).trans mem_blocks_addBlock
    rw [List.map_cons, List.nodup_cons] at hn
    have hfresh₁ : ∀ q ∈ rest, m₁.graph.blocks[q.1]? = none := by
      intro q hq
      by_contra hsome
      rcases (hmem q.1).mp (Table.mem_iff.mpr (Option.ne_none_iff_exists'.mp hsome)) with he | hold
      · exact hn.1 (List.mem_map.mpr ⟨q, hq, he.symm⟩)
      · obtain ⟨c, hc⟩ := Table.mem_iff.mp hold
        cases hc.symm.trans (hfresh q (.tail _ hq))
    obtain ⟨m, hrun, hm, hmem'⟩ := ih hn.2 hfresh₁ (fun q hq => hok q (.tail _ hq)) h₁
    refine ⟨m, ?_, hm, fun x => ?_⟩
    · unfold loadBlocks
      rw [Load.run_bind_ok (by rw [Load.run_onGraph, insertDefinition_run]),
        Load.run_bind_ok hrun₁, hrun]
    · rw [hmem', hmem, List.map_cons, List.mem_cons, eq_comm (a := id)]
      tauto

/-- What the wires of a graph tell, and what is kept when a block is added, a load of blocks
keeps. -/
theorem loadBlocks_keeps {P : Graph → Prop} (ok : Definition → Prop)
    (hwires : ∀ g h, g.wires = h.wires → P g → P h)
    (hadd : ∀ g id d pos, ok d → g.blocks[id]? = none → P g → P (g.addBlock (.fresh id d pos)))
    (saved : List (BlockId × SavedBlock)) (hn : (saved.map (·.1)).Nodup)
    (hfresh : ∀ p ∈ saved, l.graph.blocks[p.1]? = none)
    (hok : ∀ p ∈ saved, ok p.2.definition) (hl : P l.graph) :
    ∃ m, (loadBlocks saved).run l = (.ok (), m) ∧ P m.graph ∧
      ∀ id, id ∈ m.graph.blocks ↔ id ∈ l.graph.blocks ∨ id ∈ saved.map (·.1) := by
  refine loadBlocks_makes ok (fun g id d pos hd hid hg => ?_) (fun id seg input u g hg => ?_)
    saved hn hfresh hok hl
  · exact hwires _ _ (wires_of_shape (shape_withNew _)).symm (hadd g id d pos hd hid hg)
  · exact hwires _ _ (changeInput_fixes_wires g).symm hg

theorem loadLinks_wired (H : l.graph.Wired) (links : List (SnapId × SavedLink)) :
    ((loadLinks links).run l).2.graph.Wired :=
  loadLinks_keeps (fun _ _ _ hr Hg => Hg.attach hr) links H

/-- Putting back offsets moves blocks and changes nothing else. -/
theorem loadOffsets_wires (saved : List (BlockId × SavedBlock)) (l : Loading) :
    ((loadOffsets saved).run l).2.graph.wires = l.graph.wires :=
  loadOffsets_keeps (P := fun g => g.wires = l.graph.wires)
    (fun _ _ _ _ _ _ hg _ _ => wires_setPlacement.trans hg) saved rfl

/-- **A load leaves whole links.** -/
theorem toGraph_wired {d : Document} {catalog : Catalog} {config : GraphConfig}
    {skipped : List Skipped} (h : d.toGraph catalog config = (.ok g, skipped)) : g.Wired := by
  obtain ⟨m, hrun, Hm, _⟩ := loadBlocks_keeps (l := ⟨.empty catalog config, []⟩)
    (P := Graph.Wired) (fun _ => True) (fun _ _ he H => H.of_wires he)
    (fun _ _ _ _ _ hid H => H.addBlock hid) d.blocks.toList Table.toList_keys_nodup
    (fun _ _ => Std.ExtTreeMap.getElem?_empty) (fun _ _ => trivial) (wired_empty _ _ _)
  have hleaves : (d.load.run ⟨.empty catalog config, []⟩).2.graph.Wired := by
    unfold load
    rw [Load.run_bind_ok hrun]
    have hlinks := loadLinks_wired Hm d.notches.toList
    refine Load.leaves_bind (P := fun m => m.graph.Wired) hlinks fun _ m' hm => ?_
    rw [hm] at hlinks
    exact hlinks.of_wires (loadOffsets_wires _ m').symm
  exact graph_of_toGraph h ▸ hleaves

end Document

namespace Graph

variable {ok : Definition → Prop} {g : Graph}

/-! ## Sessions -/

/-- **Intact links.** What the tables and registries of a graph say of its links agrees. -/
structure Intact (g : Graph) : Prop where
  /-- A snap point holds another just if that one hangs from it; so neither end is missing. -/
  next_iff_previous {n d : SnapId} : (∃ p, g.snaps[n]? = some p ∧ p.next = some d) ↔
    ∃ q, g.snaps[d]? = some q ∧ q.previous = some n
  notch_of_next {n d : SnapId} {p : SnapPoint} : g.snaps[n]? = some p → p.next = some d →
    p.kind.isNotch
  divot_of_previous {n d : SnapId} {q : SnapPoint} : g.snaps[d]? = some q →
    q.previous = some n → q.kind.isDivot
  block_ne {n d : SnapId} {p q : SnapPoint} : g.snaps[n]? = some p → p.next = some d →
    g.snaps[d]? = some q → p.block ≠ q.block
  /-- The snap points of a block exist and name it. -/
  owner_of_mem {id : BlockId} {b : Block} {i : SnapId} : g.blocks[id]? = some b →
    i ∈ b.snapPoints → ∃ p, g.snaps[i]? = some p ∧ p.block = id
  /-- The block of a snap point exists and lists it. -/
  mem_of_owner {i : SnapId} {p : SnapPoint} : g.snaps[i]? = some p →
    ∃ b, g.blocks[p.block]? = some b ∧ i ∈ b.snapPoints
  mem_notches {i : SnapId} : i ∈ g.notches ↔
    ∃ p, g.snaps[i]? = some p ∧ p.block ∈ g.blocks ∧ p.kind.isNotch
  mem_divots {i : SnapId} : i ∈ g.divots ↔
    ∃ p, g.snaps[i]? = some p ∧ p.block ∈ g.blocks ∧ p.kind.isDivot

/-- Every snap point is one of a block that exists. -/
theorem Stocked.exists_snap_iff (H : g.Stocked) {i : SnapId} {P : SnapPoint → Prop} :
    (∃ p, g.snaps[i]? = some p ∧ P p) ↔ ∃ p, g.snaps[i]? = some p ∧ p.block ∈ g.blocks ∧ P p := by
  refine exists_congr fun p => and_congr_right fun hp => ?_
  exact (and_iff_right (H.block_mem hp)).symm

theorem Wired.whole (H : g.Wired) : g.Intact where
  next_iff_previous := H.linked_iff
  notch_of_next := H.isNotch
  divot_of_previous hq hn := SnapKind.isDivot_iff.mpr (H.isDivot hq hn)
  block_ne := H.block_ne
  owner_of_mem hb hi := H.snap_of_mem hb hi
  mem_of_owner hp := by
    obtain ⟨b, hb⟩ := H.exists_block hp
    exact ⟨b, hb, H.mem_snapPoints hp hb⟩
  mem_notches := H.toStocked.mem_notches.trans H.exists_snap_iff
  mem_divots := H.toStocked.mem_divots.trans H.exists_snap_iff

/-- **Links are whole throughout every session**, whatever the definitions are: after every
operation, be it carried out, rejected or broken off by an error. -/
theorem Reachable.intact (hg : Reachable ok g) : g.Intact := by
  apply Wired.whole
  cases hg with
  | start catalog config layout hr =>
    exact (wired_empty catalog config layout).reaches hr
  | loaded d catalog config skipped hd hload hr =>
    exact (Document.toGraph_wired hload).reaches hr

/-! ## A session with errors -/

/-- A definition with two divots, one more than a block hangs by. -/
def doubled : Definition where
  name := "doubled"
  segments := [
    { id := "head", name := "head", kind := .header, divot := true },
    { id := "foot", name := "foot", kind := .footer, divot := true, notch := true }]
  style := { color := "#000000" }

/-- Two such blocks, the second of which hangs from the first. -/
def coupled : Graph :=
  let g := (Operation.insertDefinition "a" doubled .origin).apply (empty ∅ { snapRadius := 1000 })
  let g := (Operation.insertDefinition "b" doubled .origin).apply g
  (Operation.connect "notch-1-a" "divot-0-b").apply g

/-- The first hangs from the second as well. Their chain has no end, so that the refresh of the
caches broke off, behind the link. -/
def coiled : Graph := (Operation.connect "notch-1-b" "divot-0-a").apply coupled

/-- The removal of a block broke off when it had cut the first of its links. -/
def uncoiled : Graph := (Operation.remove "a").apply coiled

theorem reachable_uncoiled : Reachable (fun _ => True) uncoiled := by
  unfold uncoiled coiled coupled
  refine .start ∅ { snapRadius := 1000 } .stacked ?_
  refine .step _ (.step _ (.step _ (.step _ (.step _ (.refl _) ?_ ?_) ?_ ?_) nofun nofun) nofun
    nofun) nofun nofun
  · rintro _ _ ⟨⟩
    decide
  · exact fun _ _ _ => trivial
  · rintro _ _ ⟨⟩
    decide +kernel
  · exact fun _ _ _ => trivial

theorem intact_uncoiled :
    ((Operation.connect "notch-1-b" "divot-0-a").perform.run coupled).1.isOk = false ∧
      ((Operation.remove "a").perform.run coiled).1.isOk = false ∧
      (uncoiled.snaps["notch-1-a"]?.bind (·.next)) = some "divot-0-b" ∧
      (uncoiled.snaps["notch-1-b"]?.bind (·.next)) = none ∧ uncoiled.Intact := by
  refine ⟨by decide +kernel, by decide +kernel, by decide +kernel, by decide +kernel, ?_⟩
  exact Reachable.intact reachable_uncoiled

end Graph

end SnapBlocks

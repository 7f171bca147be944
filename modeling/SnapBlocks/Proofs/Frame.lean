import SnapBlocks.Proofs.Loading

/-! What the operations leave alone. Most of them change blocks and snap points that are there,
and nothing else: `Graph.frame` is all the rest of a graph, with the settings, the registries and
the drag. Only making and removing a block changes the registries, and only dragging and removing
one the drag. -/

namespace SnapBlocks

namespace Graph

variable {g : Graph}

/-- A graph apart from its tables of blocks and snap points. -/
def frame (g : Graph) : Graph := { g with blocks := ∅, snaps := ∅ }

section

variable {h : Graph} (heq : h.frame = g.frame)
include heq

theorem notches_of_frame : h.notches = g.notches := (congrArg notches heq :)

theorem divots_of_frame : h.divots = g.divots := (congrArg divots heq :)

theorem drag_of_frame : h.drag = g.drag := (congrArg drag heq :)

end

theorem frame_setPositions (l : List (SnapId × Point)) : (g.setPositions l).frame = g.frame := by
  induction l generalizing g with
  | nil => rfl
  | cons p rest ih =>
    obtain ⟨i, pos⟩ := p
    exact ih (g := g.modifySnap i fun p => { p with position := pos })

theorem frame_placeBlock (b : Block) : (g.placeBlock b).frame = g.frame :=
  frame_setPositions (b.snapPoints.zip (g.layout.place b.definition b.extra).positions)

/-- No operation that only changes blocks and snap points shows in the frame. -/
theorem frame_hides : HidesLinks frame where
  tail _ _ _ := rfl
  extra _ _ _ _ := rfl
  placed _ b := frame_placeBlock b
  placement _ _ _ := rfl
  next _ _ _ := rfl
  previous _ _ _ := rfl

theorem changeInput_fixes_frame {id : BlockId} {seg input : String}
    {f : InputBinding → InputBinding} : (changeInput id seg input f).Fixes frame :=
  changeInput_fixes fun _ => rfl

/-! ## All operations -/

/-- A relation that allows whatever operations write holds between a graph and the graph that an
operation leaves. -/
theorem AllowsLinks.apply {R : Graph → Graph → Prop} (hR : AllowsLinks R)
    (hdrag : ∀ (g : Graph) (x : Drag), R g { g with drag := x })
    (hinput : ∀ (g : Graph) id seg input f, R g (g.modifyBlock id (·.modifyInput seg input f)))
    (hdrop : ∀ (g : Graph) ids id, R g ((g.dropSnaps ids).dropBlock id)) (op : Operation)
    (hnew : ∀ id d pos, op.creates g = some (id, d) → R g (g.withNew (.fresh id d pos))) :
    R g (op.apply g) := by
  have answered {α : Type} {e : Edit α} (he : e.Obeys R) :
      (do let _ ← e : Edit Unit).Obeys R := hR.bind he fun _ => hR.pure ()
  cases op with
  | insert id name pos =>
    rcases apply_insert g id name pos with ⟨_, hsame⟩ | ⟨d, hc, hmade⟩
    · rw [hsame]
      exact hR.refl g
    · rw [hmade]
      exact hnew id d pos hc
  | insertDefinition id d pos =>
    rw [apply_insertDefinition]
    exact hnew id d pos rfl
  | remove id => exact hR.remove hdrop id g
  | move id pos => exact hR.moveBlock id pos g
  | connect n d => exact answered (hR.connect n d) g
  | disconnect d => exact answered (hR.disconnect d) g
  | dragMove id pos => exact answered (hR.dragMove hdrag id pos) g
  | dragEnd id => exact answered (hR.dragEnd hdrag id) g
  | updateInput id seg input u =>
    exact answered (hR.changeInput fun g => hinput g id seg input _) g
  | resetInput id seg input => exact answered (hR.changeInput fun g => hinput g id seg input _) g
  | adjustHeight id => exact answered (hR.adjustHeight id) g
  | calculateDeepest id => exact answered (hR.calculateDeepest id) g

theorem layout_hides : HidesLinks layout where
  tail _ _ _ := rfl
  extra _ _ _ _ := rfl
  placed _ b := layout_placeBlock b
  placement _ _ _ := rfl
  next _ _ _ := rfl
  previous _ _ _ := rfl

/-- The layout of a session stays the same. -/
theorem layout_apply (op : Operation) : (op.apply g).layout = g.layout :=
  layout_hides.allows.apply (fun _ _ => rfl) (fun _ _ _ _ _ => rfl) (fun _ _ _ => rfl) op
    fun _ _ _ _ => layout_withNew _

end Graph

/-! ## Loads -/

namespace Document

open SnapBlocks.Graph

variable {l : Loading} {g : Graph} {id : BlockId}

theorem loadLinks_drag (links : List (SnapId × SavedLink)) :
    ((loadLinks links).run l).2.graph.drag = l.graph.drag :=
  loadLinks_keeps (P := fun g => g.drag = l.graph.drag)
    (fun g n d _ hg => (drag_of_frame (frame_hides.attach n d g)).trans hg) links rfl

theorem loadBlocks_drag (saved : List (BlockId × SavedBlock)) :
    ((loadBlocks saved).run l).2.graph.drag = l.graph.drag := by
  induction saved generalizing l with
  | nil => rfl
  | cons p rest ih =>
    obtain ⟨id, b⟩ := p
    obtain ⟨m, hrun, hm⟩ := loadSegments_keeps
      (l := { l with graph := l.graph.withNew (.fresh id b.definition b.position) })
      (P := fun g => g.drag = l.graph.drag)
      (fun _ _ _ g hg => (drag_of_frame (@changeInput_fixes_frame id _ _ _ g)).trans hg) b.segments
      ((drag_of_frame (frame_placeBlock _)).trans drag_addBlock)
    rw [loadBlocks, Load.run_bind_ok (by rw [Load.run_onGraph, insertDefinition_run]),
      Load.run_bind_ok hrun]
    exact ih.trans hm

/-- **Nothing is dragged in a graph that was just loaded.** -/
theorem toGraph_drag {d : Document} {catalog : Catalog} {config : GraphConfig}
    {skipped : List Skipped} (h : d.toGraph catalog config = (.ok g, skipped)) : g.drag = {} := by
  have hleaves : (d.load.run ⟨.empty catalog config, []⟩).2.graph.drag = {} := by
    unfold load
    refine Load.leaves_bind (P := fun m => m.graph.drag = {}) (loadBlocks_drag _) fun _ l hl => ?_
    have hblocks := loadBlocks_drag (l := ⟨.empty catalog config, []⟩) d.blocks.toList
    rw [hl] at hblocks
    refine Load.leaves_bind (P := fun m => m.graph.drag = {}) ((loadLinks_drag _).trans hblocks)
      fun _ m hm => ?_
    have hlinks := loadLinks_drag (l := l) d.notches.toList
    rw [hm] at hlinks
    exact loadOffsets_keeps (P := fun g => g.drag = {}) (fun _ _ _ _ _ _ hg _ _ => hg) _
      (hlinks.trans hblocks)
  exact graph_of_toGraph h ▸ hleaves

end Document

end SnapBlocks

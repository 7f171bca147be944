import SnapBlocks.Document.Restore
import SnapBlocks.Proofs.Session

/-! Loading keeps the invariant: a load makes blocks under the keys of the document, links what
nothing speaks against, and moves blocks that stay with their notches. So the invariant holds of
every graph that a session reaches, from nothing or from a document. -/

namespace SnapBlocks

namespace Document

/-- Run a step of a load: what it answers, and how far the graph is loaded then. -/
def Load.run (e : Load α) (l : Loading) : Except GraphError α × Loading :=
  StateT.run (ExceptT.run e) l

namespace Load

variable {α β : Type} {l m : Loading} {P : Loading → Prop}

@[simp] theorem run_get : (get : Load Loading).run l = (.ok l, l) := rfl

@[simp] theorem run_modify (f : Loading → Loading) :
    (modify f : Load Unit).run l = (.ok (), f l) := rfl

theorem run_bind (e : Load α) (f : α → Load β) :
    (e >>= f).run l =
      match e.run l with
      | (.ok a, m) => (f a).run m
      | (.error x, m) => (.error x, m) := by
  unfold run
  rw [run_bind_state]
  rcases StateT.run (ExceptT.run e) l with ⟨_ | a, m⟩ <;> rfl

theorem run_bind_ok {e : Load α} {a : α} (he : e.run l = (.ok a, m)) (f : α → Load β) :
    (e >>= f).run l = (f a).run m := by
  rw [run_bind, he]

theorem run_bind_error {e : Load α} {x : GraphError} (he : e.run l = (.error x, m))
    (f : α → Load β) : (e >>= f).run l = (.error x, m) := by
  rw [run_bind, he]

/-- What a load leaves, if its first step leaves as much. -/
theorem leaves_bind {e : Load α} {k : α → Load β} (he : P (e.run l).2)
    (hk : ∀ a m, e.run l = (.ok a, m) → P ((k a).run m).2) : P ((e >>= k).run l).2 := by
  rcases hr : e.run l with ⟨x | a, m⟩
  · rw [run_bind_error hr]
    rw [hr] at he
    exact he
  · rw [run_bind_ok hr]
    exact hk a m hr

@[simp] theorem run_onGraph (e : Edit α) :
    (onGraph e).run l = ((e.run l.graph).1, { l with graph := (e.run l.graph).2 }) := by
  unfold onGraph
  rw [run_bind_ok run_get]
  rcases e.run l.graph with ⟨_ | a, h⟩ <;> rfl

end Load

open SnapBlocks.Graph

variable {ok : Definition → Prop} {l m : Loading} {g g' : Graph} {id : BlockId}

/-! ## Blocks -/

theorem changeInput_fixes_wires {seg input : String} {f : InputBinding → InputBinding} :
    (changeInput id seg input f).Fixes wires :=
  changeInput_fixes fun g => view_modifyBlock (by intro _; rfl) g id

/-- A load goes on when an input cannot be put back. -/
theorem loadInputs_cons (id : BlockId) (seg : String) (i : SavedInput) (rest : List SavedInput) :
    ∃ skipped, (loadInputs id seg (i :: rest)).run l = (loadInputs id seg rest).run
      ⟨((updateInput id seg i.id (SavedInput.update i)).run l.graph).2, skipped⟩ ∧
        (∀ a, ((updateInput id seg i.id (SavedInput.update i)).run l.graph).1 = .ok a →
          skipped = l.skipped) ∧
        ∀ e, ((updateInput id seg i.id (SavedInput.update i)).run l.graph).1 = .error e →
          skipped = l.skipped ++ [.input e] := by
  rw [loadInputs, Load.run_bind_ok Load.run_get]
  rcases hr : (updateInput id seg i.id (SavedInput.update i)).run l.graph with ⟨e | a, g⟩
  · exact ⟨l.skipped ++ [.input e], rfl, by simp, by simp⟩
  · exact ⟨l.skipped, rfl, fun _ _ => rfl, by simp⟩

section
variable {P : Graph → Prop}
variable (hP : ∀ seg input u g, P g → P ((updateInput id seg input u).run g).2)
include hP

/-- A load of inputs goes through, and keeps what every update of an input keeps. -/
theorem loadInputs_keeps (seg : String) (saved : List SavedInput) (hl : P l.graph) :
    ∃ m, (loadInputs id seg saved).run l = (.ok (), m) ∧ P m.graph := by
  induction saved generalizing l with
  | nil => exact ⟨l, rfl, hl⟩
  | cons i rest ih =>
    obtain ⟨skipped, hrun, _⟩ := loadInputs_cons (l := l) id seg i rest
    obtain ⟨m, hm, hPm⟩ := ih (l := ⟨_, skipped⟩) (hP seg i.id (SavedInput.update i) _ hl)
    exact ⟨m, hrun.trans hm, hPm⟩

theorem loadSegments_keeps (saved : List SavedSegment) (hl : P l.graph) :
    ∃ m, (loadSegments id saved).run l = (.ok (), m) ∧ P m.graph := by
  induction saved generalizing l with
  | nil => exact ⟨l, rfl, hl⟩
  | cons s rest ih =>
    obtain ⟨m₁, hrun₁, h₁⟩ := loadInputs_keeps hP s.id s.inputs hl
    obtain ⟨m, hrun, hm⟩ := ih h₁
    unfold loadSegments
    exact ⟨m, (Load.run_bind_ok hrun₁ _).trans hrun, hm⟩

end

theorem loadSegments_sound (S : l.graph.Sound ok) (id : BlockId) (saved : List SavedSegment) :
    ∃ m, (loadSegments id saved).run l = (.ok (), m) ∧ m.graph.Sound ok ∧
      m.graph.wires = l.graph.wires := by
  refine loadSegments_keeps (P := fun g => g.Sound ok ∧ g.wires = l.graph.wires) ?_ saved ⟨S, rfl⟩
  intro seg input u g ⟨hs, hw⟩
  exact ⟨hs.changeInput fun _ => rfl, (changeInput_fixes_wires g).trans hw⟩

/-- The blocks of a document are made under fresh ids. -/
theorem loadBlocks_sound (S : l.graph.Sound ok) (hcoherent : ∀ d, ok d → d.Coherent)
    (saved : List (BlockId × SavedBlock))
    (hn : (saved.map (·.1)).Nodup) (hfresh : ∀ p ∈ saved, l.graph.blocks[p.1]? = none)
    (hok : ∀ p ∈ saved, ok p.2.definition) :
    ∃ m, (loadBlocks saved).run l = (.ok (), m) ∧ m.graph.Sound ok ∧
      m.graph.layout = l.graph.layout := by
  induction saved generalizing l with
  | nil => exact ⟨l, rfl, S, rfl⟩
  | cons p rest ih =>
    obtain ⟨id, b⟩ := p
    obtain ⟨g₁, hrun₁, S₁, hshape⟩ := S.insert_run (hfresh (id, b) List.mem_cons_self)
      (hok (id, b) List.mem_cons_self) (hcoherent _ (hok (id, b) List.mem_cons_self)) b.position
    obtain ⟨m₂, hrun₂, S₂, hw₂⟩ := loadSegments_sound (l := { l with graph := g₁ }) S₁ id
      b.segments
    rw [List.map_cons, List.nodup_cons] at hn
    have hfresh' : ∀ q ∈ rest, m₂.graph.blocks[q.1]? = none := by
      intro q hq
      by_contra hsome
      have hmem : q.1 ∈ m₂.graph.blocks := Table.mem_iff.mpr (Option.ne_none_iff_exists'.mp hsome)
      have hmem := (mem_blocks_of_view hshape).mp ((mem_blocks_of_view hw₂).mp hmem)
      rcases mem_blocks_addBlock.mp hmem with he | hmem
      · exact hn.1 (List.mem_map.mpr ⟨q, hq, he.symm⟩)
      · obtain ⟨c, hc⟩ := Table.mem_iff.mp hmem
        rw [hfresh q (.tail _ hq)] at hc
        cases hc
    obtain ⟨m, hrun, Sm, hlayout⟩ := ih S₂ hn.2 hfresh' fun q hq => hok q (.tail _ hq)
    refine ⟨m, ?_, Sm, ?_⟩
    · unfold loadBlocks
      rw [Load.run_bind_ok (by rw [Load.run_onGraph, hrun₁]), Load.run_bind_ok hrun₂, hrun]
    · rw [hlayout, layout_eq_of_view hw₂]
      exact (layout_eq_of_view hshape).trans layout_addBlock

/-! ## Links and offsets -/

/-- What a load does about one link: it skips the link, or makes it, or fails. -/
theorem loadLinks_cons (n : SnapId) (link : SavedLink) (rest : List (SnapId × SavedLink)) :
    (loadLinks ((n, link) :: rest)).run l =
      if l.graph.isNotch n && l.graph.isDivot link.divotId then
        match l.graph.linkRejection n link.divotId with
        | .error x => (.error x, l)
        | .ok (some r) => (loadLinks rest).run (l.note (.link n link.divotId r))
        | .ok none =>
          match (attach n link.divotId).run l.graph with
          | (.error x, h) => (.error x, { l with graph := h })
          | (.ok _, h) => (loadLinks rest).run { l with graph := h }
      else (loadLinks rest).run (l.note (.unknownSnap n link.divotId)) := by
  rw [loadLinks, Load.run_bind_ok Load.run_get]
  dsimp only
  split
  · rw [Load.run_bind, Load.run_onGraph, Edit.run_ask]
    rcases l.graph.linkRejection n link.divotId with x | _ | r <;> dsimp only
    · rw [Load.run_bind, Load.run_onGraph]
      rcases (attach n link.divotId).run l.graph with ⟨x | c, h⟩ <;> rfl
    · rw [Load.run_bind_ok (Load.run_modify _)]
  · rw [Load.run_bind_ok (Load.run_modify _)]

/-- What the links that pass the check keep, a load of links keeps. -/
theorem loadLinks_keeps {P : Graph → Prop}
    (hP : ∀ g n d, g.linkRejection n d = .ok none → P g → P ((attach n d).run g).2)
    (links : List (SnapId × SavedLink)) (hl : P l.graph) :
    P ((loadLinks links).run l).2.graph := by
  induction links generalizing l with
  | nil => exact hl
  | cons p rest ih =>
    obtain ⟨n, link⟩ := p
    rw [loadLinks_cons]
    split
    · split
      · exact hl
      · exact ih hl
      next hr =>
        have ha := hP _ n link.divotId hr hl
        rcases hrun : (attach n link.divotId).run l.graph with ⟨x | c, h⟩ <;> rw [hrun] at ha
        · exact ha
        · exact ih (l := { l with graph := h }) ha
    · exact ih hl

theorem loadLinks_sound (S : l.graph.Sound ok) (links : List (SnapId × SavedLink)) :
    ((loadLinks links).run l).2.graph.Sound ok ∧
      ((loadLinks links).run l).2.graph.layout = l.graph.layout := by
  refine loadLinks_keeps (P := fun g => g.Sound ok ∧ g.layout = l.graph.layout) ?_ links ⟨S, rfl⟩
  rintro g n d hr ⟨hg, hlayout⟩
  obtain ⟨p, q, hp, hq⟩ := exists_snaps_of_linkRejection hr
  obtain ⟨r, hr', hiff⟩ := hg.linkRejection_eq hp hq
  cases hr.symm.trans hr'
  obtain ⟨c, h, hrun, hs, hshape⟩ := hg.attach_run hp hq (hiff.mp rfl)
  rw [hrun]
  exact ⟨hs, (layout_eq_of_view hshape).trans hlayout⟩

/-- Putting back offsets moves blocks for which one is recorded and that hang from a notch to other
offsets from it. What such moves keep is kept. -/
theorem loadOffsets_keeps_of_mem {P : Graph → Prop} (saved : List (BlockId × SavedBlock))
    (hP : ∀ p ∈ saved, ∀ offset, p.2.offset = some offset → ∀ g b n old, P g →
      g.blocks[p.1]? = some b → b.placement = .attached n old →
        P (g.setPlacement p.1 (.attached n offset)))
    (hl : P l.graph) : P ((loadOffsets saved).run l).2.graph := by
  induction saved generalizing l with
  | nil => exact hl
  | cons p rest ih =>
    obtain ⟨id, b⟩ := p
    have ih {l : Loading} (hl : P l.graph) : P ((loadOffsets rest).run l).2.graph :=
      ih (fun p hp => hP p (.tail _ hp)) hl
    rw [loadOffsets]
    cases hoffset : b.offset with
    | none => exact ih hl
    | some offset =>
      refine Load.leaves_bind (P := fun m => P m.graph) ?_ fun c m hc => ?_
      · rw [Load.run_onGraph, Edit.run_needBlock]
        exact hl
      · rw [Load.run_onGraph, Edit.run_needBlock] at hc
        obtain ⟨hblock, rfl⟩ := Prod.mk.inj hc
        cases hpl : c.placement with
        | root pos => exact ih hl
        | attached n old =>
          have hrun : (onGraph (Edit.change (·.setPlacement id (.attached n offset)))).run l =
              (.ok (), { l with graph := l.graph.setPlacement id (.attached n offset) }) := by
            rw [Load.run_onGraph, Edit.run_change]
          rw [Load.run_bind_ok hrun]
          exact ih (l := { l with graph := _ }) (hP (id, b) List.mem_cons_self offset hoffset
            l.graph c n old hl (block_eq_ok.mp hblock) hpl)

theorem loadOffsets_keeps {P : Graph → Prop}
    (hP : ∀ g id b n old offset, P g → g.blocks[id]? = some b → b.placement = .attached n old →
      P (g.setPlacement id (.attached n offset)))
    (saved : List (BlockId × SavedBlock)) (hl : P l.graph) :
    P ((loadOffsets saved).run l).2.graph :=
  loadOffsets_keeps_of_mem saved
    (fun p _ offset _ g b n old hg => hP g p.1 b n old offset hg) hl

theorem loadOffsets_sound (S : l.graph.Sound ok) (saved : List (BlockId × SavedBlock)) :
    ((loadOffsets saved).run l).2.graph.Sound ok ∧
      ((loadOffsets saved).run l).2.graph.layout = l.graph.layout := by
  refine loadOffsets_keeps (P := fun g => g.Sound ok ∧ g.layout = l.graph.layout) ?_ saved ⟨S, rfl⟩
  intro g id b n old offset hg hb hpl
  refine ⟨hg.1.setPlacement fun c hc => ?_, hg.2⟩
  cases hb.symm.trans hc
  rw [hpl]
  rfl

theorem toGraph_eq (d : Document) (catalog : Catalog) (config : GraphConfig) :
    d.toGraph catalog config =
      ((d.load.run ⟨.empty catalog config, []⟩).1.map fun _ =>
        (d.load.run ⟨.empty catalog config, []⟩).2.graph,
        (d.load.run ⟨.empty catalog config, []⟩).2.skipped) := rfl

/-- A load that succeeds answers the graph that it leaves. -/
theorem graph_of_toGraph {d : Document} {catalog : Catalog} {config : GraphConfig}
    {skipped : List Skipped} (h : d.toGraph catalog config = (.ok g, skipped)) :
    (d.load.run ⟨.empty catalog config, []⟩).2.graph = g := by
  rw [toGraph_eq] at h
  obtain ⟨hr, _⟩ := Prod.mk.inj h
  cases hres : (d.load.run ⟨.empty catalog config, []⟩).1 with
  | error e =>
    rw [hres] at hr
    cases hr
  | ok a =>
    rw [hres] at hr
    exact Except.ok.inj hr

/-- **A load leaves a sound graph.** -/
theorem toGraph_sound {d : Document} {catalog : Catalog} {config : GraphConfig}
    {skipped : List Skipped} (hcoherent : ∀ d, ok d → d.Coherent)
    (hok : ∀ p ∈ d.blocks.toList, ok p.2.definition)
    (h : d.toGraph catalog config = (.ok g, skipped)) : g.Sound ok ∧ g.layout = .stacked := by
  obtain ⟨m, hrun, Sm, hlayout⟩ := loadBlocks_sound (l := ⟨.empty catalog config, []⟩)
    (sound_empty _ _ _) hcoherent d.blocks.toList Table.toList_keys_nodup
    (fun _ _ => Std.ExtTreeMap.getElem?_empty) hok
  have hleaves : (d.load.run ⟨.empty catalog config, []⟩).2.graph.Sound ok ∧
      (d.load.run ⟨.empty catalog config, []⟩).2.graph.layout = .stacked := by
    unfold load
    rw [Load.run_bind_ok hrun]
    have hlinks := loadLinks_sound Sm d.notches.toList
    rw [hlayout] at hlinks
    refine Load.leaves_bind (P := fun m => m.graph.Sound ok ∧ m.graph.layout = .stacked) hlinks
      fun _ m' hm => ?_
    rw [hm] at hlinks
    obtain ⟨S', hlayout'⟩ := loadOffsets_sound hlinks.1 d.blocks.toList
    exact ⟨S', hlayout'.trans hlinks.2⟩
  exact graph_of_toGraph h ▸ hleaves

end Document

namespace Graph

/-- The graphs of editing sessions that use definitions with a property: what operations reach
from a graph without blocks, or from the graph of a document. -/
inductive Reachable (ok : Definition → Prop) : Graph → Prop
  | start (catalog : Catalog) (config : GraphConfig) (layout : Layout) {g : Graph} :
      Reaches ok (empty catalog config layout) g → Reachable ok g
  | loaded (d : Document) (catalog : Catalog) (config : GraphConfig) (skipped : List Skipped)
      {g₀ g : Graph} : (∀ p ∈ d.blocks.toList, ok p.2.definition) →
      d.toGraph catalog config = (.ok g₀, skipped) → Reaches ok g₀ g → Reachable ok g

theorem Reaches.mono {ok ok' : Definition → Prop} {g h : Graph} (hok : ∀ d, ok d → ok' d)
    (hr : Reaches ok g h) : Reaches ok' g h := by
  induction hr with
  | refl => exact .refl g
  | step op _ hfresh hd ih => exact .step op ih hfresh fun id d hc => hok d (hd id d hc)

theorem Reachable.mono {ok ok' : Definition → Prop} {g : Graph} (hok : ∀ d, ok d → ok' d)
    (hg : Reachable ok g) : Reachable ok' g := by
  cases hg with
  | start catalog config layout hr => exact .start catalog config layout (hr.mono hok)
  | loaded d catalog config skipped hd hload hr =>
    exact .loaded d catalog config skipped (fun p hp => hok _ (hd p hp)) hload (hr.mono hok)

theorem Reachable.step {ok : Definition → Prop} {g : Graph} (hg : Reachable ok g) (op : Operation)
    (hfresh : op.Fresh g) (hok : ∀ id d, op.creates g = some (id, d) → ok d) :
    Reachable ok (op.apply g) := by
  cases hg with
  | start catalog config layout hr => exact .start catalog config layout (.step op hr hfresh hok)
  | loaded d catalog config skipped hd hload hr =>
    exact .loaded d catalog config skipped hd hload (.step op hr hfresh hok)

/-- **The invariant holds throughout every session.** -/
theorem Reachable.sound {ok : Definition → Prop} {g : Graph} (hg : Reachable ok g)
    (hcoherent : ∀ d, ok d → d.Coherent) : g.Sound ok := by
  cases hg with
  | start catalog config layout hr => exact (sound_empty _ _ _).reaches hcoherent hr
  | loaded d catalog config skipped hd hload hr =>
    exact (Document.toGraph_sound hcoherent hd hload).1.reaches hcoherent hr

end Graph

end SnapBlocks

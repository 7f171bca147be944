import SnapBlocks.Proofs.Frame
import SnapBlocks.Proofs.Linkage

/-! Snap points of different blocks. The id of a snap point names its kind and its segment in front
of the block, without dashes of their own, so it is read in one way only, whatever stands in the id
of the block. Hence a block that is made under a fresh id comes beside all snap points that are
there, and replaces none of them. -/

namespace SnapBlocks

/-- The id of a snap point says its block, its segment and the word for its kind, and no more. -/
theorem SnapId.derive_eq_iff {b b' : BlockId} {i i' : Nat} {k k' : SnapKind} :
    derive b i k = derive b' i' k' ↔ b = b' ∧ i = i' ∧ k.slug = k'.slug := by
  refine ⟨derive_inj, ?_⟩
  rintro ⟨rfl, rfl, hslug⟩
  rw [derive, derive, hslug]

namespace Graph

variable {ok : Definition → Prop} {g h : Graph} {id : BlockId} {d : Definition} {b : Block}
variable {i : SnapId} {p : SnapPoint} {s : Slot}

/-- The last graph has one more block than the first, of a definition: its snap points come beside
those that were there. -/
structure Adjoins (g h : Graph) (id : BlockId) (d : Definition) : Prop where
  /-- Nothing was stored under the new ids. -/
  unused {s : Slot} : s ∈ d.slots →
    s.snapId id ∉ g.snaps ∧ s.snapId id ∉ g.notches ∧ s.snapId id ∉ g.divots
  /-- Each slot has a snap point of its own, with free ends. -/
  made {s : Slot} : s ∈ d.slots →
    ∃ pos, h.snaps[s.snapId id]? = some { s.fresh id with position := pos }
  kept {i : SnapId} {p : SnapPoint} : g.snaps[i]? = some p → h.snaps[i]? = some p
  mem_snaps {i : SnapId} : i ∈ h.snaps ↔ i ∈ g.snaps ∨ ∃ s ∈ d.slots, s.snapId id = i
  mem_notches {i : SnapId} : i ∈ h.notches ↔
    i ∈ g.notches ∨ ∃ s ∈ d.slots, s.snapId id = i ∧ s.kind.isNotch
  mem_divots {i : SnapId} : i ∈ h.divots ↔
    i ∈ g.divots ∨ ∃ s ∈ d.slots, s.snapId id = i ∧ s.kind.isDivot

/-- The tables know no snap point of a block that is not there. -/
theorem Stocked.unused_of_fresh (H : g.Stocked) (hb : g.blocks[b.id]? = none)
    (hi : i ∈ b.snapPoints) : i ∉ g.snaps ∧ i ∉ g.notches ∧ i ∉ g.divots := by
  have hno : ∀ p, g.snaps[i]? ≠ some p := fun p hp => H.notMem_of_fresh hb hp hi
  refine ⟨fun hm => ?_, fun hm => ?_, fun hm => ?_⟩
  · obtain ⟨p, hp⟩ := Table.mem_iff.mp hm
    exact hno p hp
  · obtain ⟨p, hp, _⟩ := H.mem_notches.mp hm
    exact hno p hp
  · obtain ⟨p, hp, _⟩ := H.mem_divots.mp hm
    exact hno p hp

theorem snap_withNew_eq (hs : s ∈ b.definition.slots) :
    ∃ pos, (g.withNew b).snaps[s.snapId b.id]? = some { s.fresh b.id with position := pos } := by
  obtain ⟨p, hp, hpq⟩ := exists_snap_of_view (shape_withNew b).symm
    (getElem?_snaps_addBlock_of_mem (g := g) hs)
  refine ⟨p.position, hp.trans ?_⟩
  exact congrArg (fun q : SnapPoint => some { q with position := p.position }) hpq.symm

theorem mem_snaps_withNew : i ∈ (g.withNew b).snaps ↔ i ∈ g.snaps ∨ i ∈ b.snapPoints := by
  by_cases hi : i ∈ b.snapPoints
  · obtain ⟨s, hs, rfl⟩ := Block.mem_snapPoints.mp hi
    obtain ⟨pos, hp⟩ := snap_withNew_eq (g := g) hs
    exact iff_of_true (Table.mem_iff.mpr ⟨_, hp⟩) (.inr hi)
  · rw [Table.mem_iff, Table.mem_iff, withNew, getElem?_snaps_placeBlock_of_notMem hi,
      getElem?_snaps_addBlock_of_notMem hi, or_iff_left hi]

/-- The snap points of other blocks stay, also when a block is made a second time. -/
theorem Stocked.others_withNew (H : g.Stocked) (hp : g.snaps[i]? = some p) (hne : p.block ≠ b.id) :
    (g.withNew b).snaps[i]? = some p := by
  have hno : i ∉ b.snapPoints := by
    intro hi
    obtain ⟨s, _, hsi⟩ := Block.mem_snapPoints.mp hi
    obtain ⟨_, _, t, _, hti, _⟩ := H.snap_of hp
    exact hne (Slot.snapId_block (hti.trans hsi.symm))
  rw [withNew, getElem?_snaps_placeBlock_of_notMem hno, getElem?_snaps_addBlock_of_notMem hno, hp]

theorem Stocked.adjoins_withNew (H : g.Stocked) (hb : g.blocks[b.id]? = none) :
    g.Adjoins (g.withNew b) b.id b.definition where
  unused hs := H.unused_of_fresh hb (Block.mem_snapPoints.mpr ⟨_, hs, rfl⟩)
  made := snap_withNew_eq
  kept := H.snaps_withNew hb
  mem_snaps := mem_snaps_withNew.trans (or_congr_right Block.mem_snapPoints)
  mem_notches {i} := by rw [withNew, notches_of_frame (frame_placeBlock b), mem_notches_addBlock]
  mem_divots {i} := by rw [withNew, divots_of_frame (frame_placeBlock b), mem_divots_addBlock]

/-- An operation that makes a block makes it fresh, and does nothing else. -/
theorem Operation.apply_eq_withNew {op : Operation} (hc : op.creates g = some (id, d)) :
    ∃ pos, op.apply g = g.withNew (.fresh id d pos) := by
  cases op with
  | insert id' name pos =>
    rcases apply_insert g id' name pos with ⟨hno, _⟩ | ⟨d', hc', hmade⟩
    · cases hno.symm.trans hc
    · cases hc.symm.trans hc'
      exact ⟨pos, hmade⟩
  | insertDefinition id' d' pos =>
    cases hc
    exact ⟨pos, apply_insertDefinition id d pos⟩
  | _ => cases hc

theorem Reachable.wired (hg : Reachable ok g) : g.Wired := by
  cases hg with
  | start catalog config layout hr => exact (wired_empty catalog config layout).reaches hr
  | loaded d catalog config skipped hd hload hr => exact (Document.toGraph_wired hload).reaches hr

/-- **Ids of snap points do not collide**, whatever the ids of blocks are. They tell blocks,
segments and words for kinds apart, and no two slots of a definition get the same. So a block that
is made takes no snap point from another, and under a fresh id it comes beside all that are there. -/
theorem Reachable.snapIds_distinct (hg : Reachable ok g) :
    (∀ {b b' : BlockId} {i i' : Nat} {k k' : SnapKind},
      SnapId.derive b i k = SnapId.derive b' i' k' ↔ b = b' ∧ i = i' ∧ k.slug = k'.slug) ∧
    (∀ (id : BlockId) (d : Definition), (d.slots.map (·.snapId id)).Nodup) ∧
    ∀ (op : Operation) (id : BlockId) (d : Definition), op.creates g = some (id, d) →
      (∀ {i : SnapId} {p : SnapPoint}, g.snaps[i]? = some p → p.block ≠ id →
        (op.apply g).snaps[i]? = some p) ∧
      (g.blocks[id]? = none → g.Adjoins (op.apply g) id d) := by
  refine ⟨SnapId.derive_eq_iff, fun id d => (Block.fresh id d .origin).snapPoints_nodup,
    fun op id d hc => ?_⟩
  obtain ⟨pos, hrun⟩ := Operation.apply_eq_withNew hc
  rw [hrun]
  exact ⟨hg.wired.others_withNew (b := .fresh id d pos),
    hg.wired.adjoins_withNew (b := .fresh id d pos)⟩

/-- A block whose id is that of a snap point, made after operations that broke off. -/
theorem snapIds_distinct_uncoiled : Reachable (fun _ => True) uncoiled ∧
    "notch-1-a" ∈ uncoiled.notches ∧
    uncoiled.Adjoins ((Operation.insertDefinition "notch-1-a" doubled .origin).apply uncoiled)
      "notch-1-a" doubled := by
  have hfree : "notch-1-a" ∈ uncoiled.notches ∧ uncoiled.blocks["notch-1-a"]? = none := by
    decide +kernel
  refine ⟨reachable_uncoiled, hfree.1, ?_⟩
  exact ((Reachable.snapIds_distinct reachable_uncoiled).2.2 _ _ _ rfl).2 hfree.2

end Graph

end SnapBlocks

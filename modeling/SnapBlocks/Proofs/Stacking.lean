import SnapBlocks.Definition.Catalog
import SnapBlocks.Graph.Layout
import SnapBlocks.Proofs.Slot

/-! Stacked segments. The layout goes from top to bottom, so that the place of a segment depends on
what hangs in the segments above it and on nothing else. Nothing is above the first segment: a divot
there has the same place in every block, whatever hangs in the block. -/

namespace SnapBlocks

/-- No segment but the first has a divot. -/
def Definition.TopHung (d : Definition) : Prop := ∀ s ∈ d.segments.tail, s.divot = false

namespace Definition

variable {d : Definition} {s : Slot}

instance : Decidable d.TopHung := inferInstanceAs (Decidable (∀ s ∈ _, _ = _))

/-- The divot of such a definition is in its first segment. -/
theorem TopHung.first (hd : d.TopHung) (hs : s ∈ d.slots) (hk : s.kind = .primaryDivot) :
    s.index = 0 ∧ ∃ seg rest, d.segments = seg :: rest := by
  obtain ⟨seg, i, hseg, hs⟩ := mem_slots.mp hs
  rcases Segment.mem_slots.mp hs with ⟨hdivot, rfl⟩ | ⟨_, rfl⟩
  · cases hsegs : d.segments with
    | nil =>
      rw [hsegs] at hseg
      cases hseg
    | cons first rest =>
      refine ⟨?_, first, rest, rfl⟩
      cases i with
      | zero => rfl
      | succ i =>
        rw [hsegs, List.getElem?_cons_succ] at hseg
        have hmem : seg ∈ d.segments.tail := by
          rw [hsegs]
          exact List.mem_of_getElem? hseg
        cases hdivot.symm.trans (hd seg hmem)
  · exact absurd hk (seg.kind.notchKind_ne_divot _)

end Definition

namespace Layout

variable {extra extra' : Table Float} {d : Definition} {s : Slot} {k : Nat}

/-- The place of a segment depends on what hangs in the segments above it. -/
theorem getElem?_stack_congr {segs : List Segment} {top : Float} {i : Nat}
    (h : ∀ j < i, ∀ s, segs[j]? = some s →
      (extra[s.id]?).getD 0 = (extra'[s.id]?).getD 0) :
    (stack extra top segs).1[i]? = (stack extra' top segs).1[i]? := by
  induction segs generalizing top i with
  | nil => rfl
  | cons s rest ih =>
    cases rest with
    | nil => simp only [stack]
    | cons t rest =>
      cases i with
      | zero => simp only [stack, List.getElem?_cons_zero]
      | succ i =>
        have hslot := h 0 (Nat.succ_pos i) s rfl
        simp only [stack, List.getElem?_cons_succ]
        rw [hslot]
        apply ih
        intro j hj s hs
        exact h (j + 1) (Nat.succ_lt_succ hj) s hs

theorem getElem?_stack_zero (first : Segment) (rest : List Segment) (top : Float) :
    (stack extra top (first :: rest)).1[0]? = some (top, top + segmentHeight first) := by
  cases rest <;> simp only [stack, List.getElem?_cons_zero]

theorem getElem?_positions_stacked (hs : d.slots[k]? = some s) :
    (stacked.place d extra).positions[k]? =
      some (slotPosition (((stack extra 0 d.segments).1[s.index]?).getD (0, 0)).1
        (((stack extra 0 d.segments).1[s.index]?).getD (0, 0)).2 s.kind) := by
  have hmap : (stacked.place d extra).positions[k]? = d.slots[k]?.map _ := List.getElem?_map
  rw [hmap, hs]
  rfl

/-- **The layout is causal.** The place of a snap point is the same with any extra heights that
agree on the segments above its own. -/
theorem getElem?_positions_congr (hs : d.slots[k]? = some s)
    (h : ∀ j < s.index, ∀ seg, d.segments[j]? = some seg →
      (extra[seg.id]?).getD 0 = (extra'[seg.id]?).getD 0) :
    (stacked.place d extra).positions[k]? = (stacked.place d extra').positions[k]? := by
  rw [getElem?_positions_stacked hs, getElem?_positions_stacked hs, getElem?_stack_congr h]

theorem slotPosition_divot (top bottom bottom' : Float) :
    slotPosition top bottom .primaryDivot = slotPosition top bottom' .primaryDivot := rfl

/-- The place of a divot in the first segment. -/
def divotSpot : Point := slotPosition 0 0 .primaryDivot

/-- What hangs in a block does not move a divot in its first segment. -/
theorem getElem?_positions_divot (hd : d.TopHung) (hs : d.slots[k]? = some s)
    (hk : s.kind = .primaryDivot) :
    (stacked.place d extra).positions[k]? = some divotSpot := by
  obtain ⟨hindex, first, rest, hsegs⟩ := hd.first (List.mem_of_getElem? hs) hk
  rw [getElem?_positions_stacked hs, hindex, hsegs, getElem?_stack_zero, hk, Option.getD_some,
    slotPosition_divot 0 _ 0, divotSpot]

end Layout

/-- The blocks that every editor starts with hang by their first segments. -/
theorem Catalog.topHung_of_mem {d : Definition} (hd : d ∈ Catalog.standardBlocks) :
    d.TopHung ∧ (d.segments.map (·.id)).Nodup := by
  revert d
  decide +kernel

end SnapBlocks

import SnapBlocks.Graph.Insert
import SnapBlocks.Graph.Remove
import SnapBlocks.Proofs.View

/-! Integrity of the tables and links of a graph: `Graph.Wired`. It holds of all definitions and
is kept by the four changes that the operations on a graph are made of: making a block, linking
two free ends, cutting the links at some snap points, and dropping a block whose ends are free. -/

namespace SnapBlocks

namespace Graph

/-- The divot `d` hangs from the notch `n`, as the notch has it. -/
def Linked (g : Graph) (n d : SnapId) : Prop := ∃ p, g.snaps[n]? = some p ∧ p.next = some d

/-- The divot `d` hangs from the notch `n`, as the divot has it. -/
def Hung (g : Graph) (d n : SnapId) : Prop := ∃ p, g.snaps[d]? = some p ∧ p.previous = some n

/-- The tables and registries agree on which snap points there are. -/
structure Stocked (g : Graph) : Prop where
  block_id {id : BlockId} {b : Block} : g.blocks[id]? = some b → b.id = id
  snap_of {i : SnapId} {p : SnapPoint} : g.snaps[i]? = some p →
    ∃ b, g.blocks[p.block]? = some b ∧ ∃ s ∈ b.definition.slots,
      s.snapId p.block = i ∧ p.blank = s.fresh p.block
  snap_at {id : BlockId} {b : Block} {s : Slot} : g.blocks[id]? = some b →
    s ∈ b.definition.slots → ∃ p, g.snaps[s.snapId id]? = some p ∧ p.blank = s.fresh id
  mem_notches {i : SnapId} : i ∈ g.notches ↔ ∃ p, g.snaps[i]? = some p ∧ p.kind.isNotch
  mem_divots {i : SnapId} : i ∈ g.divots ↔ ∃ p, g.snaps[i]? = some p ∧ p.kind.isDivot

/-- **Link integrity.** Both ends of a link name each other; a notch stands above and a divot
below, and they belong to different blocks. -/
structure Wired (g : Graph) : Prop extends g.Stocked where
  linked_iff {n d : SnapId} : g.Linked n d ↔ g.Hung d n
  isNotch {n d : SnapId} {p : SnapPoint} : g.snaps[n]? = some p → p.next = some d → p.kind.isNotch
  isDivot {n d : SnapId} {p : SnapPoint} : g.snaps[d]? = some p → p.previous = some n →
    p.kind = .primaryDivot
  block_ne {n d : SnapId} {p q : SnapPoint} : g.snaps[n]? = some p → p.next = some d →
    g.snaps[d]? = some q → p.block ≠ q.block

variable {g h : Graph} {b c : Block} {id : BlockId} {s : Slot} {n m d e i : SnapId}
variable {p q : SnapPoint} {low up : BlockId}

namespace Stocked

theorem of_stock (H : g.Stocked) (heq : g.stock = h.stock) : h.Stocked where
  block_id {id b} hb := by
    obtain ⟨c, hc, hbc⟩ := exists_block_of_view heq.symm hb
    exact (Block.eq_of_stem hbc).1.trans (H.block_id hc)
  snap_of {i p} hp := by
    obtain ⟨q, hq, hpq⟩ := exists_snap_of_view heq.symm hp
    obtain ⟨b, hb, s, hs, hi, hfresh⟩ := H.snap_of hq
    obtain ⟨c, hc, hbc⟩ := exists_block_of_view heq hb
    rw [(SnapPoint.eq_of_blank hpq).2.1]
    exact ⟨c, hc, s, (Block.eq_of_stem hbc).2 ▸ hs, hi, hpq.trans hfresh⟩
  snap_at {id b s} hb hs := by
    obtain ⟨c, hc, hbc⟩ := exists_block_of_view heq.symm hb
    obtain ⟨p, hp, hfresh⟩ := H.snap_at hc ((Block.eq_of_stem hbc).2 ▸ hs)
    obtain ⟨q, hq, hpq⟩ := exists_snap_of_view heq hp
    exact ⟨q, hq, hpq.symm.trans hfresh⟩
  mem_notches {i} := by
    rw [← notches_eq_of_view heq, H.mem_notches]
    exact exists_snap_iff_of_view heq fun hpq hk => (SnapPoint.eq_of_blank hpq).2.2.2.2 ▸ hk
  mem_divots {i} := by
    rw [← divots_eq_of_view heq, H.mem_divots]
    exact exists_snap_iff_of_view heq fun hpq hk => (SnapPoint.eq_of_blank hpq).2.2.2.2 ▸ hk

theorem snap_id (H : g.Stocked) (hp : g.snaps[i]? = some p) : p.id = i := by
  obtain ⟨_, _, s, _, hi, hfresh⟩ := H.snap_of hp
  exact (congrArg SnapPoint.id hfresh : p.id = s.snapId p.block).trans hi

/-- The snap point of a slot has the kind and the segment of the slot. -/
theorem snap_at_eq (H : g.Stocked) (hb : g.blocks[id]? = some b) (hs : s ∈ b.definition.slots)
    (hp : g.snaps[s.snapId id]? = some p) :
    p.block = id ∧ p.kind = s.kind ∧ p.segmentId = s.segmentId ∧ p.segmentIndex = s.index := by
  obtain ⟨q, hq, hfresh⟩ := H.snap_at hb hs
  cases hq.symm.trans hp
  exact ⟨congrArg SnapPoint.block hfresh, congrArg SnapPoint.kind hfresh,
    congrArg SnapPoint.segmentId hfresh, congrArg SnapPoint.segmentIndex hfresh⟩

theorem snap_of_mem (H : g.Stocked) (hb : g.blocks[id]? = some b) (hi : i ∈ b.snapPoints) :
    ∃ p, g.snaps[i]? = some p ∧ p.block = id := by
  obtain ⟨s, hs, rfl⟩ := Block.mem_snapPoints.mp hi
  rw [H.block_id hb]
  obtain ⟨p, hp, hfresh⟩ := H.snap_at hb hs
  exact ⟨p, hp, congrArg SnapPoint.block hfresh⟩

/-- A snap point is one of its block. -/
theorem mem_snapPoints (H : g.Stocked) (hp : g.snaps[i]? = some p)
    (hb : g.blocks[p.block]? = some b) : i ∈ b.snapPoints := by
  obtain ⟨c, hc, s, hs, hi, _⟩ := H.snap_of hp
  cases hc.symm.trans hb
  exact Block.mem_snapPoints.mpr ⟨s, hs, by rw [H.block_id hb]; exact hi⟩

/-- The snap points of a block are those that it owns. -/
theorem mem_snapPoints_iff (H : g.Stocked) (hb : g.blocks[id]? = some b) :
    i ∈ b.snapPoints ↔ g.owner i = .ok id := by
  rw [owner_eq_ok]
  constructor
  · exact H.snap_of_mem hb
  · rintro ⟨p, hp, rfl⟩
    exact H.mem_snapPoints hp hb

theorem eq_of_mem_snapPoints (H : g.Stocked) (hb : g.blocks[low]? = some b)
    (hc : g.blocks[up]? = some c) (hi : i ∈ b.snapPoints) (hi' : i ∈ c.snapPoints) : low = up := by
  rw [H.mem_snapPoints_iff hb] at hi
  rw [H.mem_snapPoints_iff hc] at hi'
  exact Except.ok.inj (hi.symm.trans hi')

theorem exists_block (H : g.Stocked) (hp : g.snaps[i]? = some p) :
    ∃ b, g.blocks[p.block]? = some b := (H.snap_of hp).imp fun _ h => h.1

theorem block_mem (H : g.Stocked) (hp : g.snaps[i]? = some p) : p.block ∈ g.blocks :=
  Table.mem_iff.mpr (H.exists_block hp)

private theorem snap_of_slot? (H : g.Stocked) (hb : g.blocks[id]? = some b) {kind : SnapKind}
    (hi : (b.definition.slot? kind).map (·.snapId b.id) = some i) :
    ∃ p, g.snaps[i]? = some p ∧ p.block = id ∧ p.kind = kind := by
  obtain ⟨s, hs, rfl⟩ := Option.map_eq_some_iff.mp hi
  obtain ⟨hm, hk⟩ := Definition.slot?_eq_some hs
  rw [H.block_id hb]
  obtain ⟨p, hp, _⟩ := H.snap_at hb hm
  obtain ⟨hblock, hkind, _⟩ := H.snap_at_eq hb hm hp
  exact ⟨p, hp, hblock, hkind.trans hk⟩

theorem snap_of_primaryDivot (H : g.Stocked) (hb : g.blocks[id]? = some b)
    (hd : b.primaryDivot = some d) :
    ∃ p, g.snaps[d]? = some p ∧ p.block = id ∧ p.kind = .primaryDivot :=
  H.snap_of_slot? hb hd

theorem snap_of_primaryNotch (H : g.Stocked) (hb : g.blocks[id]? = some b)
    (hn : b.primaryNotch = some n) :
    ∃ p, g.snaps[n]? = some p ∧ p.block = id ∧ p.kind = .primaryNotch :=
  H.snap_of_slot? hb hn

/-- A block of a coherent definition hangs by its only divot. -/
theorem primaryDivot_of_snap (H : g.Stocked) (hp : g.snaps[d]? = some p)
    (hk : p.kind = .primaryDivot) (hb : g.blocks[p.block]? = some b)
    (hc : b.definition.Coherent) : b.primaryDivot = some d := by
  obtain ⟨c, hc', s, hs, rfl, hfresh⟩ := H.snap_of hp
  cases hc'.symm.trans hb
  have hsk : s.kind = .primaryDivot := (congrArg SnapPoint.kind hfresh).symm.trans hk
  rw [Block.primaryDivot, hc.slot?_divot hs hsk, Option.map_some, H.block_id hb]

theorem primaryNotch_of_snap (H : g.Stocked) (hp : g.snaps[n]? = some p)
    (hk : p.kind = .primaryNotch) (hb : g.blocks[p.block]? = some b)
    (hw : b.definition.WellFormed) : b.primaryNotch = some n := by
  obtain ⟨c, hc', s, hs, rfl, hfresh⟩ := H.snap_of hp
  cases hc'.symm.trans hb
  have hsk : s.kind = .primaryNotch := (congrArg SnapPoint.kind hfresh).symm.trans hk
  rw [Block.primaryNotch, hw.slot?_notch hs hsk, Option.map_some, H.block_id hb]

end Stocked

/-! ## Links through views -/

theorem linked_congr (heq : g.wires = h.wires) : g.Linked n d ↔ h.Linked n d :=
  exists_snap_iff_of_view heq fun hpq hn => (SnapPoint.eq_of_unplaced hpq).2.2.symm.trans hn

theorem hung_congr (heq : g.wires = h.wires) : g.Hung d n ↔ h.Hung d n :=
  exists_snap_iff_of_view heq fun hpq hn => (SnapPoint.eq_of_unplaced hpq).2.1.symm.trans hn

theorem Linked.eq (hd : g.Linked n d) (he : g.Linked n e) : d = e := by
  obtain ⟨p, hp, hd⟩ := hd
  obtain ⟨q, hq, he⟩ := he
  cases hp.symm.trans hq
  exact Option.some.inj (hd.symm.trans he)

theorem Hung.eq (hn : g.Hung d n) (hm : g.Hung d m) : n = m := by
  obtain ⟨p, hp, hn⟩ := hn
  obtain ⟨q, hq, hm⟩ := hm
  cases hp.symm.trans hq
  exact Option.some.inj (hn.symm.trans hm)

theorem linked_iff_next (hp : g.snaps[n]? = some p) : g.Linked n d ↔ p.next = some d := by
  simp [Linked, hp]

/-- Integrity, in terms of the links alone. -/
theorem Stocked.wired (H : g.Stocked) (hiff : ∀ n d, g.Linked n d ↔ g.Hung d n)
    (hends : ∀ n d, g.Linked n d → ∀ p, g.snaps[n]? = some p → ∀ q, g.snaps[d]? = some q →
      p.kind.isNotch ∧ q.kind = .primaryDivot ∧ p.block ≠ q.block) : g.Wired where
  toStocked := H
  linked_iff := hiff _ _
  isNotch {n d p} hp hn := by
    obtain ⟨q, hq, _⟩ := (hiff n d).mp ⟨p, hp, hn⟩
    exact (hends n d ⟨p, hp, hn⟩ p hp q hq).1
  isDivot {n d q} hq hd := by
    obtain ⟨p, hp, hn⟩ := (hiff n d).mpr ⟨q, hq, hd⟩
    exact (hends n d ⟨p, hp, hn⟩ p hp q hq).2.1
  block_ne {n d p q} hp hn hq := (hends n d ⟨p, hp, hn⟩ p hp q hq).2.2

namespace Wired

theorem ends (H : g.Wired) (hl : g.Linked n d) :
    ∃ p q, g.snaps[n]? = some p ∧ g.snaps[d]? = some q ∧ p.next = some d ∧
      q.previous = some n ∧ p.kind.isNotch ∧ q.kind = .primaryDivot ∧ p.block ≠ q.block := by
  obtain ⟨q, hq, hd⟩ := H.linked_iff.mp hl
  obtain ⟨p, hp, hn⟩ := hl
  exact ⟨p, q, hp, hq, hn, hd, H.isNotch hp hn, H.isDivot hq hd, H.block_ne hp hn hq⟩

theorem linked_iff_previous (H : g.Wired) (hq : g.snaps[d]? = some q) :
    g.Linked n d ↔ q.previous = some n := by
  rw [H.linked_iff]
  simp [Hung, hq]

theorem notch_eq (H : g.Wired) (hl : g.Linked n d) (hl' : g.Linked m d) : n = m :=
  Hung.eq (H.linked_iff.mp hl) (H.linked_iff.mp hl')

/-- A snap point that hangs from another holds none. -/
theorem not_linked_of_linked (H : g.Wired) (hl : g.Linked n d) : ¬ g.Linked d e := by
  rintro ⟨q', hq', hnext⟩
  obtain ⟨_, q, _, hq, _, _, _, hk, _⟩ := H.ends hl
  cases hq.symm.trans hq'
  have hn := H.isNotch hq hnext
  rw [hk] at hn
  cases hn

theorem owner_ne (H : g.Wired) (hl : g.Linked n d) (hn : g.owner n = .ok up)
    (hd : g.owner d = .ok low) : up ≠ low := by
  obtain ⟨p, q, hp, hq, _, _, _, _, hne⟩ := H.ends hl
  rw [owner_of_getElem? hp] at hn
  rw [owner_of_getElem? hq] at hd
  cases hn
  cases hd
  exact hne

theorem of_wires (H : g.Wired) (heq : g.wires = h.wires) : h.Wired := by
  refine (H.of_stock (stock_of_wires heq)).wired (fun n d => ?_) fun n d hl p hp q hq => ?_
  · rw [← linked_congr heq, ← hung_congr heq]
    exact H.linked_iff
  · obtain ⟨p', q', hp', hq', _, _, hn, hd, hne⟩ := H.ends ((linked_congr heq).mpr hl)
    obtain ⟨p₁, hp₁, hpp⟩ := exists_snap_of_view heq hp'
    obtain ⟨q₁, hq₁, hqq⟩ := exists_snap_of_view heq hq'
    cases hp₁.symm.trans hp
    cases hq₁.symm.trans hq
    obtain ⟨_, hpb, _, _, hpk⟩ := SnapPoint.eq_of_blank (SnapPoint.eq_of_unplaced hpp).1
    obtain ⟨_, hqb, _, _, hqk⟩ := SnapPoint.eq_of_blank (SnapPoint.eq_of_unplaced hqq).1
    exact ⟨hpk ▸ hn, hqk ▸ hd, hpb ▸ hqb ▸ hne⟩

end Wired

end Graph

end SnapBlocks

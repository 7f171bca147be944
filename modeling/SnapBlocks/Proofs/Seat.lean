import SnapBlocks.Proofs.Join

/-! Placements. In a seated graph they agree with the links: a block lies at an offset from the
notch that its divot is linked to, and is a root if there is none. Walks along placements then go
the way of the links, so that every block has a place. -/

namespace SnapBlocks

/-- The notch that a placement names. -/
def Placement.anchor : Placement → Option SnapId
  | .root _ => none
  | .attached notch _ => some notch

@[simp] theorem Placement.anchor_root : (Placement.root pos).anchor = none := rfl
@[simp] theorem Placement.anchor_attached : (Placement.attached n offset).anchor = some n := rfl

theorem Placement.anchor_eq_some {pl : Placement} :
    pl.anchor = some n ↔ ∃ offset, pl = .attached n offset := by
  cases pl <;> simp

theorem Placement.anchor_eq_none {pl : Placement} :
    pl.anchor = none ↔ ∃ pos, pl = .root pos := by
  cases pl <;> simp

theorem Block.mem_of_primaryDivot {b : Block} (hd : b.primaryDivot = some d) :
    d ∈ b.snapPoints := by
  obtain ⟨s, hs, rfl⟩ := Option.map_eq_some_iff.mp hd
  exact Block.mem_snapPoints.mpr ⟨s, (Definition.slot?_eq_some hs).1, rfl⟩

namespace Graph

/-- **Placement agreement.** A block is placed by a notch just if its divot is linked to it. -/
structure Seated (g : Graph) : Prop where
  anchor_iff {id : BlockId} {b : Block} {n : SnapId} : g.blocks[id]? = some b →
    (b.placement.anchor = some n ↔ ∃ d, b.primaryDivot = some d ∧ g.Linked n d)

/-- Where a block is, by a walk along so many placements. -/
inductive PositionOf (g : Graph) : BlockId → Nat → Point → Prop
  | root {id b pos} : g.blocks[id]? = some b → b.placement = .root pos → PositionOf g id 1 pos
  | attached {id b n offset p k pos} : g.blocks[id]? = some b →
      b.placement = .attached n offset → g.snaps[n]? = some p → PositionOf g p.block k pos →
      PositionOf g id (k + 1) (pos + p.position + offset)

/-- Every block has a place. -/
def Placed (g : Graph) : Prop := ∀ id ∈ g.blocks, ∃ k pos, g.PositionOf id k pos ∧ k ≤ g.size

variable {g h : Graph} {b : Block} {id low up start : BlockId} {n d m : SnapId}
variable {p q : SnapPoint} {ids : List SnapId} {x y : Point} {pl : Placement} {j k room : Nat}

/-! ## Positions -/

theorem PositionOf.unique (hp : g.PositionOf id k x) (hq : g.PositionOf id j y) :
    x = y := by
  induction hp generalizing j y with
  | root hb hpl =>
    cases hq with
    | root hb' hpl' =>
      cases hb.symm.trans hb'
      cases hpl.symm.trans hpl'
      rfl
    | attached hb' hpl' =>
      cases hb.symm.trans hb'
      cases hpl.symm.trans hpl'
  | attached hb hpl hn _ ih =>
    cases hq with
    | root hb' hpl' =>
      cases hb.symm.trans hb'
      cases hpl.symm.trans hpl'
    | attached hb' hpl' hn' hup =>
      cases hb.symm.trans hb'
      cases hpl.symm.trans hpl'
      cases hn.symm.trans hn'
      rw [ih hup]

theorem positionWithin_eq (hp : g.PositionOf id k x) (hr : k ≤ room) :
    g.positionWithin start room id = .ok x := by
  induction hp generalizing room with
  | root hb hpl =>
    obtain ⟨room, rfl⟩ : ∃ r, room = r + 1 := ⟨room - 1, by omega⟩
    unfold positionWithin
    simp only [block_of_getElem? hb, hpl, bind, Except.bind]
    rfl
  | attached hb hpl hn _ ih =>
    obtain ⟨room, rfl⟩ : ∃ r, room = r + 1 := ⟨room - 1, by omega⟩
    unfold positionWithin
    simp only [block_of_getElem? hb, hpl, snap_of_getElem? hn, ih (by omega : _ ≤ room), bind,
      Except.bind]
    rfl

theorem globalPosition_eq (hp : g.PositionOf id k x) (hk : k ≤ g.size) :
    g.globalPosition id = .ok x :=
  positionWithin_eq hp (Nat.le_succ_of_le hk)

theorem Placed.exists_position (hg : g.Placed) (hid : id ∈ g.blocks) :
    ∃ pos, g.globalPosition id = .ok pos := by
  obtain ⟨k, pos, hp, hk⟩ := hg id hid
  exact ⟨pos, globalPosition_eq hp hk⟩

/-! ## Placements that agree with links -/

theorem Seated.of_anchors (S : g.Seated) (hw : g.wires = h.wires)
    (hb : ∀ (id : BlockId) (c : Block), h.blocks[id]? = some c →
      ∃ b : Block, g.blocks[id]? = some b ∧ c.placement.anchor = b.placement.anchor) :
    h.Seated := by
  refine ⟨fun {id c n} hc => ?_⟩
  obtain ⟨b, hb, hpl⟩ := hb id c hc
  obtain ⟨b', hb', hbc⟩ := exists_block_of_view hw.symm hc
  cases hb.symm.trans hb'
  obtain ⟨hid, hdef⟩ := Block.eq_of_stem hbc
  rw [hpl, show c.primaryDivot = b.primaryDivot by rw [Block.primaryDivot, hdef, hid]; rfl]
  simp only [← linked_congr hw]
  exact S.anchor_iff hb

theorem Seated.of_shape (S : g.Seated) (heq : g.shape = h.shape) : h.Seated :=
  S.of_anchors (wires_of_shape heq) fun id c hc => by
    obtain ⟨b, hb, hbc⟩ := exists_block_of_view heq.symm hc
    exact ⟨b, hb, congrArg Placement.anchor (Block.eq_of_bare hbc).2.2.2⟩

/-- A block hangs from a notch just if it is placed by it. -/
theorem Seated.hangsFrom (S : g.Seated) (H : g.Simple) (hb : g.blocks[id]? = some b)
    (hpl : b.placement.anchor = some n) :
    ∃ p, g.snaps[n]? = some p ∧ g.HangsFrom id p.block := by
  obtain ⟨d, hd, hl⟩ := (S.anchor_iff hb).mp hpl
  obtain ⟨p, q, hp, hq, _⟩ := H.ends hl
  obtain ⟨q', hq', hblock, _⟩ := H.snap_of_primaryDivot hb hd
  cases hq.symm.trans hq'
  exact ⟨p, hp, H.hangsFrom_iff.mpr
    ⟨n, d, hl, owner_of_getElem? hp, hblock ▸ owner_of_getElem? hq⟩⟩

/-- A block is a root just if it hangs from no block. -/
theorem Seated.root_iff (S : g.Seated) (H : g.Simple) (hb : g.blocks[id]? = some b) :
    b.placement.anchor = none ↔ g.predecessor id = .ok none := by
  rw [H.predecessor_eq_none_iff]
  constructor
  · intro hroot
    refine ⟨Table.mem_iff.mpr ⟨b, hb⟩, fun up hh => ?_⟩
    obtain ⟨c, d, q, n, p, hc, hd, hq, hn, hp, _⟩ := predecessor_eq_some.mp hh
    cases hb.symm.trans hc
    have := (S.anchor_iff hb).mpr ⟨d, hd, (H.linked_iff_previous hq).mpr hn⟩
    rw [hroot] at this
    cases this
  · rintro ⟨_, hno⟩
    cases hpl : b.placement.anchor with
    | none => rfl
    | some n =>
      obtain ⟨p, _, hh⟩ := S.hangsFrom H hb hpl
      exact absurd hh (hno _)

theorem Seated.positionOf (S : g.Seated) (H : g.Simple) (hk : g.DepthOf id k) :
    ∃ pos, g.PositionOf id k pos := by
  induction hk with
  | @root id hr =>
    obtain ⟨b, hb⟩ := Table.mem_iff.mp (DepthOf.root hr).mem_blocks
    obtain ⟨pos, hpos⟩ := Placement.anchor_eq_none.mp ((S.root_iff H hb).mpr hr)
    exact ⟨pos, .root hb hpos⟩
  | @hang id up k hh _ ih =>
    obtain ⟨b, hb⟩ := Table.mem_iff.mp hh.mem_blocks
    cases hpl : b.placement with
    | root pos =>
      have hr := (S.root_iff H hb).mp (by rw [hpl]; rfl)
      exact absurd hr hh.predecessor_ne
    | attached n offset =>
      obtain ⟨p, hp, hh'⟩ := S.hangsFrom H hb (by rw [hpl]; rfl)
      cases hh.eq hh'
      obtain ⟨pos, hpos⟩ := ih
      exact ⟨_, .attached hb hpl hp hpos⟩

/-- In a seated forest every block has a place. -/
theorem Seated.placed (S : g.Seated) (H : g.Forest) : g.Placed := by
  intro id hid
  obtain ⟨k, hk, _⟩ := H.depth hid
  obtain ⟨pos, hpos⟩ := S.positionOf H.toSimple hk
  exact ⟨k, pos, hpos, hk.le_size⟩

/-! ## Changes -/

/-- A block whose divot is linked to a free notch is placed by it. -/
theorem Seated.link (S : g.Seated) (H : g.Forest) (hp : g.snaps[n]? = some p)
    (hq : g.snaps[d]? = some q) (J : g.Joinable p q) (offset : Point) :
    ((g.link n d).setPlacement q.block (.attached n offset)).Seated := by
  have hne := J.ends_ne hp hq
  refine ⟨fun {i b m} hb => ?_⟩
  rw [getElem?_blocks_setPlacement] at hb
  simp only [linked_congr wires_setPlacement, linked_link hp hq hne]
  split at hb
  next he =>
    subst he
    obtain ⟨c, hc, rfl⟩ := Option.map_eq_some_iff.mp hb
    have hd : c.primaryDivot = some d := H.primaryDivot hq J.divot hc
    simp only [Placement.anchor_attached, Option.some.injEq]
    constructor
    · rintro rfl
      exact ⟨d, hd, .inl ⟨rfl, rfl⟩⟩
    · rintro ⟨e, he, ⟨rfl, _⟩ | ⟨_, hl⟩⟩
      · rfl
      · cases hd.symm.trans he
        rw [H.linked_iff_previous hq, J.divot_free] at hl
        cases hl
  next hne' =>
    have hb' : g.blocks[i]? = some b := hb
    rw [S.anchor_iff hb']
    constructor
    · rintro ⟨e, he, hl⟩
      refine ⟨e, he, .inr ⟨fun hmn => ?_, hl⟩⟩
      rw [hmn, linked_iff_next hp, J.notch_free] at hl
      cases hl
    · rintro ⟨e, he, ⟨_, rfl⟩ | ⟨_, hl⟩⟩
      · obtain ⟨q', hq', hblock, _⟩ := H.snap_of_primaryDivot hb' he
        cases hq.symm.trans hq'
        exact absurd hblock hne'
      · exact ⟨e, he, hl⟩

theorem Seated.addBlock (S : g.Seated) (H : g.Wired) (hb : g.blocks[b.id]? = none)
    (hroot : b.placement.anchor = none) : (g.addBlock b).Seated := by
  refine ⟨fun {i c m} hc => ?_⟩
  rw [getElem?_blocks_addBlock] at hc
  simp only [H.linked_addBlock hb]
  split at hc
  next he =>
    cases hc
    rw [hroot]
    simp only [reduceCtorEq, false_iff, not_exists, not_and]
    intro d hd hl
    obtain ⟨_, _, _, hq, _⟩ := H.ends hl
    exact H.notMem_of_fresh hb hq (Block.mem_of_primaryDivot hd)
  next => exact S.anchor_iff hc

/-! ## Cutting -/

theorem putDown_of_notMem (hn : ∀ n, b.placement.anchor = some n → n ∉ ids) :
    b.putDown g ids = b := by
  unfold Block.putDown
  split
  next hpl _ =>
    rw [if_neg (hn _ (by rw [hpl]; rfl))]
  next => rfl

theorem putDown_of_mem (hn : b.placement.anchor = some n) (hm : n ∈ ids)
    (hx : g.globalPosition b.id = .ok x) :
    b.putDown g ids = { b with placement := .root x } := by
  obtain ⟨offset, hpl⟩ := Placement.anchor_eq_some.mp hn
  unfold Block.putDown
  rw [hpl, hx]
  simp only [if_pos hm]

/-- A block that is put down stays where it is, and so does all that moves with it. -/
theorem PositionOf.cutAt (H : g.Stocked) (hx : g.PositionOf id k x) (hk : k ≤ g.size)
    (ids : List SnapId) : ∃ j, (g.cutAt ids).PositionOf id j x ∧ j ≤ k := by
  have hblock {i : BlockId} {b : Block} (hb : g.blocks[i]? = some b) :
      (g.cutAt ids).blocks[i]? = some (b.putDown g ids) := by
    rw [getElem?_blocks_cutAt, hb, Option.map_some]
  induction hx with
  | @root id b pos hb hpl =>
    refine ⟨1, .root (hblock hb) ?_, Nat.le_refl 1⟩
    rw [putDown_of_notMem (by rw [hpl]; simp), hpl]
  | @attached id b n offset p k pos hb hpl hn hup ih =>
    have hx := globalPosition_eq (.attached hb hpl hn hup) hk
    by_cases hm : n ∈ ids
    · refine ⟨1, .root (hblock hb) ?_, by omega⟩
      rw [putDown_of_mem (by rw [hpl]; rfl) hm (by rw [H.block_id hb]; exact hx)]
    · obtain ⟨j, hj, hle⟩ := ih (by omega)
      refine ⟨j + 1, .attached (n := n) (p := p.freed ids) (hblock hb) ?_ ?_ hj, by omega⟩
      · rw [putDown_of_notMem, hpl]
        rw [hpl]
        rintro m hnm
        cases hnm
        exact hm
      · rw [getElem?_snaps_cutAt, hn, Option.map_some]

theorem size_cutAt : (g.cutAt ids).size = g.size := size_eq_of_view stock_cutAt

theorem mem_blocks_cutAt : id ∈ (g.cutAt ids).blocks ↔ id ∈ g.blocks :=
  mem_blocks_of_view stock_cutAt

theorem Placed.cutAt (P : g.Placed) (H : g.Stocked) (ids : List SnapId) :
    (g.cutAt ids).Placed := by
  intro id hid
  obtain ⟨k, x, hx, hk⟩ := P id (mem_blocks_cutAt.mp hid)
  obtain ⟨j, hj, hle⟩ := hx.cutAt H hk ids
  exact ⟨j, x, hj, by rw [size_cutAt]; omega⟩

theorem Placed.globalPosition_cutAt (P : g.Placed) (H : g.Stocked) (hid : id ∈ g.blocks) :
    (g.cutAt ids).globalPosition id = g.globalPosition id := by
  obtain ⟨k, x, hx, hk⟩ := P id hid
  obtain ⟨j, hj, hle⟩ := hx.cutAt H hk ids
  rw [globalPosition_eq hx hk, globalPosition_eq hj (by rw [size_cutAt]; omega)]

theorem cutAt_congr {ids' : List SnapId} (hids : ∀ i, i ∈ ids ↔ i ∈ ids') :
    g.cutAt ids = g.cutAt ids' := by
  unfold cutAt Block.putDown SnapPoint.freed
  simp only [hids]

/-- Links may be cut one after another. -/
theorem Placed.cutAt_cutAt (P : g.Placed) (H : g.Stocked) (i : SnapId) :
    (g.cutAt ids).cutAt [i] = g.cutAt (i :: ids) := by
  refine ext rfl rfl rfl (fun j => ?_) (fun j => ?_) rfl rfl rfl
  · simp only [getElem?_blocks_cutAt]
    cases hb : g.blocks[j]? with
    | none => rfl
    | some b =>
      have hid := H.block_id hb
      have hj : b.id ∈ g.blocks := hid ▸ Table.mem_iff.mpr ⟨b, hb⟩
      obtain ⟨x, hx⟩ := P.exists_position hj
      simp only [Option.map_some, Option.some.injEq]
      cases hpl : b.placement.anchor with
      | none =>
        have hfree (ids : List SnapId) (h : Graph) : b.putDown h ids = b :=
          putDown_of_notMem (by rw [hpl]; simp)
        rw [hfree, hfree, hfree]
      | some n =>
        by_cases hn : n ∈ ids
        · rw [putDown_of_mem hpl hn hx, putDown_of_mem hpl (.tail _ hn) hx]
          exact putDown_of_notMem (by simp)
        · have hfree : b.putDown g ids = b := putDown_of_notMem (by rw [hpl]; simpa using hn)
          rw [hfree]
          by_cases hni : n = i
          · have hx' : (g.cutAt ids).globalPosition b.id = .ok x :=
              (P.globalPosition_cutAt H hj).trans hx
            rw [putDown_of_mem hpl (by simp [hni]) hx', putDown_of_mem hpl (by simp [hni]) hx]
          · rw [putDown_of_notMem (by rw [hpl]; simpa using hni),
              putDown_of_notMem (by rw [hpl]; simpa using ⟨hni, hn⟩)]
  · simp only [getElem?_snaps_cutAt]
    cases g.snaps[j]? with
    | none => rfl
    | some p =>
      simp only [Option.map_some, Option.some.injEq]
      unfold SnapPoint.freed
      by_cases hi : p.id = i <;> by_cases hids : p.id ∈ ids <;>
        simp [hi, hids, Option.filter_filter, Bool.and_comm]

theorem primaryDivot_putDown : (b.putDown g ids).primaryDivot = b.primaryDivot := by
  have hstem : (b.putDown g ids).stem = b.stem := stem_putDown b
  obtain ⟨hid, hdef⟩ := Block.eq_of_stem hstem
  rw [Block.primaryDivot, hid, hdef]
  rfl

theorem Placed.anchor_putDown (P : g.Placed) (H : g.Stocked) (hb : g.blocks[id]? = some b) :
    (b.putDown g ids).placement.anchor = some m ↔ m ∉ ids ∧ b.placement.anchor = some m := by
  cases hpl : b.placement.anchor with
  | none => rw [putDown_of_notMem (by rw [hpl]; simp), hpl]; simp
  | some n =>
    by_cases hn : n ∈ ids
    · have hid : b.id ∈ g.blocks := by rw [H.block_id hb]; exact Table.mem_iff.mpr ⟨b, hb⟩
      obtain ⟨x, hx⟩ := P.exists_position hid
      rw [putDown_of_mem hpl hn hx]
      simp only [Placement.anchor_root, reduceCtorEq, Option.some.injEq, false_iff, not_and]
      rintro hm rfl
      exact hm hn
    · rw [putDown_of_notMem (by rw [hpl]; simpa using hn), hpl]
      simp only [Option.some.injEq, iff_and_self]
      rintro rfl
      exact hn

/-- Where notches are cut, what hung from them is put down. -/
theorem Seated.cutAt (S : g.Seated) (H : g.Stocked) (P : g.Placed)
    (hids : ∀ n d, g.Linked n d → d ∉ ids) : (g.cutAt ids).Seated := by
  refine ⟨fun {i c m} hc => ?_⟩
  rw [getElem?_blocks_cutAt] at hc
  obtain ⟨b, hb, rfl⟩ := Option.map_eq_some_iff.mp hc
  rw [P.anchor_putDown H hb, S.anchor_iff hb]
  simp only [primaryDivot_putDown, linked_cutAt H]
  constructor
  · rintro ⟨hm, d, hd, hl⟩
    exact ⟨d, hd, hm, hids m d hl, hl⟩
  · rintro ⟨d, hd, hm, _, hl⟩
    exact ⟨hm, d, hd, hl⟩

/-- Dropping a block puts down what hung from it. -/
theorem Seated.without (S : g.Seated) (H : g.Stocked) (P : g.Placed)
    (hb : g.blocks[id]? = some b) : (g.without id b.snapPoints).Seated := by
  refine ⟨fun {i c m} hc => ?_⟩
  rw [getElem?_blocks_without] at hc
  split at hc
  · cases hc
  next hne =>
    obtain ⟨c₀, hc₀, rfl⟩ := Option.map_eq_some_iff.mp hc
    rw [P.anchor_putDown H hc₀, S.anchor_iff hc₀]
    simp only [primaryDivot_putDown, linked_without H]
    constructor
    · rintro ⟨hm, d, hd, hl⟩
      have hno : d ∉ b.snapPoints := fun hdb =>
        hne (H.eq_of_mem_snapPoints hb hc₀ hdb (Block.mem_of_primaryDivot hd))
      exact ⟨d, hd, hm, hno, hl⟩
    · rintro ⟨d, hd, hm, _, hl⟩
      exact ⟨hm, d, hd, hl⟩

end Graph

end SnapBlocks

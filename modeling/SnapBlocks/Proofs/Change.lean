import SnapBlocks.Proofs.Wired

/-! The changes of links that operations are made of, and that each keeps the links sound: a new
block comes with free ends, two free ends are linked, the links at some snap points are cut, and
a block whose ends are free is dropped. -/

namespace SnapBlocks

/-- A snap point without its links at some snap points. -/
def SnapPoint.freed (ids : List SnapId) (p : SnapPoint) : SnapPoint :=
  { p with
    previous := if p.id ∈ ids then none else p.previous.filter (· ∉ ids)
    next := if p.id ∈ ids then none else p.next.filter (· ∉ ids) }

/-- A block, put down where it is if it hangs from one of some notches. -/
def Block.putDown (g : Graph) (ids : List SnapId) (b : Block) : Block :=
  match b.placement, g.globalPosition b.id with
  | .attached notch _, .ok position =>
    if notch ∈ ids then { b with placement := .root position } else b
  | _, _ => b

namespace Graph

variable {g h : Graph} {b : Block} {id : BlockId} {s : Slot} {n m d e i : SnapId}
variable {p q : SnapPoint} {ids : List SnapId}

/-- Link a notch and a divot. -/
def link (g : Graph) (n d : SnapId) : Graph := (g.setNext n (some d)).setPrevious d (some n)

/-- Cut the links at some snap points, and put down the blocks that hang there. -/
def cutAt (g : Graph) (ids : List SnapId) : Graph :=
  { g with
    blocks := g.blocks.map fun _ b => b.putDown g ids
    snaps := g.snaps.map fun _ p => p.freed ids }

/-- A graph without a block, whose links are cut. -/
def without (g : Graph) (id : BlockId) (ids : List SnapId) : Graph :=
  ((g.cutAt ids).dropSnaps ids).dropBlock id

/-! ## Linking -/

@[simp] theorem stock_link : (g.link n d).stock = g.stock := by
  rw [link, stock_setPrevious, stock_setNext]

theorem getElem?_snaps_link (hne : n ≠ d) (i : SnapId) :
    (g.link n d).snaps[i]? =
      if d = i then g.snaps[i]?.map fun p => { p with previous := some n }
      else if n = i then g.snaps[i]?.map fun p => { p with next := some d } else g.snaps[i]? := by
  rw [link, getElem?_snaps_setPrevious, getElem?_snaps_setNext]
  by_cases hd : d = i
  · rw [if_pos hd, if_pos hd, if_neg (hd ▸ hne)]
  · rw [if_neg hd, if_neg hd]

section
variable (hp : g.snaps[n]? = some p) (hq : g.snaps[d]? = some q) (hne : n ≠ d)
include hp hq hne

theorem linked_link : (g.link n d).Linked m e ↔ (m = n ∧ e = d) ∨ (m ≠ n ∧ g.Linked m e) := by
  unfold Linked
  rw [getElem?_snaps_link hne]
  by_cases hm : m = n
  · subst hm
    simp [hp, hne.symm, eq_comm]
  · by_cases hd : d = m
    · subst hd
      simp [hq, hne.symm]
    · simp [hm, hd, Ne.symm hm]

theorem hung_link : (g.link n d).Hung e m ↔ (m = n ∧ e = d) ∨ (e ≠ d ∧ g.Hung e m) := by
  unfold Hung
  rw [getElem?_snaps_link hne]
  by_cases he : e = d
  · subst he
    simp [hq, eq_comm]
  · by_cases hn : n = e
    · subst hn
      simp [hp, Ne.symm hne, hne]
    · simp [he, hn, Ne.symm he]

end

/-- A free notch and a free divot of different blocks may be linked. -/
theorem Wired.link (H : g.Wired) (hp : g.snaps[n]? = some p) (hq : g.snaps[d]? = some q)
    (hpk : p.kind.isNotch) (hqk : q.kind = .primaryDivot) (hpn : p.next = none)
    (hqp : q.previous = none) (hb : p.block ≠ q.block) : (g.link n d).Wired := by
  have hne : n ≠ d := fun he => by
    subst he
    cases hp.symm.trans hq
    exact hb rfl
  have hfree (m) : ¬ g.Linked m d := by
    simp [H.linked_iff_previous hq, hqp]
  have hfree' (e) : ¬ g.Hung e n := by
    simp [← H.linked_iff, linked_iff_next hp, hpn]
  refine (H.toStocked.of_stock stock_link.symm).wired (fun m e => ?_) fun m e hl => ?_
  · rw [linked_link hp hq hne, hung_link hp hq hne]
    constructor
    · rintro (h | ⟨_, hl⟩)
      · exact .inl h
      · exact .inr ⟨fun he => hfree m (he ▸ hl), H.linked_iff.mp hl⟩
    · rintro (h | ⟨_, hl⟩)
      · exact .inl h
      · exact .inr ⟨fun he => hfree' e (he ▸ hl), H.linked_iff.mpr hl⟩
  · intro p' hp' q' hq'
    have hsnap : ∀ {i : SnapId} {x : SnapPoint}, (g.link n d).snaps[i]? = some x →
        ∃ y, g.snaps[i]? = some y ∧ x.blank = y.blank :=
      fun hx => exists_snap_of_view stock_link hx
    obtain ⟨p₀, hp₀, hpb⟩ := hsnap hp'
    obtain ⟨q₀, hq₀, hqb⟩ := hsnap hq'
    obtain ⟨_, hpb, _, _, hpk'⟩ := SnapPoint.eq_of_blank hpb
    obtain ⟨_, hqb, _, _, hqk'⟩ := SnapPoint.eq_of_blank hqb
    rw [hpb, hpk', hqb, hqk']
    rcases (linked_link hp hq hne).mp hl with ⟨rfl, rfl⟩ | ⟨_, hl⟩
    · cases hp.symm.trans hp₀
      cases hq.symm.trans hq₀
      exact ⟨hpk, hqk, hb⟩
    · obtain ⟨p₁, q₁, hp₁, hq₁, _, _, hn, hd, hne⟩ := H.ends hl
      cases hp₀.symm.trans hp₁
      cases hq₀.symm.trans hq₁
      exact ⟨hn, hd, hne⟩

/-! ## Cutting -/

theorem getElem?_blocks_cutAt (ids : List SnapId) (i : BlockId) :
    (g.cutAt ids).blocks[i]? = g.blocks[i]?.map (·.putDown g ids) := Std.ExtTreeMap.getElem?_map

theorem getElem?_snaps_cutAt (ids : List SnapId) (i : SnapId) :
    (g.cutAt ids).snaps[i]? = g.snaps[i]?.map (·.freed ids) := Std.ExtTreeMap.getElem?_map

theorem stem_putDown (b : Block) : (b.putDown g ids).stem = b.stem := by
  unfold Block.putDown
  split
  · split <;> rfl
  · rfl

@[simp] theorem stock_cutAt : (g.cutAt ids).stock = g.stock := by
  refine view_ext rfl rfl (fun i => ?_) (fun i => ?_) rfl rfl
  · rw [getElem?_blocks_cutAt]
    cases g.blocks[i]? <;> simp [stem_putDown]
  · rw [getElem?_snaps_cutAt]
    cases g.snaps[i]? <;> simp [SnapPoint.freed, SnapPoint.blank]

theorem linked_cutAt (H : g.Stocked) :
    (g.cutAt ids).Linked n d ↔ n ∉ ids ∧ d ∉ ids ∧ g.Linked n d := by
  unfold Linked
  rw [getElem?_snaps_cutAt]
  cases hp : g.snaps[n]? with
  | none => simp
  | some p =>
    have hid := H.snap_id hp
    by_cases hn : n ∈ ids <;>
      simp [SnapPoint.freed, hid, hn, Option.filter_eq_some_iff, and_comm]

theorem hung_cutAt (H : g.Stocked) :
    (g.cutAt ids).Hung d n ↔ n ∉ ids ∧ d ∉ ids ∧ g.Hung d n := by
  unfold Hung
  rw [getElem?_snaps_cutAt]
  cases hp : g.snaps[d]? with
  | none => simp
  | some p =>
    have hid := H.snap_id hp
    by_cases hd : d ∈ ids <;>
      simp [SnapPoint.freed, hid, hd, Option.filter_eq_some_iff, and_comm]

theorem Wired.cutAt (H : g.Wired) (ids : List SnapId) : (g.cutAt ids).Wired := by
  refine (H.toStocked.of_stock stock_cutAt.symm).wired (fun m e => ?_) fun m e hl => ?_
  · rw [linked_cutAt H.toStocked, hung_cutAt H.toStocked, H.linked_iff]
  · intro p' hp' q' hq'
    obtain ⟨p₀, q₀, hp₀, hq₀, _, _, hn, hd, hne⟩ := H.ends ((linked_cutAt H.toStocked).mp hl).2.2
    rw [getElem?_snaps_cutAt, hp₀] at hp'
    rw [getElem?_snaps_cutAt, hq₀] at hq'
    cases hp'
    cases hq'
    exact ⟨hn, hd, hne⟩

/-! ## Making a block -/

private theorem snaps_foldl_addSnap (l : List SnapPoint) (g : Graph) :
    (l.foldl addSnap g).snaps =
      (l.map fun p => (p.id, p)).foldl (fun t p => t.insert p.1 p.2) g.snaps := by
  induction l generalizing g with
  | nil => rfl
  | cons p rest ih => exact ih _

private theorem mem_notches_foldl_addSnap (l : List SnapPoint) (g : Graph) :
    i ∈ (l.foldl addSnap g).notches ↔ i ∈ g.notches ∨ ∃ p ∈ l, p.id = i ∧ p.kind.isNotch := by
  induction l generalizing g with
  | nil => simp
  | cons p rest ih =>
    rw [List.foldl_cons, ih]
    by_cases hk : p.kind.isNotch <;> simp [addSnap, hk, or_assoc, or_left_comm]

private theorem mem_divots_foldl_addSnap (l : List SnapPoint) (g : Graph) :
    i ∈ (l.foldl addSnap g).divots ↔ i ∈ g.divots ∨ ∃ p ∈ l, p.id = i ∧ p.kind.isDivot := by
  induction l generalizing g with
  | nil => simp
  | cons p rest ih =>
    rw [List.foldl_cons, ih]
    by_cases hk : p.kind.isDivot <;> simp [addSnap, hk, or_assoc, or_left_comm]

private theorem foldl_addSnap_rest (l : List SnapPoint) (g : Graph) :
    (l.foldl addSnap g).blocks = g.blocks ∧ (l.foldl addSnap g).config = g.config ∧
      (l.foldl addSnap g).catalog = g.catalog ∧ (l.foldl addSnap g).layout = g.layout ∧
      (l.foldl addSnap g).drag = g.drag := by
  induction l generalizing g with
  | nil => simp
  | cons p rest ih => exact ih _

theorem getElem?_blocks_addBlock (i : BlockId) :
    (g.addBlock b).blocks[i]? = if b.id = i then some b else g.blocks[i]? := by
  unfold addBlock
  simp only [(foldl_addSnap_rest _ g).1]
  exact Table.getElem?_insert _ _ _

theorem config_addBlock : (g.addBlock b).config = g.config := (foldl_addSnap_rest _ g).2.1
theorem layout_addBlock : (g.addBlock b).layout = g.layout := (foldl_addSnap_rest _ g).2.2.2.1

theorem drag_addBlock : (g.addBlock b).drag = g.drag := (foldl_addSnap_rest _ g).2.2.2.2

theorem getElem?_snaps_addBlock_of_mem (hs : s ∈ b.definition.slots) :
    (g.addBlock b).snaps[s.snapId b.id]? = some (s.fresh b.id) := by
  have hkeys :
      (((b.definition.slots.map (·.fresh b.id)).map fun p => (p.id, p)).map (·.1)).Nodup := by
    have hn := b.snapPoints_nodup
    simpa [Block.snapPoints, Function.comp_def, Slot.fresh] using hn
  change (List.foldl addSnap g _).snaps[_]? = _
  rw [snaps_foldl_addSnap]
  exact Table.getElem?_foldl_insert_of_mem (p := (s.snapId b.id, s.fresh b.id)) hkeys
    (List.mem_map.mpr ⟨_, List.mem_map_of_mem hs, rfl⟩) _

theorem getElem?_snaps_addBlock_of_notMem (hi : i ∉ b.snapPoints) :
    (g.addBlock b).snaps[i]? = g.snaps[i]? := by
  change (List.foldl addSnap g _).snaps[i]? = _
  rw [snaps_foldl_addSnap]
  refine Table.getElem?_foldl_insert_of_notMem (fun p hp he => hi ?_) _
  obtain ⟨_, hm, rfl⟩ := List.mem_map.mp hp
  obtain ⟨s, hs, rfl⟩ := List.mem_map.mp hm
  exact Block.mem_snapPoints.mpr ⟨s, hs, he⟩

theorem mem_notches_addBlock : i ∈ (g.addBlock b).notches ↔
    i ∈ g.notches ∨ ∃ s ∈ b.definition.slots, s.snapId b.id = i ∧ s.kind.isNotch := by
  change i ∈ (List.foldl addSnap g _).notches ↔ _
  rw [mem_notches_foldl_addSnap]
  simp [Slot.fresh]

theorem mem_divots_addBlock : i ∈ (g.addBlock b).divots ↔
    i ∈ g.divots ∨ ∃ s ∈ b.definition.slots, s.snapId b.id = i ∧ s.kind.isDivot := by
  change i ∈ (List.foldl addSnap g _).divots ↔ _
  rw [mem_divots_foldl_addSnap]
  simp [Slot.fresh]

/-- A snap point of a block that is there is none of a block that is not. -/
theorem Stocked.notMem_of_fresh (H : g.Stocked) (hb : g.blocks[b.id]? = none)
    (hp : g.snaps[i]? = some p) : i ∉ b.snapPoints := by
  intro hi
  obtain ⟨s, _, hsi⟩ := Block.mem_snapPoints.mp hi
  obtain ⟨c, hc, t, _, hti, _⟩ := H.snap_of hp
  rw [Slot.snapId_block (hti.trans hsi.symm), hb] at hc
  cases hc

/-- The snap points after a block was made are the old ones, and the free ones of the block. -/
theorem Stocked.snaps_addBlock (H : g.Stocked) (hb : g.blocks[b.id]? = none) :
    (g.addBlock b).snaps[i]? = some p ↔
      g.snaps[i]? = some p ∨
        ∃ s ∈ b.definition.slots, s.snapId b.id = i ∧ p = s.fresh b.id := by
  by_cases hi : i ∈ b.snapPoints
  · have hnone : g.snaps[i]? ≠ some p := fun hp => H.notMem_of_fresh hb hp hi
    obtain ⟨s, hs, rfl⟩ := Block.mem_snapPoints.mp hi
    rw [getElem?_snaps_addBlock_of_mem hs]
    constructor
    · intro hp
      exact .inr ⟨s, hs, rfl, (Option.some.inj hp).symm⟩
    · rintro (hp | ⟨t, ht, hti, rfl⟩)
      · exact absurd hp hnone
      · rw [Definition.snapId_inj ht hs hti]
  · rw [getElem?_snaps_addBlock_of_notMem hi]
    constructor
    · exact .inl
    · rintro (hp | ⟨s, hs, hsi, _⟩)
      · exact hp
      · exact absurd (Block.mem_snapPoints.mpr ⟨s, hs, hsi⟩) hi

theorem Stocked.exists_snap_addBlock (H : g.Stocked) (hb : g.blocks[b.id]? = none)
    {P : SnapPoint → Prop} :
    (∃ p, (g.addBlock b).snaps[i]? = some p ∧ P p) ↔
      (∃ p, g.snaps[i]? = some p ∧ P p) ∨
        ∃ s ∈ b.definition.slots, s.snapId b.id = i ∧ P (s.fresh b.id) := by
  constructor
  · rintro ⟨p, hp, hk⟩
    rcases (H.snaps_addBlock hb).mp hp with hp | ⟨s, hs, hi, rfl⟩
    · exact .inl ⟨p, hp, hk⟩
    · exact .inr ⟨s, hs, hi, hk⟩
  · rintro (⟨p, hp, hk⟩ | ⟨s, hs, hi, hk⟩)
    · exact ⟨p, (H.snaps_addBlock hb).mpr (.inl hp), hk⟩
    · exact ⟨_, (H.snaps_addBlock hb).mpr (.inr ⟨s, hs, hi, rfl⟩), hk⟩

theorem Stocked.linked_addBlock (H : g.Stocked) (hb : g.blocks[b.id]? = none) :
    (g.addBlock b).Linked n d ↔ g.Linked n d := by
  unfold Linked
  rw [H.exists_snap_addBlock hb]
  simp [Slot.fresh]

theorem Stocked.hung_addBlock (H : g.Stocked) (hb : g.blocks[b.id]? = none) :
    (g.addBlock b).Hung d n ↔ g.Hung d n := by
  unfold Hung
  rw [H.exists_snap_addBlock hb]
  simp [Slot.fresh]

theorem Stocked.addBlock (H : g.Stocked) (hb : g.blocks[b.id]? = none) :
    (g.addBlock b).Stocked where
  block_id {i c} hc := by
    rw [getElem?_blocks_addBlock] at hc
    split at hc
    · cases hc; assumption
    · exact H.block_id hc
  snap_of {i p} hp := by
    rcases (H.snaps_addBlock hb).mp hp with hp | ⟨s, hs, rfl, rfl⟩
    · obtain ⟨c, hc, hrest⟩ := H.snap_of hp
      have hne : b.id ≠ p.block := fun he => by rw [← he, hb] at hc; cases hc
      exact ⟨c, by rw [getElem?_blocks_addBlock, if_neg hne]; exact hc, hrest⟩
    · exact ⟨b, by rw [getElem?_blocks_addBlock]; exact if_pos rfl, s, hs, rfl, rfl⟩
  snap_at {i c s} hc hs := by
    rw [getElem?_blocks_addBlock] at hc
    split at hc
    next he =>
      cases hc
      subst he
      exact ⟨_, getElem?_snaps_addBlock_of_mem hs, rfl⟩
    next =>
      obtain ⟨p, hp, hfresh⟩ := H.snap_at hc hs
      exact ⟨p, (H.snaps_addBlock hb).mpr (.inl hp), hfresh⟩
  mem_notches {i} := by
    rw [mem_notches_addBlock, H.mem_notches, H.exists_snap_addBlock hb]
    rfl
  mem_divots {i} := by
    rw [mem_divots_addBlock, H.mem_divots, H.exists_snap_addBlock hb]
    rfl

theorem Wired.addBlock (H : g.Wired) (hb : g.blocks[b.id]? = none) : (g.addBlock b).Wired := by
  have hS := H.toStocked
  refine (hS.addBlock hb).wired (fun m e => ?_) fun m e hl => ?_
  · rw [hS.linked_addBlock hb, hS.hung_addBlock hb, H.linked_iff]
  · intro p' hp' q' hq'
    obtain ⟨p₀, q₀, hp₀, hq₀, _, _, hends⟩ := H.ends ((hS.linked_addBlock hb).mp hl)
    cases ((hS.snaps_addBlock hb).mpr (.inl hp₀)).symm.trans hp'
    cases ((hS.snaps_addBlock hb).mpr (.inl hq₀)).symm.trans hq'
    exact hends

/-! ## Dropping a block -/

theorem getElem?_blocks_without (i : BlockId) :
    (g.without id ids).blocks[i]? =
      if id = i then none else g.blocks[i]?.map (·.putDown g ids) := by
  rw [← getElem?_blocks_cutAt]
  exact Table.getElem?_erase _ _

theorem getElem?_snaps_without (i : SnapId) :
    (g.without id ids).snaps[i]? =
      if i ∈ ids then none else g.snaps[i]?.map (·.freed ids) := by
  rw [← getElem?_snaps_cutAt]
  exact Table.getElem?_eraseAll _ _

theorem exists_snap_without {P : SnapPoint → Prop} :
    (∃ p, (g.without id ids).snaps[i]? = some p ∧ P p) ↔
      i ∉ ids ∧ ∃ p, (g.cutAt ids).snaps[i]? = some p ∧ P p := by
  rw [getElem?_snaps_without, getElem?_snaps_cutAt]
  by_cases hi : i ∈ ids <;> simp [hi]

theorem linked_without (H : g.Stocked) :
    (g.without id ids).Linked n d ↔ n ∉ ids ∧ d ∉ ids ∧ g.Linked n d := by
  rw [Linked, exists_snap_without, ← Linked, linked_cutAt H, and_self_left]

theorem hung_without (H : g.Stocked) :
    (g.without id ids).Hung d n ↔ n ∉ ids ∧ d ∉ ids ∧ g.Hung d n := by
  rw [Hung, exists_snap_without, ← Hung, hung_cutAt H]
  tauto

theorem Stocked.without (H : g.Stocked) (hb : g.blocks[id]? = some b) :
    (g.without id b.snapPoints).Stocked where
  block_id {i c} hc := by
    rw [getElem?_blocks_without] at hc
    split at hc
    · cases hc
    · obtain ⟨c₀, hc₀, rfl⟩ := Option.map_eq_some_iff.mp hc
      rw [(Block.eq_of_stem (stem_putDown c₀)).1]
      exact H.block_id hc₀
  snap_of {i p} hp := by
    rw [getElem?_snaps_without] at hp
    split at hp
    · cases hp
    next hi =>
      obtain ⟨p₀, hp₀, rfl⟩ := Option.map_eq_some_iff.mp hp
      obtain ⟨c, hc, s, hs, hsi, hfresh⟩ := H.snap_of hp₀
      have hne : id ≠ p₀.block := fun he => by
        subst he
        exact hi (H.mem_snapPoints hp₀ hb)
      refine ⟨c.putDown g b.snapPoints, ?_, s, ?_, hsi, hfresh⟩
      · change (Graph.without g id b.snapPoints).blocks[p₀.block]? = _
        rw [getElem?_blocks_without, if_neg hne, hc, Option.map_some]
      · rw [(Block.eq_of_stem (stem_putDown c)).2]; exact hs
  snap_at {i c s} hc hs := by
    rw [getElem?_blocks_without] at hc
    split at hc
    · cases hc
    next hne =>
      obtain ⟨c₀, hc₀, rfl⟩ := Option.map_eq_some_iff.mp hc
      rw [(Block.eq_of_stem (stem_putDown c₀)).2] at hs
      obtain ⟨p, hp, hfresh⟩ := H.snap_at hc₀ hs
      refine ⟨p.freed b.snapPoints, ?_, hfresh⟩
      rw [getElem?_snaps_without, if_neg, hp, Option.map_some]
      intro hm
      obtain ⟨t, _, hti⟩ := Block.mem_snapPoints.mp hm
      rw [H.block_id hb] at hti
      exact hne (Slot.snapId_block hti)
  mem_notches {i} := by
    rw [show i ∈ (Graph.without g id b.snapPoints).notches ↔ i ∉ b.snapPoints ∧ i ∈ g.notches from
      TextSet.mem_eraseAll, getElem?_snaps_without, H.mem_notches]
    by_cases hi : i ∈ b.snapPoints <;> simp [hi, SnapPoint.freed]
  mem_divots {i} := by
    rw [show i ∈ (Graph.without g id b.snapPoints).divots ↔ i ∉ b.snapPoints ∧ i ∈ g.divots from
      TextSet.mem_eraseAll, getElem?_snaps_without, H.mem_divots]
    by_cases hi : i ∈ b.snapPoints <;> simp [hi, SnapPoint.freed]

theorem Wired.without (H : g.Wired) (hb : g.blocks[id]? = some b) :
    (g.without id b.snapPoints).Wired := by
  have hS := H.toStocked
  refine (hS.without hb).wired (fun m e => ?_) fun m e hl => ?_
  · rw [linked_without hS, hung_without hS, H.linked_iff]
  · intro p' hp' q' hq'
    obtain ⟨hn, hd, hl⟩ := (linked_without hS).mp hl
    obtain ⟨p₀, q₀, hp₀, hq₀, _, _, hends⟩ := H.ends hl
    rw [getElem?_snaps_without, if_neg hn, hp₀] at hp'
    rw [getElem?_snaps_without, if_neg hd, hq₀] at hq'
    cases hp'
    cases hq'
    exact hends

end Graph

end SnapBlocks

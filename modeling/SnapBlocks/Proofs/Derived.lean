import SnapBlocks.Proofs.Settle

/-! What is derived from the links of a sound graph is determined by them. Tails follow from the
chains. Heights follow from below: the height of a block depends on those of the blocks that stand
below it, which are deeper, and no block is deeper than the longest way down. -/

namespace SnapBlocks

/-- A layout that gives every snap point its place. -/
def Layout.Complete (l : Layout) : Prop :=
  ∀ d extra, d.slots.length ≤ (l.place d extra).positions.length

theorem Layout.stacked_complete : stacked.Complete := fun d extra => by
  rw [stacked]
  exact Nat.le_of_eq (List.length_map _).symm

/-- The extra heights of a block are given by those of its nests. -/
theorem Block.Plain.extra_eq {b c : Block} (hb : b.Plain) (hc : c.Plain)
    (hdef : b.definition = c.definition)
    (hnest : ∀ s ∈ b.definition.slots, s.kind = .secondaryNotch →
      b.extra[s.segmentId]? = c.extra[s.segmentId]?) : b.extra = c.extra := by
  refine Table.ext fun key => ?_
  by_cases hkey : ∃ seg ∈ b.definition.segments, seg.id = key
  · obtain ⟨seg, hseg, rfl⟩ := hkey
    by_cases hseat : ∃ s ∈ b.definition.slots, s.kind = .secondaryNotch ∧ s.segmentId = seg.id
    · obtain ⟨s, hs, hk, hsid⟩ := hseat
      exact hsid ▸ hnest s hs hk
    · have hno : ∀ s ∈ b.definition.slots, s.kind = .secondaryNotch → s.segmentId ≠ seg.id :=
        fun s hs hk he => hseat ⟨s, hs, hk, he⟩
      rw [hb.zero hseg hno, hc.zero (hdef ▸ hseg) (hdef ▸ hno)]
  · have hnone {t : Table Float} (ht : key ∉ t) : t[key]? = none := by
      by_contra hsome
      exact ht (Table.mem_iff.mpr (Option.ne_none_iff_exists'.mp hsome))
    rw [hnone fun hm => hkey (hb.mem_extra.mp hm),
      hnone fun hm => hkey (hdef ▸ hc.mem_extra.mp hm)]

namespace Graph

open Relation

variable {ok : Definition → Prop} {g h : Graph} {b c : Block} {id : BlockId} {k : Nat}

section
variable (S : g.Sound ok) (S' : h.Sound ok) (heq : g.shape = h.shape)
include S S' heq

/-- Blocks that are stretched by the same heights are of one size. -/
theorem Sound.size_eq_of_below (hb : g.blocks[id]? = some b) (hc : h.blocks[id]? = some c)
    (hbelow : ∀ x, x ≠ id → g.Under x id →
      g.blocks[x]?.map (·.height) = h.blocks[x]?.map (·.height)) :
    b.extra = c.extra ∧ b.height = c.height := by
  have hdef : b.definition = c.definition := by
    obtain ⟨c', hc', hbc⟩ := exists_block_of_view heq hb
    cases hc.symm.trans hc'
    exact (Block.eq_of_bare hbc).2.1
  have hextra : b.extra = c.extra := by
    refine (S.kempt.plain hb).extra_eq (S'.kempt.plain hc) hdef fun s hs hk => ?_
    obtain ⟨p, x, hp, hx, he⟩ := S.stretched id b hb s hs hk
    obtain ⟨q, y, hq, hy, he'⟩ := S'.stretched id c hc s (hdef ▸ hs) hk
    obtain ⟨q', hq', hpq⟩ := exists_snap_of_view heq hp
    cases hq.symm.trans hq'
    have hxy := S.hangingHeight_congr (wires_of_shape heq) hp (h := h) <| by
      rw [(S.snap_at_eq hb hs hp).1]
      exact hbelow
    rw [hx, (SnapPoint.eq_of_unplaced hpq).2.2, hy] at hxy
    cases hxy
    rw [he, he']
  refine ⟨hextra, ?_⟩
  rw [(S.kempt.laid hb).height, (S'.kempt.laid hc).height, hdef, hextra, layout_eq_of_view heq]

/-- From the deepest blocks upwards all sizes agree. -/
theorem Sound.size_eq (hk : g.DepthOf id k) (hb : g.blocks[id]? = some b)
    (hc : h.blocks[id]? = some c) : b.extra = c.extra ∧ b.height = c.height := by
  induction hm : max 1 g.config.maxChainHops - k using Nat.strongRecOn
    generalizing id k b c with
  | _ m ih =>
    refine S.size_eq_of_below S' heq hb hc fun x hne hu => ?_
    cases hx : g.blocks[x]? with
    | none => rw [blocks_eq_none_of_view heq hx]
    | some e =>
      obtain ⟨e', hx', _⟩ := exists_block_of_view heq hx
      obtain ⟨j, hj, _⟩ := S.depth (Table.mem_iff.mpr ⟨e, hx⟩)
      obtain ⟨k', hk', hle, hne'⟩ := hj.under hu
      cases hk.unique hk'
      have hlt : k < j := Nat.lt_of_le_of_ne hle fun he => hne (hne' he).symm
      have hj' := S.depth_le hj
      have hsize := ih _ (by omega) hj hx hx' rfl
      rw [hx', Option.map_some, Option.map_some, hsize.2]

/-- **The links determine the caches.** -/
theorem Sound.blocks_eq : g.blocks = h.blocks := by
  refine Table.ext fun id => ?_
  cases hb : g.blocks[id]? with
  | none => exact (blocks_eq_none_of_view heq hb).symm
  | some b =>
    obtain ⟨c, hc, hbc⟩ := exists_block_of_view heq hb
    have hid := Table.mem_iff.mpr ⟨b, hb⟩
    obtain ⟨k, hk, _⟩ := S.depth hid
    obtain ⟨hextra, hheight⟩ := S.size_eq S' heq hk hb hc
    obtain ⟨b', hb', ht⟩ := S.tailed hid
    obtain ⟨c', hc', ht'⟩ := S'.tailed ((mem_blocks_of_view heq).mp hid)
    cases hb.symm.trans hb'
    cases hc.symm.trans hc'
    have hdeepest : b.deepest = c.deepest := by
      rw [chainTail_congr (wires_of_shape heq), ht'] at ht
      exact (Except.ok.inj ht).symm
    obtain ⟨hid, hdef, hinputs, hpl⟩ := Block.eq_of_bare hbc
    rw [hc]
    cases b
    cases c
    simp_all

/-- Where the layout places all snap points, the links determine these as well. -/
theorem Sound.snaps_eq (hcomplete : g.layout.Complete) : g.snaps = h.snaps := by
  refine Table.ext fun i => ?_
  cases hp : g.snaps[i]? with
  | none => exact (snaps_eq_none_of_view heq hp).symm
  | some p =>
    obtain ⟨q, hq, hpq⟩ := exists_snap_of_view heq hp
    obtain ⟨b, hb⟩ := S.exists_block hp
    have hc : h.blocks[p.block]? = some b := S.blocks_eq S' heq ▸ hb
    obtain ⟨j, hj⟩ := List.mem_iff_getElem?.mp (S.mem_snapPoints hp hb)
    obtain ⟨pos, hpos⟩ : ∃ pos,
        (g.layout.place b.definition b.extra).positions[j]? = some pos := by
      have hlt : j < b.definition.slots.length := by
        have := (List.getElem?_eq_some_iff.mp hj).1
        rwa [Block.snapPoints, List.length_map] at this
      exact ⟨_, List.getElem?_eq_getElem (Nat.lt_of_lt_of_le hlt (hcomplete _ _))⟩
    have hzip : (i, pos) ∈ b.snapPoints.zip (g.layout.place b.definition b.extra).positions :=
      List.mem_of_getElem? (i := j) (List.getElem?_zip_eq_some.mpr ⟨hj, hpos⟩)
    obtain ⟨p', hp', hpp⟩ := (S.kempt.laid hb).position hzip
    obtain ⟨q', hq', hqp⟩ := (S'.kempt.laid hc).position (layout_eq_of_view heq ▸ hzip)
    cases hp.symm.trans hp'
    cases hq.symm.trans hq'
    have hposition : p.position = q.position := hpp.trans hqp.symm
    rw [hq]
    cases p
    cases q
    simp_all [SnapPoint.unplaced]

end

end Graph

end SnapBlocks

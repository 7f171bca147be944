import SnapBlocks.Proofs.Settle

/-! Linking, cutting and removing keep the invariant. Each is a change of links followed by a
refresh from the blocks at which it was made; off the way up from there nothing changes below a
block, and on that way everything is refreshed. -/

namespace SnapBlocks

theorem Block.core_putDown {g : Graph} {ids : List SnapId} (b : Block) :
    (b.putDown g ids).core = b.core ∧ (b.putDown g ids).inputs = b.inputs := by
  unfold putDown
  split
  · split <;> exact ⟨rfl, rfl⟩
  · exact ⟨rfl, rfl⟩

theorem Block.sizes_of_core {b c : Block} (h : c.core = b.core) : c.sizes = b.sizes := by
  simp [sizes, h]

namespace Graph

open Relation

variable {ok : Definition → Prop} {g h : Graph} {b c : Block} {id low up x y : BlockId}
variable {n d i : SnapId} {p q : SnapPoint} {pl : Placement} {ids : List SnapId}

/-! ## Changes of links -/

/-- A change of links and placements keeps what they do not decide. -/
theorem Base.of_links (B : g.Base ok) (F : h.Forest) (hseated : h.Seated)
    (hlayout : h.layout = g.layout)
    (hblocks : ∀ (id : BlockId) (c : Block), h.blocks[id]? = some c →
      ∃ b : Block, g.blocks[id]? = some b ∧ c.core = b.core ∧ c.inputs = b.inputs)
    (hsnaps : ∀ (i : SnapId) (q : SnapPoint), h.snaps[i]? = some q →
      ∃ p : SnapPoint, g.snaps[i]? = some p ∧ q.position = p.position) : h.Base ok where
  toForest := F
  defined {id c} hc := by
    obtain ⟨b, hb, hcore, _⟩ := hblocks id c hc
    exact (Block.eq_of_core hcore).2.1 ▸ B.defined hb
  seated := hseated
  kempt := by
    refine B.kempt.of_sizes hlayout (fun id c hc => ?_) fun id c hc i hi p hp => ?_
    · obtain ⟨b, hb, hcore, _⟩ := hblocks id c hc
      exact ⟨b, hb, Block.sizes_of_core hcore⟩
    · obtain ⟨q, hq, _⟩ := F.snap_of_mem hc hi
      obtain ⟨p', hp', hpos⟩ := hsnaps i q hq
      cases hp.symm.trans hp'
      exact ⟨q, hq, hpos⟩
  filled {id c} hc := by
    obtain ⟨b, hb, hcore, hinputs⟩ := hblocks id c hc
    exact (B.filled hb).congr (Block.eq_of_core hcore).2.1 hinputs

theorem Base.link (B : g.Base ok) (hp : g.snaps[n]? = some p) (hq : g.snaps[d]? = some q)
    (J : g.Joinable p q) (offset : Point) :
    ((g.link n d).setPlacement q.block (.attached n offset)).Base ok := by
  have hw : (g.link n d).wires =
      ((g.link n d).setPlacement q.block (.attached n offset)).wires := wires_setPlacement.symm
  have hF := (Forest.link B.toForest hp hq J).of_wires hw
  refine B.of_links hF (Seated.link B.seated B.toForest hp hq J _) rfl (fun id c hc => ?_)
    fun i r hr => ?_
  · rw [getElem?_blocks_setPlacement] at hc
    split at hc
    · obtain ⟨b, hb, rfl⟩ := Option.map_eq_some_iff.mp hc
      exact ⟨b, hb, rfl, rfl⟩
    · exact ⟨c, hc, rfl, rfl⟩
  · have hr : (g.link n d).snaps[i]? = some r := hr
    rw [getElem?_snaps_link (J.ends_ne hp hq)] at hr
    split at hr
    · obtain ⟨r₀, hr₀, rfl⟩ := Option.map_eq_some_iff.mp hr
      exact ⟨r₀, hr₀, rfl⟩
    · split at hr
      · obtain ⟨r₀, hr₀, rfl⟩ := Option.map_eq_some_iff.mp hr
        exact ⟨r₀, hr₀, rfl⟩
      · exact ⟨r, hr, rfl⟩

theorem Base.cutAt (B : g.Base ok) (hids : ∀ n d, g.Linked n d → d ∉ ids) :
    (g.cutAt ids).Base ok := by
  refine B.of_links (B.toForest.cutAt ids) (B.seated.cutAt B.toStocked B.placed hids) rfl
    (fun id c hc => ?_) fun i q hq => ?_
  · rw [getElem?_blocks_cutAt] at hc
    obtain ⟨b, hb, rfl⟩ := Option.map_eq_some_iff.mp hc
    exact ⟨b, hb, Block.core_putDown b⟩
  · rw [getElem?_snaps_cutAt] at hq
    obtain ⟨r, hr, rfl⟩ := Option.map_eq_some_iff.mp hq
    exact ⟨r, hr, rfl⟩

theorem Base.cutAt_of_linked (B : g.Base ok) (hl : g.Linked n d) : (g.cutAt [n]).Base ok :=
  B.cutAt fun m e hme => by
    rw [List.mem_singleton]
    rintro rfl
    exact B.not_linked_of_linked hme hl

theorem Base.without (B : g.Base ok) (hb : g.blocks[id]? = some b) :
    (g.without id b.snapPoints).Base ok := by
  refine B.of_links (B.toForest.without hb) (B.seated.without B.toStocked B.placed hb) rfl
    (fun i c hc => ?_) fun i q hq => ?_
  · rw [getElem?_blocks_without] at hc
    split at hc
    · cases hc
    · obtain ⟨b, hb, rfl⟩ := Option.map_eq_some_iff.mp hc
      exact ⟨b, hb, Block.core_putDown b⟩
  · rw [getElem?_snaps_without] at hq
    split at hq
    · cases hq
    · obtain ⟨r, hr, rfl⟩ := Option.map_eq_some_iff.mp hq
      exact ⟨r, hr, rfl⟩

/-- The caches of a block stay right as long as nothing below it changes. -/
theorem Sound.of_kept (S : g.Sound ok) (F : h.Forest) (hx : x ∈ g.blocks)
    (hk : ∀ y, g.Under y x → Kept g h y) : h.Tailed x ∧ h.Stretched x :=
  ⟨.of_kept S.toForest F hk (S.tailed hx), .of_kept S.toForest F hx hk (S.stretched x)⟩

theorem kept_link (H : g.Simple) (hp : g.snaps[n]? = some p) (hne : n ≠ d) (hy : y ≠ p.block)
    (pl : Placement) : Kept g ((g.link n d).setPlacement low pl) y where
  block {b} hb := by
    rw [getElem?_blocks_setPlacement]
    change ∃ c, (if low = y then g.blocks[y]?.map _ else g.blocks[y]?) = _ ∧ _
    rw [hb]
    split <;> exact ⟨_, rfl, rfl⟩
  next {b s r} hb hs hr := by
    change ∃ q, (g.link n d).snaps[_]? = some q ∧ _
    rw [getElem?_snaps_link hne, hr]
    split
    · exact ⟨_, rfl, rfl⟩
    · split
      next he =>
        subst he
        cases hp.symm.trans hr
        exact absurd (H.snap_at_eq hb hs hp).1.symm hy
      next => exact ⟨_, rfl, rfl⟩

/-- There is room for a link above which and below which there are blocks. -/
theorem Joinable.hops_pos (H : g.Forest) (hp : g.snaps[n]? = some p) (hq : g.snaps[d]? = some q)
    (J : g.Joinable p q) : 0 < g.config.maxChainHops := by
  obtain ⟨base, hbase, _⟩ := H.depth (H.block_mem hp)
  have := J.short hbase .refl (.root (H.predecessor_of_free hq J.divot J.divot_free))
  have := hbase.pos
  omega

/-- Where a block hangs from another, walks may be longer than one block. -/
theorem Forest.hops_pos (H : g.Forest) (hh : g.HangsFrom low up) : 0 < g.config.maxChainHops := by
  obtain ⟨k, hk, _⟩ := H.depth (H.hangsFrom_mem hh)
  have := H.depth_le (.hang hh hk)
  have := hk.pos
  omega

/-- A link is made first, and then what depends on it is refreshed. -/
theorem attach_run_link (hp : g.snaps[n]? = some p) (hq : g.snaps[d]? = some q)
    (hlow : q.block ∈ g.blocks) :
    (attach n d).run g = (do
      return { notch := n, divot := d, relayout := ← refreshAround p.block q.block } :
        Edit Connection).run ((g.link n d).setPlacement q.block (.attached n (-q.position))) := by
  obtain ⟨c, hc⟩ : ∃ c, (g.link n d).blocks[q.block]? = some c := Table.mem_iff.mp hlow
  have hneed : (Edit.needBlock q.block).run (g.link n d) = (.ok c, g.link n d) := by
    rw [Edit.run_needBlock, block_of_getElem? hc]
  unfold attach
  rw [Edit.run_bind_ok (by rw [Edit.run_needSnap, snap_of_getElem? hq]),
    Edit.run_bind_ok (by rw [Edit.run_needSnap, snap_of_getElem? hp]),
    Edit.run_bind_ok (Edit.run_change _), Edit.run_bind_ok (Edit.run_change _),
    show (g.setNext n (some d)).setPrevious d (some n) = g.link n d from rfl,
    Edit.run_bind_ok hneed, Edit.run_bind_ok (Edit.run_change _)]

/-- **Linking.** A link against which nothing speaks is made, and settled. -/
theorem Sound.attach_run (S : g.Sound ok) (hp : g.snaps[n]? = some p) (hq : g.snaps[d]? = some q)
    (J : g.Joinable p q) :
    ∃ r h, (attach n d).run g = (.ok r, h) ∧ h.Sound ok ∧
      h.shape = ((g.link n d).setPlacement q.block (.attached n (-q.position))).shape := by
  obtain ⟨G, hG⟩ : ∃ G, G = (g.link n d).setPlacement q.block (.attached n (-q.position)) :=
    ⟨_, rfl⟩
  have hne := J.ends_ne hp hq
  have B : G.Base ok := hG ▸ S.toBase.link hp hq J _
  have hstock : G.stock = g.stock := by rw [hG, stock_setPlacement, stock_link]
  have hmem {x} : x ∈ G.blocks ↔ x ∈ g.blocks := mem_blocks_of_view hstock
  have hunder {x y} (hu : g.Under y x) : G.Under y x :=
    (under_congr (hG ▸ wires_setPlacement)).mpr (J.under_link S.toForest hp hq hu)
  have hkept {x} (hx : ¬ g.Under p.block x) (y) (hu : g.Under y x) : Kept g G y :=
    hG ▸ kept_link S.toSimple hp hne (fun he => hx (he ▸ hu)) _
  have hsettled (x) (hx : x ∈ G.blocks) :
      (G.Tailed x ∧ G.Stretched x) ∨ G.Under p.block x := by
    by_cases hu : g.Under p.block x
    · exact .inr (hunder hu)
    · exact .inl (S.of_kept B.toForest (hmem.mp hx) (hkept hu))
  have hup : p.block ∈ G.blocks := hmem.mpr (S.block_mem hp)
  have hlow : q.block ∈ G.blocks := hmem.mpr (S.block_mem hq)
  obtain ⟨l, h, hrun, hshape, hsound⟩ := B.refreshAround_run hup hlow
    (by rw [config_eq_of_view hstock]; exact J.hops_pos S.toForest hp hq)
    (fun x hx => (hsettled x hx).imp_left And.left) fun x hx => (hsettled x hx).imp_left And.right
  refine ⟨⟨n, d, l⟩, h, ?_, hsound, hshape.trans (by rw [hG])⟩
  rw [attach_run_link hp hq (S.block_mem hq), ← hG, Edit.run_bind_ok hrun,
    Edit.run_pure]

/-! ## Cutting a link -/

theorem Simple.under_cutAt (H : g.Simple) (hl : g.Linked n d) (hd : g.owner d = .ok low)
    (hu : g.Under x y) (hno : ¬ g.Under x low) : (g.cutAt [n]).Under x y := by
  induction hu using ReflTransGen.head_induction_on with
  | refl => exact .refl
  | @head a c hh _ ih =>
    refine .head (H.hangsFrom_cutAt.mpr ?_) (ih fun hu => hno (.head hh hu))
    obtain ⟨m, e, hme, hm, he⟩ := H.hangsFrom_iff.mp hh
    refine ⟨m, e, ?_, ?_, hme, hm, he⟩
    · rw [List.mem_singleton]
      rintro rfl
      cases hl.eq hme
      cases hd.symm.trans he
      exact hno .refl
    · rw [List.mem_singleton]
      rintro rfl
      exact H.not_linked_of_linked hme hl

theorem kept_putDown (H : g.Stocked) (hh : ∀ b, g.blocks[y]? = some b → ∀ i ∈ b.snapPoints,
      h.snaps[i]? = g.snaps[i]?.map (·.freed ids))
    (hb : h.blocks[y]? = g.blocks[y]?.map (·.putDown g ids))
    (hno : ∀ i p, g.snaps[i]? = some p → p.block = y → i ∉ ids ∧ ∀ d, p.next = some d → d ∉ ids) :
    Kept g h y where
  block {b} hb' := ⟨_, by rw [hb, hb', Option.map_some], (Block.core_putDown b).1⟩
  next {b s p} hb' hs hp := by
    have hmem : s.snapId y ∈ b.snapPoints :=
      Block.mem_snapPoints.mpr ⟨s, hs, by rw [H.block_id hb']⟩
    obtain ⟨hi, hnext⟩ := hno _ p hp (H.snap_at_eq hb' hs hp).1
    refine ⟨p.freed ids, by rw [hh b hb' _ hmem, hp, Option.map_some], ?_⟩
    have hid : p.id ∉ ids := by rwa [H.snap_id hp]
    simp only [SnapPoint.freed, if_neg hid]
    cases hd : p.next with
    | none => rfl
    | some d => simp [hnext d hd]

/-- Off the way up from a link that is cut, the caches stay right. -/
theorem Sound.settled_cutAt (S : g.Sound ok) (hl : g.Linked n d) (hn : g.owner n = .ok up)
    (hx : x ∈ g.blocks) (hu : ¬ g.Under up x) :
    (g.cutAt [n]).Tailed x ∧ (g.cutAt [n]).Stretched x := by
  obtain ⟨p, hp, rfl⟩ := owner_eq_ok.mp hn
  refine S.of_kept (S.toForest.cutAt [n]) hx fun y hy => ?_
  have hne : y ≠ p.block := fun he => hu (he ▸ hy)
  refine kept_putDown S.toStocked (fun _ _ i _ => getElem?_snaps_cutAt _ i)
    (getElem?_blocks_cutAt _ y) fun i r hr hry => ⟨?_, fun e he => ?_⟩
  · rw [List.mem_singleton]
    rintro rfl
    cases hp.symm.trans hr
    exact hne hry.symm
  · rw [List.mem_singleton]
    rintro rfl
    exact S.not_linked_of_linked ((linked_iff_next hr).mpr he) hl

/-- **Cutting.** A link that is cut at its notch is settled by a refresh around it. -/
theorem Sound.cut_run (S : g.Sound ok) (hl : g.Linked n d) (hn : g.owner n = .ok up)
    (hd : g.owner d = .ok low) :
    ∃ l h, (refreshAround up low).run (g.cutAt [n]) = (.ok l, h) ∧ h.Sound ok ∧
      h.shape = (g.cutAt [n]).shape := by
  have hh : g.HangsFrom low up := S.hangsFrom_iff.mpr ⟨n, d, hl, hn, hd⟩
  have hup : up ∈ g.blocks := S.hangsFrom_mem hh
  have hno : ¬ g.Under up low := S.not_under_of_hangsFrom hh
  have B := S.toBase.cutAt_of_linked hl
  have hsettled (x) (hx : x ∈ (g.cutAt [n]).blocks) :
      ((g.cutAt [n]).Tailed x ∧ (g.cutAt [n]).Stretched x) ∨ (g.cutAt [n]).Under up x := by
    by_cases hu : g.Under up x
    · exact .inr (S.under_cutAt hl hd hu hno)
    · exact .inl (S.settled_cutAt hl hn (mem_blocks_cutAt.mp hx) hu)
  obtain ⟨l, h, hrun, hshape, hsound⟩ := B.refreshAround_run (mem_blocks_cutAt.mpr hup)
    (mem_blocks_cutAt.mpr hh.mem_blocks) (S.hops_pos hh)
    (fun x hx => (hsettled x hx).imp_left And.left) fun x hx => (hsettled x hx).imp_left And.right
  exact ⟨l, h, hrun, hsound, hshape⟩

/-! ## Removing a block -/

theorem Simple.under_without (H : g.Simple) (hb : g.blocks[id]? = some b) (hu : g.Under x y)
    (hno : ¬ g.Under x id) : (g.without id b.snapPoints).Under x y := by
  induction hu using ReflTransGen.head_induction_on with
  | refl => exact .refl
  | @head a c hh _ ih =>
    have hno' : ¬ g.Under c id := fun hu => hno (.head hh hu)
    refine .head ((H.hangsFrom_without hb).mpr ⟨?_, ?_, hh⟩) (ih hno')
    · rintro rfl
      exact hno .refl
    · rintro rfl
      exact hno' .refl

/-- Off the way up from a block that is removed, the caches stay right. -/
theorem Sound.settled_without (S : g.Sound ok) (hb : g.blocks[id]? = some b) (hx : x ∈ g.blocks)
    (hu : ¬ g.Under id x) :
    (g.without id b.snapPoints).Tailed x ∧ (g.without id b.snapPoints).Stretched x := by
  refine S.of_kept (S.toForest.without hb) hx fun y hxy => ?_
  have hy : y ≠ id := fun he => hu (he ▸ hxy)
  have hno : ¬ g.HangsFrom id y := fun hh => hu (.head hh hxy)
  refine kept_putDown S.toStocked (fun c hc i hi => ?_)
    (by rw [getElem?_blocks_without, if_neg hy.symm])
    fun i r hr hry => ⟨fun hm => ?_, fun e he hm => ?_⟩
  · have hm : i ∉ b.snapPoints := fun hm => hy (S.eq_of_mem_snapPoints hc hb hi hm)
    rw [getElem?_snaps_without, if_neg hm]
  · rw [S.mem_snapPoints_iff hb, owner_of_getElem? hr, hry] at hm
    exact hy (Except.ok.inj hm)
  · exact hno (S.hangsFrom_iff.mpr ⟨i, e, (linked_iff_next hr).mpr he,
      owner_eq_ok.mpr ⟨r, hr, hry⟩, (S.mem_snapPoints_iff hb).mp hm⟩)

/-- **Removing.** What hung from a block becomes a root, and the blocks above are settled. -/
theorem Sound.remove_run (S : g.Sound ok) (hb : g.blocks[id]? = some b) :
    ∃ h, (remove id).run g = (.ok (), h) ∧ h.Sound ok ∧
      h.shape = (g.without id b.snapPoints).shape := by
  obtain ⟨l, hrun, hl⟩ := Seated.remove_run S.toSimple S.placed S.seated hb
  have B := S.toBase.without hb
  have hsettled (x) (hx : x ∈ (g.without id b.snapPoints).blocks) :
      ((g.without id b.snapPoints).Tailed x ∧ (g.without id b.snapPoints).Stretched x) ∨
        ∃ y ∈ l, (g.without id b.snapPoints).Under y x := by
    obtain ⟨hne, hx⟩ := mem_blocks_without.mp hx
    by_cases hu : g.Under id x
    · rcases ReflTransGen.cases_head hu with he | ⟨y, hh, hu⟩
      · exact absurd he.symm hne
      · exact .inr ⟨y, (hl y).mpr (.inl hh),
          S.under_without hb hu (S.not_under_of_hangsFrom hh)⟩
    · exact .inl (S.settled_without hb hx hu)
  have hmem : ∀ y ∈ l, y ∈ (g.without id b.snapPoints).blocks := by
    intro y hy
    rcases (hl y).mp hy with hh | hh
    · exact mem_blocks_without.mpr ⟨(S.hangsFrom_ne hh).symm, S.hangsFrom_mem hh⟩
    · exact mem_blocks_without.mpr ⟨S.hangsFrom_ne hh, hh.mem_blocks⟩
  have hpos (hne : l ≠ []) : 0 < g.config.maxChainHops := by
    obtain ⟨y, hy⟩ := List.exists_mem_of_ne_nil l hne
    rcases (hl y).mp hy with hh | hh <;> exact S.hops_pos hh
  obtain ⟨h, hrun', hshape, hsound⟩ := B.refreshAll_run hmem hpos
    (fun x hx => (hsettled x hx).imp_left And.left) fun x hx => (hsettled x hx).imp_left And.right
  exact ⟨h, hrun.trans hrun', hsound, hshape⟩

end Graph

end SnapBlocks

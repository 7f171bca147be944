import SnapBlocks.Proofs.Stretch

/-! The height cascade. A walk up that measures what hangs in each block makes the heights right
at every block that it passes: what stands below a block is settled before the block itself is
measured. -/

namespace SnapBlocks.Graph

open Relation

variable {g h : Graph} {b c : Block} {id low up start : BlockId} {i x : BlockId} {s : Slot}
variable {p : SnapPoint}
variable {sc : List (String × Option SnapId)} {j k room : Nat}

/-- The height of what hangs from a notch. -/
def heightAt (g : Graph) (next : Option SnapId) : Float := (g.hangingHeight next).toOption.getD 0

theorem hangingHeight_eq_heightAt {x : Float}
    (hx : g.hangingHeight next = .ok x) : g.hangingHeight next = .ok (g.heightAt next) := by
  rw [heightAt, hx]
  rfl

/-! ## Measuring -/

/-- The secondary notches of a block, with what hangs there. -/
def scopeList (g : Graph) (id : BlockId) (l : List Slot) : List (String × Option SnapId) :=
  (l.filter (·.kind = .secondaryNotch)).map fun s =>
    (s.segmentId, (g.snaps[s.snapId id]?).bind (·.next))

theorem Stocked.scopes_eq (H : g.Stocked) (hb : g.blocks[id]? = some b) {l : List Slot}
    (hl : ∀ s ∈ l, s ∈ b.definition.slots) :
    g.scopes (l.map (·.snapId id)) = .ok (g.scopeList id l) := by
  induction l with
  | nil => rfl
  | cons s rest ih =>
    have hs := hl s List.mem_cons_self
    obtain ⟨p, hp, _⟩ := H.snap_at hb hs
    obtain ⟨_, hk, hseg, _⟩ := H.snap_at_eq hb hs hp
    have hrest := ih fun t ht => hl t (.tail _ ht)
    rw [List.map_cons, scopes]
    simp only [snap_of_getElem? hp, hrest, bind, Except.bind, scopeList]
    by_cases hks : s.kind = .secondaryNotch
    · simp [hk, hks, hseg, hp, pure, Except.pure]
    · simp [hk, hks, pure, Except.pure]

theorem scopeList_nodup (hc : b.definition.Coherent) :
    ((g.scopeList id b.definition.slots).map (·.1)).Nodup := by
  rw [scopeList, List.map_map]
  exact hc.nests_nodup

theorem modifyBlock_modifyBlock (f f' : Block → Block) :
    (g.modifyBlock id f).modifyBlock id f' = g.modifyBlock id (f' ∘ f) := by
  refine ext rfl rfl rfl (fun i => ?_) (fun _ => rfl) rfl rfl rfl
  simp only [modifyBlock, Table.getElem?_modify]
  split <;> simp

theorem heightAt_of_profile (heq : g.profile = h.profile) (next : Option SnapId) :
    g.heightAt next = h.heightAt next := by
  rw [heightAt, hangingHeight_of_profile heq, heightAt]

/-- Measuring sets the extra heights of the segments in question, and nothing else. -/
theorem measureScopes_run (hsc : ∀ e ∈ sc, g.hangingHeight e.2 = .ok (g.heightAt e.2)) :
    (measureScopes id sc).run g = (.ok (), g.modifyBlock id fun b =>
      { b with extra := fillExtra (sc.map fun e => (e.1, g.heightAt e.2)) b.extra }) := by
  induction sc generalizing g with
  | nil =>
    have heq : g = g.modifyBlock id fun b => { b with extra := b.extra } := by
      refine ext rfl rfl rfl (fun i => ?_) (fun _ => rfl) rfl rfl rfl
      simp [modifyBlock, Table.getElem?_modify]
    exact Prod.ext rfl heq
  | cons e rest ih =>
    have hprofile : (g.setExtra id e.1 (g.heightAt e.2)).profile = g.profile := profile_setExtra
    have hrest := ih (g := g.setExtra id e.1 (g.heightAt e.2)) fun e' he' => by
      rw [hangingHeight_of_profile hprofile, heightAt_of_profile hprofile]
      exact hsc e' (.tail _ he')
    unfold measureScopes
    rw [Edit.run_bind_ok (by rw [Edit.run_ask, hsc e List.mem_cons_self]),
      Edit.run_bind_ok (Edit.run_change _), hrest]
    simp only [heightAt_of_profile hprofile]
    rw [setExtra, modifyBlock_modifyBlock]
    rfl

/-! ## Laying out anew -/

theorem Laid.placeBlock_ne (H : g.Stocked) (hb : g.blocks[b.id]? = some b)
    (hc : g.blocks[id]? = some c) (hne : b.id ≠ id) (hl : g.Laid c) : (g.placeBlock b).Laid c := by
  refine ⟨by rw [layout_placeBlock]; exact hl.height, fun {i pos} hq => ?_⟩
  rw [layout_placeBlock] at hq
  obtain ⟨p, hp, hpos⟩ := hl.position hq
  refine ⟨p, ?_, hpos⟩
  rw [getElem?_snaps_placeBlock_of_notMem, hp]
  exact fun hi => hne (H.eq_of_mem_snapPoints hb hc hi (List.of_mem_zip hq).1)

theorem laid_congr (hlayout : g.layout = h.layout)
    (hsnaps : ∀ i ∈ b.snapPoints, g.snaps[i]? = h.snaps[i]?) (hl : g.Laid b) : h.Laid b where
  height := hlayout ▸ hl.height
  position {i pos} hq := by
    rw [← hlayout] at hq
    obtain ⟨p, hp, hpos⟩ := hl.position hq
    exact ⟨p, (hsnaps i (List.of_mem_zip hq).1).symm.trans hp, hpos⟩

theorem relayout_run (hb : g.blocks[id]? = some b) :
    (relayout id).run g = (.ok (), g.placeBlock b) := by
  unfold relayout
  rw [Edit.run_bind_ok (by rw [Edit.run_needBlock, block_of_getElem? hb]), Edit.run_change]

/-- Where nothing may hang, a refresh does nothing. -/
theorem refreshHeight_run_of_static (hb : g.blocks[id]? = some b) (hd : ¬ b.isDynamic) :
    (refreshHeight id).run g = (.ok [], g) := by
  unfold refreshHeight
  rw [Edit.run_bind_ok (by rw [Edit.run_needBlock, block_of_getElem? hb]), if_neg hd,
    Edit.run_pure]

/-- A block with its inner heights measured. -/
def measured (g : Graph) (b : Block) : Block :=
  { b with
    extra := fillExtra ((g.scopeList b.id b.definition.slots).map fun e => (e.1, g.heightAt e.2))
      b.extra }

/-- A graph with a block measured and laid out anew. -/
def refreshed (g : Graph) (b : Block) : Graph :=
  (g.modifyBlock b.id g.measured).placeBlock (g.measured b)

theorem Forest.hangingHeight_ok (H : g.Forest) (hp : g.snaps[i]? = some p) :
    g.hangingHeight p.next = .ok (g.heightAt p.next) := by
  obtain ⟨x, hx⟩ := H.exists_hangingHeight hp
  exact hangingHeight_eq_heightAt hx

theorem refreshHeight_run_of_dynamic (H : g.Forest) (hb : g.blocks[id]? = some b)
    (hd : b.isDynamic) :
    (refreshHeight id).run g =
      (.ok [id], g.refreshed b) := by
  have hid := H.block_id hb
  have hscopes : g.scopes b.snapPoints = .ok (g.scopeList id b.definition.slots) := by
    unfold Block.snapPoints
    rw [hid]
    exact H.scopes_eq hb fun _ hs => hs
  have hok : ∀ e ∈ g.scopeList id b.definition.slots,
      g.hangingHeight e.2 = .ok (g.heightAt e.2) := by
    intro e he
    obtain ⟨s, hs, rfl⟩ := List.mem_map.mp he
    have hs := (List.mem_filter.mp hs).1
    obtain ⟨p, hp, _⟩ := H.snap_at hb hs
    simp only [hp, Option.bind_some]
    exact H.hangingHeight_ok hp
  have hmeasured : (g.modifyBlock id fun c => { c with
      extra := fillExtra ((g.scopeList id b.definition.slots).map fun e => (e.1, g.heightAt e.2))
        c.extra }) = g.modifyBlock id g.measured := by
    refine ext rfl rfl rfl (fun i => ?_) (fun _ => rfl) rfl rfl rfl
    simp only [modifyBlock, Table.getElem?_modify]
    split
    next he => subst he; rw [hb]; simp only [Option.map_some, measured, hid]
    next => rfl
  unfold refreshHeight
  rw [Edit.run_bind_ok (by rw [Edit.run_needBlock, block_of_getElem? hb]), if_pos hd,
    Edit.run_bind_ok (by rw [Edit.run_ask, hscopes]),
    Edit.run_bind_ok (measureScopes_run hok), hmeasured]
  have hb' : (g.modifyBlock id g.measured).blocks[id]? = some (g.measured b) := by
    rw [modifyBlock, Table.getElem?_modify_self, hb]
    rfl
  rw [Edit.run_bind_ok (relayout_run hb'), Edit.run_pure, refreshed, hid]

/-! ## Refreshing one block -/

theorem kempt_congr (heq : g.tailless = h.tailless) (K : g.Kempt) : h.Kempt where
  plain {id b} hb := by
    obtain ⟨c, hc, hbc⟩ := exists_block_of_view heq.symm hb
    obtain ⟨_, hdef, hextra, _⟩ := Block.eq_of_tailless hbc
    exact (K.plain hc).congr hdef hextra
  laid {id b} hb := by
    obtain ⟨c, hc, hbc⟩ := exists_block_of_view heq.symm hb
    obtain ⟨hid, hdef, hextra, hheight⟩ := Block.eq_of_tailless hbc
    have hl := K.laid hc
    refine laid_congr (layout_eq_of_view heq) (fun i _ => by simpa using snaps_eq_of_view heq i) ?_
    exact ⟨by rw [hdef, hextra, hheight]; exact hl.height,
      by rw [Block.snapPoints, hdef, hextra, hid]; exact hl.position⟩

theorem stretched_congr (heq : g.tailless = h.tailless) (hs : g.Stretched id) :
    h.Stretched id := by
  have hprofile : g.profile = h.profile := by
    have hview (k : Graph) : k.profile = k.tailless.view Block.profile SnapPoint.unplaced :=
      ext rfl rfl rfl (fun i => by simp [profile, tailless]; rfl)
        (fun i => by simp [profile, tailless]) rfl rfl rfl
    rw [hview, hview, heq]
  intro b hb s hs' hk
  obtain ⟨c, hc, hbc⟩ := exists_block_of_view heq.symm hb
  obtain ⟨_, hdef, hextra, _⟩ := Block.eq_of_tailless hbc
  obtain ⟨p, x, hp, hx, he⟩ := hs c hc s (hdef ▸ hs') hk
  obtain ⟨q, hq, hpq⟩ := exists_snap_of_view heq hp
  cases hpq
  exact ⟨p, x, hq, (hangingHeight_of_profile hprofile _).symm.trans hx, hextra ▸ he⟩

theorem tailed_congr (heq : g.flat = h.flat) (ht : g.Tailed id) : h.Tailed id := by
  obtain ⟨b, hb, htail⟩ := ht
  obtain ⟨c, hc, hbc⟩ := exists_block_of_view heq hb
  refine ⟨c, hc, ?_⟩
  rw [← chainTail_congr (wires_of_shape (shape_of_flat heq)), htail]
  exact congrArg Except.ok (congrArg Block.deepest hbc :)

theorem mem_scopeList {e : String × Option SnapId} {l : List Slot} :
    e ∈ g.scopeList id l ↔ ∃ s ∈ l, s.kind = .secondaryNotch ∧
      (s.segmentId, (g.snaps[s.snapId id]?).bind (·.next)) = e := by
  simp [scopeList, and_assoc]

theorem plain_measured (hp : b.Plain) : (g.measured b).Plain where
  mem_extra {k} := mem_fillExtra.trans hp.mem_extra
  zero {seg} hseg hno := by
    refine (getElem?_fillExtra_of_notMem (fun q hq he => ?_) _).trans (hp.zero hseg hno)
    obtain ⟨e, he', rfl⟩ := List.mem_map.mp hq
    obtain ⟨s, hs, hk, rfl⟩ := mem_scopeList.mp he'
    exact hno s hs hk he

theorem getElem?_extra_measured (hc : b.definition.Coherent) (hp : b.Plain)
    (hs : s ∈ b.definition.slots) (hk : s.kind = .secondaryNotch)
    (hsnap : g.snaps[s.snapId b.id]? = some p) :
    (g.measured b).extra[s.segmentId]? = some (g.heightAt p.next) := by
  obtain ⟨seg, hseg, heq⟩ := Definition.segment_of_mem_slots hs
  have hnodup : ((g.scopeList b.id b.definition.slots).map (·.1)).Nodup := scopeList_nodup hc
  refine getElem?_fillExtra_of_mem (p := (s.segmentId, g.heightAt p.next)) ?_ ?_ ?_
  · simpa [List.map_map, Function.comp_def] using hnodup
  · exact List.mem_map.mpr ⟨_, mem_scopeList.mpr ⟨s, hs, hk, rfl⟩, by rw [hsnap]; rfl⟩
  · exact hp.mem_extra.mpr ⟨seg, hseg, heq.symm⟩

@[simp] theorem flat_refreshed : (g.refreshed b).flat = g.flat := by
  rw [refreshed, flat_placeBlock]
  exact view_modifyBlock (by intro _; rfl) g b.id

section
variable (H : g.Stocked) (hb : g.blocks[id]? = some b)
include H hb

theorem getElem?_blocks_refreshed (i : BlockId) :
    (g.refreshed b).blocks[i]? =
      if id = i then
        some { g.measured b with
          height := (g.layout.place b.definition (g.measured b).extra).height }
      else g.blocks[i]? := by
  have hid : (g.measured b).id = id := (H.block_id hb :)
  rw [refreshed, H.block_id hb, getElem?_blocks_placeBlock, hid, modifyBlock, Table.getElem?_modify]
  split
  next he => subst he; rw [hb]; rfl
  next => rfl

theorem getElem?_blocks_refreshed_ne (hne : id ≠ i) :
    (g.refreshed b).blocks[i]? = g.blocks[i]? := by
  rw [getElem?_blocks_refreshed H hb, if_neg hne]

theorem kempt_refreshed (K : g.Kempt) : (g.refreshed b).Kempt := by
  have hid : b.id = id := H.block_id hb
  have hS : (g.modifyBlock b.id g.measured).Stocked :=
    H.of_stock (view_modifyBlock (by intro _; rfl) g b.id).symm
  have hb' : (g.modifyBlock b.id g.measured).blocks[b.id]? = some (g.measured b) := by
    rw [modifyBlock, Table.getElem?_modify_self, hid, hb]
    rfl
  refine ⟨fun {i c} hc => ?_, fun {i c} hc => ?_⟩
  · rw [getElem?_blocks_refreshed H hb] at hc
    split at hc
    · cases hc
      exact (plain_measured (g := g) (K.plain hb)).congr rfl rfl
    · exact K.plain hc
  · rw [getElem?_blocks_refreshed H hb] at hc
    split at hc
    next =>
      cases hc
      exact laid_placeBlock fun i hi => (hS.snap_of_mem hb' hi).imp fun _ h => h.1
    next he =>
      have hc' : (g.modifyBlock b.id g.measured).blocks[i]? = some c := by
        rw [modifyBlock, Table.getElem?_modify_ne (hid ▸ he)]
        exact hc
      exact Laid.placeBlock_ne hS hb' hc' (hid ▸ he)
        (laid_congr (g := g) rfl (fun _ _ => rfl) (K.laid hc))

end

/-- A measured block is stretched right. -/
theorem Forest.stretched_refreshed_self (H : g.Forest) (K : g.Kempt) (hb : g.blocks[id]? = some b) :
    (g.refreshed b).Stretched id := by
  have hwires := wires_of_shape (shape_of_flat (flat_refreshed (g := g) (b := b)).symm)
  intro c hc s hs hk
  rw [getElem?_blocks_refreshed H.toStocked hb, if_pos rfl] at hc
  cases hc
  obtain ⟨p, hp, hfresh⟩ := H.snap_at hb hs
  obtain ⟨q, hq, hpq⟩ := exists_snap_of_view hwires hp
  have hblock : p.block = id := congrArg SnapPoint.block hfresh
  have hnext := (SnapPoint.eq_of_unplaced hpq).2.2
  refine ⟨q, g.heightAt p.next, hq, ?_, ?_⟩
  · rw [← hnext, ← H.hangingHeight_congr hwires hp fun x hx _ => ?_]
    · exact H.hangingHeight_ok hp
    · rw [getElem?_blocks_refreshed_ne H.toStocked hb (hblock ▸ hx.symm)]
  · exact getElem?_extra_measured (H.coherent hb) (K.plain hb) hs hk
      (by rw [H.block_id hb]; exact hp)

/-- Measuring a block spoils no block that does not stand above it. -/
theorem Forest.stretched_refreshed (H : g.Forest) (hb : g.blocks[id]? = some b)
    (hne : id ≠ x) (hx : g.Stretched x) (hno : ¬ g.Under id x) : (g.refreshed b).Stretched x := by
  have hwires := wires_of_shape (shape_of_flat (flat_refreshed (g := g) (b := b)).symm)
  intro c hc s hs hk
  rw [getElem?_blocks_refreshed_ne H.toStocked hb hne] at hc
  obtain ⟨p, y, hp, hy, hextra⟩ := hx c hc s hs hk
  obtain ⟨q, hq, hpq⟩ := exists_snap_of_view hwires hp
  have hnext := (SnapPoint.eq_of_unplaced hpq).2.2
  have hblock := (H.snap_at_eq hc hs hp).1
  refine ⟨q, y, hq, ?_, hextra⟩
  rw [← hnext, ← H.hangingHeight_congr hwires hp fun z _ hz => ?_]
  · exact hy
  · rw [getElem?_blocks_refreshed_ne H.toStocked hb fun he => hno (hblock ▸ he ▸ hz)]

/-- A refresh of one block makes its inner heights right, and spoils only those above. -/
theorem refreshHeight_run (H : g.Forest) (K : g.Kempt) (hid : id ∈ g.blocks) :
    ∃ l h, (refreshHeight id).run g = (.ok l, h) ∧ h.flat = g.flat ∧ h.Kempt ∧ h.Stretched id ∧
      ∀ x, g.Stretched x → ¬ g.Under id x → h.Stretched x := by
  obtain ⟨b, hb⟩ := Table.mem_iff.mp hid
  by_cases hd : b.isDynamic
  · refine ⟨[id], g.refreshed b, refreshHeight_run_of_dynamic H hb hd, flat_refreshed,
      kempt_refreshed H.toStocked hb K, H.stretched_refreshed_self K hb, fun x hx hno => ?_⟩
    exact H.stretched_refreshed hb (fun he => hno (he ▸ .refl)) hx hno
  · refine ⟨[], g, refreshHeight_run_of_static hb hd, rfl, K, ?_, fun x hx _ => hx⟩
    intro c hc s hs hk
    cases hb.symm.trans hc
    exact absurd (Block.isDynamic_iff.mpr ⟨s, hs, hk⟩) hd

/-! ## Refreshing upwards -/

theorem refreshHeights_run (start : BlockId) (H : g.Forest) (K : g.Kempt) (hk : g.DepthOf id k)
    (hr : k ≤ room) :
    ∃ l h, (refreshHeights start room (some id)).run g = (.ok l, h) ∧ h.flat = g.flat ∧ h.Kempt ∧
      ∀ x, g.Stretched x ∨ g.Under id x → h.Stretched x := by
  induction k generalizing g id room with
  | zero => exact absurd hk.pos (by omega)
  | succ k ih =>
    obtain ⟨room, rfl⟩ : ∃ r, room = r + 1 := ⟨room - 1, by omega⟩
    obtain ⟨l, g₁, hrun, hflat, K₁, hself, hall⟩ := refreshHeight_run H K hk.mem_blocks
    have hwires : g.wires = g₁.wires := wires_of_shape (shape_of_flat hflat.symm)
    have hstep {up above h} (hup : g.predecessor id = .ok up)
        (habove : (refreshHeights start room up).run g₁ = (.ok above, h)) :
        (refreshHeights start (room + 1) (some id)).run g = (.ok (l ++ above), h) := by
      rw [refreshHeights, Edit.run_bind_ok hrun,
        Edit.run_bind_ok (by rw [Edit.run_ask, ← predecessor_congr hwires, hup]),
        Edit.run_bind_ok habove, Edit.run_pure]
    cases hk with
    | root hp =>
      refine ⟨l ++ [], g₁, hstep hp (by cases room <;> rfl), hflat, K₁, fun x hx => ?_⟩
      by_cases hu : g.Under id x
      · exact (under_iff_of_root hp).mp hu ▸ hself
      · exact hall x (hx.resolve_right hu) hu
    | @hang _ up _ hh hk =>
      have hroom : k ≤ room := by omega
      obtain ⟨above, h, hrun', hflat', K', hall'⟩ :=
        ih (H.of_wires hwires) K₁ (hk.congr hwires) hroom
      refine ⟨l ++ above, h, hstep hh hrun', hflat'.trans hflat, K', fun x hx => hall' x ?_⟩
      by_cases hu : g.Under id x
      · rcases hh.under_iff.mp hu with rfl | hu
        · exact .inl hself
        · exact .inr ((under_congr hwires).mp hu)
      · exact .inl (hall x (hx.resolve_right hu) hu)

/-- **The cascade.** A refresh from a block on makes the inner heights right there and above, and
spoils none. Only the least settings, which allow no link, let it fail. -/
theorem adjustHeight_run (H : g.Forest) (K : g.Kempt) (hid : id ∈ g.blocks) :
    ∃ r h, (adjustHeight id).run g = (r, h) ∧ h.flat = g.flat ∧ h.Kempt ∧
      (∀ x, g.Stretched x → h.Stretched x) ∧
      (0 < g.config.maxChainHops → (∃ l, r = .ok l) ∧ ∀ x, g.Under id x → h.Stretched x) := by
  have hrun : (adjustHeight id).run g =
      (refreshHeights id g.config.maxChainHops (some id)).run g := rfl
  rw [hrun]
  by_cases hpos : 0 < g.config.maxChainHops
  · obtain ⟨k, hk, hle⟩ := H.depth hid
    have hroom : k ≤ g.config.maxChainHops := by omega
    obtain ⟨l, h, hrun, hflat, K', hall⟩ := refreshHeights_run id H K hk hroom
    exact ⟨_, h, hrun, hflat, K', fun x hx => hall x (.inl hx),
      fun _ => ⟨⟨l, rfl⟩, fun x hx => hall x (.inr hx)⟩⟩
  · rw [show g.config.maxChainHops = 0 by omega]
    exact ⟨_, g, rfl, rfl, K, fun x hx => hx, fun hpos => by omega⟩

end SnapBlocks.Graph

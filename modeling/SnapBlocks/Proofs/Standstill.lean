import SnapBlocks.Proofs.Redraw

/-! Detached blocks do not jump. What is pulled off, or loses the block above it, becomes a root at
the point where it lies, and all that hangs from it keeps its place: no pass changes the look of a
block below, as it finds the root stretched right already. Positions are sums from the root on, and
the summands are the same ones, so that no law of addition is needed. -/

namespace SnapBlocks

theorem fillExtra_of_eq {vals : List (String × Float)} {t : Table Float}
    (h : ∀ p ∈ vals, t[p.1]? = some p.2) : fillExtra vals t = t := by
  induction vals with
  | nil => rfl
  | cons p rest ih =>
    have hp : t.modify p.1 (fun _ => p.2) = t := by
      refine Table.ext fun k => ?_
      rw [Table.getElem?_modify]
      split
      next he => rw [← he, h p List.mem_cons_self, Option.map_some]
      next => rfl
    change fillExtra rest (t.modify p.1 fun _ => p.2) = t
    rw [hp, ih fun q hq => h q (.tail _ hq)]

namespace Graph

open Relation

variable {ok : Definition → Prop} {g h k : Graph} {b : Block} {id low up top x y z : BlockId}
variable {n d : SnapId} {l : List BlockId} {c : Connection} {room : Nat} {start : BlockId}
variable {pos : Point}

/-- A pass upwards from `y` does not come by `x`, or finds each block on its way stretched right. -/
def Undisturbed (g : Graph) (x y : BlockId) : Prop :=
  g.Under y x → ∀ z, g.Under y z → g.Stretched z

/-- The effect of a pass, as far as one block is concerned: it looks the same, and no block that was
stretched right is spoiled. -/
structure Calm (ok : Definition → Prop) (x : BlockId) (g h : Graph) : Prop where
  base : h.Base ok
  shape : h.shape = g.shape
  stretched {z : BlockId} : g.Stretched z → h.Stretched z
  look : h.look x = g.look x

/-! ## Blocks that are stretched right -/

theorem modifyBlock_self {f : Block → Block} (hf : ∀ b, g.blocks[id]? = some b → f b = b) :
    g.modifyBlock id f = g := by
  refine ext rfl rfl rfl (fun i => ?_) (fun _ => rfl) rfl rfl rfl
  rw [modifyBlock, Table.getElem?_modify]
  split
  next he =>
    subst he
    cases hb : g.blocks[id]? with
    | none => rfl
    | some b => rw [Option.map_some, hf b hb]
  next => rfl

theorem setPositions_self {places : List (SnapId × Point)}
    (h : ∀ q ∈ places, ∃ p, g.snaps[q.1]? = some p ∧ p.position = q.2) :
    g.setPositions places = g := by
  induction places with
  | nil => rfl
  | cons q rest ih =>
    have hq : (g.modifySnap q.1 fun p => { p with position := q.2 }) = g := by
      refine ext rfl rfl rfl (fun _ => rfl) (fun i => ?_) rfl rfl rfl
      rw [modifySnap, Table.getElem?_modify]
      split
      next he =>
        obtain ⟨p, hp, hpos⟩ := h q List.mem_cons_self
        rw [← he, hp, Option.map_some, ← hpos]
      next => rfl
    change (g.modifySnap q.1 fun p => { p with position := q.2 }).setPositions rest = g
    rw [hq, ih fun r hr => h r (.tail _ hr)]

/-- Laying out again a block that is laid out changes nothing. -/
theorem placeBlock_self (H : g.Stocked) (hb : g.blocks[id]? = some b) (hl : g.Laid b) :
    g.placeBlock b = g := by
  unfold placeBlock
  dsimp only
  rw [setPositions_self fun _ hq => hl.position hq]
  refine modifyBlock_self fun c hc => ?_
  rw [H.block_id hb, hb] at hc
  cases hc
  rw [← hl.height]

/-- Measuring again what is stretched right changes nothing. -/
theorem measured_self (H : g.Stocked) (hb : g.blocks[id]? = some b) (hs : g.Stretched id) :
    g.measured b = b := by
  unfold measured
  rw [fillExtra_of_eq]
  intro e he
  obtain ⟨_, hscope, rfl⟩ := List.mem_map.mp he
  obtain ⟨s, hslot, hkind, rfl⟩ := mem_scopeList.mp hscope
  obtain ⟨p, x, hp, hx, hextra⟩ := hs b hb s hslot hkind
  rw [H.block_id hb, hp, Option.bind_some, heightAt, hx]
  exact hextra

theorem refreshed_self (H : g.Stocked) (K : g.Kempt) (hb : g.blocks[id]? = some b)
    (hs : g.Stretched id) : g.refreshed b = g := by
  rw [refreshed, measured_self H hb hs, modifyBlock_self, placeBlock_self H hb (K.laid hb)]
  intro c hc
  rw [H.block_id hb] at hc
  exact measured_self H hc hs

/-- **A standstill.** A pass that finds all blocks on its way stretched right changes nothing. -/
theorem refreshHeights_still (H : g.Forest) (K : g.Kempt) (hid : id ∈ g.blocks)
    (hs : ∀ z, g.Under id z → g.Stretched z)
    (hrun : (refreshHeights start room (some id)).run g = (.ok l, h)) : h = g := by
  induction room generalizing id l with
  | zero => cases hrun
  | succ room ih =>
    obtain ⟨b, hb⟩ := Table.mem_iff.mp hid
    obtain ⟨here, hhere⟩ : ∃ here, (refreshHeight id).run g = (.ok here, g) := by
      by_cases hd : b.isDynamic
      · refine ⟨[id], ?_⟩
        rw [refreshHeight_run_of_dynamic H hb hd, refreshed_self H.toStocked K hb (hs id .refl)]
      · exact ⟨[], refreshHeight_run_of_static hb hd⟩
    rw [refreshHeights, Edit.run_bind_ok hhere] at hrun
    obtain ⟨up?, _, hask, hrest⟩ := Edit.run_bind_eq_ok.mp hrun
    obtain ⟨above, _, habove, hdone⟩ := Edit.run_bind_eq_ok.mp hrest
    cases hdone
    obtain ⟨hup, rfl⟩ := Edit.run_ask_eq_ok.mp hask
    cases up? with
    | none =>
      rw [show (refreshHeights start room none).run g = (.ok [], g) by cases room <;> rfl] at habove
      cases habove
      rfl
    | some up =>
      have hh : g.HangsFrom id up := hup
      exact ih (H.hangsFrom_mem hh) (fun z hz => hs z (.head hh hz)) habove

/-! ## Passes that leave a block alone -/

theorem Undisturbed.congr (hu : g.Undisturbed x y) (hw : h.wires = g.wires)
    (hs : ∀ z, g.Stretched z → h.Stretched z) : h.Undisturbed x y := by
  intro hx z hz
  exact hs z (hu ((under_congr hw).mp hx) z ((under_congr hw).mp hz))

theorem Calm.undisturbed (hc : Calm ok x g h) (hu : g.Undisturbed z y) : h.Undisturbed z y :=
  hu.congr (wires_of_shape hc.shape) fun _ => hc.stretched

theorem Calm.mem_blocks (hc : Calm ok x g h) (hy : y ∈ g.blocks) : y ∈ h.blocks :=
  (mem_blocks_of_view hc.shape).mpr hy

theorem Calm.trans (hg : Calm ok x g h) (hh : Calm ok x h k) : Calm ok x g k where
  base := hh.base
  shape := hh.shape.trans hg.shape
  stretched hz := hh.stretched (hg.stretched hz)
  look := hh.look.trans hg.look

theorem Base.calm_calculateDeepest (B : g.Base ok) (hid : id ∈ g.blocks)
    (hrun : (calculateDeepest id).run g = (r, h)) : Calm ok x g h := by
  obtain ⟨_, _, hrun', hshape, B', _, hs⟩ := B.calculateDeepest_run hid
  cases hrun'.symm.trans hrun
  exact ⟨B', hshape, hs _, (calculateDeepest_redraws hrun).unlisted nofun⟩

theorem Base.calm_adjustHeight (B : g.Base ok) (hid : id ∈ g.blocks) (hu : g.Undisturbed x id)
    (hrun : (adjustHeight id).run g = (.ok l, h)) : Calm ok x g h := by
  obtain ⟨_, _, hrun', hshape, B', _, hs, _⟩ := B.adjustHeight_run hid
  cases hrun'.symm.trans hrun
  refine ⟨B', hshape, hs _, ?_⟩
  by_cases hx : g.Under id x
  · have hheights : (refreshHeights id g.config.maxChainHops (some id)).run g = (.ok l, h) := hrun
    rw [refreshHeights_still B.toForest B.kempt hid (hu hx) hheights]
  · exact (adjustHeight_redraws B.toForest hid hrun).unlisted fun hm =>
      hx ((adjustHeight_redraws B.toForest hid hrun).listed hm).1

theorem Base.calm_refreshAround (B : g.Base ok) (hup : up ∈ g.blocks) (hlow : low ∈ g.blocks)
    (huup : g.Undisturbed x up) (hulow : g.Undisturbed x low)
    (hrun : (refreshAround up low).run g = (.ok l, h)) : Calm ok x g h := by
  unfold refreshAround at hrun
  obtain ⟨_, g₁, hrun₁, hrest₁⟩ := Edit.run_bind_eq_ok.mp hrun
  obtain ⟨_, g₂, hrun₂, hrest₂⟩ := Edit.run_bind_eq_ok.mp hrest₁
  obtain ⟨_, g₃, hrun₃, hrest₃⟩ := Edit.run_bind_eq_ok.mp hrest₂
  obtain ⟨_, g₄, hrun₄, hdone⟩ := Edit.run_bind_eq_ok.mp hrest₃
  cases hdone
  have c₁ : Calm ok x g g₁ := B.calm_calculateDeepest hup hrun₁
  have c₂ := c₁.trans (c₁.base.calm_calculateDeepest (c₁.mem_blocks hlow) hrun₂)
  have c₃ := c₂.trans
    (c₂.base.calm_adjustHeight (c₂.mem_blocks hup) (c₂.undisturbed huup) hrun₃)
  exact c₃.trans (c₃.base.calm_adjustHeight (c₃.mem_blocks hlow) (c₃.undisturbed hulow) hrun₄)

theorem Base.calm_refreshAll (B : g.Base ok) (hl : ∀ y ∈ l, y ∈ g.blocks)
    (hu : ∀ y ∈ l, g.Undisturbed x y) (hrun : (refreshAll l).run g = (.ok (), h)) :
    Calm ok x g h := by
  induction l generalizing g with
  | nil =>
    cases hrun
    exact ⟨B, rfl, id, rfl⟩
  | cons y rest ih =>
    unfold refreshAll at hrun
    obtain ⟨_, g₁, hrun₁, hrest₁⟩ := Edit.run_bind_eq_ok.mp hrun
    obtain ⟨_, g₂, hrun₂, hrest₂⟩ := Edit.run_bind_eq_ok.mp hrest₁
    have hy := hl y List.mem_cons_self
    have c₁ : Calm ok x g g₁ := B.calm_calculateDeepest hy hrun₁
    have c₂ := c₁.trans (c₁.base.calm_adjustHeight (c₁.mem_blocks hy)
      (c₁.undisturbed (hu y List.mem_cons_self)) hrun₂)
    exact c₂.trans (ih c₂.base (fun z hz => c₂.mem_blocks (hl z (.tail _ hz)))
      (fun z hz => c₂.undisturbed (hu z (.tail _ hz))) hrest₂)

/-! ## Positions -/

/-- A block is at the same place in two graphs if it is placed alike and the blocks above it look
alike. -/
theorem PositionOf.of_look (hx : g.PositionOf id room pos) (H : g.Simple) (S : g.Seated)
    (heq : h.shape = g.shape) (hlook : ∀ z, g.Under id z → h.look z = g.look z) :
    h.PositionOf id room pos := by
  induction hx with
  | root hb hpl =>
    obtain ⟨c, hc, hbc⟩ := exists_block_of_view heq.symm hb
    exact .root hc ((Block.eq_of_bare hbc).2.2.2 ▸ hpl)
  | @attached id b n offset p k pos hb hpl hp _ ih =>
    obtain ⟨c, hc, hbc⟩ := exists_block_of_view heq.symm hb
    obtain ⟨q, hq, hpq⟩ := exists_snap_of_view heq.symm hp
    obtain ⟨p', hp', hh⟩ := S.hangsFrom H hb (by rw [hpl]; rfl)
    cases hp.symm.trans hp'
    have hstock := stock_of_wires (wires_of_shape heq)
    have hblock : p.block = q.block :=
      (SnapPoint.eq_of_blank (SnapPoint.eq_of_unplaced hpq).1).2.1
    rw [← position_of_look H.toStocked hstock (hlook _ (.single hh)) hp hq]
    exact .attached hc ((Block.eq_of_bare hbc).2.2.2 ▸ hpl) hq
      (hblock ▸ ih fun z hz => hlook z (.head hh hz))

theorem Base.globalPosition_of_look (B : g.Base ok) (heq : h.shape = g.shape)
    (hid : id ∈ g.blocks) (hlook : ∀ z, g.Under id z → h.look z = g.look z) :
    h.globalPosition id = g.globalPosition id := by
  obtain ⟨room, pos, hpos, hle⟩ := B.placed id hid
  have hpos' := hpos.of_look B.toSimple B.seated heq hlook
  rw [globalPosition_eq hpos hle, globalPosition_eq hpos' (size_eq_of_view heq ▸ hle)]

/-- Dropping a block that others hung from leaves them where they are. -/
theorem Base.globalPosition_without (B : g.Base ok) (hb : g.blocks[id]? = some b)
    (hx : x ∈ g.blocks) (hne : x ≠ id) :
    (g.without id b.snapPoints).globalPosition x = g.globalPosition x := by
  have hof {x : BlockId} {k : Nat} {pos : Point}
      (hp : (g.without id b.snapPoints).PositionOf x k pos) :
      (g.cutAt b.snapPoints).PositionOf x k pos := by
    induction hp with
    | root hc hpl =>
      rw [getElem?_blocks_without] at hc
      split at hc
      · cases hc
      · exact .root (by rwa [getElem?_blocks_cutAt]) hpl
    | attached hc hpl hp _ ih =>
      rw [getElem?_blocks_without] at hc
      rw [getElem?_snaps_without] at hp
      split at hc
      · cases hc
      · split at hp
        · cases hp
        · exact .attached (by rwa [getElem?_blocks_cutAt]) hpl (by rwa [getElem?_snaps_cutAt]) ih
  obtain ⟨j, pos, hpos, hle⟩ := (B.without hb).placed x (mem_blocks_without.mpr ⟨hne, hx⟩)
  obtain ⟨k, pos', hpos', hle'⟩ := B.placed x hx
  obtain ⟨i, hcut, _⟩ := hpos'.cutAt B.toStocked hle' b.snapPoints
  rw [globalPosition_eq hpos hle, globalPosition_eq hpos' hle', (hof hpos).unique hcut]

/-! ## Subtrees that come off -/

/-- With fewer links, a walk up from below a block that hangs from nothing stays below it. -/
theorem under_of_root (hsub : ∀ {low up}, h.HangsFrom low up → g.HangsFrom low up)
    (hroot : ∀ up, ¬ h.HangsFrom top up) (hx : g.Under x top) (hz : h.Under x z) :
    g.Under z top := by
  induction hz with
  | refl => exact hx
  | @tail a c _ hh ih =>
    rcases (hsub hh).under_iff.mp ih with rfl | hu
    · exact absurd hh (hroot c)
    · exact hu

theorem Simple.undisturbed_root (H : g.Simple) (hid : y ∈ g.blocks)
    (hroot : ∀ up, ¬ g.HangsFrom y up) (hs : g.Stretched y) : g.Undisturbed x y := by
  intro _ z hz
  cases (under_iff_of_root (H.predecessor_eq_none_iff.mpr ⟨hid, hroot⟩)).mp hz
  exact hs

/-- What is pulled off stays where it is. -/
theorem Sound.disconnect_still (S : g.Sound ok)
    (hrun : (Graph.disconnect d).run g = (.ok (.detached c), h)) (hd : g.owner d = .ok low)
    (hx : g.Under x low) : h.globalPosition x = g.globalPosition x := by
  cases S.unlinking hrun with
  | @detached n p q l _ hl hp hq hrefresh =>
    cases (owner_of_getElem? hq).symm.trans hd
    have hn := owner_of_getElem? hp
    have hh : g.HangsFrom q.block p.block := S.hangsFrom_iff.mpr ⟨n, d, hl, hn, hd⟩
    have hno : ¬ g.Under p.block q.block := S.not_under_of_hangsFrom hh
    have hlow : q.block ∈ g.blocks := hh.mem_blocks
    have hxmem : x ∈ g.blocks := hx.mem_blocks_of_up hlow
    let cut := g.cutAt [n]
    have B : cut.Base ok := S.toBase.cutAt_of_linked hl
    have hsub {a e : BlockId} (hh : cut.HangsFrom a e) : g.HangsFrom a e := by
      obtain ⟨m, i, _, _, hrest⟩ := S.hangsFrom_cutAt.mp hh
      exact S.hangsFrom_iff.mpr ⟨m, i, hrest⟩
    have hroot (e : BlockId) : ¬ cut.HangsFrom q.block e := by
      intro hh
      obtain ⟨m, i, hm, _, hl', _, hi⟩ := S.hangsFrom_cutAt.mp hh
      exact hm (List.mem_singleton.mpr (S.linked_eq hl' hl hi hd).1)
    have hcalm (z : BlockId) (hz : cut.Under x z) : Calm ok z cut h := by
      have hbelow := under_of_root hsub hroot hx hz
      refine B.calm_refreshAround (mem_blocks_cutAt.mpr (S.hangsFrom_mem hh))
        (mem_blocks_cutAt.mpr hlow) (fun hu => absurd ?_ hno)
        (B.undisturbed_root (mem_blocks_cutAt.mpr hlow) hroot
          (S.settled_cutAt hl hn hlow hno).2) hrefresh
      exact (hu.mono hsub).trans hbelow
    rw [B.globalPosition_of_look (hcalm x .refl).shape (mem_blocks_cutAt.mpr hxmem)
      fun z hz => (hcalm z hz).look]
    exact S.placed.globalPosition_cutAt S.toStocked hxmem

/-- What loses the block above it stays where it is. -/
theorem Sound.remove_still (S : g.Sound ok) (hrun : (Graph.remove id).run g = (.ok (), h))
    (hx : g.Under x id) (hne : x ≠ id) : h.globalPosition x = g.globalPosition x := by
  obtain ⟨top, hxtop, htop⟩ := (ReflTransGen.cases_tail hx).resolve_left fun he => hne he.symm
  obtain ⟨b, hb⟩ := Table.mem_iff.mp (S.hangsFrom_mem htop)
  have hxmem : x ∈ g.blocks := Under.mem_blocks_of_up hxtop htop.mem_blocks
  obtain ⟨l, hrefresh, hl⟩ := Seated.remove_run S.toSimple S.placed S.seated hb
  rw [hrefresh] at hrun
  let rest := g.without id b.snapPoints
  have B : rest.Base ok := S.toBase.without hb
  have hsub {a e : BlockId} (hh : rest.HangsFrom a e) : g.HangsFrom a e :=
    ((S.hangsFrom_without hb).mp hh).2.2
  have hroot {y : BlockId} (hy : g.HangsFrom y id) (e : BlockId) : ¬ rest.HangsFrom y e := by
    intro hh
    obtain ⟨_, he, hh⟩ := (S.hangsFrom_without hb).mp hh
    exact he (hh.eq hy)
  have hmem (y : BlockId) (hy : y ∈ l) : y ∈ rest.blocks := by
    rcases (hl y).mp hy with hh | hh
    · exact mem_blocks_without.mpr ⟨(S.hangsFrom_ne hh).symm, S.hangsFrom_mem hh⟩
    · exact mem_blocks_without.mpr ⟨S.hangsFrom_ne hh, hh.mem_blocks⟩
  have hcalm (z : BlockId) (hz : rest.Under x z) : Calm ok z rest h := by
    have hbelow := under_of_root hsub (hroot htop) hxtop hz
    refine B.calm_refreshAll hmem (fun y hy => ?_) hrun
    rcases (hl y).mp hy with hh | hh
    · exact fun hu => absurd (((hu.mono hsub).trans hbelow).tail htop)
        (S.not_under_of_hangsFrom hh)
    · exact B.undisturbed_root (hmem y hy) (hroot hh)
        (S.settled_without hb hh.mem_blocks (S.not_under_of_hangsFrom hh)).2
  rw [B.globalPosition_of_look (hcalm x .refl).shape (mem_blocks_without.mpr ⟨hne, hxmem⟩)
    fun z hz => (hcalm z hz).look]
  exact S.toBase.globalPosition_without hb hxmem hne

/-- A block is at one point in two graphs. -/
def Stays (g h : Graph) (id : BlockId) : Prop :=
  ∃ pos, g.globalPosition id = .ok pos ∧ h.globalPosition id = .ok pos

/-- **Detached blocks do not jump.** A block that is pulled off stays where it is, and so do all
blocks below it; and when a block is removed, all blocks below it do. -/
theorem Reachable.stays_put (hg : Reachable Definition.WellFormed g) :
    (∀ d c h, (disconnect d).run g = (.ok (.detached c), h) →
      ∃ low, g.owner d = .ok low ∧ ∀ x, g.Under x low → g.Stays h x) ∧
    ∀ id h, (remove id).run g = (.ok (), h) → ∀ x, g.Under x id → x ≠ id → g.Stays h x := by
  have S := hg.sound fun _ hd => hd.toCoherent
  have hstays {h : Graph} {x : BlockId} (hx : x ∈ g.blocks)
      (heq : h.globalPosition x = g.globalPosition x) : g.Stays h x := by
    obtain ⟨pos, hpos⟩ := S.placed.exists_position hx
    exact ⟨pos, hpos, heq.trans hpos⟩
  refine ⟨fun d c h hrun => ?_, fun id h hrun x hx hne => ?_⟩
  · cases S.unlinking hrun with
    | @detached n p q l _ _ _ hq =>
      have hd := owner_of_getElem? hq
      have hlow : q.block ∈ g.blocks := S.block_mem hq
      exact ⟨q.block, hd, fun x hx =>
        hstays (hx.mem_blocks_of_up hlow) (S.disconnect_still hrun hd hx)⟩
  · have hid : id ∈ g.blocks := by
      obtain ⟨top, _, htop⟩ := (ReflTransGen.cases_tail hx).resolve_left fun he => hne he.symm
      exact S.hangsFrom_mem htop
    exact hstays (hx.mem_blocks_of_up hid) (S.remove_still hrun hx hne)

/-- A loop that was moved away from its notch. -/
def pulledGraph : Graph := (Operation.move "b" ⟨500, 40⟩).apply Document.nestedGraph

/-- A statement stays where it is when the loop around it is pulled off, or removed. -/
theorem stays_put_pulledGraph :
    (∃ c h, (disconnect "divot-0-b").run pulledGraph = (.ok (.detached c), h) ∧
      pulledGraph.Stays h "b" ∧ pulledGraph.Stays h "c") ∧
    ∃ h, (remove "b").run pulledGraph = (.ok (), h) ∧ pulledGraph.Stays h "c" := by
  have hruns : ((disconnect "divot-0-b").run pulledGraph).1 =
        .ok (.detached ⟨"notch-0-a", "divot-0-b", ["b"]⟩) ∧
      ((remove "b").run pulledGraph).1 = .ok () ∧ pulledGraph.owner "divot-0-b" = .ok "b" ∧
      pulledGraph.predecessor "c" = .ok (some "b") := by decide +kernel
  obtain ⟨hout, hgone, hb, hunder⟩ := hruns
  obtain ⟨hdisconnect, hremove⟩ :=
    Reachable.stays_put (Document.reachable_nestedGraph.step (.move "b" ⟨500, 40⟩) nofun nofun)
  constructor
  · rcases hrun : (disconnect "divot-0-b").run pulledGraph with ⟨r, h⟩
    rw [hrun] at hout
    obtain rfl : r = _ := hout
    obtain ⟨low, hlow, hstays⟩ := hdisconnect _ _ _ hrun
    cases hb.symm.trans hlow
    exact ⟨_, h, rfl, hstays "b" .refl, hstays "c" (.single hunder)⟩
  · rcases hrun : (remove "b").run pulledGraph with ⟨r, h⟩
    rw [hrun] at hgone
    obtain rfl : r = _ := hgone
    exact ⟨h, rfl, hremove "b" h hrun "c" (.single hunder) (by decide)⟩

end Graph

end SnapBlocks

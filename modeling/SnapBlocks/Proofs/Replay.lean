import SnapBlocks.Proofs.Refill
import SnapBlocks.Proofs.Saving

/-! A load of a saved graph replays it, `Document.Replays`. The blocks come back with their inputs
and without links. Then the links come back in the order of their notches: at every point in
between there are some of the links of the saved graph and no others, so a link that stands in the
saved graph is accepted. At last the offsets come back. -/

namespace SnapBlocks

namespace Graph

variable {g h : Graph} {i : SnapId} {p : SnapPoint}

theorem Stocked.exists_snap_of_stems (H : g.Stocked) (H' : h.Stocked)
    (hblocks : ∀ i : BlockId, g.blocks[i]?.map Block.stem = h.blocks[i]?.map Block.stem)
    (hp : g.snaps[i]? = some p) : ∃ q, h.snaps[i]? = some q ∧ q.blank = p.blank := by
  obtain ⟨b, hb, s, hs, rfl, hfresh⟩ := H.snap_of hp
  have hstem := hblocks p.block
  rw [hb, Option.map_some, eq_comm, Option.map_eq_some_iff] at hstem
  obtain ⟨c, hc, hcb⟩ := hstem
  obtain ⟨q, hq, hq'⟩ := H'.snap_at hc ((Block.eq_of_stem hcb).2 ▸ hs)
  exact ⟨q, hq, hq'.trans hfresh.symm⟩

/-- The blocks determine which snap points there are. -/
theorem Stocked.stock_ext (H : g.Stocked) (H' : h.Stocked) (hconfig : g.config = h.config)
    (hlayout : g.layout = h.layout)
    (hblocks : ∀ i : BlockId, g.blocks[i]?.map Block.stem = h.blocks[i]?.map Block.stem) :
    g.stock = h.stock := by
  have hto {i p} := H.exists_snap_of_stems H' hblocks (i := i) (p := p)
  have hfro {i p} := H'.exists_snap_of_stems H (fun i => (hblocks i).symm) (i := i) (p := p)
  have hkind {P : SnapKind → Prop} (i : SnapId) :
      (∃ p, g.snaps[i]? = some p ∧ P p.kind) ↔ ∃ p, h.snaps[i]? = some p ∧ P p.kind := by
    constructor
    · rintro ⟨p, hp, hk⟩
      obtain ⟨q, hq, hqp⟩ := hto hp
      exact ⟨q, hq, (SnapPoint.eq_of_blank hqp).2.2.2.2 ▸ hk⟩
    · rintro ⟨p, hp, hk⟩
      obtain ⟨q, hq, hqp⟩ := hfro hp
      exact ⟨q, hq, (SnapPoint.eq_of_blank hqp).2.2.2.2 ▸ hk⟩
  refine view_ext hconfig hlayout hblocks (fun i => ?_) ?_ ?_
  · cases hp : g.snaps[i]? with
    | some p =>
      obtain ⟨q, hq, hqp⟩ := hto hp
      rw [hq, Option.map_some, Option.map_some, hqp]
    | none =>
      cases hq : h.snaps[i]? with
      | none => rfl
      | some q =>
        obtain ⟨p, hp', _⟩ := hfro hq
        cases hp.symm.trans hp'
  · refine TextSet.ext fun i => ?_
    rw [H.mem_notches, H'.mem_notches]
    exact hkind (P := fun k => k.isNotch) i
  · refine TextSet.ext fun i => ?_
    rw [H.mem_divots, H'.mem_divots]
    exact hkind (P := fun k => k.isDivot) i

end Graph

namespace Document

open SnapBlocks.Graph

/-- A graph holds some of the blocks of another, and the links of some of its notches. -/
structure Replays (g : Graph) (ids : BlockId → Prop) (ns : SnapId → Prop) (m : Graph) : Prop where
  sound : m.Sound Definition.Coherent
  config : m.config = g.config
  layout : m.layout = g.layout
  mem {id : BlockId} : id ∈ m.blocks ↔ ids id ∧ id ∈ g.blocks
  block {id : BlockId} {b c : Block} : g.blocks[id]? = some b → m.blocks[id]? = some c →
    c.definition = b.definition ∧ c.inputs = b.inputs
  /-- A root comes back where it was. -/
  root {id : BlockId} {b c : Block} {pos : Point} : g.blocks[id]? = some b →
    m.blocks[id]? = some c → b.placement = .root pos → c.placement = .root pos
  linked {n e : SnapId} : m.Linked n e ↔ ns n ∧ g.Linked n e

variable {g m m' : Graph} {b c : Block} {id low up : BlockId} {n e : SnapId} {p q : SnapPoint}
variable {ids ids' : BlockId → Prop} {ns ns' : SnapId → Prop} {saved : SavedBlock}
variable {pos : Point} {k j : Nat}

theorem Replays.congr (R : Replays g ids ns m) (hids : ∀ id, id ∈ g.blocks → (ids id ↔ ids' id))
    (hns : ∀ n e, g.Linked n e → (ns n ↔ ns' n)) : Replays g ids' ns' m :=
  { R with
    mem := fun {id} => R.mem.trans (and_congr_left (hids id))
    linked := fun {n e} => R.linked.trans (and_congr_left (hns n e)) }

theorem replays_empty (g : Graph) (catalog : Catalog) (hlayout : g.layout = .stacked) :
    Replays g (fun _ => False) (fun _ => False) (.empty catalog g.config) where
  sound := sound_empty _ _ _
  config := rfl
  layout := hlayout.symm
  mem {id} := by simp [Table.mem_iff]
  block _ hc := by simp at hc
  root _ hc := by simp at hc
  linked {n e} := by simp [Linked]

/-! ## Blocks -/

theorem saveBlock_eq_ok (h : saveBlock g b = .ok saved) :
    saved.definition = b.definition ∧ saved.segments = saveSegments b ∧
      saved.offset = offsetOf b.placement ∧ g.globalPosition b.id = .ok saved.position := by
  unfold saveBlock at h
  cases hpos : g.globalPosition b.id with
  | error x => simp [hpos, bind, Except.bind] at h
  | ok pos =>
    rw [hpos] at h
    cases h
    exact ⟨rfl, rfl, rfl, rfl⟩

theorem globalPosition_root (hb : g.blocks[id]? = some b)
    (hpl : b.placement = .root pos) : g.globalPosition id = .ok pos := by
  unfold globalPosition positionWithin
  simp only [block_of_getElem? hb, bind, Except.bind, hpl]
  rfl

/-- A new block that is like one of the saved graph. -/
theorem Replays.addBlock (R : Replays g ids ns m) (S' : m'.Sound Definition.Coherent)
    (hb : g.blocks[c.id]? = some b) (hnew : m.blocks[c.id]? = none)
    (hshape : m'.shape = (m.addBlock c).shape) (hdef : c.definition = b.definition)
    (hinputs : c.inputs = b.inputs)
    (hroot : ∀ pos, b.placement = .root pos → c.placement = .root pos) :
    Replays g (fun i => c.id = i ∨ ids i) ns m' where
  sound := S'
  config := ((config_eq_of_view hshape).trans config_addBlock).trans R.config
  layout := ((layout_eq_of_view hshape).trans layout_addBlock).trans R.layout
  mem {i} := by
    rw [mem_blocks_of_view hshape, mem_blocks_addBlock, R.mem, or_and_right]
    exact or_congr_left ⟨fun he => ⟨he, he ▸ Table.mem_iff.mpr ⟨b, hb⟩⟩, And.left⟩
  block {i b' c'} hb' hc' := by
    obtain ⟨c₀, hc₀, hbare⟩ := exists_block_of_view hshape hc'
    obtain ⟨_, hd, hi, _⟩ := Block.eq_of_bare hbare
    rw [hd, hi]
    rw [getElem?_blocks_addBlock] at hc₀
    split at hc₀
    next he =>
      subst he
      cases hb.symm.trans hb'
      cases hc₀
      exact ⟨hdef, hinputs⟩
    next => exact R.block hb' hc₀
  root {i b' c' pos} hb' hc' hpl := by
    obtain ⟨c₀, hc₀, hbare⟩ := exists_block_of_view hshape hc'
    rw [(Block.eq_of_bare hbare).2.2.2]
    rw [getElem?_blocks_addBlock] at hc₀
    split at hc₀
    next he =>
      subst he
      cases hb.symm.trans hb'
      cases hc₀
      exact hroot pos hpl
    next => exact R.root hb' hc₀ hpl
  linked {n e} := by
    rw [linked_congr (wires_of_shape hshape), R.sound.linked_addBlock hnew, R.linked]

/-- A block comes back with its inputs and without links. -/
theorem Replays.block_run (skipped : List Skipped) (S : g.Sound Definition.Coherent)
    (R : Replays g ids (fun _ => False) m) (hb : g.blocks[id]? = some b) (hid : ¬ ids id)
    (hsaved : saveBlock g b = .ok saved) :
    ∃ m₁ m', (insertDefinition id saved.definition saved.position).run m = (.ok id, m₁) ∧
      (loadSegments id saved.segments).run ⟨m₁, skipped⟩ = (.ok (), ⟨m', skipped⟩) ∧
      Replays g (fun i => id = i ∨ ids i) (fun _ => False) m' := by
  obtain ⟨hdef, hsegments, _, hpos⟩ := saveBlock_eq_ok hsaved
  rw [S.block_id hb] at hpos
  have hc := S.defined hb
  have hnew : m.blocks[id]? = none := by
    by_contra hsome
    exact hid (R.mem.mp (Table.mem_iff.mpr (Option.ne_none_iff_exists'.mp hsome))).1
  obtain ⟨m₁, hrun, S₁, hshape⟩ := R.sound.insert_run hnew hc hc saved.position
  obtain ⟨c, hc₁, hfresh⟩ : ∃ c, m₁.blocks[id]? = some c ∧
      (Block.fresh id b.definition saved.position).bare = c.bare := by
    refine exists_block_of_view hshape.symm ?_
    rw [getElem?_blocks_addBlock]
    exact if_pos rfl
  have hload := loadSegments_saved skipped (S.filled hb) hc hc₁ (Block.eq_of_bare hfresh).2.2.1.symm
  rw [← hsegments] at hload
  obtain ⟨l, hl, S', _⟩ := loadSegments_sound (l := ⟨m₁, skipped⟩) S₁ id saved.segments
  cases hload.symm.trans hl
  refine ⟨m₁, _, hdef ▸ hrun, hload, ?_⟩
  refine R.addBlock (c := { Block.fresh id b.definition saved.position with inputs := b.inputs })
    S' hb hnew (shape_withInputs hshape) rfl rfl fun pos hpl => ?_
  cases hpos.symm.trans (globalPosition_root hb hpl)
  rfl

theorem Replays.loadBlocks_run (skipped : List Skipped) (S : g.Sound Definition.Coherent)
    {l : List (BlockId × SavedBlock)}
    (R : Replays g ids (fun _ => False) m) (hn : (l.map (·.1)).Nodup)
    (hl : ∀ p ∈ l, ¬ ids p.1 ∧ ∃ b, g.blocks[p.1]? = some b ∧ saveBlock g b = .ok p.2) :
    ∃ m', (loadBlocks l).run ⟨m, skipped⟩ = (.ok (), ⟨m', skipped⟩) ∧
      Replays g (fun id => id ∈ l.map (·.1) ∨ ids id) (fun _ => False) m' := by
  induction l generalizing m ids with
  | nil => exact ⟨m, rfl, R.congr (fun _ _ => by simp) fun _ _ _ => .rfl⟩
  | cons p rest ih =>
    obtain ⟨id, saved⟩ := p
    rw [List.map_cons, List.nodup_cons] at hn
    obtain ⟨hid, b, hb, hsaved⟩ := hl _ List.mem_cons_self
    obtain ⟨m₁, m₂, hrun₁, hrun₂, R₂⟩ := R.block_run skipped S hb hid hsaved
    have hrest : ∀ p ∈ rest, ¬ (id = p.1 ∨ ids p.1) ∧
        ∃ b, g.blocks[p.1]? = some b ∧ saveBlock g b = .ok p.2 := by
      intro p hp
      obtain ⟨hno, hsaved⟩ := hl p (.tail _ hp)
      refine ⟨?_, hsaved⟩
      rintro (rfl | hp')
      · exact hn.1 (List.mem_map.mpr ⟨p, hp, rfl⟩)
      · exact hno hp'
    obtain ⟨m', hrun, R'⟩ := ih R₂ hn.2 hrest
    refine ⟨m', ?_, R'.congr (fun i _ => mem_cons_or.symm) fun _ _ _ => .rfl⟩
    rw [loadBlocks, Load.run_bind_ok (by rw [Load.run_onGraph, hrun₁])]
    exact (Load.run_bind_ok hrun₂ _).trans hrun

/-! ## Links -/

section
variable (S : g.Sound Definition.Coherent) (R : Replays g (fun _ => True) ns m)
include S R

theorem Replays.stock : m.stock = g.stock := by
  refine R.sound.toStocked.stock_ext S.toStocked R.config R.layout fun i => ?_
  have hmem : i ∈ m.blocks ↔ i ∈ g.blocks := R.mem.trans (by simp)
  cases hb : g.blocks[i]? with
  | none =>
    cases hc : m.blocks[i]? with
    | none => rfl
    | some c =>
      obtain ⟨b, hb'⟩ := Table.mem_iff.mp (hmem.mp (Table.mem_iff.mpr ⟨c, hc⟩))
      cases hb.symm.trans hb'
  | some b =>
    obtain ⟨c, hc⟩ := Table.mem_iff.mp (hmem.mpr (Table.mem_iff.mpr ⟨b, hb⟩))
    rw [hc, Option.map_some, Option.map_some, Block.stem, Block.stem, R.sound.block_id hc,
      S.block_id hb, (R.block hb hc).1]

/-- What hangs from a block hung from it before. -/
theorem Replays.hangsFrom (hh : m.HangsFrom low up) : g.HangsFrom low up :=
  S.hangsFrom_mono R.sound.toSimple (owner_congr_stock (R.stock S))
    (fun _ _ hl => (R.linked.mp hl).2) hh

/-- Below a link that is still to come blocks are as deep as the link will make them. -/
theorem Replays.depth_below (hh : g.HangsFrom low up) (hj : g.DepthOf up j)
    (hroot : m.predecessor low = .ok none) (hk : m.DepthOf id k) (hu : m.Under id low) :
    g.DepthOf id (j + k) := by
  induction hk with
  | @root id hr =>
    cases (under_iff_of_root hr).mp hu
    exact .hang hh hj
  | @hang id c k hh' _ ih =>
    rcases hh'.under_iff.mp hu with rfl | hu
    · exact absurd hroot hh'.predecessor_ne
    · exact .hang (R.hangsFrom S hh') (ih hu)

/-- **A link that is still to come is accepted.** -/
theorem Replays.joinable (hl : g.Linked n e) (hn : ¬ ns n) (hp : m.snaps[n]? = some p)
    (hq : m.snaps[e]? = some q) : m.Joinable p q := by
  obtain ⟨p₀, q₀, hp₀, hq₀, hnext, _, hpk, hqk, hne⟩ := S.ends hl
  obtain ⟨_, hp₁, hpp⟩ := exists_snap_of_view (R.stock S) hp
  obtain ⟨_, hq₁, hqq⟩ := exists_snap_of_view (R.stock S) hq
  cases hp₀.symm.trans hp₁
  cases hq₀.symm.trans hq₁
  obtain ⟨_, hpb, _, _, hpk'⟩ := SnapPoint.eq_of_blank hpp
  obtain ⟨_, hqb, _, _, hqk'⟩ := SnapPoint.eq_of_blank hqq
  have hh : g.HangsFrom q.block p.block := S.hangsFrom_iff.mpr
    ⟨n, e, hl, owner_eq_ok.mpr ⟨p₀, hp₀, hpb.symm⟩, owner_eq_ok.mpr ⟨q₀, hq₀, hqb.symm⟩⟩
  have hpfree : p.next = none := Option.eq_none_iff_forall_ne_some.mpr fun e' hnext' =>
    hn (R.linked.mp ((linked_iff_next hp).mpr hnext')).1
  have hqfree : q.previous = none := Option.eq_none_iff_forall_ne_some.mpr fun n' hprev => by
    obtain ⟨hn', hl'⟩ := R.linked.mp ((R.sound.linked_iff_previous hq).mpr hprev)
    exact hn (S.notch_eq hl hl' ▸ hn')
  have hroot := R.sound.predecessor_of_free hq (hqk'.trans hqk) hqfree
  refine ⟨⟨hpk' ▸ hpk, hqk'.trans hqk, hpfree, hqfree, by rw [hpb, hqb]; exact hne, fun hu => ?_⟩,
    fun {base low k} hbase hu hk => ?_⟩
  · exact S.not_under_of_hangsFrom hh (hu.mono (R.hangsFrom S))
  · obtain ⟨j, hj, _⟩ := S.depth (S.hangsFrom_mem hh)
    obtain ⟨base', hbase', hle⟩ := R.sound.exists_depth (R.hangsFrom S) hj hbase.mem_blocks
    cases hbase.unique hbase'
    have hdeep := S.depth_le (R.depth_below S hh hj hroot hk hu)
    have hjpos := hj.pos
    have hkpos := hk.pos
    rw [R.config]
    omega

/-- A new link that is one of the saved graph. -/
theorem Replays.link (hl : g.Linked n e) (hn : ¬ ns n) (hp : m.snaps[n]? = some p)
    (hq : m.snaps[e]? = some q) (S' : m'.Sound Definition.Coherent) {offset : Point}
    (hshape : m'.shape = ((m.link n e).setPlacement q.block (.attached n offset)).shape) :
    Replays g (fun _ => True) (fun i => n = i ∨ ns i) m' := by
  have hstock := stock_of_wires (wires_of_shape hshape)
  rw [stock_setPlacement, stock_link] at hstock
  have hold {i : BlockId} {c : Block} (hc : m'.blocks[i]? = some c) : ∃ c₀, m.blocks[i]? = some c₀ ∧
      c.definition = c₀.definition ∧ c.inputs = c₀.inputs ∧
        (q.block ≠ i → c.placement = c₀.placement) := by
    obtain ⟨c', hc', hbare⟩ := exists_block_of_view hshape hc
    obtain ⟨_, hdef, hinputs, hpl⟩ := Block.eq_of_bare hbare
    rw [getElem?_blocks_setPlacement] at hc'
    split at hc'
    next he =>
      obtain ⟨c₀, hc₀, rfl⟩ := Option.map_eq_some_iff.mp hc'
      exact ⟨c₀, hc₀, hdef, hinputs, fun hne => absurd he hne⟩
    next => exact ⟨c', hc', hdef, hinputs, fun _ => hpl⟩
  refine ⟨S', (config_eq_of_view hshape).trans R.config, (layout_eq_of_view hshape).trans R.layout,
    (mem_blocks_of_view hstock).trans R.mem, fun hb hc => ?_, fun {i b c pos} hb hc hpl => ?_,
    fun {n' e'} => ?_⟩
  · obtain ⟨c₀, hc₀, hdef, hinputs, _⟩ := hold hc
    rw [hdef, hinputs]
    exact R.block hb hc₀
  · obtain ⟨c₀, hc₀, _, _, hsame⟩ := hold hc
    have hne : q.block ≠ i := by
      rintro rfl
      have hroot := (S.seated.root_iff S.toSimple hb).mp (by rw [hpl]; rfl)
      obtain ⟨p₀, _, hp₀, _⟩ := S.ends hl
      have howner := (owner_congr_stock (R.stock S) e).symm.trans (owner_of_getElem? hq)
      have hh : g.HangsFrom q.block p₀.block :=
        S.hangsFrom_iff.mpr ⟨n, e, hl, owner_of_getElem? hp₀, howner⟩
      exact hh.predecessor_ne hroot
    rw [hsame hne]
    exact R.root hb hc₀ hpl
  · have hne : n ≠ e := by
      rintro rfl
      exact S.not_linked_of_linked hl hl
    rw [linked_congr (wires_of_shape hshape), linked_congr wires_setPlacement,
      linked_link hp hq hne, R.linked]
    constructor
    · rintro (⟨rfl, rfl⟩ | ⟨_, hns, hl'⟩)
      · exact ⟨.inl rfl, hl⟩
      · exact ⟨.inr hns, hl'⟩
    · rintro ⟨rfl | hns, hl'⟩
      · exact .inl ⟨rfl, hl'.eq hl⟩
      · exact .inr ⟨fun he => hn (he ▸ hns), hns, hl'⟩

/-- A link comes back. -/
theorem Replays.link_run (hl : g.Linked n e) (hn : ¬ ns n) :
    m.isNotch n ∧ m.isDivot e ∧ m.linkRejection n e = .ok none ∧
      ∃ r m', (attach n e).run m = (.ok r, m') ∧
        Replays g (fun _ => True) (fun i => n = i ∨ ns i) m' := by
  obtain ⟨p₀, q₀, hp₀, hq₀, _⟩ := S.ends hl
  obtain ⟨p, hp, _⟩ := exists_snap_of_view (R.stock S).symm hp₀
  obtain ⟨q, hq, _⟩ := exists_snap_of_view (R.stock S).symm hq₀
  have J := R.joinable S hl hn hp hq
  obtain ⟨r, hr, hiff⟩ := R.sound.linkRejection_eq hp hq
  obtain ⟨c, m', hrun, S', hshape⟩ := R.sound.attach_run hp hq J
  have hnotch : n ∈ m.notches := R.sound.mem_notches.mpr ⟨p, hp, J.notch⟩
  have hdivot : e ∈ m.divots := R.sound.mem_divots.mpr
    ⟨q, hq, SnapKind.isDivot_iff.mpr J.divot⟩
  exact ⟨Std.ExtTreeSet.mem_iff_contains.mp hnotch, Std.ExtTreeSet.mem_iff_contains.mp hdivot,
    (hiff.mpr J) ▸ hr, c, m', hrun, R.link S hl hn hp hq S' hshape⟩

theorem Replays.loadLinks_run (skipped : List Skipped) {l : List (SnapId × SavedLink)}
    (hn : (l.map (·.1)).Nodup)
    (hl : ∀ p ∈ l, ¬ ns p.1 ∧ g.Linked p.1 p.2.divotId) :
    ∃ m', (loadLinks l).run ⟨m, skipped⟩ = (.ok (), ⟨m', skipped⟩) ∧
      Replays g (fun _ => True) (fun n => n ∈ l.map (·.1) ∨ ns n) m' := by
  induction l generalizing m ns with
  | nil => exact ⟨m, rfl, R.congr (fun _ _ => .rfl) fun _ _ _ => by simp⟩
  | cons p rest ih =>
    obtain ⟨n, link⟩ := p
    rw [List.map_cons, List.nodup_cons] at hn
    obtain ⟨hno, hlink⟩ := hl _ List.mem_cons_self
    obtain ⟨hnotch, hdivot, hrej, r, m₁, hrun₁, R₁⟩ := R.link_run S hlink hno
    have hrest : ∀ p ∈ rest, ¬ (n = p.1 ∨ ns p.1) ∧ g.Linked p.1 p.2.divotId := by
      intro p hp
      obtain ⟨hno, hlink⟩ := hl p (.tail _ hp)
      refine ⟨?_, hlink⟩
      rintro (rfl | hp')
      · exact hn.1 (List.mem_map.mpr ⟨p, hp, rfl⟩)
      · exact hno hp'
    obtain ⟨m', hrun, R'⟩ := ih R₁ hn.2 hrest
    refine ⟨m', ?_, R'.congr (fun _ _ => .rfl) fun i _ _ => mem_cons_or.symm⟩
    rw [loadLinks, Load.run_bind_ok Load.run_get]
    dsimp only
    rw [if_pos (by simp only [hnotch, hdivot, Bool.and_self]),
      Load.run_bind_ok (by rw [Load.run_onGraph, Edit.run_ask, hrej]),
      Load.run_bind_ok (by rw [Load.run_onGraph, hrun₁])]
    exact hrun

end

/-! ## Offsets -/

/-- Some of the blocks are back in their places. -/
def Replaced (g : Graph) (ids : BlockId → Prop) (m : Graph) : Prop :=
  ∀ id b c, ids id → g.blocks[id]? = some b → m.blocks[id]? = some c → c.placement = b.placement

/-- A block that hangs from a notch hangs from it again. -/
theorem Replays.exists_offset (S : g.Sound Definition.Coherent)
    (R : Replays g (fun _ => True) (fun _ => True) m) (hb : g.blocks[id]? = some b)
    (hc : m.blocks[id]? = some c) (hpl : b.placement.anchor = some n) :
    ∃ offset, c.placement = .attached n offset := by
  obtain ⟨d, hd, hl⟩ := (S.seated.anchor_iff hb).mp hpl
  refine Placement.anchor_eq_some.mp ((R.sound.seated.anchor_iff hc).mpr ⟨d, ?_, ?_⟩)
  · rw [← hd, Block.primaryDivot, Block.primaryDivot, (R.block hb hc).1, R.sound.block_id hc,
      S.block_id hb]
  · exact R.linked.mpr ⟨trivial, hl⟩

theorem Replays.setPlacement (R : Replays g ids ns m) {pl : Placement}
    (hsound : (m.setPlacement id pl).Sound Definition.Coherent)
    (hroot : ∀ b pos, g.blocks[id]? = some b → b.placement = .root pos → pl = .root pos) :
    Replays g ids ns (m.setPlacement id pl) := by
  have hw : (m.setPlacement id pl).wires = m.wires := wires_setPlacement
  refine ⟨hsound, R.config, R.layout, (mem_blocks_of_view hw).trans R.mem, fun hb hc => ?_,
    fun hb hc hpl => ?_, (linked_congr hw).trans R.linked⟩ <;>
    rw [getElem?_blocks_setPlacement] at hc <;> split at hc
  · obtain ⟨c₀, hc₀, rfl⟩ := Option.map_eq_some_iff.mp hc
    exact (R.block hb hc₀ :)
  · exact R.block hb hc
  next he =>
    obtain ⟨c₀, hc₀, rfl⟩ := Option.map_eq_some_iff.mp hc
    exact hroot _ _ (he ▸ hb) hpl
  · exact R.root hb hc hpl

/-- A block comes back to its place. -/
theorem Replays.offset_run (skipped : List Skipped) (S : g.Sound Definition.Coherent)
    (R : Replays g (fun _ => True) (fun _ => True) m) (P : Replaced g ids m)
    (hb : g.blocks[id]? = some b) (hoffset : saved.offset = offsetOf b.placement)
    (rest : List (BlockId × SavedBlock)) :
    ∃ m₁, (loadOffsets ((id, saved) :: rest)).run ⟨m, skipped⟩ =
        (loadOffsets rest).run ⟨m₁, skipped⟩ ∧
      Replays g (fun _ => True) (fun _ => True) m₁ ∧
      Replaced g (fun i => id = i ∨ ids i) m₁ := by
  obtain ⟨c, hc⟩ := Table.mem_iff.mp (R.mem.mpr ⟨trivial, Table.mem_iff.mpr ⟨b, hb⟩⟩)
  cases hpl : b.placement with
  | root pos =>
    refine ⟨m, ?_, R, ?_⟩
    · rw [loadOffsets, hoffset, hpl]
      rfl
    · rintro i b' c' (rfl | hi) hb' hc'
      · cases hb.symm.trans hb'
        rw [hpl]
        exact R.root hb hc' hpl
      · exact P i b' c' hi hb' hc'
  | attached n offset =>
    obtain ⟨old, hcpl⟩ := R.exists_offset S hb hc (by rw [hpl]; rfl)
    refine ⟨m.setPlacement id (.attached n offset), ?_, R.setPlacement ?_ ?_, ?_⟩
    · rw [loadOffsets, hoffset, hpl]
      dsimp only [offsetOf]
      rw [Load.run_bind_ok (by rw [Load.run_onGraph, Edit.run_needBlock, block_of_getElem? hc])]
      rw [hcpl]
      exact Load.run_bind_ok (by rw [Load.run_onGraph, Edit.run_change]) _
    · refine R.sound.setPlacement fun c' hc' => ?_
      cases hc.symm.trans hc'
      rw [hcpl]
      rfl
    · intro b' pos hb' hpl'
      cases hb.symm.trans hb'
      cases hpl.symm.trans hpl'
    · rintro i b' c' hi hb' hc'
      rw [getElem?_blocks_setPlacement] at hc'
      split at hc'
      next he =>
        subst he
        obtain ⟨c₀, hc₀, rfl⟩ := Option.map_eq_some_iff.mp hc'
        cases hb.symm.trans hb'
        exact hpl.symm
      next he => exact P i b' c' (hi.resolve_left he) hb' hc'

theorem Replays.loadOffsets_run (skipped : List Skipped) (S : g.Sound Definition.Coherent)
    (R : Replays g (fun _ => True) (fun _ => True) m) (P : Replaced g ids m)
    {l : List (BlockId × SavedBlock)}
    (hl : ∀ p ∈ l, ∃ b, g.blocks[p.1]? = some b ∧ p.2.offset = offsetOf b.placement) :
    ∃ m', (loadOffsets l).run ⟨m, skipped⟩ = (.ok (), ⟨m', skipped⟩) ∧
      Replays g (fun _ => True) (fun _ => True) m' ∧
      Replaced g (fun id => id ∈ l.map (·.1) ∨ ids id) m' := by
  induction l generalizing m ids with
  | nil => exact ⟨m, rfl, R, fun id b c hid => P id b c (by simpa using hid)⟩
  | cons p rest ih =>
    obtain ⟨id, saved⟩ := p
    obtain ⟨b, hb, hoffset⟩ := hl _ List.mem_cons_self
    obtain ⟨m₁, hstep, R₁, P₁⟩ := R.offset_run skipped S P hb hoffset rest
    obtain ⟨m', hrun, R', P'⟩ := ih R₁ P₁ fun p hp => hl p (.tail _ hp)
    exact ⟨m', hstep.trans hrun, R', fun i b c hi => P' i b c (mem_cons_or.mp hi)⟩

end Document

end SnapBlocks

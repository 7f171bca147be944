import SnapBlocks.Graph.Operation
import SnapBlocks.Proofs.Making

/-! Every operation of an editing session keeps the invariant, whether it succeeds, is rejected or
fails; so it holds of every graph that is reached from a sound one. -/

namespace SnapBlocks.Graph

variable {ok : Definition → Prop} {g h : Graph} {b : Block} {id : BlockId} {n d : SnapId}
variable {pl : Placement}

/-! ## Changes that no cache rests on -/

/-- A change of one block on which no link and no cache rests. -/
theorem Sound.modifyBlock (S : g.Sound ok) {f : Block → Block} (hcore : ∀ b, (f b).core = b.core)
    (hpl : ∀ b, g.blocks[id]? = some b → (f b).placement.anchor = b.placement.anchor)
    (hfilled : ∀ b, b.Filled → (f b).Filled) : (g.modifyBlock id f).Sound ok := by
  have hblocks {i : BlockId} {c : Block} (hc : (g.modifyBlock id f).blocks[i]? = some c) :
      ∃ b, g.blocks[i]? = some b ∧ c.core = b.core ∧ c.placement.anchor = b.placement.anchor ∧
        c.Filled := by
    rw [Graph.modifyBlock, Table.getElem?_modify] at hc
    split at hc
    next he =>
      subst he
      obtain ⟨b, hb, rfl⟩ := Option.map_eq_some_iff.mp hc
      exact ⟨b, hb, hcore b, hpl b hb, hfilled b (S.filled hb)⟩
    next => exact ⟨c, hc, rfl, rfl, S.filled hc⟩
  have hw : g.wires = (g.modifyBlock id f).wires := by
    refine (view_modifyBlock (fun b => ?_) g id).symm
    obtain ⟨hid, hdef, _⟩ := Block.eq_of_core (hcore b)
    simp [Block.stem, hid, hdef]
  have hF := S.toForest.of_wires hw
  have hkept (y) : Kept g (g.modifyBlock id f) y := by
    refine ⟨fun {b} hb => ?_, fun {b s p} _ _ hp => ⟨p, hp, rfl⟩⟩
    obtain ⟨c, hc, _⟩ := exists_block_of_view hw hb
    obtain ⟨b', hb', hcb, _⟩ := hblocks hc
    cases hb.symm.trans hb'
    exact ⟨c, hc, hcb⟩
  have hmem {x} (hx : x ∈ (g.modifyBlock id f).blocks) : x ∈ g.blocks :=
    (mem_blocks_of_view hw).mpr hx
  exact {
    hF with
    defined := fun hc => by
      obtain ⟨b, hb, hcb, _⟩ := hblocks hc
      exact (Block.eq_of_core hcb).2.1 ▸ S.defined hb
    seated := S.seated.of_anchors hw fun i c hc => by
      obtain ⟨b, hb, _, hanchor, _⟩ := hblocks hc
      exact ⟨b, hb, hanchor⟩
    kempt := by
      refine S.kempt.of_sizes rfl (fun i c hc => ?_) fun _ _ _ _ _ p hp => ⟨p, hp, rfl⟩
      obtain ⟨b, hb, hcb, _⟩ := hblocks hc
      exact ⟨b, hb, Block.sizes_of_core hcb⟩
    filled := fun hc => by
      obtain ⟨_, _, _, _, hf⟩ := hblocks hc
      exact hf
    tailed := fun hx => (S.of_kept hF (hmem hx) fun y _ => hkept y).1
    stretched := fun x c hc =>
      (S.of_kept hF (hmem (Table.mem_iff.mpr ⟨c, hc⟩)) fun y _ => hkept y).2 c hc }

theorem Sound.setPlacement (S : g.Sound ok)
    (hpl : ∀ b, g.blocks[id]? = some b → pl.anchor = b.placement.anchor) :
    (g.setPlacement id pl).Sound ok :=
  S.modifyBlock (fun _ => rfl) hpl fun _ hf => hf.congr rfl rfl

/-- The drag that is under way is no part of the invariant. -/
theorem Sound.setDrag (S : g.Sound ok) (x : Drag) : Sound ok { g with drag := x } := by
  have htailless : g.tailless = tailless { g with drag := x } := rfl
  have hflat : g.flat = flat { g with drag := x } := rfl
  exact {
    S.toBase.of_shape (h := { g with drag := x }) rfl (kempt_congr htailless S.kempt) with
    tailed := fun hx => tailed_congr hflat (S.tailed hx)
    stretched := fun x => stretched_congr htailless (S.stretched x) }

/-- A block may be moved; it stays with its notch. -/
theorem Sound.moveBlock (S : g.Sound ok) (id : BlockId) (pos : Point) :
    ((moveBlock id pos).run g).2.Sound ok := by
  unfold Graph.moveBlock
  refine Edit.leaves_ask S fun b hb => ?_
  have hb := block_eq_ok.mp hb
  cases hpl : b.placement with
  | root old =>
    refine S.setPlacement fun c hc => ?_
    cases hb.symm.trans hc
    rw [hpl]
    rfl
  | attached n offset =>
    refine Edit.leaves_ask S fun anchor _ => S.setPlacement fun c hc => ?_
    cases hb.symm.trans hc
    rw [hpl]
    rfl

theorem updateFirst_map {p : α → Bool} {f : α → α} {e : α → β} (hf : ∀ a, e (f a) = e a)
    (l : List α) : (updateFirst p f l).map e = l.map e := by
  induction l with
  | nil => rfl
  | cons a rest ih =>
    unfold updateFirst
    split <;> simp [hf, ih]

theorem filled_modifyInput {seg input : String} {f : InputBinding → InputBinding}
    (hf : ∀ a, (f a).declaration = a.declaration) (hb : b.Filled) :
    (b.modifyInput seg input f).Filled := by
  refine ⟨fun {s} hs hne => ?_, fun {k l} hk => ?_⟩
  · obtain ⟨l, hl, hdecl⟩ := hb.declared hs hne
    refine ⟨if seg = s.id then updateFirst (·.declaration.id = input) f l else l, ?_, ?_⟩
    · change (b.inputs.modify _ _)[s.id]? = _
      rw [Table.getElem?_modify, hl]
      split <;> rfl
    · split
      · rw [updateFirst_map hf, hdecl]
      · exact hdecl
  · change (b.inputs.modify _ _)[k]? = _ at hk
    rw [Table.getElem?_modify] at hk
    split at hk
    · obtain ⟨l, hl, _⟩ := Option.map_eq_some_iff.mp hk
      exact hb.segment_of hl
    · exact hb.segment_of hk

/-- An input may be bound and freed; it stays declared. -/
theorem Sound.changeInput (S : g.Sound ok) {seg input : String} {f : InputBinding → InputBinding}
    (hf : ∀ a, (f a).declaration = a.declaration) :
    ((changeInput id seg input f).run g).2.Sound ok := by
  unfold Graph.changeInput
  refine Edit.leaves_ask S fun i _ => ?_
  exact S.modifyBlock (fun _ => rfl) (fun _ _ => rfl) fun _ hb => filled_modifyInput hf hb

/-! ## Operations -/

theorem Sound.remove (S : g.Sound ok) (id : BlockId) : ((remove id).run g).2.Sound ok := by
  cases hb : g.blocks[id]? with
  | some b =>
    obtain ⟨h, hrun, hs, _⟩ := S.remove_run hb
    rw [hrun]
    exact hs
  | none =>
    unfold Graph.remove
    refine Edit.leaves_ask S fun b hb' => ?_
    rw [block_eq_ok.mp hb'] at hb
    cases hb

theorem exists_snaps_of_linkRejection (h : g.linkRejection n d = .ok r) :
    ∃ p q, g.snaps[n]? = some p ∧ g.snaps[d]? = some q := by
  unfold linkRejection snap at h
  cases hp : g.snaps[n]? with
  | none => simp [hp, bind, Except.bind] at h
  | some p =>
    cases hq : g.snaps[d]? with
    | none => simp [hp, hq, bind, Except.bind] at h
    | some q => exact ⟨p, q, rfl, rfl⟩

theorem Sound.connect (S : g.Sound ok) (n d : SnapId) : ((connect n d).run g).2.Sound ok := by
  unfold Graph.connect
  refine Edit.leaves_ask S fun r hr => ?_
  cases r with
  | some r => exact S
  | none =>
    refine Edit.leaves_ask S fun x _ => Edit.leaves_ask S fun y _ => ?_
    rw [Edit.run_bind_ok Edit.run_get]
    split
    · obtain ⟨p, q, hp, hq⟩ := exists_snaps_of_linkRejection hr
      obtain ⟨r, hr', hiff⟩ := S.linkRejection_eq hp hq
      cases hr.symm.trans hr'
      obtain ⟨c, h, hrun, hs, _⟩ := S.attach_run hp hq (hiff.mp rfl)
      rw [Edit.run_bind_ok hrun, Edit.run_pure]
      exact hs
    · exact S

theorem Sound.disconnect (S : g.Sound ok) (d : SnapId) : ((disconnect d).run g).2.Sound ok := by
  unfold Graph.disconnect
  refine Edit.leaves_ask S fun q hq => ?_
  have hq := snap_eq_ok.mp hq
  cases hprev : q.previous with
  | none => exact S
  | some n =>
    have hl : g.Linked n d := (S.linked_iff_previous hq).mpr hprev
    refine Edit.leaves_ask S fun up hup => Edit.leaves_ask S fun x _ =>
      Edit.leaves_ask S fun y _ => ?_
    rw [Edit.run_bind_ok Edit.run_get]
    split
    · refine Edit.leaves_ask S fun z _ => Edit.leaves_bind (S.moveBlock _ _) fun _ h hh => ?_
      exact hh
    · obtain ⟨p, _, hp, _⟩ := S.ends hl
      have hlow := owner_of_getElem? hq
      obtain ⟨z, hz⟩ := S.placed.exists_position (S.block_mem hq)
      obtain ⟨l, h, hrun, hs, _⟩ := S.cut_run hl hup hlow
      have hunlink := unlink_run (g := g.setPlacement q.block (.root z)) hp hq
      rw [S.cutAt_notch (fun _ _ => S.seated.anchor_iff) hl hlow hz] at hunlink
      rw [Edit.run_bind_ok (detachToRoot_run hz), Edit.run_bind_ok hunlink, Edit.run_bind_ok hrun,
        Edit.run_pure]
      exact hs

theorem Sound.dragMove (S : g.Sound ok) (id : BlockId) (pos : Point) :
    ((dragMove id pos).run g).2.Sound ok := by
  unfold Graph.dragMove
  rw [Edit.run_bind_ok Edit.run_get]
  split
  · exact S
  · rw [Edit.run_bind_ok (Edit.run_change _)]
    refine Edit.leaves_bind ((S.setDrag _).moveBlock _ _) fun _ h hh => ?_
    refine Edit.leaves_ask hh fun candidate _ => ?_
    rw [Edit.run_bind_ok (Edit.run_change _), Edit.run_pure]
    exact hh.setDrag _

theorem Sound.releaseAbove (S : g.Sound ok) (id : BlockId) :
    ((releaseAbove id).run g).2.Sound ok := by
  unfold Graph.releaseAbove
  refine Edit.leaves_ask S fun b _ => ?_
  split
  · exact S
  · refine Edit.leaves_ask S fun q _ => ?_
    split
    · exact Edit.leaves_bind (S.disconnect _) fun _ h hh => hh
    · exact S

theorem Sound.dragEnd (S : g.Sound ok) (id : BlockId) : ((dragEnd id).run g).2.Sound ok := by
  unfold Graph.dragEnd
  rw [Edit.run_bind_ok Edit.run_get]
  split
  · exact S
  · rw [Edit.run_bind_ok Edit.run_get, Edit.run_bind_ok (Edit.run_change _)]
    refine Edit.leaves_bind ((S.setDrag _).releaseAbove _) fun _ h hh => ?_
    split
    · exact hh
    · exact Edit.leaves_bind (hh.connect _ _) fun _ h hh => hh

theorem Sound.adjustHeight (S : g.Sound ok) (id : BlockId) :
    ((adjustHeight id).run g).2.Sound ok := by
  by_cases hid : id ∈ g.blocks
  · obtain ⟨r, h, hrun, hshape, B, ht, hs, _⟩ := S.toBase.adjustHeight_run hid
    rw [hrun]
    exact { B with
      tailed := fun hx => ht _ (S.tailed ((mem_blocks_of_view hshape).mp hx))
      stretched := fun x => hs x (S.stretched x) }
  · have hb : g.block id = .error (.blockNotFound id) := by
      unfold block
      cases hb : g.blocks[id]? with
      | none => rfl
      | some b => exact absurd (Table.mem_iff.mpr ⟨b, hb⟩) hid
    have hrefresh : (refreshHeight id).run g = (.error (.blockNotFound id), g) := by
      unfold refreshHeight
      exact Edit.run_bind_error (by rw [Edit.run_needBlock, hb]) _
    change ((refreshHeights id g.config.maxChainHops (some id)).run g).2.Sound ok
    cases g.config.maxChainHops with
    | zero => exact S
    | succ room =>
      rw [refreshHeights, Edit.run_bind_error hrefresh]
      exact S

theorem Sound.calculateDeepest (S : g.Sound ok) (id : BlockId) :
    ((calculateDeepest id).run g).2.Sound ok := by
  by_cases hid : id ∈ g.blocks
  · obtain ⟨tail, h, hrun, hshape, B, ht, hs⟩ := S.toBase.calculateDeepest_run hid
    rw [hrun]
    exact { B with
      tailed := fun hx => ht _ (.inl (S.tailed ((mem_blocks_of_view hshape).mp hx)))
      stretched := fun x => hs x (S.stretched x) }
  · unfold Graph.calculateDeepest
    refine Edit.leaves_ask S fun tail htail => absurd ?_ hid
    unfold chainTail primaryChain at htail
    cases hr : g.chainAfter id (g.config.maxChainHops - 1) id with
    | error e => simp [hr, bind, Except.bind] at htail
    | ok l =>
      unfold chainAfter primaryNext block at hr
      cases hb : g.blocks[id]? with
      | none => simp [hb, bind, Except.bind] at hr
      | some b => exact Table.mem_iff.mpr ⟨b, hb⟩

theorem apply_insertDefinition (id : BlockId) (d : Definition) (pos : Point) :
    (Operation.insertDefinition id d pos).apply g = g.withNew (.fresh id d pos) :=
  congrArg Prod.snd (Edit.run_bind_ok (insertDefinition_run id d pos g) fun _ => pure ())

/-- A block is made as the catalog defines it, if it does. -/
theorem apply_insert (g : Graph) (id : BlockId) (name : String) (pos : Point) :
    (Operation.insert id name pos).creates g = none ∧ (Operation.insert id name pos).apply g = g ∨
      ∃ d, (Operation.insert id name pos).creates g = some (id, d) ∧
        (Operation.insert id name pos).apply g = g.withNew (.fresh id d pos) := by
  cases hd : g.catalog[name]? with
  | none =>
    have hrun : (Graph.insert id name pos).run g = (.error (.unknownDefinition name), g) := by
      unfold Graph.insert
      rw [Edit.run_bind_ok Edit.run_get, hd, Edit.run_throw]
    refine .inl ⟨by rw [Operation.creates, hd, Option.map_none], ?_⟩
    exact congrArg Prod.snd (Edit.run_bind_error hrun fun _ => pure ())
  | some d =>
    have hrun : (Graph.insert id name pos).run g = (.ok id, g.withNew (.fresh id d pos)) := by
      unfold Graph.insert
      rw [Edit.run_bind_ok Edit.run_get, hd]
      exact insertDefinition_run id d pos g
    refine .inr ⟨d, by rw [Operation.creates, hd, Option.map_some], ?_⟩
    exact congrArg Prod.snd (Edit.run_bind_ok hrun fun _ => pure ())

/-- **Each operation keeps the invariant**, if blocks are made under fresh ids and of coherent
definitions. -/
theorem Sound.apply (S : g.Sound ok) (hcoherent : ∀ d, ok d → d.Coherent) (op : Operation)
    (hfresh : op.Fresh g) (hok : ∀ id d, op.creates g = some (id, d) → ok d) :
    (op.apply g).Sound ok := by
  cases op with
  | insert id name pos =>
    rcases apply_insert g id name pos with ⟨_, hsame⟩ | ⟨d, hc, hmade⟩
    · rw [hsame]
      exact S
    · rw [hmade]
      exact S.withFresh (hfresh id d hc) (hok id d hc) (hcoherent d (hok id d hc)) pos
  | insertDefinition id d pos =>
    rw [apply_insertDefinition]
    exact S.withFresh (hfresh id d rfl) (hok id d rfl) (hcoherent d (hok id d rfl)) pos
  | remove id => exact S.remove id
  | move id pos => exact S.moveBlock id pos
  | connect n d => exact Edit.leaves_bind (S.connect n d) fun _ _ hh => hh
  | disconnect d => exact Edit.leaves_bind (S.disconnect d) fun _ _ hh => hh
  | dragMove id pos => exact Edit.leaves_bind (S.dragMove id pos) fun _ _ hh => hh
  | dragEnd id => exact Edit.leaves_bind (S.dragEnd id) fun _ _ hh => hh
  | updateInput id seg input u =>
    exact Edit.leaves_bind (S.changeInput fun _ => rfl) fun _ _ hh => hh
  | resetInput id seg input =>
    exact Edit.leaves_bind (S.changeInput fun _ => rfl) fun _ _ hh => hh
  | adjustHeight id => exact Edit.leaves_bind (S.adjustHeight id) fun _ _ hh => hh
  | calculateDeepest id => exact Edit.leaves_bind (S.calculateDeepest id) fun _ _ hh => hh

theorem Sound.reaches (S : g.Sound ok) (hcoherent : ∀ d, ok d → d.Coherent)
    (hr : Reaches ok g h) : h.Sound ok := by
  induction hr with
  | refl => exact S
  | step op _ hfresh hok ih => exact ih.apply hcoherent op hfresh hok

section
variable (catalog : Catalog) (config : GraphConfig) (layout : Layout)

@[simp] theorem getElem?_blocks_empty (i : BlockId) :
    (empty catalog config layout).blocks[i]? = none := Std.ExtTreeMap.getElem?_empty

@[simp] theorem getElem?_snaps_empty (i : SnapId) :
    (empty catalog config layout).snaps[i]? = none := Std.ExtTreeMap.getElem?_empty

theorem sound_empty : (empty catalog config layout).Sound ok := by
  have hno {i : BlockId} {b : Block} {P : Prop}
      (hb : (empty catalog config layout).blocks[i]? = some b) : P := by
    simp at hb
  have hno' {i : SnapId} {p : SnapPoint} {P : Prop}
      (hp : (empty catalog config layout).snaps[i]? = some p) : P := by
    simp at hp
  have hmem {i : BlockId} {P : Prop} (hi : i ∈ (empty catalog config layout).blocks) : P :=
    (Table.mem_iff.mp hi).elim fun _ hb => hno hb
  exact {
    block_id := hno
    snap_of := hno'
    snap_at := fun hb => hno hb
    mem_notches := by simp; exact Std.ExtTreeSet.not_mem_empty
    mem_divots := by simp; exact Std.ExtTreeSet.not_mem_empty
    linked_iff := ⟨fun ⟨_, hp, _⟩ => hno' hp, fun ⟨_, hp, _⟩ => hno' hp⟩
    isNotch := fun hp => hno' hp
    isDivot := fun hp => hno' hp
    block_ne := fun hp => hno' hp
    coherent := fun hb => hno hb
    depth := hmem
    defined := fun hb => hno hb
    seated := ⟨fun hb => hno hb⟩
    kempt := ⟨fun hb => hno hb, fun hb => hno hb⟩
    filled := fun hb => hno hb
    tailed := hmem
    stretched := fun _ _ hb => hno hb }

end

end SnapBlocks.Graph

import SnapBlocks.Proofs.Seat

/-! What the operations do to the links. Each is a change of links, or a cut, followed by a refresh
of what depends on them: `attach` links two ends, `disconnect` cuts at a notch, and `remove`
releases the ends of a block one by one, which comes to dropping it with its links. -/

namespace SnapBlocks.Graph

/-- A notch agrees with the placements of the blocks that name it. -/
def SeatedAt (g : Graph) (n : SnapId) : Prop :=
  ∀ (id : BlockId) (b : Block), g.blocks[id]? = some b →
    (b.placement.anchor = some n ↔ ∃ d, b.primaryDivot = some d ∧ g.Linked n d)

variable {g h : Graph} {b : Block} {id low up : BlockId} {n d m i j : SnapId}
variable {p q : SnapPoint} {ids : List SnapId} {x : Point}

/-! ## Single steps -/

theorem unlink_run (hp : g.snaps[n]? = some p) (hq : g.snaps[d]? = some q) :
    (unlink n d).run g = (.ok (), (g.setNext n none).setPrevious d none) := by
  obtain ⟨q', hq'⟩ : ∃ q', (g.setNext n none).snaps[d]? = some q' := by
    rw [getElem?_snaps_setNext, hq]
    split <;> exact ⟨_, rfl⟩
  unfold unlink
  rw [Edit.run_bind_ok (by rw [Edit.run_needSnap, snap_of_getElem? hp]),
    Edit.run_bind_ok (Edit.run_change _),
    Edit.run_bind_ok (by rw [Edit.run_needSnap, snap_of_getElem? hq']), Edit.run_change]

theorem detachToRoot_run (hx : g.globalPosition id = .ok x) :
    (detachToRoot id).run g = (.ok (), g.setPlacement id (.root x)) := by
  unfold detachToRoot
  rw [Edit.run_bind_ok (by rw [Edit.run_ask, hx]), Edit.run_change]

/-- A snap point keeps its links when they are cut at others. -/
theorem Wired.freed_eq_self (H : g.Wired) (hp : g.snaps[j]? = some p) (hj : j ∉ ids)
    (hno : ∀ i ∈ ids, ¬ g.Linked i j ∧ ¬ g.Linked j i) : p.freed ids = p := by
  have hf {o : Option SnapId} (ho : ∀ i, o = some i → i ∉ ids) : o.filter (· ∉ ids) = o := by
    cases o with
    | none => rfl
    | some i => simp [ho i rfl]
  have hprev (m) (hm : p.previous = some m) : m ∉ ids := fun hi =>
    (hno m hi).1 ((H.linked_iff_previous hp).mpr hm)
  have hnext (e) (he : p.next = some e) : e ∉ ids := fun hi =>
    (hno e hi).2 ((linked_iff_next hp).mpr he)
  have hid : p.id ∉ ids := H.snap_id hp ▸ hj
  unfold SnapPoint.freed
  rw [if_neg hid, if_neg hid, hf hprev, hf hnext]

/-- Clearing both ends of a link cuts it at either. -/
theorem Wired.snaps_unlink (H : g.Wired) (hl : g.Linked n d) (hi : i = n ∨ i = d) (j : SnapId) :
    ((g.setNext n none).setPrevious d none).snaps[j]? = (g.cutAt [i]).snaps[j]? := by
  obtain ⟨p, q, hp, hq, hpn, hqp, _⟩ := H.ends hl
  have hnd : n ≠ d := by
    rintro rfl
    exact H.not_linked_of_linked hl hl
  have hpp : p.previous = none := Option.eq_none_iff_forall_ne_some.mpr fun m hm =>
    H.not_linked_of_linked ((H.linked_iff_previous hp).mpr hm) hl
  have hqn : q.next = none := Option.eq_none_iff_forall_ne_some.mpr fun e he =>
    H.not_linked_of_linked hl ((linked_iff_next hq).mpr he)
  have hpid := H.snap_id hp
  have hqid := H.snap_id hq
  rw [getElem?_snaps_setPrevious, getElem?_snaps_setNext, getElem?_snaps_cutAt]
  by_cases hjd : d = j
  · subst hjd
    rw [if_pos rfl, if_neg hnd, hq]
    simp only [Option.map_some, Option.some.injEq, SnapPoint.freed, hqid, hqp, hqn]
    rcases hi with rfl | rfl <;> simp [Ne.symm hnd, Option.filter]
  rw [if_neg hjd]
  by_cases hjn : n = j
  · subst hjn
    rw [if_pos rfl, hp]
    simp only [Option.map_some, Option.some.injEq, SnapPoint.freed, hpid, hpn, hpp]
    rcases hi with rfl | rfl <;> simp [hnd, Option.filter]
  rw [if_neg hjn]
  cases hr : g.snaps[j]? with
  | none => rfl
  | some r =>
    -- no third snap point shares a link with either end
    rw [Option.map_some, H.freed_eq_self hr]
    · rcases hi with rfl | rfl <;> simpa using Ne.symm ‹_›
    · intro m hm
      cases List.mem_singleton.mp hm
      rcases hi with rfl | rfl
      · exact ⟨fun h => hjd (hl.eq h), fun h => H.not_linked_of_linked h hl⟩
      · exact ⟨fun h => H.not_linked_of_linked hl h, fun h => hjn (H.notch_eq hl h)⟩

theorem putDown_singleton (hn : b.placement.anchor ≠ some n) : b.putDown g [n] = b := by
  refine putDown_of_notMem fun m hm => ?_
  rw [List.mem_singleton]
  rintro rfl
  exact hn hm

/-- To cut a link at its divot is to clear its ends. -/
theorem Wired.cutAt_divot (H : g.Wired) (hat : g.SeatedAt d) (hl : g.Linked n d) :
    (g.setNext n none).setPrevious d none = g.cutAt [d] := by
  refine ext rfl rfl rfl (fun i => ?_) (H.snaps_unlink hl (.inr rfl)) rfl rfl rfl
  rw [getElem?_blocks_cutAt]
  change g.blocks[i]? = _
  cases hb : g.blocks[i]? with
  | none => rfl
  | some b =>
    rw [Option.map_some, putDown_singleton]
    intro hanchor
    obtain ⟨e, _, he⟩ := (hat _ _ hb).mp hanchor
    exact H.not_linked_of_linked hl he

/-- To cut a link at its notch is to clear its ends, and to put down what hung there. -/
theorem Simple.cutAt_notch (H : g.Simple) (hat : g.SeatedAt n) (hl : g.Linked n d)
    (hd : g.owner d = .ok low) (hx : g.globalPosition low = .ok x) :
    ((g.setPlacement low (.root x)).setNext n none).setPrevious d none = g.cutAt [n] := by
  obtain ⟨_, q, _, hq, _, _, _, hqk, _⟩ := H.ends hl
  rw [owner_of_getElem? hq] at hd
  cases hd
  refine ext rfl rfl rfl (fun i => ?_) (H.snaps_unlink hl (.inl rfl)) rfl rfl rfl
  rw [getElem?_blocks_cutAt]
  change (g.setPlacement q.block (.root x)).blocks[i]? = _
  rw [getElem?_blocks_setPlacement]
  cases hb : g.blocks[i]? with
  | none => simp
  | some b =>
    have hid := H.block_id hb
    by_cases he : q.block = i
    · subst he
      have hanchor := (hat _ _ hb).mpr ⟨d, H.primaryDivot hq hqk hb, hl⟩
      rw [if_pos rfl, Option.map_some, Option.map_some,
        putDown_of_mem hanchor List.mem_cons_self (by rw [hid]; exact hx)]
    · rw [if_neg he, Option.map_some, putDown_singleton]
      intro hanchor
      obtain ⟨e, hpd, hle⟩ := (hat _ _ hb).mp hanchor
      cases hl.eq hle
      obtain ⟨q', hq', hblock, _⟩ := H.snap_of_primaryDivot hb hpd
      cases hq.symm.trans hq'
      exact he hblock

theorem Wired.cutAt_nil (H : g.Wired) : g.cutAt [] = g := by
  refine ext rfl rfl rfl (fun i => ?_) (fun i => ?_) rfl rfl rfl
  · rw [getElem?_blocks_cutAt]
    cases g.blocks[i]? with
    | none => rfl
    | some b => rw [Option.map_some, putDown_of_notMem (by simp)]
  · rw [getElem?_snaps_cutAt]
    cases hp : g.snaps[i]? with
    | none => rfl
    | some p => rw [Option.map_some, H.freed_eq_self hp (by simp) (by simp)]

/-- There is nothing to cut at a free snap point. -/
theorem Wired.cutAt_free (H : g.Wired) (hat : g.SeatedAt i) (hp : g.snaps[i]? = some p)
    (hprev : p.previous = none) (hnext : p.next = none) : g.cutAt [i] = g := by
  have habove (m) : ¬ g.Linked m i := by simp [H.linked_iff_previous hp, hprev]
  have hbelow (e) : ¬ g.Linked i e := by simp [linked_iff_next hp, hnext]
  refine ext rfl rfl rfl (fun k => ?_) (fun j => ?_) rfl rfl rfl
  · rw [getElem?_blocks_cutAt]
    cases hb : g.blocks[k]? with
    | none => rfl
    | some b =>
      rw [Option.map_some, putDown_singleton]
      intro hanchor
      obtain ⟨e, _, he⟩ := (hat _ _ hb).mp hanchor
      exact hbelow e he
  · rw [getElem?_snaps_cutAt]
    cases hr : g.snaps[j]? with
    | none => rfl
    | some r =>
      by_cases hj : j = i
      · subst hj
        cases hp.symm.trans hr
        obtain ⟨_, _, _, _, _, _, _, _⟩ := p
        simp_all [SnapPoint.freed]
      · rw [Option.map_some, H.freed_eq_self hr (by simpa using hj)]
        intro m hm
        cases List.mem_singleton.mp hm
        exact ⟨hbelow j, habove j⟩

/-! ## Releasing the ends of a block -/

/-- The block at the other end of a snap point. -/
def Across (g : Graph) (i : SnapId) (other : BlockId) : Prop :=
  (∃ n, g.Linked n i ∧ g.owner n = .ok other) ∨ ∃ d, g.Linked i d ∧ g.owner d = .ok other

theorem Wired.across_above (H : g.Wired) (hl : g.Linked n i) (hn : g.owner n = .ok up)
    (y : BlockId) : g.Across i y ↔ y = up := by
  constructor
  · rintro (⟨m, hm, hy⟩ | ⟨d, hd, _⟩)
    · cases H.notch_eq hl hm
      exact Except.ok.inj (hy.symm.trans hn)
    · exact absurd hd (H.not_linked_of_linked hl)
  · rintro rfl
    exact .inl ⟨n, hl, hn⟩

theorem Wired.across_below (H : g.Wired) (hl : g.Linked i d) (hd : g.owner d = .ok low)
    (y : BlockId) : g.Across i y ↔ y = low := by
  constructor
  · rintro (⟨m, hm, _⟩ | ⟨e, he, hy⟩)
    · exact absurd hl (H.not_linked_of_linked hm)
    · cases hl.eq he
      exact Except.ok.inj (hy.symm.trans hd)
  · rintro rfl
    exact .inr ⟨d, hl, hd⟩

/-- Releasing a snap point cuts there, and answers the block at the other end. -/
theorem Simple.release_run (H : g.Simple) (P : g.Placed) (hat : g.SeatedAt i)
    (hp : g.snaps[i]? = some p) :
    ∃ l, (release i).run g = (.ok l, g.cutAt [i]) ∧ ∀ y, y ∈ l ↔ g.Across i y := by
  have hneed : (Edit.needSnap i).run g = (.ok p, g) := by
    rw [Edit.run_needSnap, snap_of_getElem? hp]
  unfold release
  rw [Edit.run_bind_ok hneed]
  cases hprev : p.previous with
  | some n =>
    have hl : g.Linked n i := (H.linked_iff_previous hp).mpr hprev
    obtain ⟨r, _, hr, _⟩ := H.ends hl
    have hnext : p.next = none := Option.eq_none_iff_forall_ne_some.mpr fun e he =>
      H.not_linked_of_linked hl ((linked_iff_next hp).mpr he)
    refine ⟨[r.block], ?_, fun y => ?_⟩
    · have hunlink := unlink_run hr hp
      rw [H.cutAt_divot hat hl] at hunlink
      simp only [hnext, Edit.run_bind, Edit.run_ask, owner_of_getElem? hr, hunlink, Edit.run_pure,
        List.append_nil]
    · rw [List.mem_singleton, H.across_above hl (owner_of_getElem? hr)]
  | none =>
    cases hnext : p.next with
    | some d =>
      have hl : g.Linked i d := (linked_iff_next hp).mpr hnext
      obtain ⟨_, q, _, hq, _⟩ := H.ends hl
      obtain ⟨x, hx⟩ := P.exists_position (H.block_mem hq)
      refine ⟨[q.block], ?_, fun y => ?_⟩
      · have hunlink := unlink_run (g := g.setPlacement q.block (.root x)) hp hq
        rw [H.cutAt_notch hat hl (owner_of_getElem? hq) hx] at hunlink
        simp only [Edit.run_bind, Edit.run_ask, owner_of_getElem? hq, detachToRoot_run hx, hunlink,
          Edit.run_pure, List.nil_append]
      · rw [List.mem_singleton, H.across_below hl (owner_of_getElem? hq)]
    | none =>
      refine ⟨[], ?_, fun y => ?_⟩
      · rw [H.cutAt_free hat hp hprev hnext]
        simp only [Edit.run_bind, Edit.run_pure, List.append_nil]
      · simp [Across, H.linked_iff_previous hp, linked_iff_next hp, hprev, hnext]

section
variable (H : g.Simple) (P : g.Placed) (S : g.Seated) (hb : g.blocks[id]? = some b)
include H hb

/-- The links of a block lead to other blocks. -/
theorem Simple.across_notMem (hi : i ∈ b.snapPoints) (hl : g.Linked i j ∨ g.Linked j i) :
    j ∉ b.snapPoints := by
  rw [H.mem_snapPoints_iff hb] at hi ⊢
  intro hj
  rcases hl with hl | hl
  · exact H.owner_ne hl hi hj rfl
  · exact H.owner_ne hl hj hi rfl

/-- Cutting at some snap points of a block leaves its links at the others. -/
theorem Simple.linked_cutAt_self (hids : ∀ i ∈ ids, i ∈ b.snapPoints) (hi : i ∈ b.snapPoints)
    (hno : i ∉ ids) :
    ((g.cutAt ids).Linked i j ↔ g.Linked i j) ∧ ((g.cutAt ids).Linked j i ↔ g.Linked j i) := by
  rw [linked_cutAt H.toStocked, linked_cutAt H.toStocked]
  refine ⟨⟨fun h => h.2.2, fun hl => ⟨hno, fun hj => ?_, hl⟩⟩,
    ⟨fun h => h.2.2, fun hl => ⟨fun hj => ?_, hno, hl⟩⟩⟩
  · exact H.across_notMem hb hi (.inl hl) (hids j hj)
  · exact H.across_notMem hb hi (.inr hl) (hids j hj)

include P S

theorem Seated.seatedAt_cutAt (hids : ∀ i ∈ ids, i ∈ b.snapPoints) (hi : i ∈ b.snapPoints)
    (hno : i ∉ ids) : (g.cutAt ids).SeatedAt i := by
  intro k c hc
  rw [getElem?_blocks_cutAt] at hc
  obtain ⟨c₀, hc₀, rfl⟩ := Option.map_eq_some_iff.mp hc
  rw [P.anchor_putDown H.toStocked hc₀, S.anchor_iff hc₀]
  simp only [primaryDivot_putDown, (H.linked_cutAt_self hb hids hi hno).1, hno,
    not_false_eq_true, true_and]

/-- The ends of a block are released one after another. -/
theorem Seated.releaseAll_run (rest : List SnapId) (hids : ∀ i ∈ rest ++ ids, i ∈ b.snapPoints)
    (hn : (rest ++ ids).Nodup) :
    ∃ l, (releaseAll rest).run (g.cutAt ids) = (.ok l, g.cutAt (rest ++ ids)) ∧
      ∀ y, y ∈ l ↔ ∃ i ∈ rest, g.Across i y := by
  induction rest generalizing ids with
  | nil => exact ⟨[], rfl, by simp⟩
  | cons i rest ih =>
    have hi : i ∈ b.snapPoints := hids i List.mem_cons_self
    have hdone : ∀ j ∈ ids, j ∈ b.snapPoints := fun j hj =>
      hids j (List.mem_append_right _ hj)
    rw [List.cons_append, List.nodup_cons, List.mem_append, not_or] at hn
    obtain ⟨⟨hrest, hno⟩, hn⟩ := hn
    have hat := Seated.seatedAt_cutAt H P S hb hdone hi hno
    obtain ⟨p, hp, _⟩ := H.snap_of_mem hb hi
    obtain ⟨l, hrun, hl⟩ := (H.cutAt ids).release_run (P.cutAt H.toStocked ids) hat
      (p := p.freed ids) (by rw [getElem?_snaps_cutAt, hp, Option.map_some])
    rw [P.cutAt_cutAt H.toStocked] at hrun
    have hids' : ∀ j ∈ rest ++ i :: ids, j ∈ b.snapPoints := by
      intro j hj
      refine hids j ?_
      simp only [List.cons_append, List.mem_cons, List.mem_append] at hj ⊢
      tauto
    have hn' : (rest ++ i :: ids).Nodup := by
      refine List.nodup_middle.mpr (List.nodup_cons.mpr ⟨?_, hn⟩)
      rw [List.mem_append, not_or]
      exact ⟨hrest, hno⟩
    obtain ⟨l', hrun', hl'⟩ := ih hids' hn'
    refine ⟨l ++ l', ?_, fun y => ?_⟩
    · unfold releaseAll
      rw [Edit.run_bind_ok hrun, Edit.run_bind_ok hrun', Edit.run_pure]
      refine Prod.ext rfl (cutAt_congr fun j => ?_)
      simp only [List.cons_append, List.mem_cons, List.mem_append]
      tauto
    · have hacross : (g.cutAt ids).Across i y ↔ g.Across i y := by
        unfold Across
        simp only [H.linked_cutAt_self hb hdone hi hno, owner_congr_stock stock_cutAt]
      rw [List.mem_append, hl, hl', hacross]
      simp only [List.mem_cons, exists_eq_or_imp]

/-- **Removal.** The blocks around a block are refreshed in the graph without it. -/
theorem Seated.remove_run :
    ∃ l, (remove id).run g = (refreshAll l).run (g.without id b.snapPoints) ∧
      ∀ y, y ∈ l ↔ g.HangsFrom id y ∨ g.HangsFrom y id := by
  have hnodup : (b.snapPoints ++ []).Nodup := by simpa using b.snapPoints_nodup
  obtain ⟨l, hrun, hl⟩ := Seated.releaseAll_run H P S hb b.snapPoints (by simp) hnodup
  rw [H.cutAt_nil, List.append_nil] at hrun
  refine ⟨l, ?_, fun y => (hl y).trans ?_⟩
  · unfold remove
    rw [Edit.run_bind_ok (by rw [Edit.run_needBlock, block_of_getElem? hb]),
      Edit.run_bind_ok hrun, Edit.run_bind_ok (Edit.run_change _),
      Edit.run_bind_ok (Edit.run_change _)]
    rfl
  · simp only [H.hangsFrom_iff, H.mem_snapPoints_iff hb]
    constructor
    · rintro ⟨i, hi, ⟨n, hl, hn⟩ | ⟨d, hl, hd⟩⟩
      · exact .inl ⟨n, i, hl, hn, hi⟩
      · exact .inr ⟨i, d, hl, hi, hd⟩
    · rintro (⟨n, d, hl, hn, hd⟩ | ⟨n, d, hl, hn, hd⟩)
      · exact ⟨d, hd, .inl ⟨n, hl, hn⟩⟩
      · exact ⟨n, hn, .inr ⟨d, hl, hd⟩⟩

end

end SnapBlocks.Graph

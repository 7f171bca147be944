import SnapBlocks.Proofs.Walk

/-! What speaks against a link, and that a link against which nothing speaks joins two trees of
a forest to a forest. Cutting links and making or dropping blocks keep a forest as well. -/

namespace SnapBlocks.Graph

open Relation

/-- The ends of a link that may be made, apart from its depth: both are free ends of their kinds,
and the block of the divot does not stand above that of the notch. -/
structure Open (g : Graph) (p q : SnapPoint) : Prop where
  notch : p.kind.isNotch
  divot : q.kind = .primaryDivot
  notch_free : p.next = none
  divot_free : q.previous = none
  block_ne : p.block ≠ q.block
  not_under : ¬ g.Under p.block q.block

/-- Nothing speaks against a link of a notch and a divot: they are open to it, and no way down
through the link is too long. -/
structure Joinable (g : Graph) (p q : SnapPoint) : Prop extends g.Open p q where
  short {base low k} : g.DepthOf p.block base → g.Under low q.block → g.DepthOf low k →
    base + k ≤ g.config.maxChainHops

variable {g h : Graph} {b : Block} {id low up : BlockId} {n d : SnapId} {p q : SnapPoint}
variable {ids : List SnapId}

theorem SnapKind.isDivot_iff {k : SnapKind} : k.isDivot ↔ k = .primaryDivot := by
  cases k <;> simp [SnapKind.isDivot]

/-- A block with a free divot hangs from no notch. -/
theorem Simple.predecessor_of_free (H : g.Simple) (hq : g.snaps[d]? = some q)
    (hk : q.kind = .primaryDivot) (hfree : q.previous = none) :
    g.predecessor q.block = .ok none := by
  obtain ⟨b, hb⟩ := H.exists_block hq
  have hd := H.primaryDivot hq hk hb
  refine predecessor_eq_none.mpr ⟨b, hb, fun d' hd' => ?_⟩
  cases hd.symm.trans hd'
  exact ⟨q, hq, hfree⟩

/-- What comes of the check of a link: the first of the conditions that fails. -/
inductive Verdict (g : Graph) (p q : SnapPoint) : Option Rejection → Prop
  | notANotch : ¬ p.kind.isNotch → Verdict g p q (some .notANotch)
  | notADivot : p.kind.isNotch → ¬ q.kind.isDivot → Verdict g p q (some .notADivot)
  | alreadyLinked : p.kind.isNotch → q.kind.isDivot → ¬ (p.next = none ∧ q.previous = none) →
      Verdict g p q (some .alreadyLinked)
  | sameBlock : p.kind.isNotch → q.kind.isDivot → p.next = none → q.previous = none →
      p.block = q.block → Verdict g p q (some .sameBlock)
  | wouldCycle : p.kind.isNotch → q.kind.isDivot → p.next = none → q.previous = none →
      p.block ≠ q.block → g.Under p.block q.block → Verdict g p q (some .wouldCycle)
  | tooDeep {i j : Nat} : g.Open p q → g.depthAbove p.block = .ok i →
      g.depthBelow q.block = .ok j → g.config.maxChainHops < i + j →
      Verdict g p q (some (.tooDeep (i + j) g.config.maxChainHops))
  | none {i j : Nat} : g.Open p q → g.depthAbove p.block = .ok i →
      g.depthBelow q.block = .ok j → i + j ≤ g.config.maxChainHops → Verdict g p q none

/-- The check of a link goes through its conditions in order. -/
theorem Forest.linkRejection_verdict (H : g.Forest) (hp : g.snaps[n]? = some p)
    (hq : g.snaps[d]? = some q) : ∃ r, g.linkRejection n d = .ok r ∧ g.Verdict p q r := by
  unfold linkRejection
  simp only [snap_of_getElem? hp, snap_of_getElem? hq, bind, Except.bind, pure, Except.pure]
  by_cases hpk : p.kind.isNotch
  case neg => exact ⟨_, by simp [hpk], .notANotch hpk⟩
  by_cases hqk : q.kind.isDivot
  case neg => exact ⟨_, by simp [hpk, hqk], .notADivot hpk hqk⟩
  by_cases hfree : p.next = none ∧ q.previous = none
  case neg =>
    have hsome : (p.next.isSome || q.previous.isSome) = true := by
      cases hpn : p.next <;> cases hqp : q.previous <;> simp_all
    exact ⟨_, by simp [hpk, hqk, hsome], .alreadyLinked hpk hqk hfree⟩
  obtain ⟨hpn, hqp⟩ := hfree
  by_cases hne : p.block = q.block
  case pos => exact ⟨_, by simp [hpk, hqk, hpn, hqp, hne], .sameBlock hpk hqk hpn hqp hne⟩
  obtain ⟨i, hi, _⟩ := H.depth (H.block_mem hp)
  obtain ⟨r, hr, hiff⟩ := H.wouldCycle_eq hi.mem_blocks q.block
  by_cases hu : g.Under p.block q.block
  case pos =>
    refine ⟨_, ?_, .wouldCycle hpk hqk hpn hqp hne hu⟩
    simp [hpk, hqk, hpn, hqp, hne, hr, hiff.mpr hu]
  have O : g.Open p q := ⟨hpk, SnapKind.isDivot_iff.mp hqk, hpn, hqp, hne, hu⟩
  have hr' : r = false := by simpa using fun he => hu (hiff.mp he)
  obtain ⟨j, hj, _⟩ := H.depthBelow_eq (.root (H.predecessor_of_free hq O.divot hqp))
  by_cases hdeep : g.config.maxChainHops < i + j
  case pos =>
    refine ⟨_, ?_, .tooDeep O (depthAbove_eq hi) hj hdeep⟩
    simp [hpk, hqk, hpn, hqp, hne, hr, hr', depthAbove_eq hi, hj, hdeep]
  refine ⟨_, ?_, .none O (depthAbove_eq hi) hj (Nat.le_of_not_lt hdeep)⟩
  simp [hpk, hqk, hpn, hqp, hne, hr, hr', depthAbove_eq hi, hj, hdeep]

/-- A link of open ends is rejected only if a way down through it would be too long. -/
theorem Forest.linkRejection_open (H : g.Forest) (hp : g.snaps[n]? = some p)
    (hq : g.snaps[d]? = some q) (O : g.Open p q) :
    ∃ i j, g.depthAbove p.block = .ok i ∧ g.depthBelow q.block = .ok j ∧
      g.linkRejection n d = .ok (if g.config.maxChainHops < i + j then
        some (.tooDeep (i + j) g.config.maxChainHops) else none) := by
  obtain ⟨r, hr, hv⟩ := H.linkRejection_verdict hp hq
  have hqk := SnapKind.isDivot_iff.mpr O.divot
  cases hv with
  | notANotch hpk => exact absurd O.notch hpk
  | notADivot _ hno => exact absurd hqk hno
  | alreadyLinked _ _ hno => exact absurd ⟨O.notch_free, O.divot_free⟩ hno
  | sameBlock _ _ _ _ he => exact absurd he O.block_ne
  | wouldCycle _ _ _ _ _ hu => exact absurd hu O.not_under
  | tooDeep _ hi hj hdeep => exact ⟨_, _, hi, hj, by rw [hr, if_pos hdeep]⟩
  | none _ hi hj hshort => exact ⟨_, _, hi, hj, by rw [hr, if_neg (Nat.not_lt_of_le hshort)]⟩

/-- Of open ends, no way down through a link is too long if the deepest one is not. -/
theorem Forest.joinable_iff (H : g.Forest) (hp : g.snaps[n]? = some p) (hq : g.snaps[d]? = some q)
    (O : g.Open p q) {i j : Nat} (hi : g.depthAbove p.block = .ok i)
    (hj : g.depthBelow q.block = .ok j) :
    g.Joinable p q ↔ i + j ≤ g.config.maxChainHops := by
  obtain ⟨i', hi', _⟩ := H.depth (H.block_mem hp)
  cases hi.symm.trans (depthAbove_eq hi')
  have hroot := DepthOf.root (H.predecessor_of_free hq O.divot O.divot_free)
  obtain ⟨j', hj', hle, low, k, hlowu, hlow, hjk⟩ := H.depthBelow_eq hroot
  cases hj.symm.trans hj'
  constructor
  · intro J
    have := J.short hi' hlowu hlow
    omega
  · intro hshort
    refine { O with short := fun {base low k} hbase hu hk => ?_ }
    cases hbase.unique hi'
    have hpos := hk.pos
    have := hle low (k - 1) hu (by rw [show 1 + (k - 1) = k by omega]; exact hk)
    omega

/-- A link is rejected unless nothing speaks against it. -/
theorem Forest.linkRejection_eq (H : g.Forest) (hp : g.snaps[n]? = some p)
    (hq : g.snaps[d]? = some q) :
    ∃ r, g.linkRejection n d = .ok r ∧ (r = none ↔ g.Joinable p q) := by
  obtain ⟨r, hr, hv⟩ := H.linkRejection_verdict hp hq
  refine ⟨r, hr, ?_⟩
  cases hv with
  | notANotch hpk => exact iff_of_false nofun fun J => hpk J.notch
  | notADivot _ hno => exact iff_of_false nofun fun J => hno (SnapKind.isDivot_iff.mpr J.divot)
  | alreadyLinked _ _ hno => exact iff_of_false nofun fun J => hno ⟨J.notch_free, J.divot_free⟩
  | sameBlock _ _ _ _ he => exact iff_of_false nofun fun J => J.block_ne he
  | wouldCycle _ _ _ _ _ hu => exact iff_of_false nofun fun J => J.not_under hu
  | tooDeep O hi hj hdeep =>
    exact iff_of_false nofun fun J =>
      Nat.not_le_of_lt hdeep ((H.joinable_iff hp hq O hi hj).mp J)
  | none O hi hj hshort => exact iff_of_true rfl ((H.joinable_iff hp hq O hi hj).mpr hshort)

/-! ## Linking -/

section
variable (H : g.Forest) (hp : g.snaps[n]? = some p) (hq : g.snaps[d]? = some q)
  (O : g.Open p q)
include H hp hq O

theorem Open.simple_link : (g.link n d).Simple :=
  H.of_stock (H.toWired.link hp hq O.notch O.divot O.notch_free O.divot_free O.block_ne)
    stock_link.symm

omit H in
theorem Open.ends_ne : n ≠ d := fun he => by
  subst he
  cases hp.symm.trans hq
  exact O.block_ne rfl

theorem Open.hangsFrom_link :
    (g.link n d).HangsFrom low up ↔ g.HangsFrom low up ∨ (low = q.block ∧ up = p.block) := by
  rw [(O.simple_link H hp hq).hangsFrom_iff, H.hangsFrom_iff]
  simp only [owner_congr_stock stock_link, linked_link hp hq (O.ends_ne hp hq)]
  constructor
  · rintro ⟨m, e, (⟨rfl, rfl⟩ | ⟨_, hl⟩), hm, he⟩
    · rw [owner_of_getElem? hp] at hm
      rw [owner_of_getElem? hq] at he
      exact .inr ⟨(Except.ok.inj he).symm, (Except.ok.inj hm).symm⟩
    · exact .inl ⟨m, e, hl, hm, he⟩
  · rintro (⟨m, e, hl, hm, he⟩ | ⟨rfl, rfl⟩)
    · refine ⟨m, e, .inr ⟨fun hmn => ?_, hl⟩, hm, he⟩
      rw [hmn, linked_iff_next hp, O.notch_free] at hl
      cases hl
    · exact ⟨n, d, .inl ⟨rfl, rfl⟩, owner_of_getElem? hp, owner_of_getElem? hq⟩

theorem Open.under_link (hu : g.Under low up) : (g.link n d).Under low up :=
  hu.mono fun hh => (O.hangsFrom_link H hp hq).mpr (.inl hh)

/-- What does not stand below the link keeps its depth. -/
theorem Open.depth_above (hk : g.DepthOf id k) (hno : ¬ g.Under id q.block) :
    (g.link n d).DepthOf id k := by
  have hS := O.simple_link H hp hq
  induction hk with
  | @root id hr =>
    refine .root (hS.predecessor_eq_none_iff.mpr ⟨?_, fun up hh => ?_⟩)
    · exact (mem_blocks_of_view stock_link).mpr (DepthOf.root hr).mem_blocks
    · rcases (O.hangsFrom_link H hp hq).mp hh with hh | ⟨rfl, _⟩
      · exact (H.predecessor_eq_none_iff.mp hr).2 up hh
      · exact hno .refl
  | hang hh _ ih =>
    exact .hang ((O.hangsFrom_link H hp hq).mpr (.inl hh)) (ih fun hu => hno (.head hh hu))

/-- What stands below the link gets deeper by the depth of the notch. -/
theorem Open.depth_below (hbase : g.DepthOf p.block base) (hk : g.DepthOf id k)
    (hu : g.Under id q.block) : (g.link n d).DepthOf id (base + k) := by
  have hroot := H.predecessor_of_free hq O.divot O.divot_free
  have hlink := (O.hangsFrom_link H hp hq).mpr (.inr ⟨rfl, rfl⟩)
  induction hk with
  | root hr =>
    cases (under_iff_of_root hr).mp hu
    exact .hang hlink (O.depth_above H hp hq hbase O.not_under)
  | hang hh _ ih =>
    rcases hh.under_iff.mp hu with rfl | hu
    · exact absurd hroot hh.predecessor_ne
    · exact .hang ((O.hangsFrom_link H hp hq).mpr (.inl hh)) (ih hu)

end

/-- **Joining.** A link against which nothing speaks joins two trees of a forest. -/
theorem Forest.link (H : g.Forest) (hp : g.snaps[n]? = some p) (hq : g.snaps[d]? = some q)
    (J : g.Joinable p q) : (g.link n d).Forest where
  toSimple := J.simple_link H hp hq
  depth {id} hid := by
    obtain ⟨k, hk, hle⟩ := H.depth ((mem_blocks_of_view stock_link).mp hid)
    by_cases hu : g.Under id q.block
    · obtain ⟨base, hbase, _⟩ := H.depth (H.block_mem hp)
      have hshort := J.short hbase hu hk
      exact ⟨base + k, J.depth_below H hp hq hbase hk hu, Nat.le_trans hshort (Nat.le_max_right ..)⟩
    · exact ⟨k, J.depth_above H hp hq hk hu, hle⟩

/-! ## Cutting, dropping, making -/

theorem Simple.exists_depth (Hh : h.Simple)
    (hsub : ∀ {low up}, h.HangsFrom low up → g.HangsFrom low up) (hk : g.DepthOf id k)
    (hid : id ∈ h.blocks) : ∃ j, h.DepthOf id j ∧ j ≤ k := by
  induction hk with
  | root hr =>
    rcases Hh.predecessor_total hid with hr' | ⟨up, hh⟩
    · exact ⟨1, .root hr', Nat.le_refl 1⟩
    · exact absurd hr (hsub hh).predecessor_ne
  | hang hh _ ih =>
    rcases Hh.predecessor_total hid with hr' | ⟨up, hh'⟩
    · exact ⟨1, .root hr', by omega⟩
    · cases hh.eq (hsub hh')
      obtain ⟨j, hj, hle⟩ := ih (Hh.hangsFrom_mem hh')
      exact ⟨j + 1, .hang hh' hj, by omega⟩

/-- A forest without some of its links is a forest. -/
theorem Forest.prune (H : g.Forest) (Hh : h.Simple) (hconfig : h.config = g.config)
    (hmem : ∀ {id}, id ∈ h.blocks → id ∈ g.blocks)
    (hsub : ∀ {low up}, h.HangsFrom low up → g.HangsFrom low up) : h.Forest where
  toSimple := Hh
  depth {id} hid := by
    obtain ⟨k, hk, hle⟩ := H.depth (hmem hid)
    obtain ⟨j, hj, hjk⟩ := Hh.exists_depth hsub hk hid
    exact ⟨j, hj, by rw [hconfig]; omega⟩

theorem Simple.cutAt (H : g.Simple) (ids : List SnapId) : (g.cutAt ids).Simple :=
  H.of_stock (H.toWired.cutAt ids) stock_cutAt.symm

theorem Simple.hangsFrom_cutAt (H : g.Simple) :
    (g.cutAt ids).HangsFrom low up ↔
      ∃ n d, n ∉ ids ∧ d ∉ ids ∧ g.Linked n d ∧ g.owner n = .ok up ∧ g.owner d = .ok low := by
  rw [(H.cutAt ids).hangsFrom_iff]
  simp only [owner_congr_stock stock_cutAt, linked_cutAt H.toStocked, and_assoc]

theorem Forest.cutAt (H : g.Forest) (ids : List SnapId) : (g.cutAt ids).Forest := by
  refine H.prune (H.toSimple.cutAt ids) rfl (fun hid => (mem_blocks_of_view stock_cutAt).mp hid) ?_
  intro low up hh
  obtain ⟨n, d, _, _, hrest⟩ := H.hangsFrom_cutAt.mp hh
  exact H.hangsFrom_iff.mpr ⟨n, d, hrest⟩

theorem Simple.without (H : g.Simple) (hb : g.blocks[id]? = some b) :
    (g.without id b.snapPoints).Simple where
  toWired := H.toWired.without hb
  coherent {i c} hc := by
    rw [getElem?_blocks_without] at hc
    split at hc
    · cases hc
    · obtain ⟨c₀, hc₀, rfl⟩ := Option.map_eq_some_iff.mp hc
      rw [(Block.eq_of_stem (stem_putDown c₀)).2]
      exact H.coherent hc₀

theorem owner_without {i : SnapId} :
    (g.without id ids).owner i = .ok up ↔ i ∉ ids ∧ g.owner i = .ok up := by
  rw [owner_eq_ok, owner_eq_ok, getElem?_snaps_without]
  by_cases hi : i ∈ ids <;> simp [hi, SnapPoint.freed]

/-- Without a block hang the blocks that hung before, but for those that hung from it. -/
theorem Simple.hangsFrom_without (H : g.Simple) (hb : g.blocks[id]? = some b) :
    (g.without id b.snapPoints).HangsFrom low up ↔ low ≠ id ∧ up ≠ id ∧ g.HangsFrom low up := by
  rw [(H.without hb).hangsFrom_iff, H.hangsFrom_iff]
  simp only [owner_without, linked_without H.toStocked]
  have howned {i : SnapId} {x : BlockId} (hi : g.owner i = .ok x) :
      i ∉ b.snapPoints ↔ x ≠ id := by
    rw [H.mem_snapPoints_iff hb, hi, Except.ok.injEq]
  constructor
  · rintro ⟨n, d, ⟨hn, hd, hl⟩, ⟨_, hno⟩, _, hdo⟩
    exact ⟨(howned hdo).mp hd, (howned hno).mp hn, n, d, hl, hno, hdo⟩
  · rintro ⟨hlow, hup, n, d, hl, hno, hdo⟩
    have hn := (howned hno).mpr hup
    have hd := (howned hdo).mpr hlow
    exact ⟨n, d, ⟨hn, hd, hl⟩, ⟨hn, hno⟩, hd, hdo⟩

theorem mem_blocks_without {i : BlockId} :
    i ∈ (g.without id ids).blocks ↔ i ≠ id ∧ i ∈ g.blocks := by
  rw [Table.mem_iff, Table.mem_iff, getElem?_blocks_without]
  by_cases hi : id = i
  · simp [hi]
  · simp [hi, Ne.symm hi]

theorem Forest.without (H : g.Forest) (hb : g.blocks[id]? = some b) :
    (g.without id b.snapPoints).Forest :=
  H.prune (H.toSimple.without hb) rfl (fun hid => (mem_blocks_without.mp hid).2)
    fun hh => ((H.hangsFrom_without hb).mp hh).2.2

theorem Simple.addBlock (H : g.Simple) (hb : g.blocks[b.id]? = none)
    (hc : b.definition.Coherent) : (g.addBlock b).Simple where
  toWired := H.toWired.addBlock hb
  coherent {i c} hi := by
    rw [getElem?_blocks_addBlock] at hi
    split at hi
    · cases hi; exact hc
    · exact H.coherent hi

theorem Simple.hangsFrom_addBlock (H : g.Simple) (hb : g.blocks[b.id]? = none)
    (hc : b.definition.Coherent) : (g.addBlock b).HangsFrom low up ↔ g.HangsFrom low up := by
  rw [(H.addBlock hb hc).hangsFrom_iff, H.hangsFrom_iff]
  have hold {i : SnapId} {p : SnapPoint} (hp : g.snaps[i]? = some p) :
      (g.addBlock b).owner i = g.owner i := by
    rw [owner_of_getElem? hp, owner_of_getElem? ((H.snaps_addBlock hb).mpr (.inl hp))]
  refine exists_congr fun n => exists_congr fun d => ?_
  rw [H.linked_addBlock hb]
  refine and_congr_right fun hl => ?_
  obtain ⟨p, q, hp, hq, _⟩ := H.ends hl
  rw [hold hp, hold hq]

theorem mem_blocks_addBlock {i : BlockId} :
    i ∈ (g.addBlock b).blocks ↔ b.id = i ∨ i ∈ g.blocks := by
  rw [Table.mem_iff, Table.mem_iff, getElem?_blocks_addBlock]
  by_cases hi : b.id = i <;> simp [hi]

theorem Forest.addBlock (H : g.Forest) (hb : g.blocks[b.id]? = none)
    (hc : b.definition.Coherent) : (g.addBlock b).Forest where
  toSimple := H.toSimple.addBlock hb hc
  depth {id} hid := by
    have hS := H.toSimple.addBlock hb hc
    rcases mem_blocks_addBlock.mp hid with rfl | hold
    · refine ⟨1, .root (hS.predecessor_eq_none_iff.mpr ⟨hid, fun up hh => ?_⟩), Nat.le_max_left ..⟩
      obtain ⟨c, hc⟩ := Table.mem_iff.mp ((H.hangsFrom_addBlock hb hc).mp hh).mem_blocks
      rw [hb] at hc
      cases hc
    · obtain ⟨k, hk, hle⟩ := H.depth hold
      obtain ⟨j, hj, hjk⟩ := hS.exists_depth (fun hh => (H.hangsFrom_addBlock hb hc).mp hh) hk hid
      exact ⟨j, hj, by rw [config_addBlock]; omega⟩

end SnapBlocks.Graph

import SnapBlocks.Proofs.Depth

/-! The walks of the editor, in a forest: each ends within its bound, and answers what it is
asked for. -/

namespace SnapBlocks.Graph

open Relation

variable {g h : Graph} {b : Block} {id low up start target : BlockId} {n d : SnapId}
variable {p q : SnapPoint} {room j k : Nat} {visited waiting cs rest : List BlockId}

/-! ## Walks up -/

theorem meetsAbove_eq (hk : g.DepthOf id k) (hr : k ≤ room) :
    ∃ r, g.meetsAbove start target room (some id) = .ok r ∧ (r = true ↔ g.Under id target) := by
  induction hk generalizing room with
  | @root id hp =>
    obtain ⟨room, rfl⟩ : ∃ r, room = r + 1 := ⟨room - 1, by omega⟩
    rw [under_iff_of_root hp]
    unfold meetsAbove
    split
    next he => exact ⟨true, rfl, by simp [he]⟩
    next hne =>
      rw [hp]
      exact ⟨false, by cases room <;> rfl, by simp [hne]⟩
  | @hang id up k hh hk ih =>
    obtain ⟨room, rfl⟩ : ∃ r, room = r + 1 := ⟨room - 1, by omega⟩
    rw [hh.under_iff]
    unfold meetsAbove
    split
    next he => exact ⟨true, rfl, by simp [he]⟩
    next hne =>
      have hroom : k ≤ room := by omega
      obtain ⟨r, hr, hiff⟩ := ih hroom
      rw [hh.predecessor_eq]
      exact ⟨r, hr, by simp [hne, hiff]⟩

/-- The check for loops asks whether one block stands above the other, or is it. -/
theorem Forest.wouldCycle_eq (H : g.Forest) (hid : id ∈ g.blocks) (target : BlockId) :
    ∃ r, g.wouldCycle id target = .ok r ∧ (r = true ↔ g.Under id target) := by
  obtain ⟨k, hk, _⟩ := H.depth hid
  exact meetsAbove_eq hk hk.le_size

theorem Forest.wouldCycle_eq_false (H : g.Forest) (hid : id ∈ g.blocks) (target : BlockId) :
    g.wouldCycle id target = .ok false ↔ ¬ g.Under id target := by
  obtain ⟨r, hr, hiff⟩ := H.wouldCycle_eq hid target
  rw [hr, ← hiff, Except.ok.injEq, Bool.not_eq_true]

theorem countAbove_eq (hk : g.DepthOf id k) (hr : k ≤ room) :
    g.countAbove start room (some id) = .ok k := by
  induction hk generalizing room with
  | root hp =>
    obtain ⟨room, rfl⟩ : ∃ r, room = r + 1 := ⟨room - 1, by omega⟩
    unfold countAbove
    rw [hp]
    cases room <;> rfl
  | hang hh hk ih =>
    obtain ⟨room, rfl⟩ : ∃ r, room = r + 1 := ⟨room - 1, by omega⟩
    unfold countAbove
    rw [hh.predecessor_eq]
    simp only [bind, Except.bind]
    rw [ih (by omega)]
    rfl

theorem depthAbove_eq (hk : g.DepthOf id k) : g.depthAbove id = .ok k := by
  have hsize := hk.le_size
  unfold depthAbove
  cases hk with
  | root hp =>
    rw [hp]
    cases g.size - 1 <;> rfl
  | hang hh hk =>
    rw [hh.predecessor_eq]
    simp only [bind, Except.bind]
    rw [countAbove_eq hk (by omega)]
    rfl

/-! ## Walks down -/

/-- Two links to one block are one link. -/
theorem Simple.linked_eq (H : g.Simple) (hl : g.Linked n d) (hl' : g.Linked m e)
    (hd : g.owner d = .ok low) (he : g.owner e = .ok low) : n = m ∧ d = e := by
  obtain ⟨_, q, _, hq, _, hqn, _, hqk, _⟩ := H.ends hl
  obtain ⟨_, q', _, hq', _, hqm, _, hqk', _⟩ := H.ends hl'
  obtain ⟨_, hq₁, rfl⟩ := owner_eq_ok.mp hd
  obtain ⟨_, hq₂, hb⟩ := owner_eq_ok.mp he
  cases hq.symm.trans hq₁
  cases hq'.symm.trans hq₂
  obtain ⟨b, hblock⟩ := H.exists_block hq
  have hde : d = e := Option.some.inj <|
    (H.primaryDivot hq hqk hblock).symm.trans (H.primaryDivot hq' hqk' (hb ▸ hblock))
  subst hde
  cases hq.symm.trans hq'
  exact ⟨Option.some.inj (hqn.symm.trans hqm), rfl⟩

theorem Simple.childrenOf_eq (H : g.Simple) {ids : List SnapId} (hn : ids.Nodup)
    (hids : ∀ n ∈ ids, ∃ p, g.snaps[n]? = some p) :
    ∃ cs, g.childrenOf ids = .ok cs ∧ cs.Nodup ∧
      ∀ c, c ∈ cs ↔ ∃ n ∈ ids, ∃ d, g.Linked n d ∧ g.owner d = .ok c := by
  induction ids with
  | nil => exact ⟨[], rfl, List.nodup_nil, by simp⟩
  | cons n rest ih =>
    obtain ⟨hnot, hrest⟩ := List.nodup_cons.mp hn
    obtain ⟨cs, hcs, hnodup, hmem⟩ := ih hrest fun m hm => hids m (.tail _ hm)
    obtain ⟨p, hp⟩ := hids n List.mem_cons_self
    cases hnext : p.next with
    | none =>
      refine ⟨cs, ?_, hnodup, fun c => (hmem c).trans ?_⟩
      · unfold childrenOf
        simp [snap_of_getElem? hp, hcs, hnext, owner?, bind, Except.bind, pure, Except.pure]
      · have hfree (d) : ¬ g.Linked n d := by
          simp [linked_iff_next hp, hnext]
        simp [hfree]
    | some d =>
      have hl : g.Linked n d := ⟨p, hp, hnext⟩
      obtain ⟨_, q, hp', hq, _, _, hk, _⟩ := H.ends hl
      cases hp.symm.trans hp'
      have hd := owner_of_getElem? hq
      refine ⟨q.block :: cs, ?_, List.nodup_cons.mpr ⟨fun hm => ?_, hnodup⟩, fun c => ?_⟩
      · unfold childrenOf
        simp [snap_of_getElem? hp, hcs, hnext, hk, owner?, hd, bind, Except.bind, pure, Except.pure]
      · obtain ⟨m, hm, e, hl', he⟩ := (hmem _).mp hm
        exact hnot ((H.linked_eq hl hl' hd he).1 ▸ hm)
      · rw [List.mem_cons, hmem]
        constructor
        · rintro (rfl | ⟨m, hm, hrest⟩)
          · exact ⟨n, List.mem_cons_self, d, hl, hd⟩
          · exact ⟨m, .tail _ hm, hrest⟩
        · rintro ⟨m, hm, e, hl', he⟩
          rcases List.mem_cons.mp hm with rfl | hm
          · cases hl.eq hl'
            rw [hd] at he
            exact .inl (Except.ok.inj he).symm
          · exact .inr ⟨m, hm, e, hl', he⟩

/-- The children of a block are the blocks that hang from it. -/
theorem Simple.children_eq (H : g.Simple) (hb : g.blocks[id]? = some b) :
    ∃ cs, g.childrenOf b.snapPoints = .ok cs ∧ cs.Nodup ∧ ∀ c, c ∈ cs ↔ g.HangsFrom c id := by
  obtain ⟨cs, hcs, hnodup, hmem⟩ := H.childrenOf_eq b.snapPoints_nodup fun n hn =>
    (H.snap_of_mem hb hn).imp fun _ h => h.1
  refine ⟨cs, hcs, hnodup, fun c => (hmem c).trans ?_⟩
  simp only [H.hangsFrom_iff, H.mem_snapPoints_iff hb]
  constructor
  · rintro ⟨n, hn, d, hl, hd⟩
    exact ⟨n, d, hl, hn, hd⟩
  · rintro ⟨n, d, hl, hn, hd⟩
    exact ⟨n, hn, d, hl, hd⟩

/-- A search below a block, by the blocks that it visited and those that wait: it meets no block
twice, since it meets each from the one that it hangs from. -/
structure Searching (g : Graph) (start : BlockId) (visited waiting : List BlockId) : Prop where
  nodup : (visited ++ waiting).Nodup
  mem_blocks {x : BlockId} : x ∈ visited ++ waiting → x ∈ g.blocks
  under {x : BlockId} : x ∈ visited ++ waiting → g.Under x start
  up {x : BlockId} : x ∈ visited ++ waiting → x ≠ start → ∃ y ∈ visited, g.HangsFrom x y

theorem Searching.init (hid : id ∈ g.blocks) : g.Searching id [] [id] where
  nodup := List.nodup_singleton id
  mem_blocks hx := by cases List.mem_singleton.mp hx; exact hid
  under hx := by cases List.mem_singleton.mp hx; exact .refl
  up hx hne := absurd (List.mem_singleton.mp hx) hne

/-- The blocks that a search met are no more than there are. -/
theorem Searching.length_lt (S : g.Searching start visited (id :: rest)) :
    visited.length < g.size := by
  have hle := Table.length_le_size S.nodup fun _ hx => S.mem_blocks hx
  simp only [List.length_append, List.length_cons] at hle
  unfold size
  omega

/-- A search goes on from a block to those that hang from it. -/
theorem Searching.step (H : g.Forest) (S : g.Searching start visited (id :: rest))
    (hcs : cs.Nodup) (hmem : ∀ c, c ∈ cs ↔ g.HangsFrom c id) (hp : waiting.Perm (cs ++ rest)) :
    g.Searching start (id :: visited) waiting := by
  have hold : (visited ++ id :: rest).Perm (id :: visited ++ rest) := List.perm_middle
  have hall : (id :: visited ++ waiting).Perm (cs ++ (id :: visited ++ rest)) :=
    (hp.append_left _).trans (List.perm_append_comm_assoc _ _ _)
  have hid : g.Under id start := S.under (by simp)
  have hn := hold.nodup_iff.mp S.nodup
  -- a block that was met before was met from the block that it hangs from, which is not `id`
  have hnew {c} (hc : c ∈ cs) : c ∉ id :: visited ++ rest := by
    intro hm
    have hh := (hmem c).mp hc
    have hne : c ≠ start := fun he => by
      subst he
      exact H.not_under_of_hangsFrom hh hid
    obtain ⟨y, hy, hhy⟩ := S.up (hold.mem_iff.mpr hm) hne
    cases hh.eq hhy
    exact (List.nodup_cons.mp hn).1 (List.mem_append_left _ hy)
  have hcases {x} (hx : x ∈ id :: visited ++ waiting) :
      g.HangsFrom x id ∨ x ∈ visited ++ id :: rest :=
    (List.mem_append.mp (hall.mem_iff.mp hx)).imp (hmem x).mp hold.mem_iff.mpr
  refine ⟨?_, fun hx => ?_, fun hx => ?_, fun hx hne => ?_⟩
  · rw [hall.nodup_iff, List.nodup_append]
    exact ⟨hcs, hn, fun a ha c hc he => hnew ha (he ▸ hc)⟩
  · exact (hcases hx).elim HangsFrom.mem_blocks S.mem_blocks
  · exact (hcases hx).elim (.head · hid) S.under
  · rcases hcases hx with hh | hx
    · exact ⟨id, List.mem_cons_self, hh⟩
    · obtain ⟨y, hy, hh⟩ := S.up hx hne
      exact ⟨y, .tail _ hy, hh⟩

/-- The search below a block visits no block twice, so the number of blocks bounds it. -/
theorem Forest.deepestFrom_total (H : g.Forest) {stack : List (BlockId × Nat)}
    (S : g.Searching start visited (stack.map (·.1))) (hroom : visited.length + room = g.size)
    (deepest : Nat) : ∃ k, g.deepestFrom start room stack deepest = .ok k := by
  induction room generalizing visited stack deepest with
  | zero =>
    cases stack with
    | nil => exact ⟨deepest, rfl⟩
    | cons x rest =>
      have := S.length_lt
      omega
  | succ room ih =>
    cases stack with
    | nil => exact ⟨deepest, rfl⟩
    | cons x rest =>
      obtain ⟨id, depth⟩ := x
      obtain ⟨b, hb⟩ := Table.mem_iff.mp (S.mem_blocks (x := id) (by simp))
      obtain ⟨cs, hcs, hcn, hmem⟩ := H.children_eq hb
      unfold deepestFrom
      simp only [block_of_getElem? hb, hcs, bind, Except.bind]
      refine ih (S.step H hcn hmem ?_) (by simp only [List.length_cons]; omega) _
      simp only [List.map_append, List.map_reverse, List.map_map, Function.comp_def, List.map_id']
      exact (List.reverse_perm cs).append_right _

/-- The search below some blocks answers no less than the depth of any block there. -/
theorem Simple.le_deepestFrom (H : g.Simple) {stack : List (BlockId × Nat)} {deepest : Nat}
    (hk : g.deepestFrom start room stack deepest = .ok k) :
    deepest ≤ k ∧ ∀ x ∈ stack, ∀ low base j, g.DepthOf x.1 base → g.DepthOf low (base + j) →
      g.Under low x.1 → x.2 + j ≤ k := by
  induction room generalizing stack deepest with
  | zero =>
    cases stack with
    | nil => cases hk; simp
    | cons => cases hk
  | succ room ih =>
    cases stack with
    | nil => cases hk; simp
    | cons x rest =>
      obtain ⟨id, depth⟩ := x
      unfold deepestFrom at hk
      cases hb : g.blocks[id]? with
      | none => simp [block, hb, bind, Except.bind] at hk
      | some b =>
        obtain ⟨cs, hcs, _, hmem⟩ := H.children_eq hb
        simp only [block_of_getElem? hb, hcs, bind, Except.bind] at hk
        obtain ⟨hle, hstack⟩ := ih hk
        refine ⟨by omega, fun x hx low base j hbase hlow hu => ?_⟩
        rcases List.mem_cons.mp hx with rfl | hx
        · rcases ReflTransGen.cases_tail hu with rfl | ⟨c, hu, hh⟩
          · have := hbase.unique hlow
            dsimp only
            omega
          · have hc : (c, depth + 1) ∈ (cs.map fun c => (c, depth + 1)).reverse ++ rest := by
              simp [(hmem c).mpr hh]
            have hcd := DepthOf.hang hh hbase
            obtain ⟨i, hi, hij, _⟩ := hlow.under hu
            have := hi.unique hcd
            have := hstack _ hc low (base + 1) (j - 1) hcd
              (by rw [show base + 1 + (j - 1) = base + j by omega]; exact hlow) hu
            dsimp only at this ⊢
            omega
        · exact hstack x (List.mem_append_right _ hx) low base j hbase hlow hu

/-- The search below some blocks answers the depth of one of the blocks there. -/
theorem Simple.deepestFrom_attained (H : g.Simple) {stack : List (BlockId × Nat)} {deepest : Nat}
    (hd : ∀ x ∈ stack, ∃ base, g.DepthOf x.1 base)
    (hk : g.deepestFrom start room stack deepest = .ok k) :
    k = deepest ∨ ∃ x ∈ stack, ∃ low base j, g.DepthOf x.1 base ∧ g.DepthOf low (base + j) ∧
      g.Under low x.1 ∧ k = x.2 + j := by
  induction room generalizing stack deepest with
  | zero =>
    cases stack with
    | nil => cases hk; exact .inl rfl
    | cons => cases hk
  | succ room ih =>
    cases stack with
    | nil => cases hk; exact .inl rfl
    | cons x rest =>
      obtain ⟨id, depth⟩ := x
      obtain ⟨base, hbase⟩ := hd _ List.mem_cons_self
      unfold deepestFrom at hk
      obtain ⟨b, hb⟩ := Table.mem_iff.mp hbase.mem_blocks
      obtain ⟨cs, hcs, _, hmem⟩ := H.children_eq hb
      simp only [block_of_getElem? hb, hcs, bind, Except.bind] at hk
      have hself : k = depth → ∃ x ∈ (id, depth) :: rest, ∃ low base j, g.DepthOf x.1 base ∧
          g.DepthOf low (base + j) ∧ g.Under low x.1 ∧ k = x.2 + j := fun he =>
        ⟨_, List.mem_cons_self, id, base, 0, hbase, hbase, .refl, he⟩
      have hchildren : ∀ y ∈ (cs.map fun c => (c, depth + 1)).reverse ++ rest,
          ∃ base, g.DepthOf y.1 base := by
        intro y hy
        rcases List.mem_append.mp hy with hy | hy
        · obtain ⟨c, hc, rfl⟩ := List.mem_map.mp (List.mem_reverse.mp hy)
          exact ⟨base + 1, .hang ((hmem c).mp hc) hbase⟩
        · exact hd y (.tail _ hy)
      rcases ih hchildren hk with he | ⟨y, hy, low, base', j, hbase', hlow, hu, he⟩
      · rcases Nat.le_total deepest depth with hle | hle
        · exact .inr (hself (by omega))
        · exact .inl (by omega)
      · rcases List.mem_append.mp hy with hy | hy
        · obtain ⟨c, hc, rfl⟩ := List.mem_map.mp (List.mem_reverse.mp hy)
          have hh := (hmem c).mp hc
          have hcd := hbase'.unique (.hang hh hbase)
          exact .inr ⟨_, List.mem_cons_self, low, base, j + 1, hbase,
            by rw [show base + (j + 1) = base' + j by omega]; exact hlow, hu.tail hh,
            by dsimp only at he ⊢; omega⟩
        · exact .inr ⟨y, .tail _ hy, low, base', j, hbase', hlow, hu, he⟩

/-- The depth below a block is the length of the longest way down from it. -/
theorem Forest.depthBelow_eq (H : g.Forest) (hbase : g.DepthOf id base) :
    ∃ k, g.depthBelow id = .ok k ∧
      (∀ low j, g.Under low id → g.DepthOf low (base + j) → 1 + j ≤ k) ∧
      ∃ low j, g.Under low id ∧ g.DepthOf low (base + j) ∧ k = 1 + j := by
  have hid := hbase.mem_blocks
  obtain ⟨k, hk⟩ : ∃ k, g.deepestFrom id g.size [(id, 1)] 0 = .ok k :=
    H.deepestFrom_total (.init hid) (Nat.zero_add _) 0
  obtain ⟨_, hle⟩ := H.le_deepestFrom hk
  have hbelow : ∀ low j, g.Under low id → g.DepthOf low (base + j) → 1 + j ≤ k :=
    fun low j hu hlow => hle (id, 1) List.mem_cons_self low base j hbase hlow hu
  refine ⟨k, hk, hbelow, ?_⟩
  have hd : ∀ x ∈ [(id, 1)], ∃ base, g.DepthOf x.1 base := by
    intro x hx
    cases List.mem_singleton.mp hx
    exact ⟨base, hbase⟩
  rcases H.deepestFrom_attained hd hk with rfl | ⟨x, hx, low, base', j, hb', hlow, hu, he⟩
  · have := hbelow id 0 .refl hbase
    omega
  · cases List.mem_singleton.mp hx
    cases hb'.unique hbase
    exact ⟨low, j, hu, hlow, he⟩

end SnapBlocks.Graph

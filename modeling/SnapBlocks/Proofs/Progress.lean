import SnapBlocks.Proofs.Compilation

/-! A compilation never meets a block twice, and asks for none that there is not. Trees below
different blocks that hang from one, and trees of different roots, share no block; and the blocks
below one that waits to be compiled were not marked before. So all that a compilation may refuse is
a block whose continuation is its body and in which a chain nests. -/

namespace SnapBlocks

namespace Compile

variable {α β : Type} {m : Step α} {f : α → Step β} {a : α} {v w : TextSet}

/-- A step does not fail for the graph. -/
def Sane (m : Step α) (v : TextSet) : Prop := ∀ e, m.run v ≠ .error (.graph e)

theorem Sane.pure (a : α) (v : TextSet) : Sane (pure a) v := fun _ h => by cases h

theorem Sane.bind (hm : Sane m v) (hf : ∀ a w, m.run v = .ok (a, w) → Sane (f a) w) :
    Sane (m >>= f) v := by
  intro e
  rw [StateT.run_bind]
  cases hr : m.run v with
  | error x =>
    rintro ⟨⟩
    exact hm e hr
  | ok r => exact hf r.1 r.2 hr e

/-- A step may ask what the graph can tell. -/
theorem Sane.ask {r : Except GraphError α} (hr : r = .ok a) (hf : Sane (f a) v) :
    Sane (ask r >>= f) v := by
  subst hr
  exact Sane.bind (Sane.pure a v) fun b w hb => by cases hb; exact hf

/-- A step may go on from a block that is not marked. -/
theorem Sane.visit {start id : BlockId} {f : Unit → Step β} (hid : id ∉ v)
    (hf : Sane (f ()) (v.insert id)) : Sane (visit start id >>= f) v := by
  have hrun : (Compile.visit start id).run v = .ok ((), v.insert id) := by
    have hno : v.contains id = false := by
      rw [← Bool.not_eq_true, ← Std.ExtTreeSet.mem_iff_contains]
      exact hid
    unfold Compile.visit
    rw [StateT.run_bind]
    change (if v.contains id then _ else _ : Step Unit).run v = _
    rw [hno]
    rfl
  apply Sane.bind
  · intro e h
    cases hrun.symm.trans h
  · intro a w h
    cases hrun.symm.trans h
    exact hf

end Compile

namespace Graph

open Relation

variable {g : Graph} {b : Block} {id low other up x y : BlockId} {u v w : TextSet}

/-! ## Disjoint trees -/

/-- No block stands below both of two others. -/
def Apart (g : Graph) (low other : BlockId) : Prop := ∀ y, g.Under y low → ¬ g.Under y other

theorem under_or_under (hx : g.Under y low) (hy : g.Under y other) :
    g.Under low other ∨ g.Under other low :=
  ReflTransGen.total_of_right_unique (fun _ _ _ h h' => HangsFrom.eq h h') hx hy

/-- Two blocks that hang from one block stand above different blocks. -/
theorem Forest.apart_of_hangsFrom (H : g.Forest) (hlow : g.HangsFrom low up)
    (hother : g.HangsFrom other up) (hne : low ≠ other) : g.Apart low other := by
  have hno {x y : BlockId} (hx : g.HangsFrom x up) (hy : g.HangsFrom y up) (hne : x ≠ y) :
      ¬ g.Under x y := by
    intro hu
    rcases hx.under_iff.mp hu with he | hu
    · exact hne he
    · exact H.not_under_of_hangsFrom hy hu
  intro y hy hy'
  rcases under_or_under hy hy' with hu | hu
  · exact hno hlow hother hne hu
  · exact hno hother hlow hne.symm hu

theorem apart_of_roots (hlow : g.predecessor low = .ok none)
    (hother : g.predecessor other = .ok none) (hne : low ≠ other) : g.Apart low other := by
  intro y hy hy'
  rcases under_or_under hy hy' with hu | hu
  · exact hne ((under_iff_of_root hlow).mp hu)
  · exact hne ((under_iff_of_root hother).mp hu).symm

/-! ## Blocks that wait -/

/-- No block below one is marked. -/
def Waits (g : Graph) (v : TextSet) (id : BlockId) : Prop := ∀ y, g.Under y id → y ∉ v

theorem Waits.notMem (hw : g.Waits v id) : id ∉ v := hw id .refl

/-- What hangs from a block waits when the block is marked. -/
theorem Waits.insert (H : g.Forest) (hw : g.Waits v id) (hh : g.HangsFrom low id) :
    g.Waits (v.insert id) low := by
  intro y hy hm
  rcases TextSet.mem_insert.mp hm with rfl | hm
  · exact H.not_under_of_hangsFrom hh hy
  · exact hw y (hy.tail hh) hm

/-- Compiling other trees leaves a block waiting. -/
theorem Covered.waits {top : BlockId → Prop} {calls : List Call} (C : g.Covered top calls v w)
    (hw : g.Waits v id) (hapart : ∀ t, top t → g.Apart t id) : g.Waits w id := by
  intro y hy hm
  rcases (C.marked y).mp hm with hm | hm
  · exact hw y hy hm
  · obtain ⟨t, ht, hu⟩ := (C.under y).mp hm
    exact hapart t ht y hu hy

/-! ## Chains in a block -/

theorem Nests.hangsFrom (S : g.Sound Definition.WellFormed) {segment : String}
    (hn : g.Nests id segment low) : g.HangsFrom low id :=
  S.hangsFrom_iff_next.mpr (.inr ⟨segment, hn⟩)

/-- Chains in different segments are different. -/
theorem Nests.segment_eq (H : g.Simple) {segment segment' : String}
    (hn : g.Nests id segment low) (hn' : g.Nests id segment' low) : segment = segment' := by
  obtain ⟨b, s, p, d, hb, hs, _, rfl, hp, hd, hlow⟩ := hn
  obtain ⟨b', t, q, e, hb', ht, _, rfl, hq, he, hlow'⟩ := hn'
  cases hb.symm.trans hb'
  rw [Definition.snapId_inj hs ht (H.linked_eq ⟨p, hp, hd⟩ ⟨q, hq, he⟩ hlow hlow').1]

/-- What follows a block does not nest in it. -/
theorem Nests.ne_next (H : g.Simple) {segment : String} (hn : g.Nests id segment low)
    (hnext : g.primaryNext id = .ok (some other)) : low ≠ other := by
  rintro rfl
  obtain ⟨b, s, p, d, hb, hs, hk, _, hp, hd, hlow⟩ := hn
  obtain ⟨b', m, q, e, _, hb', hm, hq, he, hr, hlow'⟩ := primaryNext_eq_some.mp hnext
  cases hb.symm.trans hb'
  obtain ⟨q', hq', _, hkind⟩ := H.snap_of_primaryNotch hb hm
  cases hq.symm.trans hq'
  have hends := H.linked_eq ⟨p, hp, hd⟩ ⟨q, hq, he⟩ hlow (owner_eq_ok.mpr ⟨_, hr, hlow'⟩)
  cases hends.1
  cases hp.symm.trans hq
  have hpk : p.kind = .secondaryNotch := (H.snap_at_eq hb hs hp).2.1.trans hk
  cases hkind.symm.trans hpk

/-- The chains in a block are compiled one after another. -/
theorem Sound.branchList_sane (S : g.Sound Definition.WellFormed)
    {compile : BlockId → Compile.Step Chain} {sc : List (String × SnapId)}
    (hnests : ∀ e ∈ sc, ∃ low, g.owner e.2 = .ok low ∧ g.Nests id e.1 low)
    (hn : (sc.map (·.1)).Nodup)
    (hrun : ∀ {low v c w}, (compile low).run v = .ok (c, w) → g.Compiled low c v w)
    (hsane : ∀ {low v}, g.HangsFrom low id → g.Waits v low → Compile.Sane (compile low) v)
    (hwaits : ∀ e ∈ sc, ∀ low, g.owner e.2 = .ok low → g.Waits v low) :
    Compile.Sane (Compile.branchList g b compile sc) v := by
  induction sc generalizing v with
  | nil => exact .pure _ _
  | cons e rest ih =>
    obtain ⟨low, hlow, hnest⟩ := hnests e List.mem_cons_self
    rw [List.map_cons, List.nodup_cons] at hn
    have hh := hnest.hangsFrom S
    have hrest : ∀ e' ∈ rest, ∃ low, g.owner e'.2 = .ok low ∧ g.Nests id e'.1 low :=
      fun e' he' => hnests e' (.tail _ he')
    apply Compile.Sane.ask hlow
    apply Compile.Sane.bind (hsane hh (hwaits e List.mem_cons_self low hlow))
    intro body w hbody
    -- the trees of the later chains are apart from the one that was compiled
    apply Compile.Sane.bind (ih hrest hn.2 ?_) fun _ _ _ => .pure _ _
    intro e' he' other hother
    apply (hrun hbody).covered.waits (hwaits e' (.tail _ he') other hother)
    rintro _ rfl
    obtain ⟨other', hother', hnest'⟩ := hrest e' he'
    cases hother.symm.trans hother'
    apply S.apart_of_hangsFrom hh (hnest'.hangsFrom S)
    rintro rfl
    exact hn.1 (hnest.segment_eq S.toSimple hnest' ▸ List.mem_map_of_mem he')

/-- **No block is met twice.** The room for calls below a block is what its depth leaves. -/
theorem Sound.chainFrom_sane (S : g.Sound Definition.WellFormed) {room k : Nat} {start : BlockId}
    (hk : g.DepthOf id k) (hroom : g.size < room + k) (hw : g.Waits v id) :
    Compile.Sane (Compile.chainFrom g room start id) v := by
  induction room generalizing start id k v with
  | zero =>
    have := hk.le_size
    omega
  | succ room ih =>
    have hbelow {start low v} (hh : g.HangsFrom low id) (hw : g.Waits v low) :
        Compile.Sane (Compile.chainFrom g room start low) v := ih (.hang hh hk) (by omega) hw
    obtain ⟨b, hb⟩ := Table.mem_iff.mp hk.mem_blocks
    obtain ⟨sc, hsc, hhang⟩ := S.linkedScopes_eq hb fun _ hs => hs
    have hscopes : Compile.linkedScopes g b.snapPoints = .ok sc := by
      rw [Block.snapPoints, S.block_id hb]
      exact hsc
    obtain ⟨next, hnext⟩ := S.primaryNext_total hk.mem_blocks
    have hcontinued {low} (he : next = some low) : g.HangsFrom low id :=
      S.hangsFrom_of_primaryNext (he ▸ hnext)
    unfold Compile.chainFrom
    apply Compile.Sane.visit hw.notMem
    apply Compile.Sane.ask (block_of_getElem? hb)
    apply Compile.Sane.ask hscopes
    split
    · split
      · intro e h
        cases h
      · apply Compile.Sane.ask hnext
        cases next with
        | none => exact .pure _ _
        | some low =>
          have hh := hcontinued rfl
          exact .bind (hbelow hh (hw.insert S.toForest hh)) fun _ _ _ => .pure _ _
    · have hnests : ∀ e ∈ sc, ∃ low, g.owner e.2 = .ok low ∧ g.Nests id e.1 low := by
        intro e he
        obtain ⟨s, hs, hks, hseg, p, hp, hd⟩ := hhang.mem_iff.mp he
        obtain ⟨_, q, _, hq, _⟩ := S.ends ⟨p, hp, hd⟩
        have hlow := owner_of_getElem? hq
        exact ⟨q.block, hlow, (hhang.nests_iff hb).mpr ⟨e.2, he, hlow⟩⟩
      have hwaits : ∀ e ∈ sc, ∀ low, g.owner e.2 = .ok low → g.Waits (v.insert id) low := by
        intro e he low hlow
        obtain ⟨low', hlow', hnest⟩ := hnests e he
        cases hlow.symm.trans hlow'
        exact hw.insert S.toForest (hnest.hangsFrom S)
      apply Compile.Sane.bind (S.branchList_sane hnests (hhang.nodup (S.defined hb).toCoherent)
        S.chainFrom_run hbelow hwaits)
      intro bs w hbs
      apply Compile.Sane.ask hnext
      cases next with
      | none => exact .pure _ _
      | some low =>
        have hh := hcontinued rfl
        obtain ⟨_, _, _, hcover⟩ := branchList_run (S.chainFrom_run ·) hbs
        apply Compile.Sane.bind (hbelow hh ?_) fun _ _ _ => .pure _ _
        apply hcover.waits (hw.insert S.toForest hh)
        rintro t ⟨segment, d, hm, ht⟩
        have hnest : g.Nests id segment t := (hhang.nests_iff hb).mpr ⟨d, hm, ht⟩
        exact S.apart_of_hangsFrom (hnest.hangsFrom S) hh (hnest.ne_next S.toSimple hnext)

theorem Sound.chain_sane (S : g.Sound Definition.WellFormed) (hid : id ∈ g.blocks)
    (hw : g.Waits v id) : Compile.Sane (Compile.chain g id) v := by
  obtain ⟨k, hk, _⟩ := S.depth hid
  have := hk.pos
  exact S.chainFrom_sane hk (by omega) hw

/-- The chains of different roots are compiled one after another. -/
theorem Sound.chains_sane (S : g.Sound Definition.WellFormed) {roots : List BlockId}
    (hroots : ∀ id ∈ roots, g.predecessor id = .ok none) (hn : roots.Nodup)
    (hw : ∀ id ∈ roots, g.Waits v id) : Compile.Sane (Compile.chains g roots) v := by
  induction roots generalizing v with
  | nil => exact .pure _ _
  | cons root rest ih =>
    obtain ⟨hno, hn⟩ := List.nodup_cons.mp hn
    have hroot := hroots root List.mem_cons_self
    have hrest : ∀ id ∈ rest, g.predecessor id = .ok none := fun id hid => hroots id (.tail _ hid)
    have hmem := (DepthOf.root hroot).mem_blocks
    apply Compile.Sane.bind (S.chain_sane hmem (hw root List.mem_cons_self))
    intro c w hc
    apply Compile.Sane.bind (ih hrest hn ?_) fun _ _ _ => .pure _ _
    intro id hid
    apply (S.chainFrom_run hc).covered.waits (hw id (.tail _ hid))
    rintro _ rfl
    exact apart_of_roots hroot (hrest id hid) fun he => hno (he ▸ hid)

theorem waits_empty (id : BlockId) : g.Waits ∅ id := fun _ _ => Std.ExtTreeSet.not_mem_empty

/-- **A chain compiles**, unless a chain nests in a block whose continuation is its body. -/
theorem Sound.compileChain_sane (S : g.Sound Definition.WellFormed) (hid : id ∈ g.blocks)
    (e : GraphError) : g.compileChain id ≠ .error (.graph e) := by
  have hsane := S.chain_sane hid (waits_empty id) e
  unfold compileChain
  cases hr : (Compile.chain g id).run ∅ with
  | error x =>
    rintro ⟨⟩
    exact hsane hr
  | ok r => exact nofun

theorem Sound.compile_sane (S : g.Sound Definition.WellFormed) (e : GraphError) :
    g.compile ≠ .error (.graph e) := by
  have hroots : ∀ id ∈ g.entries, g.predecessor id = .ok none := by
    intro id hid
    obtain ⟨b, hb, ⟨pos, hpos⟩, _⟩ := S.mem_entries.mp hid
    exact (S.seated.root_iff S.toSimple hb).mp (by rw [hpos]; rfl)
  have hn : g.entries.Nodup := S.entries_ascending.imp fun h => String.ne_of_lt h
  have hsane := S.chains_sane hroots hn (fun id _ => waits_empty id) e
  unfold compile
  split
  · exact nofun
  cases hr : (Compile.chains g g.entries).run ∅ with
  | error x =>
    rintro ⟨⟩
    exact hsane hr
  | ok r => exact nofun

end Graph

end SnapBlocks

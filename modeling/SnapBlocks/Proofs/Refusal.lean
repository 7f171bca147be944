import SnapBlocks.Proofs.Progress

/-! When a graph compiles. A compilation refuses only a block whose continuation is its body while
something hangs from one of its secondary notches, and none of the blocks that it marks when it
goes through is such a block. It marks all blocks below the entries, so it fails exactly when one
of them is. -/

namespace SnapBlocks

namespace Compile

variable {α β : Type} {m : Step α} {f : α → Step β} {v : TextSet} {reason : CompileError → Prop}

/-- A step fails only for reasons of a kind. -/
structure FailsFor (reason : CompileError → Prop) (m : Step α) (v : TextSet) : Prop where
  reason {e : CompileError} : m.run v = .error e → reason e

theorem FailsFor.pure (a : α) (v : TextSet) : FailsFor reason (pure a) v := ⟨fun h => by cases h⟩

theorem FailsFor.throw {e : CompileError} (he : reason e) (v : TextSet) :
    FailsFor reason (throw e : Step α) v := ⟨fun h => by cases h; exact he⟩

theorem FailsFor.bind (hm : FailsFor reason m v)
    (hf : ∀ a w, m.run v = .ok (a, w) → FailsFor reason (f a) w) :
    FailsFor reason (m >>= f) v := by
  constructor
  intro e h
  rw [StateT.run_bind] at h
  cases hr : m.run v with
  | error x =>
    rw [hr] at h
    cases h
    exact hm.reason hr
  | ok r =>
    rw [hr] at h
    exact (hf r.1 r.2 hr).reason h

section
variable (hgraph : ∀ e, reason (.graph e))
include hgraph

theorem FailsFor.ask {r : Except GraphError α} (hf : ∀ a, r = .ok a → FailsFor reason (f a) v) :
    FailsFor reason (ask r >>= f) v := by
  cases r with
  | error e => exact .bind (.throw (hgraph e) v) fun _ _ h => by cases h
  | ok a => exact .bind (.pure a v) fun _ _ h => by cases h; exact hf a rfl

theorem FailsFor.visit {start id : BlockId} {f : Unit → Step β}
    (hf : FailsFor reason (f ()) (v.insert id)) : FailsFor reason (visit start id >>= f) v := by
  apply FailsFor.bind
  · unfold Compile.visit
    apply FailsFor.bind ⟨fun h => by cases h⟩
    intro u w _
    split
    · exact .throw (hgraph _) w
    · exact ⟨fun h => by cases h⟩
  · intro a w h
    obtain ⟨_, rfl⟩ := run_visit_eq_ok h
    exact hf

end

end Compile

namespace Graph

open Relation

variable {g : Graph} {b : Block} {id low top : BlockId} {u v w : TextSet} {c : Chain}

/-- The continuation of a block is its body, and yet something hangs from the secondary notch of
one of its segments. -/
def Clashes (g : Graph) (id : BlockId) (segment : String) : Prop :=
  ∃ b s p, g.blocks[id]? = some b ∧ b.isForceScope ∧ s ∈ b.definition.slots ∧
    s.kind = .secondaryNotch ∧ s.segmentId = segment ∧ g.snaps[s.snapId id]? = some p ∧
      p.next ≠ none

/-- A block stands in the tree of a root that is an entry. -/
def BelowEntry (g : Graph) (id : BlockId) : Prop :=
  ∃ (top : BlockId) (b : Block), g.blocks[top]? = some b ∧ (∃ pos, b.placement = .root pos) ∧
    b.definition.isEntry ∧ g.Under id top

/-- **When a graph compiles**, and what is blamed when it does not. -/
structure CompilesExactly (g : Graph) : Prop where
  noEntryBlocks : g.compile = .error .noEntryBlocks ↔
    ∀ (id : BlockId) (b : Block), g.blocks[id]? = some b →
      (∃ pos, b.placement = .root pos) → ¬ b.definition.isEntry
  forceScopeBranch : (∃ name id segment, g.compile = .error (.forceScopeBranch name id segment)) ↔
    ∃ id segment, g.BelowEntry id ∧ g.Clashes id segment
  blamed {name id segment : String} : g.compile = .error (.forceScopeBranch name id segment) →
    g.BelowEntry id ∧ g.Clashes id segment ∧ ∃ b, g.blocks[id]? = some b ∧ b.name = name
  compiles : (∃ p, g.compile = .ok p) ↔
    (∃ (id : BlockId) (b : Block), g.blocks[id]? = some b ∧
        (∃ pos, b.placement = .root pos) ∧ b.definition.isEntry) ∧
      ¬ ∃ id segment, g.BelowEntry id ∧ g.Clashes id segment
  /-- In particular no block is reached twice. -/
  sane (e : GraphError) : g.compile ≠ .error (.graph e)

theorem Hanging.clashes_iff {sc : List (String × SnapId)} (h : g.Hanging id b.definition.slots sc)
    (hb : g.blocks[id]? = some b) {segment : String} :
    g.Clashes id segment ↔ b.isForceScope ∧ ∃ d, (segment, d) ∈ sc := by
  constructor
  · rintro ⟨b', s, p, hb', hforce, hs, hk, hseg, hp, hnext⟩
    cases hb.symm.trans hb'
    obtain ⟨d, hd⟩ := Option.ne_none_iff_exists'.mp hnext
    exact ⟨hforce, d, h.mem_iff.mpr ⟨s, hs, hk, hseg, p, hp, hd⟩⟩
  · rintro ⟨hforce, d, hd⟩
    obtain ⟨s, hs, hk, hseg, p, hp, hnext⟩ := h.mem_iff.mp hd
    exact ⟨b, s, p, hb, hforce, hs, hk, hseg, hp, by simp [hnext]⟩

/-! ## What is blamed -/

/-- A reason for which the compilation of a tree may fail: a block of it clashes. What the graph
itself may answer is left open here. -/
inductive Blames (g : Graph) (top : BlockId) : CompileError → Prop where
  | graph (e : GraphError) : g.Blames top (.graph e)
  | clash {low : BlockId} {b : Block} {segment : String} : g.Under low top →
      g.blocks[low]? = some b → g.Clashes low segment →
      g.Blames top (.forceScopeBranch b.name low segment)

theorem Blames.mono {e : CompileError} (he : g.Blames low e) (h : g.Under low top) :
    g.Blames top e := by
  cases he with
  | graph e => exact .graph e
  | clash hu hb hclash => exact .clash (hu.trans h) hb hclash

theorem branchList_failsFor {compile : BlockId → Compile.Step Chain} {sc : List (String × SnapId)}
    (hcompile : ∀ e ∈ sc, ∀ low v, g.owner e.2 = .ok low →
      Compile.FailsFor (g.Blames top) (compile low) v) :
    Compile.FailsFor (g.Blames top) (Compile.branchList g b compile sc) v := by
  induction sc generalizing v with
  | nil => exact .pure _ _
  | cons e rest ih =>
    apply Compile.FailsFor.ask .graph
    intro low hlow
    apply Compile.FailsFor.bind (hcompile e List.mem_cons_self low v hlow)
    intro body w _
    exact .bind (ih fun e he => hcompile e (.tail _ he)) fun _ _ _ => .pure _ _

theorem Sound.chainFrom_failsFor (S : g.Sound Definition.WellFormed) {room : Nat}
    {start : BlockId} : Compile.FailsFor (g.Blames id) (Compile.chainFrom g room start id) v := by
  induction room generalizing start id v with
  | zero =>
    apply Compile.FailsFor.visit .graph
    apply Compile.FailsFor.ask .graph
    exact fun _ _ => .throw (.graph _) _
  | succ room ih =>
    have hbelow {start low v} (hh : g.HangsFrom low id) :
        Compile.FailsFor (g.Blames id) (Compile.chainFrom g room start low) v :=
      ⟨fun h => (ih.reason h).mono (.single hh)⟩
    unfold Compile.chainFrom
    apply Compile.FailsFor.visit .graph
    apply Compile.FailsFor.ask .graph
    intro b hb
    rw [block_eq_ok] at hb
    apply Compile.FailsFor.ask .graph
    intro sc hsc
    obtain ⟨sc', hsc', hhang⟩ := S.linkedScopes_eq hb fun _ hs => hs
    rw [Block.snapPoints, S.block_id hb] at hsc
    cases hsc.symm.trans hsc'
    split
    next hforce =>
      split
      next segment d _ =>
        have hclash := (hhang.clashes_iff hb).mpr ⟨hforce, d, List.mem_cons_self⟩
        exact .throw (.clash .refl hb hclash) _
      next =>
        apply Compile.FailsFor.ask .graph
        intro next hnext
        cases next with
        | none => exact .pure _ _
        | some low =>
          exact .bind (hbelow (S.hangsFrom_of_primaryNext hnext)) fun _ _ _ => .pure _ _
    next =>
      apply Compile.FailsFor.bind
      · apply branchList_failsFor
        intro e he low v hlow
        have hnest : g.Nests id e.1 low := (hhang.nests_iff hb).mpr ⟨e.2, he, hlow⟩
        exact hbelow (hnest.hangsFrom S)
      intro bs w _
      apply Compile.FailsFor.ask .graph
      intro next hnext
      cases next with
      | none => exact .pure _ _
      | some low =>
        exact .bind (hbelow (S.hangsFrom_of_primaryNext hnext)) fun _ _ _ => .pure _ _

/-- Chains of entries fail for a block below one of them. -/
theorem Sound.chains_failsFor (S : g.Sound Definition.WellFormed) {roots : List BlockId} :
    Compile.FailsFor (fun e => ∃ top ∈ roots, g.Blames top e) (Compile.chains g roots) v := by
  induction roots generalizing v with
  | nil => exact .pure _ _
  | cons root rest ih =>
    apply Compile.FailsFor.bind
    · exact ⟨fun h => ⟨root, List.mem_cons_self, S.chainFrom_failsFor.reason h⟩⟩
    intro c w _
    apply Compile.FailsFor.bind _ fun _ _ _ => .pure _ _
    constructor
    intro e h
    obtain ⟨top, htop, hblames⟩ := ih.reason h
    exact ⟨top, .tail _ htop, hblames⟩

/-! ## What is marked -/

/-- None of the blocks that were marked newly clashes. -/
def Clear (g : Graph) (v w : TextSet) : Prop :=
  ∀ y ∈ w, y ∈ v ∨ ∀ segment, ¬ g.Clashes y segment

theorem Clear.refl (v : TextSet) : g.Clear v v := fun _ hy => .inl hy

theorem Clear.trans (h : g.Clear v u) (h' : g.Clear u w) : g.Clear v w := by
  intro y hy
  rcases h' y hy with hy | hy
  · exact h y hy
  · exact .inr hy

theorem Clear.insert (h : ∀ segment, ¬ g.Clashes id segment) : g.Clear v (v.insert id) := by
  intro y hy
  rcases TextSet.mem_insert.mp hy with rfl | hy
  · exact .inr h
  · exact .inl hy

theorem branchList_clear {compile : BlockId → Compile.Step Chain} {sc : List (String × SnapId)}
    {bs : List (String × Branch)}
    (hcompile : ∀ {low v c w}, (compile low).run v = .ok (c, w) → g.Clear v w)
    (h : (Compile.branchList g b compile sc).run v = .ok (bs, w)) : g.Clear v w := by
  induction sc generalizing bs v with
  | nil =>
    obtain ⟨_, rfl⟩ := Compile.run_pure_eq_ok h
    exact .refl v
  | cons e rest ih =>
    obtain ⟨low, _, hask, h⟩ := Compile.run_bind_eq_ok h
    obtain ⟨_, rfl⟩ := Compile.run_ask_eq_ok hask
    obtain ⟨body, u, hbody, h⟩ := Compile.run_bind_eq_ok h
    obtain ⟨others, _, hothers, h⟩ := Compile.run_bind_eq_ok h
    obtain ⟨_, rfl⟩ := Compile.run_pure_eq_ok h
    exact (hcompile hbody).trans (ih hothers)

theorem Sound.chainFrom_clear (S : g.Sound Definition.WellFormed) {room : Nat} {start : BlockId}
    (h : (Compile.chainFrom g room start id).run v = .ok (c, w)) : g.Clear v w := by
  induction room generalizing start id v c w with
  | zero =>
    obtain ⟨_, _, _, h⟩ := Compile.run_bind_eq_ok h
    obtain ⟨_, _, _, h⟩ := Compile.run_bind_eq_ok h
    cases h
  | succ room ih =>
    obtain ⟨_, _, hvisit, h⟩ := Compile.run_bind_eq_ok h
    obtain ⟨_, rfl⟩ := Compile.run_visit_eq_ok hvisit
    obtain ⟨b, _, hask, h⟩ := Compile.run_bind_eq_ok h
    obtain ⟨hb, rfl⟩ := Compile.run_ask_eq_ok hask
    rw [block_eq_ok] at hb
    obtain ⟨sc, _, hask, h⟩ := Compile.run_bind_eq_ok h
    obtain ⟨hsc, rfl⟩ := Compile.run_ask_eq_ok hask
    obtain ⟨sc', hsc', hhang⟩ := S.linkedScopes_eq hb fun _ hs => hs
    rw [Block.snapPoints, S.block_id hb] at hsc
    cases hsc.symm.trans hsc'
    split at h
    next =>
      split at h
      · cases h
      next =>
        have hid : g.Clear v (v.insert id) := .insert fun segment hclash => by
          obtain ⟨_, d, hd⟩ := (hhang.clashes_iff hb).mp hclash
          exact List.not_mem_nil hd
        obtain ⟨next, _, hask, h⟩ := Compile.run_bind_eq_ok h
        obtain ⟨_, rfl⟩ := Compile.run_ask_eq_ok hask
        cases next with
        | none =>
          obtain ⟨_, rfl⟩ := Compile.run_pure_eq_ok h
          exact hid
        | some low =>
          obtain ⟨body, _, hbody, h⟩ := Compile.run_bind_eq_ok h
          obtain ⟨_, rfl⟩ := Compile.run_pure_eq_ok h
          exact hid.trans (ih hbody)
    next hfree =>
      have hid : g.Clear v (v.insert id) := .insert fun segment hclash =>
        hfree ((hhang.clashes_iff hb).mp hclash).1
      obtain ⟨bs, _, hbranches, h⟩ := Compile.run_bind_eq_ok h
      have hbs := hid.trans (branchList_clear ih hbranches)
      obtain ⟨next, _, hask, h⟩ := Compile.run_bind_eq_ok h
      obtain ⟨_, rfl⟩ := Compile.run_ask_eq_ok hask
      cases next with
      | none =>
        obtain ⟨_, rfl⟩ := Compile.run_pure_eq_ok h
        exact hbs
      | some low =>
        obtain ⟨rest, _, hrest, h⟩ := Compile.run_bind_eq_ok h
        obtain ⟨_, rfl⟩ := Compile.run_pure_eq_ok h
        exact hbs.trans (ih hrest)

theorem Sound.chains_clear (S : g.Sound Definition.WellFormed) {roots : List BlockId}
    {cs : List Chain} (h : (Compile.chains g roots).run v = .ok (cs, w)) : g.Clear v w := by
  induction roots generalizing cs v with
  | nil =>
    obtain ⟨_, rfl⟩ := Compile.run_pure_eq_ok h
    exact .refl v
  | cons root rest ih =>
    obtain ⟨c, u, hc, h⟩ := Compile.run_bind_eq_ok h
    obtain ⟨others, _, hothers, h⟩ := Compile.run_bind_eq_ok h
    obtain ⟨_, rfl⟩ := Compile.run_pure_eq_ok h
    exact (S.chainFrom_clear hc).trans (ih hothers)

/-! ## Programs -/

theorem Sound.belowEntry_iff (S : g.Sound Definition.WellFormed) :
    g.BelowEntry id ↔ ∃ top ∈ g.entries, g.Under id top := by
  constructor
  · rintro ⟨top, b, hb, hroot, hentry, hu⟩
    exact ⟨top, S.mem_entries.mpr ⟨b, hb, hroot, hentry⟩, hu⟩
  · rintro ⟨top, htop, hu⟩
    obtain ⟨b, hb, hroot, hentry⟩ := S.mem_entries.mp htop
    exact ⟨top, b, hb, hroot, hentry, hu⟩

theorem Sound.entries_eq_nil (S : g.Sound Definition.WellFormed) :
    g.entries = [] ↔ ∀ (id : BlockId) (b : Block), g.blocks[id]? = some b →
      (∃ pos, b.placement = .root pos) → ¬ b.definition.isEntry := by
  rw [List.eq_nil_iff_forall_not_mem]
  refine forall_congr' fun id => ?_
  rw [S.mem_entries]
  simp only [not_exists, not_and]

/-- What a compilation ends with, and why. -/
inductive Outcome (g : Graph) : Except CompileError Program → Prop where
  | noEntryBlocks : g.entries = [] → g.Outcome (.error .noEntryBlocks)
  | clash {id : BlockId} {b : Block} {segment : String} : g.BelowEntry id →
      g.blocks[id]? = some b → g.Clashes id segment →
      g.Outcome (.error (.forceScopeBranch b.name id segment))
  | program (p : Program) : g.entries ≠ [] →
      (∀ id segment, g.BelowEntry id → ¬ g.Clashes id segment) → g.Outcome (.ok p)

theorem Sound.outcome (S : g.Sound Definition.WellFormed) : g.Outcome g.compile := by
  have hsane := S.compile_sane
  unfold compile at hsane ⊢
  split
  next hnil => exact .noEntryBlocks (List.isEmpty_iff.mp hnil)
  next hne =>
    rw [if_neg hne] at hsane
    cases hrun : (Compile.chains g g.entries).run ∅ with
    | error e =>
      rw [hrun] at hsane
      obtain ⟨top, htop, hblames⟩ := S.chains_failsFor.reason hrun
      cases hblames with
      | graph e => exact absurd rfl (hsane e)
      | clash hu hb hclash => exact .clash (S.belowEntry_iff.mpr ⟨top, htop, hu⟩) hb hclash
    | ok r =>
      -- the program covers all blocks below the entries, and none that was marked clashes
      obtain ⟨_, _, hcover⟩ := S.chains_run hrun
      refine .program _ (fun hnil => hne (List.isEmpty_iff.mpr hnil)) fun id segment hid => ?_
      have hcalled := (hcover.under id).mpr (S.belowEntry_iff.mp hid)
      rcases S.chains_clear hrun id ((hcover.marked id).mpr (.inr hcalled)) with hno | hclear
      · exact absurd hno Std.ExtTreeSet.not_mem_empty
      · exact hclear segment

/-- **Compilation fails exactly when it has to.** -/
theorem Reachable.compiles_exactly (hg : Reachable Definition.WellFormed g) :
    g.CompilesExactly := by
  have S := hg.sound fun _ hd => hd.toCoherent
  have hentry {id : BlockId} (hid : g.BelowEntry id) : g.entries ≠ [] := by
    obtain ⟨top, htop, _⟩ := S.belowEntry_iff.mp hid
    exact List.ne_nil_of_mem htop
  have hsome : (∃ (id : BlockId) (b : Block), g.blocks[id]? = some b ∧
      (∃ pos, b.placement = .root pos) ∧ b.definition.isEntry) ↔ g.entries ≠ [] := by
    rw [ne_eq, S.entries_eq_nil]
    simp only [not_forall, not_not, exists_prop]
  have ho {r : Except CompileError Program} (hr : g.compile = r) : g.Outcome r := hr ▸ S.outcome
  constructor
  case noEntryBlocks =>
    rw [← S.entries_eq_nil]
    constructor
    · intro h
      cases ho h with
      | noEntryBlocks hnil => exact hnil
    · intro hnil
      cases hr : g.compile with
      | error e =>
        cases ho hr with
        | noEntryBlocks => rfl
        | clash hid => exact absurd hnil (hentry hid)
      | ok p =>
        cases ho hr with
        | program _ hne => exact absurd hnil hne
  case forceScopeBranch =>
    constructor
    · rintro ⟨name, id, segment, h⟩
      cases ho h with
      | clash hid _ hclash => exact ⟨id, segment, hid, hclash⟩
    · rintro ⟨id, segment, hid, hclash⟩
      cases hr : g.compile with
      | error e =>
        cases ho hr with
        | noEntryBlocks hnil => exact absurd hnil (hentry hid)
        | clash => exact ⟨_, _, _, rfl⟩
      | ok p =>
        cases ho hr with
        | program _ _ hclear => exact absurd hclash (hclear id segment hid)
  case blamed =>
    intro name id segment h
    cases ho h with
    | clash hid hb hclash => exact ⟨hid, hclash, _, hb, rfl⟩
  case compiles =>
    rw [hsome]
    constructor
    · rintro ⟨p, h⟩
      cases ho h with
      | program _ hne hclear => exact ⟨hne, fun ⟨id, segment, hid, hc⟩ => hclear id segment hid hc⟩
    · rintro ⟨hne, hclear⟩
      cases hr : g.compile with
      | error e =>
        cases ho hr with
        | noEntryBlocks hnil => exact absurd hnil hne
        | clash hid _ hclash => exact absurd ⟨_, _, hid, hclash⟩ hclear
      | ok p => exact ⟨p, rfl⟩
  case sane => exact S.compile_sane

end Graph

/-! ## A loop that holds the rest of its chain -/

namespace Document

open SnapBlocks.Graph

/-- A loop whose continuation is its body. -/
def holding : Definition :=
  { Catalog.whileLoop with style := { Catalog.whileLoop.style with forceScope := true } }

/-- An entry with a loop, a loop that holds its continuation in it, and a statement in that. -/
def clashing : Document where
  blocks := Table.ofPairs <|
    [("a", Catalog.startAgent), ("b", Catalog.whileLoop), ("c", holding),
      ("d", Catalog.logVariable)].map fun p =>
        (p.1, { id := p.1, name := p.2.name, position := .origin, offset := none, segments := []
                definition := p.2, primaryNotchId := none, primaryDivotId := none })
  notches := Table.ofPairs <|
    [("a", "b", true), ("b", "c", false), ("c", "d", false)].map fun (up, low, isPrimary) =>
      ("notch-0-" ++ up, {
        notchBlockId := up, divotBlockId := low, notchId := "notch-0-" ++ up
        divotId := "divot-0-" ++ low, notchSegmentId := "", divotSegmentId := "", isPrimary })

theorem clashing_wellFormed : ∀ p ∈ clashing.blocks.toList, p.2.definition.WellFormed := by
  decide +kernel

theorem compiles_exactly_clashing : ∃ g, clashing.toGraph ∅ = (.ok g, []) ∧
    g.compile = .error (.forceScopeBranch "while" "c" "while.while") ∧
      g.BelowEntry "c" ∧ g.Clashes "c" "while.while" := by
  have hrun : ((clashing.toGraph ∅).1.toOption.map fun g => g.compile.map fun _ => ()) =
      some (.error (.forceScopeBranch "while" "c" "while.while")) ∧
        (clashing.toGraph ∅).2 = [] := by decide +kernel
  obtain ⟨g, hok, herror⟩ := Option.map_eq_some_iff.mp hrun.1
  have hgraph : clashing.toGraph ∅ = (.ok g, []) := Prod.ext (except_eq_ok_of_toOption hok) hrun.2
  have hg : Reachable Definition.WellFormed g :=
    .loaded clashing ∅ {} [] clashing_wellFormed hgraph (.refl _)
  have hcompile := except_eq_error_of_map herror
  obtain ⟨hentry, hclash, _⟩ := (Reachable.compiles_exactly hg).blamed hcompile
  exact ⟨g, hgraph, hcompile, hentry, hclash⟩

end Document

end SnapBlocks

import SnapBlocks.Proofs.Arrangement
import SnapBlocks.Proofs.Calls

/-! Faithful compilation. What a chain compiles to holds one call for each block below the first
one of the chain. The blocks that a compilation marks are those of its calls, so that chains
compiled one after another share none; with that the calls cover the forest, by induction on how
deep they nest. -/

namespace SnapBlocks

/-! ## The inputs of a call -/

theorem Definition.Coherent.segmentName_eq {d : Definition} (hc : d.Coherent)
    {seg : Segment} (hseg : seg ∈ d.segments) : d.segmentName seg.id = seg.name := by
  unfold Definition.segmentName Definition.segment?
  cases hf : d.segments.find? (·.id = seg.id) with
  | none =>
    have := List.find?_eq_none.mp hf seg hseg
    simp at this
  | some t =>
    have hid : t.id = seg.id := by simpa using List.find?_some hf
    rw [List.inj_on_of_nodup_map hc.segments_nodup (List.mem_of_find?_eq_some hf) hseg hid]
    rfl

theorem Compile.boundInputs_ascending (b : Block) :
    Ascending (Compile.boundInputs b) :=
  List.pairwise_map.mpr (Table.toList_ascending.filter _)

/-- A block hands over its inputs, segment by segment. -/
theorem Block.Filled.mem_boundInputs {b : Block} (hf : b.Filled)
    (hc : b.definition.Coherent) {k : String} {l : List BoundInput} :
    (k, l) ∈ Compile.boundInputs b ↔
      ∃ seg ∈ b.definition.segments, seg.inputs ≠ [] ∧ seg.id = k ∧
        ∃ bs, b.inputs[k]? = some bs ∧ bs.map (·.declaration) = seg.inputs ∧
          l = bs.map (Compile.boundInput seg.name) := by
  unfold Compile.boundInputs
  rw [List.mem_map]
  constructor
  · rintro ⟨⟨k', bs⟩, hm, he⟩
    cases he
    have hbs : b.inputs[k']? = some bs := Table.mem_toList.mp (List.mem_filter.mp hm).1
    obtain ⟨seg, hseg, hne, rfl⟩ := hf.segment_of hbs
    obtain ⟨bs', hbs', hdecl⟩ := hf.declared hseg hne
    cases hbs.symm.trans hbs'
    exact ⟨seg, hseg, hne, rfl, bs, hbs, hdecl, by rw [hc.segmentName_eq hseg]⟩
  · rintro ⟨seg, hseg, hne, rfl, bs, hbs, hdecl, rfl⟩
    refine ⟨(seg.id, bs), List.mem_filter.mpr ⟨Table.mem_toList.mpr hbs, ?_⟩, ?_⟩
    · cases bs with
      | nil => exact absurd hdecl.symm hne
      | cons => rfl
    · rw [hc.segmentName_eq hseg]

theorem Block.isRoot_iff {b : Block} : b.isRoot ↔ ∃ pos, b.placement = .root pos := by
  unfold isRoot
  split <;> simp [*]

namespace Graph

open Relation

/-- What follows a block is its body. -/
def Forces (g : Graph) (id : BlockId) : Prop := ∃ b, g.blocks[id]? = some b ∧ b.isForceScope

theorem forces_iff {g : Graph} {id : BlockId} {b : Block} (hb : g.blocks[id]? = some b) :
    g.Forces id ↔ b.isForceScope := by
  simp [Forces, hb]

/-- A block hangs from the secondary notch of a segment of another. -/
def Nests (g : Graph) (id : BlockId) (segment : String) (low : BlockId) : Prop :=
  ∃ b s p d, g.blocks[id]? = some b ∧ s ∈ b.definition.slots ∧ s.kind = .secondaryNotch ∧
    s.segmentId = segment ∧ g.snaps[s.snapId id]? = some p ∧ p.next = some d ∧
    g.owner d = .ok low

/-- A call says of its block what the graph says. -/
structure CallFaithful (g : Graph) (x : Call) : Prop where
  target : ∃ b, g.blocks[x.block]? = some b ∧ x.target = b.name
  /-- For each segment that declares inputs the call carries their bindings, in order. -/
  inputs {b : Block} : g.blocks[x.block]? = some b → ∀ k l, (k, l) ∈ x.inputs ↔
    ∃ seg ∈ b.definition.segments, seg.inputs ≠ [] ∧ seg.id = k ∧
      ∃ bs, b.inputs[k]? = some bs ∧ bs.map (·.declaration) = seg.inputs ∧
        l = bs.map (Compile.boundInput seg.name)
  inputs_ascending : Ascending x.inputs
  branches (segment : String) (low : BlockId) :
    (∃ branch, (segment, branch) ∈ x.branches ∧ Chain.first? branch.body = some low) ↔
      ¬ g.Forces x.block ∧ g.Nests x.block segment low
  branches_ascending : Ascending x.branches
  scope (low : BlockId) : x.scope.bind Chain.first? = some low ↔
    g.Forces x.block ∧ g.primaryNext x.block = .ok (some low)

/-- The calls of a chain follow one another as their blocks do. -/
structure ChainFaithful (g : Graph) (l : Chain) : Prop where
  ne_nil : l ≠ []
  follows {k : Nat} {x : Call} : l[k]? = some x → ∀ low, l[k + 1]?.map Call.block = some low ↔
    ¬ g.Forces x.block ∧ g.primaryNext x.block = .ok (some low)

/-- **A program that says what the graph says.** -/
structure Faithful (g : Graph) (p : Program) : Prop where
  /-- There is one chain for each root that is an entry, by id. -/
  entries : ∃ tops : List BlockId, p.entries.map Chain.first? = tops.map some ∧
    tops.Pairwise (· < ·) ∧ ∀ id, id ∈ tops ↔
      ∃ b, g.blocks[id]? = some b ∧ (∃ pos, b.placement = .root pos) ∧ b.definition.isEntry
  /-- No block is called twice. -/
  nodup : (p.calls.map Call.block).Nodup
  /-- The blocks called are those of the trees of the entries. -/
  covers (id : BlockId) : id ∈ p.calls.map Call.block ↔
    ∃ top b, g.blocks[top]? = some b ∧ (∃ pos, b.placement = .root pos) ∧
      b.definition.isEntry ∧ g.Under id top
  call {x : Call} : x ∈ p.calls → g.CallFaithful x
  chain {c : Chain} : c ∈ p.chains → g.ChainFaithful c

/-- Some calls are those of the blocks below some others, none of which was marked before. -/
structure Covered (g : Graph) (top : BlockId → Prop) (calls : List Call) (v w : TextSet) :
    Prop where
  faithful {x : Call} : x ∈ calls → g.CallFaithful x ∧ ∀ c ∈ x.bodies, g.ChainFaithful c
  nodup : (calls.map Call.block).Nodup
  fresh {y : BlockId} : y ∈ calls.map Call.block → y ∉ v
  marked (y : BlockId) : y ∈ w ↔ y ∈ v ∨ y ∈ calls.map Call.block
  under (y : BlockId) : y ∈ calls.map Call.block ↔ ∃ t, top t ∧ g.Under y t

variable {ok : Definition → Prop} {g : Graph} {b : Block} {id low : BlockId} {x : Call}
variable {c : Chain} {calls calls' : List Call} {top top' : BlockId → Prop} {u v w : TextSet}

/-! ## Covering -/

namespace Covered

theorem nil (v : TextSet) : g.Covered (fun _ => False) [] v v where
  faithful hx := absurd hx List.not_mem_nil
  nodup := List.nodup_nil
  fresh hy := absurd hy List.not_mem_nil
  marked y := by simp
  under y := by simp

theorem congr (C : g.Covered top calls v w) (ht : ∀ t, top t ↔ top' t) :
    g.Covered top' calls v w :=
  { C with under := fun y => by simpa only [← ht] using C.under y }

theorem perm (C : g.Covered top calls v w) (hp : calls'.Perm calls) :
    g.Covered top calls' v w where
  faithful hx := C.faithful (hp.mem_iff.mp hx)
  nodup := (hp.map _).nodup_iff.mpr C.nodup
  fresh hy := C.fresh ((hp.map _).mem_iff.mp hy)
  marked y := by rw [C.marked, (hp.map _).mem_iff]
  under y := by rw [← C.under, (hp.map _).mem_iff]

/-- Calls compiled one after another share no block. -/
theorem append (C : g.Covered top calls v u) (C' : g.Covered top' calls' u w) :
    g.Covered (fun t => top t ∨ top' t) (calls ++ calls') v w where
  faithful hx := (List.mem_append.mp hx).elim C.faithful C'.faithful
  nodup := by
    rw [List.map_append]
    refine C.nodup.append C'.nodup fun y hy hy' => C'.fresh hy' ((C.marked y).mpr (.inr hy))
  fresh {y} hy := by
    rw [List.map_append, List.mem_append] at hy
    rcases hy with hy | hy
    · exact C.fresh hy
    · exact fun hv => C'.fresh hy ((C.marked y).mpr (.inl hv))
  marked y := by
    rw [C'.marked, C.marked, List.map_append, List.mem_append]
    tauto
  under y := by
    rw [List.map_append, List.mem_append, C.under, C'.under]
    constructor
    · rintro (⟨t, ht, hu⟩ | ⟨t, ht, hu⟩)
      · exact ⟨t, .inl ht, hu⟩
      · exact ⟨t, .inr ht, hu⟩
    · rintro ⟨t, ht | ht, hu⟩
      · exact .inl ⟨t, ht, hu⟩
      · exact .inr ⟨t, ht, hu⟩

/-- A call above the calls of all that hangs from its block. -/
theorem cons (hx : g.CallFaithful x) (hbodies : ∀ c ∈ x.bodies, g.ChainFaithful c)
    (hno : x.block ∉ v) (C : g.Covered top calls (v.insert x.block) w)
    (htop : ∀ t, top t ↔ g.HangsFrom t x.block) :
    g.Covered (· = x.block) (x :: calls) v w where
  faithful {y} hy := by
    rcases List.mem_cons.mp hy with rfl | hy
    · exact ⟨hx, hbodies⟩
    · exact C.faithful hy
  nodup := List.nodup_cons.mpr
    ⟨fun hm => C.fresh hm (TextSet.mem_insert.mpr (.inl rfl)), C.nodup⟩
  fresh {y} hy := by
    rw [List.map_cons, List.mem_cons] at hy
    rcases hy with rfl | hy
    · exact hno
    · exact fun hv => C.fresh hy (TextSet.mem_insert.mpr (.inr hv))
  marked y := by
    rw [C.marked, TextSet.mem_insert, List.map_cons, List.mem_cons, eq_comm (a := y)]
    tauto
  under y := by
    rw [List.map_cons, List.mem_cons, C.under]
    constructor
    · rintro (rfl | ⟨t, ht, hu⟩)
      · exact ⟨_, rfl, .refl⟩
      · exact ⟨_, rfl, hu.tail ((htop t).mp ht)⟩
    · rintro ⟨_, rfl, hu⟩
      rcases ReflTransGen.cases_tail hu with he | ⟨t, hu, hh⟩
      · exact .inl he.symm
      · exact .inr ⟨t, (htop t).mpr hh, hu⟩

end Covered

/-! ## What hangs from a block -/

theorem SnapKind.isNotch_iff {k : SnapKind} :
    k.isNotch ↔ k = .primaryNotch ∨ k = .secondaryNotch := by
  cases k <;> simp [SnapKind.isNotch]

/-- From a block of a well-formed definition hangs the next block of its chain, and what nests. -/
theorem Sound.hangsFrom_iff_next (S : g.Sound Definition.WellFormed) :
    g.HangsFrom low id ↔ g.primaryNext id = .ok (some low) ∨ ∃ segment, g.Nests id segment low := by
  constructor
  · intro hh
    obtain ⟨n, d, hl, hn, hd⟩ := S.hangsFrom_iff.mp hh
    obtain ⟨p, q, hp, hq, hnext, _, hk, _⟩ := S.ends hl
    obtain ⟨b, hb, s, hs, rfl, hfresh⟩ := S.snap_of hp
    cases (owner_of_getElem? hp).symm.trans hn
    cases (owner_of_getElem? hq).symm.trans hd
    rcases SnapKind.isNotch_iff.mp hk with hk | hk
    · have hpn := S.primaryNotch_of_snap hp hk hb (S.defined hb)
      exact .inl (primaryNext_eq_some.mpr ⟨b, _, p, d, q, hb, hpn, hp, hnext, hq, rfl⟩)
    · have hsk : s.kind = .secondaryNotch := (congrArg SnapPoint.kind hfresh).symm.trans hk
      exact .inr ⟨s.segmentId, b, s, p, d, hb, hs, hsk, rfl, hp, hnext, hd⟩
  · rintro (hnext | ⟨_, b, s, p, d, hb, hs, _, _, hp, hd, hlow⟩)
    · exact S.hangsFrom_of_primaryNext hnext
    · refine S.hangsFrom_iff.mpr ⟨_, d, ⟨p, hp, hd⟩, owner_eq_ok.mpr ⟨p, hp, ?_⟩, hlow⟩
      exact (S.snap_at_eq hb hs hp).1

theorem linkedScopes_cons_of_linked {n d : SnapId} {p : SnapPoint} {rest : List SnapId}
    {sc : List (String × SnapId)} (hp : g.snaps[n]? = some p) (hk : p.kind = .secondaryNotch)
    (hnext : p.next = some d) (hrest : Compile.linkedScopes g rest = .ok sc) :
    Compile.linkedScopes g (n :: rest) = .ok ((p.segmentId, d) :: sc) := by
  rw [Compile.linkedScopes]
  simp only [snap_of_getElem? hp, hrest, bind, Except.bind, hk, hnext]
  rfl

theorem linkedScopes_cons_of_free {n : SnapId} {p : SnapPoint} {rest : List SnapId}
    {sc : List (String × SnapId)} (hp : g.snaps[n]? = some p)
    (hfree : p.kind = .secondaryNotch → p.next = none)
    (hrest : Compile.linkedScopes g rest = .ok sc) :
    Compile.linkedScopes g (n :: rest) = .ok sc := by
  rw [Compile.linkedScopes]
  simp only [snap_of_getElem? hp, hrest, bind, Except.bind]
  split
  next hk hnext => cases (hfree hk).symm.trans hnext
  next => rfl

/-- What a list of divots says of the notches among some slots of a block: it has those that hang
from the notches, one for each, by segment and in order. -/
structure Hanging (g : Graph) (id : BlockId) (l : List Slot) (sc : List (String × SnapId)) :
    Prop where
  sublist : (sc.map (·.1)).Sublist ((l.filter (·.kind = .secondaryNotch)).map (·.segmentId))
  mem_iff {e : String × SnapId} : e ∈ sc ↔ ∃ s ∈ l, s.kind = .secondaryNotch ∧
    s.segmentId = e.1 ∧ ∃ p, g.snaps[s.snapId id]? = some p ∧ p.next = some e.2

namespace Hanging

variable {s : Slot} {l : List Slot} {sc : List (String × SnapId)} {p : SnapPoint} {d : SnapId}

theorem cons_of_free (h : g.Hanging id l sc) (hp : g.snaps[s.snapId id]? = some p)
    (hfree : s.kind = .secondaryNotch → p.next = none) : g.Hanging id (s :: l) sc where
  sublist := h.sublist.trans (((List.sublist_cons_self s l).filter _).map _)
  mem_iff {e} := by
    rw [h.mem_iff]
    simp only [List.mem_cons, exists_eq_or_imp, hp, Option.some.injEq, exists_eq_left']
    refine (or_iff_right ?_).symm
    rintro ⟨hk, _, hnext⟩
    cases (hfree hk).symm.trans hnext

theorem cons_of_linked (h : g.Hanging id l sc) (hp : g.snaps[s.snapId id]? = some p)
    (hk : s.kind = .secondaryNotch) (hnext : p.next = some d) :
    g.Hanging id (s :: l) ((s.segmentId, d) :: sc) where
  sublist := by
    rw [List.filter_cons_of_pos (by simpa using hk)]
    exact h.sublist.cons_cons _
  mem_iff {e} := by
    rw [List.mem_cons, h.mem_iff]
    simp only [List.mem_cons, exists_eq_or_imp, hp, Option.some.injEq, exists_eq_left', hk, hnext,
      true_and]
    refine or_congr_left ?_
    rw [Prod.ext_iff, eq_comm (a := e.1), eq_comm (a := e.2)]

/-- No two of the divots are in one segment. -/
theorem nodup (h : g.Hanging id b.definition.slots sc) (hc : b.definition.Coherent) :
    (sc.map (·.1)).Nodup := h.sublist.nodup hc.nests_nodup

theorem nests_iff (h : g.Hanging id b.definition.slots sc) (hb : g.blocks[id]? = some b)
    {segment : String} : g.Nests id segment low ↔ ∃ d, (segment, d) ∈ sc ∧ g.owner d = .ok low := by
  constructor
  · rintro ⟨c, s, p, d, hc, hs, hk, hseg, hp, hd, hlow⟩
    cases hb.symm.trans hc
    exact ⟨d, h.mem_iff.mpr ⟨s, hs, hk, hseg, p, hp, hd⟩, hlow⟩
  · rintro ⟨d, hm, hlow⟩
    obtain ⟨s, hs, hk, hseg, p, hp, hd⟩ := h.mem_iff.mp hm
    exact ⟨b, s, p, d, hb, hs, hk, hseg, hp, hd, hlow⟩

end Hanging

theorem Stocked.linkedScopes_eq (H : g.Stocked) (hb : g.blocks[id]? = some b) {l : List Slot}
    (hl : ∀ s ∈ l, s ∈ b.definition.slots) :
    ∃ sc, Compile.linkedScopes g (l.map (·.snapId id)) = .ok sc ∧ g.Hanging id l sc := by
  induction l with
  | nil => exact ⟨[], rfl, .slnil, by simp⟩
  | cons s rest ih =>
    have hs := hl s List.mem_cons_self
    obtain ⟨p, hp, _⟩ := H.snap_at hb hs
    obtain ⟨_, hk, hseg, _⟩ := H.snap_at_eq hb hs hp
    obtain ⟨sc, hsc, hhang⟩ := ih fun t ht => hl t (.tail _ ht)
    by_cases hlinked : s.kind = .secondaryNotch ∧ p.next.isSome
    · obtain ⟨hks, hsome⟩ := hlinked
      obtain ⟨d, hnext⟩ := Option.isSome_iff_exists.mp hsome
      exact ⟨_, linkedScopes_cons_of_linked hp (hk.trans hks) hnext hsc,
        hseg ▸ hhang.cons_of_linked hp hks hnext⟩
    · have hfree : s.kind = .secondaryNotch → p.next = none := by simpa using hlinked
      exact ⟨sc, linkedScopes_cons_of_free hp (fun h => hfree (hk.symm.trans h)) hsc,
        hhang.cons_of_free hp hfree⟩

/-! ## Calls, branches and chains -/

theorem ChainFaithful.cons {r : Chain} (hr : r = [] ∨ g.ChainFaithful r)
    (hnext : ∀ low, Chain.first? r = some low ↔
      ¬ g.Forces x.block ∧ g.primaryNext x.block = .ok (some low)) :
    g.ChainFaithful (x :: r) where
  ne_nil := List.cons_ne_nil _ _
  follows {k y} hy low := by
    cases k with
    | zero =>
      obtain rfl : x = y := by simpa using hy
      rw [← hnext, Chain.first?, List.head?_eq_getElem?, List.getElem?_cons_succ]
    | succ k =>
      rcases hr with rfl | hr
      · simp at hy
      · exact hr.follows (by simpa using hy) low

/-- A chain that is compiled from a block on. -/
structure Compiled (g : Graph) (id : BlockId) (c : Chain) (v w : TextSet) : Prop where
  covered : g.Covered (· = id) (Chain.calls c) v w
  faithful : g.ChainFaithful c
  first : Chain.first? c = some id

/-- The chains in a block, one for each notch from which something hangs. -/
theorem branchList_run {compile : BlockId → Compile.Step Chain} {sc : List (String × SnapId)}
    {bs : List (String × Branch)}
    (hcompile : ∀ {low v c w}, (compile low).run v = .ok (c, w) → g.Compiled low c v w)
    (h : (Compile.branchList g b compile sc).run v = .ok (bs, w)) :
    bs.map (·.1) = sc.map (·.1) ∧ (∀ p ∈ bs, g.ChainFaithful p.2.body) ∧
      (∀ segment low, (∃ branch, (segment, branch) ∈ bs ∧ Chain.first? branch.body = some low) ↔
        ∃ d, (segment, d) ∈ sc ∧ g.owner d = .ok low) ∧
      g.Covered (fun t => ∃ segment d, (segment, d) ∈ sc ∧ g.owner d = .ok t) (Branch.calls bs)
        v w := by
  induction sc generalizing bs v with
  | nil =>
    obtain ⟨rfl, rfl⟩ := Compile.run_pure_eq_ok h
    exact ⟨rfl, by simp, by simp, (Covered.nil v).congr fun t => by simp⟩
  | cons e rest ih =>
    obtain ⟨segment, d⟩ := e
    obtain ⟨low, u, hask, h⟩ := Compile.run_bind_eq_ok h
    obtain ⟨hlow, rfl⟩ := Compile.run_ask_eq_ok hask
    obtain ⟨body, u', hbody, h⟩ := Compile.run_bind_eq_ok h
    obtain ⟨others, w', hothers, h⟩ := Compile.run_bind_eq_ok h
    obtain ⟨rfl, rfl⟩ := Compile.run_pure_eq_ok h
    obtain ⟨hcover, hfaithful, hfirst⟩ := hcompile hbody
    obtain ⟨hkeys, hbodies, hheads, hrest⟩ := ih hothers
    refine ⟨by simp [hkeys], ?_, ?_, ?_⟩
    · intro p hp
      rcases List.mem_cons.mp hp with rfl | hp
      · exact hfaithful
      · exact hbodies p hp
    · intro seg t
      simp only [List.mem_cons, or_and_right, exists_or, Prod.mk.injEq, and_assoc,
        exists_and_left, exists_eq_left, hheads]
      refine or_congr_left (and_congr_right fun _ => ?_)
      rw [hfirst, hlow]
      simp
    · rw [Branch.calls_eq_flatMap, List.flatMap_cons, ← Branch.calls_eq_flatMap]
      refine (hcover.append hrest).congr fun t => ?_
      simp only [List.mem_cons, Prod.mk.injEq, or_and_right, exists_or, and_assoc,
        exists_and_left, exists_eq_left, hlow]
      simp [eq_comm]

/-- The branches of a block, put in the order of their segments. -/
theorem Sound.branches_run (S : g.Sound Definition.WellFormed) (hb : g.blocks[id]? = some b)
    {compile : BlockId → Compile.Step Chain} {sc : List (String × SnapId)}
    {bs : List (String × Branch)}
    (hhang : g.Hanging id b.definition.slots sc)
    (hcompile : ∀ {low v c w}, (compile low).run v = .ok (c, w) → g.Compiled low c v w)
    (h : (Compile.branchList g b compile sc).run v = .ok (bs, w)) :
    (∀ p ∈ Compile.bySegment bs, g.ChainFaithful p.2.body) ∧
      (∀ segment low, (∃ branch, (segment, branch) ∈ Compile.bySegment bs ∧
        Chain.first? branch.body = some low) ↔ g.Nests id segment low) ∧
      g.Covered (fun t => ∃ segment, g.Nests id segment t)
        (Branch.calls (Compile.bySegment bs)) v w := by
  obtain ⟨hkeys, hbodies, hheads, hcover⟩ := branchList_run hcompile h
  have hperm := Compile.bySegment_perm (hkeys ▸ hhang.nodup (S.defined hb).toCoherent)
  have hcalls : (Branch.calls (Compile.bySegment bs)).Perm (Branch.calls bs) := by
    rw [Branch.calls_eq_flatMap, Branch.calls_eq_flatMap]
    exact hperm.flatMap_right _
  refine ⟨fun p hp => hbodies p (hperm.mem_iff.mp hp), fun segment low => ?_, ?_⟩
  · rw [hhang.nests_iff hb, ← hheads]
    simp only [hperm.mem_iff]
  · refine (hcover.perm hcalls).congr fun t => exists_congr fun segment => ?_
    exact (hhang.nests_iff hb).symm

/-- What a compilation of a block says of the block itself, whatever hangs from it. -/
theorem Sound.callFaithful (S : g.Sound Definition.WellFormed) (hb : g.blocks[id]? = some b)
    {bs : List (String × Branch)} {scope : Option Chain}
    (hbranches : ∀ segment low,
      (∃ branch, (segment, branch) ∈ bs ∧ Chain.first? branch.body = some low) ↔
        ¬ g.Forces id ∧ g.Nests id segment low)
    (hascending : Ascending bs)
    (hscope : ∀ low, scope.bind Chain.first? = some low ↔
      g.Forces id ∧ g.primaryNext id = .ok (some low)) :
    g.CallFaithful (.mk b.name id (Compile.boundInputs b) bs scope) where
  target := ⟨b, hb, rfl⟩
  inputs {c} hc k l := by
    cases hb.symm.trans hc
    exact (S.filled hb).mem_boundInputs (S.defined hb).toCoherent
  inputs_ascending := Compile.boundInputs_ascending b
  branches := hbranches
  branches_ascending := hascending
  scope := hscope

/-- The chain that follows a block, if one does. -/
structure Continued (g : Graph) (id : BlockId) (r : Chain) (v w : TextSet) : Prop where
  covered : g.Covered (fun t => g.primaryNext id = .ok (some t)) (Chain.calls r) v w
  faithful : r = [] ∨ g.ChainFaithful r
  first (low : BlockId) : Chain.first? r = some low ↔ g.primaryNext id = .ok (some low)

theorem Continued.none (hn : g.primaryNext id = .ok none) (v : TextSet) :
    g.Continued id [] v v where
  covered := (Covered.nil v).congr fun t => by simp [hn]
  faithful := .inl rfl
  first low := by simp [hn, Chain.first?]

theorem Continued.some {r : Chain} (hn : g.primaryNext id = .ok (some low))
    (hr : g.Compiled low r v w) : g.Continued id r v w where
  covered := hr.covered.congr fun t => by simp [hn, eq_comm]
  faithful := .inr hr.faithful
  first t := by rw [hr.first, hn]; simp

/-- A block whose continuation is its body has one call, with what follows as the scope. -/
theorem Sound.forced_call (S : g.Sound Definition.WellFormed) (hb : g.blocks[id]? = some b)
    (hnew : id ∉ v) (hforce : g.Forces id) (hnest : ∀ segment low, ¬ g.Nests id segment low)
    {r : Chain} (hr : g.Continued id r (v.insert id) w) {scope : Option Chain}
    (hscope : scope = none ∧ r = [] ∨ scope = some r ∧ g.ChainFaithful r) :
    let x := Call.mk b.name id (Compile.boundInputs b) [] scope
    g.Compiled id [x] v w := by
  intro x
  have hcalls : Scope.calls scope = Chain.calls r := by
    rcases hscope with ⟨rfl, rfl⟩ | ⟨rfl, _⟩ <;> simp
  have hfirst : scope.bind Chain.first? = Chain.first? r := by
    rcases hscope with ⟨rfl, rfl⟩ | ⟨rfl, _⟩ <;> rfl
  have hbodies : ∀ c ∈ x.bodies, g.ChainFaithful c := by
    rcases hscope with ⟨rfl, rfl⟩ | ⟨rfl, hf⟩
    · exact fun c hc => absurd hc List.not_mem_nil
    · exact fun c hc => List.mem_singleton.mp hc ▸ hf
  have hx : g.CallFaithful x := S.callFaithful hb (by simp [hforce]) .nil fun low => by
    rw [hfirst, hr.first]
    simp [hforce]
  refine ⟨?_, .cons (.inl rfl) fun low => by simp [Chain.first?, x, hforce], rfl⟩
  rw [Chain.calls_cons, Chain.calls_nil, List.append_nil, Call.calls_eq]
  have hcover : g.Covered (fun t => g.primaryNext id = .ok (some t))
      (Branch.calls x.branches ++ Scope.calls x.scope) (v.insert id) w := by
    simpa [x, Branch.calls_eq_flatMap, hcalls] using hr.covered
  refine .cons hx hbodies hnew hcover fun t => ?_
  rw [S.hangsFrom_iff_next]
  simp [x, hnest]

/-- Any other block has a call with what nests in it as branches, and what follows comes after. -/
theorem Sound.free_call (S : g.Sound Definition.WellFormed) (hb : g.blocks[id]? = some b)
    (hnew : id ∉ v) (hforce : ¬ g.Forces id) {bs : List (String × Branch)}
    (hbodies : ∀ p ∈ bs, g.ChainFaithful p.2.body) (hascending : Ascending bs)
    (hheads : ∀ segment low, (∃ branch, (segment, branch) ∈ bs ∧
      Chain.first? branch.body = some low) ↔ g.Nests id segment low)
    (hcover : g.Covered (fun t => ∃ segment, g.Nests id segment t) (Branch.calls bs)
      (v.insert id) u)
    {r : Chain} (hr : g.Continued id r u w) :
    let x := Call.mk b.name id (Compile.boundInputs b) bs none
    g.Compiled id (x :: r) v w := by
  intro x
  have hx : g.CallFaithful x := S.callFaithful hb (by simp [hforce, hheads]) hascending
    fun low => by simp [hforce]
  refine ⟨?_, .cons hr.faithful fun low => by simp [hr.first, x, hforce], rfl⟩
  rw [Chain.calls_cons, Call.calls_eq, List.cons_append]
  have hcover : g.Covered (fun t => (∃ segment, g.Nests id segment t) ∨
      g.primaryNext id = .ok (some t)) (Branch.calls x.branches ++ Scope.calls x.scope ++
        Chain.calls r) (v.insert id) w := by
    simpa [x] using hcover.append hr.covered
  refine .cons hx (fun c hc => ?_) hnew hcover fun t => ?_
  · obtain ⟨p, hp, rfl⟩ : ∃ p ∈ bs, p.2.body = c := by simpa [x, Call.bodies] using hc
    exact hbodies p hp
  · rw [S.hangsFrom_iff_next, or_comm]
    exact .rfl

/-- **What a chain compiles to.** -/
theorem Sound.chainFrom_run (S : g.Sound Definition.WellFormed) {room : Nat} {start : BlockId}
    (h : (Compile.chainFrom g room start id).run v = .ok (c, w)) : g.Compiled id c v w := by
  induction room generalizing start id v c w with
  | zero =>
    obtain ⟨_, _, _, h⟩ := Compile.run_bind_eq_ok h
    obtain ⟨_, _, _, h⟩ := Compile.run_bind_eq_ok h
    cases h
  | succ room ih =>
    obtain ⟨_, _, hvisit, h⟩ := Compile.run_bind_eq_ok h
    obtain ⟨hnew, rfl⟩ := Compile.run_visit_eq_ok hvisit
    obtain ⟨b, _, hask, h⟩ := Compile.run_bind_eq_ok h
    obtain ⟨hb, rfl⟩ := Compile.run_ask_eq_ok hask
    rw [block_eq_ok] at hb
    obtain ⟨sc, _, hask, h⟩ := Compile.run_bind_eq_ok h
    obtain ⟨hsc, rfl⟩ := Compile.run_ask_eq_ok hask
    obtain ⟨sc', hsc', hhang⟩ := S.linkedScopes_eq hb fun _ hs => hs
    rw [Block.snapPoints, S.block_id hb] at hsc
    cases hsc.symm.trans hsc'
    split at h
    next hforce =>
      have hforce := (forces_iff hb).mpr hforce
      split at h
      · cases h
      have hnest : ∀ segment low, ¬ g.Nests id segment low := fun segment low hn => by
        obtain ⟨d, hd, _⟩ := (hhang.nests_iff hb).mp hn
        exact List.not_mem_nil hd
      obtain ⟨next, _, hask, h⟩ := Compile.run_bind_eq_ok h
      obtain ⟨hnext, rfl⟩ := Compile.run_ask_eq_ok hask
      cases next with
      | none =>
        obtain ⟨rfl, rfl⟩ := Compile.run_pure_eq_ok h
        exact S.forced_call hb hnew hforce hnest (.none hnext _) (.inl ⟨rfl, rfl⟩)
      | some low =>
        obtain ⟨body, _, hbody, h⟩ := Compile.run_bind_eq_ok h
        obtain ⟨rfl, rfl⟩ := Compile.run_pure_eq_ok h
        exact S.forced_call hb hnew hforce hnest (.some hnext (ih hbody))
          (.inr ⟨rfl, (ih hbody).faithful⟩)
    next hfree =>
      have hfree := fun hf => hfree ((forces_iff hb).mp hf)
      obtain ⟨bs, u, hbranches, h⟩ := Compile.run_bind_eq_ok h
      obtain ⟨hbodies, hheads, hcover⟩ := S.branches_run hb hhang ih hbranches
      obtain ⟨next, _, hask, h⟩ := Compile.run_bind_eq_ok h
      obtain ⟨hnext, rfl⟩ := Compile.run_ask_eq_ok hask
      cases next with
      | none =>
        obtain ⟨rfl, rfl⟩ := Compile.run_pure_eq_ok h
        exact S.free_call hb hnew hfree hbodies (Compile.bySegment_ascending bs) hheads hcover
          (.none hnext _)
      | some low =>
        obtain ⟨rest, _, hrest, h⟩ := Compile.run_bind_eq_ok h
        obtain ⟨rfl, rfl⟩ := Compile.run_pure_eq_ok h
        exact S.free_call hb hnew hfree hbodies (Compile.bySegment_ascending bs) hheads hcover
          (.some hnext (ih hrest))

/-- A chain that is compiled on its own. -/
theorem Sound.compileChain_eq_ok (S : g.Sound Definition.WellFormed) {p : Program}
    (hp : g.compileChain id = .ok p) : ∃ c w, p = ⟨[c]⟩ ∧ g.Compiled id c ∅ w := by
  unfold compileChain at hp
  cases hrun : (Compile.chain g id).run ∅ with
  | error e => simp [hrun, bind, Except.bind] at hp
  | ok r =>
    refine ⟨r.1, r.2, ?_, S.chainFrom_run hrun⟩
    simpa [hrun, bind, Except.bind, pure, Except.pure] using hp.symm

/-- Chains compiled one after another. -/
theorem Sound.chains_run (S : g.Sound Definition.WellFormed) {roots : List BlockId}
    {cs : List Chain} (h : (Compile.chains g roots).run v = .ok (cs, w)) :
    cs.map Chain.first? = roots.map some ∧ (∀ c ∈ cs, g.ChainFaithful c) ∧
      g.Covered (· ∈ roots) (cs.flatMap Chain.calls) v w := by
  induction roots generalizing cs v with
  | nil =>
    obtain ⟨rfl, rfl⟩ := Compile.run_pure_eq_ok h
    exact ⟨rfl, by simp, (Covered.nil v).congr fun t => by simp⟩
  | cons root rest ih =>
    obtain ⟨c, u, hc, h⟩ := Compile.run_bind_eq_ok h
    obtain ⟨others, _, hothers, h⟩ := Compile.run_bind_eq_ok h
    obtain ⟨rfl, rfl⟩ := Compile.run_pure_eq_ok h
    obtain ⟨hcover, hfaithful, hfirst⟩ := S.chainFrom_run hc
    obtain ⟨hheads, hchains, hrest⟩ := ih hothers
    refine ⟨by simp [hfirst, hheads], ?_, ?_⟩
    · intro d hd
      rcases List.mem_cons.mp hd with rfl | hd
      · exact hfaithful
      · exact hchains d hd
    · rw [List.flatMap_cons]
      exact (hcover.append hrest).congr fun t => List.mem_cons.symm

theorem Stocked.entries_eq (H : g.Stocked) : g.entries =
    (g.blocks.toList.filter fun p => p.2.definition.isEntry && p.2.isRoot).map (·.1) := by
  unfold entries roots blockList
  rw [List.filter_map, List.filter_map, List.filter_filter, List.map_map]
  refine List.map_congr_left fun p hp => ?_
  exact H.block_id (Table.mem_toList.mp (List.mem_filter.mp hp).1)

theorem Stocked.entries_ascending (H : g.Stocked) : g.entries.Pairwise (· < ·) := by
  rw [H.entries_eq, List.pairwise_map]
  exact Table.toList_ascending.filter _

theorem Stocked.mem_entries (H : g.Stocked) : id ∈ g.entries ↔
    ∃ b, g.blocks[id]? = some b ∧ (∃ pos, b.placement = .root pos) ∧ b.definition.isEntry := by
  rw [H.entries_eq, List.mem_map]
  constructor
  · rintro ⟨p, hp, rfl⟩
    obtain ⟨hp, hroot⟩ := List.mem_filter.mp hp
    rw [Bool.and_eq_true, Block.isRoot_iff] at hroot
    exact ⟨p.2, Table.mem_toList.mp hp, hroot.2, hroot.1⟩
  · rintro ⟨b, hb, hroot, hentry⟩
    refine ⟨(id, b), List.mem_filter.mpr ⟨Table.mem_toList.mpr hb, ?_⟩, rfl⟩
    rw [Bool.and_eq_true, Block.isRoot_iff]
    exact ⟨hentry, hroot⟩

/-- **Compilation.** In every session, what a graph compiles to says what the graph says. -/
theorem Reachable.compile_faithful (hg : Reachable Definition.WellFormed g) {p : Program}
    (hp : g.compile = .ok p) : g.Faithful p := by
  have S := hg.sound fun _ hd => hd.toCoherent
  obtain ⟨⟨chains, w⟩, hrun, rfl⟩ : ∃ r, (Compile.chains g g.entries).run ∅ = .ok r ∧
      ⟨r.1⟩ = p := by
    unfold compile at hp
    split at hp
    · cases hp
    cases hrun : (Compile.chains g g.entries).run ∅ with
    | error e => simp [hrun, bind, Except.bind] at hp
    | ok r =>
      exact ⟨r, rfl, by simpa [hrun, bind, Except.bind, pure, Except.pure] using hp⟩
  obtain ⟨hheads, hchains, hcover⟩ := S.chains_run hrun
  refine ⟨⟨g.entries, hheads, S.entries_ascending, fun id => S.mem_entries⟩, hcover.nodup,
    fun id => ?_, fun hx => (hcover.faithful hx).1, fun {c} hc => ?_⟩
  · refine (hcover.under id).trans (exists_congr fun top => ?_)
    rw [S.mem_entries]
    tauto
  · rcases List.mem_append.mp hc with hc | hc
    · exact hchains c hc
    · obtain ⟨x, hx, hc⟩ := List.mem_flatMap.mp hc
      exact (hcover.faithful hx).2 c hc

theorem compile_faithful_nestedGraph : ∃ p, Document.nestedGraph.compile = .ok p ∧
    p.calls.map Call.block = ["a", "b", "c"] ∧ Document.nestedGraph.Faithful p := by
  have hcalls : (Document.nestedGraph.compile.toOption.map fun p => p.calls.map Call.block) =
      some ["a", "b", "c"] := by decide +kernel
  obtain ⟨p, hp, hblocks⟩ := Option.map_eq_some_iff.mp hcalls
  have hok : Document.nestedGraph.compile = .ok p := by
    cases he : Document.nestedGraph.compile with
    | error e => rw [he] at hp; cases hp
    | ok q => rw [he] at hp; exact congrArg Except.ok (Option.some.inj hp)
  exact ⟨p, hok, hblocks, Reachable.compile_faithful Document.reachable_nestedGraph hok⟩

end Graph

end SnapBlocks

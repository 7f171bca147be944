import SnapBlocks.Proofs.Compilation
import SnapBlocks.Proofs.ProgramText

/-! How deep the texts of programs nest. A call that nests in another takes up to five levels of a
text, and its block stands below that of the other; so the number of blocks that may hang in a row
bounds how deep a text nests. By default more blocks may hang in a row than a text has levels for,
and a text that nests too deep is not read back. -/

namespace SnapBlocks

open Json

variable {x y : Call} {c : Chain} {p : Program} {k : Nat}

theorem BoundInput.depth_toJson (i : BoundInput) : i.toJson.depth = 1 := by
  simp [BoundInput.toJson, depth, membersDepth, depth_ofText?]

theorem Call.depth_inputsJson (l : List (String × List BoundInput)) :
    (Call.inputsJson l).depth ≤ 3 := by
  refine depth_obj_le.mpr fun p hp => ?_
  obtain ⟨q, _, rfl⟩ := List.mem_map.mp hp
  exact depth_ofList_le.mpr fun i _ => i.depth_toJson.le

theorem Chain.depth_toJson_le : (Chain.toJson c).depth ≤ k + 2 ↔ ∀ y ∈ c, y.toJson.depth ≤ k := by
  rw [Chain.toJson_eq, depth_obj_le, List.forall_mem_singleton, depth_ofList_le]

theorem Branch.depth_toJson_le {b : Branch} (h : (Chain.toJson b.body).depth ≤ k) :
    b.toJson.depth ≤ k + 1 := by
  refine depth_obj_le.mpr (List.forall_mem_cons.mpr ⟨?_, List.forall_mem_singleton.mpr h⟩)
  rw [depth_str]
  exact Nat.zero_le k

/-- A call takes up to five levels more than the calls in its bodies. -/
theorem Call.depth_toJson_le (hne : ∀ c ∈ x.bodies, c ≠ [])
    (h : ∀ c ∈ x.bodies, ∀ y ∈ c, y.toJson.depth < k) : x.toJson.depth ≤ k + 4 := by
  have hbody {c : Chain} (hc : c ∈ x.bodies) : (Chain.toJson c).depth ≤ k + 1 := by
    obtain ⟨y, hy⟩ := List.exists_mem_of_ne_nil c (hne c hc)
    obtain ⟨k, rfl⟩ := Nat.exists_eq_succ_of_ne_zero (Nat.ne_zero_of_lt (h c hc y hy))
    exact Chain.depth_toJson_le.mpr fun y hy => Nat.le_of_lt_succ (h c hc y hy)
  have hbranch {p : String × Branch} (hp : p ∈ x.branches) : (Branch.toJson p.2).depth ≤ k + 2 :=
    Branch.depth_toJson_le (hbody (List.mem_append_left _ (List.mem_map_of_mem hp)))
  rw [Call.toJson_eq]
  refine depth_obj_le.mpr ?_
  simp only [List.forall_mem_cons, List.forall_mem_append, depth_str, Nat.zero_le, true_and]
  refine ⟨(Call.depth_inputsJson _).trans (Nat.le_add_left 3 k), fun p hp => ?_, fun p hp => ?_⟩
  · cases hbs : x.branches with
    | nil => rw [hbs] at hp; cases hp
    | cons q rest =>
      rw [hbs] at hp
      cases List.mem_singleton.mp hp
      rw [Branch.toMembers_eq_map, ← hbs]
      refine depth_obj_le.mpr (List.forall_mem_map.mpr fun r hr => hbranch hr)
  · cases hs : x.scope with
    | none => rw [hs, Scope.toMembers] at hp; cases hp
    | some c =>
      rw [hs, Scope.toMembers] at hp
      cases List.mem_singleton.mp hp
      have hc : c ∈ x.bodies := List.mem_append_right _ (hs ▸ List.mem_singleton_self c)
      exact (hbody hc).trans (Nat.le_add_right _ 2)

theorem Program.depth_toJson_le (h : ∀ c ∈ p.entries, ∀ y ∈ c, y.toJson.depth ≤ k) :
    p.toJson.depth ≤ k + 4 := by
  refine depth_obj_le.mpr (List.forall_mem_singleton.mpr (depth_ofList_le.mpr fun c hc => ?_))
  exact Chain.depth_toJson_le.mpr (h c hc)

namespace Graph

variable {g : Graph} {id low root : BlockId} {j : Nat}

/-- Blocks further on in a chain stand deeper. -/
theorem ChainFaithful.exists_depth {l : Chain} (hl : g.ChainFaithful l) (H : g.Simple)
    (hfirst : Chain.first? l = some id) (hk : g.DepthOf id k) (hy : y ∈ l) :
    ∃ j, k ≤ j ∧ g.DepthOf y.block j := by
  obtain ⟨i, hi⟩ := List.mem_iff_getElem?.mp hy
  clear hy
  induction i generalizing y with
  | zero =>
    rw [← List.head?_eq_getElem?] at hi
    rw [Chain.first?, hi] at hfirst
    exact ⟨k, Nat.le_refl k, Option.some.inj hfirst ▸ hk⟩
  | succ i ih =>
    have hlt := (List.getElem?_eq_some_iff.mp hi).1
    have hx : l[i]? = some l[i] := List.getElem?_eq_getElem (Nat.lt_of_succ_lt hlt)
    obtain ⟨j, hle, hj⟩ := ih hx
    have hnext := ((hl.follows hx y.block).mp (by rw [hi]; rfl)).2
    exact ⟨j + 1, Nat.le_succ_of_le hle, .hang (H.hangsFrom_of_primaryNext hnext) hj⟩

/-- What a chain in a call starts with hangs from the block of the call. -/
theorem CallFaithful.exists_first (hx : g.CallFaithful x) (S : g.Sound Definition.WellFormed)
    (hc : c ∈ x.bodies) (hne : c ≠ []) :
    ∃ low, Chain.first? c = some low ∧ g.HangsFrom low x.block := by
  obtain ⟨y, rest, rfl⟩ := List.exists_cons_of_ne_nil hne
  refine ⟨y.block, rfl, S.hangsFrom_iff_next.mpr ?_⟩
  rcases List.mem_append.mp hc with hc | hc
  · obtain ⟨p, hp, hbody⟩ := List.mem_map.mp hc
    have hfirst : Chain.first? p.2.body = some y.block := by rw [hbody]; rfl
    exact .inr ⟨p.1, ((hx.branches p.1 y.block).mp ⟨p.2, hp, hfirst⟩).2⟩
  · have hscope : x.scope.bind Chain.first? = some y.block := by
      rw [Option.mem_toList.mp hc]
      rfl
    exact .inl ((hx.scope y.block).mp hscope).2

/-- The deeper a block stands, the less its call nests. -/
theorem Sound.depth_toJson_le (S : g.Sound Definition.WellFormed) (x : Call) :
    (∀ y ∈ x.calls, g.CallFaithful y ∧ ∀ c ∈ y.bodies, g.ChainFaithful c) →
      ∀ k, g.DepthOf x.block k → x.toJson.depth ≤ 5 * (max 1 g.config.maxChainHops - k) + 4 := by
  induction x using Call.induct with
  | h x ih =>
    intro hfaithful k hk
    obtain ⟨hx, hbodies⟩ := hfaithful x x.mem_calls_self
    refine Call.depth_toJson_le (fun c hc => (hbodies c hc).ne_nil) fun c hc y hy => ?_
    obtain ⟨low, hfirst, hhangs⟩ := hx.exists_first S hc (hbodies c hc).ne_nil
    obtain ⟨j, hle, hj⟩ := (hbodies c hc).exists_depth S.toSimple hfirst (.hang hhangs hk) hy
    have hdepth := ih c hc y hy ((Call.bodies_all hfaithful hc).call hy) j hj
    have hroom := S.depth_le hj
    omega

/-- **Reading back.** The text of a chain that is compiled from a graph gives the program back,
unless it nests too deep; then it is no program. It nests no deeper than five levels for each of
the blocks that may hang in a row. -/
structure ReadsBack (g : Graph) (p : Program) : Prop where
  ofText_toText : Program.ofText p.toText =
    if p.toJson.depth ≤ levels then .ok p else .error .malformed
  depth_le : p.toJson.depth ≤ 5 * max 1 g.config.maxChainHops + 3

theorem Reachable.readsBack (hg : Reachable Definition.WellFormed g)
    (hp : g.compileChain root = .ok p) : g.ReadsBack p := by
  have S := hg.sound fun _ hd => hd.toCoherent
  obtain ⟨c, w, rfl, hc⟩ := S.compileChain_eq_ok hp
  have hcalls : Program.calls ⟨[c]⟩ = Chain.calls c := List.append_nil _
  constructor
  case ofText_toText =>
    refine Program.ofText_toText fun x hx => ?_
    have hx := (hc.covered.faithful (hcalls ▸ hx)).1
    exact ⟨hx.inputs_ascending, hx.branches_ascending⟩
  case depth_le =>
    have hfaithful : Chain.All (fun y => g.CallFaithful y ∧ ∀ c ∈ y.bodies, g.ChainFaithful c) c :=
      fun y hy => hc.covered.faithful hy
    have hroot : root ∈ (Chain.calls c).map Call.block := (hc.covered.under root).mpr ⟨_, rfl, .refl⟩
    obtain ⟨x, hx, rfl⟩ := List.mem_map.mp hroot
    obtain ⟨b, hb, _⟩ := (hc.covered.faithful hx).1.target
    obtain ⟨k, hk, hle⟩ := S.depth (Table.mem_iff.mpr ⟨b, hb⟩)
    have hpos := hk.pos
    have hentry : ∀ d ∈ [c], ∀ y ∈ d,
        y.toJson.depth ≤ 5 * (max 1 g.config.maxChainHops - 1) + 4 := by
      intro d hd y hy
      cases List.mem_singleton.mp hd
      obtain ⟨j, hj, hdepth⟩ := hc.faithful.exists_depth S.toSimple hc.first hk hy
      have := S.depth_toJson_le y (hfaithful.call hy) j hdepth
      omega
    have := Program.depth_toJson_le (p := ⟨[c]⟩) hentry
    omega

theorem readsBack_nestedGraph : ∃ p, Document.nestedGraph.compileChain "a" = .ok p ∧
    p.calls.map Call.block = ["a", "b", "c"] ∧ Document.nestedGraph.ReadsBack p ∧
      Program.ofText p.toText = .ok p := by
  have hrun : ((Document.nestedGraph.compileChain "a").toOption.map fun p =>
      (p.calls.map Call.block, p.toJson.depth)) = some (["a", "b", "c"], 16) := by decide +kernel
  obtain ⟨p, hp, hcalls⟩ := Option.map_eq_some_iff.mp hrun
  obtain ⟨hblocks, hdepth⟩ := Prod.mk.inj hcalls
  have hok := except_eq_ok_of_toOption hp
  have hback := Reachable.readsBack Document.reachable_nestedGraph hok
  refine ⟨p, hok, hblocks, hback, ?_⟩
  rw [hback.ofText_toText, hdepth]
  exact if_pos (by decide)

end Graph

end SnapBlocks

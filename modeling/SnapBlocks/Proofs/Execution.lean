import SnapBlocks.Proofs.Compilation
import SnapBlocks.Proofs.Failures
import SnapBlocks.Proofs.Keeping

/-! Programs of the standard blocks run without failures. The blocks, what they compile to and the
functions that they call agree on the names of segments and on the number of inputs; so a call of
such a program gets the inputs that its function needs, and the only call that can fail is one
that writes a variable when none is bound. A session without hosts makes no calls but those of the
programs that it runs, and counts no failures but theirs, under every schedule. -/

namespace SnapBlocks

/-! ## What the standard blocks call -/

/-- A block of the standard catalog calls a built-in function, which finds the segments that it
needs by their names. -/
theorem Catalog.exists_builtin : ∀ d ∈ standardBlocks, (d.segments.map (·.name)).Nodup ∧
    ∃ b ∈ Builtin.all, d.name = b.name ∧ ∀ p ∈ b.needs, 0 < p.2 ∧
      ∃ seg ∈ d.segments, seg.name = p.1 ∧ seg.inputs.length = p.2 := by decide

/-- The variable to write is an input of the block that writes one. -/
theorem Catalog.exists_variable : ∀ d ∈ standardBlocks, d.name = "setVariableTo" →
    ∀ seg ∈ d.segments, seg.name = "setVariableTo" →
      (∃ i ∈ seg.inputs, i.internalName = "variable") ∧
        ∀ i ∈ seg.inputs, i.internalName = "variable" → i.mode = .write := by decide

theorem Builtin.name_inj : ∀ b ∈ Builtin.all, b.name = "setVariableTo" → b = .setVariableTo := by
  decide

/-- Every input by which a block writes has a variable. -/
def Block.WritesBound (b : Block) : Prop :=
  ∀ (k : String) (l : List InputBinding), b.inputs[k]? = some l →
    ∀ i ∈ l, i.declaration.mode = .write → i.key ≠ none

/-- The input that says what to write has no variable. -/
def Block.NoTarget (b : Block) : Prop :=
  ∃ (k : String) (l : List InputBinding), b.inputs[k]? = some l ∧
    ∃ i ∈ l, i.declaration.internalName = "variable" ∧ i.declaration.mode = .write ∧ i.key = none

theorem Block.WritesBound.not_noTarget {b : Block} (h : b.WritesBound) : ¬ b.NoTarget :=
  fun ⟨k, l, hl, i, hi, _, hwrite, hnone⟩ => h k l hl i hi hwrite hnone

/-- The inputs of a call say no more of the variable to write than those of its block. -/
theorem Compile.exists_noTarget {bs : List InputBinding} {name : String}
    (hv : ∃ i ∈ bs, i.declaration.internalName = "variable")
    (hno : variableOf? (bs.map (boundInput name)) "variable" = none) :
    ∃ i ∈ bs, i.declaration.internalName = "variable" ∧ i.key = none := by
  unfold variableOf? input? at hno
  rw [List.find?_map] at hno
  cases hfind : bs.find? ((fun i => decide (i.internalName = "variable")) ∘ boundInput name) with
  | none =>
    obtain ⟨i, hi, hname⟩ := hv
    exact absurd (decide_eq_true hname) (List.find?_eq_none.mp hfind i hi)
  | some i =>
    rw [hfind] at hno
    exact ⟨i, List.mem_of_find?_eq_some hfind, of_decide_eq_true (List.find?_some hfind :), hno⟩

namespace Graph

variable {g : Graph} {b : Block} {x : Call} {p : Program} {seg : Segment}

/-- A call finds the inputs of a segment by its name. -/
theorem CallFaithful.segmentInputs?_eq (hx : g.CallFaithful x) (hb : g.blocks[x.block]? = some b)
    (hf : b.Filled) (hnames : (b.definition.segments.map (·.name)).Nodup)
    (hseg : seg ∈ b.definition.segments) (hne : seg.inputs ≠ []) :
    ∃ bs, b.inputs[seg.id]? = some bs ∧ bs.map (·.declaration) = seg.inputs ∧
      x.segmentInputs? seg.name = some (bs.map (Compile.boundInput seg.name)) := by
  obtain ⟨bs, hbs, hdecl⟩ := hf.declared hseg hne
  refine ⟨bs, hbs, hdecl, ?_⟩
  have hmem : (seg.id, bs.map (Compile.boundInput seg.name)) ∈ x.inputs :=
    (hx.inputs hb _ _).mpr ⟨seg, hseg, hne, rfl, bs, hbs, hdecl, rfl⟩
  -- the first input of a segment carries the name of the segment
  have hhead {seg : Segment} {bs : List InputBinding} (hdecl : bs.map (·.declaration) = seg.inputs)
      (hne : seg.inputs ≠ []) :
      (bs.map (Compile.boundInput seg.name)).head?.map (·.segmentName) = some seg.name := by
    cases bs with
    | nil => exact absurd hdecl.symm hne
    | cons => rfl
  unfold Call.segmentInputs?
  cases hfind : x.inputs.find? fun p => (p.2.head?.map (·.segmentName)) = some seg.name with
  | none =>
    exact absurd (decide_eq_true (hhead hdecl hne)) (List.find?_eq_none.mp hfind _ hmem)
  | some q =>
    obtain ⟨seg', hseg', hne', hid, bs', hbs', hdecl', hq⟩ :=
      (hx.inputs hb q.1 q.2).mp (List.mem_of_find?_eq_some hfind)
    have hname := List.find?_some hfind
    rw [hq, hhead hdecl' hne', decide_eq_true_eq, Option.some.injEq] at hname
    have hsegs := List.inj_on_of_nodup_map hnames hseg' hseg hname
    subst hsegs
    rw [← hid] at hbs'
    cases hbs.symm.trans hbs'
    rw [Option.map_some, hq]

section
variable (S : g.Sound (· ∈ Catalog.standardBlocks)) (hx : g.CallFaithful x)
include S hx

/-- A call of a standard block gets the inputs that its function needs. -/
theorem Sound.meets : ∃ f : Builtin, x.target = f.name ∧ x.Meets f := by
  obtain ⟨b, hb, ht⟩ := hx.target
  obtain ⟨hnames, f, _, hname, hneeds⟩ := Catalog.exists_builtin _ (S.defined hb)
  refine ⟨f, ht.trans hname, fun q hq => ?_⟩
  obtain ⟨hpos, seg, hseg, hsegment, hlen⟩ := hneeds q hq
  have hne : seg.inputs ≠ [] := List.ne_nil_of_length_pos (hlen ▸ hpos)
  obtain ⟨bs, _, hdecl, hl⟩ := hx.segmentInputs?_eq hb (S.filled hb) hnames hseg hne
  refine ⟨_, hsegment ▸ hl, ?_⟩
  rw [List.length_map, ← hlen, ← hdecl, List.length_map]

/-- A call that has no variable to write is that of a block which has none. -/
theorem Sound.exists_noTarget (ht : x.target = "setVariableTo") (hno : x.NoTarget) :
    ∃ b, g.blocks[x.block]? = some b ∧ b.name = "setVariableTo" ∧ b.NoTarget := by
  obtain ⟨b, hb, hname⟩ := hx.target
  have hbname : b.definition.name = "setVariableTo" := hname.symm.trans ht
  obtain ⟨hnames, f, hf, hfname, hneeds⟩ := Catalog.exists_builtin _ (S.defined hb)
  cases Builtin.name_inj f hf (hfname.symm.trans hbname)
  obtain ⟨_, seg, hseg, hsegment, _⟩ := hneeds ("setVariableTo", 2) List.mem_cons_self
  obtain ⟨⟨d, hd, hvariable⟩, hwrite⟩ :=
    Catalog.exists_variable _ (S.defined hb) hbname seg hseg hsegment
  obtain ⟨bs, hbs, hdecl, hl⟩ := hx.segmentInputs?_eq hb (S.filled hb) hnames hseg
    (List.ne_nil_of_mem hd)
  obtain ⟨l, hl', hunbound⟩ := hno
  cases (hsegment ▸ hl).symm.trans hl'
  rw [← hdecl] at hd
  obtain ⟨i, hi, rfl⟩ := List.mem_map.mp hd
  obtain ⟨i, hi, hname, hkey⟩ := Compile.exists_noTarget ⟨i, hi, hvariable⟩ hunbound
  have hmode := hwrite i.declaration (hdecl ▸ List.mem_map_of_mem hi) hname
  exact ⟨b, hb, hbname, seg.id, bs, hbs, i, hi, hname, hmode, hkey⟩

/-- A call of a standard block fails only if it has a variable to write and its block has none. -/
theorem Sound.call_error {H : Type} {em : Emitter H} {w : World H} :
    (x.effect Library.standard em).Yields w fun r _ => ∀ e, r = .error e →
      e = .invalidInputs "setVariableTo" .noTarget ∧
        ∃ b, g.blocks[x.block]? = some b ∧ b.name = "setVariableTo" ∧ b.NoTarget := by
  obtain ⟨f, ht, hm⟩ := S.meets hx
  refine (Call.effect_error ht hm).mono fun r _ h e he => ?_
  obtain ⟨rfl, rfl, hno⟩ := h e he
  exact ⟨rfl, S.exists_noTarget hx ht hno⟩

end

end Graph

/-! ## Runs -/

section
variable {H : Type} {w : World H} {em : Emitter H} {library : Library H} {P : Call → Prop}

/-- What returns an error does so because of a call, if the host has no functions. -/
theorem Thread.Respects.failing_of_returning {t : Thread H} (ht : t.Respects (.unaided P))
    {q : Return H} (h : t.returning? library em w = some q) (hq : q.failed) :
    ∃ c e u, t.calling? = some c ∧ (c.effect library em).run w = some (.error e, u) := by
  unfold returning? at h
  split at h
  · cases h
    cases hq
  next c _ b k =>
    split at h
    next e u hrun => exact ⟨c, e, u, rfl, hrun⟩
    · cases h
  next x replies _ b k =>
    have hx : x.Respects (.unaided P) := ht.head
    exact hx.task.elim
  · cases h

end

namespace Session

variable {H : Type} {s : Session H} {p : Program} {limit : Option Nat} {depth : Nat}
variable {trace : List (Machine H)} {last : Machine H}

/-- If none of its calls can fail, a run of a program counts no failure. -/
theorem failedBodies_eq (hs : s.Respects (.unaided (· ∈ p.calls)))
    (hcalls : ∀ c ∈ p.calls, ∀ w e w', (c.effect s.setting.library (World.emit depth)).run w ≠
      some (.error e, w'))
    (hp : Machine.Path s.setting depth (s.machine p limit) trace last) (hdone : last.isDone) :
    (s.summary last).failedBodies = 0 := by
  have hm : (s.machine p limit).Keeps _ s.setting := hs.machine fun _ hc => hc
  have hkeeps := (hm.path Terms.lasting_unaided hp).1
  have hreturn : ∀ q ∈ trace.filterMap (Machine.returning? s.setting depth), q.failed = false := by
    intro q hq
    obtain ⟨x, hx, hq⟩ := List.mem_filterMap.mp hq
    have hx := hkeeps x hx
    unfold Machine.returning? at hq
    split at hq
    next t rest hready =>
      refine Bool.eq_false_iff.mpr fun hfailed => ?_
      have ht := hx.threads (Machine.mem_threads_of_ready hready)
      obtain ⟨c, e, u, hc, hrun⟩ := ht.failing_of_returning hq hfailed
      exact hcalls c (ht.calling hc c c.mem_calls_self) _ _ _ hrun
    · cases hq
  have hnone (f : Return H → Bool) : (trace.filterMap (Machine.returning? s.setting depth)).countP
      (fun q => q.failed && f q) = 0 := by
    refine List.countP_eq_zero.mpr fun q hq => ?_
    rw [hreturn q hq]
    exact Bool.false_ne_true
  have hcount := ((isolates s depth).program hp hdone).failedBodies
  rw [hnone, hnone] at hcount
  exact hcount

end Session

namespace Graph

variable {g : Graph} {p : Program}

/-- **A program that does not go wrong**, whatever the schedule of its runs is. -/
structure RunsClean (g : Graph) (p : Program) : Prop where
  /-- A call of the program fails only if it has to write a variable and its block binds none,
  whatever the world is like in which it is made. -/
  failure {H : Type} {em : Emitter H} {w w' : World H} {c : Call} {e : RunError} : c ∈ p.calls →
    (c.effect Library.standard em).run w = some (.error e, w') →
      e = .invalidInputs "setVariableTo" .noTarget ∧
        ∃ b, g.blocks[c.block]? = some b ∧ b.name = "setVariableTo" ∧ b.NoTarget
  /-- A fresh session that runs the program makes no other calls. -/
  calls {H : Type} (config : RunConfig) (host : H) (store : Store) (limit : Option Nat)
    {depth : Nat} {trace : List (Machine H)} {last x : Machine H} {c : Call} :
    Machine.Path (Session.fresh config host store).setting depth
      ((Session.fresh config host store).machine p limit) trace last → x ∈ trace →
    x.calling? = some c → c ∈ p.calls
  /-- When the blocks that write bind their variables, a run that ends counts no failed body. -/
  failedBodies {H : Type} (config : RunConfig) (host : H) (store : Store) (limit : Option Nat)
    {depth : Nat} {trace : List (Machine H)} {last : Machine H} :
    (∀ (id : BlockId) (b : Block), g.blocks[id]? = some b → b.name = "setVariableTo" →
      b.WritesBound) →
    Machine.Path (Session.fresh config host store).setting depth
      ((Session.fresh config host store).machine p limit) trace last → last.isDone →
      ((Session.fresh config host store).summary last).failedBodies = 0

theorem Sound.runsClean_of_faithful (S : g.Sound (· ∈ Catalog.standardBlocks))
    (hp : ∀ x ∈ p.calls, g.CallFaithful x) : g.RunsClean p := by
  have hfresh {H : Type} (config : RunConfig) (host : H) (store : Store) :
      (Session.fresh config host store).Respects (.unaided (· ∈ p.calls)) :=
    Session.respects_fresh config host store
  constructor
  case failure =>
    intro H em w w' c e hc he
    exact S.call_error (hp c hc) _ _ he e rfl
  case calls =>
    intro H config host store limit depth trace last x c hpath hx hc
    have hkeeps := ((hfresh config host store).machine fun _ hc => hc).path Terms.lasting_unaided hpath
    exact (hkeeps.1 x hx).calling hc c c.mem_calls_self
  case failedBodies =>
    intro H config host store limit depth trace last hbound hpath hdone
    refine Session.failedBodies_eq (hfresh config host store) (fun c hc w e w' he => ?_) hpath hdone
    obtain ⟨_, b, hb, hname, hno⟩ := S.call_error (hp c hc) _ _ he e rfl
    exact (hbound _ b hb hname).not_noTarget hno

/-- **Programs of the standard blocks do not go wrong**, in whatever session their graph was
made, and whether all of it was compiled or one chain. -/
theorem Reachable.runsClean (hg : Reachable (· ∈ Catalog.standardBlocks) g)
    (hp : g.compile = .ok p ∨ ∃ root, g.compileChain root = .ok p) : g.RunsClean p := by
  have hwf := hg.mono Catalog.wellFormed_of_mem
  have S := hg.sound fun d hd => (Catalog.wellFormed_of_mem d hd).toCoherent
  refine S.runsClean_of_faithful fun x hx => ?_
  rcases hp with hp | ⟨root, hp⟩
  · exact (hwf.compile_faithful hp).call hx
  · obtain ⟨c, w, rfl, hc⟩ := (hwf.sound fun _ hd => hd.toCoherent).compileChain_eq_ok hp
    exact (hc.covered.faithful (by simpa [Program.calls] using hx)).1

end Graph

namespace Document

/-- An entry whose body copies one variable to another. -/
def copying : Document where
  blocks := Table.ofPairs [
    ("a", {
      id := "a", name := "startAgent", position := .origin, offset := none, segments := []
      definition := Catalog.startAgent, primaryNotchId := none, primaryDivotId := none }),
    ("b", {
      id := "b", name := "setVariableTo", position := .origin, offset := none
      segments := [⟨"setVariableTo.setVariableTo", [
        ⟨"setVariableTo.setVariableTo.data", some "x", none, true, false⟩,
        ⟨"setVariableTo.setVariableTo.variable", some "y", none, true, false⟩]⟩]
      definition := Catalog.setVariableTo, primaryNotchId := none, primaryDivotId := none })]
  notches := Table.ofPairs [
    ("notch-0-a", {
      notchBlockId := "a", divotBlockId := "b", notchId := "notch-0-a", divotId := "divot-0-b"
      notchSegmentId := "startAgent.startAgent"
      divotSegmentId := "setVariableTo.setVariableTo", isPrimary := true })]

/-- The graph of that document. -/
def copyingGraph : Graph := (copying.load.run ⟨.empty ∅, []⟩).2.graph

theorem toGraph_copying : copying.toGraph ∅ = (.ok copyingGraph, []) := by
  have hload : (copying.load.run ⟨.empty ∅, []⟩).1 = .ok () ∧
      (copying.load.run ⟨.empty ∅, []⟩).2.skipped = [] := by decide +kernel
  rw [toGraph_eq, hload.1, hload.2]
  rfl

theorem reachable_copyingGraph : Graph.Reachable (· ∈ Catalog.standardBlocks) copyingGraph := by
  have hmem : ∀ p ∈ copying.blocks.toList, p.2.definition ∈ Catalog.standardBlocks := by decide
  exact .loaded copying ∅ {} [] hmem toGraph_copying (.refl _)

theorem writesBound_copyingGraph (id : BlockId) (b : Block)
    (hb : copyingGraph.blocks[id]? = some b) : b.WritesBound := by
  have hbound : ∀ p ∈ copyingGraph.blocks.toList, ∀ q ∈ p.2.inputs.toList, ∀ i ∈ q.2,
      i.declaration.mode = .write → i.key ≠ none := by decide +kernel
  exact fun k l hl => hbound (id, b) (Table.mem_toList.mpr hb) (k, l) (Table.mem_toList.mpr hl)

end Document

theorem Graph.runsClean_copyingGraph : ∃ p, Document.copyingGraph.compile = .ok p ∧
    Document.copyingGraph.RunsClean p ∧ ∃ r after,
      (Session.fresh {} () (Table.ofPairs [("x", "1")])).execute 20 p = some (r, after) ∧
        r.calls = 2 ∧ after.store["y"]? = some "1" ∧ r.failedBodies = 0 := by
  have hrun : ((Document.copyingGraph.compile.toOption.bind fun p =>
      (Session.fresh {} () (Table.ofPairs [("x", "1")])).execute 20 p).map fun q =>
        (q.1.calls, q.2.store["y"]?)) = some (2, some "1") := by decide +kernel
  obtain ⟨⟨r, after⟩, hsome, hcalls⟩ := Option.map_eq_some_iff.mp hrun
  obtain ⟨p, hp, he⟩ := Option.bind_eq_some_iff.mp hsome
  have hok := except_eq_ok_of_toOption hp
  have hclean := Reachable.runsClean Document.reachable_copyingGraph (.inl hok)
  obtain ⟨hcount, hvalue⟩ := Prod.mk.inj hcalls
  obtain ⟨trace, last, hpath, hdone, _, hsummary⟩ := Session.execute_path he
  refine ⟨p, hok, hclean, r, after, he, hcount, hvalue, hsummary ▸ ?_⟩
  exact hclean.failedBodies _ _ _ _ (fun id b hb _ => Document.writesBound_copyingGraph id b hb)
    hpath hdone

end SnapBlocks

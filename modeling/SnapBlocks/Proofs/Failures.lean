import SnapBlocks.Proofs.Account

/-! Failures in runs. A run of a program never fails: it goes on until it is done, unless an emission
nests deeper than it may. The failures in it are those of entry chains and of bodies, and its summary
counts just these. A chain that is run on its own fails only by a call of its own. -/

namespace SnapBlocks

variable {H : Type} {w : World H} {em : Emitter H} {t : Thread H} {depth : Nat} {library : Library H}

/-- An emission in the next step has no outcome. -/
inductive Machine.Sticks (s : Setting H) (em : Emitter H) (m : Machine H) : Prop
  | call {c : Call} : m.calling? = some c → (c.effect s.library em).run m.world = none → Sticks s em m
  | react {r : Reaction H} : m.reacting? = some r → r.run em m.world = none → Sticks s em m
  | start : m.isStarting → em startEvent [] m.world = none → Sticks s em m

theorem advance_eq_none (h : advance library em t w = none) :
    (∃ c, t.calling? = some c ∧ (c.effect library em).run w = none) ∨
      ∃ r, t.reacting? = some r ∧ r.run em w = none := by
  unfold advance at h
  split at h
  case h_3 c cs k =>
    split at h
    next hrun => exact .inl ⟨c, rfl, hrun⟩
    · cases h
    · cases h
  case h_9 x replies k =>
    split at h
    · cases h
    · cases h
    next r hnext =>
      split at h
      next hrun => exact .inr ⟨r, by simp only [Thread.reacting?, hnext], hrun⟩
      · cases h
    · cases h
    · cases h
  all_goals first
    | cases h
    | split at h <;> cases h

namespace Machine

variable {m : Machine H} {s : Setting H}

theorem reacting?_of_calling {c : Call} (hc : m.calling? = some c) {r : Reaction H} :
    m.reacting? ≠ some r := by
  obtain ⟨_, _, _, hready⟩ := ready_of_calling hc
  unfold reacting?
  rw [hready]
  exact nofun

theorem calling?_of_isStarting (hs : m.isStarting) : m.calling? = none := by
  unfold calling?
  rw [(isStarting_iff.mp hs).1]

theorem reacting?_of_isStarting (hs : m.isStarting) : m.reacting? = none := by
  unfold reacting?
  rw [(isStarting_iff.mp hs).1]

/-- A machine goes on, unless an emission has no outcome. -/
theorem sticks_of_step (h : m.step s em = none) : m.Sticks s em := by
  unfold step at h
  split at h
  · cases h
  next t rest hready =>
    rcases advance_eq_none (Option.map_eq_none_iff.mp h) with ⟨c, hc, he⟩ | ⟨r, hr, he⟩
    · exact .call (calling?_resume hready ▸ hc) he
    · exact .react (by unfold reacting?; rw [hready]; exact hr) he
  next hready =>
    split at h
    next hpaused =>
      unfold proceed at h
      split at h
      · cases h
      next hplan =>
        exact .start (isStarting_iff.mpr ⟨hready, hpaused, hplan⟩) (Option.map_eq_none_iff.mp h)
      · cases h
    · split at h
      · cases h
      · split at h <;> cases h

section
variable (h : m.Sticks s em)
include h

theorem Sticks.call_eq {c : Call} (hc : m.calling? = some c) :
    (c.effect s.library em).run m.world = none := by
  cases h with
  | call hc' he =>
    cases hc.symm.trans hc'
    exact he
  | react hr => exact absurd hr (reacting?_of_calling hc)
  | start hs => cases (calling?_of_isStarting hs).symm.trans hc

theorem Sticks.react_eq {r : Reaction H} (hr : m.reacting? = some r) : r.run em m.world = none := by
  cases h with
  | call hc => exact absurd hr (reacting?_of_calling hc)
  | react hr' he =>
    cases hr.symm.trans hr'
    exact he
  | start hs => cases (reacting?_of_isStarting hs).symm.trans hr

theorem Sticks.start_eq (hs : m.isStarting) : em startEvent [] m.world = none := by
  cases h with
  | call hc => cases (calling?_of_isStarting hs).symm.trans hc
  | react hr => cases (reacting?_of_isStarting hs).symm.trans hr
  | start _ he => exact he

end

end Machine

/-! ## Sessions -/

namespace Session

variable {s after : Session H} {p : Program} {limit : Option Nat} {trace : List (Machine H)}
variable {last : Machine H}

/-- What a run of a program comes to. The trace lists the states that it steps from. -/
structure RunsProgram (s : Session H) (depth : Nat) (p : Program) (trace : List (Machine H))
    (last : Machine H) : Prop where
  /-- No failure escapes: each ends at the entry chain or the body whose call fails. -/
  result : last.result = .ok ()
  contains {x : Machine H} : x ∈ trace → x.Contains s.setting depth
  /-- All entry chains are run, in order. -/
  entries : trace.filterMap Machine.entering? = p.entries
  /-- Each entry chain and each body that is invoked returns once. -/
  returns : ((trace.filterMap (Machine.returning? s.setting depth)).map Return.boundary).Perm
    (p.entries.map (fun _ => .entry) ++ trace.filterMap Machine.invoking?)
  /-- The entry chains that return an error are counted, and the bodies that do, unless a function of
  the host runs them and takes the error. -/
  failedBodies : (s.summary last).failedBodies =
    (trace.filterMap (Machine.returning? s.setting depth)).countP
      (fun q => q.failed && q.boundary.isEntry) +
    (trace.filterMap (Machine.returning? s.setting depth)).countP
      (fun q => q.failed && q.boundary.isBody)
  /-- Each of these errors is noted once. -/
  noted : last.world.noted = s.world.noted ++
    (trace.filterMap (Machine.returning? s.setting depth)).filterMap Return.notice?
  calls : (s.summary last).calls =
    (trace.filterMap Machine.calling?).countP (Call.isFound s.setting.library)

theorem guarded_machine : (s.machine p limit).Guarded := ⟨nofun, rfl⟩

theorem runsProgram (hp : Machine.Path s.setting depth (s.machine p limit) trace last)
    (hdone : last.isDone) : s.RunsProgram depth p trace last := by
  obtain ⟨hthreads, _, hplan⟩ := Machine.isDone_iff_threads.mp hdone
  have hm : (s.machine p limit).Guarded := guarded_machine
  obtain ⟨hsafe, hlast⟩ := hp.invariant hm (fun hm h => hm.rearranges h.rearranges)
    fun hm hmove => hm.move hmove
  obtain ⟨hcounted, hboundaries, hentries⟩ := hm.path hp
  have hentries : p.entries = trace.filterMap Machine.entering? := by
    refine hentries.trans ?_
    unfold Machine.entries
    cases hp : last.plan with
    | register entries => exact absurd hp (hplan entries)
    | _ => exact List.append_nil _
  have hopening : (trace.flatMap Machine.opening).Perm (p.entries.map (fun _ => .entry) ++
      trace.filterMap Machine.invoking?) := by
    rw [hentries]
    simp only [List.filterMap_eq_flatMap_toList, List.map_flatMap]
    exact (List.flatMap_append_perm trace _ _).symm
  have hreturns := hboundaries.trans (.of_eq (List.append_nil _))
  unfold Machine.boundaries at hreturns
  rw [hthreads, List.flatMap_nil, List.append_nil] at hreturns
  refine ⟨hlast.result, fun hx => (hsafe _ hx).contains, hentries.symm, hreturns.trans hopening, ?_,
    hcounted.noted, ?_⟩
  · have hfailures : last.world.failures = s.world.failures +
        ((trace.filterMap (Machine.returning? s.setting depth)).filterMap Return.notice?).length :=
      hcounted.failures
    unfold summary
    rw [hfailures, Nat.add_sub_cancel_left, Return.length_notices]
  · have hcalls : last.world.calls = s.world.calls +
        (trace.filterMap Machine.calling?).countP (Call.isFound s.setting.library) :=
      hcounted.calls
    unfold summary
    rw [hcalls, Nat.add_sub_cancel_left]

/-- **Failures stay where they arise**, under every schedule. -/
structure Isolates (s : Session H) (depth : Nat) : Prop where
  /-- A chain that is run on its own makes its calls in order, until one of them fails; a failure in
  a body of a call does not reach it. -/
  chain {c : Chain} {trace : List (Machine H)} {last : Machine H} :
    Machine.Path s.setting depth (s.chainMachine c) trace last → last.isDone →
      Machine.ChainEnd s.setting depth [] c trace last
  program {p : Program} {limit : Option Nat} {trace : List (Machine H)} {last : Machine H} :
    Machine.Path s.setting depth (s.machine p limit) trace last → last.isDone →
      s.RunsProgram depth p trace last
  /-- A run of a program that is not done has not failed, and goes on, unless it makes an emission
  that has no outcome. -/
  goesOn {p : Program} {limit : Option Nat} {trace : List (Machine H)} {last : Machine H} :
    Machine.Path s.setting depth (s.machine p limit) trace last → last.isDone = false →
      last.result = .ok () ∧ ((∃ m, last.Steps s.setting m) ∨
        last.Sticks s.setting (World.emit depth))

/-- **Failures are isolated and accounted for**, whatever the library and the world of a session. -/
theorem isolates (s : Session H) (depth : Nat) : s.Isolates depth where
  chain := chainMachine_ends
  program := runsProgram
  goesOn {p limit trace last} hp hmore := by
    have hlast := (hp.invariant guarded_machine (fun hm h => hm.rearranges h.rearranges)
      fun hm hmove => hm.move hmove).2
    refine ⟨hlast.result, ?_⟩
    cases hstep : last.step s.setting (World.emit depth) with
    | none => exact .inr (Machine.sticks_of_step hstep)
    | some m => exact .inl ⟨m, hmore, depth, hstep⟩

/-- A session with a function that waits and then fails, and a variable for conditions. -/
def faulty : Session Unit :=
  (new ⟨Library.standard.insert "boom" (.host fun _ replies =>
      match replies with
      | [] => .pause
      | _ => .finish (.error (.custom "boom"))), {}⟩ ())
    |>.modifyStore fun _ => Table.ofPairs [("op", "==")]

/-- A call of the function that fails. -/
def boom : Call := .mk "boom" "b" [] [] none

/-- A condition that holds, and a body that fails in its first call. -/
def guardedBoom : Call :=
  .mk "if" "a" [("0", [⟨"0", "", "varA", .operand, .read, none, "if"⟩,
    ⟨"1", "", "varB", .operand, .read, none, "if"⟩,
    ⟨"2", "", "eval", .operator, .read, some "op", "if"⟩])] [("0", ⟨"if", [boom, boom]⟩)] none

/-- A chain that ends with its second call. -/
def failing : Chain := [guardedBoom, boom, guardedBoom]

/-- A program with a chain whose bodies fail, and with two chains that fail. -/
def faults : Program := ⟨[[guardedBoom, guardedBoom], [boom], [.mk "gone" "c" [] [] none]]⟩

theorem isolates_faulty :
    (∃ trace last, Machine.Path faulty.setting 40 (faulty.chainMachine failing) trace last ∧
      last.isDone ∧ last.world.calls = 3 ∧
      Machine.ChainEnd faulty.setting 40 [] failing trace last) ∧
    ∃ trace last, Machine.Path faulty.setting 60 (faulty.machine faults none) trace last ∧
      last.isDone ∧ faulty.summary last = ⟨5, 4⟩ ∧ faulty.RunsProgram 60 faults trace last := by
  have hchain : (faulty.runChain 40 failing).map (·.2.world.calls) = some 3 := by decide +kernel
  have hprogram : (faulty.execute 60 faults).map (·.1) = some ⟨5, 4⟩ := by decide +kernel
  constructor
  · obtain ⟨⟨result, after⟩, he, hcalls⟩ := Option.map_eq_some_iff.mp hchain
    obtain ⟨trace, last, hp, hdone, hworld, _⟩ := runChain_path he
    exact ⟨trace, last, hp, hdone, hworld ▸ hcalls, (isolates faulty 40).chain hp hdone⟩
  · obtain ⟨⟨r, after⟩, he, hr⟩ := Option.map_eq_some_iff.mp hprogram
    obtain ⟨trace, last, hp, hdone, _, hsummary⟩ := execute_path he
    exact ⟨trace, last, hp, hdone, hsummary.trans hr, (isolates faulty 60).program hp hdone⟩

end Session

end SnapBlocks

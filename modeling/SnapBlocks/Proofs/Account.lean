import SnapBlocks.Proofs.Dispatch
import SnapBlocks.Proofs.Isolation

/-! The accounts of a run. While a program runs, every chain of calls is guarded; so each failing call
is that of an entry chain or of a body, and ends it. The run counts and notes just these failures,
and counts the calls whose functions it found. -/

namespace SnapBlocks

variable {H : Type} {w w' : World H} {em : Emitter H} {t : Thread H} {a : Advance H} {depth : Nat}
variable {library : Library H}

/-- Whether an entry chain ends at a boundary. -/
def Boundary.isEntry : Boundary H → Bool
  | entry => true
  | _ => false

/-- Whether a body ends at a boundary of which the failure goes no further. -/
def Boundary.isBody : Boundary H → Bool
  | body _ => true
  | task label _ _ => label.isSome
  | _ => false

/-- The return of an entry chain or of a body to its boundary. -/
structure Return (H : Type) where
  boundary : Boundary H
  result : Except RunError Unit

namespace Return

/-- Whether an error was returned. -/
def failed (r : Return H) : Bool :=
  match r.result with
  | .ok _ => false
  | .error _ => true

/-- What is noted of an error that was returned. -/
def notice? (r : Return H) : Option Notice :=
  match r.result with
  | .ok _ => none
  | .error e => r.boundary.notice? e

/-- The errors of entry chains are noted, and those of bodies, unless they go on to a function of the
host. -/
theorem length_notice? (r : Return H) : r.notice?.toList.length =
    (if r.failed && r.boundary.isEntry then 1 else 0) +
      (if r.failed && r.boundary.isBody then 1 else 0) := by
  obtain ⟨b, _ | _⟩ := r
  · rcases b with _ | _ | ⟨_ | _, _, _⟩ | _ <;> rfl
  · rfl

theorem length_notices (rs : List (Return H)) : (rs.filterMap notice?).length =
    rs.countP (fun r => r.failed && r.boundary.isEntry) +
      rs.countP (fun r => r.failed && r.boundary.isBody) := by
  rw [List.filterMap_eq_flatMap_toList]
  induction rs with
  | nil => rfl
  | cons r rs ih =>
    rw [List.flatMap_cons, List.length_append, ih, r.length_notice?, List.countP_cons,
      List.countP_cons]
    omega

end Return

/-- The boundary at which a frame ends failures. -/
def Frame.boundary? : Frame H → Option (Boundary H)
  | .boundary b => some b
  | _ => none

/-- The boundaries in a thread, the nearest one first. -/
def Thread.boundaries (t : Thread H) : List (Boundary H) := t.filterMap Frame.boundary?

/-- What returns in the next step of a thread: a chain that has no calls left, or one of which the next
call fails, or the function of the host to which it has come. -/
def Thread.returning? (library : Library H) (em : Emitter H) (t : Thread H) (w : World H) :
    Option (Return H) :=
  match t with
  | .boundary b :: _ => some ⟨b, .ok ()⟩
  | .calls (c :: _) :: .boundary b :: _ =>
    match (c.effect library em).run w with
    | some (.error e, _) => some ⟨b, .error e⟩
    | _ => none
  | .task x replies :: .calls _ :: .boundary b :: _ =>
    match x replies with
    | .finish (.error e) => some ⟨b, .error e⟩
    | _ => none
  | _ => none

/-- The boundary of the body that is invoked in the next step of a thread. -/
def Thread.invoking? (t : Thread H) (w : World H) : Option (Boundary H) :=
  match t with
  | .arms (a :: _) :: _ =>
    if w.shared.conditionHolds a.condition then some (.body a.body.label) else none
  | .check token l :: _ => if l.goesOn token w.shared then some (.body l.body.label) else none
  | .task x replies :: _ =>
    match x replies with
    | .invoke isolated b => some (.task (if isolated then some b.label else none) x replies)
    | _ => none
  | _ => none

/-- A world in which some calls were counted, and the failures among some returns were counted and
noted. -/
structure World.Counted (w : World H) (calls : Nat) (returns : List (Return H)) (w' : World H) :
    Prop where
  calls : w'.calls = w.calls + calls
  failures : w'.failures = w.failures + (returns.filterMap Return.notice?).length
  noted : w'.noted = w.noted ++ returns.filterMap Return.notice?

namespace World

theorem counted_of_eq (hc : w'.calls = w.calls) (hf : w'.failures = w.failures)
    (hn : w'.noted = w.noted) : w.Counted 0 [] w' :=
  ⟨hc, hf, hn.trans (List.append_nil _).symm⟩

theorem Counted.trans {u : World H} {n n' : Nat} {rs rs' : List (Return H)} (h : w.Counted n rs u)
    (h' : u.Counted n' rs' w') : w.Counted (n + n') (rs ++ rs') w' where
  calls := by rw [h'.calls, h.calls, Nat.add_assoc]
  failures := by
    rw [h'.failures, h.failures, List.filterMap_append, List.length_append, Nat.add_assoc]
  noted := by rw [h'.noted, h.noted, List.filterMap_append, List.append_assoc]

theorem counted_leave (l : Loop) (w : World H) : w.Counted 0 [] (l.leave w) := by
  unfold Loop.leave
  split
  · exact counted_of_eq rfl rfl (w.served_note rfl).noted
  · exact counted_of_eq rfl rfl rfl

theorem counted_catch (w : World H) (b : Boundary H) (e : RunError) :
    w.Counted 0 [⟨b, .error e⟩] (b.catch e w) := by
  have hfailure : ∀ n ∈ b.notice? e, n.isFailure := by
    rcases b with _ | _ | ⟨_ | _, _, _⟩ | _ <;> rintro _ ⟨⟩ <;> rfl
  unfold Boundary.catch
  cases hn : b.notice? e with
  | none =>
    have hnotice : Return.notice? (⟨b, .error e⟩ : Return H) = none := hn
    refine ⟨rfl, ?_, ?_⟩
    · rw [List.filterMap_cons_none hnotice]
      rfl
    · rw [List.filterMap_cons_none hnotice]
      exact (List.append_nil _).symm
  | some n =>
    have hnotice : Return.notice? (⟨b, .error e⟩ : Return H) = some n := hn
    refine ⟨rfl, ?_, (w.noted_note n).trans ?_⟩
    · rw [List.filterMap_cons_some hnotice]
      rfl
    · rw [List.filterMap_cons_some hnotice, List.filter_cons_of_pos (hfailure n hn)]
      rfl

/-- A call is counted if its function is found. -/
theorem counted_of_served {c : Call} {ds : List Delivery}
    (h : (if c.isFound library then w.countCall else w).Served ds w') :
    w.Counted ([c].countP (Call.isFound library)) [] w' := by
  rw [List.countP_singleton]
  by_cases hc : c.isFound library
  · rw [if_pos hc] at h ⊢
    exact ⟨h.calls, h.failures, h.noted.trans (List.append_nil _).symm⟩
  · rw [if_neg hc] at h ⊢
    exact counted_of_eq h.calls h.failures h.noted

end World

/-! ## Threads -/

theorem boundaries_work (k : Work H) (t : Thread H) : (k.frames ++ t).boundaries = t.boundaries := by
  cases k <;> rfl

theorem boundaries_resume (b : Boundary H) (result : Except RunError Unit) (shared : Shared H)
    (t : Thread H) : Thread.boundaries (b.resume result shared ++ t) = t.boundaries := by
  cases b <;> rfl

/-- The account of a step of a thread. -/
structure Thread.Accounts (library : Library H) (em : Emitter H) (t : Thread H) (w : World H)
    (a : Advance H) (w' : World H) : Prop where
  counted : w.Counted (t.calling?.toList.countP (Call.isFound library))
    (t.returning? library em w).toList w'
  /-- Boundaries are passed by returns, and set up by invocations. -/
  boundaries : (t.returning? library em w).toList.map Return.boundary ++
      (a.jobs.filterMap Job.thread?).flatMap Thread.boundaries =
    (t.invoking? w).toList ++ t.boundaries

theorem boundaries_on (t : Thread H) :
    ((Advance.on t).jobs.filterMap Job.thread?).flatMap Thread.boundaries = t.boundaries := by
  cases t with
  | nil => rfl
  | cons f t => exact List.append_nil _

/-- Every chain of calls in a thread stands in front of its boundary. -/
abbrev Thread.Whole (t : Thread H) : Prop := Thread.Guarded (fun _ => False) [] t

theorem Thread.Whole.not_failsLast (ht : t.Whole) : ¬ t.FailsLast [] := by
  rintro ⟨x, replies, e, rfl, _⟩
  exact (ht.of_task (List.cons_ne_nil _ _)).chain

/-- The account of a step that fails. -/
theorem Thread.Whole.accounts_failed {tr : Tracer H} (hem : em.Traced tr) (ht : t.Whole)
    {e : RunError} {k : Thread H} {u : World H} (hf : t.Fails library em w e k u)
    (hfail : fail e k u = (a, w')) : t.Accounts library em w a w' := by
  obtain ⟨f, rfl⟩ := hf.eq_cons
  obtain ⟨b, rest, hk, _, _, he⟩ :=
    (ht.fails (List.cons_ne_nil f k) hf).resolve_right ht.not_failsLast
  cases hfail.symm.trans he
  cases hf with
  | @call c cs k e u hrun =>
    obtain ⟨b', rest', rfl, _, _⟩ := ht.of_calls (List.cons_ne_nil _ _)
    have hk : b' = b ∧ rest' = rest := by
      rcases hk with hk | ⟨_, hk⟩ <;> cases hk
      exact ⟨rfl, rfl⟩
    obtain ⟨rfl, rfl⟩ := hk
    have hreturn : Thread.returning? library em (.calls (c :: cs) :: .boundary b' :: rest') w =
        some ⟨b', .error e⟩ := by simp only [Thread.returning?, hrun]
    have hcounted := World.counted_of_served (c.effect_served hem library w _ _ hrun)
    constructor
    · rw [hreturn]
      exact hcounted.trans (u.counted_catch b' e)
    · rw [hreturn, boundaries_on, boundaries_resume]
      rfl
  | @task x replies k e hnext =>
    have hchain := (ht.of_task (List.cons_ne_nil _ _)).chain
    obtain ⟨cs, rfl⟩ : ∃ cs, k = .calls cs :: .boundary b :: rest := by
      rcases hk with rfl | hk
      · exact absurd hchain id
      · exact hk
    have hreturn : Thread.returning? library em (.task x replies :: .calls cs :: .boundary b :: rest)
        w = some ⟨b, .error e⟩ := by simp only [Thread.returning?, hnext]
    have hopening : Thread.invoking? (.task x replies :: .calls cs :: .boundary b :: rest) w =
        none := by simp only [Thread.invoking?, hnext]
    constructor
    · rw [hreturn]
      exact w.counted_catch b e
    · rw [hreturn, hopening, boundaries_on, boundaries_resume]
      rfl

/-- The account of a step of a function of the host that does not fail. -/
theorem Thread.accounts_task {x : Task H} {replies : List (Reply H)} {k : Thread H}
    (hx : ∀ e, x replies ≠ .finish (.error e)) (hcounted : w.Counted 0 [] w')
    (hb : (a.jobs.filterMap Job.thread?).flatMap Thread.boundaries =
      (Thread.invoking? (.task x replies :: k) w).toList ++ k.boundaries) :
    Thread.Accounts library em (.task x replies :: k) w a w' := by
  have hreturn : Thread.returning? library em (.task x replies :: k) w = none := by
    unfold returning?
    split
    next he => cases he
    next he => cases he
    next he =>
      cases he
      split
      next hnext => exact absurd hnext (hx _)
      · rfl
    · rfl
  constructor
  · rw [hreturn]
    exact hcounted
  · rw [hreturn]
    exact hb

theorem Thread.Whole.accounts {tr : Tracer H} (hem : em.Traced tr) (ht : t.Whole)
    (h : SnapBlocks.advance library em t w = some (a, w')) : t.Accounts library em w a w' := by
  have hleave (l : Loop) := World.counted_leave l w
  have hrefl : w.Counted 0 [] w := World.counted_of_eq rfl rfl rfl
  cases advances_of_advance h with
  | ended => exact ⟨hrefl, rfl⟩
  | @called c cs k work u hrun =>
    obtain ⟨b, rest, rfl, _, _⟩ := ht.of_calls (List.cons_ne_nil _ _)
    have hreturn : Thread.returning? library em (.calls (c :: cs) :: .boundary b :: rest) w =
        none := by simp only [Thread.returning?, hrun]
    constructor
    · rw [hreturn]
      exact World.counted_of_served (c.effect_served hem library w _ _ hrun)
    · rw [hreturn, boundaries_on, boundaries_work]
      rfl
  | failed hfails hfail => exact ht.accounts_failed hem hfails hfail
  | calls | arms => exact ⟨hrefl, boundaries_on _⟩
  | @boundary b =>
    refine ⟨⟨rfl, rfl, (List.append_nil _).symm⟩, congrArg (b :: ·) ?_⟩
    exact (boundaries_on _).trans (boundaries_resume _ _ _ _)
  | enters hholds =>
    refine ⟨hrefl, ?_⟩
    simp only [Thread.invoking?, hholds]
    exact boundaries_on _
  | passes hholds =>
    refine ⟨hrefl, ?_⟩
    simp only [Thread.invoking?, hholds]
    exact boundaries_on _
  | @leaves l => exact ⟨hleave l, boundaries_on _⟩
  | pauses => exact ⟨hrefl, List.append_nil _⟩
  | repeats hgoes =>
    refine ⟨hrefl, ?_⟩
    simp only [Thread.invoking?, hgoes]
    exact boundaries_on _
  | @ends token l _ hleaves =>
    refine ⟨hleave l, ?_⟩
    simp only [Thread.invoking?, hleaves]
    exact boundaries_on _
  | finishes hnext =>
    refine Thread.accounts_task (by rw [hnext]; nofun) hrefl ?_
    simp only [Thread.invoking?, hnext]
    exact boundaries_on _
  | reacts hnext hrun =>
    have hserved := Reaction.run_served hem _ hrun
    refine Thread.accounts_task (by rw [hnext]; nofun)
      (World.counted_of_eq hserved.calls hserved.failures hserved.noted) ?_
    simp only [Thread.invoking?, hnext]
    exact boundaries_on _
  | waits hnext =>
    refine Thread.accounts_task (by rw [hnext]; nofun) hrefl ?_
    simp only [Thread.invoking?, hnext]
    exact List.append_nil _
  | invokes hnext =>
    refine Thread.accounts_task (by rw [hnext]; nofun) hrefl ?_
    simp only [Thread.invoking?, hnext]
    exact boundaries_on _

/-- No failure escapes from such a thread, and what is left of it is such a thread. -/
theorem Thread.Whole.jobs (ht : t.Whole) (h : SnapBlocks.advance library em t w = some (a, w')) :
    (∀ u ∈ a.jobs.filterMap Job.thread?, u.Whole) ∧ ∀ r, a.result r = r := by
  by_cases hne : t = []
  · subst hne
    cases h
    exact ⟨nofun, fun _ => rfl⟩
  · obtain ⟨t', ht', rfl | ⟨token, _, rfl⟩⟩ := (ht.advance hne h).resolve_right ht.not_failsLast
    · refine ⟨fun u hu => ?_, fun _ => rfl⟩
      cases t' with
      | nil => cases hu
      | cons f t =>
        cases List.mem_singleton.mp hu
        exact ht'
    · refine ⟨fun u hu => ?_, fun _ => rfl⟩
      cases List.mem_singleton.mp hu
      exact ht'

/-! ## Machines -/

namespace Machine

variable {m m' : Machine H} {s : Setting H} {trace : List (Machine H)}

/-- Every thread is guarded, and no failure has escaped. -/
structure Guarded (m : Machine H) : Prop where
  threads {t : Thread H} : t ∈ m.threads → t.Whole
  result : m.result = .ok ()

/-- What returns in the next step. -/
def returning? (s : Setting H) (depth : Nat) (m : Machine H) : Option (Return H) :=
  match m.ready with
  | .resume t :: _ => t.returning? s.library (World.emit depth) m.world
  | _ => none

/-- The boundary of the body that is invoked in the next step. -/
def invoking? (m : Machine H) : Option (Boundary H) :=
  match m.ready with
  | .start b :: _ => some (.body b.label)
  | .resume t :: _ => t.invoking? m.world
  | [] => none

/-- The boundaries that are set up in the next step: those of an entry chain or of a body. -/
def opening (m : Machine H) : List (Boundary H) :=
  m.entering?.toList.map (fun _ => .entry) ++ m.invoking?.toList

/-- The boundaries of all that has begun and has not returned. -/
def boundaries (m : Machine H) : List (Boundary H) := m.threads.flatMap Thread.boundaries

/-- The account of a step of a machine. -/
structure Accounts (s : Setting H) (depth : Nat) (m m' : Machine H) : Prop where
  counted : m.world.Counted (m.calling?.toList.countP (Call.isFound s.library))
    (m.returning? s depth).toList m'.world
  boundaries : ((m.returning? s depth).toList.map Return.boundary ++ m'.boundaries).Perm
    (m.opening ++ m.boundaries)
  entries : m.entries = m.entering?.toList ++ m'.entries

theorem Rearranges.boundaries (h : m.Rearranges m') : m'.boundaries.Perm m.boundaries :=
  h.threads.flatMap_right _

theorem Rearranges.counted (h : m.Rearranges m') : m.world.Counted 0 [] m'.world :=
  World.counted_of_eq h.calls h.failures (congrArg (List.filter Notice.isFailure) h.log)

theorem Rearranges.entries (h : m.Rearranges m') : m'.entries = m.entries := by
  unfold Machine.entries
  rw [h.plan]

/-- What happens next when no thread is ready, but for entry chains. -/
theorem next_of_nil (hready : m.ready = []) : m.calling? = none ∧
    m.returning? s depth = none ∧ m.opening = m.entering?.toList.map fun _ => .entry := by
  unfold calling? returning? opening invoking?
  rw [hready]
  exact ⟨rfl, rfl, List.append_nil _⟩

/-- What happens next when a queued body starts. -/
theorem next_of_start {b : Body} {rest : List (Job H)} (hready : m.ready = .start b :: rest) :
    m.calling? = none ∧ m.returning? s depth = none ∧ m.entering? = none ∧
      m.opening = [.body b.label] := by
  unfold calling? returning? opening invoking? entering?
  rw [hready]
  exact ⟨rfl, rfl, rfl, rfl⟩

/-- What happens next when the thread in front goes on. -/
theorem next_of_resume {t : Thread H} {rest : List (Job H)} (hready : m.ready = .resume t :: rest) :
    m.calling? = t.calling? ∧
      m.returning? s depth = t.returning? s.library (World.emit depth) m.world ∧
      m.entering? = none ∧
      m.opening = (t.invoking? m.world).toList := by
  refine ⟨calling?_resume hready, ?_⟩
  unfold returning? opening invoking? entering?
  rw [hready]
  exact ⟨rfl, rfl, rfl⟩

/-- The account of a step in which nothing is called, returns or begins. -/
theorem accounts_of_quiet (hready : m.ready = []) (hentering : m.entering? = none)
    (hcounted : m.world.Counted 0 [] m'.world) (hboundaries : m'.boundaries.Perm m.boundaries)
    (hentries : m'.entries = m.entries) : m.Accounts s depth m' := by
  obtain ⟨hcalling, hreturning, hopening⟩ := next_of_nil hready
  rw [hentering] at hopening
  refine ⟨?_, ?_, ?_⟩
  · rw [hcalling, hreturning]
    exact hcounted
  · rw [hreturning, hopening]
    exact hboundaries
  · rw [hentering, hentries]
    rfl

theorem Guarded.front {t : Thread H} {rest : List (Job H)} (hm : m.Guarded)
    (hready : m.ready = .resume t :: rest) : t.Whole := by
  refine hm.threads ?_
  unfold Machine.threads
  rw [hready]
  exact List.mem_cons_self

theorem Guarded.rearranges (hm : m.Guarded) (h : m.Rearranges m') : m'.Guarded :=
  ⟨fun ht => hm.threads (h.threads.mem_iff.mp ht), h.result.trans hm.result⟩

/-- Threads stay guarded from step to step. -/
theorem Guarded.move (hm : m.Guarded) (h : Move s em m m') : m'.Guarded := by
  have hpaused {t : Thread H} (ht : t ∈ m.paused.map (·.thread)) : t.Whole :=
    hm.threads (List.mem_append_right _ ht)
  have hready {t : Thread H} (ht : t ∈ m.ready.filterMap Job.thread?) : t.Whole :=
    hm.threads (List.mem_append_left _ ht)
  cases h with
  | @start b rest hr hm' =>
    rw [hr] at hready
    rw [hm']
    refine ⟨fun {t} ht => ?_, hm.result⟩
    rcases List.mem_append.mp ht with ht | ht
    · rcases List.mem_cons.mp ht with rfl | ht
      · exact .body b .base
      · exact hready ht
    · exact hpaused ht
  | @advance t rest a w hr ha hm' =>
    obtain ⟨hjobs, hresult⟩ := (hm.front hr).jobs ha
    have hsettle := rearranges_settle m s rest a w
    rw [hr] at hready
    rw [hm']
    refine ⟨fun {u} hu => ?_, ?_⟩
    · have hu := hsettle.threads.mem_iff.mp hu
      rw [threads_taken] at hu
      rcases List.mem_append.mp hu with hu | hu
      · exact hjobs u hu
      · exact (List.mem_append.mp hu).elim (fun hu => hready (.tail _ hu)) hpaused
    · rw [hsettle.result]
      exact (hresult _).trans hm.result
  | enter _ hp _ hm' =>
    rw [hm']
    refine ⟨fun {t} ht => ?_, hm.result⟩
    unfold Machine.threads at ht
    rw [hp] at ht
    cases List.mem_singleton.mp ht
    exact .calls _ trivial .base
  | @begin _ w _ _ _ _ hm' =>
    have hbegin : Guarded { m with plan := .drive, world := w } := ⟨hm.threads, hm.result⟩
    exact hm' ▸ hbegin.rearranges (rearranges_enlist _)
  | rearrange _ _ hm' => exact hm.rearranges hm'

/-- **Accounts.** A step counts the call that it makes if its function is found, and counts and notes
the failure that returns in it, if one does. -/
theorem Guarded.accounts (hm : m.Guarded) (h : Move s (World.emit depth) m m') :
    m.Accounts s depth m' := by
  have hem := World.emit_traced (H := H) depth
  cases h with
  | @start b rest hready hm' =>
    obtain ⟨hcalling, hreturning, hentering, hopening⟩ := next_of_start hready
    rw [hm']
    refine ⟨?_, ?_, ?_⟩
    · rw [hcalling, hreturning]
      exact World.counted_of_eq rfl rfl rfl
    · rw [hreturning, hopening]
      unfold Machine.boundaries Machine.threads
      rw [hready]
      exact .refl _
    · rw [hentering]
      rfl
  | @advance t rest a w hready ha hm' =>
    have A := (hm.front hready).accounts hem ha
    have hsettle := rearranges_settle m s rest a w
    obtain ⟨hcalling, hreturning, hentering, hopening⟩ := next_of_resume hready
    rw [hm']
    refine ⟨?_, ?_, ?_⟩
    · rw [hcalling, hreturning]
      simpa using A.counted.trans hsettle.counted
    · rw [hreturning, hopening]
      refine (hsettle.boundaries.append_left _).trans (.of_eq ?_)
      unfold Machine.boundaries
      rw [threads_taken, List.flatMap_append, ← List.append_assoc, A.boundaries, List.append_assoc]
      unfold Machine.threads
      rw [hready]
      rfl
    · rw [hentering, hsettle.entries]
      rfl
  | @enter chain entries hready hpaused hplan hm' =>
    obtain ⟨hcalling, hreturning, hopening⟩ := next_of_nil hready
    have hentering : m.entering? = some chain := by
      unfold entering?
      rw [hready, hpaused, hplan]
    rw [hentering] at hopening
    rw [hm']
    refine ⟨?_, ?_, ?_⟩
    · rw [hcalling, hreturning]
      exact World.counted_of_eq rfl rfl rfl
    · rw [hreturning, hopening]
      unfold Machine.boundaries Machine.threads
      rw [hready, hpaused]
      exact .refl _
    · rw [hentering]
      unfold Machine.entries
      rw [hplan]
      rfl
  | @begin n w hready hpaused hplan he hm' =>
    have hentering : m.entering? = none := by
      unfold entering?
      rw [hready, hpaused, hplan]
    have hserved := hem.served he
    have hlist := rearranges_enlist { m with plan := .drive, world := w }
    rw [hm']
    refine accounts_of_quiet hready hentering ?_ hlist.boundaries ?_
    · exact World.counted_of_eq (hlist.calls.trans hserved.calls)
        (hlist.failures.trans hserved.failures)
        ((congrArg (List.filter Notice.isFailure) hlist.log).trans hserved.noted)
    · unfold Machine.entries
      rw [hplan, hlist.plan]
  | rearrange hready hplan hm' =>
    have hentering : m.entering? = none := by
      unfold entering?
      split
      next hpaused hregister => exact absurd hregister (hplan hpaused _)
      · rfl
    exact accounts_of_quiet hready hentering hm'.counted hm'.boundaries hm'.entries

theorem Guarded.contains (hm : m.Guarded) : m.Contains s depth := by
  intro t rest e k w hready hfails
  have ht := hm.front hready
  have hne : t ≠ [] := by
    obtain ⟨f, rfl⟩ := hfails.eq_cons
    exact List.cons_ne_nil _ _
  exact contains_of_guarded ht hne ht.not_failsLast hready t rest e k w hready hfails

/-! ## Runs -/

/-- **Accounts of a run.** A run counts the calls whose functions it finds, and counts and notes the
failures that return in it. -/
theorem Guarded.path (hm : m.Guarded) (hp : Path s depth m trace m') :
    m.world.Counted ((trace.filterMap calling?).countP (Call.isFound s.library))
      (trace.filterMap (returning? s depth)) m'.world ∧
    ((trace.filterMap (returning? s depth)).map Return.boundary ++ m'.boundaries).Perm
      (trace.flatMap opening ++ m.boundaries) ∧
    m.entries = trace.filterMap entering? ++ m'.entries := by
  simp only [List.filterMap_eq_flatMap_toList]
  induction hp with
  | nil => exact ⟨World.counted_of_eq rfl rfl rfl, .refl _, rfl⟩
  | @cons m x m' m'' trace hshifts _ hstep _ ih =>
    have hmove := move_of_step hstep
    have hr := hshifts.rearranges
    have hx := hm.rearranges hr
    have A := hx.accounts hmove
    obtain ⟨hcounted, hboundaries, hentries⟩ := ih (hx.move hmove)
    simp only [List.flatMap_cons, List.countP_append, List.map_append, List.append_assoc]
    refine ⟨?_, ?_, ?_⟩
    · have hall := hr.counted.trans (A.counted.trans hcounted)
      rwa [Nat.zero_add] at hall
    · refine (hboundaries.append_left _).trans ?_
      refine (List.perm_append_comm_assoc _ _ _).trans ?_
      refine (A.boundaries.append_left _).trans ?_
      refine (List.perm_append_comm_assoc _ _ _).trans ?_
      exact (hr.boundaries.append_left _).append_left _
    · rw [← hr.entries, A.entries, hentries]

end Machine

end SnapBlocks

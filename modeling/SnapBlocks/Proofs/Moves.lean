import SnapBlocks.Run.Schedule
import SnapBlocks.Run.Session
import Mathlib.Data.List.Perm.Basic

/-! The moves of a machine. Apart from a body that starts, a thread that goes on, an entry chain
that begins and the event that starts programs, a step only rearranges what there is to run: it
keeps the threads, and the bodies that wait stay in order. So does all that a schedule may do around
the steps. -/

namespace SnapBlocks

variable {H : Type} {w : World H} {em : Emitter H} {depth : Nat}

/-- The thread that a job resumes. -/
def Job.thread? : Job H → Option (Thread H)
  | .start _ => none
  | .resume t => some t

/-- The call that a thread makes in its next step. -/
def Thread.calling? : Thread H → Option Call
  | .calls (c :: _) :: _ => some c
  | _ => none

/-- The reaction that a function of the host carries out in the next step of a thread. -/
def Thread.reacting? : Thread H → Option (Reaction H)
  | .task t replies :: _ =>
    match t replies with
    | .react r => some r
    | _ => none
  | _ => none

/-- A thread fails in its next step, in a call or in a function of the host. What stands behind is
left to be unwound, in the world that there is then. -/
inductive Thread.Fails (library : Library H) (em : Emitter H) (w : World H) :
    Thread H → RunError → Thread H → World H → Prop
  | call {c : Call} {cs : List Call} {k : Thread H} {e : RunError} {u : World H} :
      (c.effect library em).run w = some (.error e, u) →
      Fails library em w (.calls (c :: cs) :: k) e k u
  | task {t : Task H} {replies : List (Reply H)} {k : Thread H} {e : RunError} :
      t replies = .finish (.error e) → Fails library em w (.task t replies :: k) e k w

theorem Thread.Fails.eq_cons {library : Library H} {t k : Thread H} {e : RunError} {u : World H}
    (h : t.Fails library em w e k u) : ∃ f, t = f :: k := by
  cases h with
  | call => exact ⟨_, rfl⟩
  | task => exact ⟨_, rfl⟩

/-- What a step of a thread is: what is left of the thread, and the world then. -/
inductive Thread.Advances (library : Library H) (em : Emitter H) (w : World H) :
    Thread H → Advance H → World H → Prop
  | ended : Advances library em w [] (.on []) w
  | called {c : Call} {cs : List Call} {k : Thread H} {work : Work H} {w' : World H} :
      (c.effect library em).run w = some (.ok work, w') →
      Advances library em w (.calls (c :: cs) :: k) (.on (work.frames ++ .calls cs :: k)) w'
  | failed {t k : Thread H} {e : RunError} {u w' : World H} {a : Advance H} :
      t.Fails library em w e k u → fail e k u = (a, w') → Advances library em w t a w'
  | calls {k : Thread H} : Advances library em w (.calls [] :: k) (.on k) w
  | boundary {b : Boundary H} {k : Thread H} :
      Advances library em w (.boundary b :: k) (.on (b.resume (.ok ()) w.shared ++ k)) w
  | arms {k : Thread H} : Advances library em w (.arms [] :: k) (.on k) w
  | enters {a : Arm} {as : List Arm} {k : Thread H} : w.shared.conditionHolds a.condition →
      Advances library em w (.arms (a :: as) :: k) (.on (a.body.frames ++ .arms as :: k)) w
  | passes {a : Arm} {as : List Arm} {k : Thread H} :
      w.shared.conditionHolds a.condition = false →
      Advances library em w (.arms (a :: as) :: k) (.on (.arms as :: k)) w
  | leaves {l : Loop} {k : Thread H} : w.shared.tokens.stopped →
      Advances library em w (.loop l :: k) (.on k) (l.leave w)
  | pauses {l : Loop} {k : Thread H} : w.shared.tokens.stopped = false →
      Advances library em w (.loop l :: k)
        (.pause (some w.shared.tokens.current) (.check w.shared.tokens.current l :: k)) w
  | repeats {token : Token} {l : Loop} {k : Thread H} : l.goesOn token w.shared →
      Advances library em w (.check token l :: k) (.on (l.body.frames ++ .loop l :: k)) w
  | ends {token : Token} {l : Loop} {k : Thread H} : l.goesOn token w.shared = false →
      Advances library em w (.check token l :: k) (.on k) (l.leave w)
  | finishes {t : Task H} {replies : List (Reply H)} {k : Thread H} :
      t replies = .finish (.ok ()) → Advances library em w (.task t replies :: k) (.on k) w
  | reacts {t : Task H} {replies : List (Reply H)} {k : Thread H} {r : Reaction H}
      {result : Except RunError Unit} {w' : World H} : t replies = .react r →
      r.run em w = some (result, w') →
      Advances library em w (.task t replies :: k)
        (.on (.task t (replies ++ [⟨result, w'.shared⟩]) :: k)) w'
  | waits {t : Task H} {replies : List (Reply H)} {k : Thread H} : t replies = .pause →
      Advances library em w (.task t replies :: k)
        (.pause none (.task t (replies ++ [⟨.ok (), w.shared⟩]) :: k)) w
  | invokes {t : Task H} {replies : List (Reply H)} {k : Thread H} {isolated : Bool} {b : Body} :
      t replies = .invoke isolated b →
      Advances library em w (.task t replies :: k) (.on (.calls b.chain ::
        .boundary (.task (if isolated then some b.label else none) t replies) :: k)) w

/-- **Inversion of the steps of threads.** -/
theorem advances_of_advance {library : Library H} {t : Thread H} {a : Advance H} {w' : World H}
    (h : advance library em t w = some (a, w')) : t.Advances library em w a w' := by
  unfold advance at h
  split at h
  · cases h; exact .ended
  · cases h; exact .calls
  · split at h
    · cases h
    next hrun => cases h; exact .called hrun
    next hrun => exact .failed (.call hrun) (Option.some.inj h)
  · cases h; exact .boundary
  · cases h; exact .arms
  · split at h
    next hholds => cases h; exact .enters hholds
    next hholds => cases h; exact .passes (Bool.eq_false_iff.mpr hholds)
  · split at h
    next hstop => cases h; exact .leaves hstop
    next hstop => cases h; exact .pauses (Bool.eq_false_iff.mpr hstop)
  · split at h
    next hgoes => cases h; exact .repeats hgoes
    next hgoes => cases h; exact .ends (Bool.eq_false_iff.mpr hgoes)
  · split at h
    next hnext => cases h; exact .finishes hnext
    next hnext => exact .failed (.task hnext) (Option.some.inj h)
    next hnext =>
      split at h
      · cases h
      next hrun => cases h; exact .reacts hnext hrun
    next hnext => cases h; exact .waits hnext
    next hnext => cases h; exact .invokes hnext

/-- **Inversion of failures.** A failure escapes, or ends at the nearest boundary. -/
theorem fail_cases {e : RunError} {k : Thread H} {u w' : World H} {a : Advance H}
    (h : fail e k u = (a, w')) :
    (∃ rest, unwind k = (.outside, rest) ∧ a = .escaped e ∧ w' = u) ∨
      ∃ b rest, unwind k = (b, rest) ∧ b ≠ .outside ∧
        a = .on (b.resume (.error e) u.shared ++ rest) ∧ w' = b.catch e u := by
  unfold fail at h
  split at h
  next rest hunwind =>
    cases h
    exact .inl ⟨rest, hunwind, rfl, rfl⟩
  next b rest hne hunwind =>
    cases h
    exact .inr ⟨b, rest, hunwind, hne, rfl, rfl⟩

/-- The world after a failure is the one before, but that the failure may have been noted. -/
theorem fail_world {e : RunError} {k : Thread H} {u w' : World H} {a : Advance H}
    (h : fail e k u = (a, w')) : w' = u ∨ ∃ n, w' = u.noteFailure n := by
  rcases fail_cases h with ⟨_, _, _, rfl⟩ | ⟨b, _, _, _, _, rfl⟩
  · exact .inl rfl
  · unfold Boundary.catch
    split
    · exact .inl rfl
    next n _ => exact .inr ⟨n, rfl⟩

/-- What is ready to run because of a step of a thread. -/
def Advance.jobs : Advance H → List (Job H)
  | .on [] => []
  | .on t => [.resume t]
  | .pause _ t => [.resume t]
  | .escaped _ => []

/-- The result of a chain after a step of its thread. -/
def Advance.result (before : Except RunError Unit) : Advance H → Except RunError Unit
  | .on _ => before
  | .pause _ _ => before
  | .escaped e => .error e

/-- Tokens may have been tripped. -/
inductive Shared.Trips (s : Shared H) : Shared H → Prop
  | refl : Trips s s
  | trip {t : Shared H} (token : Token) : Trips s t →
      Trips s { t with tokens := t.tokens.trip token }

theorem Shared.Trips.trans {s t u : Shared H} (h : s.Trips t) (h' : t.Trips u) : s.Trips u := by
  induction h' with
  | refl => exact h
  | trip token _ ih => exact .trip token ih

/-- Whoever waits for bodies is told of those that are queued. -/
def World.Alert (w : World H) : Prop := w.queue ≠ [] → w.signal

namespace Machine

/-- The queued bodies that are ready to start. -/
def enlisted (m : Machine H) : List Body := m.ready.filterMap Job.body?

/-- The bodies that have still to start, the first one first. -/
def waiting (m : Machine H) : List Body := m.enlisted ++ m.world.queue

/-- The threads of a machine. -/
def threads (m : Machine H) : List (Thread H) :=
  m.ready.filterMap Job.thread? ++ m.paused.map (·.thread)

/-- The body that starts in the next step. -/
def starting? (m : Machine H) : Option Body :=
  match m.ready with
  | .start b :: _ => some b
  | _ => none

/-- The call that a machine makes in its next step. -/
def calling? (m : Machine H) : Option Call :=
  match m.ready with
  | .resume t :: _ => t.calling?
  | _ => none

/-- The reaction that a function of the host carries out in the next step of a machine. -/
def reacting? (m : Machine H) : Option (Reaction H) :=
  match m.ready with
  | .resume t :: _ => t.reacting?
  | _ => none

/-- The entry chain that begins in the next step. -/
def entering? (m : Machine H) : Option Chain :=
  match m.ready, m.paused, m.plan with
  | [], [], .register (chain :: _) => some chain
  | _, _, _ => none

/-- The entry chains that have still to begin. -/
def entries (m : Machine H) : List Chain :=
  match m.plan with
  | .register entries => entries
  | _ => []

/-- Whether the event that starts programs is emitted in the next step. -/
def isStarting (m : Machine H) : Bool :=
  m.ready.isEmpty && m.paused.isEmpty &&
    match m.plan with
    | .register [] => true
    | _ => false

/-- The loop that drives bodies does not lose those that are queued: it is not done, and hears of
them. -/
def Alert (m : Machine H) : Prop :=
  m.plan = .drive → m.world.queue ≠ [] → m.isDone = false ∧ m.world.signal

/-- What was to run is rearranged. -/
structure Rearranges (m m' : Machine H) : Prop where
  plan : m'.plan = m.plan
  result : m'.result = m.result
  waiting : m'.waiting = m.waiting
  enlisted : m.plan ≠ .drive → m'.enlisted = m.enlisted
  threads : m'.threads.Perm m.threads
  shared : m.world.shared.Trips m'.world.shared
  subscribers : m'.world.subscribers = m.world.subscribers
  calls : m'.world.calls = m.world.calls
  failures : m'.world.failures = m.world.failures
  log : m'.world.log = m.world.log
  alert : m.Alert → m'.Alert

/-- What came of a step of the thread in front, with all that is left to run. -/
def taken (m : Machine H) (rest : List (Job H)) (a : Advance H) (w : World H) : Machine H :=
  { m with world := w, ready := a.jobs ++ rest, result := a.result m.result }

/-- The moves of a machine. -/
inductive Move (s : Setting H) (em : Emitter H) (m m' : Machine H) : Prop
  | start {b : Body} {rest : List (Job H)} : m.ready = .start b :: rest →
      m' = { m with ready := .resume b.frames :: rest, polling := true } → Move s em m m'
  | advance {t : Thread H} {rest : List (Job H)} {a : Advance H} {w : World H} :
      m.ready = .resume t :: rest → SnapBlocks.advance s.library em t m.world = some (a, w) →
      m' = m.settle s rest (a, w) → Move s em m m'
  | enter {chain : Chain} {entries : List Chain} : m.ready = [] → m.paused = [] →
      m.plan = .register (chain :: entries) →
      m' = { m with
        plan := .register entries
        ready := [.resume [.calls chain, .boundary .entry]]
        polling := true } →
      Move s em m m'
  | begin {n : Nat} {w : World H} : m.ready = [] → m.paused = [] → m.plan = .register [] →
      em startEvent [] m.world = some (n, w) →
      m' = enlist { m with plan := .drive, world := w } → Move s em m m'
  | rearrange : m.ready = [] → (m.paused = [] → ∀ entries, m.plan ≠ .register entries) →
      m.Rearranges m' → m'.polling = m.polling → Move s em m m'

variable {m m' m'' x : Machine H} {s : Setting H} {trace : List (Machine H)}

theorem isDone_iff : m.isDone = true ↔ m.ready = [] ∧ m.paused = [] ∧
    ∀ entries, m.plan ≠ .register entries := by
  unfold isDone
  simp only [Bool.and_eq_true, List.isEmpty_iff, and_assoc, and_congr_right_iff]
  intro _ _
  cases m.plan <;> simp

theorem ready_eq_nil_iff : m.ready = [] ↔ m.ready.filterMap Job.thread? = [] ∧ m.enlisted = [] := by
  refine ⟨fun h => ?_, fun ⟨hthreads, henlisted⟩ => List.eq_nil_iff_forall_not_mem.mpr fun j hj => ?_⟩
  · unfold enlisted
    rw [h]
    exact ⟨rfl, rfl⟩
  · cases j with
    | start b => exact Option.some_ne_none _ (List.filterMap_eq_nil_iff.mp henlisted _ hj)
    | resume t => exact Option.some_ne_none _ (List.filterMap_eq_nil_iff.mp hthreads _ hj)

/-- A machine is done when it has no threads and no bodies to start, and no entries to run. -/
theorem isDone_iff_threads : m.isDone = true ↔ m.threads = [] ∧ m.enlisted = [] ∧
    ∀ entries, m.plan ≠ .register entries := by
  unfold threads
  rw [isDone_iff, ready_eq_nil_iff, List.append_eq_nil_iff, List.map_eq_nil_iff]
  constructor
  · rintro ⟨⟨hthreads, henlisted⟩, hpaused, hplan⟩
    exact ⟨⟨hthreads, hpaused⟩, henlisted, hplan⟩
  · rintro ⟨⟨hthreads, hpaused⟩, henlisted, hplan⟩
    exact ⟨⟨hthreads, henlisted⟩, hpaused, hplan⟩

theorem calling?_resume {t : Thread H} {rest : List (Job H)} (hready : m.ready = .resume t :: rest) :
    m.calling? = t.calling? := by
  unfold calling?
  rw [hready]

/-- A call is made by the thread in front. -/
theorem ready_of_calling {c : Call} (hc : m.calling? = some c) :
    ∃ cs k rest, m.ready = .resume (.calls (c :: cs) :: k) :: rest := by
  unfold calling? at hc
  split at hc
  next hready =>
    unfold Thread.calling? at hc
    split at hc
    · cases hc
      exact ⟨_, _, _, hready⟩
    · cases hc
  · cases hc

theorem alert_of_queue (h : m.plan = .drive → m.world.queue = []) : m.Alert :=
  fun hplan hqueue => absurd (h hplan) hqueue

theorem alert_enlist (m : Machine H) : m.enlist.Alert := by
  unfold enlist
  split
  · exact alert_of_queue fun _ => rfl
  next hplan => exact alert_of_queue fun h => absurd h hplan

/-! ## What only rearranges -/

namespace Rearranges

theorem refl (m : Machine H) : m.Rearranges m :=
  ⟨rfl, rfl, rfl, fun _ => rfl, .refl _, .refl, rfl, rfl, rfl, rfl, id⟩

theorem trans (h : m.Rearranges m') (h' : m'.Rearranges m'') : m.Rearranges m'' where
  plan := h'.plan.trans h.plan
  result := h'.result.trans h.result
  waiting := h'.waiting.trans h.waiting
  enlisted hp := (h'.enlisted (h.plan ▸ hp)).trans (h.enlisted hp)
  threads := h'.threads.trans h.threads
  shared := h.shared.trans h'.shared
  subscribers := h'.subscribers.trans h.subscribers
  calls := h'.calls.trans h.calls
  failures := h'.failures.trans h.failures
  log := h'.log.trans h.log
  alert := h'.alert ∘ h.alert

/-- The world stays as it is, but that tokens may be tripped, and so do the threads and the bodies
that are ready to start. -/
theorem of_jobs {tokens : Tokens} (hplan : m'.plan = m.plan) (hresult : m'.result = m.result)
    (henlisted : m'.enlisted = m.enlisted) (hthreads : m'.threads.Perm m.threads)
    (htrips : m.world.shared.Trips { m.world.shared with tokens := tokens })
    (hworld : m'.world = { m.world with shared := { m.world.shared with tokens := tokens } }) :
    m.Rearranges m' where
  plan := hplan
  result := hresult
  waiting := by
    unfold Machine.waiting
    rw [henlisted, hworld]
  enlisted _ := henlisted
  threads := hthreads
  shared := hworld ▸ htrips
  subscribers := hworld ▸ rfl
  calls := hworld ▸ rfl
  failures := hworld ▸ rfl
  log := hworld ▸ rfl
  alert h hp hq := by
    rw [hworld] at hq ⊢
    obtain ⟨hmore, hsignal⟩ := h (hplan ▸ hp) hq
    refine ⟨Bool.eq_false_iff.mpr fun hdone => Bool.eq_false_iff.mp hmore ?_, hsignal⟩
    rw [isDone_iff_threads] at hdone ⊢
    rw [← henlisted, ← hplan]
    exact ⟨(hdone.1 ▸ hthreads).nil_eq.symm, hdone.2⟩

end Rearranges

theorem filterMap_body_start (l : List Body) :
    (l.map (Job.start (H := H))).filterMap Job.body? = l := by
  rw [List.filterMap_map]
  exact List.filterMap_some

theorem filterMap_thread_start (l : List Body) :
    (l.map (Job.start (H := H))).filterMap Job.thread? = [] := by
  rw [List.filterMap_map]
  exact List.filterMap_eq_nil_iff.mpr fun _ _ => rfl

theorem filterMap_body_resume (l : List (Paused H)) :
    (l.map fun q => Job.resume q.thread).filterMap Job.body? = [] := by
  rw [List.filterMap_map]
  exact List.filterMap_eq_nil_iff.mpr fun _ _ => rfl

theorem filterMap_thread_resume (l : List (Paused H)) :
    (l.map fun q => Job.resume q.thread).filterMap Job.thread? = l.map (·.thread) := by
  rw [List.filterMap_map]
  exact congrFun List.filterMap_eq_map l

theorem enlist_of_drive (h : m.plan = .drive) : m.enlist =
    { m with
      world := { m.world with queue := [] }
      ready := m.ready ++ m.world.queue.map .start } := by
  unfold enlist
  rw [h]

theorem enlist_of_ne (h : m.plan ≠ .drive) : m.enlist = m := by
  unfold enlist
  split
  next hplan => exact absurd hplan h
  · rfl

theorem rearranges_enlist (m : Machine H) : m.Rearranges m.enlist := by
  by_cases hplan : m.plan = .drive
  · have halert := alert_enlist m
    rw [enlist_of_drive hplan] at halert ⊢
    refine ⟨rfl, rfl, ?_, fun h => absurd hplan h, ?_, .refl, rfl, rfl, rfl, rfl, fun _ => halert⟩
    · simp only [waiting, enlisted, List.filterMap_append, filterMap_body_start, List.append_nil]
    · simp only [threads, List.filterMap_append, filterMap_thread_start, List.append_nil]
      exact .refl _
  · rw [enlist_of_ne hplan]
    exact .refl m

theorem rearranges_release (m : Machine H) (p : Paused H → Bool) :
    m.Rearranges (m.release p) := by
  refine .of_jobs rfl rfl ?_ ?_ .refl rfl
  · simp only [release, enlisted, List.filterMap_append, filterMap_body_resume, List.append_nil]
  · simp only [release, threads, List.filterMap_append, filterMap_thread_resume, List.append_assoc,
      ← List.map_append]
    exact ((List.filter_append_perm p m.paused).map _).append_left _

theorem rearranges_clock (m : Machine H) (time : Nat) : m.Rearranges { m with clock := time } :=
  .of_jobs rfl rfl rfl (.refl _) .refl rfl

/-- A token is tripped, whatever becomes of the clock and the deadline. -/
theorem rearranges_trip (m : Machine H) (token : Token) (time : Nat)
    (deadline : Option (Nat × Token)) : m.Rearranges
      { m with world := m.world.trip token, clock := time, deadline := deadline } :=
  .of_jobs rfl rfl rfl (.refl _) (.trip token .refl) rfl

theorem rearranges_sleep (m : Machine H) (first : Nat) : m.Rearranges (m.sleep first) := by
  unfold sleep
  split
  · split
    · exact (m.rearranges_trip _ _ _).trans (rearranges_release _ _)
    · exact m.rearranges_clock _
  · exact m.rearranges_clock _

theorem polling_enlist (m : Machine H) : m.enlist.polling = m.polling := by
  unfold enlist
  split
  · rfl
  · rfl

theorem polling_sleep (m : Machine H) (first : Nat) : (m.sleep first).polling = m.polling := by
  unfold sleep
  split
  · split
    · rfl
    · rfl
  · rfl

theorem rearranges_polling (m : Machine H) (b : Bool) : m.Rearranges { m with polling := b } :=
  .of_jobs rfl rfl rfl (.refl _) .refl rfl

theorem isCalled_iff : m.isCalled = true ↔ m.plan = .drive ∧ m.world.signal = true := by
  unfold isCalled
  cases m.plan <;> simp

theorem hear_of_isCalled (h : m.isCalled) : m.hear =
    { m with
      world := { m.world with queue := [], signal := false }
      ready := m.ready ++ m.world.queue.map .start } :=
  enlist_of_drive (m := { m with world := { m.world with signal := false } }) (isCalled_iff.mp h).1

theorem rearranges_hear (m : Machine H) (h : m.isCalled) : m.Rearranges m.hear := by
  have hdrive := (isCalled_iff.mp h).1
  have hlisten := rearranges_enlist { m with world := { m.world with signal := false } }
  exact ⟨hlisten.plan, hlisten.result, hlisten.waiting, fun hp => absurd hdrive hp, hlisten.threads,
    hlisten.shared, hlisten.subscribers, hlisten.calls, hlisten.failures, hlisten.log,
    fun _ => alert_enlist _⟩

theorem rearranges_pause (m : Machine H) (s : Setting H) (token : Option Token) (t : Thread H) :
    Rearranges { m with ready := .resume t :: m.ready } (m.pause s token t) := by
  unfold pause
  split
  · refine .of_jobs rfl rfl rfl ?_ .refl rfl
    simp only [threads, List.map_append, List.map_cons, List.map_nil, ← List.append_assoc]
    exact List.perm_append_singleton ..
  · exact .of_jobs rfl rfl rfl List.perm_middle .refl rfl

theorem polling_pause (m : Machine H) (s : Setting H) (token : Option Token) (t : Thread H) :
    (m.pause s token t).polling = m.polling := by
  unfold pause
  split
  · rfl
  · rfl

/-- Whatever happens between the steps only rearranges. -/
theorem Shift.rearranges (h : Shift m x) : m.Rearranges x := by
  cases h with
  | @order ready _ hperm hbodies =>
    refine .of_jobs rfl rfl hbodies ?_ .refl rfl
    exact (hperm.filterMap Job.thread?).append_right _
  | @wake before after p hpaused _ =>
    refine .of_jobs rfl rfl ?_ ?_ .refl rfl
    · unfold enlisted
      rw [List.filterMap_append]
      exact List.append_nil _
    · unfold threads
      rw [hpaused, List.filterMap_append, List.append_assoc, List.map_append, List.map_append]
      have hp : (p.thread :: (before.map (·.thread) ++ after.map (·.thread))).Perm
          (before.map (·.thread) ++ p.thread :: after.map (·.thread)) := List.perm_middle.symm
      exact hp.append_left _
  | elapse _ => exact m.rearranges_clock _
  | expire _ _ => exact m.rearranges_trip _ _ _
  | stop => exact m.rearranges_trip _ _ _
  | hear _ _ hcalled => exact m.rearranges_hear hcalled

theorem Shifts.rearranges (h : m.Shifts x) : m.Rearranges x := by
  induction h with
  | refl => exact .refl m
  | tail _ hshift ih => exact ih.trans hshift.rearranges

/-- What happens between the steps does not interrupt a thread that is being polled. -/
theorem Shift.polling_eq (h : Shift m x) : x.polling = m.polling := by
  cases h with
  | hear => exact polling_enlist _
  | _ => rfl

theorem Shifts.polling_eq (h : m.Shifts x) : x.polling = m.polling := by
  induction h with
  | refl => rfl
  | tail _ hshift ih => exact hshift.polling_eq.trans ih

/-- While a thread is being polled, all that is ready stays in front, and only tokens are tripped. -/
theorem Shifts.of_polling (h : m.Shifts x) (hm : m.polling) :
    (∃ later, x.ready = m.ready ++ later) ∧ x.world = { m.world with shared := x.world.shared } := by
  induction h with
  | refl => exact ⟨⟨[], (List.append_nil _).symm⟩, rfl⟩
  | @tail x y hshifts hshift ih =>
    obtain ⟨⟨later, hready⟩, hworld⟩ := ih
    have hx : x.polling := (Shifts.polling_eq hshifts).trans hm
    cases hshift with
    | order hfree => exact absurd hx (Bool.eq_false_iff.mp hfree)
    | hear hfree => exact absurd hx (Bool.eq_false_iff.mp hfree)
    | @wake before after p =>
      refine ⟨⟨later ++ [.resume p.thread], ?_⟩, hworld⟩
      dsimp only
      rw [hready, List.append_assoc]
    | elapse => exact ⟨⟨later, hready⟩, hworld⟩
    | expire | stop =>
      refine ⟨⟨later, hready⟩, ?_⟩
      dsimp only [World.stop, World.trip]
      rw [hworld]

/-- Only steps make a machine done. -/
theorem Shift.isDone_eq (h : Shift m x) : x.isDone = m.isDone := by
  have hr := h.rearranges
  cases h with
  | hear _ hmore hcalled =>
    refine Eq.trans (Bool.eq_false_iff.mpr fun hdone => Bool.eq_false_iff.mp hmore ?_) hmore.symm
    rw [isDone_iff_threads] at hdone ⊢
    obtain ⟨hthreads, henlisted, hplan⟩ := hdone
    refine ⟨(hthreads ▸ hr.threads).nil_eq.symm, ?_, hr.plan ▸ hplan⟩
    have hready : m.hear.enlisted = m.enlisted ++ m.world.queue := by
      rw [hear_of_isCalled hcalled]
      simp only [enlisted, List.filterMap_append, filterMap_body_start]
    exact (List.append_eq_nil_iff.mp (hready ▸ henlisted)).1
  | order _ hperm _ =>
    unfold isDone
    rw [List.Perm.isEmpty_eq hperm]
  | wake hpaused _ =>
    rw [Bool.eq_iff_iff, isDone_iff, isDone_iff, hpaused]
    simp
  | _ => rfl

theorem Shifts.isDone_eq (h : m.Shifts x) : x.isDone = m.isDone := by
  induction h with
  | refl => rfl
  | tail _ hshift ih => exact hshift.isDone_eq.trans ih

theorem enlisted_taken (m : Machine H) (rest : List (Job H)) (a : Advance H) (w : World H) :
    (m.taken rest a w).enlisted = rest.filterMap Job.body? := by
  unfold enlisted taken
  rw [List.filterMap_append]
  rcases a with (_ | _) | _ | _ <;> rfl

theorem threads_taken (m : Machine H) (rest : List (Job H)) (a : Advance H) (w : World H) :
    (m.taken rest a w).threads = a.jobs.filterMap Job.thread? ++
      (rest.filterMap Job.thread? ++ m.paused.map (·.thread)) := by
  unfold threads taken
  rw [List.filterMap_append, List.append_assoc]

/-- Once a step of the thread in front is taken in, the rest only rearranges what there is to
run. -/
theorem rearranges_settle (m : Machine H) (s : Setting H) (rest : List (Job H)) (a : Advance H)
    (w : World H) : (m.taken rest a w).Rearranges (m.settle s rest (a, w)) := by
  have hrouse (m : Machine H) : m.Rearranges { m with polling := false }.rouse :=
    (m.rearranges_polling _).trans (rearranges_release _ _)
  cases a with
  | on t =>
    cases t with
    | nil => exact (hrouse (m.taken rest (.on []) w)).trans (rearranges_enlist _)
    | cons f t => exact rearranges_polling _ _
  | pause token t =>
    refine (hrouse (m.taken rest (.pause token t) w)).trans ?_
    exact rearranges_pause { m with world := w, ready := rest, polling := false }.rouse s token t
  | escaped e => exact (hrouse (m.taken rest (.escaped e) w)).trans (rearranges_enlist _)

/-! ## Steps and runs -/

/-- The thread in front makes the next step. -/
theorem step_of_advance {t : Thread H} {rest : List (Job H)} {p : Advance H × World H}
    (hready : m.ready = .resume t :: rest)
    (ha : SnapBlocks.advance s.library em t m.world = some p) :
    m.step s em = some (m.settle s rest p) := by
  unfold step
  rw [hready]
  dsimp only
  rw [ha, Option.map_some]

section
variable {c : Call} {cs : List Call} {k : Thread H} {rest : List (Job H)}
variable (hready : m.ready = .resume (.calls (c :: cs) :: k) :: rest)
include hready

/-- The next step makes a call, and what the call leaves is done next. -/
theorem step_of_call {work : Work H}
    (hrun : (c.effect s.library em).run m.world = some (.ok work, w)) :
    m.step s em = some (m.settle s rest (.on (work.frames ++ .calls cs :: k), w)) := by
  refine step_of_advance hready ?_
  simp only [SnapBlocks.advance, hrun]

end

/-- The next step fails. -/
theorem step_of_fails {t k : Thread H} {rest : List (Job H)} {e : RunError}
    (hready : m.ready = .resume t :: rest) (hf : t.Fails s.library em m.world e k w) :
    m.step s em = some (m.settle s rest (fail e k w)) := by
  refine step_of_advance hready ?_
  cases hf with
  | call hrun => simp only [SnapBlocks.advance, hrun]
  | task hnext => simp only [SnapBlocks.advance, hnext]

theorem move_of_step (h : m.step s em = some m') : Move s em m m' := by
  unfold step at h
  split at h
  next b rest hready =>
    cases h
    exact .start hready rfl
  next t rest hready =>
    obtain ⟨⟨a, w⟩, ha, rfl⟩ := Option.map_eq_some_iff.mp h
    exact .advance hready ha rfl
  next hready =>
    split at h
    next hpaused =>
      unfold proceed at h
      split at h
      next hplan =>
        cases h
        exact .enter hready hpaused hplan rfl
      next hplan =>
        obtain ⟨⟨n, w⟩, he, rfl⟩ := Option.map_eq_some_iff.mp h
        exact .begin hready hpaused hplan he rfl
      next hcons hnil =>
        cases h
        refine .rearrange hready (fun _ entries hplan => ?_) (.refl m) rfl
        cases entries with
        | nil => exact hnil hplan
        | cons chain entries => exact hcons _ _ hplan
    next p others hpaused =>
      have hne : m.paused = [] → ∀ entries, m.plan ≠ .register entries := by
        rw [hpaused]
        exact nofun
      split at h
      next hcalled =>
        cases h
        exact .rearrange hready hne (m.rearranges_hear hcalled) (polling_enlist _)
      next =>
        split at h
        · cases h
          exact .rearrange hready hne (rearranges_release m _) rfl
        · cases h
          exact .rearrange hready hne (rearranges_sleep m _) (polling_sleep m _)

/-- What a machine does by itself is one schedule. -/
theorem path_of_run {fuel : Nat} (h : run s depth fuel m = some m') :
    (∃ trace, Path s depth m trace m') ∧ m'.isDone := by
  induction fuel generalizing m with
  | zero =>
    unfold run at h
    split at h
    next hdone =>
      cases h
      exact ⟨⟨[], .nil⟩, hdone⟩
    · cases h
  | succ fuel ih =>
    unfold run at h
    split at h
    next hdone =>
      cases h
      exact ⟨⟨[], .nil⟩, hdone⟩
    next hmore =>
      dsimp only at h
      split at h
      next hstep =>
        obtain ⟨⟨trace, hpath⟩, hdone⟩ := ih h
        exact ⟨⟨_, .cons .refl (Bool.eq_false_iff.mpr hmore) hstep hpath⟩, hdone⟩
      · cases h

theorem Shifts.invariant {I : Machine H → Prop} (h : m.Shifts x) (hm : I m)
    (hshift : ∀ {m x}, I m → Shift m x → I x) : I x := by
  induction h with
  | refl => exact hm
  | tail _ h ih => exact hshift ih h

/-- An invariant holds in all the states of a run, whatever the schedule. -/
theorem Path.invariant {I : Machine H → Prop} (hp : Path s depth m trace m') (hm : I m)
    (hshift : ∀ {m x}, I m → Shift m x → I x)
    (hstep : ∀ {m m'}, I m → Move s (World.emit depth) m m' → I m') :
    (∀ x ∈ trace, I x) ∧ I m' := by
  induction hp with
  | nil => exact ⟨List.forall_mem_nil _, hm⟩
  | cons hshifts _ h _ ih =>
    have hx := hshifts.invariant hm hshift
    obtain ⟨htrace, hlast⟩ := ih (hstep hx (move_of_step h))
    refine ⟨fun y hy => ?_, hlast⟩
    rcases List.mem_cons.mp hy with rfl | hy
    · exact hx
    · exact htrace y hy

theorem Path.split {before later : List (Machine H)} (hp : Path s depth m (before ++ later) m') :
    ∃ x, Path s depth m before x ∧ Path s depth x later m' := by
  induction before generalizing m with
  | nil => exact ⟨m, .nil, hp⟩
  | cons y before ih =>
    cases hp with
    | cons hshifts hmore hstep hp =>
      obtain ⟨x, hbefore, hlater⟩ := ih hp
      exact ⟨x, .cons hshifts hmore hstep hbefore, hlater⟩

/-- A machine that is done has come to its end. -/
theorem Path.eq_of_isDone (hp : Path s depth m trace m') (hm : m.isDone) :
    trace = [] ∧ m' = m := by
  cases hp with
  | nil => exact ⟨rfl, rfl⟩
  | cons hshifts hmore =>
    rw [hshifts.isDone_eq, hm] at hmore
    cases hmore

end Machine

namespace Session

variable {s after : Session H} {fuel : Nat}

/-- A program that a session runs takes a path of its machine. -/
theorem execute_path {p : Program} {limit : Option Nat} {r : Summary}
    (h : s.execute fuel p limit = some (r, after)) : ∃ trace last,
      Machine.Path s.setting fuel (s.machine p limit) trace last ∧ last.isDone ∧
        last.world = after.world ∧ s.summary last = r := by
  unfold execute operate at h
  obtain ⟨⟨last, after'⟩, hm, h⟩ := Option.bind_eq_some_iff.mp h
  obtain ⟨last', hrun, he⟩ := Option.map_eq_some_iff.mp hm
  cases he
  cases h
  obtain ⟨⟨trace, hpath⟩, hdone⟩ := Machine.path_of_run hrun
  exact ⟨trace, last, hpath, hdone, rfl, rfl⟩

/-- A chain that a session runs takes a path of its machine. -/
theorem runChain_path {c : Chain} {result : Except RunError Unit}
    (h : s.runChain fuel c = some (result, after)) : ∃ trace last,
      Machine.Path s.setting fuel (s.chainMachine c) trace last ∧ last.isDone ∧
        last.world = after.world ∧ last.result = result := by
  unfold runChain operate at h
  obtain ⟨⟨last, after'⟩, hm, h⟩ := Option.bind_eq_some_iff.mp h
  obtain ⟨last', hrun, he⟩ := Option.map_eq_some_iff.mp hm
  cases he
  cases h
  obtain ⟨⟨trace, hpath⟩, hdone⟩ := Machine.path_of_run hrun
  exact ⟨trace, last, hpath, hdone, rfl, rfl⟩

end Session

end SnapBlocks

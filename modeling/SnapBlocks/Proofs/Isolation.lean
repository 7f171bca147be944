import SnapBlocks.Proofs.Act
import SnapBlocks.Proofs.Moves

/-! Failures end at the body in which they arise. Whatever a call leaves to be done is guarded: its
chains of calls stand right in front of the boundaries at which their failures end, and functions of
the host right in front of the chains that called them. So the thread of a chain fails only in a call
of the chain itself, and the call that fails is the last one. -/

namespace SnapBlocks

variable {H : Type} {w w' : World H} {em : Emitter H} {t k base : Thread H} {a : Advance H}
variable {depth : Nat} {library : Library H} {T : Task H → Prop}

/-- A chain of calls stands in front, right in front of the boundary at which its failure ends. -/
def Thread.IsChain : Thread H → Prop
  | .calls _ :: .boundary _ :: _ => True
  | _ => False

/-- A function of the host goes on in front of a chain that called it. If that chain is the last one
of a thread, the function has a property. -/
structure Task.Fits (T : Task H → Prop) (base k : Thread H) (x : Task H) : Prop where
  chain : k.IsChain
  base : k = base → T x

/-- What goes on at a boundary fits what comes behind it. -/
def Boundary.Fits (T : Task H → Prop) (base k : Thread H) : Boundary H → Prop
  | task _ x _ => x.Fits T base k
  | outside => False
  | _ => True

/-- In front of the last part of a thread, each chain of calls stands right in front of the boundary
at which its failure ends, and each function of the host right in front of the chain that called
it. -/
inductive Thread.Guarded (T : Task H → Prop) (base : Thread H) : Thread H → Prop
  | base : Guarded T base base
  | calls {k : Thread H} {b : Boundary H} (cs : List Call) : b.Fits T base k → Guarded T base k →
      Guarded T base (.calls cs :: .boundary b :: k)
  | boundary {k : Thread H} {b : Boundary H} : b.Fits T base k → Guarded T base k →
      Guarded T base (.boundary b :: k)
  | arms {k : Thread H} (as : List Arm) : Guarded T base k → Guarded T base (.arms as :: k)
  | loop {k : Thread H} (l : Loop) : Guarded T base k → Guarded T base (.loop l :: k)
  | check {k : Thread H} (token : Token) (l : Loop) : Guarded T base k →
      Guarded T base (.check token l :: k)
  | task {k : Thread H} {x : Task H} (replies : List (Reply H)) : x.Fits T base k →
      Guarded T base k → Guarded T base (.task x replies :: k)

/-! ## Threads -/

namespace Thread.Guarded

theorem work (k : Work H) (hk : ∀ x, k = .task x → x.Fits T base t) (ht : Guarded T base t) :
    Guarded T base (k.frames ++ t) := by
  cases k with
  | none => exact ht
  | arms as => exact .arms as ht
  | loop l => exact .loop l ht
  | task x => exact .task [] (hk x rfl) ht

theorem body (b : Body) (ht : Guarded T base t) : Guarded T base (b.frames ++ t) :=
  .calls _ trivial ht

theorem resume {b : Boundary H} {result : Except RunError Unit} {shared : Shared H}
    (hb : b.Fits T base t) (ht : Guarded T base t) :
    Guarded T base (b.resume result shared ++ t) := by
  cases b with
  | task label x replies => exact .task _ hb ht
  | _ => exact ht

end Thread.Guarded

theorem Boundary.Fits.ne_outside {b : Boundary H} (h : b.Fits T base t) : b ≠ .outside := by
  rintro rfl
  exact h

theorem fail_boundary {b : Boundary H} (hb : b ≠ .outside) (e : RunError) (t : Thread H)
    (w : World H) : fail e (.boundary b :: t) w =
      (.on (b.resume (.error e) w.shared ++ t), b.catch e w) := by
  cases b with
  | outside => exact absurd rfl hb
  | _ => rfl

/-- A function of the host fails at the end of a thread. -/
def Thread.FailsLast (t base : Thread H) : Prop :=
  ∃ x replies e, t = .task x replies :: base ∧ x replies = .finish (.error e)

namespace Thread.Guarded

theorem tail {f : Frame H} (ht : Guarded T base (f :: t)) (hne : f :: t ≠ base)
    (hf : ∀ cs, f ≠ .calls cs) : Guarded T base t := by
  cases ht with
  | base => exact absurd rfl hne
  | calls cs => exact absurd rfl (hf cs)
  | boundary _ hk | arms _ hk | loop _ hk | check _ _ hk | task _ _ hk => exact hk

theorem of_calls {cs : List Call} (ht : Guarded T base (.calls cs :: t))
    (hne : .calls cs :: t ≠ base) :
    ∃ b k, t = .boundary b :: k ∧ b.Fits T base k ∧ Guarded T base k := by
  cases ht with
  | base => exact absurd rfl hne
  | calls _ hb hk => exact ⟨_, _, rfl, hb, hk⟩

theorem of_boundary {b : Boundary H} (ht : Guarded T base (.boundary b :: t))
    (hne : .boundary b :: t ≠ base) : b.Fits T base t := by
  cases ht with
  | base => exact absurd rfl hne
  | boundary hb => exact hb

theorem of_task {x : Task H} {replies : List (Reply H)}
    (ht : Guarded T base (.task x replies :: t)) (hne : .task x replies :: t ≠ base) :
    x.Fits T base t := by
  cases ht with
  | base => exact absurd rfl hne
  | task _ hx => exact hx

/-- What a guarded thread comes to when it fails in front of its last part. -/
theorem fails (ht : Guarded T base t) (hne : t ≠ base) {e : RunError} {u : World H}
    (h : t.Fails library em w e k u) :
    (∃ b rest, (k = .boundary b :: rest ∨ ∃ cs, k = .calls cs :: .boundary b :: rest) ∧
      b.Fits T base rest ∧ Guarded T base rest ∧
      fail e k u = (.on (b.resume (.error e) u.shared ++ rest), b.catch e u)) ∨
    t.FailsLast base := by
  cases h with
  | call hrun =>
    obtain ⟨b, rest, rfl, hb, hrest⟩ := ht.of_calls hne
    exact .inl ⟨b, rest, .inl rfl, hb, hrest, fail_boundary hb.ne_outside _ _ _⟩
  | @task x replies k e hnext =>
    by_cases hbase : k = base
    · subst hbase
      exact .inr ⟨x, replies, e, rfl, hnext⟩
    · have hchain := (ht.of_task hne).chain
      unfold Thread.IsChain at hchain
      split at hchain
      next cs b rest =>
        obtain ⟨_, _, hk, hb, hrest⟩ := (ht.tail hne nofun).of_calls hbase
        cases hk
        exact .inl ⟨b, rest, .inr ⟨cs, rfl⟩, hb, hrest, fail_boundary hb.ne_outside _ _ _⟩
      · exact absurd hchain id

theorem base_suffix (ht : Guarded T base t) : base <:+ t := by
  induction ht with
  | base => exact List.suffix_refl _
  | calls _ _ _ ih => exact (ih.trans (List.suffix_cons _ _)).trans (List.suffix_cons _ _)
  | boundary _ _ ih | arms _ _ ih | loop _ _ ih | check _ _ _ ih | task _ _ _ ih =>
    exact ih.trans (List.suffix_cons _ _)

theorem cons_ne {f : Frame H} (ht : Guarded T base t) : f :: t ≠ base := by
  rintro rfl
  exact Nat.not_succ_le_self _ ht.base_suffix.length_le

/-- A guarded thread stays so, and its last part is left alone, unless a function that it called
fails. -/
theorem advance (ht : Guarded T base t) (hne : t ≠ base)
    (h : SnapBlocks.advance library em t w = some (a, w')) :
    (∃ t', Guarded T base t' ∧ (a = .on t' ∨ ∃ token, t' ≠ [] ∧ a = .pause token t')) ∨
      t.FailsLast base := by
  have hon {t' : Thread H} (ht' : Guarded T base t') :
      (∃ u, Guarded T base u ∧ (Advance.on t' = .on u ∨
        ∃ token, u ≠ [] ∧ Advance.on t' = .pause token u)) ∨ t.FailsLast base :=
    .inl ⟨t', ht', .inl rfl⟩
  have hwait {f : Frame H} {k : Thread H} {token : Option Token} (ht' : Guarded T base (f :: k)) :
      (∃ u, Guarded T base u ∧ (Advance.pause token (f :: k) = .on u ∨
        ∃ token', u ≠ [] ∧ Advance.pause token (f :: k) = .pause token' u)) ∨
          t.FailsLast base :=
    .inl ⟨f :: k, ht', .inr ⟨token, List.cons_ne_nil _ _, rfl⟩⟩
  cases advances_of_advance h with
  | ended => exact hon ht
  | called _ =>
    obtain ⟨b, k, rfl, hb, hk⟩ := ht.of_calls hne
    have hchain := hk.boundary hb
    exact hon (.work _ (fun _ _ => ⟨trivial, fun he => absurd he hchain.cons_ne⟩) (.calls _ hb hk))
  | failed hfails hfail =>
    refine (ht.fails hne hfails).imp_left fun ⟨b, rest, _, hb, hrest, he⟩ => ?_
    cases hfail.symm.trans he
    exact ⟨_, hrest.resume hb, .inl rfl⟩
  | calls =>
    obtain ⟨b, k, rfl, hb, hk⟩ := ht.of_calls hne
    exact hon (.boundary hb hk)
  | boundary => exact hon ((ht.tail hne nofun).resume (ht.of_boundary hne))
  | arms | leaves | ends | finishes => exact hon (ht.tail hne nofun)
  | enters => exact hon (.body _ (.arms _ (ht.tail hne nofun)))
  | passes => exact hon (.arms _ (ht.tail hne nofun))
  | pauses => exact hwait (.check _ _ (ht.tail hne nofun))
  | repeats => exact hon (.body _ (.loop _ (ht.tail hne nofun)))
  | reacts => exact hon (.task _ (ht.of_task hne) (ht.tail hne nofun))
  | waits => exact hwait (.task _ (ht.of_task hne) (ht.tail hne nofun))
  | invokes => exact hon (.calls _ (ht.of_task hne) (ht.tail hne nofun))

end Thread.Guarded

/-! ## Machines -/

namespace Machine

variable {m m' x : Machine H} {s : Setting H} {trace : List (Machine H)} {cs : List Call}
variable {last? : Option Call}

/-- If the next step fails, the chain in which it fails is dropped up to the boundary right behind
it; there the failure ends, and all else goes on. -/
def Contains (s : Setting H) (depth : Nat) (m : Machine H) : Prop :=
  ∀ (t : Thread H) (rest : List (Job H)) (e : RunError) (k : Thread H) (w : World H),
    m.ready = .resume t :: rest → t.Fails s.library (World.emit depth) m.world e k w →
    ∃ b k', (k = .boundary b :: k' ∨ ∃ cs, k = .calls cs :: .boundary b :: k') ∧ b ≠ .outside ∧
      m.step s (World.emit depth) =
        some (m.settle s rest (.on (b.resume (.error e) w.shared ++ k'), b.catch e w))

theorem contains_of_guarded (ht : Thread.Guarded T base t) (hne : t ≠ base)
    (hlast : ¬ t.FailsLast base) {rest : List (Job H)} (hm : m.ready = .resume t :: rest) :
    m.Contains s depth := by
  intro u rest' e k w hready hfails
  cases hm.symm.trans hready
  obtain ⟨b, k', hk, hb, _, hfail⟩ := (ht.fails hne hfails).resolve_right hlast
  exact ⟨b, k', hk, hb.ne_outside, hfail ▸ step_of_fails hready hfails⟩

/-! ## Chains -/

/-- The call that the next step makes at the top of a chain that runs alone. -/
def top? (m : Machine H) : Option Call :=
  match m.ready with
  | .resume [.calls (c :: _), .boundary .outside] :: _ => some c
  | _ => none

/-- The next step fails at the top of a chain that runs alone, in one of its calls, or in the function
of the host to which that call has come. These calls of the chain are left. -/
inductive TopFails (s : Setting H) (depth : Nat) (m : Machine H) (c : Call) (rest : List Call)
    (e : RunError) (w : World H) : Prop
  | call {others : List (Job H)} :
      m.ready = .resume [.calls (c :: rest), .boundary .outside] :: others →
      (c.effect s.library (World.emit depth)).run m.world = some (.error e, w) →
      TopFails s depth m c rest e w
  | task {t : Task H} {replies : List (Reply H)} {others : List (Job H)} :
      m.ready = .resume [.task t replies, .calls rest, .boundary .outside] :: others →
      c.task? s.library = some t → t replies = .finish (.error e) → w = m.world →
      TopFails s depth m c rest e w

/-- How a chain that runs alone ends, of which some calls were made before: all of its calls were
made, or one of them failed and was the last one. The failures in their bodies are contained. -/
inductive ChainEnd (s : Setting H) (depth : Nat) (prior cs : List Call) (trace : List (Machine H))
    (last : Machine H) : Prop
  | ok : last.result = .ok () → trace.filterMap top? = cs → (∀ x ∈ trace, x.Contains s depth) →
      ChainEnd s depth prior cs trace last
  | error {c : Call} {e : RunError} {x : Machine H} (made rest : List Call)
      (before : List (Machine H)) : last.result = .error e → prior ++ cs = made ++ c :: rest →
      trace = before ++ [x] → prior ++ trace.filterMap top? = made ++ [c] →
      x.TopFails s depth c rest e last.world → (∀ y ∈ before, y.Contains s depth) →
      ChainEnd s depth prior cs trace last

/-- A chain runs alone, and these of its calls are still to be made. The last one that was made may
have come to a function of the host. -/
structure Solo (s : Setting H) (last? : Option Call) (cs : List Call) (m : Machine H) : Prop where
  plan : m.plan = .rest
  result : m.result = .ok ()
  enlisted : m.enlisted = []
  threads : ∃ t, Thread.Guarded (fun x => ∃ c ∈ last?, c.task? s.library = some x)
    [.calls cs, .boundary .outside] t ∧ m.threads = [t]

/-- A chain that runs alone has made all of its calls. -/
structure Closing (m : Machine H) : Prop where
  plan : m.plan = .rest
  result : m.result = .ok ()
  enlisted : m.enlisted = []
  threads : m.threads = [[.boundary .outside]]

/-- What comes of a step of a chain that runs alone. -/
inductive SoloStep (s : Setting H) (depth : Nat) (m m' : Machine H) :
    Option Call → List Call → Prop
  /-- A body in a call goes on, or a function of the host. -/
  | inner {last? : Option Call} {cs : List Call} : m.top? = none → m.Contains s depth →
      Solo s last? cs m' → SoloStep s depth m m' last? cs
  /-- A call of the chain is made. -/
  | call {last? : Option Call} {c : Call} {cs : List Call} : m.top? = some c →
      m.Contains s depth → Solo s (some c) cs m' → SoloStep s depth m m' last? (c :: cs)
  | fails {last? : Option Call} {c : Call} {cs : List Call} {e : RunError} : m.top? = some c →
      m.TopFails s depth c cs e m'.world → m'.isDone → m'.result = .error e →
      SoloStep s depth m m' last? (c :: cs)
  /-- The function of the host fails to which the last call came. -/
  | breaks {c : Call} {cs : List Call} {e : RunError} : m.top? = none →
      m.TopFails s depth c cs e m'.world → m'.isDone → m'.result = .error e →
      SoloStep s depth m m' (some c) cs
  | ends {last? : Option Call} : m.top? = none → m.Contains s depth → Closing m' →
      SoloStep s depth m m' last? []

theorem isDone_of_plan_rest (hplan : m.plan = .rest) (hthreads : m.threads = [])
    (henlisted : m.enlisted = []) : m.isDone := by
  refine isDone_iff_threads.mpr ⟨hthreads, henlisted, ?_⟩
  rw [hplan]
  exact nofun

theorem settle_world (hplan : m.plan = .rest) (rest : List (Job H)) (a : Advance H) (w : World H) :
    (m.settle s rest (a, w)).world = w := by
  have henlist (x : Machine H) (hx : x.plan = .rest) : x.enlist.world = x.world := by
    rw [enlist_of_ne (by rw [hx]; exact nofun)]
  unfold settle
  split
  next he =>
    cases he
    exact henlist _ hplan
  next he =>
    cases he
    rfl
  next he =>
    cases he
    unfold pause
    split <;> rfl
  next he =>
    cases he
    exact henlist _ hplan

/-- There is one thread, and it is in front. -/
theorem front_of_threads {t u : Thread H} {rest : List (Job H)} (ht : m.threads = [t])
    (henlisted : m.enlisted = []) (hready : m.ready = .resume u :: rest) :
    u = t ∧ rest.filterMap Job.thread? = [] ∧ m.paused = [] ∧ rest.filterMap Job.body? = [] := by
  unfold Machine.enlisted at henlisted
  unfold Machine.threads at ht
  rw [hready] at henlisted ht
  obtain ⟨hu, hrest⟩ := List.cons.inj ht
  obtain ⟨hresume, hpaused⟩ := List.append_eq_nil_iff.mp hrest
  exact ⟨hu, hresume, List.map_eq_nil_iff.mp hpaused, henlisted⟩

/-- What a step of the only thread comes to when nothing else is planned. -/
structure Sole (m m' : Machine H) (a : Advance H) (w : World H) : Prop where
  plan : m'.plan = .rest
  result : m'.result = a.result (.ok ())
  enlisted : m'.enlisted = []
  threads : m'.threads = a.jobs.filterMap Job.thread?
  world : m'.world = w

theorem sole_settle {t : Thread H} {rest : List (Job H)} (hplan : m.plan = .rest)
    (hresult : m.result = .ok ()) (henlisted : m.enlisted = []) (ht : m.threads = [t])
    (hready : m.ready = .resume t :: rest) (a : Advance H) (w : World H) :
    Sole m (m.settle s rest (a, w)) a w := by
  have hsettle := rearranges_settle m s rest a w
  obtain ⟨_, hresume, hpaused, hstart⟩ := front_of_threads ht henlisted hready
  refine ⟨hsettle.plan.trans hplan, ?_, ?_, ?_, settle_world hplan rest a w⟩
  · rw [hsettle.result, ← hresult]
    rfl
  · rw [hsettle.enlisted (by rw [taken, hplan]; exact nofun), enlisted_taken]
    exact hstart
  · have hperm := hsettle.threads
    rw [threads_taken, hresume, hpaused, List.map_nil, List.append_nil, List.append_nil] at hperm
    rcases a with (_ | _) | _ | _
    · exact hperm.eq_nil
    · exact List.perm_singleton.mp hperm
    · exact List.perm_singleton.mp hperm
    · exact hperm.eq_nil

theorem ChainEnd.inner {y : Machine H} {prior : List Call} (hy : y.top? = none)
    (hcontains : y.Contains s depth) (h : ChainEnd s depth prior cs trace m) :
    ChainEnd s depth prior cs (y :: trace) m := by
  cases h with
  | ok hr ht hc =>
    exact .ok hr ((List.filterMap_cons_none hy).trans ht) (List.forall_mem_cons.mpr ⟨hcontains, hc⟩)
  | error made rest before hr hcs ht hb hx hc =>
    refine .error made rest (y :: before) hr hcs (congrArg (y :: ·) ht) ?_ hx
      (List.forall_mem_cons.mpr ⟨hcontains, hc⟩)
    rw [List.filterMap_cons_none hy]
    exact hb

theorem ChainEnd.call {y : Machine H} {c : Call} (hy : y.top? = some c)
    (hcontains : y.Contains s depth) (h : ChainEnd s depth [c] cs trace m) :
    ChainEnd s depth last?.toList (c :: cs) (y :: trace) m := by
  cases h with
  | ok hr ht hc =>
    exact .ok hr ((List.filterMap_cons_some hy).trans (congrArg _ ht))
      (List.forall_mem_cons.mpr ⟨hcontains, hc⟩)
  | error made rest before hr hcs ht hb hx hc =>
    refine .error (last?.toList ++ made) rest (y :: before) hr ?_ (congrArg (y :: ·) ht) ?_ hx
      (List.forall_mem_cons.mpr ⟨hcontains, hc⟩)
    · rw [List.append_assoc]
      exact congrArg _ hcs
    · rw [List.filterMap_cons_some hy, List.append_assoc]
      exact congrArg _ hb

theorem not_isDone_of_threads {t : Thread H} (ht : m.threads = [t]) : m.isDone = false := by
  refine Bool.eq_false_iff.mpr fun hdone => ?_
  cases (isDone_iff_threads.mp hdone).1.symm.trans ht

namespace Closing

theorem rearranges (hm : Closing m) (h : m.Rearranges m') : Closing m' where
  plan := h.plan.trans hm.plan
  result := h.result.trans hm.result
  enlisted := (h.enlisted (by rw [hm.plan]; exact nofun)).trans hm.enlisted
  threads := List.perm_singleton.mp (hm.threads ▸ h.threads)

theorem contains (hm : Closing m) (s : Setting H) (depth : ℕ) :
    m.top? = none ∧ m.Contains s depth := by
  have hfront {u : Thread H} {rest : List (Job H)} (hready : m.ready = .resume u :: rest) :=
    (front_of_threads hm.threads hm.enlisted hready).1
  constructor
  · unfold top?
    split
    next hready => cases hfront hready
    · rfl
  · intro t rest e k w hready hfails
    cases hfront hready
    cases hfails

theorem step (hm : Closing m) (h : Move s em m m') : Closing m' ∨ m'.isDone ∧ m'.result = .ok () := by
  cases h with
  | start hready =>
    have henlisted := hm.enlisted
    unfold Machine.enlisted at henlisted
    rw [hready] at henlisted
    cases henlisted
  | enter _ _ hplan => cases hm.plan.symm.trans hplan
  | begin _ _ hplan => cases hm.plan.symm.trans hplan
  | rearrange _ _ hm' => exact .inl (hm.rearranges hm')
  | advance hready ha hm' =>
    obtain ⟨rfl, _⟩ := front_of_threads hm.threads hm.enlisted hready
    cases ha
    have hsole := sole_settle (s := s) hm.plan hm.result hm.enlisted hm.threads hready (.on []) m.world
    rw [hm']
    exact .inr ⟨isDone_of_plan_rest hsole.plan hsole.threads hsole.enlisted, hsole.result⟩

theorem path (hm : Closing m) (hp : Path s depth m trace m') (hdone : m'.isDone) :
    m'.result = .ok () ∧ trace.filterMap top? = [] ∧ ∀ x ∈ trace, x.Contains s depth := by
  induction hp with
  | nil => cases hdone.symm.trans (not_isDone_of_threads hm.threads)
  | cons hshifts _ hstep hp ih =>
    have hx := hm.rearranges hshifts.rearranges
    obtain ⟨htop, hcontains⟩ := hx.contains s depth
    rcases hx.step (move_of_step hstep) with hm' | ⟨hdone', hresult⟩
    · obtain ⟨hresult, hcalls, hinner⟩ := ih hm' hdone
      exact ⟨hresult, (List.filterMap_cons_none htop).trans hcalls,
        List.forall_mem_cons.mpr ⟨hcontains, hinner⟩⟩
    · obtain ⟨rfl, rfl⟩ := hp.eq_of_isDone hdone'
      exact ⟨hresult, List.filterMap_cons_none htop, List.forall_mem_singleton.mpr hcontains⟩

end Closing

namespace Solo

theorem rearranges (hm : Solo s last? cs m) (h : m.Rearranges m') : Solo s last? cs m' where
  plan := h.plan.trans hm.plan
  result := h.result.trans hm.result
  enlisted := (h.enlisted (by rw [hm.plan]; exact nofun)).trans hm.enlisted
  threads := by
    obtain ⟨t, ht, hthreads⟩ := hm.threads
    exact ⟨t, ht, List.perm_singleton.mp (hthreads ▸ h.threads)⟩

/-- What a step of the thread of a chain comes to, when it goes on. -/
theorem of_sole {a : Advance H} {w : World H} {t : Thread H} (hm : Sole m m' a w)
    (ht : Thread.Guarded (fun x => ∃ c ∈ last?, c.task? s.library = some x)
      [.calls cs, .boundary .outside] t)
    (ha : a = .on t ∨ ∃ token, t ≠ [] ∧ a = .pause token t) : Solo s last? cs m' := by
  have hne : t ≠ [] := by
    rintro rfl
    cases List.suffix_nil.mp ht.base_suffix
  obtain ⟨f, k, rfl⟩ := List.exists_cons_of_ne_nil hne
  refine ⟨hm.plan, ?_, hm.enlisted, _, ht, ?_⟩
  · rw [hm.result]
    rcases ha with rfl | ⟨_, _, rfl⟩ <;> rfl
  · rw [hm.threads]
    rcases ha with rfl | ⟨_, _, rfl⟩ <;> rfl

section
variable {t : Thread H} {rest : List (Job H)} {a : Advance H} {w : World H}

/-- A step at the top of a chain that runs alone. -/
theorem step_base (hm : Solo s last? cs m)
    (hready : m.ready = .resume [.calls cs, .boundary .outside] :: rest)
    (ha : SnapBlocks.advance s.library (World.emit depth) [.calls cs, .boundary .outside] m.world =
      some (a, w)) (hsole : Sole m m' a w) : SoloStep s depth m m' last? cs := by
  have htop : m.top? = cs.head? := by
    unfold top?
    rw [hready]
    cases cs <;> rfl
  have hcontains (hno : ∀ c cs' e u, cs = c :: cs' →
      (c.effect s.library (World.emit depth)).run m.world ≠ some (.error e, u)) :
      m.Contains s depth := by
    intro t rest' e k u hready' hfails
    cases hready.symm.trans hready'
    cases hfails with
    | call hrun => exact absurd hrun (hno _ _ _ _ rfl)
  cases advances_of_advance ha with
  | calls =>
    exact .ends htop (hcontains nofun) ⟨hsole.plan, hsole.result, hsole.enlisted, hsole.threads⟩
  | @called c cs _ work _ hrun =>
    refine .call htop (hcontains fun c' cs' e u he => ?_)
      (of_sole hsole (.work work ?_ .base) (.inl rfl))
    · cases he
      rw [hrun]
      exact nofun
    · rintro x rfl
      refine ⟨trivial, fun _ => ⟨c, rfl, ?_⟩⟩
      rcases c.effect_leaves _ _ hrun _ rfl with ⟨_, _, hdoes⟩ | ⟨_, hx, ⟨⟩⟩
      · cases hdoes
      · exact hx
  | failed hfails hfail =>
    cases hfails with
    | call hrun =>
      cases hfail
      refine .fails htop (.call hready ?_)
        (isDone_of_plan_rest hsole.plan hsole.threads hsole.enlisted) hsole.result
      rw [hsole.world]
      exact hrun

/-- A step above the top of a chain that runs alone. -/
theorem step_above (ht : Thread.Guarded (fun x => ∃ c ∈ last?, c.task? s.library = some x)
      [.calls cs, .boundary .outside] t) (hne : t ≠ [.calls cs, .boundary .outside])
    (hready : m.ready = .resume t :: rest)
    (ha : SnapBlocks.advance s.library (World.emit depth) t m.world = some (a, w))
    (hsole : Sole m m' a w) : SoloStep s depth m m' last? cs := by
  have htop : m.top? = none := by
    unfold top?
    split
    next c cs' rest' hready' =>
      cases hready.symm.trans hready'
      obtain ⟨b, k, hk, hb, hk'⟩ := ht.of_calls hne
      cases hk
      exact absurd rfl hb.ne_outside
    · rfl
  by_cases hlast : t.FailsLast [.calls cs, .boundary .outside]
  · obtain ⟨x, replies, e, rfl, hnext⟩ := hlast
    obtain ⟨c, hc, hx⟩ := (ht.of_task hne).base rfl
    cases Option.mem_def.mp hc
    simp only [SnapBlocks.advance, hnext] at ha
    cases ha
    exact .breaks htop (.task hready hx hnext hsole.world)
      (isDone_of_plan_rest hsole.plan hsole.threads hsole.enlisted) hsole.result
  · obtain ⟨t', ht', ha'⟩ := (ht.advance hne ha).resolve_right hlast
    exact .inner htop (contains_of_guarded ht hne hlast hready) (of_sole hsole ht' ha')

end

/-- A step of a chain that runs alone makes the next one of its calls, or goes on in one, or is the
last one. -/
theorem step (hm : Solo s last? cs m) (h : Move s (World.emit depth) m m') :
    SoloStep s depth m m' last? cs := by
  obtain ⟨t, ht, hthreads⟩ := hm.threads
  -- a thread that is not in front is left alone
  have hquiet (hready : m.ready = []) : m.top? = none ∧ m.Contains s depth := by
    refine ⟨by unfold top?; rw [hready], fun t rest e k w hr => ?_⟩
    rw [hready] at hr
    cases hr
  cases h with
  | start hready =>
    have henlisted := hm.enlisted
    unfold Machine.enlisted at henlisted
    rw [hready] at henlisted
    cases henlisted
  | enter _ _ hplan => cases hm.plan.symm.trans hplan
  | begin _ _ hplan => cases hm.plan.symm.trans hplan
  | rearrange hready _ hm' =>
    obtain ⟨htop, hcontains⟩ := hquiet hready
    exact .inner htop hcontains (hm.rearranges hm')
  | @advance u rest a w hready ha hm' =>
    obtain ⟨rfl, _⟩ := front_of_threads hthreads hm.enlisted hready
    have hsole : Sole m m' a w :=
      hm' ▸ sole_settle hm.plan hm.result hm.enlisted hthreads hready a w
    by_cases hbase : u = [.calls cs, .boundary .outside]
    · subst hbase
      exact step_base hm hready ha hsole
    · exact step_above ht hbase hready ha hsole

/-- **Chains that run alone.** Such a chain ends when all of its calls were made, or with the first one
of them that fails; the failures in their bodies are contained. -/
theorem path (hm : Solo s last? cs m) (hp : Path s depth m trace m') (hdone : m'.isDone) :
    ChainEnd s depth last?.toList cs trace m' := by
  induction hp generalizing last? cs with
  | nil =>
    obtain ⟨t, _, hthreads⟩ := hm.threads
    cases hdone.symm.trans (not_isDone_of_threads hthreads)
  | @cons m y m' m'' trace hshifts _ hstep hp ih =>
    cases (hm.rearranges hshifts.rearranges).step (move_of_step hstep) with
    | inner htop hcontains hm' => exact (ih hm' hdone).inner htop hcontains
    | call htop hcontains hm' => exact (ih hm' hdone).call htop hcontains
    | @fails _ c cs e htop hfails hdone' hresult =>
      obtain ⟨rfl, rfl⟩ := hp.eq_of_isDone hdone'
      have hmade : last?.toList ++ [y].filterMap top? = last?.toList ++ [c] := by
        rw [List.filterMap_cons_some htop]
        rfl
      exact .error last?.toList cs [] hresult rfl rfl hmade hfails (List.forall_mem_nil _)
    | @breaks c cs e htop hfails hdone' hresult =>
      obtain ⟨rfl, rfl⟩ := hp.eq_of_isDone hdone'
      have hmade : [c] ++ [y].filterMap top? = [] ++ [c] := by
        rw [List.filterMap_cons_none htop]
        rfl
      exact .error [] cs [] hresult rfl rfl hmade hfails (List.forall_mem_nil _)
    | ends htop hcontains hm' =>
      obtain ⟨hresult, hcalls, hinner⟩ := hm'.path hp hdone
      exact .ok hresult ((List.filterMap_cons_none htop).trans hcalls)
        (List.forall_mem_cons.mpr ⟨hcontains, hinner⟩)

end Solo

end Machine

namespace Session

variable {s : Session H} {c : Chain} {trace : List (Machine H)} {last : Machine H}

/-- **A chain that a session runs** makes its calls in order, until one of them fails; a failure in a
body of a call does not reach it. This is so under every schedule. -/
theorem chainMachine_ends (hp : Machine.Path s.setting depth (s.chainMachine c) trace last)
    (hdone : last.isDone) : Machine.ChainEnd s.setting depth [] c trace last := by
  have hsolo : (s.chainMachine c).Solo s.setting none c := ⟨rfl, rfl, rfl, _, .base, rfl⟩
  exact hsolo.path hp hdone

end Session

end SnapBlocks

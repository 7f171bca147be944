import SnapBlocks.Proofs.Host
import Mathlib.Algebra.BigOperators.Group.List.Basic
import Mathlib.Algebra.Order.Group.Multiset
import Mathlib.Tactic.Abel

/-! What is left of a machine once its program was stopped. A step takes something away from what the
machine has still to run, and puts something in its place: a thread for a body, what is left of a
thread for the thread, and the bodies that its emissions deliver besides. So in a stopped program
the open calls that are left and those that were made are those that there were, and those of the
bodies that were delivered meanwhile. What a schedule does in between adds nothing; so if no more
bodies are delivered, the machine comes to its end under every schedule. -/

namespace SnapBlocks

open Delivery

variable {H : Type} {w w' : World H} {em : Emitter H} {depth : Nat}

/-! ## Tokens that stay -/

/-- The current token is still the same one, and tokens that were tripped stay so. -/
structure Shared.Persists (s t : Shared H) : Prop where
  current : t.tokens.current = s.tokens.current
  tripped {token : Token} : s.tokens.isTripped token → t.tokens.isTripped token

/-- Terms by which the host keeps to the current token, and its functions have a property. It may let
any bodies wait. -/
def Terms.persistent (T : Task H → Prop) : Terms H where
  changes := Shared.Persists
  calls _ := True
  tasks := T
  handlers _ := True

theorem Terms.lasting_persistent {T : Task H → Prop} : (persistent T).Lasting where
  refl s := ⟨rfl, id⟩
  trans h h' := ⟨h'.current.trans h.current, fun ht => h'.tripped (h.tripped ht)⟩
  trip s token := by
    refine ⟨?_, fun {t} ht => ?_⟩
    · change (s.tokens.trip token).current = _
      unfold Tokens.trip
      split <;> rfl
    · change (s.tokens.trip token).isTripped t
      unfold Tokens.trip
      split
      · exact ht
      · exact List.contains_iff_mem.mpr (.tail _ (List.contains_iff_mem.mp ht))

theorem Shared.Persists.stopped {s t : Shared H} (h : s.Persists t) (hs : s.tokens.stopped) :
    t.tokens.stopped := by
  unfold Tokens.stopped
  rw [h.current]
  exact h.tripped hs

/-- Whether the current token was tripped. -/
def Machine.isStopped (m : Machine H) : Bool := m.world.shared.tokens.stopped

/-- A bound on the steps that a chain takes once its program was stopped. -/
def Chain.cost (c : Chain) : Nat := 10 * (Chain.openCalls c).length + 5

namespace Machine

variable {m m' x : Machine H} {s : Setting H} {trace : List (Machine H)} {T : Task H → Prop}

theorem Shifts.isStopped (h : m.Shifts x) (hm : m.isStopped) : x.isStopped := by
  have hR := Terms.lasting_persistent (T := fun _ : Task H => True)
  exact (hR.trips h.rearranges.shared).stopped hm

theorem Does.persists (h : Does (.persistent T) s m m') :
    m.world.shared.Persists m'.world.shared := by
  have hR := Terms.lasting_persistent (T := T)
  cases h with
  | abides h => exact h.shared
  | calls _ _ h =>
    cases h with
    | abides h => exact h.shared
    | @copies u key _ value hu _ _ _ hset =>
      have hkeep : u.shared.Persists (u.setVariable key value).shared := ⟨rfl, id⟩
      exact hR.trans hu.shared (hR.trans hkeep hset.shared)

/-- **A stopped program stays so**, as long as the host does not replace the token. -/
theorem Keeps.isStopped (hm : m.Keeps (.persistent T) s) (hstop : m.isStopped)
    (hp : Path s depth m trace m') : (∀ x ∈ trace, x.isStopped) ∧ m'.isStopped := by
  have hR := Terms.lasting_persistent (T := T)
  have hall := hp.invariant (I := fun x => x.Keeps (.persistent T) s ∧ x.isStopped) ⟨hm, hstop⟩
    (fun ⟨hm, hstop⟩ h => ⟨(hm.rearranges hR h.rearranges).1, Shifts.isStopped (.single h) hstop⟩)
    fun ⟨hm, hstop⟩ h => ⟨(hm.move hR h).1, (hm.move hR h).2.persists.stopped hstop⟩
  exact ⟨fun x hx => (hall.1 x hx).2, hall.2.2⟩

theorem Keeps.isStopped_of_comes (hm : m.Keeps (.persistent T) s) (hstop : m.isStopped)
    (h : Comes s m m') : m'.isStopped := by
  obtain ⟨_, _, hp⟩ := h.path
  exact (hm.isStopped hstop hp).2

/-! ## Bodies that are due -/

/-- The bodies that are still to be run. A chain that runs alone leaves those in the queue alone. -/
def due (m : Machine H) : List Body :=
  match m.plan with
  | .rest => m.enlisted
  | _ => m.waiting

/-- The bodies that the next step adds to those that are still to be run. -/
def incoming (s : Setting H) (depth : Nat) (m : Machine H) : List Body :=
  match m.plan with
  | .rest => []
  | _ => bodiesAll (m.deliveries s depth)

theorem incoming_of_rest (hplan : m.plan = .rest) : m.incoming s depth = [] := by
  unfold incoming
  rw [hplan]

theorem Rearranges.due (h : m.Rearranges m') : m'.due = m.due := by
  unfold Machine.due
  rw [h.plan]
  split
  next hplan =>
    refine h.enlisted ?_
    rw [hplan]
    exact nofun
  · exact h.waiting

theorem Move.plan_rest (h : Move s em m m') : m'.plan = .rest ↔ m.plan = .rest := by
  cases h with
  | start _ hm' => rw [hm']
  | @advance _ rest a w _ _ hm' => rw [hm', (rearranges_settle m s rest a w).plan]; rfl
  | enter _ _ hplan hm' => rw [hm', hplan]; exact ⟨nofun, nofun⟩
  | begin _ _ hplan _ hm' =>
    rw [hm', (rearranges_enlist _).plan, hplan]
    exact ⟨nofun, nofun⟩
  | rearrange _ _ hm' => rw [hm'.plan]

theorem Move.due (h : Move s (World.emit depth) m m') :
    m.starting?.toList ++ m'.due = m.due ++ m.incoming s depth := by
  have hrest := h.plan_rest
  cases hplan : m.plan with
  | rest =>
    have hplan' : m'.plan = .rest := hrest.mpr hplan
    have hdue (x : Machine H) (hx : x.plan = .rest) : x.due = x.enlisted := by
      unfold Machine.due
      rw [hx]
    have hdrive : m.plan ≠ .drive := by
      rw [hplan]
      exact nofun
    rw [hdue m hplan, hdue m' hplan', incoming_of_rest hplan, List.append_nil]
    cases h with
    | start hready hm' =>
      unfold starting? enlisted
      rw [hm', hready]
      rfl
    | @advance _ rest a w hready _ hm' =>
      unfold starting?
      rw [hm', (rearranges_settle m s rest a w).enlisted hdrive, enlisted_taken]
      unfold enlisted
      rw [hready]
      rfl
    | enter _ _ hregister => cases hplan.symm.trans hregister
    | begin _ _ hregister => cases hplan.symm.trans hregister
    | rearrange hready _ hm' =>
      unfold starting?
      rw [hready]
      exact hm'.enlisted hdrive
  | _ =>
    have hne : m.plan ≠ .rest := by
      rw [hplan]
      exact nofun
    have hdue (x : Machine H) (hx : x.plan ≠ .rest) : x.due = x.waiting := by
      unfold Machine.due
      split
      next he => exact absurd he hx
      · rfl
    rw [hdue m hne, hdue m' fun he => hne (hrest.mp he), h.delivers.1]
    unfold incoming
    rw [hplan]

/-! ## Totals -/

section
variable {M : Type} [AddCommMonoid M] (f : Thread H → M) (g : Body → M) (e : Chain → M)

/-- A total of all that a machine has still to run. -/
def total (m : Machine H) : M :=
  (m.threads.map f).sum + (m.due.map g).sum + (m.entries.map e).sum

/-- What a step takes away, and what it puts in its place. -/
inductive Exchange (s : Setting H) (depth : Nat) (m : Machine H) : M → M → Prop
  | start {b : Body} : m.starting? = some b → m.calling? = none →
      Exchange s depth m (g b) (f b.frames)
  | advance {t : Thread H} {rest : List (Job H)} {a : Advance H} {w : World H} :
      m.ready = .resume t :: rest →
      SnapBlocks.advance s.library (World.emit depth) t m.world = some (a, w) →
      Exchange s depth m (f t) (a.threads.map f).sum
  | enter {chain : Chain} : m.entering? = some chain → m.calling? = none →
      Exchange s depth m (e chain) (f [.calls chain, .boundary .entry])
  | quiet : m.ready = [] → m.entering? = none → Exchange s depth m 0 0

theorem Rearranges.total_eq (h : m.Rearranges m') : m'.total f g e = m.total f g e := by
  unfold total
  rw [(h.threads.map f).sum_eq, h.due, h.entries]

theorem total_eq {l l' : List (Thread H)} (hl : m.threads.Perm (l ++ l')) :
    m.total f g e = (l.map f).sum +
      ((l'.map f).sum + (m.due.map g).sum + (m.entries.map e).sum) := by
  unfold total
  rw [(hl.map f).sum_eq, List.map_append, List.sum_append]
  abel

theorem calling?_of_nil (hready : m.ready = []) : m.calling? = none := by
  unfold calling?
  rw [hready]

theorem starting?_of_nil (hready : m.ready = []) : m.starting? = none :=
  starting?_eq_none (congrArg (List.filterMap Job.body?) hready)

/-- A step of a machine exchanges a part of what it has still to run, and adds what it delivers. -/
def Exchanges (s : Setting H) (depth : Nat) (m m' : Machine H) : Prop :=
  ∃ x y rest, Exchange f g e s depth m x y ∧ m.total f g e = x + rest ∧
    m'.total f g e = y + rest + ((m.incoming s depth).map g).sum

/-- A step that starts no body only adds to those that are due. -/
theorem Move.due_sum (h : Move s (World.emit depth) m m') (hstart : m.starting? = none) :
    (m'.due.map g).sum = (m.due.map g).sum + ((m.incoming s depth).map g).sum := by
  have hdue := h.due
  rw [hstart, Option.toList_none, List.nil_append] at hdue
  rw [hdue, List.map_append, List.sum_append]

theorem exchanges_start {b : Body} {rest : List (Job H)} (h : Move s (World.emit depth) m m')
    (hready : m.ready = .start b :: rest)
    (hm' : m' = { m with ready := .resume b.frames :: rest, polling := true }) :
    Exchanges f g e s depth m m' := by
  have hdue := h.due
  have hstart : m.starting? = some b := by
    unfold starting?
    rw [hready]
  have hcalling : m.calling? = none := by
    unfold calling?
    rw [hready]
  have hincoming : m.incoming s depth = [] := by
    unfold incoming deliveries isStarting
    rw [hready]
    cases m.plan <;> rfl
  have hthreads : m'.threads = b.frames :: m.threads := by
    rw [hm']
    unfold threads
    rw [hready]
    rfl
  have hentries : m'.entries = m.entries := by rw [hm']; rfl
  rw [hstart, hincoming, List.append_nil] at hdue
  refine ⟨g b, f b.frames, (m.threads.map f).sum + (m'.due.map g).sum + (m.entries.map e).sum,
    .start hstart hcalling, ?_, ?_⟩
  · unfold total
    rw [← hdue, Option.toList_some, List.singleton_append, List.map_cons, List.sum_cons]
    abel
  · unfold total
    rw [hthreads, hentries, hincoming, List.map_cons, List.sum_cons, List.map_nil, List.sum_nil]
    abel

theorem exchanges_advance {t : Thread H} {rest : List (Job H)} {a : Advance H} {w : World H}
    (h : Move s (World.emit depth) m m') (hready : m.ready = .resume t :: rest)
    (ha : SnapBlocks.advance s.library (World.emit depth) t m.world = some (a, w))
    (hm' : m' = m.settle s rest (a, w)) : Exchanges f g e s depth m m' := by
  have hstart : m.starting? = none := by
    unfold starting?
    rw [hready]
  have hsettle := rearranges_settle m s rest a w
  have hthreads : m.threads = [t] ++ (rest.filterMap Job.thread? ++ m.paused.map (·.thread)) := by
    unfold threads
    rw [hready]
    rfl
  have hthreads' : m'.threads.Perm
      (a.threads ++ (rest.filterMap Job.thread? ++ m.paused.map (·.thread))) := by
    rw [hm']
    exact hsettle.threads.trans (.of_eq (threads_taken m rest a w))
  have hentries : m'.entries = m.entries := by rw [hm', hsettle.entries]; rfl
  have htotal := total_eq f g e (.of_eq hthreads)
  rw [List.map_singleton, List.sum_singleton] at htotal
  refine ⟨f t, (a.threads.map f).sum, _, .advance hready ha, htotal, ?_⟩
  rw [total_eq f g e hthreads', h.due_sum g hstart, hentries]
  abel

theorem exchanges_enter {chain : Chain} {entries : List Chain} (h : Move s (World.emit depth) m m')
    (hready : m.ready = []) (hpaused : m.paused = []) (hplan : m.plan = .register (chain :: entries))
    (hm' : m' = { m with
      plan := .register entries
      ready := [.resume [.calls chain, .boundary .entry]]
      polling := true }) :
    Exchanges f g e s depth m m' := by
  have hentering : m.entering? = some chain := by
    unfold entering?
    rw [hready, hpaused, hplan]
  have hthreads : m.threads = [] := by
    unfold threads
    rw [hready, hpaused]
    rfl
  have hthreads' : m'.threads = [[.calls chain, .boundary .entry]] := by
    rw [hm']
    unfold threads
    rw [hpaused]
    rfl
  have hentries : m.entries = chain :: m'.entries := by
    rw [hm']
    unfold Machine.entries
    rw [hplan]
  refine ⟨e chain, f [.calls chain, .boundary .entry],
    (m.due.map g).sum + (m'.entries.map e).sum,
    .enter hentering (calling?_of_nil hready), ?_, ?_⟩
  · unfold total
    rw [hthreads, hentries, List.map_nil, List.sum_nil, zero_add, List.map_cons, List.sum_cons,
      add_left_comm]
  · unfold total
    rw [hthreads', h.due_sum g (starting?_of_nil hready), List.map_singleton, List.sum_singleton]
    abel

/-- A step with which nothing begins and nothing goes on only delivers. -/
theorem exchanges_quiet (h : Move s (World.emit depth) m m') (hready : m.ready = [])
    (hentering : m.entering? = none) (hthreads : m'.threads.Perm m.threads)
    (hentries : m'.entries = m.entries) : Exchanges f g e s depth m m' := by
  refine ⟨0, 0, _, .quiet hready hentering, (zero_add _).symm, ?_⟩
  unfold total
  rw [(hthreads.map f).sum_eq, hentries, h.due_sum g (starting?_of_nil hready)]
  abel

/-- **What a step exchanges.** -/
theorem Move.exchange (h : Move s (World.emit depth) m m') : Exchanges f g e s depth m m' := by
  have hmove := h
  cases h with
  | start hready hm' => exact exchanges_start f g e hmove hready hm'
  | advance hready ha hm' => exact exchanges_advance f g e hmove hready ha hm'
  | enter hready hpaused hplan hm' => exact exchanges_enter f g e hmove hready hpaused hplan hm'
  | begin hready hpaused hplan _ hm' =>
    have hentering : m.entering? = none := by
      unfold entering?
      rw [hready, hpaused, hplan]
    have hentries : m'.entries = m.entries := by
      rw [hm', (rearranges_enlist _).entries]
      unfold Machine.entries
      rw [hplan]
    have hthreads : m'.threads.Perm m.threads := hm' ▸ (rearranges_enlist _).threads
    exact exchanges_quiet f g e hmove hready hentering hthreads hentries
  | rearrange hready hplan hm' =>
    have hentering : m.entering? = none := by
      unfold entering?
      split
      next hpaused hregister => exact absurd hregister (hplan hpaused _)
      · rfl
    exact exchanges_quiet f g e hmove hready hentering hm'.threads hm'.entries

end

/-! ## Open calls -/

/-- The open calls that a machine has still to make. -/
def openCalls (m : Machine H) : Multiset Call :=
  m.total (fun t => (t.openCalls : Multiset Call))
    (fun b => (Chain.openCalls b.chain : Multiset Call)) fun c => (Chain.openCalls c : Multiset Call)

/-- The open calls of the bodies that the next step adds. -/
def incomingCalls (s : Setting H) (depth : Nat) (m : Machine H) : Multiset Call :=
  ((m.incoming s depth).map fun b => (Chain.openCalls b.chain : Multiset Call)).sum

theorem Exchange.openCalls_le {x y : Multiset Call} (hstop : m.isStopped)
    (hinert : ∀ t ∈ m.threads, t.Inert)
    (h : Exchange (fun t => (t.openCalls : Multiset Call))
      (fun b => (Chain.openCalls b.chain : Multiset Call))
      (fun c => (Chain.openCalls c : Multiset Call)) s depth m x y) :
    (m.calling?.toList : Multiset Call) + y ≤ x := by
  cases h with
  | start _ hcalling =>
    rw [hcalling, Thread.openCalls_body]
    exact (zero_add _).le
  | @advance t rest a w hready ha =>
    have hwinds := advance_winds hstop (hinert t (mem_threads_of_ready hready)) ha
    have hsum : (a.threads.map fun t => (t.openCalls : Multiset Call)).sum =
        (a.threads.flatMap Thread.openCalls : List Call) := by
      induction a.threads with
      | nil => rfl
      | cons t l ih => rw [List.map_cons, List.sum_cons, ih, List.flatMap_cons, Multiset.coe_add]
    rw [calling?_resume hready, hsum, Multiset.coe_add]
    exact Multiset.coe_le.mpr hwinds.calls
  | enter _ hcalling =>
    rw [hcalling, Thread.openCalls_cons, Frame.openCalls]
    exact ((zero_add _).trans (congrArg _ (List.append_nil _))).le
  | quiet hready =>
    rw [calling?_of_nil hready]
    exact (zero_add _).le

/-- The calls that a stopped program makes are open calls, each of them made once. -/
theorem Move.openCalls_le (hstop : m.isStopped) (hinert : ∀ t ∈ m.threads, t.Inert)
    (h : Move s (World.emit depth) m m') :
    (m.calling?.toList : Multiset Call) + m'.openCalls ≤ m.openCalls + m.incomingCalls s depth := by
  obtain ⟨x, y, rest, hexchange, hm, hm'⟩ := h.exchange
    (fun t => (t.openCalls : Multiset Call)) (fun b => (Chain.openCalls b.chain : Multiset Call))
    fun c => (Chain.openCalls c : Multiset Call)
  have hxy := hexchange.openCalls_le hstop hinert
  unfold openCalls incomingCalls
  rw [hm, hm', ← add_assoc, ← add_assoc]
  exact add_le_add (add_le_add hxy le_rfl) le_rfl

/-- **Calls after a stop.** The calls that a stopped program makes, and the open calls that are left,
are open calls that there were, or those of bodies that were delivered meanwhile. -/
theorem Path.openCalls_le (hp : Path s depth m trace m') (hstop : ∀ x ∈ trace, x.isStopped)
    (hinert : ∀ x ∈ trace, ∀ t ∈ x.threads, t.Inert) :
    (trace.filterMap calling? : Multiset Call) + m'.openCalls ≤
      m.openCalls + (trace.map (incomingCalls s depth)).sum := by
  induction hp with
  | nil => exact ((zero_add _).trans (add_zero _).symm).le
  | @cons m x m' m'' trace hshifts _ hstep _ ih =>
    have hfirst := (move_of_step hstep).openCalls_le (hstop x List.mem_cons_self)
      (hinert x List.mem_cons_self)
    have hlater := ih (fun y hy => hstop y (.tail _ hy)) fun y hy => hinert y (.tail _ hy)
    have hsame : x.openCalls = m.openCalls := hshifts.rearranges.total_eq _ _ _
    rw [hsame] at hfirst
    have hcalls : ((x :: trace).filterMap calling? : Multiset Call) =
        (x.calling?.toList : Multiset Call) + (trace.filterMap calling? : Multiset Call) := by
      rw [Multiset.coe_add, List.filterMap_cons]
      cases x.calling? <;> rfl
    calc ((x :: trace).filterMap calling? : Multiset Call) + m''.openCalls
        = x.calling?.toList + (trace.filterMap calling? + m''.openCalls) := by
          rw [hcalls, add_assoc]
      _ ≤ x.calling?.toList + (m'.openCalls + (trace.map (incomingCalls s depth)).sum) :=
          add_le_add le_rfl hlater
      _ = x.calling?.toList + m'.openCalls + (trace.map (incomingCalls s depth)).sum :=
          (add_assoc ..).symm
      _ ≤ m.openCalls + x.incomingCalls s depth + (trace.map (incomingCalls s depth)).sum :=
          add_le_add hfirst le_rfl
      _ = m.openCalls + ((x :: trace).map (incomingCalls s depth)).sum := by
          rw [List.map_cons, List.sum_cons, add_assoc]

/-! ## Steps that are left -/

/-- How often programs have still to be started. -/
def starts (p : Plan) : Nat :=
  match p with
  | .register _ => 1
  | _ => 0

/-- A bound on the steps in which something begins or goes on, once the program was stopped and
nothing is delivered any more. -/
def cost (m : Machine H) : Nat :=
  m.total Thread.cost (fun b => Chain.cost b.chain) Chain.cost + starts m.plan

/-- A bound on the steps that the bodies take which the next step adds. -/
def incomingCost (s : Setting H) (depth : Nat) (m : Machine H) : Nat :=
  ((m.incoming s depth).map fun b => Chain.cost b.chain).sum

/-- What the pauses still ask for. -/
def patience (m : Machine H) : Nat :=
  2 * m.paused.length + (if m.paused.any m.isDue then 0 else 1) + m.deadline.toList.length

/-- A bound on the steps that a machine takes until a thread goes on. -/
def idle (m : Machine H) : Nat := m.patience + (if m.isCalled then 1 else 0)

/-- No function of the host goes on in any thread. -/
def Bare (m : Machine H) : Prop := ∀ t ∈ m.threads, ∀ x replies k, t ≠ .task x replies :: k

theorem Bare.inert (hm : m.Bare) : ∀ t ∈ m.threads, t.Inert :=
  fun t ht _ _ _ _ _ he => absurd he (hm t ht _ _ _)

/-- No function of the host goes on if the terms allow none. -/
theorem Keeps.bare {R : Terms H} (hm : m.Keeps R s) (hR : ∀ t, ¬ R.tasks t) : m.Bare := by
  rintro t ht x replies k rfl
  have hx : x.Respects R := (hm.threads ht).head
  exact hR x hx.task

theorem Exchange.cost_lt {x y : Nat} (hstop : m.isStopped) (hbare : m.Bare)
    (h : Exchange Thread.cost (fun b => Chain.cost b.chain) Chain.cost s depth m x y) :
    y < x ∨ (m.ready = [] ∧ m.entering? = none) ∧ y = x := by
  cases h with
  | @start b _ _ =>
    refine .inl ?_
    simp only [Body.frames, Thread.cost_cons, Thread.cost_nil, Frame.cost, Chain.cost]
    omega
  | advance hready ha =>
    have ht := mem_threads_of_ready hready
    refine .inl ((advance_winds hstop (hbare.inert _ ht) ha).cost.resolve_right ?_)
    rintro ⟨_, _, _, _, he, _⟩
    exact hbare _ ht _ _ _ he
  | @enter chain _ _ =>
    refine .inl ?_
    simp only [Thread.cost_cons, Thread.cost_nil, Frame.cost, Chain.cost]
    omega
  | quiet hready hentering => exact .inr ⟨⟨hready, hentering⟩, rfl⟩

theorem Move.starts (h : Move s em m m') :
    m.isStarting ∧ starts m'.plan < starts m.plan ∨
      m.isStarting = false ∧ starts m'.plan = starts m.plan := by
  cases h with
  | start hready hm' =>
    refine .inr ⟨?_, by rw [hm']⟩
    unfold isStarting
    rw [hready]
    rfl
  | @advance t rest a w hready _ hm' =>
    refine .inr ⟨?_, ?_⟩
    · unfold isStarting
      rw [hready]
      rfl
    · rw [hm', (rearranges_settle m s rest a w).plan]
      rfl
  | enter hready hpaused hp hm' =>
    refine .inr ⟨?_, by rw [hm', hp]; rfl⟩
    unfold isStarting
    rw [hready, hpaused, hp]
    rfl
  | begin hready hpaused hp _ hm' =>
    refine .inl ⟨isStarting_iff.mpr ⟨hready, hpaused, hp⟩, ?_⟩
    rw [hm', (rearranges_enlist _).plan, hp]
    exact Nat.one_pos
  | rearrange hready hp hm' =>
    refine .inr ⟨Bool.eq_false_iff.mpr fun hs => ?_, ?_⟩
    · obtain ⟨_, hpaused, hregister⟩ := isStarting_iff.mp hs
      exact hp hpaused [] hregister
    · rw [hm'.plan]

/-- **A stopped program winds down.** A step costs something, but for what is delivered, unless all
threads pause. -/
theorem Move.cost_lt (hstop : m.isStopped) (hbare : m.Bare) (hmore : m.isDone = false)
    (h : Move s (World.emit depth) m m') :
    m'.cost < m.cost + m.incomingCost s depth ∨ m.ready = [] ∧ m.paused ≠ [] := by
  obtain ⟨x, y, rest, hexchange, hm, hm'⟩ := h.exchange
    Thread.cost (fun b => Chain.cost b.chain) Chain.cost
  have hstarts := h.starts
  unfold cost incomingCost
  rw [hm, hm']
  rcases hexchange.cost_lt hstop hbare with hlt | ⟨⟨hready, hentering⟩, rfl⟩
  · refine .inl ?_
    have hle : Machine.starts m'.plan ≤ Machine.starts m.plan :=
      hstarts.elim (fun h => h.2.le) fun h => h.2.le
    omega
  · rcases hstarts with ⟨_, hlt⟩ | ⟨hstarting, _⟩
    · exact .inl (by omega)
    · refine .inr ⟨hready, fun hpaused => Bool.eq_false_iff.mp hmore (isDone_iff.mpr ?_)⟩
      refine ⟨hready, hpaused, fun entries hplan => ?_⟩
      cases entries with
      | nil => exact Bool.eq_false_iff.mp hstarting (isStarting_iff.mpr ⟨hready, hpaused, hplan⟩)
      | cons chain entries =>
        unfold entering? at hentering
        rw [hready, hpaused, hplan] at hentering
        cases hentering

/-! ## Steps in which all threads pause -/

theorem firstWake_le (first : Nat) (others : List (Paused H)) :
    first = firstWake first others ∨ ∃ p ∈ others, p.wake = firstWake first others := by
  unfold firstWake
  induction others generalizing first with
  | nil => exact .inl rfl
  | cons p others ih =>
    rw [List.foldl_cons]
    rcases ih (min first p.wake) with he | ⟨q, hq, he⟩
    · rcases Nat.le_total first p.wake with hle | hle
      · rw [Nat.min_eq_left hle] at he ⊢
        exact .inl he
      · rw [Nat.min_eq_right hle] at he ⊢
        exact .inr ⟨p, List.mem_cons_self, he⟩
    · exact .inr ⟨q, .tail _ hq, he⟩

theorem patience_release_le (m : Machine H) (p : Paused H → Bool) :
    (m.release p).patience + (if m.paused.any p then 1 else 0) ≤ m.patience := by
  have hdue : (m.release p).isDue = m.isDue := rfl
  have hlen : (m.paused.filter (! p ·)).length + m.paused.countP p = m.paused.length := by
    rw [List.countP_eq_length_filter, Nat.add_comm, ← List.length_append]
    exact (List.filter_append_perm p m.paused).length_eq
  unfold patience
  rw [hdue]
  cases hany : m.paused.any p with
  | false =>
    have hkeep : m.paused.filter (! p ·) = m.paused := by
      refine List.filter_eq_self.mpr fun q hq => ?_
      rw [Bool.eq_false_iff.mpr (List.any_eq_false.mp hany q hq)]
      rfl
    have hpaused : (m.release p).paused = m.paused := hkeep
    rw [hpaused]
    exact Nat.le_refl _
  | true =>
    have hpos : 0 < m.paused.countP p := by
      rw [List.countP_pos_iff]
      exact List.any_eq_true.mp hany
    have hpaused : (m.release p).paused.length + m.paused.countP p = m.paused.length := hlen
    have hdeadline : (m.release p).deadline = m.deadline := rfl
    rw [hdeadline, if_pos rfl]
    split <;> split <;> omega

theorem patience_sleep_lt {p : Paused H} {others : List (Paused H)} (hpaused : m.paused = p :: others)
    (hdue : m.paused.any m.isDue = false) :
    (m.sleep (firstWake p.wake others)).patience < m.patience := by
  -- time passes until a thread is due
  have hclock : ({ m with clock := firstWake p.wake others } : Machine H).patience < m.patience := by
    have hany : m.paused.any fun q => decide (q.wake ≤ firstWake p.wake others) := by
      refine List.any_eq_true.mpr ?_
      rw [hpaused]
      rcases firstWake_le p.wake others with he | ⟨q, hq, he⟩
      · exact ⟨p, List.mem_cons_self, decide_eq_true (Nat.le_of_eq he)⟩
      · exact ⟨q, .tail _ hq, decide_eq_true (Nat.le_of_eq he)⟩
    have hpatience : ({ m with clock := firstWake p.wake others } : Machine H).patience =
        2 * m.paused.length + (if m.paused.any (fun q =>
          decide (q.wake ≤ firstWake p.wake others)) then 0 else 1) + m.deadline.toList.length := rfl
    rw [hpatience, if_pos hany]
    unfold patience
    rw [hdue, if_neg Bool.false_ne_true]
    omega
  unfold sleep
  split
  next time token hdeadline =>
    split
    · refine Nat.lt_of_le_of_lt (Nat.le_trans (Nat.le_add_right _ _) (patience_release_le _ _)) ?_
      unfold patience
      rw [hdue, hdeadline, if_neg Bool.false_ne_true, Option.toList_some, Option.toList_none]
      dsimp only [List.length_singleton, List.length_nil]
      split <;> omega
    · exact hclock
  · exact hclock

theorem isCalled_release (m : Machine H) (p : Paused H → Bool) :
    (m.release p).isCalled = m.isCalled := rfl

theorem isCalled_sleep (m : Machine H) (first : Nat) : (m.sleep first).isCalled = m.isCalled := by
  unfold sleep
  split
  · split
    · rfl
    · rfl
  · rfl

theorem isCalled_hear (m : Machine H) : m.hear.isCalled = false := by
  refine Bool.eq_false_iff.mpr fun hcalled => ?_
  have hsignal := (isCalled_iff.mp hcalled).2
  unfold hear enlist at hsignal
  split at hsignal
  · cases hsignal
  · cases hsignal

theorem patience_hear (m : Machine H) : m.hear.patience = m.patience := by
  unfold hear enlist
  split
  · rfl
  · rfl

/-- When all threads pause, a step only brings nearer the one in which a thread goes on. -/
theorem rearranges_of_idle (hready : m.ready = []) (hpaused : m.paused ≠ [])
    (h : m.step s em = some m') : m.Rearranges m' ∧ m'.idle < m.idle := by
  obtain ⟨p, others, hp⟩ := List.exists_cons_of_ne_nil hpaused
  unfold step at h
  rw [hready, hp] at h
  dsimp only at h
  rw [← hp] at h
  unfold idle
  split at h
  next hcalled =>
    cases h
    rw [isCalled_hear, patience_hear, hcalled]
    exact ⟨m.rearranges_hear hcalled, Nat.lt_succ_self _⟩
  next =>
    split at h
    next hdue =>
      cases h
      rw [isCalled_release]
      have hrelease := m.patience_release_le m.isDue
      rw [if_pos hdue] at hrelease
      exact ⟨rearranges_release m _, Nat.add_lt_add_right hrelease _⟩
    next hdue =>
      cases h
      rw [isCalled_sleep]
      have hsleep := patience_sleep_lt hp (Bool.eq_false_iff.mpr hdue)
      exact ⟨rearranges_sleep m _, Nat.add_lt_add_right hsleep _⟩

/-- What a schedule does between the steps does not keep a machine idle. -/
theorem Shift.idle_le (h : Shift m x) : x.idle ≤ m.idle := by
  cases h with
  | order => exact Nat.le_refl _
  | stop => exact Nat.le_refl _
  | hear =>
    unfold idle
    rw [isCalled_hear, patience_hear]
    exact Nat.le_add_right _ _
  | @expire time token hdeadline _ =>
    refine Nat.add_le_add_right ?_ _
    refine Nat.add_le_add_left ?_ _
    exact Nat.zero_le _
  | @elapse time hle =>
    refine Nat.add_le_add_right (Nat.add_le_add_right (Nat.add_le_add_left ?_ _) _) _
    split
    · exact Nat.zero_le _
    next hdue =>
      rw [if_neg fun hany => hdue ?_]
      obtain ⟨p, hp, hwake⟩ := List.any_eq_true.mp hany
      exact List.any_eq_true.mpr ⟨p, hp, decide_eq_true (Nat.le_trans (of_decide_eq_true hwake) hle)⟩
  | @wake before after p hpaused _ =>
    refine Nat.add_le_add_right (Nat.add_le_add_right ?_ _) _
    have hlength : m.paused.length = (before ++ after).length + 1 := by
      rw [hpaused, List.length_append, List.length_append, List.length_cons]
      rfl
    rw [hlength]
    dsimp only
    split <;> split <;> omega

theorem Shifts.idle_le (h : m.Shifts x) : x.idle ≤ m.idle := by
  induction h with
  | refl => exact Nat.le_refl _
  | tail _ hshift ih => exact Nat.le_trans hshift.idle_le ih

/-! ## Ends -/

/-- A machine does not go on for ever if a step goes down in a rank, or else keeps the rank while all
threads pause, or leads to a state from which the machine does not go on for ever. -/
theorem finishes_of_ranked {α : Type} {r : α → α → Prop} (hr : WellFounded r)
    {I : α → Machine H → Prop} (hrearranges : ∀ {a x y}, I a x → x.Rearranges y → I a y)
    (hstep : ∀ {a m' x y}, Comes s m m' → m'.Shifts x → I a x → x.Steps s y →
      (∃ b, r b a ∧ I b y) ∨ (x.ready = [] ∧ x.paused ≠ []) ∨ y.Finishes s)
    {a : α} (ha : I a m) : m.Finishes s := by
  suffices ∀ a x, Comes s m x → I a x → x.Finishes s from this a m .refl ha
  intro a
  induction a using hr.induction with
  | _ a ih =>
    intro x
    induction hn : x.idle using Nat.strong_induction_on generalizing x with
    | _ n ihn =>
      intro hx hI
      refine .intro _ fun z hz => ?_
      have hcomes := hx.tail hz
      obtain ⟨y, hshifts, hsteps⟩ := hz
      have hy := hrearranges hI hshifts.rearranges
      rcases hstep hx hshifts hy hsteps with ⟨b, hb, hIb⟩ | ⟨hready, hpaused⟩ | hfinishes
      · exact ih b hb z hcomes hIb
      · obtain ⟨_, depth, hstep⟩ := hsteps
        obtain ⟨hsame, hlt⟩ := rearranges_of_idle hready hpaused hstep
        exact ihn z.idle (hn ▸ Nat.lt_of_lt_of_le hlt hshifts.idle_le) z rfl hcomes
          (hrearranges hy hsame)
      · exact hfinishes

/-- A machine that does not go on for ever comes to its end, if the host answers. -/
theorem Finishes.halts (h : m.Finishes s) (hresponsive : m.Responsive s) : m.Halts s := by
  induction h with
  | intro m _ ih =>
    refine .intro (fun x hx hmore => (hresponsive m .refl x hx).steps hmore) fun y hy => ?_
    exact ih y hy (hresponsive.comes (.single hy))

/-- A machine comes to its end by itself, in so many steps and with emissions that nest so deep. -/
def Returns (s : Setting H) (m last : Machine H) : Prop :=
  ∃ bound, ∀ depth fuel, bound ≤ depth → bound ≤ fuel → m.run s depth fuel = some last

theorem returns_of_isDone (h : m.isDone) : m.Returns s m := by
  refine ⟨0, fun depth fuel _ _ => ?_⟩
  unfold Machine.run
  rw [if_pos h]

theorem Steps.returns {last : Machine H} (h : m.Steps s m') (h' : m'.Returns s last) :
    m.Returns s last := by
  obtain ⟨hmore, depth, hstep⟩ := h
  obtain ⟨bound, hrun⟩ := h'
  refine ⟨max depth (bound + 1), fun depth' fuel hd hf => ?_⟩
  obtain ⟨fuel, rfl⟩ := Nat.exists_eq_add_of_le' (Nat.le_trans (Nat.le_max_right ..) hf)
  have hstep' := step_mono (World.emit_mono (Nat.le_trans (Nat.le_max_left ..) hd)) hstep
  unfold Machine.run
  rw [hmore, if_neg Bool.false_ne_true]
  dsimp only [Nat.add_eq]
  rw [hstep']
  exact hrun depth' _ (by omega) (by omega)

/-- A machine that halts comes to its end by itself. -/
theorem Halts.returns (h : m.Halts s) : ∃ last, m.Returns s last := by
  induction h with
  | @intro m hsteps _ ih =>
    cases hdone : m.isDone with
    | true => exact ⟨m, returns_of_isDone hdone⟩
    | false =>
      obtain ⟨m', hm'⟩ := hsteps m .refl hdone
      obtain ⟨last, hlast⟩ := ih m' ⟨m, .refl, hm'⟩
      exact ⟨last, hm'.returns hlast⟩

end Machine

end SnapBlocks

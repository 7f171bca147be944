import SnapBlocks.Proofs.Loops
import SnapBlocks.Proofs.Owing

/-! A call of `ifElse` is two calls of `if`, one after the other: what a machine comes to with the
one, a machine with the others comes to, and the other way round, whatever runs in between and
whatever the schedule is. The second condition is read when the first body is through, and when that
one fails it still is. -/

namespace SnapBlocks

variable {H : Type} {w w' : World H} {em : Emitter H} {c c₁ c₂ : Call} {t k : Thread H}
variable {library : Library H} {depth : Nat}

/-! ## Calls -/

/-- A call of `ifElse`, and two calls of `if` that have its conditions and its branches. -/
structure Call.Splits (c c₁ c₂ : Call) : Prop where
  target : c.target = "ifElse"
  target₁ : c₁.target = "if"
  target₂ : c₂.target = "if"
  first : ∃ l l₁, c.need .ifElse "if" 3 = .ok l ∧ c₁.need .ifOnly "if" 3 = .ok l₁ ∧
    SameCondition l l₁
  second : ∃ l l₂, c.need .ifElse "elif" 3 = .ok l ∧ c₂.need .ifOnly "if" 3 = .ok l₂ ∧
    SameCondition l l₂
  branch₁ : (c₁.branch? "if").map (·.body) = (c.branch? "if").map (·.body)
  branch₂ : (c₂.branch? "if").map (·.body) = (c.branch? "elif").map (·.body)

/-- The call of `if` that has the condition and the branch of a segment. -/
def Call.alone (c : Call) (segment : String) : Call :=
  .mk "if" c.block
    [("0", ((c.segmentInputs? segment).getD []).map fun i => { i with segmentName := "if" })]
    ((c.branch? segment).toList.map fun b => ("0", { b with segmentName := "if" })) none

theorem Call.need_alone {b : Builtin} {segment : String} {l : List BoundInput}
    (h : c.need b segment 3 = .ok l) :
    (c.alone segment).need .ifOnly "if" 3 =
      .ok (l.map fun i => { i with segmentName := "if" }) := by
  have hl := Call.need_eq_ok h
  have hlength : l.length = 3 := by
    unfold need at h
    rw [hl] at h
    dsimp only at h
    split at h
    · cases h
      assumption
    · cases h
  unfold need segmentInputs? alone
  rw [hl]
  match l, hlength with
  | [i₁, i₂, i₃], _ => simp

theorem Call.branch?_alone (segment : String) :
    ((c.alone segment).branch? "if").map (·.body) = (c.branch? segment).map (·.body) := by
  unfold alone
  cases h : c.branch? segment with
  | none => rfl
  | some b => simp [branch?]

theorem SameCondition.map (l : List BoundInput) :
    SameCondition l (l.map fun i => { i with segmentName := "if" }) := by
  have hvariable (name : String) :
      variableOf? (l.map fun i => { i with segmentName := "if" }) name = variableOf? l name := by
    unfold variableOf? input?
    rw [List.find?_map]
    cases h : l.find? fun i => decide (i.internalName = name) <;> simp [h]
  exact ⟨hvariable _, hvariable _, hvariable _⟩

/-- Each call of `ifElse` with valid inputs splits. -/
theorem Call.splits_alone {l l' : List BoundInput} (ht : c.target = "ifElse")
    (h : c.need .ifElse "if" 3 = .ok l) (h' : c.need .ifElse "elif" 3 = .ok l') :
    c.Splits (c.alone "if") (c.alone "elif") where
  target := ht
  target₁ := rfl
  target₂ := rfl
  first := ⟨l, _, h, Call.need_alone h, .map l⟩
  second := ⟨l', _, h', Call.need_alone h', .map l'⟩
  branch₁ := Call.branch?_alone "if"
  branch₂ := Call.branch?_alone "elif"

theorem Call.arms_alike {segment segment' : String} {l l' : List BoundInput}
    (h : SameCondition l l')
    (hbranch : (c₁.branch? segment').map (·.body) = (c.branch? segment).map (·.body)) :
    List.Forall₂ Arm.Like (c.arm? segment l).toList (c₁.arm? segment' l').toList := by
  unfold arm? body?
  cases hb : c.branch? segment <;> cases hb₁ : c₁.branch? segment' <;> rw [hb, hb₁] at hbranch <;>
    simp only [Option.map_none, Option.map_some, reduceCtorEq, Option.some.injEq] at hbranch
  · exact .nil
  · exact .cons ⟨h, hbranch⟩ .nil

section
variable (hif : library["if"]? = some (.builtin .ifOnly))
include hif

theorem Call.effect_if {l : List BoundInput} (ht : c.target = "if")
    (hl : c.need .ifOnly "if" 3 = .ok l) :
    (c.effect library em).run w = some (.ok (.arms (c.arm? "if" l).toList), w.countCall) := by
  rw [Call.effect_builtin (ht ▸ hif)]
  simp only [Builtin.act, hl]
  rfl

end

section
variable (hifElse : library["ifElse"]? = some (.builtin .ifElse))
include hifElse

theorem Call.effect_ifElse {l l' : List BoundInput} (ht : c.target = "ifElse")
    (hl : c.need .ifElse "if" 3 = .ok l) (hl' : c.need .ifElse "elif" 3 = .ok l') :
    (c.effect library em).run w = some (.ok (.arms ((c.arm? "if" l).toList ++
      (c.arm? "elif" l').toList)), w.countCall) := by
  rw [Call.effect_builtin (ht ▸ hifElse)]
  simp only [Builtin.act, hl, hl']
  rfl

/-- The inputs of a call of `ifElse` are checked before anything is done. -/
theorem Call.effect_ifElse_error {e : RunError} (ht : c.target = "ifElse")
    (he : c.need .ifElse "if" 3 = .error e ∨
      (∃ l, c.need .ifElse "if" 3 = .ok l) ∧ c.need .ifElse "elif" 3 = .error e) :
    (c.effect library em).run w = some (.error e, w.countCall) := by
  rw [Call.effect_builtin (ht ▸ hifElse)]
  rcases he with he | ⟨⟨l, hl⟩, he⟩
  · simp only [Builtin.act, he]
    rfl
  · simp only [Builtin.act, hl, he]
    rfl

end

/-! ## Runs -/

/-- The calls of a run with a call of `ifElse`, and those of one with two calls of `if`. -/
inductive Call.Matched (c c₁ c₂ : Call) : List Call → List Call → Prop
  | none : Matched c c₁ c₂ [] []
  | first {l : List Call} : Matched c c₁ c₂ (c :: l) (c₁ :: l)
  | both {l l' : List Call} : Matched c c₁ c₂ (c :: (l ++ l')) (c₁ :: (l ++ c₂ :: l'))

namespace Machine

variable {m m' x x' y : Machine H} {s : Setting H} {trace trace' : List (Machine H)}
variable {rest : List (Job H)}

/-- A run with a call of `ifElse` and one with two calls of `if` have come to the same: variables
and tokens, subscriptions, queued bodies and failures, and all that is left to be done. -/
structure Matches (c c₁ c₂ : Call) (trace : List (Machine H)) (x : Machine H)
    (trace' : List (Machine H)) (x' : Machine H) : Prop where
  world : x.world.Like x'.world
  plan : x'.plan = x.plan
  polling : x'.polling = x.polling
  clock : x'.clock = x.clock
  deadline : x'.deadline = x.deadline
  result : x'.result = x.result
  isDone : x'.isDone = x.isDone
  calls : Call.Matched c c₁ c₂ (trace.filterMap calling?) (trace'.filterMap calling?)
  /-- When nothing is left, both calls of `if` were made. -/
  both : x.isDone → ∃ l l', trace.filterMap calling? = c :: (l ++ l') ∧
    trace'.filterMap calling? = c₁ :: (l ++ c₂ :: l')

/-- Two machines come to the same, as far as programs can tell: in each state that the one comes to
under some schedule it matches one that the other one comes to. -/
structure RunsAlike (s : Setting H) (depth : Nat) (c c₁ c₂ : Call) (m m' : Machine H) : Prop where
  forth {trace : List (Machine H)} {x y : Machine H} : Path s depth m trace y → y.Shifts x →
    ∃ trace' y' x', Path s depth m' trace' y' ∧ y'.Shifts x' ∧ Matches c c₁ c₂ trace x trace' x'
  back {trace' : List (Machine H)} {x' y' : Machine H} : Path s depth m' trace' y' → y'.Shifts x' →
    ∃ trace y x, Path s depth m trace y ∧ y.Shifts x ∧ Matches c c₁ c₂ trace x trace' x'

theorem Twin.isDone_zero {n : Nat} {bs : List Arm} (h : Twin c bs n m m') (hdone : m.isDone) :
    n = 0 := by
  obtain ⟨i, j, rfl, hready, hpaused⟩ := h.jobs
  obtain ⟨hr, hp, _⟩ := isDone_iff.mp hdone
  rw [hr] at hready
  rw [hp] at hpaused
  rw [hready.of_nil.1, hpaused.of_nil]

/-- Runs of machines of which one owes a call go with the calls that were made before. -/
theorem Twin.matches {i j : Nat} {bs : List Arm} {y y' : Machine H} (h : Twin c₂ bs i x x')
    (hinserted : Inserted c₂ j (trace.filterMap calling?) (trace'.filterMap calling?))
    (hij : j + i = 1) (hy : y.calling? = some c) (hy' : y'.calling? = some c₁) :
    Matches c c₁ c₂ (y :: trace) x (y' :: trace') x' := by
  have hfirst : (y :: trace).filterMap calling? = c :: trace.filterMap calling? :=
    List.filterMap_cons_some hy
  have hfirst' : (y' :: trace').filterMap calling? = c₁ :: trace'.filterMap calling? :=
    List.filterMap_cons_some hy'
  have hboth (hj : j = 1) : ∃ l l', (y :: trace).filterMap calling? = c :: (l ++ l') ∧
      (y' :: trace').filterMap calling? = c₁ :: (l ++ c₂ :: l') := by
    subst hj
    obtain ⟨l, l', hl, hl'⟩ := hinserted.split_of_one
    exact ⟨l, l', hl ▸ hfirst, hl' ▸ hfirst'⟩
  refine ⟨h.world, h.plan, h.polling, h.clock, h.deadline, h.result, h.isDone_eq, ?_,
    fun hdone => ?_⟩
  · rcases Nat.le_one_iff_eq_zero_or_eq_one.mp (hij ▸ Nat.le_add_right j i) with rfl | hj
    · rw [hfirst, hfirst', hinserted.eq_of_zero]
      exact .first
    · obtain ⟨l, l', hl, hl'⟩ := hboth hj
      rw [hl, hl']
      exact .both
  · exact hboth (by rw [Twin.isDone_zero h hdone] at hij; exact hij)

/-- Threads that are being polled may be these two; all others are the same. -/
def Opening (t₀ t₀' : Thread H) : Debt H :=
  fun polled n t t' => n = 0 ∧ (t' = t ∨ polled ∧ t = t₀ ∧ t' = t₀')

theorem awakes_opening (t₀ t₀' : Thread H) : (Opening t₀ t₀').Awakes :=
  fun ⟨hn, ht⟩ => ⟨hn, ht.imp_right fun ⟨hpolled, _⟩ => nomatch hpolled⟩

/-- Machines that are the same but for the thread that is being polled. -/
structure Opens (t₀ t₀' : Thread H) (m m' : Machine H) : Prop where
  owes : m.Owes (Opening t₀ t₀') 0 m'
  polling : m.polling
  front : ∃ rest, m.ready = .resume t₀ :: rest
  front' : ∃ rest, m'.ready = .resume t₀' :: rest

namespace Opens

variable {t₀ t₀' : Thread H}

theorem of_ready (hpolling : m.polling) (hready : m.ready = .resume t₀ :: rest)
    (hm' : m' = { m with ready := .resume t₀' :: rest }) : Opens t₀ t₀' m m' := by
  have hsame {polled : Bool} (l : List (Job H)) :
      Tally (Job.Owes (Opening t₀ t₀') polled) 0 l l := .refl (fun j => by
    cases j with
    | start b => exact .start b
    | resume t => exact .resume ⟨rfl, .inl rfl⟩) l
  have hpaused : Tally (Paused.Owes (Opening t₀ t₀')) 0 m.paused m.paused :=
    .refl (fun _ => ⟨rfl, rfl, rfl, .inl rfl⟩) _
  refine ⟨?_, hpolling, ⟨rest, hready⟩, ⟨rest, hm' ▸ rfl⟩⟩
  rw [hm']
  refine ⟨.refl _, rfl, rfl, rfl, rfl, rfl, 0, 0, rfl, ?_, hpaused⟩
  rw [hready]
  exact .cons (.resume ⟨rfl, .inr ⟨hpolling, rfl, rfl⟩⟩) (hsame rest)

/-- What stays in front when something happens around a thread that is being polled. -/
theorem of_shifts (h : Opens t₀ t₀' m m') (hx : m.Shifts x) (hx' : m'.Shifts x')
    (howes : x.Owes (Opening t₀ t₀') 0 x') : Opens t₀ t₀' x x' := by
  obtain ⟨rest, hready⟩ := h.front
  obtain ⟨rest', hready'⟩ := h.front'
  obtain ⟨later, hlater⟩ := (Shifts.of_polling hx h.polling).1
  obtain ⟨later', hlater'⟩ := (Shifts.of_polling hx' (h.owes.polling.trans h.polling)).1
  exact ⟨howes, (Shifts.polling_eq hx).trans h.polling,
    ⟨rest ++ later, by rw [hlater, hready]; rfl⟩, ⟨rest' ++ later', by rw [hlater', hready']; rfl⟩⟩

theorem forth (h : Opens t₀ t₀' m m') (hx : m.Shifts x) :
    ∃ x', m'.Shifts x' ∧ Opens t₀ t₀' x x' := by
  obtain ⟨x', hx', howes⟩ := h.owes.shifts (awakes_opening t₀ t₀') hx
  exact ⟨x', hx', h.of_shifts hx hx' howes⟩

theorem back (h : Opens t₀ t₀' m m') (hx' : m'.Shifts x') :
    ∃ x, m.Shifts x ∧ Opens t₀ t₀' x x' := by
  obtain ⟨x, hx, howes⟩ := h.owes.shifts_back (awakes_opening t₀ t₀') hx'
  exact ⟨x, hx, h.of_shifts hx hx' howes⟩

/-- The other threads are the same. -/
theorem base (h : Opens t₀ t₀' m m') (c : Call) (bs : List Arm) :
    ∃ rest rest', m.ready = .resume t₀ :: rest ∧ m'.ready = .resume t₀' :: rest' ∧ Twin c bs 0
      { m with world := m.world.countCall, ready := rest, polling := false }
      { m' with world := m'.world.countCall, ready := rest', polling := false } := by
  obtain ⟨rest, hready⟩ := h.front
  obtain ⟨rest', hready'⟩ := h.front'
  obtain ⟨i, j, hij, hjobs, hpaused⟩ := h.owes.jobs
  rw [hready, hready'] at hjobs
  have hthread {n : Nat} {t t' : Thread H} (ht : Opening t₀ t₀' false n t t') :
      Thread.Twin c bs false n t t' := by
    obtain ⟨rfl, rfl | ⟨hpolled, _⟩⟩ := ht
    · exact .plain (.refl _)
    · cases hpolled
  have hrest : Tally (Job.Owes (Thread.Twin c bs) false) 0 rest rest' := by
    cases hjobs with
    | @cons p q _ _ _ _ _ htally =>
      obtain rfl : q = 0 := by omega
      refine htally.mono fun _ _ _ hj => ?_
      cases hj with
      | start b => exact .start b
      | resume ht => exact .resume (hthread ht)
  obtain rfl : j = 0 := by omega
  exact ⟨rest, rest', hready, hready', h.owes.world.countCall, h.owes.plan, rfl, h.owes.clock,
    h.owes.deadline, h.owes.result, 0, 0, rfl, .of_tally Thread.lawful_twin.awakes hrest,
    hpaused.mono fun _ _ _ hq => ⟨hq.token, hq.wake, hthread hq.thread⟩⟩

theorem matches_nil (h : Opens t₀ t₀' m m') : Matches c c₁ c₂ [] m [] m' := by
  obtain ⟨rest, hready⟩ := h.front
  refine ⟨h.owes.world, h.owes.plan, h.owes.polling, h.owes.clock, h.owes.deadline, h.owes.result,
    h.owes.isDone_eq, .none, fun hdone => ?_⟩
  cases hdone.symm.trans (isDone_of_resume hready)

end Opens

/-- The first call of `ifElse` and that of `if` leave machines of which the second one owes the other
call of `if`. -/
theorem Opens.step {cs : List Call} {l l' l₁ : List BoundInput}
    (hifElse : s.library["ifElse"]? = some (.builtin .ifElse))
    (hif : s.library["if"]? = some (.builtin .ifOnly)) (hc : c.Splits c₁ c₂)
    (hl : c.need .ifElse "if" 3 = .ok l) (hl' : c.need .ifElse "elif" 3 = .ok l')
    (hl₁ : c₁.need .ifOnly "if" 3 = .ok l₁) (hcondition : SameCondition l l₁)
    (h : Opens (.calls (c :: cs) :: k) (.calls (c₁ :: c₂ :: cs) :: k) m m') :
    ∃ x x', m.step s (World.emit depth) = some x ∧ m'.step s (World.emit depth) = some x' ∧
      Twin c₂ (c.arm? "elif" l').toList 1 x x' := by
  obtain ⟨rest, rest', hready, hready', hbase⟩ := h.base c₂ (c.arm? "elif" l').toList
  refine ⟨_, _, step_of_call hready (Call.effect_ifElse hifElse hc.target hl hl'),
    step_of_call hready' (Call.effect_if hif hc.target₁ hl₁), ?_⟩
  exact Owes.settle Thread.lawful_twin (.on (.ahead .base .nil (fun _ => rfl)
    (Call.arms_alike hcondition hc.branch₁) (.refl k))) hbase

/-- **A call of `ifElse` runs like two calls of `if`.** -/
theorem runsAlike {cs : List Call} (hifElse : s.library["ifElse"]? = some (.builtin .ifElse))
    (hif : s.library["if"]? = some (.builtin .ifOnly)) (hc : c.Splits c₁ c₂) (hpolling : m.polling)
    (hready : m.ready = .resume (.calls (c :: cs) :: k) :: rest)
    (hm' : m' = { m with ready := .resume (.calls (c₁ :: c₂ :: cs) :: k) :: rest }) :
    RunsAlike s depth c c₁ c₂ m m' := by
  obtain ⟨l, l₁, hl, hl₁, hcondition₁⟩ := hc.first
  obtain ⟨l', l₂, hl', hl₂, hcondition₂⟩ := hc.second
  have hleaves : c₂.LeavesArms s.library (c.arm? "elif" l').toList :=
    ⟨_, Call.arms_alike hcondition₂ hc.branch₂, fun _ _ => Call.effect_if hif hc.target₂ hl₂⟩
  have hopens := Opens.of_ready hpolling hready hm'
  have hcalling {z z' : Machine H}
      (h : Opens (.calls (c :: cs) :: k) (.calls (c₁ :: c₂ :: cs) :: k) z z') :
      z.calling? = some c ∧ z'.calling? = some c₁ := by
    obtain ⟨_, hfront⟩ := h.front
    obtain ⟨_, hfront'⟩ := h.front'
    exact ⟨calling?_resume hfront, calling?_resume hfront'⟩
  constructor
  case forth =>
    intro trace x y hp hx
    cases hp with
    | nil =>
      obtain ⟨x', hx', h⟩ := hopens.forth hx
      exact ⟨[], m', x', .nil, hx', h.matches_nil⟩
    | cons hz hmore hstep hp =>
      obtain ⟨z', hz', h⟩ := hopens.forth hz
      obtain ⟨v, v', hv, hv', htwin⟩ := h.step hifElse hif hc hl hl' hl₁ hcondition₁
      cases hstep.symm.trans hv
      obtain ⟨trace', y', x', i, j, hp', hx', hx, hinserted, hij⟩ := Twin.forth hleaves htwin hp hx
      exact ⟨_, y', x', .cons hz' (h.owes.isDone_eq.trans hmore) hv' hp', hx',
        Twin.matches hx hinserted hij (hcalling h).1 (hcalling h).2⟩
  case back =>
    intro trace' x' y' hp hx'
    cases hp with
    | nil =>
      obtain ⟨x, hx, h⟩ := hopens.back hx'
      exact ⟨[], m, x, .nil, hx, h.matches_nil⟩
    | cons hz hmore hstep hp =>
      obtain ⟨z, hz₁, h⟩ := hopens.back hz
      obtain ⟨v, v', hv, hv', htwin⟩ := h.step hifElse hif hc hl hl' hl₁ hcondition₁
      cases hstep.symm.trans hv'
      obtain ⟨trace, y, x, i, j, hp', hx, hx', hinserted, hij⟩ := Twin.back hleaves htwin hp hx'
      exact ⟨_, y, x, .cons hz₁ (h.owes.isDone_eq.symm.trans hmore) hv hp', hx,
        Twin.matches hx' hinserted hij (hcalling h).1 (hcalling h).2⟩

/-- What is run in front of some arms comes to its end there, whether it fails or not. -/
theorem Path.tried {as : List Arm} (hp : Path s depth m trace x)
    (ht : ∃ t : Thread H, t.Whole ∧ t ++ .arms as :: k ∈ m.threads) :
    (∃ t : Thread H, t.Whole ∧ t ++ .arms as :: k ∈ x.threads) ∨
      ∃ y ∈ trace, ∃ rest, y.ready = .resume (.arms as :: k) :: rest := by
  obtain ⟨t, ht, hmem⟩ := ht
  have hlasts := hp.lasts (P := fun u => ∃ t : Thread H, t.Whole ∧ u = t ++ .arms as :: k)
    (Q := fun y => ∃ rest, y.ready = .resume (.arms as :: k) :: rest)
    (fun {y u rest a w} hready hu ha => ?_) ⟨_, hmem, t, ht, rfl⟩
  · refine hlasts.imp_left ?_
    rintro ⟨_, hu, t, ht, rfl⟩
    exact ⟨t, ht, hu⟩
  · obtain ⟨t, ht, rfl⟩ := hu
    cases t with
    | nil => exact .inr ⟨rest, hready⟩
    | cons f t =>
      obtain ⟨t', ht', rfl | ⟨token, _, rfl⟩⟩ := ht.advance_onto (List.cons_ne_nil f t) ha
      · refine .inl ⟨_, ?_, t', ht', rfl⟩
        cases t' <;> exact List.mem_singleton_self _
      · exact .inl ⟨_, List.mem_singleton_self _, t', ht', rfl⟩

end Machine

/-- **`ifElse` is two `if`s**, with the functions that a setting has. -/
structure Setting.BranchesTwice (s : Setting H) : Prop where
  /-- A call of `ifElse` and two calls of `if` that have its conditions and its branches come to the
  same from any state in which the thread that makes them is being polled, whatever is run and
  whatever the schedule is. -/
  alike {c c₁ c₂ : Call} {cs : List Call} {k : Thread H} {rest : List (Job H)} {m : Machine H}
      (depth : Nat) : c.Splits c₁ c₂ → m.polling →
    m.ready = .resume (.calls (c :: cs) :: k) :: rest →
    Machine.RunsAlike s depth c c₁ c₂ m
      { m with ready := .resume (.calls (c₁ :: c₂ :: cs) :: k) :: rest }
  /-- In every state of a run of a program or of a chain, a thread that makes its next call is being
  polled. -/
  polled {session : Session H} {depth : Nat} {cs : List Call} {k : Thread H} {rest : List (Job H)}
      {before : List (Machine H)} {start x y : Machine H} :
    session.setting = s →
    (∃ p limit, start = session.machine p limit) ∨ (∃ chain, start = session.chainMachine chain) →
    Machine.Path s depth start before y → y.Shifts x →
    x.ready = .resume (.calls cs :: k) :: rest → x.polling
  /-- Each call of `ifElse` with valid inputs has such calls. -/
  splits {c : Call} {l l' : List BoundInput} : c.target = "ifElse" →
    c.need .ifElse "if" 3 = .ok l → c.need .ifElse "elif" 3 = .ok l' →
    c.Splits (c.alone "if") (c.alone "elif")
  /-- It leaves the arms of both branches, one after the other. -/
  leaves {c : Call} {cs : List Call} {l l' : List BoundInput} {k : Thread H} {rest : List (Job H)}
      {m : Machine H} (depth : Nat) : c.target = "ifElse" → c.need .ifElse "if" 3 = .ok l →
    c.need .ifElse "elif" 3 = .ok l' → m.ready = .resume (.calls (c :: cs) :: k) :: rest →
    m.step s (World.emit depth) = some (m.settle s rest
      (.on (.arms ((c.arm? "if" l).toList ++ (c.arm? "elif" l').toList) :: .calls cs :: k),
        m.world.countCall))
  /-- While the body of an arm is run, failures in it included, the arms behind it are kept, until
  they are the next thing to be tried. -/
  tried {as : List Arm} {k : Thread H} {depth : Nat} {m x : Machine H} {trace : List (Machine H)} :
    Machine.Path s depth m trace x →
    (∃ t : Thread H, t.Whole ∧ t ++ .arms as :: k ∈ m.threads) →
    (∃ t : Thread H, t.Whole ∧ t ++ .arms as :: k ∈ x.threads) ∨
      ∃ y ∈ trace, ∃ rest, y.ready = .resume (.arms as :: k) :: rest
  /-- The condition of an arm is read when it is tried, and if it holds then, its body is run. -/
  reads {a : Arm} {as : List Arm} {k : Thread H} {rest : List (Job H)} {m : Machine H}
      (depth : Nat) :
    m.ready = .resume (.arms (a :: as) :: k) :: rest →
    m.step s (World.emit depth) = some (m.settle s rest
      (.on (if m.world.shared.conditionHolds a.condition then a.body.frames ++ .arms as :: k
        else .arms as :: k), m.world))
  /-- With invalid inputs of either segment the call fails, whatever the variables are, and nothing
  is run. -/
  invalid {c : Call} {cs : List Call} {e : RunError} {k : Thread H} {rest : List (Job H)}
      {m : Machine H} (depth : Nat) : c.target = "ifElse" →
    c.need .ifElse "if" 3 = .error e ∨
      (∃ l, c.need .ifElse "if" 3 = .ok l) ∧ c.need .ifElse "elif" 3 = .error e →
    m.ready = .resume (.calls (c :: cs) :: k) :: rest →
    m.step s (World.emit depth) = some (m.settle s rest (fail e k m.world.countCall))

/-- **`ifElse` is two `if`s in sequence**, whatever else the library has. -/
theorem Setting.branchesTwice {s : Setting H}
    (hifElse : s.library["ifElse"]? = some (.builtin .ifElse))
    (hif : s.library["if"]? = some (.builtin .ifOnly)) : s.BranchesTwice where
  alike _ hc hpolling hready := Machine.runsAlike hifElse hif hc hpolling hready rfl
  polled {_ _ _ _ _ _ start _ _} _ hstart hp hx hready := by
    have hbegin : start.Orderly := by
      rcases hstart with ⟨_, _, rfl⟩ | ⟨_, rfl⟩
      · exact Session.orderly_machine
      · exact Session.orderly_chainMachine
    have horderly := (hp.invariant hbegin Machine.Orderly.shift Machine.Orderly.move).2
    exact (horderly.shifts hx).polling_of_front hready nofun
  splits := Call.splits_alone
  leaves _ ht hl hl' hready := Machine.step_of_call hready (Call.effect_ifElse hifElse ht hl hl')
  tried hp ht := hp.tried ht
  reads _ hready := by
    refine Machine.step_of_advance hready ?_
    simp only [advance]
    split <;> rfl
  invalid _ ht he hready :=
    Machine.step_of_fails hready (.call (Call.effect_ifElse_error hifElse ht he))

namespace Session

open Machine

/-- A call of a function that there is not. -/
def missing (block : String) : Call := .mk "gone" block [] [] none

/-- A call of `ifElse` whose first body sets a variable of the second condition, and then fails. -/
def forking : Call :=
  .mk "ifElse" "i"
    [("0", holding "if"), ("1", [⟨"0", "", "varA", .operand, .read, some "x", "elif"⟩,
      ⟨"1", "", "varB", .operand, .read, some "chan", "elif"⟩,
      ⟨"2", "", "eval", .operator, .read, some "op", "elif"⟩])]
    [("0", ⟨"if", [storing "v", missing "m", logging "u"]⟩), ("1", ⟨"elif", [logging "n"]⟩)] none

/-- Both branches are run, and the failure of the first one is counted. -/
theorem branchesTwice_spinning : spinning.setting.BranchesTwice ∧
    ∃ trace x trace' y' x', Path spinning.setting 1 (spinning.chainMachine [forking]) trace x ∧
      Path spinning.setting 1
        (spinning.chainMachine [forking.alone "if", forking.alone "elif"]) trace' y' ∧
      y'.Shifts x' ∧ x.isDone ∧ x'.isDone ∧ x.world.Like x'.world ∧ x.world.failures = 1 ∧
      (trace.filterMap calling?).map Call.block = ["i", "v", "m", "n"] ∧
      (trace'.filterMap calling?).length = 5 := by
  have htwice : spinning.setting.BranchesTwice :=
    Setting.branchesTwice (Library.getElem?_standard .ifElse) (Library.getElem?_standard .ifOnly)
  have hsplits : forking.Splits (forking.alone "if") (forking.alone "elif") :=
    htwice.splits rfl rfl rfl
  have hwalk : ((walk spinning.setting 1 11 (spinning.chainMachine [forking])).any fun p =>
      p.2.isDone && p.2.world.failures == 1 &&
        (p.1.filterMap calling?).map Call.block == ["i", "v", "m", "n"]) = true := by decide +kernel
  obtain ⟨⟨trace, x⟩, hwalk, hx⟩ := (Option.any_eq_true _ _).mp hwalk
  simp only [Bool.and_eq_true, beq_iff_eq] at hx
  obtain ⟨⟨hdone, hfailures⟩, hblocks⟩ := hx
  have hp := path_of_walk hwalk
  obtain ⟨trace', y', x', hp', hx', hmatches⟩ := (htwice.alike 1 hsplits rfl rfl).forth hp .refl
  obtain ⟨l, l', hl, hl'⟩ := hmatches.both hdone
  refine ⟨htwice, trace, x, trace', y', x', hp, hp', hx', hdone, hmatches.isDone.trans hdone,
    hmatches.world, hfailures, hblocks, ?_⟩
  have hlength := congrArg List.length hblocks
  rw [hl, List.length_map, List.length_cons, List.length_append] at hlength
  rw [hl', List.length_cons, List.length_append, List.length_cons]
  exact congrArg (· + 1) hlength

end Session

end SnapBlocks

import SnapBlocks.Proofs.Twins

/-! Machines that correspond job by job, so that what programs can tell of them is the same, but the
second one owes something: a number that is counted over its threads. What a schedule does to one of
them it can do to the other one, and what each does by itself when a step of a thread is taken in, or
when nothing is ready, is the same. -/

namespace SnapBlocks

variable {H : Type} {w w' : World H} {em : Emitter H} {t t' : Thread H} {n n' i : Nat}

/-! ## Lists that correspond -/

/-- Two lists correspond entry by entry; the entries owe `n` together. -/
inductive Tally {α β : Type} (R : Nat → α → β → Prop) : Nat → List α → List β → Prop
  | nil : Tally R 0 [] []
  | cons {i n : Nat} {a : α} {b : β} {l : List α} {l' : List β} : R i a b → Tally R n l l' →
      Tally R (i + n) (a :: l) (b :: l')

namespace Tally

variable {α β γ : Type} {R : Nat → α → β → Prop} {l k : List α} {l' k' : List β}

theorem append (h : Tally R n l l') (hk : Tally R n' k k') :
    Tally R (n + n') (l ++ k) (l' ++ k') := by
  induction h with
  | nil => exact (Nat.zero_add n').symm ▸ hk
  | cons ha _ ih => exact (Nat.add_assoc ..).symm ▸ .cons ha ih

theorem single {a : α} {b : β} (h : R n a b) : Tally R n [a] [b] := .cons h .nil

theorem refl {R : Nat → α → α → Prop} (h : ∀ a, R 0 a a) (l : List α) : Tally R 0 l l := by
  induction l with
  | nil => exact .nil
  | cons a l ih => exact .cons (h a) ih

theorem map {α' β' : Type} {Q : Nat → α' → β' → Prop} {f : α → α'} {g : β → β'}
    (hR : ∀ i a b, R i a b → Q i (f a) (g b)) (h : Tally R n l l') :
    Tally Q n (l.map f) (l'.map g) := by
  induction h with
  | nil => exact .nil
  | cons ha _ ih => exact .cons (hR _ _ _ ha) ih

theorem map_eq {f : α → γ} {g : β → γ} (hR : ∀ i a b, R i a b → f a = g b)
    (h : Tally R n l l') : l.map f = l'.map g := by
  induction h with
  | nil => rfl
  | cons ha _ ih => rw [List.map_cons, List.map_cons, hR _ _ _ ha, ih]

theorem filterMap_eq {f : α → Option γ} {g : β → Option γ} (hR : ∀ i a b, R i a b → f a = g b)
    (h : Tally R n l l') : l.filterMap f = l'.filterMap g := by
  induction h with
  | nil => rfl
  | cons ha _ ih => rw [List.filterMap_cons, List.filterMap_cons, hR _ _ _ ha, ih]

theorem any_eq {p : α → Bool} {q : β → Bool} (hR : ∀ i a b, R i a b → p a = q b)
    (h : Tally R n l l') : l.any p = l'.any q := by
  induction h with
  | nil => rfl
  | cons ha _ ih => rw [List.any_cons, List.any_cons, hR _ _ _ ha, ih]

theorem of_nil (h : Tally R n [] l') : n = 0 := by
  cases h
  rfl

/-- What the entries owe is owed by those with a property and those without it. -/
theorem filter {p : α → Bool} {q : β → Bool} (hR : ∀ i a b, R i a b → p a = q b)
    (h : Tally R n l l') : ∃ i j, i + j = n ∧ Tally R i (l.filter p) (l'.filter q) ∧
      Tally R j (l.filter (! p ·)) (l'.filter (! q ·)) := by
  induction h with
  | nil => exact ⟨0, 0, rfl, .nil, .nil⟩
  | @cons m n a b l l' ha _ ih =>
    obtain ⟨i, j, rfl, hi, hj⟩ := ih
    have hpq := hR _ _ _ ha
    by_cases hp : p a
    · refine ⟨m + i, j, Nat.add_assoc .., ?_, ?_⟩
      · rw [List.filter_cons_of_pos hp, List.filter_cons_of_pos (hpq ▸ hp)]
        exact .cons ha hi
      · rw [List.filter_cons_of_neg (by simp [hp]), List.filter_cons_of_neg (by simp [← hpq, hp])]
        exact hj
    · refine ⟨i, m + j, Nat.add_left_comm .., ?_, ?_⟩
      · rw [List.filter_cons_of_neg hp, List.filter_cons_of_neg (hpq ▸ hp)]
        exact hi
      · rw [List.filter_cons_of_pos (by simp [hp]), List.filter_cons_of_pos (by simp [← hpq, hp])]
        exact .cons ha hj

/-- Entries that are put in another order correspond to entries that are. -/
theorem perm (h : Tally R n l l') (hk : k.Perm l) : ∃ k', k'.Perm l' ∧ Tally R n k k' := by
  induction hk generalizing n l' with
  | nil =>
    cases h
    exact ⟨[], .refl _, .nil⟩
  | cons a _ ih =>
    cases h with
    | @cons _ _ _ b _ _ ha h =>
      obtain ⟨k', hk', h'⟩ := ih h
      exact ⟨b :: k', hk'.cons b, .cons ha h'⟩
  | swap a a' l =>
    cases h with
    | @cons i _ _ b _ _ ha h =>
      cases h with
      | @cons i' n _ b' _ r hb h =>
        exact ⟨b' :: b :: r, .swap b b' r, Nat.add_left_comm i i' n ▸ .cons hb (.cons ha h)⟩
  | trans _ _ ih ih' =>
    obtain ⟨r, hr, h'⟩ := ih' h
    obtain ⟨k', hk', h''⟩ := ih h'
    exact ⟨k', hk'.trans hr, h''⟩

/-- An entry that is taken out corresponds to one that is. -/
theorem take {r : List α} {a : α} (h : Tally R n (l ++ a :: r) l') : ∃ i j k' b r',
    l' = k' ++ b :: r' ∧ R i a b ∧ Tally R j (l ++ r) (k' ++ r') ∧ j + i = n := by
  induction l generalizing n l' with
  | nil =>
    cases h with
    | @cons i j _ b _ r' ha h => exact ⟨i, j, [], b, r', rfl, ha, h, Nat.add_comm ..⟩
  | cons x l ih =>
    cases h with
    | @cons p _ _ y _ _ hx h =>
      obtain ⟨i, j, k', b, r', rfl, ha, h', rfl⟩ := ih h
      exact ⟨i, p + j, y :: k', b, r', rfl, ha, .cons hx h', Nat.add_assoc ..⟩

theorem flip (h : Tally R n l l') : Tally (fun n b a => R n a b) n l' l := by
  induction h with
  | nil => exact .nil
  | cons ha _ ih => exact .cons ha ih

theorem mono {Q : Nat → α → β → Prop} (h : Tally R n l l') (hR : ∀ n a b, R n a b → Q n a b) :
    Tally Q n l l' := by
  induction h with
  | nil => exact .nil
  | cons ha _ ih => exact .cons (hR _ _ _ ha) ih

theorem isEmpty_eq (h : Tally R n l l') : l'.isEmpty = l.isEmpty := by
  cases h <;> rfl

end Tally

/-! ## Jobs that correspond -/

/-- How threads correspond that are being polled, or are not, and what the second one owes. -/
abbrev Debt (H : Type) := Bool → Nat → Thread H → Thread H → Prop

/-- What corresponds the other way round. -/
def Debt.flip (R : Debt H) : Debt H := fun polled n t t' => R polled n t' t

/-- Threads that correspond while they wait do so when they are polled. -/
def Debt.Awakes (R : Debt H) : Prop := ∀ {n : Nat} {t t' : Thread H}, R false n t t' → R true n t t'

/-- Each thread corresponds to itself and owes nothing. Threads that correspond end together, and owe
nothing then. -/
structure Debt.Lawful (R : Debt H) : Prop where
  awakes : R.Awakes
  refl (polled : Bool) (t : Thread H) : R polled 0 t t
  ended {polled : Bool} {n : Nat} {t' : Thread H} : R polled n [] t' → n = 0 ∧ t' = []
  goesOn {polled : Bool} {n : Nat} {t t' : Thread H} : R polled n t t' → t ≠ [] → t' ≠ []

/-- What comes of steps of threads that correspond then. -/
inductive Advance.Owes (R : Debt H) (n : Nat) : Advance H → Advance H → Prop
  | on {t t' : Thread H} : R true n t t' → Owes R n (.on t) (.on t')
  | pause (token : Option Token) {t t' : Thread H} : R false n t t' →
      Owes R n (.pause token t) (.pause token t')
  | escaped (e : RunError) : n = 0 → Owes R n (.escaped e) (.escaped e)

/-- Jobs that correspond. -/
inductive Job.Owes (R : Debt H) (polled : Bool) : Nat → Job H → Job H → Prop
  | start (b : Body) : Owes R polled 0 (.start b) (.start b)
  | resume {n : Nat} {t t' : Thread H} : R polled n t t' → Owes R polled n (.resume t) (.resume t')

/-- Paused threads that resume at the same moment, and correspond. -/
structure Paused.Owes (R : Debt H) (n : Nat) (q q' : Paused H) : Prop where
  token : q'.token = q.token
  wake : q'.wake = q.wake
  thread : R false n q.thread q'.thread

/-- Jobs that are ready, of which the first one may be that of a thread that is being polled. -/
inductive Job.OweAll (R : Debt H) (polled : Bool) : Nat → List (Job H) → List (Job H) → Prop
  | nil : OweAll R polled 0 [] []
  | cons {i n : Nat} {j j' : Job H} {l l' : List (Job H)} : j.Owes R polled i j' →
      Tally (Job.Owes R false) n l l' → OweAll R polled (i + n) (j :: l) (j' :: l')

section
variable {R : Debt H} {polled : Bool} {l l' k k' : List (Job H)} {q q' : Paused H}

theorem Job.Owes.body?_eq {j j' : Job H} (h : j.Owes R polled n j') : j'.body? = j.body? := by
  cases h with
  | start b => rfl
  | resume => rfl

theorem Job.tally_start (l : List Body) :
    Tally (Job.Owes R polled) 0 (l.map .start) (l.map .start) := by
  induction l with
  | nil => exact .nil
  | cons b l ih => exact .cons (.start b) ih

theorem Job.OweAll.of_tally (hR : R.Awakes) (h : Tally (Job.Owes R false) n l l') :
    Job.OweAll R polled n l l' := by
  cases h with
  | nil => exact .nil
  | cons hj h =>
    refine .cons ?_ h
    cases polled with
    | false => exact hj
    | true =>
      cases hj with
      | start b => exact .start b
      | resume ht => exact .resume (hR ht)

namespace Job.OweAll

theorem tally (h : Job.OweAll R false n l l') : Tally (Job.Owes R false) n l l' := by
  cases h with
  | nil => exact .nil
  | cons hj h => exact .cons hj h

theorem append (hR : R.Awakes) (h : Job.OweAll R polled n l l')
    (hk : Tally (Job.Owes R false) n' k k') : Job.OweAll R polled (n + n') (l ++ k) (l' ++ k') := by
  cases h with
  | nil => exact (Nat.zero_add n').symm ▸ .of_tally hR hk
  | cons hj h => exact (Nat.add_assoc ..).symm ▸ .cons hj (h.append hk)

theorem flip (h : Job.OweAll R polled n l l') : Job.OweAll R.flip polled n l' l := by
  have hjob {polled : Bool} {n : Nat} {j j' : Job H} (h : j.Owes R polled n j') :
      j'.Owes R.flip polled n j := by
    cases h with
    | start b => exact .start b
    | resume ht => exact .resume ht
  cases h with
  | nil => exact .nil
  | cons hj h => exact .cons (hjob hj) (h.flip.mono fun _ _ _ => hjob)

theorem isEmpty_eq (h : Job.OweAll R polled n l l') : l'.isEmpty = l.isEmpty := by
  cases h <;> rfl

theorem of_nil (h : Job.OweAll R polled n [] l') : n = 0 ∧ l' = [] := by
  cases h
  exact ⟨rfl, rfl⟩

end Job.OweAll

theorem Paused.Owes.isRoused_eq (h : q.Owes R n q') (ts : Tokens) :
    q'.isRoused ts = q.isRoused ts := by
  unfold isRoused
  rw [h.token]

end

/-! ## Machines that correspond -/

namespace Machine

variable {m m' x x' : Machine H} {s : Setting H} {rest rest' : List (Job H)} {R : Debt H}

/-- Machines that correspond, of which the second one owes `n`. -/
structure Owes (R : Debt H) (n : Nat) (m m' : Machine H) : Prop where
  world : m.world.Like m'.world
  plan : m'.plan = m.plan
  polling : m'.polling = m.polling
  clock : m'.clock = m.clock
  deadline : m'.deadline = m.deadline
  result : m'.result = m.result
  jobs : ∃ i j, i + j = n ∧ Job.OweAll R m.polling i m.ready m'.ready ∧
    Tally (Paused.Owes R) j m.paused m'.paused

theorem settle_on (ht : t ≠ []) : m.settle s rest (.on t, w) =
    { m with world := w, ready := .resume t :: rest, polling := true } := by
  cases t with
  | nil => exact absurd rfl ht
  | cons f t => rfl

namespace Owes

theorem flip (h : m.Owes R n m') : m'.Owes R.flip n m := by
  obtain ⟨i, j, rfl, hready, hpaused⟩ := h.jobs
  refine ⟨h.world.symm, h.plan.symm, h.polling.symm, h.clock.symm, h.deadline.symm, h.result.symm,
    i, j, rfl, h.polling ▸ hready.flip, hpaused.flip.mono fun _ _ _ hq => ?_⟩
  exact ⟨hq.token.symm, hq.wake.symm, hq.thread⟩

theorem isDone_eq (h : m.Owes R n m') : m'.isDone = m.isDone := by
  obtain ⟨i, j, _, hready, hpaused⟩ := h.jobs
  unfold isDone
  rw [hready.isEmpty_eq, hpaused.isEmpty_eq, h.plan]

theorem isCalled_eq (h : m.Owes R n m') : m'.isCalled = m.isCalled := by
  unfold isCalled
  rw [h.plan, h.world.signal]

theorem isDue_eq (h : m.Owes R n m') {q q' : Paused H} (hq : q.Owes R i q') :
    m'.isDue q' = m.isDue q := by
  unfold isDue
  rw [hq.wake, h.clock]

theorem pause (h : m.Owes R n m') (token : Option Token) (ht : R false i t t') :
    (m.pause s token t).Owes R (i + n) (m'.pause s token t') := by
  obtain ⟨j, k, rfl, hready, hpaused⟩ := h.jobs
  unfold Machine.pause
  rw [h.clock]
  split
  · refine ⟨h.world, h.plan, h.polling, rfl, h.deadline, h.result, j, k + i, ?_, hready,
      hpaused.append (.single ⟨rfl, rfl, ht⟩)⟩
    rw [Nat.add_comm i, Nat.add_assoc]
  · exact ⟨h.world, h.plan, h.polling, rfl, h.deadline, h.result, j, i + k, Nat.add_left_comm ..,
      hready, .cons ⟨rfl, rfl, ht⟩ hpaused⟩

section
variable (hR : R.Awakes)
include hR

theorem release (h : m.Owes R n m') {p p' : Paused H → Bool}
    (hp : ∀ i q q', Paused.Owes R i q q' → p q = p' q') :
    (m.release p).Owes R n (m'.release p') := by
  obtain ⟨i, j, rfl, hready, hpaused⟩ := h.jobs
  obtain ⟨i', j', rfl, hreleased, hkept⟩ := hpaused.filter hp
  have hresumed := hreleased.map (Q := Job.Owes R false) (f := fun q => .resume q.thread)
    (g := fun q => .resume q.thread) fun _ _ _ hq => .resume hq.thread
  exact ⟨h.world, h.plan, h.polling, h.clock, h.deadline, h.result, i + i', j', Nat.add_assoc ..,
    hready.append hR hresumed, hkept⟩

theorem rouse (h : m.Owes R n m') : m.rouse.Owes R n m'.rouse :=
  h.release hR fun _ _ _ hq => by rw [h.world.shared, hq.isRoused_eq]

theorem enlist (h : m.Owes R n m') : m.enlist.Owes R n m'.enlist := by
  unfold Machine.enlist
  rw [h.plan]
  split
  · obtain ⟨i, j, rfl, hready, hpaused⟩ := h.jobs
    refine ⟨⟨h.world.shared, h.world.subscribers, rfl, h.world.signal, h.world.failures⟩, rfl,
      h.polling, h.clock, h.deadline, h.result, i, j, rfl, ?_, hpaused⟩
    rw [h.world.queue]
    exact hready.append hR (Job.tally_start _)
  · exact h

theorem hear (h : m.Owes R n m') : m.hear.Owes R n m'.hear := by
  have hheard : Owes R n { m with world := { m.world with signal := false } }
      { m' with world := { m'.world with signal := false } } :=
    ⟨⟨h.world.shared, h.world.subscribers, h.world.queue, rfl, h.world.failures⟩, h.plan, h.polling,
      h.clock, h.deadline, h.result, h.jobs⟩
  exact hheard.enlist hR

/-- **What a schedule does to a machine it can do to the one that owes.** -/
theorem shift (h : m.Owes R n m') (hx : Shift m x) : ∃ x', Shift m' x' ∧ x.Owes R n x' := by
  obtain ⟨i, j, rfl, hready, hpaused⟩ := h.jobs
  cases hx with
  | @order ready hfree hperm hbodies =>
    have hfree' := h.polling.trans hfree
    rw [hfree] at hready
    obtain ⟨ready', hperm', howe⟩ := hready.tally.perm hperm
    have hbody {l l' : List (Job H)} {n : Nat} (hl : Tally (Job.Owes R false) n l l') :
        l'.filterMap Job.body? = l.filterMap Job.body? :=
      (hl.filterMap_eq fun _ _ _ hj => hj.body?_eq.symm).symm
    refine ⟨_, .order hfree' hperm' ?_, h.world, h.plan, h.polling, h.clock, h.deadline, h.result, i,
      j, rfl, .of_tally hR howe, hpaused⟩
    rw [hbody howe, hbodies, hbody hready.tally]
  | @wake before after p hp hready' =>
    rw [hp] at hpaused
    obtain ⟨k, j', before', q, after', hq, howes, hrest, rfl⟩ := hpaused.take
    refine ⟨_, .wake hq ?_, h.world, h.plan, h.polling, h.clock, h.deadline, h.result, i + k, j', ?_,
      hready.append hR (.single (.resume howes.thread)), hrest⟩
    · rwa [h.isDue_eq howes, howes.isRoused_eq, h.world.shared]
    · omega
  | @elapse time htime =>
    exact ⟨{ m' with clock := time }, .elapse (Nat.le_trans (Nat.le_of_eq h.clock) htime), h.world,
      h.plan, h.polling, rfl, h.deadline, h.result, h.jobs⟩
  | @expire time token hdeadline htime =>
    exact ⟨_, .expire (h.deadline.trans hdeadline) (h.clock ▸ htime), h.world.trip token, h.plan,
      h.polling, h.clock, rfl, h.result, h.jobs⟩
  | stop =>
    refine ⟨_, .stop, ?_, h.plan, h.polling, h.clock, h.deadline, h.result, h.jobs⟩
    change (m.world.trip m.world.shared.tokens.current).Like
      (m'.world.trip m'.world.shared.tokens.current)
    rw [h.world.shared]
    exact h.world.trip _
  | hear hfree hmore hcalled =>
    exact ⟨_, .hear (h.polling.trans hfree) (h.isDone_eq.trans hmore) (h.isCalled_eq.trans hcalled),
      h.hear hR⟩

theorem shifts (h : m.Owes R n m') (hx : m.Shifts x) : ∃ x', m'.Shifts x' ∧ x.Owes R n x' := by
  induction hx with
  | refl => exact ⟨m', .refl, h⟩
  | tail _ hshift ih =>
    obtain ⟨y, hy, howes⟩ := ih
    obtain ⟨x', hx', howes'⟩ := howes.shift hR hshift
    exact ⟨x', hy.tail hx', howes'⟩

/-- What a schedule does to the machine that owes it can do to the other one. -/
theorem shifts_back (h : m.Owes R n m') (hx : m'.Shifts x') :
    ∃ x, m.Shifts x ∧ x.Owes R n x' := by
  obtain ⟨x, hx, howes⟩ := Owes.shifts (R := R.flip) (fun ht => hR ht) h.flip hx
  exact ⟨x, hx, Owes.flip (R := R.flip) howes⟩

/-! ### Steps -/

theorem sleep (h : m.Owes R n m') (first : Nat) : (m.sleep first).Owes R n (m'.sleep first) := by
  have hclock : Owes R n { m with clock := first }
      { m' with clock := first, deadline := m.deadline } :=
    ⟨h.world, h.plan, h.polling, rfl, rfl, h.result, h.jobs⟩
  unfold Machine.sleep
  rw [h.deadline]
  split
  next time token _ =>
    split
    · have htrip : Owes R n
          { m with world := m.world.trip token, clock := time, deadline := none }
          { m' with world := m'.world.trip token, clock := time, deadline := none } :=
        ⟨h.world.trip token, h.plan, h.polling, rfl, rfl, h.result, h.jobs⟩
      exact htrip.rouse hR
    · exact hclock
  · exact hclock

end

section
variable (hR : R.Lawful)
include hR

/-- What comes of steps of the threads in front is taken in in the same way. -/
theorem settle {a a' : Advance H} (ha : a.Owes R i a') (h : Owes R n
      { m with world := w, ready := rest, polling := false }
      { m' with world := w', ready := rest', polling := false }) :
    (m.settle s rest (a, w)).Owes R (i + n) (m'.settle s rest' (a', w')) := by
  cases ha with
  | @on t t' ht =>
    by_cases hnil : t = []
    · subst hnil
      obtain ⟨rfl, rfl⟩ := hR.ended ht
      exact (Nat.zero_add n).symm ▸ (h.rouse hR.awakes).enlist hR.awakes
    · rw [settle_on hnil, settle_on (hR.goesOn ht hnil)]
      obtain ⟨j, k, rfl, hready, hpaused⟩ := h.jobs
      exact ⟨h.world, h.plan, rfl, h.clock, h.deadline, h.result, i + j, k, Nat.add_assoc ..,
        .cons (.resume ht) hready.tally, hpaused⟩
  | pause token ht => exact (h.rouse hR.awakes).pause token ht
  | escaped e hi =>
    have herror : Owes R n
        { m with world := w, ready := rest, polling := false, result := .error e }
        { m' with world := w', ready := rest', polling := false, result := .error e } :=
      ⟨h.world, h.plan, h.polling, h.clock, h.deadline, rfl, h.jobs⟩
    rw [hi, Nat.zero_add]
    exact (herror.rouse hR.awakes).enlist hR.awakes

/-- With no thread left, the plan is followed in the same way. -/
theorem proceed (hem : em.Blind) (h : m.Owes R n m')
    (hready : m.ready = []) : Option.Rel (Owes R n) (m.proceed em) (m'.proceed em) := by
  unfold Machine.proceed
  rw [h.plan]
  split
  next chain entries _ =>
    obtain ⟨i, j, rfl, hi, hj⟩ := h.jobs
    rw [hready] at hi
    obtain rfl := hi.of_nil.1
    exact .some ⟨h.world, rfl, rfl, h.clock, h.deadline, h.result, 0, j, rfl,
      .cons (.resume (hR.refl true _)) .nil, hj⟩
  next hplan =>
    have hemit := hem startEvent [] h.world
    generalize em startEvent [] m.world = o, em startEvent [] m'.world = o' at hemit
    cases hemit with
    | none => exact .none
    | @some _ _ w w' _ hw =>
      have hdrive : Owes R n { m with plan := .drive, world := w }
          { m' with plan := .drive, world := w' } :=
        ⟨hw, rfl, h.polling, h.clock, h.deadline, h.result, h.jobs⟩
      exact .some (hdrive.enlist hR.awakes)
  · exact .some h

/-- Machines in which nothing is ready make the same step. -/
theorem step_of_nil (hem : em.Blind) (h : m.Owes R n m')
    (hready : m.ready = []) (hready' : m'.ready = []) :
    Option.Rel (Owes R n) (m.step s em) (m'.step s em) := by
  obtain ⟨i, j, _, _, hpaused⟩ := h.jobs
  unfold Machine.step
  rw [hready, hready', h.isCalled_eq]
  dsimp only
  generalize hl : m.paused = l, hl' : m'.paused = l' at hpaused
  cases hpaused with
  | nil => exact h.proceed hR hem hready
  | @cons i n q q' l l' hq hothers =>
    have hany : (q :: l).any m.isDue = (q' :: l').any m'.isDue :=
      (Tally.cons hq hothers).any_eq fun _ _ _ hq => (h.isDue_eq hq).symm
    have hwake : firstWake q'.wake l' = firstWake q.wake l := by
      have hmap := hothers.map_eq (f := Paused.wake) (g := Paused.wake) fun _ _ _ hq => hq.wake.symm
      unfold firstWake
      rw [← List.foldl_map (f := Paused.wake) (g := min), ← hmap, List.foldl_map, hq.wake]
    dsimp only
    rw [← hany, hwake]
    split
    · exact .some (h.hear hR.awakes)
    · split
      · exact .some (h.release hR.awakes fun _ _ _ hq => (h.isDue_eq hq).symm)
      · exact .some (h.sleep hR.awakes _)

end

end Owes

end Machine

end SnapBlocks

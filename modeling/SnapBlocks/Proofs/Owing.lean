import SnapBlocks.Proofs.Account
import SnapBlocks.Proofs.Outcome
import SnapBlocks.Proofs.Tally

/-! Machines of which the second one owes a call for arms that the first one has left: while what is
in front of the arms is run, both make the same steps, and then the second one makes the call, which
leaves it with the same arms. The debt is counted, so the call is made once. It is made while the
thread is being polled, so no schedule can come in between. -/

namespace SnapBlocks

variable {H : Type} {w w' : World H} {em : Emitter H} {c : Call} {t t' u k k' : Thread H}
variable {library : Library H} {a a' : Advance H} {bs : List Arm} {n n' i j : Nat} {depth : Nat}

/-- A list with a number of entries inserted, all of them the same. -/
inductive Inserted {α : Type} (a : α) : Nat → List α → List α → Prop
  | nil : Inserted a 0 [] []
  | keep {n : Nat} {b : α} {l l' : List α} : Inserted a n l l' → Inserted a n (b :: l) (b :: l')
  | insert {n : Nat} {l l' : List α} : Inserted a n l l' → Inserted a (n + 1) l (a :: l')

namespace Inserted

variable {α : Type} {x : α} {l l' r r' : List α}

theorem refl (x : α) (l : List α) : Inserted x 0 l l := by
  induction l with
  | nil => exact .nil
  | cons b l ih => exact .keep ih

theorem append (h : Inserted x n l l') (hr : Inserted x n' r r') :
    Inserted x (n + n') (l ++ r) (l' ++ r') := by
  induction h with
  | nil => exact (Nat.zero_add n').symm ▸ hr
  | keep _ ih => exact .keep ih
  | @insert n l l' _ ih => exact (Nat.succ_add n n').symm ▸ .insert ih

theorem eq_of_zero (h : Inserted x 0 l l') : l' = l := by
  generalize hn : 0 = n at h
  induction h with
  | nil => rfl
  | keep _ ih => rw [ih hn]
  | insert => cases hn

theorem split_of_one (h : Inserted x 1 l l') : ∃ r r', l = r ++ r' ∧ l' = r ++ x :: r' := by
  generalize hn : 1 = n at h
  induction h with
  | nil => cases hn
  | @keep n b l l' _ ih =>
    obtain ⟨r, r', rfl, rfl⟩ := ih hn
    exact ⟨b :: r, r', rfl, rfl⟩
  | @insert n l l' h =>
    cases hn
    exact ⟨[], l, rfl, congrArg _ h.eq_of_zero⟩

end Inserted

/-! ## Threads that owe a call -/

/-- What comes of a step of a thread that has something behind it. -/
def Advance.onto (k : Thread H) : Advance H → Advance H
  | .on t => .on (t ++ k)
  | .pause token t => .pause token (t ++ k)
  | .escaped e => .escaped e

/-- A failure ends in front of what stands behind its boundary. -/
theorem fail_append {b : Boundary H} {rest : Thread H} (hb : b ≠ .outside)
    (ht : t = .boundary b :: rest ∨ ∃ cs, t = .calls cs :: .boundary b :: rest) (e : RunError)
    (k : Thread H) (w : World H) :
    fail e (t ++ k) w = ((fail e t w).1.onto k, (fail e t w).2) := by
  have hunwind : unwind t = (b, rest) ∧ unwind (t ++ k) = (b, rest ++ k) := by
    rcases ht with rfl | ⟨cs, rfl⟩
    · exact ⟨rfl, rfl⟩
    · exact ⟨rfl, rfl⟩
  have hon : (.on (b.resume (.error e) w.shared ++ (rest ++ k)), b.catch e w) =
      ((Advance.on (b.resume (.error e) w.shared ++ rest)).onto k, b.catch e w) :=
    congrArg (fun t => (Advance.on t, b.catch e w)) (List.append_assoc ..).symm
  unfold fail
  rw [hunwind.1, hunwind.2]
  cases b with
  | outside => exact absurd rfl hb
  | _ => exact hon

/-- What stands behind a whole thread takes no part in its steps. -/
theorem Thread.Whole.advance_append (ht : t.Whole) (hne : t ≠ []) :
    SnapBlocks.advance library em (t ++ k) w =
      (SnapBlocks.advance library em t w).map fun p => (p.1.onto k, p.2) := by
  have hfails {t : Thread H} {f : Frame H} {e : RunError} {u : World H} (ht : Whole (f :: t))
      (hf : Thread.Fails library em w (f :: t) e t u) :
      fail e (t ++ k) u = ((fail e t u).1.onto k, (fail e t u).2) := by
    obtain ⟨b, rest, hrest, hb, _, _⟩ :=
      (ht.fails (List.cons_ne_nil f t) hf).resolve_right ht.not_failsLast
    exact fail_append hb.ne_outside hrest e k u
  obtain ⟨f, t, rfl⟩ := List.exists_cons_of_ne_nil hne
  rw [List.cons_append]
  cases f with
  | calls cs =>
    cases cs with
    | nil => rfl
    | cons c cs =>
      simp only [SnapBlocks.advance]
      rcases hrun : (c.effect library em).run w with _ | ⟨_ | work, u⟩
      · rfl
      · exact congrArg some (hfails ht (.call hrun))
      · simp only [Option.map_some, Advance.onto, List.append_assoc, List.cons_append]
  | boundary b =>
    simp only [SnapBlocks.advance, Option.map_some, Advance.onto, List.append_assoc]
  | arms as =>
    cases as with
    | nil => rfl
    | cons a as =>
      simp only [SnapBlocks.advance]
      split <;> simp only [Option.map_some, Advance.onto, List.append_assoc, List.cons_append]
  | loop =>
    simp only [SnapBlocks.advance]
    split <;> rfl
  | check =>
    simp only [SnapBlocks.advance]
    split
    · simp only [Option.map_some, Advance.onto, List.append_assoc, List.cons_append]
    · rfl
  | task x replies =>
    simp only [SnapBlocks.advance]
    rcases hnext : x replies with (e | _) | r | _ | _
    · exact congrArg some (hfails ht (.task hnext))
    · rfl
    · dsimp only
      rcases r.run em w with _ | ⟨_, _⟩
      · rfl
      · rfl
    · rfl
    · rfl

/-- A whole thread stays so, whatever stands behind it. -/
theorem Thread.Whole.advance_onto (ht : t.Whole) (hne : t ≠ [])
    (h : SnapBlocks.advance library em (t ++ k) w = some (a, w')) : ∃ u : Thread H, u.Whole ∧
      (a = .on (u ++ k) ∨ ∃ token, u ≠ [] ∧ a = .pause token (u ++ k)) := by
  rw [ht.advance_append hne] at h
  obtain ⟨⟨b, x⟩, hb, he⟩ := Option.map_eq_some_iff.mp h
  cases he
  obtain ⟨u, hu, rfl | ⟨token, hnil, rfl⟩⟩ := (ht.advance hne hb).resolve_right ht.not_failsLast
  · exact ⟨u, hu, .inl rfl⟩
  · exact ⟨u, hu, .inr ⟨token, hnil, rfl⟩⟩

/-- Two threads do the same, but the second one owes `n` times the call `c` for the last arms `bs`
of the first one. Only a thread that is being polled has come to these. -/
inductive Thread.Twin (c : Call) (bs : List Arm) : Debt H
  | plain {polled : Bool} {t t' : Thread H} : t.Like t' → Twin c bs polled 0 t t'
  /-- The arms in front of the last ones are tried, or the body of one of them is run. -/
  | ahead {polled : Bool} {u u' k k' : Thread H} {as as' : List Arm} {cs : List Call} : u.Whole →
      u.Like u' → (u = [] → polled) → List.Forall₂ Arm.Like as as' → k.Like k' →
      Twin c bs polled 1 (u ++ .arms (as ++ bs) :: .calls cs :: k)
        (u' ++ .arms as' :: .calls (c :: cs) :: k')
  /-- The call is the next thing to be done. -/
  | due {k k' : Thread H} {cs : List Call} : k.Like k' →
      Twin c bs true 1 (.arms bs :: .calls cs :: k) (.calls (c :: cs) :: k')

/-- A call leaves these arms, or some that are alike, whatever the world is. -/
def Call.LeavesArms (library : Library H) (c : Call) (bs : List Arm) : Prop :=
  ∃ bs', List.Forall₂ Arm.Like bs bs' ∧ ∀ (em : Emitter H) (w : World H),
    (c.effect library em).run w = some (.ok (.arms bs'), w.countCall)

/-- A bound on the steps that a thread makes alone till it makes the call that it owes. -/
def Thread.lag : Thread H → Nat
  | .arms [] :: _ => 2
  | .calls _ :: _ => 1
  | _ => 0

theorem Thread.lag_le (t : Thread H) : t.lag ≤ 2 := by
  unfold lag
  split <;> decide

theorem Frame.Like.calling? {f f' : Frame H} (h : f.Like f') (t t' : Thread H) :
    Thread.calling? (f' :: t') = Thread.calling? (f :: t) := by
  cases h with
  | calls cs => cases cs <;> rfl
  | _ => rfl

theorem Thread.Like.calling? (h : t.Like t') : t'.calling? = t.calling? := by
  cases h with
  | nil => rfl
  | cons hf _ => exact hf.calling? _ _

theorem Thread.Like.isChain (h : t.Like t') (ht : t.IsChain) : t'.IsChain := by
  obtain _ | ⟨hf, hk⟩ := h
  · exact ht
  · obtain _ | ⟨hf', hk'⟩ := hk
    · cases hf <;> exact ht
    · cases hf <;> cases hf' <;> exact ht

theorem Task.Fits.like {x : Task H} (hx : x.Fits (fun _ => False) [] t) (ht : t.Like t') :
    x.Fits (fun _ => False) [] t' := by
  have hchain := ht.isChain hx.chain
  refine ⟨hchain, ?_⟩
  rintro rfl
  exact hchain

theorem Boundary.Fits.like {b b' : Boundary H} (hb : b.Fits (fun _ => False) [] t) (h : b.Like b')
    (ht : t.Like t') : b'.Fits (fun _ => False) [] t' := by
  cases h with
  | body => exact trivial
  | refl b =>
    cases b with
    | task label x replies => exact Task.Fits.like hb ht
    | outside => exact hb
    | _ => exact trivial

theorem Thread.Whole.like (ht : t.Whole) (h : t.Like t') : t'.Whole := by
  induction ht generalizing t' with
  | base =>
    cases h
    exact .base
  | calls cs hb _ ih =>
    obtain _ | ⟨hcalls, _ | ⟨hboundary, h⟩⟩ := h
    cases hcalls
    cases hboundary with
    | boundary hlike => exact .calls cs (hb.like hlike h) (ih h)
  | boundary hb _ ih =>
    obtain _ | ⟨hf, h⟩ := h
    cases hf with
    | boundary hlike => exact .boundary (hb.like hlike h) (ih h)
  | arms as _ ih =>
    obtain _ | ⟨hf, h⟩ := h
    cases hf
    exact .arms _ (ih h)
  | loop l _ ih =>
    obtain _ | ⟨hf, h⟩ := h
    cases hf
    exact .loop l (ih h)
  | check token l _ ih =>
    obtain _ | ⟨hf, h⟩ := h
    cases hf
    exact .check token l (ih h)
  | task replies hx _ ih =>
    obtain _ | ⟨hf, h⟩ := h
    cases hf
    exact .task replies (hx.like h) (ih h)

theorem Alike.mono {α β : Type} {R R' : α → β → Prop} {o : Option (α × World H)}
    {o' : Option (β × World H)} (h : Alike R o o') (hR : ∀ a b, R a b → R' a b) :
    Alike R' o o' := by
  cases h with
  | none => exact .none
  | some ha hw => exact .some (hR _ _ ha) hw

theorem Advance.Like.twin (h : a.Like a') : Advance.Owes (Thread.Twin c bs) 0 a a' := by
  cases h with
  | on ht => exact .on (.plain ht)
  | pause token ht => exact .pause token (.plain ht)
  | escaped e => exact .escaped e rfl

/-- Whole parts of two threads do the same, whatever is behind them. -/
theorem Thread.Whole.advance_alike {K K' : Thread H} (hem : em.Blind) (ht : t.Whole)
    (hne : t ≠ []) (h : t.Like t') (hw : w.Like w')
    (hK : ∀ (polled : Bool) (u u' : Thread H), u.Whole → u.Like u' → (u = [] → polled) →
      Thread.Twin c bs polled n (u ++ K) (u' ++ K')) :
    Alike (Advance.Owes (Thread.Twin c bs) n) (SnapBlocks.advance library em (t ++ K) w)
      (SnapBlocks.advance library em (t' ++ K') w') := by
  have hne' : t' ≠ [] := by
    rintro rfl
    cases h
    exact hne rfl
  rw [ht.advance_append hne, (ht.like h).advance_append hne']
  have halike : Alike Advance.Like (SnapBlocks.advance library em t w)
      (SnapBlocks.advance library em t' w') := SnapBlocks.advance_alike hem h hw
  have hstays (a : Advance H) (x : World H) (ha : SnapBlocks.advance library em t w = some (a, x)) :
      ∃ u : Thread H, u.Whole ∧ (a = .on u ∨ ∃ token, u ≠ [] ∧ a = .pause token u) :=
    (ht.advance hne ha).resolve_right ht.not_failsLast
  generalize SnapBlocks.advance library em t w = o, SnapBlocks.advance library em t' w' = o'
    at halike hstays
  cases halike with
  | none => exact .none
  | some ha hx =>
    obtain ⟨u, hu, rfl | ⟨token, hnil, rfl⟩⟩ := hstays _ _ rfl
    · cases ha with
      | on hlike => exact .some (.on (hK _ _ _ hu hlike fun _ => rfl)) hx
    · cases ha with
      | pause _ hlike =>
        exact .some (.pause token (hK _ _ _ hu hlike fun he => absurd he hnil)) hx

/-- A thread that owes a call goes on alone towards it while it is being polled, and what it does
then is nothing but the call; or two threads make the same step. -/
theorem Thread.Twin.advance {polled : Bool} (hem : em.Blind) (hc : c.LeavesArms library bs)
    (ht : Thread.Twin c bs polled n t t') (hw : w.Like w') :
    (polled ∧ ∃ u x i m, SnapBlocks.advance library em t' w' = some (.on u, x) ∧ w.Like x ∧
      Thread.Twin c bs true i t u ∧ Inserted c m [] t'.calling?.toList ∧ m + i = n ∧
        3 * i + u.lag < 3 * n + t'.lag) ∨
    t'.calling? = t.calling? ∧ Alike (Advance.Owes (Thread.Twin c bs) n)
      (SnapBlocks.advance library em t w) (SnapBlocks.advance library em t' w') := by
  cases ht with
  | plain h => exact .inr ⟨h.calling?, (advance_alike hem h hw).mono fun _ _ ha => ha.twin⟩
  | @due k k' cs hk =>
    obtain ⟨bs', hbs, heffect⟩ := hc
    refine .inl ⟨rfl, .arms bs' :: .calls cs :: k', w'.countCall, 0, 1, ?_, ?_, ?_, .insert .nil, rfl,
      ?_⟩
    · simp only [SnapBlocks.advance, heffect]
      rfl
    · exact ⟨hw.shared, hw.subscribers, hw.queue, hw.signal, hw.failures⟩
    · exact .plain (.cons (.arms hbs) (.cons (.calls cs) hk))
    · have hlag := Thread.lag_le (.arms bs' :: .calls cs :: k')
      change _ < 3 * 1 + 1
      omega
  | @ahead _ u u' k k' as as' cs hwhole hu hpolled has hk =>
    cases hu with
    | @cons f f' u u' hf hu =>
      exact .inr ⟨hf.calling? _ _, hwhole.advance_alike hem (List.cons_ne_nil f u) (.cons hf hu)
        hw fun _ _ _ hwhole hlike hnil => .ahead hwhole hlike hnil has hk⟩
    | nil =>
      cases has with
      | nil =>
        exact .inl ⟨hpolled rfl, _, w', 1, 0, rfl, hw, .due hk, .nil, rfl, Nat.lt_succ_self _⟩
      | @cons a a' as as' ha has =>
        refine .inr ⟨rfl, ?_⟩
        simp only [List.nil_append, List.cons_append, SnapBlocks.advance, hw.shared,
          ha.condition.holds_eq]
        split
        · have hbody : (a.body.frames : Thread H) ≠ [] := List.cons_ne_nil _ _
          exact .some (.on (.ahead (.body a.body .base) (.body _ _ ha.chain)
            (fun h => absurd h hbody) has hk)) hw
        · exact .some (.on (.ahead .base .nil (fun _ => rfl) has hk)) hw

theorem Thread.lawful_twin : Debt.Lawful (Thread.Twin (H := H) c bs) where
  awakes h := by
    generalize hp : false = polled at h
    cases h with
    | plain h => exact .plain h
    | ahead hwhole hu _ has hk => exact .ahead hwhole hu (fun _ => rfl) has hk
    | due => cases hp
  refl _ t := .plain (.refl t)
  ended {_ n t'} h := by
    generalize ht : ([] : Thread H) = t at h
    cases h with
    | plain h =>
      subst ht
      cases h
      exact ⟨rfl, rfl⟩
    | ahead => simp at ht
    | due => cases ht
  goesOn h ht := by
    cases h with
    | plain h =>
      rintro rfl
      cases h
      exact ht rfl
    | ahead => simp
    | due => exact List.cons_ne_nil _ _

/-! ## Machines that owe a call -/

namespace Machine

variable {m m' x y : Machine H} {s : Setting H} {trace : List (Machine H)} {rest rest' : List (Job H)}

/-- Machines that do the same, but the second one owes `n` calls. -/
abbrev Twin (c : Call) (bs : List Arm) (n : Nat) (m m' : Machine H) : Prop :=
  m.Owes (Thread.Twin c bs) n m'

theorem isDone_of_resume (hready : m.ready = .resume t :: rest) : m.isDone = false := by
  unfold isDone
  rw [hready]
  rfl

/-- A bound on the steps that a machine makes alone till it makes the call that it owes. -/
def lag (m : Machine H) : Nat :=
  match m.ready with
  | .resume t :: _ => t.lag
  | _ => 0

/-- The second machine makes a step alone towards the call that it owes, and calls nothing else. -/
def Trails (s : Setting H) (em : Emitter H) (c : Call) (bs : List Arm) (n : Nat)
    (m m' : Machine H) : Prop :=
  ∃ x i j, m'.isDone = false ∧ m'.step s em = some x ∧ Twin c bs i m x ∧
    Inserted c j [] m'.calling?.toList ∧ j + i = n ∧ 3 * i + x.lag < 3 * n + m'.lag

/-- Two machines make the same step. -/
def InStep (s : Setting H) (em : Emitter H) (c : Call) (bs : List Arm) (n : Nat)
    (m m' : Machine H) : Prop :=
  m'.calling? = m.calling? ∧ Option.Rel (Twin c bs n) (m.step s em) (m'.step s em)

namespace Twin

/-- **Machines of which one owes calls** make the same step, or that one goes on alone towards them.
-/
theorem step (hem : em.Blind) (hc : c.LeavesArms s.library bs) (h : Twin c bs n m m') :
    Trails s em c bs n m m' ∨ InStep s em c bs n m m' := by
  obtain ⟨i, j, rfl, hready, hpaused⟩ := h.jobs
  generalize hr : m.ready = r, hr' : m'.ready = r' at hready
  cases hready with
  | nil =>
    refine .inr ⟨?_, h.step_of_nil Thread.lawful_twin hem hr hr'⟩
    unfold calling?
    rw [hr, hr']
  | @cons i n _ _ rest rest' hfront hrest =>
    cases hfront with
    | start b =>
      refine .inr ⟨?_, ?_⟩
      · unfold calling?
        rw [hr, hr']
      · unfold Machine.step
        rw [hr, hr']
        exact .some ⟨h.world, h.plan, rfl, h.clock, h.deadline, h.result, 0 + n, j, rfl,
          .cons (.resume (.plain (.refl _))) hrest, hpaused⟩
    | @resume _ t t' ht =>
      rcases ht.advance hem hc h.world with
        ⟨hpolled, u, x, i', k, ha, hx, hu, hinserted, rfl, hlag⟩ | ⟨hcalling, ha⟩
      · have hne : t ≠ [] := by
          rintro rfl
          obtain ⟨hzero, rfl⟩ := Thread.lawful_twin.ended ht
          rw [hzero] at hlag
          exact absurd hlag (Nat.not_lt_zero _)
        refine .inl ⟨{ m' with world := x, ready := .resume u :: rest', polling := true },
          i' + (n + j), k, ?_, ?_, ?_, ?_, ?_, ?_⟩
        · exact isDone_of_resume hr'
        · rw [step_of_advance hr' ha, settle_on (Thread.lawful_twin.goesOn hu hne)]
        · refine ⟨hx, h.plan, hpolled.symm, h.clock, h.deadline, h.result, i' + n, j,
            Nat.add_assoc .., ?_, hpaused⟩
          rw [hr, hpolled]
          exact .cons (.resume hu) hrest
        · rwa [calling?_resume hr']
        · omega
        · unfold lag
          rw [hr']
          dsimp only
          omega
      · refine .inr ⟨?_, ?_⟩
        · rw [calling?_resume hr, calling?_resume hr', hcalling]
        · have hbase {w w' : World H} (hw : w.Like w') : Twin c bs (n + j)
              { m with world := w, ready := rest, polling := false }
              { m' with world := w', ready := rest', polling := false } :=
            ⟨hw, h.plan, rfl, h.clock, h.deadline, h.result, n, j, rfl,
              .of_tally Thread.lawful_twin.awakes hrest, hpaused⟩
          unfold Machine.step
          rw [hr, hr', Nat.add_assoc]
          dsimp only
          generalize SnapBlocks.advance s.library em t m.world = o,
            SnapBlocks.advance s.library em t' m'.world = o' at ha
          cases ha with
          | none => exact .none
          | some hadvance hw => exact .some (Owes.settle Thread.lawful_twin hadvance (hbase hw))

/-! ### Runs -/

/-- The second machine goes on alone until both make the same step. -/
theorem catchUp (hc : c.LeavesArms s.library bs) (h : Twin c bs n m m') :
    ∃ made x i j, Path s depth m' made x ∧ Twin c bs i m x ∧
      InStep s (World.emit depth) c bs i m x ∧ Inserted c j [] (made.filterMap calling?) ∧
        j + i = n := by
  induction hr : 3 * n + m'.lag using Nat.strongRecOn generalizing n m' with
  | ind r ih =>
    rcases step (World.emit_blind depth) hc h with
      ⟨x, i, j, hmore, hstep, hx, hinserted, rfl, hlag⟩ | hin
    · obtain ⟨made, y, i', j', hp, hy, hin, hinserted', rfl⟩ := ih _ (hr ▸ hlag) hx rfl
      refine ⟨m' :: made, y, i', j + j', .cons .refl hmore hstep hp, hy, hin, ?_, Nat.add_assoc ..⟩
      simp only [List.filterMap_eq_flatMap_toList, List.flatMap_cons] at hinserted' ⊢
      exact hinserted.append hinserted'
    · exact ⟨[], m', n, 0, .nil, h, hin, .nil, Nat.zero_add n⟩

end Twin

/-- What happens in front of a run happens in front of its first step, or at its end. -/
theorem Path.after (hx : m.Shifts x) (hp : Path s depth x trace y) {last : Machine H}
    (hy : y.Shifts last) : ∃ z, Path s depth m trace z ∧ z.Shifts last := by
  cases hp with
  | nil => exact ⟨m, .nil, hx.trans hy⟩
  | cons hshifts hmore hstep hp => exact ⟨y, .cons (hx.trans hshifts) hmore hstep hp, hy⟩

namespace Twin

/-- What the first machine comes to, the second one comes to. -/
theorem forth (hc : c.LeavesArms s.library bs) (h : Twin c bs n m m')
    (hp : Path s depth m trace y) (hx : y.Shifts x) : ∃ trace' y' x' i j,
      Path s depth m' trace' y' ∧ y'.Shifts x' ∧ Twin c bs i x x' ∧
        Inserted c j (trace.filterMap calling?) (trace'.filterMap calling?) ∧ j + i = n := by
  induction hp generalizing n m' with
  | nil =>
    obtain ⟨x', hx', htwin⟩ := h.shifts Thread.lawful_twin.awakes hx
    exact ⟨[], m', x', n, 0, .nil, hx', htwin, .nil, Nat.zero_add n⟩
  | @cons m z m₁ y trace hz hmore hstep _ ih =>
    obtain ⟨z', hz', htwin⟩ := h.shifts Thread.lawful_twin.awakes hz
    obtain ⟨made, v, i, j, hmade, hv, ⟨hcalling, hrel⟩, hinserted, rfl⟩ := catchUp hc htwin
    have hmore' : v.isDone = false := hv.isDone_eq.trans hmore
    rw [hstep] at hrel
    generalize hstep' : v.step s (World.emit depth) = o at hrel
    cases hrel with
    | @some _ v₁ hv₁ =>
      obtain ⟨trace', y', x', i', j', hp', hx', htwin', hinserted', rfl⟩ := ih hv₁ hx
      obtain ⟨last, hlast, hx'⟩ :=
        Path.after hz' (hmade.append (.cons .refl hmore' hstep' hp')) hx'
      refine ⟨made ++ v :: trace', last, x', i', j + j', hlast, hx', htwin', ?_, Nat.add_assoc ..⟩
      simp only [List.filterMap_eq_flatMap_toList, List.flatMap_append, List.flatMap_cons, hcalling]
        at hinserted hinserted' ⊢
      have hlater := (Inserted.refl c z.calling?.toList).append hinserted'
      rw [Nat.zero_add] at hlater
      exact hinserted.append hlater

/-- What the second machine comes to, the first one comes to. -/
theorem back (hc : c.LeavesArms s.library bs) (h : Twin c bs n m m')
    (hp : Path s depth m' trace y) (hx : y.Shifts x) : ∃ trace₁ y₁ x₁ i j,
      Path s depth m trace₁ y₁ ∧ y₁.Shifts x₁ ∧ Twin c bs i x₁ x ∧
        Inserted c j (trace₁.filterMap calling?) (trace.filterMap calling?) ∧ j + i = n := by
  induction hp generalizing n m with
  | nil =>
    obtain ⟨x₁, hx₁, htwin⟩ := h.shifts_back Thread.lawful_twin.awakes hx
    exact ⟨[], m, x₁, n, 0, .nil, hx₁, htwin, .nil, Nat.zero_add n⟩
  | @cons m' z' m₁' y trace hz hmore hstep _ ih =>
    obtain ⟨z, hz₁, htwin⟩ := h.shifts_back Thread.lawful_twin.awakes hz
    rcases step (World.emit_blind depth) hc htwin with
      ⟨v, i, j, _, hstep', hv, hinserted, rfl, _⟩ | ⟨hcalling, hrel⟩
    · cases hstep.symm.trans hstep'
      obtain ⟨trace₁, y₁, x₁, i', j', hp₁, hx₁, htwin', hinserted', rfl⟩ := ih hv hx
      obtain ⟨last, hlast, hx₁⟩ := Path.after hz₁ hp₁ hx₁
      refine ⟨trace₁, last, x₁, i', j + j', hlast, hx₁, htwin', ?_, Nat.add_assoc ..⟩
      simp only [List.filterMap_eq_flatMap_toList, List.flatMap_cons] at hinserted' ⊢
      exact hinserted.append hinserted'
    · rw [hstep] at hrel
      generalize hstep₁ : z.step s (World.emit depth) = o at hrel
      cases hrel with
      | @some m₁ _ hm₁ =>
        obtain ⟨trace₁, y₁, x₁, i', j', hp₁, hx₁, htwin', hinserted', rfl⟩ := ih hm₁ hx
        refine ⟨z :: trace₁, y₁, x₁, i', j', .cons hz₁ (htwin.isDone_eq.symm.trans hmore) hstep₁ hp₁,
          hx₁, htwin', ?_, rfl⟩
        simp only [List.filterMap_eq_flatMap_toList, List.flatMap_cons, hcalling] at hinserted' ⊢
        have hlater := (Inserted.refl c z.calling?.toList).append hinserted'
        rwa [Nat.zero_add] at hlater

end Twin

end Machine

end SnapBlocks

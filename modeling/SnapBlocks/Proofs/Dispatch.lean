import SnapBlocks.Proofs.Delivery

/-! Queued bodies are started once each and in order. A body that starts leaves the front of those
that wait, and the emissions of a step put theirs behind them; so at every moment of a run, the
bodies that were started and those that wait are those that were queued. While entry chains run
no queued body is let in, so none starts before programs are started. While bodies run, none is
forgotten: as long as some are queued, the run goes on, and the loop that drives it is told. -/

namespace SnapBlocks

variable {H : Type} {w w' : World H} {em : Emitter H} {t : Thread H} {a : Advance H} {depth : Nat}

open Delivery

/-- What the emissions of the next step of a thread deliver. -/
def Thread.deliveries (library : Library H) (em : Emitter H) (tr : Tracer H) (t : Thread H)
    (w : World H) : List Delivery :=
  match t with
  | .calls (c :: _) :: _ => c.deliveries library em tr w
  | .task x replies :: _ =>
    match x replies with
    | .react r => r.deliveries em tr w
    | _ => []
  | _ => []

theorem Loop.delivers_leave (l : Loop) (w : World H) : w.Delivers [] (l.leave w) := by
  unfold leave
  split
  · exact World.delivers_of_eq rfl rfl
  · exact World.delivers_of_eq rfl rfl

/-- A step of a thread queues the bodies that its emissions deliver. -/
theorem advance_delivers {tr : Tracer H} (hem : em.Traced tr) {library : Library H}
    (h : advance library em t w = some (a, w')) :
    w.Delivers (t.deliveries library em tr w) w' := by
  -- a step that emits nothing delivers nothing
  have hquiet {u : World H} (hq : u.queue = w.queue) (hs : u.signal = w.signal) :
      w.Delivers [] u := World.delivers_of_eq hq hs
  have hcall {c : Call} {r : Except RunError (Work H)} {u : World H}
      (hrun : (c.effect library em).run w = some (r, u)) :
      w.Delivers (c.deliveries library em tr w) u := by
    have hserved := (c.effect_served hem library w _ _ hrun).toDelivers
    split at hserved
    · exact ⟨hserved.queue, hserved.exact, hserved.alert⟩
    · exact hserved
  cases advances_of_advance h with
  | called hrun => exact hcall hrun
  | @failed _ _ e u _ _ hfails hfail =>
    have hnoted : u.Delivers [] w' := by
      rcases fail_world hfail with rfl | ⟨_, rfl⟩
      · exact World.delivers_of_eq rfl rfl
      · exact World.delivers_of_eq rfl rfl
    cases hfails with
    | call hrun =>
      have hall := (hcall hrun).trans hnoted
      rwa [List.append_nil] at hall
    | task hnext =>
      simp only [Thread.deliveries, hnext]
      exact hnoted
  | @leaves l => exact l.delivers_leave w
  | @ends _ l => exact l.delivers_leave w
  | ended | calls | boundary | arms | enters | passes | pauses | repeats => exact hquiet rfl rfl
  | reacts hnext hrun =>
    simp only [Thread.deliveries, hnext]
    exact (Reaction.run_served hem _ hrun).toDelivers
  | finishes hnext | waits hnext | invokes hnext =>
    simp only [Thread.deliveries, hnext]
    exact hquiet rfl rfl

namespace Machine

variable {m m' : Machine H} {s : Setting H} {trace before later : List (Machine H)}

/-- What the emissions of the next step of a machine deliver. -/
def deliveries (s : Setting H) (depth : Nat) (m : Machine H) : List Delivery :=
  match m.ready with
  | .resume t :: _ => t.deliveries s.library (World.emit depth) (World.delivery depth) m.world
  | _ => if m.isStarting then [World.delivery depth startEvent [] m.world] else []

/-! ## Steps -/

theorem isStarting_iff : m.isStarting = true ↔ m.ready = [] ∧ m.paused = [] ∧
    m.plan = .register [] := by
  unfold isStarting
  simp only [Bool.and_eq_true, List.isEmpty_iff, and_assoc, and_congr_right_iff]
  intro _ _
  rcases m.plan with _ | (_ | _) | _ <;> simp

theorem starting?_eq_none (h : m.enlisted = []) : m.starting? = none := by
  unfold starting?
  split
  next hready =>
    unfold enlisted at h
    rw [hready] at h
    cases h
  · rfl

/-- A step starts the first one of the bodies that wait, or none, and puts those that its emissions
deliver behind them. -/
theorem Move.delivers (h : Move s (World.emit depth) m m') :
    m.starting?.toList ++ m'.waiting = m.waiting ++ bodiesAll (m.deliveries s depth) ∧
      ∀ d ∈ m.deliveries s depth, d.Exact := by
  have hem := World.emit_traced (H := H) depth
  have hquiet {l : List Body} (hstart : m.starting? = none) (hds : m.deliveries s depth = [])
      (hl : l = m.waiting) : m.starting?.toList ++ l =
        m.waiting ++ bodiesAll (m.deliveries s depth) ∧ ∀ d ∈ m.deliveries s depth, d.Exact := by
    rw [hstart, hds, hl]
    exact ⟨(List.append_nil _).symm, nofun⟩
  cases h with
  | @start b rest hready hm' =>
    have hds : m.deliveries s depth = [] := by
      unfold deliveries isStarting
      rw [hready]
      rfl
    unfold starting?
    rw [hds, hm']
    unfold waiting enlisted
    rw [hready]
    exact ⟨(List.append_nil _).symm, nofun⟩
  | @advance t rest a w hready ha hm' =>
    have hds : m.deliveries s depth =
        t.deliveries s.library (World.emit depth) (World.delivery depth) m.world := by
      unfold deliveries
      rw [hready]
    have hstart : m.starting? = none := by
      unfold starting?
      rw [hready]
    have hwaiting : m.waiting = rest.filterMap Job.body? ++ m.world.queue := by
      unfold waiting enlisted
      rw [hready]
      rfl
    have htaken : (m.taken rest a w).waiting = rest.filterMap Job.body? ++ w.queue :=
      congrArg (· ++ w.queue) (enlisted_taken m rest a w)
    obtain ⟨hqueue, hexact⟩ := advance_delivers hem ha
    rw [hstart, hds, hm', (rearranges_settle m s rest a w).waiting, htaken, hwaiting, hqueue,
      List.append_assoc]
    exact ⟨rfl, fun _ hd => hexact hd⟩
  | enter hready hpaused hplan hm' =>
    have hds : m.deliveries s depth = [] := by
      unfold deliveries isStarting
      rw [hready, hplan, hpaused]
      rfl
    refine hquiet (starting?_eq_none (congrArg _ hready)) hds ?_
    unfold waiting enlisted
    rw [hm', hready]
    rfl
  | @begin n w hready hpaused hplan he hm' =>
    have hds : m.deliveries s depth = [World.delivery depth startEvent [] m.world] := by
      unfold deliveries
      rw [hready]
      exact if_pos (isStarting_iff.mpr ⟨hready, hpaused, hplan⟩)
    have hserved := hem.served he
    rw [hds, hm', (rearranges_enlist _).waiting]
    refine ⟨?_, fun d hd => hserved.exact hd⟩
    unfold starting? waiting enlisted
    rw [hready]
    exact hserved.queue
  | rearrange hready hplan hm' =>
    have hds : m.deliveries s depth = [] := by
      unfold deliveries
      rw [hready]
      refine if_neg fun h => ?_
      obtain ⟨_, hpaused, hregister⟩ := isStarting_iff.mp h
      exact hplan hpaused _ hregister
    exact hquiet (starting?_eq_none (congrArg _ hready)) hds hm'.waiting

/-- Entry chains are run, and no body has started yet. -/
def Registering (m : Machine H) : Prop := (∃ entries, m.plan = .register entries) ∧ m.enlisted = []

/-- Bodies start only when programs have been started. -/
theorem Move.begins (h : Move s em m m') (hm : m.Registering) :
    m.isStarting ∧ m'.plan = .drive ∨ m'.Registering := by
  obtain ⟨⟨entries, hplan⟩, henlisted⟩ := hm
  have hdrive : m.plan ≠ .drive := by
    rw [hplan]
    exact nofun
  cases h with
  | start hready =>
    unfold enlisted at henlisted
    rw [hready] at henlisted
    cases henlisted
  | @advance t rest a w hready _ hm' =>
    have hsettle := rearranges_settle m s rest a w
    refine .inr ⟨⟨entries, ?_⟩, ?_⟩
    · rw [hm', hsettle.plan]
      exact hplan
    · rw [hm', hsettle.enlisted hdrive, enlisted_taken]
      unfold enlisted at henlisted
      rw [hready] at henlisted
      exact henlisted
  | enter _ _ _ hm' =>
    rw [hm']
    exact .inr ⟨⟨_, rfl⟩, rfl⟩
  | begin hready hpaused hplan _ hm' =>
    refine .inl ⟨isStarting_iff.mpr ⟨hready, hpaused, hplan⟩, ?_⟩
    rw [hm', (rearranges_enlist _).plan]
  | rearrange _ _ hm' =>
    exact .inr ⟨⟨entries, hm'.plan.trans hplan⟩, (hm'.enlisted hdrive).trans henlisted⟩

theorem Registering.rearranges (hm : m.Registering) (h : m.Rearranges m') : m'.Registering := by
  obtain ⟨⟨entries, hplan⟩, henlisted⟩ := hm
  refine ⟨⟨entries, h.plan.trans hplan⟩, (h.enlisted ?_).trans henlisted⟩
  rw [hplan]
  exact nofun

theorem Move.plan_drive (h : Move s em m m') (hm : m.plan = .drive) : m'.plan = .drive := by
  cases h with
  | start _ hm' => rw [hm']; exact hm
  | @advance _ rest a w _ _ hm' => rw [hm', (rearranges_settle m s rest a w).plan]; exact hm
  | enter _ _ hplan => cases hm.symm.trans hplan
  | begin _ _ hplan => cases hm.symm.trans hplan
  | rearrange _ _ hm' => exact hm'.plan.trans hm

/-- A machine that runs a program begins with the entry chains and goes on to the bodies. No queued
body is forgotten. -/
structure Driving (m : Machine H) : Prop where
  stage : m.plan = .drive ∨ m.Registering
  alert : m.Alert

theorem Driving.rearranges (hm : m.Driving) (h : m.Rearranges m') : m'.Driving where
  stage := hm.stage.imp h.plan.trans fun hr => hr.rearranges h
  alert := h.alert hm.alert

/-- A machine in which something is left to run is not done. -/
theorem alert_of_busy (hbusy : m.ready ≠ [] ∨ m.paused ≠ []) (hw : m.world.Alert) : m.Alert := by
  refine fun _ hqueue => ⟨Bool.eq_false_iff.mpr fun hdone => ?_, hw hqueue⟩
  obtain ⟨hready, hpaused, _⟩ := isDone_iff.mp hdone
  exact hbusy.elim (· hready) (· hpaused)

theorem alert_pause (token : Option Token) (t : Thread H) (hw : m.world.Alert) :
    (m.pause s token t).Alert := by
  unfold pause
  split
  · exact alert_of_busy (.inr (List.append_ne_nil_of_right_ne_nil _ (List.cons_ne_nil _ _))) hw
  · exact alert_of_busy (.inr (List.cons_ne_nil _ _)) hw

/-- When a thread ends, the bodies that were queued are taken in; else it is left to run. -/
theorem alert_settle (rest : List (Job H)) (hw : w.Alert) : (m.settle s rest (a, w)).Alert := by
  cases a with
  | on t =>
    cases t with
    | nil => exact alert_enlist _
    | cons f t => exact alert_of_busy (.inl (List.cons_ne_nil _ _)) hw
  | pause token t => exact alert_pause token t hw
  | escaped e => exact alert_enlist _

theorem Alert.move (hm : m.Alert) (h : Move s (World.emit depth) m m') : m'.Alert := by
  cases h with
  | start hready hm' =>
    rw [hm']
    refine fun hplan hqueue => ⟨Bool.eq_false_iff.mpr fun hdone => ?_, (hm hplan hqueue).2⟩
    exact List.cons_ne_nil _ _ (isDone_iff.mp hdone).1
  | @advance t rest a w hready ha hm' =>
    rw [hm']
    by_cases hplan : m.plan = .drive
    · refine alert_settle rest ((advance_delivers (World.emit_traced depth) ha).alert ?_)
      exact fun hqueue => (hm hplan hqueue).2
    · refine fun hdrive => absurd hdrive ?_
      rwa [(rearranges_settle m s rest a w).plan]
  | enter _ _ _ hm' =>
    rw [hm']
    exact nofun
  | begin _ _ _ _ hm' =>
    rw [hm']
    exact alert_enlist _
  | rearrange _ _ hm' => exact hm'.alert hm

theorem Driving.move (hm : m.Driving) (h : Move s (World.emit depth) m m') : m'.Driving where
  stage := by
    rcases hm.stage with hplan | hregistering
    · exact .inl (h.plan_drive hplan)
    · exact (h.begins hregistering).imp_left And.right
  alert := hm.alert.move h

/-! ## Runs -/

/-- **Queues of a run.** The bodies that a run starts, and those that wait at its end, are those that
waited at its beginning and those that its emissions delivered. -/
theorem Path.delivers (hp : Path s depth m trace m') :
    trace.filterMap starting? ++ m'.waiting =
      m.waiting ++ bodiesAll (trace.flatMap (deliveries s depth)) ∧
        ∀ x ∈ trace, ∀ d ∈ x.deliveries s depth, d.Exact := by
  induction hp with
  | nil => exact ⟨(List.append_nil _).symm, List.forall_mem_nil _⟩
  | @cons m x m' m'' trace hshifts _ hstep _ ih =>
    obtain ⟨hmove, hexact⟩ := (move_of_step hstep).delivers
    obtain ⟨hrun, hexacts⟩ := ih
    rw [List.filterMap_eq_flatMap_toList] at hrun ⊢
    refine ⟨?_, fun y hy => ?_⟩
    · rw [List.flatMap_cons, List.flatMap_cons, bodiesAll_append, List.append_assoc, hrun,
        ← List.append_assoc, hmove, hshifts.rearranges.waiting, List.append_assoc]
    · rcases List.mem_cons.mp hy with rfl | hy
      · exact hexact
      · exact hexacts y hy

/-- A run that goes on to its bodies starts programs at some moment, and no body before. -/
theorem Path.begins (hp : Path s depth m trace m') (hm : m.Registering)
    (hm' : m'.plan = .drive) : ∃ before x later, trace = before ++ x :: later ∧ x.isStarting ∧
      ∀ y ∈ before, y.starting? = none := by
  induction hp with
  | nil =>
    obtain ⟨⟨entries, hplan⟩, _⟩ := hm
    cases hm'.symm.trans hplan
  | @cons m x m' m'' trace hshifts _ hstep _ ih =>
    have hx := hm.rearranges hshifts.rearranges
    rcases (move_of_step hstep).begins hx with ⟨hstarting, _⟩ | hregistering
    · exact ⟨[], x, trace, rfl, hstarting, List.forall_mem_nil _⟩
    · obtain ⟨before, y, later, htrace, hstarting, hnone⟩ := ih hregistering hm'
      refine ⟨x :: before, y, later, congrArg _ htrace, hstarting, fun z hz => ?_⟩
      rcases List.mem_cons.mp hz with rfl | hz
      · exact starting?_eq_none hx.2
      · exact hnone z hz

end Machine

namespace Session

variable {s after : Session H} {fuel : Nat} {p : Program} {limit : Option Nat} {r : Summary}
variable {trace : List (Machine H)} {last : Machine H}

end Session

end SnapBlocks

import SnapBlocks.Proofs.Stopping

/-! Messages after a stop. Loops end when a program is stopped, but messages are still delivered and
the bodies that hear them are still run. A stopped program that uses the standard functions does not
go on for ever, under any schedule, just if bodies are not delivered again and again; so it is when
the calls that it makes do not bring about each other for ever. Without that it may run on, and
`Session.execute_echo` is a program that does. -/

namespace SnapBlocks

open Delivery Relation

variable {H : Type} {depth depth' n : Nat}

/-! ## Hosts without functions -/

/-- Terms by which the host has no functions of its own. Its handlers may do anything. -/
def Terms.listening : Terms H where
  changes _ _ := True
  calls _ := True
  tasks _ := False
  handlers _ := True

theorem Terms.lasting_listening : (listening : Terms H).Lasting where
  refl _ := trivial
  trans _ _ := trivial
  trip _ _ := trivial

mutual
theorem Subscriber.respects_listening : ∀ who : Subscriber H, who.Respects .listening
  | .own .stop => .own trivial
  | .own (.start _) => .own fun _ _ => trivial
  | .handler respond => .handler trivial fun args => (respond args).respects_listening

theorem Reaction.respects_listening : ∀ r : Reaction H, r.Respects .listening
  | .finish result => .finish result
  | .look rest => .look fun s => (rest s).respects_listening
  | .change _ rest => .change (fun _ => trivial) rest.respects_listening
  | .subscribe _ who rest => .subscribe who.respects_listening rest.respects_listening
  | .emit _ _ rest => .emit fun n => (rest n).respects_listening
end

namespace Machine

variable {m m' x y : Machine H} {s : Setting H} {trace : List (Machine H)} {c : Call}

/-! ## What is delivered -/

/-- If no function of the host goes on, a step that makes no call and does not start programs delivers
nothing. -/
theorem Bare.incoming_eq_nil (hbare : m.Bare) (hcalling : m.calling? = none)
    (hstarting : m.isStarting = false) : m.incoming s depth = [] := by
  have hdeliveries : m.deliveries s depth = [] := by
    unfold deliveries
    split
    next t rest hready =>
      rw [calling?_resume hready] at hcalling
      unfold Thread.deliveries
      split
      · cases hcalling
      next x replies k => exact absurd rfl (hbare _ (mem_threads_of_ready hready) x replies k)
      · rfl
    · rw [hstarting]
      rfl
  unfold incoming
  rw [hdeliveries]
  cases m.plan <;> rfl

/-- A machine comes to another one with a step that delivers a body. -/
def Feeds (s : Setting H) (later earlier : Machine H) : Prop :=
  ∃ m x depth, Comes s earlier m ∧ m.Shifts x ∧ x.isDone = false ∧
    x.step s (World.emit depth) = some later ∧ x.incoming s depth ≠ []

theorem Feeds.transGen (h : Feeds s y x) :
    TransGen (fun later earlier => Leads s earlier later) y x := by
  obtain ⟨m, z, depth, hcomes, hshifts, hmore, hstep, _⟩ := h
  exact .head' ⟨z, hshifts, hmore, depth, hstep⟩ hcomes.swap

/-! ## Programs that stay stopped -/

/-- The program is stopped and stays so, and no function of the host goes on. -/
def Stays (s : Setting H) (m : Machine H) : Prop := ∀ x, Comes s m x → x.isStopped ∧ x.Bare

theorem Stays.comes (h : m.Stays s) (hm : Comes s m m') : m'.Stays s := fun x hx => h x (hm.trans hx)

theorem Stays.shifts (h : m.Stays s) (hm : Comes s m m') (hx : m'.Shifts x) :
    x.isStopped ∧ x.Bare := by
  obtain ⟨hstop, hbare⟩ := h m' hm
  exact ⟨hx.isStopped hstop, fun t ht => hbare t (hx.rearranges.threads.mem_iff.mp ht)⟩

theorem Stays.path (h : m.Stays s) (hp : Path s depth m trace m') :
    ∀ x ∈ trace, x.isStopped ∧ x.Bare := by
  induction hp with
  | nil => exact List.forall_mem_nil _
  | cons hshifts hmore hstep _ ih =>
    refine List.forall_mem_cons.mpr ⟨h.shifts .refl hshifts, ih (h.comes (.single ?_))⟩
    exact ⟨_, hshifts, hmore, _, hstep⟩

theorem Rearranges.cost (h : x.Rearranges y) : y.cost = x.cost := by
  unfold Machine.cost
  rw [h.total_eq, h.plan]

/-- A stopped program does not go on for ever if bodies are not delivered again and again. -/
theorem Stays.finishes_of_feeds (hm : m.Stays s) (h : Acc (Feeds s) m) : m.Finishes s := by
  induction h with
  | intro m _ ih =>
    refine finishes_of_ranked Nat.lt_wfRel.wf (I := fun n x => x.cost = n)
      (fun hx h => h.cost.trans hx) ?_ rfl
    rintro _ m' x y hcomes hshifts rfl ⟨hmore, depth, hstep⟩
    have hy : Comes s m y := hcomes.tail ⟨x, hshifts, hmore, depth, hstep⟩
    obtain ⟨hstop, hbare⟩ := hm.shifts hcomes hshifts
    by_cases hin : x.incoming s depth = []
    · have hcost := (move_of_step hstep).cost_lt hstop hbare hmore
      unfold incomingCost at hcost
      rw [hin] at hcost
      exact hcost.imp (fun hlt => ⟨_, hlt, rfl⟩) .inl
    · exact .inr (.inr (ih y ⟨m', x, depth, hcomes, hshifts, hmore, hstep, hin⟩ (hm.comes hy)))

/-! ## Calls that bring about calls -/

/-- A call brings about another one: it is made in some state that a machine comes to, and delivers a
body in which the other one is open. -/
def Begets (s : Setting H) (m : Machine H) (later c : Call) : Prop :=
  ∃ m' x depth y, Comes s m m' ∧ m'.Shifts x ∧ x.step s (World.emit depth) = some y ∧
    x.calling? = some c ∧ later ∈ x.incomingCalls s depth

theorem cutExpand_of_le {α : Type} {r : α → α → Prop} {u v : Multiset α} (h : u ≤ v) :
    ReflTransGen (CutExpand r) u v := by
  obtain ⟨d, rfl⟩ := Multiset.le_iff_exists_add.mp h
  induction d using Multiset.induction_on with
  | empty => rw [add_zero]
  | cons a d ih =>
    have hstep : CutExpand r (u + d) (u + a ::ₘ d) :=
      ⟨0, a, nofun, by rw [add_zero, add_assoc, Multiset.add_comm d, Multiset.singleton_add]⟩
    exact (ih (Multiset.le_add_right _ _)).tail hstep

/-- **A stopped program stops** if the calls that it still makes do not bring about each other for
ever. -/
theorem Stays.finishes_of_begets (hm : m.Stays s) (hbegets : WellFounded (m.Begets s)) :
    m.Finishes s := by
  refine finishes_of_ranked (WellFounded.prod_lex Nat.lt_wfRel.wf
    (WellFounded.prod_lex hbegets.cutExpand.transGen Nat.lt_wfRel.wf))
    (I := fun a x => a = (starts x.plan, x.openCalls, x.cost)) ?_ ?_ rfl
  · rintro _ x y rfl h
    have hopen : y.openCalls = x.openCalls := h.total_eq _ _ _
    rw [h.cost, h.plan, hopen]
  rintro _ m' x y hcomes hshifts rfl ⟨hmore, depth, hstep⟩
  have hmove := move_of_step hstep
  obtain ⟨hstop, hbare⟩ := hm.shifts hcomes hshifts
  rcases hmove.starts with ⟨_, hlt⟩ | ⟨hstarting, hstarts⟩
  · exact .inl ⟨_, .left _ _ hlt, rfl⟩
  have hopen := hmove.openCalls_le hstop hbare.inert
  rw [← hstarts]
  cases hcalling : x.calling? with
  | some c =>
    refine .inl ⟨_, .right _ (.left _ _ ?_), rfl⟩
    rw [hcalling, Option.toList_some] at hopen
    obtain ⟨d, hd⟩ := Multiset.le_iff_exists_add.mp hopen
    have hcut : CutExpand (m.Begets s) (y.openCalls + d) x.openCalls := by
      refine ⟨x.incomingCalls s depth, c, fun later hlater => ?_, ?_⟩
      · exact ⟨m', x, depth, y, hcomes, hshifts, hstep, hcalling, hlater⟩
      · rw [hd, Multiset.add_comm _ ({c} : Multiset Call), ← add_assoc]
        rfl
    exact TransGen.tail' (cutExpand_of_le (Multiset.le_add_right _ _)) hcut
  | none =>
    have hincoming : x.incoming s depth = [] := hbare.incoming_eq_nil hcalling hstarting
    have hcost := hmove.cost_lt hstop hbare hmore
    unfold incomingCalls at hopen
    unfold incomingCost at hcost
    rw [hincoming] at hcost hopen
    rw [hcalling] at hopen
    have hle : y.openCalls ≤ x.openCalls := by
      have hzero : (([] : List Body).map fun b => (Chain.openCalls b.chain : Multiset Call)).sum =
          0 := rfl
      rwa [hzero, add_zero, Option.toList_none, Multiset.coe_nil, zero_add] at hopen
    rcases hcost with hlt | hidle
    · have hcut := cutExpand_of_le (r := m.Begets s) hle
      refine .inl ?_
      rcases reflTransGen_iff_eq_or_transGen.mp hcut with heq | hless
      · exact ⟨_, .right _ (heq ▸ .right _ hlt), rfl⟩
      · exact ⟨_, .right _ (.left _ _ hless), rfl⟩
    · exact .inr (.inl hidle)

end Machine

/-- A call that sends no message and does not stop the program. -/
def Call.Silent (c : Call) : Prop := c.target ≠ "broadcast" ∧ c.target ≠ "endAgent"

instance (c : Call) : Decidable c.Silent := inferInstanceAs (Decidable (_ ∧ _))

theorem Call.Silent.deliveries {c : Call} (h : c.Silent) (em : Emitter H) (tr : Tracer H)
    (w : World H) : c.deliveries Library.standard em tr w = [] := by
  unfold Call.deliveries
  split
  · rfl
  next f hf =>
    obtain ⟨b, _, hb⟩ := List.mem_map.mp (Table.mem_of_getElem?_ofPairs hf)
    obtain ⟨hname, rfl⟩ := Prod.mk.inj hb
    cases b with
    | broadcast => exact absurd hname.symm h.1
    | endAgent => exact absurd hname.symm h.2
    | _ => rfl

/-- Silent calls bring about nothing. -/
theorem Machine.Keeps.wellFounded_begets {m : Machine H} {s : Setting H}
    (hm : m.Keeps (.unaided Call.Silent) s) (hs : s.library = Library.standard) :
    WellFounded (m.Begets s) := by
  refine ⟨fun c => ⟨_, fun later h => ?_⟩⟩
  obtain ⟨m', x, depth, _, hcomes, hshifts, _, hcalling, hlater⟩ := h
  have hR := Terms.lasting_unaided (H := H) (P := Call.Silent)
  have hx := ((hm.comes hR hcomes).shifts hR hshifts).1
  have hsilent : c.Silent := hx.calling hcalling c c.mem_calls_self
  have hdeliveries : x.deliveries s depth = [] := by
    obtain ⟨_, _, _, hready⟩ := ready_of_calling hcalling
    unfold Machine.deliveries Thread.deliveries
    rw [hready, hs]
    exact hsilent.deliveries _ _ _
  have hincoming : x.incoming s depth = [] := by
    unfold incoming
    rw [hdeliveries]
    cases x.plan <;> rfl
  unfold incomingCalls at hlater
  rw [hincoming] at hlater
  cases hlater

namespace Session

open Machine

variable {s : Session H}

theorem execute_eq (s : Session H) (fuel : Nat) (p : Program) (limit : Option Nat) :
    s.execute fuel p limit = (Machine.run s.setting fuel fuel (s.machine p limit)).map fun m =>
      (s.summary m, { s with world := m.world }) := by
  unfold execute operate
  cases Machine.run s.setting fuel fuel _ <;> rfl

/-- How a program goes on from a state in which it was stopped. -/
structure Stops (s : Session H) (m : Machine H) : Prop where
  /-- The calls that are still made are open calls, each of them made once, of what there was to run
  and of the bodies that were delivered since. -/
  calls {depth : Nat} {trace : List (Machine H)} {x : Machine H} :
    Path s.setting depth m trace x → (trace.filterMap calling? : Multiset Call) ≤
      m.openCalls + (trace.map (incomingCalls s.setting depth)).sum
  /-- It does not go on for ever, under any schedule, just if bodies are not delivered again and
  again. -/
  finishes_iff : m.Finishes s.setting ↔ Acc (Feeds s.setting) m
  /-- So it is if the calls that are made do not bring about each other for ever. -/
  finishes : WellFounded (m.Begets s.setting) → m.Finishes s.setting
  /-- Then it comes to its end under every schedule, as long as the handlers of the host return. -/
  halts : m.Finishes s.setting → m.Responsive s.setting → m.Halts s.setting
  /-- And if it has come to that state by itself, the program returns. -/
  returns {p : Program} {limit : Option Nat} :
    ReflTransGen (fun x y => x.Steps s.setting y) (s.machine p limit) m → m.Halts s.setting →
      ∃ bound r after, ∀ fuel, bound ≤ fuel → s.execute fuel p limit = some (r, after)

/-- **A stopped program stops**, whatever its loops and its listeners are, unless its messages go on
and on. The host may hear events and stop the program, and do anything then but replace the token. -/
theorem stops (hs : s.setting.library = Library.standard) {p : Program} {limit : Option Nat}
    {before : List (Machine H)} {m : Machine H}
    (hp : Path s.setting depth (s.machine p limit) before m)
    (hstop : ∀ x, Comes s.setting m x → x.isStopped) : s.Stops m := by
  have hR := Terms.lasting_listening (H := H)
  have hhosts : s.Respects .listening :=
    ⟨hs ▸ Library.respects_standard, fun _ _ _ => trivial, fun _ => Subscriber.respects_listening _⟩
  have hm := ((hhosts.machine fun _ _ => trivial).path hR hp).2
  have hstays : m.Stays s.setting :=
    fun x hx => ⟨hstop x hx, (hm.comes hR hx).bare fun _ => id⟩
  refine ⟨fun {depth trace x} hp => ?_, ⟨fun h => ?_, hstays.finishes_of_feeds⟩,
    hstays.finishes_of_begets, Finishes.halts, fun {p limit} hcomes hhalts => ?_⟩
  · have hall := hstays.path hp
    have hle := hp.openCalls_le (fun y hy => (hall y hy).1) fun y hy => (hall y hy).2.inert
    exact (Multiset.le_add_right _ _).trans hle
  · exact Subrelation.accessible Feeds.transGen h.transGen
  · have hreturns {x : Machine H} (hx : ReflTransGen (fun x y => x.Steps s.setting y) x m) :
        ∃ last, x.Returns s.setting last := by
      induction hx using ReflTransGen.head_induction_on with
      | refl => exact hhalts.returns
      | head hstep _ ih =>
        obtain ⟨last, hlast⟩ := ih
        exact ⟨last, hstep.returns hlast⟩
    obtain ⟨last, bound, hrun⟩ := hreturns hcomes
    refine ⟨bound, s.summary last, { s with world := last.world }, fun fuel hfuel => ?_⟩
    rw [execute_eq, hrun fuel fuel hfuel hfuel]
    rfl

/-- A call that has one input, which is bound to the variable that names a channel. -/
def naming (target block name : String) (scope : Option Chain) : Call :=
  .mk target block [("0", [⟨"0", "", name, .operand, .read, some "chan", target⟩])] [] scope

/-- A call that sends a message. -/
def sending (block : String) : Call := naming "broadcast" block "channel" none

/-- A call that lets a body listen. -/
def hearing (block : String) (body : Chain) : Call := naming "onMessage" block "channel" (some body)

/-- A call that logs the name of the channel. -/
def logging (block : String) : Call := naming "logVariable" block "var" none

/-- A call that stops the program. -/
def ending (block : String) : Call := .mk "endAgent" block [] [] none

/-- A new session with the standard functions, in which a variable names a channel. -/
def channeled : Session Unit := fresh {} () (Table.ofPairs [("chan", "ping")])

/-- A program with a body that listens, and with a loop. -/
def quiet : Program :=
  ⟨[[hearing "l" [logging "n"]],
    [.mk "startAgent" "s" [] [] (some [logging "c",
      .mk "forever" "f" [] [("0", ⟨"forever", [logging "g"]⟩)] none])]]⟩

/-- A program may be stopped before it begins. It comes to its end without a message. -/
theorem stops_quiet : channeled.cancel.setting.library = Library.standard ∧
    Path channeled.cancel.setting 0 (channeled.cancel.machine quiet none) []
      (channeled.cancel.machine quiet none) ∧
    (∀ x, Comes channeled.cancel.setting (channeled.cancel.machine quiet none) x → x.isStopped) ∧
    (channeled.cancel.machine quiet none).Responsive channeled.cancel.setting ∧
    WellFounded ((channeled.cancel.machine quiet none).Begets channeled.cancel.setting) ∧
    channeled.cancel.Stops (channeled.cancel.machine quiet none) ∧
    ∃ bound r after, ∀ fuel, bound ≤ fuel →
      channeled.cancel.execute fuel quiet none = some (r, after) := by
  have hlibrary : channeled.cancel.setting.library = Library.standard := rfl
  have hstop (x : Machine Unit)
      (hx : Comes channeled.cancel.setting (channeled.cancel.machine quiet none) x) : x.isStopped := by
    have hhosts : channeled.cancel.Respects (.persistent fun _ => True) :=
      (respects_fresh _ _ _).cancel
    exact (hhosts.machine fun _ _ => trivial).isStopped_of_comes rfl hx
  have hsilent : ∀ c ∈ quiet.calls, c.Silent := by decide +kernel
  have hkeeps : (channeled.cancel.machine quiet none).Keeps (.unaided Call.Silent)
      channeled.cancel.setting := (respects_fresh _ _ _).cancel.machine hsilent
  have hresponsive := hkeeps.responsive Terms.lasting_unaided Terms.prompt_unaided
    (hlibrary ▸ Library.unguarded_standard)
  have hbegets := hkeeps.wellFounded_begets hlibrary
  have hpath : Path channeled.cancel.setting 0 (channeled.cancel.machine quiet none) []
      (channeled.cancel.machine quiet none) := .nil
  have hstops := stops hlibrary hpath hstop
  exact ⟨hlibrary, hpath, hstop, hresponsive, hbegets, hstops,
    hstops.returns .refl (hstops.halts (hstops.finishes hbegets) hresponsive)⟩

end Session

/-! ## Runs that can be computed -/

namespace Machine

variable {m m' x : Machine H} {s : Setting H} {trace : List (Machine H)} {key channel : String}

/-- The states that a machine steps from by itself in a number of steps, and the last one. -/
def walk (s : Setting H) (depth : Nat) :
    (n : Nat) → Machine H → Option (List (Machine H) × Machine H)
  | 0, m => some ([], m)
  | n + 1, m =>
    if m.isDone then none
    else
      match m.step s (World.emit depth) with
      | none => none
      | some x => (walk s depth n x).map fun p => (m :: p.1, p.2)

theorem path_of_walk (h : walk s depth n m = some (trace, m')) :
    Path s depth m trace m' := by
  induction n generalizing m trace with
  | zero =>
    cases h
    exact .nil
  | succ n ih =>
    unfold walk at h
    split at h
    · cases h
    next hmore =>
      split at h
      · cases h
      next x hstep =>
        obtain ⟨⟨l, last⟩, hx, he⟩ := Option.map_eq_some_iff.mp h
        cases he
        exact .cons .refl (Bool.eq_false_iff.mpr hmore) hstep (ih hx)

end Machine

/-- Whether a call sends a message on the channel that a variable names. -/
def Call.sendsOn (key : String) (c : Call) : Bool :=
  c.target = "broadcast" && (c.segmentInputs? "broadcast").any fun l =>
    l.length = 1 && variableOf? l "channel" = some key

/-- Whether a body does nothing but send a message. -/
def Body.sendsOn (key : String) (b : Body) : Bool :=
  match b.chain with
  | [c] => c.sendsOn key
  | _ => false

namespace Machine

variable {m m' x : Machine H} {s : Setting H} {trace : List (Machine H)} {key channel : String}

/-- Whether a stopped program has just to answer a message with the same message, which is what the
only one who hears it does. -/
def echoes (key channel : String) (m : Machine H) : Bool :=
  match m.ready, m.paused, m.plan, m.world.queue, m.world.subscribersOf channel with
  | [.start b], [], .drive, [], [.own (.start b')] =>
    b.sendsOn key && b'.sendsOn key && m.isStopped && m.world.shared.store[key]? = some channel
  | _, _, _, _, _ => false

theorem echoes_iff : m.echoes key channel ↔ ∃ b b', m.ready = [.start b] ∧ m.paused = [] ∧
    m.plan = .drive ∧ m.world.queue = [] ∧ m.world.subscribersOf channel = [.own (.start b')] ∧
    b.sendsOn key ∧ b'.sendsOn key ∧ m.isStopped ∧ m.world.shared.store[key]? = some channel := by
  constructor
  · intro h
    unfold echoes at h
    split at h
    next b b' hready hpaused hplan hqueue hheard =>
      simp only [Bool.and_eq_true, decide_eq_true_eq, and_assoc] at h
      exact ⟨b, b', hready, hpaused, hplan, hqueue, hheard, h⟩
    · cases h
  · rintro ⟨b, b', hready, hpaused, hplan, hqueue, hheard, h⟩
    unfold echoes
    rw [hready, hpaused, hplan, hqueue, hheard]
    simp only [Bool.and_eq_true, decide_eq_true_eq, and_assoc]
    exact h

/-- Sending a message that only a body hears queues that body. -/
theorem sendsOn_run {w : World H} {b : Body} {c : Call} (hc : c.sendsOn key)
    (hstore : w.shared.store[key]? = some channel)
    (hheard : w.subscribersOf channel = [.own (.start b)]) :
    (c.effect Library.standard (World.emit 1)).run w =
      some (.ok .none, (w.countCall.enqueue b).note (.broadcast channel 1)) := by
  unfold Call.sendsOn at hc
  obtain ⟨htarget, hinputs⟩ := Bool.and_eq_true_iff.mp hc
  obtain ⟨l, hl, hsends⟩ := (Option.any_eq_true _ _).mp hinputs
  obtain ⟨hlen, hvariable⟩ := Bool.and_eq_true_iff.mp hsends
  have hact : Builtin.broadcast.act c w.countCall.shared =
      .ok (.emit channel l fun n => some (.broadcast channel n)) := by
    have hneed : c.need .broadcast "broadcast" 1 = .ok l := by
      unfold Call.need
      rw [hl]
      exact if_pos (of_decide_eq_true hlen)
    have hlookup : w.countCall.shared.lookup? (variableOf? l "channel") = some channel := by
      rw [of_decide_eq_true hvariable]
      exact hstore
    unfold Builtin.act
    dsimp only
    rw [hneed]
    dsimp only [bind, Except.bind]
    rw [hlookup]
    rfl
  have hemit : World.emit 1 channel l w.countCall = some (1, w.countCall.enqueue b) := by
    have hsubscribers : w.countCall.subscribersOf channel = [.own (.start b)] := hheard
    unfold World.emit
    rw [hsubscribers]
    rfl
  rw [Call.effect_standard (b := .broadcast) (of_decide_eq_true htarget), Effect.run_bind,
    Effect.run_change]
  dsimp only
  rw [Builtin.effect_run, hact]
  unfold Act.outcome Act.run
  dsimp only
  rw [hemit]
  rfl

/-- An echo is answered by another one, with a call. -/
theorem echoes_goesOn (hlibrary : s.library = Library.standard) (h : m.echoes key channel) :
    ∃ trace x, walk s 1 4 m = some (trace, x) ∧ x.echoes key channel ∧
      (trace.filterMap calling?).length = 1 := by
  obtain ⟨b, b', hready, hpaused, hplan, hqueue, hheard, hb, hb', hstop, hstore⟩ := echoes_iff.mp h
  obtain ⟨label, chain⟩ := b
  unfold Body.sendsOn at hb
  split at hb
  next c hchain =>
    obtain ⟨⟨shared, subscribers, queue, signal, calls, failures, log⟩, plan, ready, polling, paused,
      clock, deadline, result⟩ := m
    dsimp only at hready hpaused hplan hqueue hchain
    subst hready hpaused hplan hqueue hchain
    have hrun := sendsOn_run hb hstore hheard
    -- the body starts, makes its call, comes to the end of its chain and to its boundary
    let w : World H := ⟨shared, subscribers, [], signal, calls, failures, log⟩
    let next : World H := (w.countCall.enqueue b').note (.broadcast channel 1)
    let state (w : World H) (t : Thread H) : Machine H :=
      ⟨w, .drive, [.resume t], true, [], clock, deadline, result⟩
    have hcall : (state w (Body.frames ⟨label, [c]⟩)).step s (World.emit 1) =
        some (state next [.calls [], .boundary (.body label)]) := by
      unfold step
      dsimp only [state, Body.frames]
      unfold advance
      dsimp only
      rw [hlibrary, hrun]
      rfl
    let last : Machine H :=
      ⟨{ next with queue := [] }, .drive, [.start b'], false, [], clock, deadline, result⟩
    have hwalk : walk s 1 3 (state w (Body.frames ⟨label, [c]⟩)) = some ([
        state w (Body.frames ⟨label, [c]⟩), state next [.calls [], .boundary (.body label)],
        state next [.boundary (.body label)]], last) := by
      unfold walk
      rw [hcall]
      rfl
    have hstart : walk s 1 4 ⟨w, .drive, [.start ⟨label, [c]⟩], polling, [], clock, deadline, result⟩ =
        (walk s 1 3 (state w (Body.frames ⟨label, [c]⟩))).map fun p =>
          (⟨w, .drive, [.start ⟨label, [c]⟩], polling, [], clock, deadline, result⟩ :: p.1, p.2) := rfl
    rw [hwalk] at hstart
    refine ⟨_, last, hstart, ?_, rfl⟩
    exact echoes_iff.mpr ⟨b', b', rfl, rfl, rfl, rfl, hheard, hb', hb', hstop, hstore⟩
  · cases hb

/-- A machine comes by itself to an echo. -/
def Echoes (s : Setting H) (key channel : String) (m : Machine H) : Prop :=
  ∃ n trace x, walk s 1 n m = some (trace, x) ∧ x.echoes key channel

theorem Echoes.steps (hlibrary : s.library = Library.standard) (h : m.Echoes s key channel) :
    m.isDone = false ∧ ∃ m', m.step s (World.emit 1) = some m' ∧ m'.Echoes s key channel := by
  obtain ⟨n, trace, x, hwalk, hx⟩ : ∃ n trace x, walk s 1 (n + 1) m = some (trace, x) ∧
      x.echoes key channel := by
    obtain ⟨n, trace, x, hwalk, hx⟩ := h
    cases n with
    | zero =>
      cases hwalk
      obtain ⟨trace, y, hwalk, hy, _⟩ := echoes_goesOn hlibrary hx
      exact ⟨3, trace, y, hwalk, hy⟩
    | succ n => exact ⟨n, trace, x, hwalk, hx⟩
  unfold walk at hwalk
  split at hwalk
  · cases hwalk
  next hmore =>
    refine ⟨Bool.eq_false_iff.mpr hmore, ?_⟩
    split at hwalk
    · cases hwalk
    next m' hstep =>
      obtain ⟨⟨l, last⟩, hlater, he⟩ := Option.map_eq_some_iff.mp hwalk
      cases he
      exact ⟨m', hstep, n, l, last, hlater, hx⟩

/-- **An echo goes on for ever.** -/
theorem Echoes.not_finishes (hlibrary : s.library = Library.standard) (h : m.Echoes s key channel) :
    ¬ m.Finishes s := by
  intro hfinishes
  induction hfinishes with
  | intro m _ ih =>
    obtain ⟨hmore, m', hstep, hm'⟩ := h.steps hlibrary
    exact ih m' ⟨m, .refl, hmore, 1, hstep⟩ hm'

theorem Echoes.run_eq_none (hlibrary : s.library = Library.standard) (h : m.Echoes s key channel)
    (depth fuel : Nat) : m.run s depth fuel = none := by
  induction fuel generalizing m with
  | zero =>
    unfold Machine.run
    rw [(h.steps hlibrary).1]
    rfl
  | succ fuel ih =>
    obtain ⟨hmore, m', hstep, hm'⟩ := h.steps hlibrary
    unfold Machine.run
    rw [hmore, if_neg Bool.false_ne_true]
    dsimp only [Nat.add_eq]
    split
    next y hy =>
      -- the step does not depend on how deep emissions may nest
      have hdeep := step_mono (World.emit_mono (Nat.le_max_left depth 1)) hy
      have hdeep' := step_mono (World.emit_mono (Nat.le_max_right depth 1)) hstep
      cases hdeep.symm.trans hdeep'
      exact ih hm'
    · rfl

/-- There is no end to the calls of an echo. -/
theorem exists_path_of_echoes (hlibrary : s.library = Library.standard) (h : m.echoes key channel)
    (n : Nat) : ∃ trace x, Path s 1 m trace x ∧ x.echoes key channel ∧
      (trace.filterMap calling?).length = n := by
  induction n with
  | zero => exact ⟨[], m, .nil, h, rfl⟩
  | succ n ih =>
    obtain ⟨trace, x, hp, hx, hn⟩ := ih
    obtain ⟨later, y, hwalk, hy, hone⟩ := echoes_goesOn hlibrary hx
    refine ⟨trace ++ later, y, hp.append (path_of_walk hwalk), hy, ?_⟩
    rw [List.filterMap_append, List.length_append, hn, hone]

end Machine

namespace Session

open Machine

/-- A program that stops itself and then sends a message, which is answered by the same message. -/
def echo : Program :=
  ⟨[[hearing "l" [sending "b"]],
    [.mk "startAgent" "s" [] [] (some [ending "e", sending "c"])]]⟩

/-- A stopped program may run on: its state is one of the run, and the token is never replaced, but
there is no end to its calls, and it does not return. -/
theorem execute_echo : channeled.setting.library = Library.standard ∧
    ∃ before m, Path channeled.setting 1 (channeled.machine echo none) before m ∧ m.isStopped ∧
      (∀ x, Comes channeled.setting m x → x.isStopped) ∧
      (∀ n, ∃ trace x, Path channeled.setting 1 m trace x ∧ (trace.filterMap calling?).length = n) ∧
      ¬ m.Finishes channeled.setting ∧ ∀ fuel, channeled.execute fuel echo = none := by
  have hlibrary : channeled.setting.library = Library.standard := rfl
  have hwalk : ((walk channeled.setting 1 14 (channeled.machine echo none)).any
      fun p => p.2.echoes "chan" "ping") = true := by decide +kernel
  obtain ⟨⟨before, m⟩, hwalk, hecho⟩ := (Option.any_eq_true _ _).mp hwalk
  have hp := path_of_walk hwalk
  have hstop : m.isStopped := by
    obtain ⟨_, _, _, _, _, _, _, _, _, hstop, _⟩ := echoes_iff.mp hecho
    exact hstop
  have hhosts : channeled.Respects (.persistent fun _ => True) := respects_fresh _ _ _
  have hmachine := ((hhosts.machine fun _ _ => trivial).path
    Terms.lasting_persistent hp).2
  refine ⟨hlibrary, before, m, hp, hstop, fun x hx => hmachine.isStopped_of_comes hstop hx,
    fun n => ?_, Echoes.not_finishes hlibrary ⟨0, [], m, rfl, hecho⟩, fun fuel => ?_⟩
  · obtain ⟨trace, x, hpath, _, hcalls⟩ := exists_path_of_echoes hlibrary hecho n
    exact ⟨trace, x, hpath, hcalls⟩
  · rw [execute_eq, Echoes.run_eq_none hlibrary ⟨14, before, m, hwalk, hecho⟩]
    rfl

end Session

end SnapBlocks

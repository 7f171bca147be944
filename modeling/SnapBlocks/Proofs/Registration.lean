import SnapBlocks.Proofs.Execution
import SnapBlocks.Proofs.Outcome
import SnapBlocks.Proofs.Terms

/-! The first phase of a run. The entry chains of a program of the standard blocks are calls which
let their bodies listen to an event, and do nothing else: they leave what is shared and the queue
alone, emit nothing and do not fail. So all that listens when programs are started was there before or
is the body of an entry, and it listens before any body runs, in whatever order the entries stand. -/

namespace SnapBlocks

variable {H : Type} {w w' w'' : World H} {em : Emitter H} {c x : Call} {depth : Nat}

/-! ## Subscriptions -/

/-- The event that a body comes to listen to by an act, and the body. -/
def Act.subscription? : Act H → Option (String × Body)
  | .listen _ event body => some (event, body)
  | _ => none

/-- The event that a body comes to listen to by a call of a built-in function, and the body. -/
def Call.subscription? (c : Call) (s : Shared H) : Option (String × Body) := do
  let b ← c.builtin? (Library.standard : Library H)
  let a ← (b.act c s).toOption
  a.subscription?

/-- Acts that do nothing but note something or let a body listen. -/
inductive Act.IsQuiet : Act H → Prop
  | note (n : Notice) : IsQuiet (.note n)
  | listen (n : Option Notice) (event : String) (body : Body) : IsQuiet (.listen n event body)
  | nothing : IsQuiet (.leave .none)

/-- A call whose function lets bodies listen, and that has the inputs which it needs. -/
inductive Call.IsEntry (c : Call) : Prop
  | start : c.target = Builtin.startAgent.name → IsEntry c
  | listen {l : List BoundInput} : c.target = Builtin.onMessage.name →
      c.need .onMessage "onMessage" 1 = .ok l → IsEntry c

/-- All that becomes of a world is that some bodies come to listen to events, one after another. -/
structure World.Registers (l : List (String × Body)) (w w' : World H) : Prop where
  shared : w'.shared = w.shared
  queue : w'.queue = w.queue
  failures : w'.failures = w.failures
  subscribers (event : String) : w'.subscribersOf event =
    w.subscribersOf event ++ (l.filter (·.1 = event)).map fun p => .own (.start p.2)

namespace World.Registers

variable {l l' : List (String × Body)}

theorem of_eq (hshared : w'.shared = w.shared) (hqueue : w'.queue = w.queue)
    (hfailures : w'.failures = w.failures) (hsubscribers : w'.subscribers = w.subscribers) :
    w.Registers [] w' where
  shared := hshared
  queue := hqueue
  failures := hfailures
  subscribers event := by
    unfold subscribersOf
    rw [hsubscribers]
    exact (List.append_nil _).symm

theorem subscribe (w : World H) (event : String) (b : Body) :
    w.Registers [(event, b)] (w.subscribe event (.own (.start b))) where
  shared := rfl
  queue := rfl
  failures := rfl
  subscribers event' := by
    rw [subscribersOf_subscribe, List.filter_singleton]
    split
    next heq =>
      rw [heq, decide_eq_true rfl]
      rfl
    next hne =>
      rw [decide_eq_false hne]
      exact (List.append_nil _).symm

theorem trans (h : w.Registers l w') (h' : w'.Registers l' w'') : w.Registers (l ++ l') w'' where
  shared := h'.shared.trans h.shared
  queue := h'.queue.trans h.queue
  failures := h'.failures.trans h.failures
  subscribers event := by
    rw [h'.subscribers, h.subscribers, List.append_assoc, List.filter_append, List.map_append]

end World.Registers

/-- What a quiet act makes of a world. -/
def Act.apply (a : Act H) (w : World H) : World H :=
  match a with
  | .note n => w.note n
  | .listen n event body => (w.noteAny n).subscribe event (.own (.start body))
  | _ => w

namespace Act.IsQuiet

variable {a : Act H}

theorem run (h : a.IsQuiet) (em : Emitter H) (w : World H) : a.run em w = some (.none, a.apply w) := by
  cases h with
  | note | nothing | listen => rfl

theorem registers (h : a.IsQuiet) (w : World H) :
    w.Registers a.subscription?.toList (a.apply w) := by
  cases h with
  | note | nothing => exact .of_eq rfl rfl rfl rfl
  | listen n event body =>
    have hnote : w.Registers [] (w.noteAny n) := by
      cases n with
      | none => exact .of_eq rfl rfl rfl rfl
      | some n => exact .of_eq rfl rfl rfl rfl
    exact hnote.trans (.subscribe _ event body)

/-- Quiet acts leave alone what is shared. -/
theorem apply_shared (h : a.IsQuiet) (w : World H) (shared : Shared H) :
    a.apply { w with shared := shared } = { a.apply w with shared := shared } := by
  cases h with
  | note | nothing => rfl
  | listen n => cases n <;> rfl

end Act.IsQuiet

theorem Builtin.act_startAgent (c : Call) (s : Shared H) : Builtin.startAgent.act c s =
    .ok (match c.scope with
      | none => .note .nothingToStart
      | some chain => .listen none startEvent ⟨Builtin.startAgent.name, chain⟩) := by
  unfold act
  dsimp only
  cases c.scope <;> rfl

theorem Builtin.act_onMessage {l : List BoundInput} (h : c.need .onMessage "onMessage" 1 = .ok l)
    (s : Shared H) : Builtin.onMessage.act c s =
      .ok (match s.lookup? (variableOf? l "channel"), c.scope with
        | none, _ => .note .listenUnset
        | some _, none => .leave .none
        | some channel, some chain =>
          .listen (some (.listening channel)) channel ⟨Builtin.onMessage.name, chain⟩) := by
  unfold act
  dsimp only
  rw [h]
  dsimp only [bind, Except.bind]
  cases s.lookup? (variableOf? l "channel") <;> cases c.scope <;> rfl

namespace Call.IsEntry

theorem act (h : c.IsEntry) (s : Shared H) :
    ∃ b : Builtin, ∃ a, c.target = b.name ∧ b.act c s = .ok a ∧ a.IsQuiet := by
  cases h with
  | start ht =>
    refine ⟨_, _, ht, Builtin.act_startAgent c s, ?_⟩
    split
    · exact .note _
    · exact .listen ..
  | listen ht hneed =>
    refine ⟨_, _, ht, Builtin.act_onMessage hneed s, ?_⟩
    split
    · exact .note _
    · exact .nothing
    · exact .listen ..

theorem subscription?_eq {b : Builtin} {a : Act H} {s : Shared H} (ht : c.target = b.name)
    (ha : b.act c s = .ok a) : c.subscription? s = a.subscription? := by
  have hbuiltin : c.builtin? (Library.standard : Library H) = some b := by
    unfold Call.builtin?
    rw [ht, Library.getElem?_standard]
    rfl
  unfold Call.subscription?
  rw [hbuiltin]
  change ((b.act c s).toOption.bind Act.subscription?) = _
  rw [ha]
  rfl

theorem subscription?_startAgent {s : Shared H} {event : String} {body : Body}
    (ht : c.target = Builtin.startAgent.name) : c.subscription? s = some (event, body) ↔
      c.scope = some body.chain ∧ body.label = Builtin.startAgent.name ∧ event = startEvent := by
  rw [subscription?_eq ht (Builtin.act_startAgent c s)]
  cases c.scope with
  | none => exact ⟨nofun, nofun⟩
  | some chain =>
    constructor
    · rintro ⟨⟩
      exact ⟨rfl, rfl, rfl⟩
    · rintro ⟨⟨⟩, hlabel, rfl⟩
      exact congrArg (fun label => some (startEvent, Body.mk label body.chain)) hlabel.symm

theorem subscription?_onMessage {s : Shared H} {event : String} {body : Body} {l : List BoundInput}
    (ht : c.target = Builtin.onMessage.name) (hneed : c.need .onMessage "onMessage" 1 = .ok l) :
    c.subscription? s = some (event, body) ↔ c.scope = some body.chain ∧
      body.label = Builtin.onMessage.name ∧ s.lookup? (variableOf? l "channel") = some event := by
  rw [subscription?_eq ht (Builtin.act_onMessage hneed s)]
  cases s.lookup? (variableOf? l "channel") with
  | none => exact ⟨nofun, nofun⟩
  | some channel =>
    cases c.scope with
    | none => exact ⟨nofun, nofun⟩
    | some chain =>
      constructor
      · rintro ⟨⟩
        exact ⟨rfl, rfl, rfl⟩
      · rintro ⟨⟨⟩, hlabel, ⟨⟩⟩
        exact congrArg (fun label => some (event, Body.mk label body.chain)) hlabel.symm

theorem act_of_store (h : c.IsEntry) {s s' : Shared H} (hstore : s'.store = s.store) :
    ∃ b : Builtin, ∃ a, c.target = b.name ∧ b.act c s = .ok a ∧ b.act c s' = .ok a ∧ a.IsQuiet := by
  obtain ⟨b, a, ht, ha, hquiet⟩ := h.act s
  refine ⟨b, a, ht, ha, ?_, hquiet⟩
  cases h with
  | start ht' =>
    cases Builtin.eq_of_name (ht'.symm.trans ht)
    rw [← ha, Builtin.act_startAgent, Builtin.act_startAgent]
  | listen ht' hneed =>
    cases Builtin.eq_of_name (ht'.symm.trans ht)
    rw [← ha, Builtin.act_onMessage hneed, Builtin.act_onMessage hneed]
    unfold Shared.lookup?
    rw [hstore]

/-- **What entries do.** The call of an entry only lets its body listen, whatever the emitter is, and
whatever tokens were tripped. -/
theorem run (h : c.IsEntry) (w : World H) : ∃ w', w.Registers (c.subscription? w.shared).toList w' ∧
    ∀ (em : Emitter H) (shared : Shared H), shared.store = w.shared.store →
      (c.effect Library.standard em).run { w with shared := shared } =
        some (.ok .none, { w' with shared := shared }) := by
  obtain ⟨b, a, ht, ha, hquiet⟩ := h.act w.shared
  have hcount : w.Registers [] w.countCall := .of_eq rfl rfl rfl rfl
  refine ⟨a.apply w.countCall, ?_, fun em shared hstore => ?_⟩
  · rw [subscription?_eq ht ha]
    exact hcount.trans (hquiet.registers _)
  · obtain ⟨b', a', ht', ha', hact, _⟩ := h.act_of_store hstore
    cases Builtin.eq_of_name (ht.symm.trans ht')
    cases ha.symm.trans ha'
    rw [Call.effect_builtin (b := b) (ht ▸ Library.getElem?_standard b)]
    dsimp only
    rw [hact]
    unfold Act.outcome
    dsimp only
    rw [hquiet.run em, ← hquiet.apply_shared]
    rfl

/-- The call of an entry emits nothing. -/
theorem deliveries (h : c.IsEntry) (em : Emitter H) (tr : Tracer H) (w : World H) :
    c.deliveries Library.standard em tr w = [] := by
  have hbuiltin {b : Builtin} (ht : c.target = b.name) :
      c.deliveries Library.standard em tr w = b.deliveries tr c w.countCall := by
    unfold Call.deliveries
    rw [ht, Library.getElem?_standard]
    rfl
  cases h with
  | start ht => exact hbuiltin ht
  | listen ht _ => exact hbuiltin ht

end Call.IsEntry

/-! ## Entry chains -/

theorem Shared.Trips.store_eq {s t : Shared H} (h : s.Trips t) : t.store = s.store := by
  induction h with
  | refl => rfl
  | trip _ _ ih => exact ih

namespace Machine

variable {s : Setting H} {m m' m'' x y z : Machine H} {trace trace' before : List (Machine H)}
variable {calls calls' : List Call} {l l' : List (String × Body)}

/-- The machine as it is with other things shared, at another time. -/
def amid (m : Machine H) (shared : Shared H) (clock : Nat) (deadline : Option (Nat × Token)) :
    Machine H :=
  { m with world := { m.world with shared := shared }, clock := clock, deadline := deadline }

/-- A machine is like another one but for the time, and for tokens that were tripped since. -/
structure Beside (m x : Machine H) : Prop where
  shared : m.world.shared.Trips x.world.shared
  eq : x = m.amid x.world.shared x.clock x.deadline

/-- There is at most one thread, and no bodies are run. -/
structure Lone (m : Machine H) : Prop where
  ready : m.ready.length ≤ 1
  paused : m.paused = []
  plan : m.plan ≠ .drive

theorem Beside.refl (m : Machine H) : m.Beside m := ⟨.refl, rfl⟩

theorem Beside.trans (h : m.Beside x) (h' : x.Beside y) : m.Beside y where
  shared := h.shared.trans h'.shared
  eq := by
    rw [h'.eq, h.eq]
    rfl

theorem Beside.ready_eq (h : m.Beside x) : x.ready = m.ready := by
  rw [h.eq]
  rfl

theorem Beside.lone (h : m.Beside x) (hm : m.Lone) : x.Lone := by
  rw [h.eq]
  exact ⟨hm.ready, hm.paused, hm.plan⟩

/-- All that a schedule can do to a lone thread is to let time pass and to trip tokens. -/
theorem Lone.beside_of_shift (hm : m.Lone) (h : Shift m x) : m.Beside x := by
  cases h with
  | @order ready _ hperm _ =>
    have hready : ready = m.ready := by
      match hready : m.ready with
      | [] => exact (hready ▸ hperm).eq_nil
      | [j] => exact List.perm_singleton.mp (hready ▸ hperm)
      | _ :: _ :: _ =>
        have hlength := hready ▸ hm.ready
        exact absurd hlength (by simp)
    rw [hready]
    exact .refl m
  | wake hpaused =>
    rw [hm.paused] at hpaused
    exact absurd hpaused.symm (List.append_ne_nil_of_right_ne_nil _ (List.cons_ne_nil _ _))
  | elapse => exact ⟨.refl, rfl⟩
  | expire | stop => exact ⟨.trip _ .refl, rfl⟩
  | hear _ _ hcalled => exact absurd (isCalled_iff.mp hcalled).1 hm.plan

theorem Lone.beside (hm : m.Lone) (h : m.Shifts x) : m.Beside x := by
  induction h with
  | refl => exact .refl m
  | tail _ hshift ih => exact ih.trans ((ih.lone hm).beside_of_shift hshift)

/-- A state from which no step emits an event, fails in a call, or starts a body, whatever happened
to it before. All that has become of a world until then is that bodies have come to listen to
events. -/
structure Quiet (s : Setting H) (w : World H) (x : Machine H) : Prop where
  lone : x.Lone
  world : ∃ l, w.Registers l x.world
  silent {y : Machine H} (depth : Nat) : x.Beside y → y.deliveries s depth = []
  succeeds {y : Machine H} {c : Call} : x.Beside y → y.calling? = some c →
    ∃ w', ∀ em, (c.effect s.library em).run y.world = some (.ok .none, w')
  starting? : x.starting? = none

/-- A part of a run with some calls, by which some bodies come to listen to events. -/
structure Registers (s : Setting H) (calls : List Call) (l : List (String × Body)) (m : Machine H)
    (trace : List (Machine H)) (m' : Machine H) : Prop where
  path (depth : Nat) : Path s depth m trace m'
  calls : trace.filterMap calling? = calls
  world : m.world.Registers l m'.world
  states {x : Machine H} : x ∈ trace → Quiet s m.world x
  /-- The schedule does not matter. Any other run that begins like this one makes the same steps,
  but that the time may be another one and that tokens may have been tripped. -/
  tracks {depth : Nat} {x y : Machine H} {before : List (Machine H)} : m.Beside x →
    Path s depth x before y → (∃ z ∈ trace, z.Beside y) ∨ ∃ first x' later,
      before = first ++ later ∧ List.Forall₂ Beside trace first ∧ m'.Beside x' ∧
        Path s depth x' later y

theorem Registers.trans (h : m.Registers s calls l trace m')
    (h' : m'.Registers s calls' l' trace' m'') :
    m.Registers s (calls ++ calls') (l ++ l') (trace ++ trace') m'' where
  path depth := (h.path depth).append (h'.path depth)
  calls := by rw [List.filterMap_append, h.calls, h'.calls]
  world := h.world.trans h'.world
  states hx := by
    rcases List.mem_append.mp hx with hx | hx
    · exact h.states hx
    · have hstate := h'.states hx
      obtain ⟨later, hlater⟩ := hstate.world
      exact { hstate with world := ⟨_, h.world.trans hlater⟩ }
  tracks hx hp := by
    rcases h.tracks hx hp with ⟨z, hz, hy⟩ | ⟨first, x', later, rfl, hfirst, hx', hp'⟩
    · exact .inl ⟨z, List.mem_append_left _ hz, hy⟩
    · rcases h'.tracks hx' hp' with ⟨z, hz, hy⟩ | ⟨first', x'', later, rfl, hfirst', hx'', hp''⟩
      · exact .inl ⟨z, List.mem_append_right _ hz, hy⟩
      · exact .inr ⟨first ++ first', x'', later, (List.append_assoc ..).symm,
          List.rel_append hfirst hfirst', hx'', hp''⟩

/-- One step from a quiet state, which is the same whatever happened before. -/
theorem Quiet.registers (hm : Quiet s m.world m) (hcalls : m.calling?.toList = calls)
    (hw : m.world.Registers l m'.world) (hmore : m.isDone = false)
    (hself : m'.amid m.world.shared m.clock m.deadline = m')
    (hstep : ∀ em {shared} (clock deadline), m.world.shared.Trips shared →
      (m.amid shared clock deadline).step s em = some (m'.amid shared clock deadline)) :
    m.Registers s calls l [m] m' where
  path depth := .cons .refl hmore (hself ▸ hstep _ m.clock m.deadline .refl) .nil
  calls := by
    rw [List.filterMap_cons, List.filterMap_nil, ← hcalls]
    cases m.calling? with
    | none => rfl
    | some c => rfl
  world := hw
  states hx := by
    cases List.mem_singleton.mp hx
    exact hm
  tracks {depth x y before} hx hp := by
    cases hp with
    | nil => exact .inl ⟨m, List.mem_singleton_self m, hx⟩
    | @cons _ z x' _ later hshifts _ hz hp =>
      have hbeside : m.Beside z := hx.trans ((hx.lone hm.lone).beside hshifts)
      rw [hbeside.eq, hstep _ _ _ hbeside.shared] at hz
      cases hz
      refine .inr ⟨[z], _, later, rfl, .cons hbeside .nil, ⟨?_, rfl⟩, hp⟩
      exact hw.shared.symm ▸ hbeside.shared

/-- A step of a lone thread that makes no call, emits nothing and keeps the world. -/
theorem Lone.registers (hm : m.Lone) (hmore : m.isDone = false) (hcalling : m.calling? = none)
    (hstarting : m.starting? = none) (hworld : m'.world = m.world)
    (htime : m'.clock = m.clock ∧ m'.deadline = m.deadline)
    (hsilent : ∀ shared clock deadline depth, (m.amid shared clock deadline).deliveries s depth = [])
    (hstep : ∀ em shared clock deadline,
      (m.amid shared clock deadline).step s em = some (m'.amid shared clock deadline)) :
    m.Registers s [] [] [m] m' := by
  have hsame : m.world.Registers [] m.world := .of_eq rfl rfl rfl rfl
  have hquiet : Quiet s m.world m := by
    refine ⟨hm, ⟨_, hsame⟩, fun depth hy => ?_, fun {y c} hy hc => ?_, hstarting⟩
    · rw [hy.eq]
      exact hsilent _ _ _ depth
    · have hy' : y.calling? = m.calling? := by
        rw [hy.eq]
        rfl
      rw [hy', hcalling] at hc
      cases hc
  have hself : m'.amid m.world.shared m.clock m.deadline = m' := by
    rw [← hworld, ← htime.1, ← htime.2]
    rfl
  refine hquiet.registers (by rw [hcalling]; rfl) ?_ hmore hself
    fun em _ clock deadline _ => hstep em _ clock deadline
  rw [hworld]
  exact hsame

/-- The machine with one thread left of an entry chain. -/
def entering (m : Machine H) (entries : List Chain) (w : World H) (t : Thread H) : Machine H :=
  { m with world := w, plan := .register entries, ready := [.resume t], polling := true }

section
variable {entries : List Chain} {t : Thread H}

theorem lone_entering (hpaused : m.paused = []) : (m.entering entries w t).Lone :=
  ⟨le_rfl, hpaused, nofun⟩

/-- The chain of an entry begins. -/
theorem registers_enter (hready : m.ready = []) (hpaused : m.paused = [])
    (hplan : m.plan = .register ([c] :: entries)) :
    m.Registers s [] [] [m] (m.entering entries m.world [.calls [c], .boundary .entry]) := by
  obtain ⟨w, plan, ready, polling, paused, clock, deadline, result⟩ := m
  dsimp only at hready hpaused hplan
  subst hready hpaused hplan
  exact Lone.registers ⟨Nat.zero_le 1, rfl, nofun⟩ rfl rfl rfl rfl ⟨rfl, rfl⟩ (fun _ _ _ _ => rfl)
    fun _ _ _ _ => rfl

/-- The call of an entry. -/
theorem registers_call (hlibrary : s.library = Library.standard) (hc : c.IsEntry)
    (hpaused : m.paused = []) (hw : w.Registers l w')
    (hrun : ∀ (em : Emitter H) (shared : Shared H), shared.store = w.shared.store →
      (c.effect Library.standard em).run { w with shared := shared } =
        some (.ok .none, { w' with shared := shared })) :
    (m.entering entries w [.calls [c], .boundary .entry]).Registers s [c] l
      [m.entering entries w [.calls [c], .boundary .entry]]
      (m.entering entries w' [.calls [], .boundary .entry]) := by
  have hquiet : Quiet s w (m.entering entries w [.calls [c], .boundary .entry]) := by
    refine ⟨lone_entering hpaused, ⟨_, .of_eq rfl rfl rfl rfl⟩, fun _ hy => ?_, fun {y _} hy => ?_,
      rfl⟩
    · rw [hy.eq]
      change c.deliveries s.library _ _ _ = []
      rw [hlibrary]
      exact hc.deliveries ..
    · rw [hy.eq, hlibrary]
      rintro ⟨⟩
      exact ⟨{ w' with shared := y.world.shared }, fun em => hrun em _ hy.shared.store_eq⟩
  refine hquiet.registers rfl hw rfl ?_ fun em shared clock deadline hx => ?_
  · change ({ m.entering entries { w' with shared := w.shared } _ with clock := _ } : Machine H) = _
    rw [← hw.shared]
    rfl
  · unfold step
    dsimp only [amid, entering]
    unfold advance
    dsimp only
    rw [hlibrary, hrun em _ hx.store_eq, Option.map_some]
    unfold settle rouse release
    dsimp only [Work.frames]
    rw [hpaused]
    rfl

theorem registers_calls (hpaused : m.paused = []) :
    (m.entering entries w [.calls [], .boundary .entry]).Registers s [] []
      [m.entering entries w [.calls [], .boundary .entry]]
      (m.entering entries w [.boundary .entry]) := by
  have hlone : (m.entering entries w [.calls [], .boundary .entry]).Lone := lone_entering hpaused
  obtain ⟨_, plan, ready, polling, paused, clock, deadline, result⟩ := m
  dsimp only at hpaused
  subst hpaused
  exact hlone.registers rfl rfl rfl rfl ⟨rfl, rfl⟩ (fun _ _ _ _ => rfl) fun _ _ _ _ => rfl

/-- The chain of an entry ends at its boundary. -/
theorem registers_boundary (hpaused : m.paused = []) :
    (m.entering entries w [.boundary .entry]).Registers s [] []
      [m.entering entries w [.boundary .entry]]
      { m with world := w, plan := .register entries, ready := [], polling := false } := by
  have hlone : (m.entering entries w [.boundary .entry]).Lone := lone_entering hpaused
  obtain ⟨_, plan, ready, polling, paused, clock, deadline, result⟩ := m
  dsimp only at hpaused
  subst hpaused
  exact hlone.registers rfl rfl rfl rfl ⟨rfl, rfl⟩ (fun _ _ _ _ => rfl) fun _ _ _ _ => rfl

end

/-- **An entry chain registers**, and then the next one begins. -/
theorem registers_entry (hlibrary : s.library = Library.standard) (hc : c.IsEntry)
    {entries : List Chain} (hready : m.ready = []) (hpaused : m.paused = [])
    (hplan : m.plan = .register ([c] :: entries)) : ∃ trace w,
      m.Registers s [c] (c.subscription? m.world.shared).toList trace
        { m with world := w, plan := .register entries, polling := false } := by
  obtain ⟨w, hw, hrun⟩ := hc.run m.world
  have hall := (registers_enter (s := s) hready hpaused hplan).trans
    ((registers_call hlibrary hc hpaused hw hrun).trans
      ((registers_calls hpaused).trans (registers_boundary hpaused)))
  simp only [List.nil_append, List.append_nil] at hall
  rw [← hready] at hall
  exact ⟨_, w, hall⟩

/-- **Entry chains only register.** -/
theorem registers_entries (hlibrary : s.library = Library.standard) {entries : List Chain}
    (hentries : ∀ chain ∈ entries, ∃ c : Call, chain = [c] ∧ c.IsEntry) (hready : m.ready = [])
    (hpaused : m.paused = []) (hplan : m.plan = .register entries) : ∃ trace m',
      m.Registers s entries.flatten (entries.flatten.filterMap (·.subscription? m.world.shared))
        trace m' ∧ m'.isStarting := by
  induction entries generalizing m with
  | nil =>
    refine ⟨[], m, ⟨fun _ => .nil, rfl, .of_eq rfl rfl rfl rfl, nofun, fun hx hp => ?_⟩, ?_⟩
    · exact .inr ⟨[], _, _, rfl, .nil, hx, hp⟩
    · exact isStarting_iff.mpr ⟨hready, hpaused, hplan⟩
  | cons chain entries ih =>
    obtain ⟨⟨c, rfl, hc⟩, hrest⟩ := List.forall_mem_cons.mp hentries
    obtain ⟨first, w, hfirst⟩ := registers_entry hlibrary hc hready hpaused hplan
    let next : Machine H := { m with world := w, plan := .register entries, polling := false }
    obtain ⟨later, m', hlater, hstarting⟩ := ih (m := next) hrest hready hpaused rfl
    refine ⟨first ++ later, m', ?_, hstarting⟩
    have hall := hfirst.trans hlater
    have hshared : w.shared = m.world.shared := hfirst.world.shared
    rw [hshared] at hall
    have hsubscriptions : ([c] :: entries).flatten.filterMap (·.subscription? m.world.shared) =
        (c.subscription? m.world.shared).toList ++
          entries.flatten.filterMap (·.subscription? m.world.shared) := by
      rw [List.flatten_cons, List.filterMap_append]
      cases h : c.subscription? m.world.shared <;> simp [h]
    rw [hsubscriptions]
    exact hall

end Machine

/-! ## Entries of graphs -/

/-- What follows an entry is its body, and an entry starts agents or hears messages. -/
theorem Catalog.entry_of_mem : ∀ d ∈ standardBlocks, d.isEntry →
    d.style.forceScope ∧ (d.name = "startAgent" ∨ d.name = "onMessage") := by decide

/-- The block that hears messages has one input, which names the channel. -/
theorem Catalog.exists_channel : ∀ d ∈ standardBlocks, d.name = "onMessage" → d.isEntry ∧
    (d.segments.map (·.name)).Nodup ∧ ∃ seg ∈ d.segments, seg.name = "onMessage" ∧
      seg.inputs.map (·.internalName) = ["channel"] ∧
        ∀ other ∈ d.segments, other.inputs ≠ [] → other = seg := by decide

/-- An input of a block that has this name for running code is bound to a variable. -/
def Block.Binds (b : Block) (name key : String) : Prop :=
  ∃ (k : String) (l : List InputBinding), b.inputs[k]? = some l ∧
    ∃ i ∈ l, i.declaration.internalName = name ∧ i.key = some key

namespace Graph

variable {g : Graph} {p : Program} {b : Block} {chain : Chain} {event : String} {body : Body}

/-- The call of an entry that is a root. Its body, if there is one, is what follows the block; it
comes to listen to the start of programs, or to the channel that the block hears if that is set. -/
structure EntryCall (g : Graph) (s : Shared H) (x : Call) : Prop where
  root : ∃ b, g.blocks[x.block]? = some b ∧ (∃ pos, b.placement = .root pos) ∧ b.definition.isEntry
  subscription {b : Block} : g.blocks[x.block]? = some b → ∀ event body,
    x.subscription? s = some (event, body) ↔ (x.scope = some body.chain ∧ body.label = b.name) ∧
      (∃ low, g.primaryNext x.block = .ok (some low) ∧ Chain.first? body.chain = some low) ∧
        (b.name = "startAgent" ∧ event = startEvent ∨
          b.name = "onMessage" ∧ ∃ key, b.Binds "channel" key ∧ s.store[key]? = some event)

/-- The only input of a call that hears messages is the one that names the channel. -/
theorem CallFaithful.need_onMessage (hx : g.CallFaithful x)
    (S : g.Sound (· ∈ Catalog.standardBlocks)) (hb : g.blocks[x.block]? = some b)
    (hname : b.name = "onMessage") :
    ∃ l, x.need .onMessage "onMessage" 1 = .ok l ∧
      ∀ key, variableOf? l "channel" = some key ↔ b.Binds "channel" key := by
  obtain ⟨_, hnames, seg, hseg, hsegment, hinputs, honly⟩ :=
    Catalog.exists_channel _ (S.defined hb) hname
  have hne : seg.inputs ≠ [] := by
    rintro hnil
    rw [hnil] at hinputs
    cases hinputs
  obtain ⟨bs, hbs, hdecl, hl⟩ := hx.segmentInputs?_eq hb (S.filled hb) hnames hseg hne
  obtain ⟨d, hd, hinternal⟩ := List.map_eq_singleton_iff.mp hinputs
  rw [hd] at hdecl
  obtain ⟨i, rfl, rfl⟩ := List.map_eq_singleton_iff.mp hdecl
  rw [hsegment] at hl
  have hvariable : variableOf? ([i].map (Compile.boundInput "onMessage")) "channel" = i.key := by
    unfold variableOf? input?
    rw [List.map_singleton, List.find?_singleton]
    have hchannel : (Compile.boundInput "onMessage" i).internalName = "channel" := hinternal
    rw [hchannel, decide_eq_true rfl]
    rfl
  refine ⟨[i].map (Compile.boundInput "onMessage"), ?_, fun key => ?_⟩
  · unfold Call.need
    rw [hl]
    rfl
  · rw [hvariable]
    constructor
    · exact fun hkey => ⟨seg.id, [i], hbs, i, List.mem_singleton_self i, hinternal, hkey⟩
    · rintro ⟨k, l, hk, j, hj, _, hkey⟩
      obtain ⟨other, hother, hnonempty, rfl⟩ := (S.filled hb).segment_of hk
      rw [honly other hother hnonempty, hbs] at hk
      cases hk
      cases List.mem_singleton.mp hj
      exact hkey

/-- An entry chain is one call, of a root. -/
theorem Faithful.entry_singleton (hp : g.Faithful p) (S : g.Sound (· ∈ Catalog.standardBlocks))
    (hchain : chain ∈ p.entries) : ∃ x b, chain = [x] ∧ x ∈ p.calls ∧ g.blocks[x.block]? = some b ∧
      (∃ pos, b.placement = .root pos) ∧ b.definition.isEntry ∧
        (b.name = "startAgent" ∨ b.name = "onMessage") := by
  obtain ⟨tops, hheads, _, htops⟩ := hp.entries
  have hfaithful := hp.chain (List.mem_append_left _ hchain)
  cases chain with
  | nil => exact absurd rfl hfaithful.ne_nil
  | cons x rest =>
    have hhead : some x.block ∈ tops.map some := hheads ▸ List.mem_map_of_mem hchain
    obtain ⟨id, hid, hblock⟩ := List.mem_map.mp hhead
    cases hblock
    obtain ⟨b, hb, hroot, hentry⟩ := (htops _).mp hid
    obtain ⟨hscope, hname⟩ := Catalog.entry_of_mem _ (S.defined hb) hentry
    have hmem : x ∈ p.calls := by
      refine List.mem_flatMap.mpr ⟨x :: rest, hchain, ?_⟩
      rw [Chain.calls_cons]
      exact List.mem_append_left _ x.mem_calls_self
    cases rest with
    | nil => exact ⟨x, b, rfl, hmem, hb, hroot, hentry, hname⟩
    | cons y rest =>
      -- what follows a block that forces a scope is in its body
      exact absurd ((forces_iff hb).mpr hscope) ((hfaithful.follows (k := 0) rfl y.block).mp rfl).1

/-- A scope begins with the block that follows. -/
theorem Faithful.scope_first (hp : g.Faithful p) (hx : x ∈ p.calls) (hscope : x.scope = some chain) :
    ∃ low, g.primaryNext x.block = .ok (some low) ∧ Chain.first? chain = some low := by
  have hbody : chain ∈ x.bodies := List.mem_append_right _ (Option.mem_toList.mpr hscope)
  have hne := (hp.chain (List.mem_append_right _ (List.mem_flatMap.mpr ⟨x, hx, hbody⟩))).ne_nil
  obtain ⟨y, others, rfl⟩ := List.exists_cons_of_ne_nil hne
  have hfirst : x.scope.bind Chain.first? = some y.block := by
    rw [hscope]
    rfl
  exact ⟨y.block, (((hp.call hx).scope y.block).mp hfirst).2, rfl⟩

/-- **The call of an entry does nothing but register its body.** -/
theorem Faithful.entry (hp : g.Faithful p) (S : g.Sound (· ∈ Catalog.standardBlocks))
    (hchain : chain ∈ p.entries) (s : Shared H) :
    ∃ x, chain = [x] ∧ x.IsEntry ∧ g.EntryCall s x := by
  obtain ⟨x, b, rfl, hmem, hb, hroot, hentry, hname⟩ := hp.entry_singleton S hchain
  have hx := hp.call hmem
  have htarget : x.target = b.name := by
    obtain ⟨b', hb', ht⟩ := hx.target
    cases hb.symm.trans hb'
    exact ht
  rcases hname with hname | hname
  · have ht : x.target = Builtin.startAgent.name := htarget.trans hname
    refine ⟨x, rfl, .start ht, ⟨b, hb, hroot, hentry⟩, fun {b'} hb' event body => ?_⟩
    cases hb.symm.trans hb'
    rw [Call.IsEntry.subscription?_startAgent ht]
    constructor
    · rintro ⟨hscope, hlabel, hevent⟩
      exact ⟨⟨hscope, hlabel.trans hname.symm⟩, hp.scope_first hmem hscope, .inl ⟨hname, hevent⟩⟩
    · rintro ⟨⟨hscope, hlabel⟩, _, ⟨_, hevent⟩ | ⟨hother, _⟩⟩
      · exact ⟨hscope, hlabel.trans hname, hevent⟩
      · exact absurd (hname.symm.trans hother) (by decide)
  · have ht : x.target = Builtin.onMessage.name := htarget.trans hname
    obtain ⟨l, hneed, hbinds⟩ := hx.need_onMessage S hb hname
    refine ⟨x, rfl, .listen ht hneed, ⟨b, hb, hroot, hentry⟩, fun {b'} hb' event body => ?_⟩
    cases hb.symm.trans hb'
    rw [Call.IsEntry.subscription?_onMessage ht hneed]
    constructor
    · rintro ⟨hscope, hlabel, hlookup⟩
      obtain ⟨key, hkey, hvalue⟩ := Shared.lookup?_eq_some hlookup
      exact ⟨⟨hscope, hlabel.trans hname.symm⟩, hp.scope_first hmem hscope,
        .inr ⟨hname, key, (hbinds key).mp hkey, hvalue⟩⟩
    · rintro ⟨⟨hscope, hlabel⟩, _, ⟨hother, _⟩ | ⟨_, key, hkey, hvalue⟩⟩
      · exact absurd (hname.symm.trans hother) (by decide)
      · refine ⟨hscope, hlabel.trans hname, ?_⟩
        rw [(hbinds key).mpr hkey]
        exact hvalue

end Graph

/-! ## Sessions -/

namespace Session

open Machine

variable {s : Session H} {g : Graph} {p : Program} {limit : Option Nat}

/-- **The first phase of a run.** It makes the calls of the entries, each of which comes from a root
of the graph, and ends when the event that starts programs is about to be emitted. -/
structure RegistersFirst (s : Session H) (g : Graph) (p : Program) (limit : Option Nat)
    (trace : List (Machine H)) (m : Machine H) : Prop where
  entries {chain : Chain} : chain ∈ p.entries →
    ∃ x, chain = [x] ∧ g.EntryCall s.world.shared x
  /-- No step of it emits an event, fails in a call or starts a body. What is shared and the queue
  stay as they are, and the bodies of the entries come to listen. -/
  registers : (s.machine p limit).Registers s.setting p.entries.flatten
    (p.entries.flatten.filterMap (·.subscription? s.world.shared)) trace m
  isStarting : m.isStarting
  /-- No body runs before, whatever the schedule is: a run in which a body starts begins with these
  steps, but that the time may be another one and that tokens may have been tripped. -/
  first {depth : Nat} {before : List (Machine H)} {x y : Machine H} {b : Body} :
    Path s.setting depth (s.machine p limit) before y → y.Shifts x → x.starting? = some b →
      ∃ first m' later, before = first ++ m' :: later ∧ List.Forall₂ Beside trace first ∧ m.Beside m'
  /-- Every entry that hears messages listens by then, if the variable of its channel was set. -/
  listens {id low : BlockId} {b : Block} {key channel : String} : g.blocks[id]? = some b →
    (∃ pos, b.placement = .root pos) → b.name = "onMessage" → g.primaryNext id = .ok (some low) →
      b.Binds "channel" key → s.store[key]? = some channel →
        ∃ chain, Chain.first? chain = some low ∧
          .own (.start ⟨"onMessage", chain⟩) ∈ m.world.subscribersOf channel

end Session

namespace Machine

variable {s : Setting H} {m m' x y : Machine H} {trace before : List (Machine H)}
variable {calls : List Call} {l : List (String × Body)} {b : Body}

theorem starting?_of_isStarting (h : m.isStarting) : m.starting? = none :=
  starting?_eq_none (congrArg (List.filterMap Job.body?) (isStarting_iff.mp h).1)

theorem lone_of_isStarting (h : m.isStarting) : m.Lone := by
  obtain ⟨hready, hpaused, hplan⟩ := isStarting_iff.mp h
  exact ⟨hready ▸ Nat.zero_le 1, hpaused, hplan ▸ nofun⟩

theorem Beside.starting?_eq (h : m.Beside x) : x.starting? = m.starting? := by
  unfold starting?
  rw [h.ready_eq]

/-- A body that starts does so behind all that registers. -/
theorem Registers.first (h : m.Registers s calls l trace m') (hstarting : m'.isStarting)
    (hp : Path s depth m before y) (hshifts : y.Shifts x) (hx : x.starting? = some b) :
    ∃ first x' later, before = first ++ x' :: later ∧ List.Forall₂ Beside trace first ∧
      m'.Beside x' := by
  -- nothing starts in a state like one from which no body starts
  have hnone {z : Machine H} (hlone : z.Lone) (hz : z.starting? = none) (hy : z.Beside y) : False := by
    rw [(hy.trans ((hy.lone hlone).beside hshifts)).starting?_eq, hz] at hx
    cases hx
  rcases h.tracks (.refl m) hp with ⟨z, hz, hy⟩ | ⟨first, x', later, rfl, hfirst, hx', hp'⟩
  · exact (hnone (h.states hz).lone (h.states hz).starting? hy).elim
  · have hlone := lone_of_isStarting hstarting
    cases hp' with
    | nil => exact (hnone hlone (starting?_of_isStarting hstarting) hx').elim
    | cons hshifts' =>
      exact ⟨first, _, _, rfl, hfirst, hx'.trans ((hx'.lone hlone).beside hshifts')⟩

end Machine

namespace Graph

open Session

variable {s : Session H} {g : Graph} {p : Program} {b : Block} {id low : BlockId}
variable {key channel : String}

/-- The entry that hears messages on a channel subscribes to it. -/
theorem Faithful.listens (hp : g.Faithful p) (S : g.Sound (· ∈ Catalog.standardBlocks))
    (sh : Shared H) (hb : g.blocks[id]? = some b) (hroot : ∃ pos, b.placement = .root pos)
    (hname : b.name = "onMessage") (hlow : g.primaryNext id = .ok (some low))
    (hkey : b.Binds "channel" key) (hvalue : sh.store[key]? = some channel) :
    ∃ chain, Chain.first? chain = some low ∧ (channel, (⟨"onMessage", chain⟩ : Body)) ∈
      p.entries.flatten.filterMap (·.subscription? sh) := by
  obtain ⟨tops, hheads, _, htops⟩ := hp.entries
  have hentry := (Catalog.exists_channel _ (S.defined hb) hname).1
  have htop : id ∈ tops := (htops id).mpr ⟨b, hb, hroot, hentry⟩
  obtain ⟨chain, hchain, hfirst⟩ := List.mem_map.mp (hheads ▸ List.mem_map_of_mem (f := some) htop)
  obtain ⟨x, rfl, _, hx⟩ := hp.entry S hchain sh
  cases hfirst
  have hcall : g.CallFaithful x := hp.call (List.mem_flatMap.mpr ⟨[x], hchain, by
    rw [Chain.calls_cons]
    exact List.mem_append_left _ x.mem_calls_self⟩)
  have hforces : g.Forces x.block :=
    (forces_iff hb).mpr (Catalog.entry_of_mem _ (S.defined hb) hentry).1
  obtain ⟨scope, hscope, hlow'⟩ := Option.bind_eq_some_iff.mp ((hcall.scope low).mpr ⟨hforces, hlow⟩)
  refine ⟨scope, hlow', List.mem_filterMap.mpr ⟨x, ?_, ?_⟩⟩
  · exact List.mem_flatten.mpr ⟨[x], hchain, List.mem_cons_self⟩
  · exact (hx.subscription hb channel ⟨"onMessage", scope⟩).mpr
      ⟨⟨hscope, hname.symm⟩, ⟨low, hlow, hlow'⟩, .inr ⟨hname, key, hkey, hvalue⟩⟩

/-- **Entry chains only register**, whatever the session that a program of the standard blocks runs
in, and whatever the order of its blocks. -/
theorem Reachable.registersFirst (hg : Reachable (· ∈ Catalog.standardBlocks) g)
    (hp : g.compile = .ok p) (hs : s.setting.library = Library.standard) (limit : Option Nat) :
    ∃ trace m, s.RegistersFirst g p limit trace m := by
  have hwf := hg.mono Catalog.wellFormed_of_mem
  have S := hg.sound fun d hd => (Catalog.wellFormed_of_mem d hd).toCoherent
  have hfaithful := hwf.compile_faithful hp
  have hentries (chain : Chain) (hchain : chain ∈ p.entries) :
      ∃ c : Call, chain = [c] ∧ c.IsEntry := by
    obtain ⟨x, hx, hentry, _⟩ := hfaithful.entry S hchain s.world.shared
    exact ⟨x, hx, hentry⟩
  obtain ⟨trace, m, hregisters, hstarting⟩ :=
    Machine.registers_entries (m := s.machine p limit) hs hentries rfl rfl rfl
  refine ⟨trace, m, ?_, hregisters, hstarting, hregisters.first hstarting, ?_⟩
  · intro chain hchain
    obtain ⟨x, hx, _, hcall⟩ := hfaithful.entry S hchain s.world.shared
    exact ⟨x, hx, hcall⟩
  · intro id low b key channel hb hroot hname hlow hkey hvalue
    obtain ⟨chain, hfirst, hmem⟩ :=
      hfaithful.listens S s.world.shared hb hroot hname hlow hkey hvalue
    refine ⟨chain, hfirst, ?_⟩
    rw [hregisters.world.subscribers]
    refine List.mem_append_right _ (List.mem_map.mpr ⟨_, List.mem_filter.mpr ⟨hmem, ?_⟩, rfl⟩)
    exact decide_eq_true rfl

end Graph

namespace Document

/-- An entry whose body logs a variable on each message of a channel, and another one whose body
sends a message on that channel. -/
def answering : Document where
  blocks := Table.ofPairs [
    ("a", {
      id := "a", name := "onMessage", position := .origin, offset := none
      segments := [⟨"onMessage.onMessage",
        [⟨"onMessage.onMessage.channel", some "chan", none, true, false⟩]⟩]
      definition := Catalog.onMessage, primaryNotchId := none, primaryDivotId := none }),
    ("b", {
      id := "b", name := "logVariable", position := .origin, offset := none
      segments := [⟨"logVariable.logVariable",
        [⟨"logVariable.logVariable.var", some "chan", none, true, false⟩]⟩]
      definition := Catalog.logVariable, primaryNotchId := none, primaryDivotId := none }),
    ("c", {
      id := "c", name := "startAgent", position := .origin, offset := none, segments := []
      definition := Catalog.startAgent, primaryNotchId := none, primaryDivotId := none }),
    ("d", {
      id := "d", name := "broadcast", position := .origin, offset := none
      segments := [⟨"broadcast.broadcast",
        [⟨"broadcast.broadcast.channel", some "chan", none, true, false⟩]⟩]
      definition := Catalog.broadcast, primaryNotchId := none, primaryDivotId := none })]
  notches := Table.ofPairs [
    ("notch-0-a", {
      notchBlockId := "a", divotBlockId := "b", notchId := "notch-0-a", divotId := "divot-0-b"
      notchSegmentId := "onMessage.onMessage"
      divotSegmentId := "logVariable.logVariable", isPrimary := true }),
    ("notch-0-c", {
      notchBlockId := "c", divotBlockId := "d", notchId := "notch-0-c", divotId := "divot-0-d"
      notchSegmentId := "startAgent.startAgent"
      divotSegmentId := "broadcast.broadcast", isPrimary := true })]

/-- The graph of that document. -/
def answeringGraph : Graph := (answering.load.run ⟨.empty ∅, []⟩).2.graph

theorem reachable_answeringGraph :
    Graph.Reachable (· ∈ Catalog.standardBlocks) answeringGraph := by
  have hload : (answering.load.run ⟨.empty ∅, []⟩).1 = .ok () ∧
      (answering.load.run ⟨.empty ∅, []⟩).2.skipped = [] := by decide +kernel
  have hgraph : answering.toGraph ∅ = (.ok answeringGraph, []) := by
    rw [toGraph_eq, hload.1, hload.2]
    rfl
  have hmem : ∀ p ∈ answering.blocks.toList, p.2.definition ∈ Catalog.standardBlocks := by decide
  exact .loaded answering ∅ {} [] hmem hgraph (.refl _)

end Document

/-- A new session in which the variable of that channel is set. -/
def Session.tuned : Session Unit := fresh {} () (Table.ofPairs [("chan", "news")])

theorem Graph.registersFirst_answeringGraph : ∃ p, Document.answeringGraph.compile = .ok p ∧
    (p.entries.flatten.filterMap fun x =>
      (x.subscription? Session.tuned.world.shared).map (·.1)) = ["news", "start"] ∧
    ∃ trace m, Session.tuned.RegistersFirst Document.answeringGraph p none trace m := by
  have hevents : (Document.answeringGraph.compile.toOption.map fun p =>
      p.entries.flatten.filterMap fun x =>
        (x.subscription? Session.tuned.world.shared).map (·.1)) = some ["news", "start"] := by
    decide +kernel
  obtain ⟨p, hp, he⟩ := Option.map_eq_some_iff.mp hevents
  have hok := except_eq_ok_of_toOption hp
  exact ⟨p, hok, he, Reachable.registersFirst Document.reachable_answeringGraph hok rfl none⟩

end SnapBlocks

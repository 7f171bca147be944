import SnapBlocks.Proofs.Effect

/-! What calls do. A built-in function fails, or it does just one act: it notes something, lets a
body listen, emits an event, sets a variable, or leaves work to be done. `Builtin.act` says which
one, from what is shared when the call is made, and `Builtin.effect_run` that this is its effect.
All that a call does to a world can be read off its act and the reactions of the host in front of
it. With the inputs that it needs, a built-in function fails in one way only: it has to write a
variable, and none is bound. -/

namespace SnapBlocks

variable {H : Type} {w w' : World H} {em : Emitter H} {c : Call} {event : String}
variable {args : List BoundInput} {depth n : Nat} {s t u : Shared H}

/-- What a built-in function does. -/
inductive Act (H : Type) where
  | note (n : Notice)
  /-- Let a body listen to an event, and note so if there is something to note. -/
  | listen (notice : Option Notice) (event : String) (body : Body)
  /-- Emit an event; its number of listeners may be noted. -/
  | emit (event : String) (args : List BoundInput) (notice : Nat → Option Notice)
  | set (key value : String)
  | leave (k : Work H)

/-- Note something, if there is something to note. -/
def World.noteAny (w : World H) (n : Option Notice) : World H := n.elim w w.note

/-- Do an act: the work that it leaves, and the world then. -/
def Act.run (em : Emitter H) : Act H → World H → Option (Work H × World H)
  | .note n, w => some (.none, w.note n)
  | .listen n event body, w => some (.none, (w.noteAny n).subscribe event (.own (.start body)))
  | .emit event args n, w => (em event args w).map fun p => (.none, p.2.noteAny (n p.1))
  | .set key value, w => some (.none, w.setVariable key value)
  | .leave k, w => some (k, w)

/-- What a built-in function does when it is called. -/
def Builtin.act (b : Builtin) (c : Call) (s : Shared H) : Except RunError (Act H) := do
  match b with
  | startAgent =>
    match c.scope with
    | none => return .note .nothingToStart
    | some chain => return .listen none startEvent ⟨b.name, chain⟩
  | endAgent => return .emit stopEvent [] fun _ => none
  | broadcast =>
    let inputs ← c.need b "broadcast" 1
    match s.lookup? (variableOf? inputs "channel") with
    | none => return .note .broadcastUnset
    | some channel => return .emit channel inputs fun n => some (.broadcast channel n)
  | onMessage =>
    let inputs ← c.need b "onMessage" 1
    match s.lookup? (variableOf? inputs "channel") with
    | none => return .note .listenUnset
    | some channel =>
      match c.scope with
      | none => return .leave .none
      | some chain => return .listen (some (.listening channel)) channel ⟨b.name, chain⟩
  | setVariableTo =>
    let inputs ← c.need b "setVariableTo" 2
    match variableOf? inputs "variable" with
    | none => throw (.invalidInputs b.name .noTarget)
    | some target =>
      match s.lookup? (variableOf? inputs "data") with
      | none => return .note (.nothingToCopy target)
      | some text => return .set target text
  | logVariable =>
    let inputs ← c.need b "logVariable" 1
    let key := variableOf? inputs "var"
    match s.lookup? key with
    | none => return .note (.unset key)
    | some text => return .note (.value (key.getD "") text)
  | whileLoop =>
    let inputs ← c.need b "while" 3
    match c.body? "while" with
    | none => return .leave .none
    | some body => return .leave (.loop ⟨some inputs, body⟩)
  | forever =>
    match c.body? "forever" with
    | none => return .leave .none
    | some body => return .leave (.loop ⟨none, body⟩)
  | ifElse =>
    let first ← c.need b "if" 3
    let second ← c.need b "elif" 3
    return .leave (.arms ((c.arm? "if" first).toList ++ (c.arm? "elif" second).toList))
  | ifOnly =>
    let inputs ← c.need b "if" 3
    return .leave (.arms (c.arm? "if" inputs).toList)

/-! ## Effects as acts -/

namespace Effect

variable {α : Type}

@[simp] theorem run_look (f : Shared H → α) (w : World H) :
    (look f).run w = some (.ok (f w.shared), w) := rfl

@[simp] theorem run_change (f : World H → World H) (w : World H) :
    (change f).run w = some (.ok (), f w) := rfl

@[simp] theorem run_emit (em : Emitter H) (event : String) (args : List BoundInput) (w : World H) :
    (emit em event args).run w = (em event args w).map fun p => (.ok p.1, p.2) := by
  change (em event args w).bind _ = _
  cases em event args w <;> rfl

@[simp] theorem run_react (em : Emitter H) (r : Reaction H) (w : World H) :
    (react em r).run w = r.run em w := rfl

@[simp] theorem run_ofExcept (a : Except RunError α) (w : World H) :
    (ofExcept a : Effect H α).run w = some (a, w) := by
  cases a <;> rfl

end Effect

/-- What comes of an act, or of a failure to do one. -/
def Act.outcome (em : Emitter H) (a : Except RunError (Act H)) (w : World H) :
    Option (Except RunError (Work H) × World H) :=
  match a with
  | .error e => some (.error e, w)
  | .ok a => (a.run em w).map fun p => (.ok p.1, p.2)

theorem Builtin.effect_run (em : Emitter H) (b : Builtin) (c : Call) (w : World H) :
    (b.effect em c).run w = Act.outcome em (b.act c w.shared) w := by
  -- inputs that a call does not have end its effect and its act alike
  have hneed {segment : String} {n : Nat} {f : List BoundInput → Effect H (Work H)}
      {g : List BoundInput → Except RunError (Act H)}
      (h : ∀ l, (f l).run w = Act.outcome em (g l) w) :
      ((ofExcept (c.need b segment n) : Effect H (List BoundInput)) >>= f).run w =
        Act.outcome em (c.need b segment n >>= g) w := by
    rw [Effect.run_bind, Effect.run_ofExcept]
    cases c.need b segment n with
    | error e => rfl
    | ok l => exact h l
  unfold effect act
  cases b <;> dsimp only
  case startAgent => cases c.scope <;> rfl
  case endAgent =>
    rw [Effect.run_bind, Effect.run_emit]
    change _ = ((em stopEvent [] w).map _).map _
    cases em stopEvent [] w <;> rfl
  case broadcast =>
    refine hneed fun l => ?_
    rw [Effect.run_bind, Effect.run_look]
    cases w.shared.lookup? (variableOf? l "channel") with
    | none => rfl
    | some channel =>
      dsimp only
      rw [Effect.run_bind, Effect.run_emit]
      change _ = ((em channel l w).map _).map _
      cases em channel l w <;> rfl
  case onMessage =>
    refine hneed fun l => ?_
    rw [Effect.run_bind, Effect.run_look]
    cases w.shared.lookup? (variableOf? l "channel") with
    | none => rfl
    | some channel => cases c.scope <;> rfl
  case setVariableTo =>
    refine hneed fun l => ?_
    cases variableOf? l "variable" with
    | none => rfl
    | some target =>
      dsimp only
      rw [Effect.run_bind, Effect.run_look]
      cases w.shared.lookup? (variableOf? l "data") <;> rfl
  case logVariable =>
    refine hneed fun l => ?_
    rw [Effect.run_bind, Effect.run_look]
    cases w.shared.lookup? (variableOf? l "var") <;> rfl
  case whileLoop => exact hneed fun l => by cases c.body? "while" <;> rfl
  case forever => cases c.body? "forever" <;> rfl
  case ifElse => exact hneed fun l => hneed fun l' => rfl
  case ifOnly => exact hneed fun l => rfl

/-- A call of a built-in function is counted, and does the act of the function. -/
theorem Call.effect_builtin {library : Library H} {b : Builtin}
    (hb : library[c.target]? = some (.builtin b)) :
    (c.effect library em).run w = Act.outcome em (b.act c w.shared) w.countCall := by
  unfold Call.effect
  rw [hb]
  exact (Effect.run_bind ..).trans (b.effect_run em c w.countCall)

/-- The acts of the built-in functions. -/
inductive Builtin.Does (c : Call) (s : Shared H) : Builtin → Act H → Prop
  | note {b : Builtin} {n : Notice} : Does c s b (.note n)
  | start {chain : Chain} : c.scope = some chain →
      Does c s .startAgent (.listen none startEvent ⟨startAgent.name, chain⟩)
  | stop : Does c s .endAgent (.emit stopEvent [] fun _ => none)
  | send {l : List BoundInput} {channel : String} : c.segmentInputs? "broadcast" = some l →
      s.lookup? (variableOf? l "channel") = some channel →
      Does c s .broadcast (.emit channel l fun n => some (.broadcast channel n))
  | listen {l : List BoundInput} {channel : String} {chain : Chain} :
      c.segmentInputs? "onMessage" = some l →
      s.lookup? (variableOf? l "channel") = some channel → c.scope = some chain →
      Does c s .onMessage (.listen (some (.listening channel)) channel ⟨onMessage.name, chain⟩)
  | copy {l : List BoundInput} {target text : String} :
      c.segmentInputs? "setVariableTo" = some l → variableOf? l "variable" = some target →
      s.lookup? (variableOf? l "data") = some text → Does c s .setVariableTo (.set target text)
  | nothing {b : Builtin} : Does c s b (.leave .none)
  | loop {b : Builtin} {l : Loop} {segment : String} : segment = "while" ∨ segment = "forever" →
      c.body? segment = some l.body → Does c s b (.leave (.loop l))
  | arms {first second : List BoundInput} : Does c s .ifElse
      (.leave (.arms ((c.arm? "if" first).toList ++ (c.arm? "elif" second).toList)))
  | arm {l : List BoundInput} : Does c s .ifOnly (.leave (.arms (c.arm? "if" l).toList))

theorem Call.need_eq_ok {b : Builtin} {segment : String} {l : List BoundInput}
    (h : c.need b segment n = .ok l) : c.segmentInputs? segment = some l := by
  unfold need at h
  split at h
  · cases h
  next hl =>
    split at h
    · cases h
      exact hl
    · cases h

/-- **Inversion of built-in functions.** -/
theorem Builtin.does_of_act {b : Builtin} {a : Act H} (h : b.act c s = .ok a) : Does c s b a := by
  have hneed {b' : Builtin} {segment : String} {n : Nat}
      {f : List BoundInput → Except RunError (Act H)}
      (hf : ∀ l, c.segmentInputs? segment = some l → f l = .ok a → Does c s b a)
      (h : (c.need b' segment n >>= f) = .ok a) : Does c s b a := by
    cases hl : c.need b' segment n with
    | error e => rw [hl] at h; cases h
    | ok l => rw [hl] at h; exact hf l (Call.need_eq_ok hl) h
  unfold act at h
  cases b <;> dsimp only at h
  case startAgent =>
    split at h
    · cases h; exact .note
    next hscope => cases h; exact .start hscope
  case endAgent => cases h; exact .stop
  case broadcast =>
    refine hneed (fun l hl h => ?_) h
    split at h
    · cases h; exact .note
    next hchannel => cases h; exact .send hl hchannel
  case onMessage =>
    refine hneed (fun l hl h => ?_) h
    split at h
    · cases h; exact .note
    next hchannel =>
      split at h
      · cases h; exact .nothing
      next hscope => cases h; exact .listen hl hchannel hscope
  case setVariableTo =>
    refine hneed (fun l hl h => ?_) h
    split at h
    · cases h
    next htarget =>
      split at h
      · cases h; exact .note
      next htext => cases h; exact .copy hl htarget htext
  case logVariable =>
    refine hneed (fun l hl h => ?_) h
    split at h <;> cases h <;> exact .note
  case whileLoop =>
    refine hneed (fun l hl h => ?_) h
    split at h
    · cases h; exact .nothing
    next hbody => cases h; exact .loop (.inl rfl) hbody
  case forever =>
    split at h
    · cases h; exact .nothing
    next hbody => cases h; exact .loop (.inr rfl) hbody
  case ifElse =>
    refine hneed (fun l _ h => hneed (fun l' _ h => ?_) h) h
    cases h
    exact .arms
  case ifOnly =>
    refine hneed (fun l _ h => ?_) h
    cases h
    exact .arm

/-! ## What acts bring about -/

/-- What an act brings about: the work that it leaves, and the world then. -/
inductive Act.Brings (em : Emitter H) (w : World H) : Act H → Work H → World H → Prop
  | note {n : Notice} : Brings em w (.note n) .none (w.note n)
  | listen {n : Option Notice} {event : String} {body : Body} :
      Brings em w (.listen n event body) .none
        ((w.noteAny n).subscribe event (.own (.start body)))
  | emit {event : String} {args : List BoundInput} {notice : Nat → Option Notice} {count : Nat}
      {u : World H} : em event args w = some (count, u) →
      Brings em w (.emit event args notice) .none (u.noteAny (notice count))
  | set {key value : String} : Brings em w (.set key value) .none (w.setVariable key value)
  | leave {k : Work H} : Brings em w (.leave k) k w

theorem Act.brings_of_run {a : Act H} {k : Work H} (h : a.run em w = some (k, w')) :
    a.Brings em w k w' := by
  cases a with
  | note n => cases h; exact .note
  | listen n event body => cases h; exact .listen
  | emit event args n =>
    obtain ⟨⟨count, u⟩, he, hk⟩ := Option.map_eq_some_iff.mp h
    cases hk
    exact .emit he
  | set key value => cases h; exact .set
  | leave k => cases h; exact .leave

theorem World.subscribersOf_subscribe (w : World H) (event event' : String) (s : Subscriber H) :
    (w.subscribe event s).subscribersOf event' =
      if event = event' then w.subscribersOf event ++ [s] else w.subscribersOf event' := by
  unfold subscribersOf subscribe
  rw [Table.getElem?_insert]
  split <;> rfl

/-- **What a built-in function comes to**: it fails as its act does, or it brings about what its act
does. -/
theorem Builtin.effect_yields {Q : Except RunError (Work H) → World H → Prop} (b : Builtin)
    (herror : ∀ e, b.act c w.shared = .error e → Q (.error e) w)
    (hact : ∀ a k u, b.act c w.shared = .ok a → a.Brings em w k u → Q (.ok k) u) :
    (b.effect em c).Yields w Q := by
  intro r w' h
  rw [effect_run] at h
  cases ha : b.act c w.shared with
  | error e =>
    rw [ha] at h
    cases h
    exact herror e ha
  | ok a =>
    rw [ha] at h
    obtain ⟨⟨k, u⟩, hrun, he⟩ := Option.map_eq_some_iff.mp h
    cases he
    exact hact a k u ha (Act.brings_of_run hrun)

theorem Builtin.effect_leaves (b : Builtin) : (b.effect em c).Yields w fun r _ =>
    ∀ k, r = .ok k → ∃ b, ∃ s : Shared H, Does c s b (.leave k) := by
  refine b.effect_yields (fun _ _ => nofun) ?_
  rintro a k u ha hbrings _ ⟨⟩
  cases hbrings with
  | leave => exact ⟨b, w.shared, does_of_act ha⟩
  | note | listen | emit | set => exact ⟨b, w.shared, .nothing⟩

/-- What the host does about a call of a function of its own, behind all guards. -/
def Function.task? : Function H → Call → Option (Task H)
  | .builtin _, _ => none
  | .host respond, c => some (respond c)
  | .guarded _ inner, c => inner.task? c

/-- What the host does about a call, if it is one of a function of the host. -/
def Call.task? (library : Library H) (c : Call) : Option (Task H) :=
  (library[c.target]?).bind (·.task? c)

/-- The work that a call leaves is what a built-in function leaves of it, or what the host does. -/
theorem Call.effect_leaves {library : Library H} : (c.effect library em).Yields w fun r _ =>
    ∀ k, r = .ok k → (∃ b, ∃ s : Shared H, Builtin.Does c s b (.leave k)) ∨
      ∃ t, c.task? library = some t ∧ k = .task t := by
  have hfunction (f : Function H) (w : World H) : (f.effect em c).Yields w fun r _ =>
      ∀ k, r = .ok k → (∃ b, ∃ s : Shared H, Builtin.Does c s b (.leave k)) ∨
        ∃ t, f.task? c = some t ∧ k = .task t := by
    induction f generalizing w with
    | builtin b => exact b.effect_leaves.mono fun _ _ h k hk => .inl (h k hk)
    | host respond =>
      refine .pure ?_
      rintro _ ⟨⟩
      exact .inr ⟨respond c, rfl, rfl⟩
    | guarded guard inner ih => exact .react_bind (fun u _ => ih u) fun _ _ _ => nofun
  unfold effect task?
  cases library[c.target]? with
  | none => exact Effect.Yields.throw_bind (f := pure) nofun
  | some f => exact .change_bind (hfunction f _)

/-! ## Failures -/

/-- The segments of a call whose inputs a built-in function needs, and how many. -/
def Builtin.needs : Builtin → List (String × Nat)
  | startAgent | endAgent | forever => []
  | broadcast => [("broadcast", 1)]
  | onMessage => [("onMessage", 1)]
  | setVariableTo => [("setVariableTo", 2)]
  | logVariable => [("logVariable", 1)]
  | whileLoop => [("while", 3)]
  | ifElse => [("if", 3), ("elif", 3)]
  | ifOnly => [("if", 3)]

/-- A call has the inputs that a built-in function needs. -/
def Call.Meets (c : Call) (b : Builtin) : Prop :=
  ∀ p ∈ b.needs, ∃ l, c.segmentInputs? p.1 = some l ∧ l.length = p.2

theorem Call.Meets.need {b : Builtin} {segment : String} {n : Nat} (h : c.Meets b)
    (hn : (segment, n) ∈ b.needs) : ∃ l, c.segmentInputs? segment = some l ∧
      c.need b segment n = .ok l := by
  obtain ⟨l, hl, hlen⟩ := h _ hn
  refine ⟨l, hl, ?_⟩
  unfold Call.need
  rw [hl]
  exact if_pos hlen

/-- No variable is bound to the input of a call that names what to write. -/
def Call.NoTarget (c : Call) : Prop :=
  ∃ l, c.segmentInputs? "setVariableTo" = some l ∧ variableOf? l "variable" = none

theorem Builtin.act_error {b : Builtin} {e : RunError} (hm : c.Meets b)
    (h : b.act c s = .error e) :
    b = .setVariableTo ∧ e = .invalidInputs b.name .noTarget ∧ c.NoTarget := by
  have hneed {segment : String} {n : Nat} {f : List BoundInput → Except RunError (Act H)} {P : Prop}
      (hn : (segment, n) ∈ b.needs)
      (hf : ∀ l, c.segmentInputs? segment = some l → f l = .error e → P)
      (h : (c.need b segment n >>= f) = .error e) : P := by
    obtain ⟨l, hl, hok⟩ := hm.need hn
    rw [hok] at h
    exact hf l hl h
  unfold act at h
  cases b <;> dsimp only at h
  case startAgent => split at h <;> cases h
  case endAgent => cases h
  case broadcast =>
    refine hneed List.mem_cons_self (fun l _ h => ?_) h
    split at h <;> cases h
  case onMessage =>
    refine hneed List.mem_cons_self (fun l _ h => ?_) h
    split at h
    · cases h
    · split at h <;> cases h
  case setVariableTo =>
    refine hneed List.mem_cons_self (fun l hl h => ?_) h
    split at h
    next hnone =>
      cases h
      exact ⟨rfl, rfl, l, hl, hnone⟩
    next => split at h <;> cases h
  case logVariable =>
    refine hneed List.mem_cons_self (fun l _ h => ?_) h
    split at h <;> cases h
  case whileLoop =>
    refine hneed List.mem_cons_self (fun l _ h => ?_) h
    split at h <;> cases h
  case forever => split at h <;> cases h
  case ifElse =>
    refine hneed List.mem_cons_self (fun l _ h => ?_) h
    refine hneed (.tail _ List.mem_cons_self) (fun l' _ h => ?_) h
    cases h
  case ifOnly =>
    refine hneed List.mem_cons_self (fun l _ h => ?_) h
    cases h

/-- **Failures.** A built-in function that gets the inputs that it needs fails only if it has a
variable to write and none is bound. -/
theorem Builtin.effect_error {b : Builtin} (hm : c.Meets b) :
    (b.effect em c).Yields w fun r _ => ∀ e, r = .error e →
      b = .setVariableTo ∧ e = .invalidInputs b.name .noTarget ∧ c.NoTarget :=
  b.effect_yields (fun _ he => by rintro _ ⟨⟩; exact act_error hm he) fun _ _ _ _ _ => nofun

theorem Call.effect_error {b : Builtin} (ht : c.target = b.name) (hm : c.Meets b) :
    (c.effect Library.standard em).Yields w fun r _ => ∀ e, r = .error e →
      b = .setVariableTo ∧ e = .invalidInputs b.name .noTarget ∧ c.NoTarget := by
  rw [Call.effect_standard ht]
  exact .change_bind (Builtin.effect_error hm)

end SnapBlocks

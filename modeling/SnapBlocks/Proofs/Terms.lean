import SnapBlocks.Proofs.Act

/-! The terms that hosts keep to. A host takes part in a run through its functions, its guards and
its handlers of events. It may be held to terms: how it changes what is shared, which calls it lets
run, and what its functions and its handlers are like. A call then keeps to the terms, too, but that it
may copy a variable to the one that it writes. -/

namespace SnapBlocks

variable {H : Type} {w w' : World H} {em : Emitter H} {c : Call} {event : String}
variable {args : List BoundInput} {depth : Nat} {s : Shared H}

/-- Terms for hosts: what they may make of what is shared, the calls of the bodies that they may let
wait or run, and what their functions and handlers may be like. -/
structure Terms (H : Type) where
  changes : Shared H → Shared H → Prop
  calls : Call → Prop
  tasks : Task H → Prop
  handlers : (List BoundInput → Reaction H) → Prop

/-- A duty that keeps to terms. -/
def Duty.Respects (R : Terms H) : Duty → Prop
  | .stop => True
  | .start b => Chain.All R.calls b.chain

mutual
/-- One who hears an event keeps to terms, and so do those whom it subscribes. -/
inductive Subscriber.Respects (R : Terms H) : Subscriber H → Prop
  | own {d : Duty} : d.Respects R → Subscriber.Respects R (.own d)
  | handler {respond : List BoundInput → Reaction H} : R.handlers respond →
      (∀ args, Reaction.Respects R (respond args)) → Subscriber.Respects R (.handler respond)

/-- A reaction keeps to terms, and so do those whom it subscribes. -/
inductive Reaction.Respects (R : Terms H) : Reaction H → Prop
  | finish (r : Except RunError Unit) : Reaction.Respects R (.finish r)
  | look {rest : Shared H → Reaction H} : (∀ s, Reaction.Respects R (rest s)) →
      Reaction.Respects R (.look rest)
  | change {f : Shared H → Shared H} {rest : Reaction H} : (∀ s, R.changes s (f s)) →
      Reaction.Respects R rest → Reaction.Respects R (.change f rest)
  | subscribe {event : String} {who : Subscriber H} {rest : Reaction H} :
      Subscriber.Respects R who → Reaction.Respects R rest →
      Reaction.Respects R (.subscribe event who rest)
  | emit {event : String} {args : List BoundInput} {rest : Nat → Reaction H} :
      (∀ n, Reaction.Respects R (rest n)) → Reaction.Respects R (.emit event args rest)
end

/-- What a function of the host asks for keeps to terms. -/
def Request.Respects (R : Terms H) : Request H → Prop
  | .finish _ => True
  | .react r => r.Respects R
  | .pause => True
  | .invoke _ b => Chain.All R.calls b.chain

/-- What a function of the host does about a call keeps to terms. -/
structure Task.Respects (R : Terms H) (t : Task H) : Prop where
  task : R.tasks t
  request (replies : List (Reply H)) : (t replies).Respects R

/-- Terms that allow what others allow of reactions. -/
structure Terms.Within (R R' : Terms H) : Prop where
  changes {s t : Shared H} : R.changes s t → R'.changes s t
  calls {c : Call} : R.calls c → R'.calls c
  handlers {respond : List BoundInput → Reaction H} : R.handlers respond → R'.handlers respond

theorem Terms.Within.chain {R R' : Terms H} (h : R.Within R') {chain : Chain}
    (hc : Chain.All R.calls chain) : Chain.All R'.calls chain := fun x hx => h.calls (hc x hx)

theorem Duty.Respects.mono {R R' : Terms H} {d : Duty} (hd : d.Respects R) (h : R.Within R') :
    d.Respects R' := by
  cases d with
  | stop => exact trivial
  | start b => exact h.chain hd

mutual
theorem Subscriber.Respects.mono {R R' : Terms H} (h : R.Within R') {who : Subscriber H} :
    who.Respects R → who.Respects R'
  | .own hd => .own (hd.mono h)
  | .handler hhandler hrespond => .handler (h.handlers hhandler) fun args => (hrespond args).mono h

theorem Reaction.Respects.mono {R R' : Terms H} (h : R.Within R') {r : Reaction H} :
    r.Respects R → r.Respects R'
  | .finish result => .finish result
  | .look hrest => .look fun s => (hrest s).mono h
  | .change hf hrest => .change (fun s => h.changes (hf s)) (hrest.mono h)
  | .subscribe hwho hrest => .subscribe (hwho.mono h) (hrest.mono h)
  | .emit hrest => .emit fun n => (hrest n).mono h
end

/-- All that waits in a world, or listens, keeps to terms. -/
structure World.Respects (R : Terms H) (w : World H) : Prop where
  queue {b : Body} : b ∈ w.queue → Chain.All R.calls b.chain
  subscribers {event : String} {who : Subscriber H} : who ∈ w.subscribersOf event → who.Respects R

/-- A function keeps to terms, as far as it is one of the host. The bodies that it runs, or lets wait,
may be those that are nested in its call, and these keep to terms if the call does. -/
def Function.Respects (R : Terms H) : Function H → Prop
  | .builtin _ => True
  | .host respond => ∀ c : Call, (∀ x ∈ c.calls, R.calls x) → (respond c).Respects R
  | .guarded guard inner =>
    (∀ c : Call, (∀ x ∈ c.calls, R.calls x) → (guard c).Respects R) ∧ inner.Respects R

/-- The functions of the host in a library keep to terms. -/
def Library.Respects (R : Terms H) (l : Library H) : Prop :=
  ∀ (name : String) (f : Function H), l[name]? = some f → f.Respects R

/-- What the host does about a call keeps to the terms of its functions. -/
theorem Library.Respects.task {R : Terms H} {l : Library H} (hl : l.Respects R)
    (hc : ∀ x ∈ c.calls, R.calls x) {t : Task H} (h : c.task? l = some t) : t.Respects R := by
  obtain ⟨f, hmem, ht⟩ := Option.bind_eq_some_iff.mp h
  have hf := hl _ f hmem
  clear hmem
  induction f with
  | builtin b => cases ht
  | host respond =>
    cases ht
    exact hf c hc
  | guarded guard inner ih => exact ih ht hf.2

/-- The body that a call may let wait for an event keeps to terms. -/
def Call.Respects (R : Terms H) (c : Call) : Prop :=
  ∀ chain, c.scope = some chain → Chain.All R.calls chain

/-- Terms that go on from step to step, also when a token is tripped. -/
structure Terms.Lasting (R : Terms H) : Prop where
  refl (s : Shared H) : R.changes s s
  trans {s t u : Shared H} : R.changes s t → R.changes t u → R.changes s u
  trip (s : Shared H) (token : Token) : R.changes s { s with tokens := s.tokens.trip token }

/-- What is shared, and who hears events, stays as it is; bodies may have left the queue. -/
structure World.Remains (w w' : World H) : Prop where
  shared : w'.shared = w.shared
  queue : w'.queue ⊆ w.queue
  subscribers : w'.subscribers = w.subscribers

theorem World.Remains.of_eq (hs : w'.shared = w.shared) (hq : w'.queue = w.queue)
    (hl : w'.subscribers = w.subscribers) : w.Remains w' := ⟨hs, hq ▸ List.Subset.refl _, hl⟩

/-- What became of a world keeps to terms. -/
structure World.Abides (R : Terms H) (w w' : World H) : Prop where
  shared : R.changes w.shared w'.shared
  hosts : w'.Respects R

/-- Emissions keep to terms. -/
def Emitter.Abides (R : Terms H) (em : Emitter H) : Prop :=
  ∀ event args w n w', em event args w = some (n, w') → w.Respects R → w.Abides R w'

section
variable {R : Terms H} (hR : R.Lasting)

namespace World

theorem Respects.of_eq (hw : w.Respects R) (hq : w'.queue ⊆ w.queue)
    (hs : w'.subscribers = w.subscribers) : w'.Respects R where
  queue hb := hw.queue (hq hb)
  subscribers {event who} hwho := by
    unfold subscribersOf at hwho
    rw [hs] at hwho
    exact hw.subscribers hwho

theorem Respects.subscribe (hw : w.Respects R) (event : String) {who : Subscriber H}
    (hwho : who.Respects R) : (w.subscribe event who).Respects R where
  queue := hw.queue
  subscribers {event' who'} hmem := by
    rw [subscribersOf_subscribe] at hmem
    split at hmem
    · rcases List.mem_append.mp hmem with hmem | hmem
      · exact hw.subscribers hmem
      · exact List.mem_singleton.mp hmem ▸ hwho
    · exact hw.subscribers hmem

theorem Respects.enqueue (hw : w.Respects R) {b : Body} (hb : Chain.All R.calls b.chain) :
    (w.enqueue b).Respects R where
  queue hmem := (List.mem_append.mp hmem).elim hw.queue fun hmem => List.mem_singleton.mp hmem ▸ hb
  subscribers := hw.subscribers

include hR

theorem Respects.abides (hw : w.Respects R) : w.Abides R w := ⟨hR.refl _, hw⟩

theorem Abides.trans {u : World H} (h : w.Abides R u) (h' : u.Abides R w') : w.Abides R w' :=
  ⟨hR.trans h.shared h'.shared, h'.hosts⟩

theorem Respects.remains (hw : w.Respects R) (h : w.Remains w') : w.Abides R w' :=
  ⟨h.shared ▸ hR.refl _, hw.of_eq h.queue h.subscribers⟩

theorem Respects.abides_noteAny (hw : w.Respects R) (n : Option Notice) :
    w.Abides R (w.noteAny n) := by
  cases n with
  | none => exact hw.abides hR
  | some n => exact hw.remains hR (.of_eq rfl rfl rfl)

end World

include hR

theorem Reaction.run_abides (hem : em.Abides R) {r : Reaction H} (hr : r.Respects R)
    (hw : w.Respects R) {x : Except RunError Unit} (h : r.run em w = some (x, w')) :
    w.Abides R w' := by
  fun_induction Reaction.run em r w with
  | case1 result w =>
    cases h
    exact hw.abides hR
  | case2 rest w ih =>
    cases hr with
    | look hrest => exact ih (hrest _) hw h
  | case3 f rest w ih =>
    cases hr with
    | change hf hrest =>
      have hu : World.Respects R { w with shared := f w.shared } := hw.of_eq (List.Subset.refl _) rfl
      exact World.Abides.trans hR ⟨hf _, hu⟩ (ih hrest hu h)
  | case4 event s rest w ih =>
    cases hr with
    | subscribe hs hrest =>
      have hu : w.Abides R (w.subscribe event s) := ⟨hR.refl _, hw.subscribe event hs⟩
      exact hu.trans hR (ih hrest hu.hosts h)
  | case5 event args rest w count u he ih =>
    cases hr with
    | emit hrest =>
      have hu := hem _ _ _ _ _ he hw
      exact hu.trans hR (ih (hrest _) hu.hosts h)
  | case6 => cases h

theorem Subscriber.serve_abides (hem : em.Abides R) {who : Subscriber H} (hwho : who.Respects R)
    (hw : w.Respects R) (h : who.serve em event args w = some w') : w.Abides R w' := by
  cases hwho with
  | @own d hd =>
    cases h
    cases d with
    | stop => exact ⟨hR.trip _ _, hw.of_eq (List.Subset.refl _) rfl⟩
    | start b => exact ⟨hR.refl _, hw.enqueue hd⟩
  | @handler respond _ hrespond =>
    simp only [serve] at h
    split at h
    next hrun =>
      cases h
      exact Reaction.run_abides hR hem (hrespond _) hw hrun
    next e u hrun =>
      cases h
      have hu := Reaction.run_abides hR hem (hrespond _) hw hrun
      exact hu.trans hR (hu.hosts.remains hR (.of_eq rfl rfl rfl))
    · cases h

theorem serveAll_abides (hem : em.Abides R) {l : List (Subscriber H)}
    (hl : ∀ who ∈ l, who.Respects R) (hw : w.Respects R)
    (h : serveAll em event args l w = some w') : w.Abides R w' := by
  induction l generalizing w with
  | nil =>
    cases h
    exact hw.abides hR
  | cons who rest ih =>
    unfold serveAll at h
    split at h
    next u hserve =>
      have hu := Subscriber.serve_abides hR hem (hl who List.mem_cons_self) hw hserve
      exact hu.trans hR (ih (fun x hx => hl x (.tail _ hx)) hu.hosts h)
    · cases h

/-- **Emissions keep to terms**, however deep they nest. -/
theorem World.emit_abides (depth : Nat) : (World.emit depth : Emitter H).Abides R := by
  induction depth with
  | zero => exact nofun
  | succ depth ih =>
    intro event args w n w' h hw
    obtain ⟨u, hu, he⟩ := Option.map_eq_some_iff.mp h
    cases he
    exact serveAll_abides hR ih (fun who hwho => hw.subscribers hwho) hw hu

end

/-! ## What calls make of a world -/

/-- The built-in function that a function comes to, behind the guards of the host. -/
def Function.builtin? : Function H → Option Builtin
  | .builtin b => some b
  | .host _ => none
  | .guarded _ inner => inner.builtin?

/-- The built-in function that a call comes to. -/
def Call.builtin? (library : Library H) (c : Call) : Option Builtin :=
  library[c.target]?.bind Function.builtin?

/-- The variable that a call writes, if it is one that sets a variable. -/
def Call.written? (c : Call) : Option String :=
  (c.segmentInputs? "setVariableTo").bind (variableOf? · "variable")

/-- What becomes of a world when a call is made. It keeps to terms, but that the call may copy a
variable to the one that it writes. -/
inductive World.Called (R : Terms H) (b : Option Builtin) (c : Call)
    (w w' : World H) : Prop
  | abides : w.Abides R w' → Called R b c w w'
  | copies {u : World H} {key source value : String} : w.Abides R u → b = some .setVariableTo →
      c.written? = some key → u.shared.store[source]? = some value →
      (u.setVariable key value).Abides R w' → Called R b c w w'

theorem Shared.lookup?_eq_some {key : Option String} {value : String}
    (h : s.lookup? key = some value) : ∃ k, key = some k ∧ s.store[k]? = some value :=
  Option.bind_eq_some_iff.mp h

section
variable {R : Terms H} (hR : R.Lasting) (hem : em.Abides R)
include hR

theorem World.Abides.called {b : Option Builtin} {u : World H} (h : w.Abides R u)
    (h' : u.Called R b c w') : w.Called R b c w' := by
  cases h' with
  | abides h' => exact .abides (h.trans hR h')
  | copies h' hb hkey hvalue hset => exact .copies (h.trans hR h') hb hkey hvalue hset

omit hR in
theorem World.Called.hosts {b : Option Builtin} (h : w.Called R b c w') : w'.Respects R := by
  cases h with
  | abides h => exact h.hosts
  | copies _ _ _ _ h => exact h.hosts

theorem World.Called.abides_trans {b : Option Builtin} {u : World H} (h : w.Called R b c u)
    (h' : u.Abides R w') : w.Called R b c w' := by
  cases h with
  | abides h => exact .abides (h.trans hR h')
  | copies h hb hkey hvalue hset => exact .copies h hb hkey hvalue (hset.trans hR h')

include hem

theorem Builtin.effect_called (b : Builtin) (hc : c.Respects R) (hw : w.Respects R) :
    (b.effect em c).Yields w fun _ w' => w.Called R (some b) c w' := by
  refine b.effect_yields (fun _ _ => .abides (hw.abides hR)) fun a k u ha hbrings => ?_
  have hdoes := does_of_act ha
  cases hbrings with
  | @note n => exact .abides (hw.abides_noteAny hR (some n))
  | @listen n event body =>
    have hu := hw.abides_noteAny hR n
    have hbody : Chain.All R.calls body.chain := by
      cases hdoes with
      | start hscope => exact hc _ hscope
      | listen _ _ hscope => exact hc _ hscope
    exact .abides ⟨hu.shared, hu.hosts.subscribe event (.own hbody)⟩
  | emit he =>
    have hu := hem _ _ _ _ _ he hw
    exact .abides (hu.trans hR (hu.hosts.abides_noteAny hR _))
  | @set key value =>
    cases hdoes with
    | copy hl hkey hvalue =>
      obtain ⟨source, _, hsource⟩ := Shared.lookup?_eq_some hvalue
      have hset : World.Respects R (w.setVariable key value) := hw.of_eq (List.Subset.refl _) rfl
      have hwritten : c.written? = some key := Option.bind_eq_some_iff.mpr ⟨_, hl, hkey⟩
      exact .copies (hw.abides hR) rfl hwritten hsource (hset.abides hR)
  | leave => exact .abides (hw.abides hR)

theorem Function.effect_called {f : Function H} (hf : f.Respects R)
    (hc : ∀ x ∈ c.calls, R.calls x) (hw : w.Respects R) :
    (f.effect em c).Yields w fun _ w' => w.Called R f.builtin? c w' := by
  induction f generalizing w with
  | builtin b => exact b.effect_called hR hem (fun _ hscope => Call.scope_all hc hscope) hw
  | host respond => exact .pure (.abides (hw.abides hR))
  | guarded guard inner ih =>
    unfold effect
    refine .react_bind (fun u h => ?_) fun e u h => ?_
    · have hu := Reaction.run_abides hR hem (hf.1 c hc) hw h
      exact (ih hf.2 hu.hosts).mono fun _ _ hi => hu.called hR hi
    · exact .abides (Reaction.run_abides hR hem (hf.1 c hc) hw h)

/-- **What calls do.** A call keeps to the terms of the hosts, but one that sets a variable copies
another one to it. -/
theorem Call.effect_called {library : Library H} (hl : library.Respects R)
    (hc : ∀ x ∈ c.calls, R.calls x) (hw : w.Respects R) :
    (c.effect library em).Yields w fun _ w' => w.Called R (c.builtin? library) c w' := by
  unfold effect builtin?
  cases hf : library[c.target]? with
  | none => exact Effect.Yields.throw_bind (f := pure) (.abides (hw.abides hR))
  | some f =>
    have hu : w.Abides R w.countCall := hw.remains hR (.of_eq rfl rfl rfl)
    refine .change_bind ((f.effect_called hR hem (hl _ _ hf) hc hu.hosts).mono ?_)
    exact fun _ _ hi => hu.called hR hi

end

end SnapBlocks

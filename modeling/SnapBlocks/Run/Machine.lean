import SnapBlocks.Config
import SnapBlocks.Run.Function

/-! The machine that runs chains and bodies. A thread is a stack of frames, the top first. The
thread in front is polled: it runs until it ends or pauses, which it does before each check of a
loop, and where a function of the host waits. Then the next one that is ready is polled.

The loop that drives bodies takes all that are queued, and lets those that it has run. When one of
them ends, and when it hears that a body was queued, it takes again; it ends when none is left.

A thread that pauses for some time is ready again once its token is tripped, and else when its time
has come. Threads that only give way do not heed their token. What a machine does by itself is one
way to run: it listens for queued bodies, lets pauses end and lets time pass only when nothing is
ready, and it resumes those that gave way last first.

A failing call ends everything up to the nearest boundary of its thread. -/

namespace SnapBlocks

/-- Where a failure ends. -/
inductive Boundary (H : Type) where
  | entry
  | body (label : String)
  /-- A function of the host runs a body, and goes on with what comes of it. There is a label if
  the body is isolated. -/
  | task (label : Option String) (t : Task H) (replies : List (Reply H))
  /-- A chain is run from outside, to where a failure is returned. -/
  | outside

/-- What a failure at a boundary is called, if it is noted there. -/
def Boundary.notice? (e : RunError) : Boundary H → Option Notice
  | entry => some (.entryFailed e)
  | body label => some (.bodyFailed label e)
  | task label _ _ => label.map (.bodyFailed · e)
  | outside => none

/-- End a failure at a boundary. -/
def Boundary.catch (e : RunError) (b : Boundary H) (w : World H) : World H :=
  match b.notice? e with
  | none => w
  | some n => w.noteFailure n

/-- A part of what a thread has still to do. -/
inductive Frame (H : Type) where
  | calls (rest : List Call)
  | boundary (b : Boundary H)
  | arms (rest : List Arm)
  /-- The top of a loop. -/
  | loop (l : Loop)
  /-- The check of a loop that pauses here; the token was current when the pause began. -/
  | check (token : Token) (l : Loop)
  /-- A function of the host goes on after some replies. -/
  | task (t : Task H) (replies : List (Reply H))

/-- What a thread has still to do, the next thing first. -/
abbrev Thread (H : Type) := List (Frame H)

/-- What is left to be done after a call. -/
def Work.frames : Work H → Thread H
  | .none => []
  | .arms as => [.arms as]
  | .loop l => [.loop l]
  | .task t => [.task t []]

/-- Run a body; it may fail without harm to what runs it. -/
def Body.frames (b : Body) : Thread H := [.calls b.chain, .boundary (.body b.label)]

/-- What goes on at a boundary with the result of what was run. -/
def Boundary.resume (result : Except RunError Unit) (s : Shared H) : Boundary H → Thread H
  | task _ t replies => [.task t (replies ++ [⟨result, s⟩])]
  | _ => []

/-- The nearest boundary, and what comes behind it. -/
def unwind : Thread H → Boundary H × Thread H
  | [] => (.outside, [])
  | .boundary b :: rest => (b, rest)
  | _ :: rest => unwind rest

/-- What comes of a step of a thread. -/
inductive Advance (H : Type) where
  | on (t : Thread H)
  /-- The thread pauses; a loop does so with a token. -/
  | pause (token : Option Token) (t : Thread H)
  /-- A failure that met no boundary. -/
  | escaped (e : RunError)

/-- Fail. -/
def fail (e : RunError) (t : Thread H) (w : World H) : Advance H × World H :=
  match unwind t with
  | (.outside, _) => (.escaped e, w)
  | (b, rest) => (.on (b.resume (.error e) w.shared ++ rest), b.catch e w)

/-- What a loop does when it ends. -/
def Loop.leave (l : Loop) (w : World H) : World H :=
  match l.condition with
  | none => w.note .loopStopped
  | some _ => w

/-- Whether a loop goes on at a check: the program was not stopped, and its condition holds. -/
def Loop.goesOn (l : Loop) (token : Token) (s : Shared H) : Bool :=
  ! s.tokens.isTripped token &&
    match l.condition with
    | none => true
    | some inputs => s.conditionHolds inputs

/-- A step of a thread. It has no outcome when an emission has none. -/
def advance (library : Library H) (emitter : Emitter H) :
    Thread H → World H → Option (Advance H × World H)
  | [], w => some (.on [], w)
  | .calls [] :: rest, w => some (.on rest, w)
  | .calls (c :: calls) :: rest, w =>
    match (c.effect library emitter).run w with
    | none => none
    | some (.ok work, w) => some (.on (work.frames ++ .calls calls :: rest), w)
    | some (.error e, w) => some (fail e rest w)
  | .boundary b :: rest, w => some (.on (b.resume (.ok ()) w.shared ++ rest), w)
  | .arms [] :: rest, w => some (.on rest, w)
  | .arms (a :: arms) :: rest, w =>
    if w.shared.conditionHolds a.condition then
      some (.on (a.body.frames ++ .arms arms :: rest), w)
    else some (.on (.arms arms :: rest), w)
  | .loop l :: rest, w =>
    if w.shared.tokens.stopped then some (.on rest, l.leave w)
    else
      some (.pause (some w.shared.tokens.current) (.check w.shared.tokens.current l :: rest), w)
  | .check token l :: rest, w =>
    if l.goesOn token w.shared then some (.on (l.body.frames ++ .loop l :: rest), w)
    else some (.on rest, l.leave w)
  | .task t replies :: rest, w =>
    match t replies with
    | .finish (.ok ()) => some (.on rest, w)
    | .finish (.error e) => some (fail e rest w)
    | .react r =>
      match r.run emitter w with
      | none => none
      | some (result, w) => some (.on (.task t (replies ++ [⟨result, w.shared⟩]) :: rest), w)
    | .pause => some (.pause none (.task t (replies ++ [⟨.ok (), w.shared⟩]) :: rest), w)
    | .invoke isolated b =>
      let label := if isolated then some b.label else none
      some (.on (.calls b.chain :: .boundary (.task label t replies) :: rest), w)

/-- A thread that pauses. -/
structure Paused (H : Type) where
  /-- The pause also ends when this token is tripped; none if the thread only gives way. -/
  token : Option Token
  /-- When the thread resumes. -/
  wake : Nat
  thread : Thread H

/-- Whether the pause of a thread ends because its token was tripped. -/
def Paused.isRoused (p : Paused H) (ts : Tokens) : Bool := p.token.any ts.isTripped

/-- What is ready to run. -/
inductive Job (H : Type) where
  /-- A body that was queued and has not started. -/
  | start (b : Body)
  | resume (t : Thread H)

/-- What a machine does when no thread is left. -/
inductive Plan where
  /-- Nothing. -/
  | rest
  /-- Run entry chains, then emit the event that starts programs and run bodies. -/
  | register (entries : List Chain)
  /-- Run the queued bodies. -/
  | drive

/-- What a machine runs with. -/
structure Setting (H : Type) where
  library : Library H
  config : RunConfig := {}

/-- The state of a machine. -/
structure Machine (H : Type) where
  world : World H
  plan : Plan
  ready : List (Job H) := []
  /-- Whether the thread in front is being polled, so that no other one can run. -/
  polling : Bool := false
  /-- The threads that pause. -/
  paused : List (Paused H) := []
  clock : Nat := 0
  /-- When a token is to be tripped. -/
  deadline : Option (Nat × Token) := none
  /-- The failure that escaped, if one did. -/
  result : Except RunError Unit := .ok ()

namespace Machine

/-- Whether nothing is left to do. -/
def isDone (m : Machine H) : Bool :=
  m.ready.isEmpty && m.paused.isEmpty &&
    match m.plan with
    | .register _ => false
    | _ => true

/-- Let the queued bodies join those that are ready, if bodies are run. -/
def enlist (m : Machine H) : Machine H :=
  match m.plan with
  | .drive =>
    { m with
      world := { m.world with queue := [] }
      ready := m.ready ++ m.world.queue.map .start }
  | _ => m

/-- Whether the loop that drives bodies is to hear that a body was queued. -/
def isCalled (m : Machine H) : Bool :=
  match m.plan with
  | .drive => m.world.signal
  | _ => false

/-- Hear that a body was queued. -/
def hear (m : Machine H) : Machine H :=
  enlist { m with world := { m.world with signal := false } }

/-- Let the paused threads with a property join those that are ready. -/
def release (m : Machine H) (p : Paused H → Bool) : Machine H :=
  { m with
    ready := m.ready ++ (m.paused.filter p).map fun q => .resume q.thread
    paused := m.paused.filter (! p ·) }

/-- Resume the threads whose token was tripped. -/
def rouse (m : Machine H) : Machine H := m.release (·.isRoused m.world.shared.tokens)

/-- Whether the time of a paused thread has come. -/
def isDue (m : Machine H) (p : Paused H) : Bool := p.wake ≤ m.clock

/-- Let a thread pause: for some time in a loop, or else only to give way. -/
def pause (m : Machine H) (s : Setting H) (token : Option Token) (t : Thread H) : Machine H :=
  match token, s.config.loopIntervalMs with
  | some token, interval + 1 =>
    { m with paused := m.paused ++ [⟨some token, m.clock + (interval + 1), t⟩] }
  | _, _ => { m with paused := ⟨none, m.clock, t⟩ :: m.paused }

/-- Take in what came of a step of the thread in front. When it is through, those whose token was
tripped are ready. -/
def settle (m : Machine H) (s : Setting H) (rest : List (Job H)) :
    Advance H × World H → Machine H
  | (.on [], w) => { m with world := w, ready := rest, polling := false }.rouse.enlist
  | (.on t, w) => { m with world := w, ready := .resume t :: rest, polling := true }
  | (.pause token t, w) =>
    { m with world := w, ready := rest, polling := false }.rouse.pause s token t
  | (.escaped e, w) =>
    { m with world := w, ready := rest, polling := false, result := .error e }.rouse.enlist

/-- The earliest time at which one of some threads resumes. -/
def firstWake (first : Nat) (others : List (Paused H)) : Nat :=
  others.foldl (fun t p => min t p.wake) first

/-- Let time pass until a thread resumes, at `first`, or the deadline is met. -/
def sleep (m : Machine H) (first : Nat) : Machine H :=
  match m.deadline with
  | some (time, token) =>
    if time < first then
      { m with world := m.world.trip token, clock := time, deadline := none }.rouse
    else { m with clock := first }
  | none => { m with clock := first }

/-- Follow the plan. -/
def proceed (m : Machine H) (emitter : Emitter H) : Option (Machine H) :=
  match m.plan with
  | .register (chain :: entries) =>
    some { m with
      plan := .register entries
      ready := [.resume [.calls chain, .boundary .entry]]
      polling := true }
  | .register [] =>
    (emitter startEvent [] m.world).map fun (_, w) => enlist { m with plan := .drive, world := w }
  | _ => some m

/-- A step of a machine. It has no outcome when an emission has none. -/
def step (s : Setting H) (emitter : Emitter H) (m : Machine H) : Option (Machine H) :=
  match m.ready with
  | .start body :: rest => some { m with ready := .resume body.frames :: rest, polling := true }
  | .resume thread :: rest =>
    (advance s.library emitter thread m.world).map (m.settle s rest)
  | [] =>
    match m.paused with
    | [] => m.proceed emitter
    | p :: others =>
      if m.isCalled then some m.hear
      else if m.paused.any m.isDue then some (m.release m.isDue)
      else some (m.sleep (firstWake p.wake others))

/-- Run a machine until nothing is left to do, in at most `fuel` steps, with emissions that nest at
most `depth` deep. -/
def run (s : Setting H) (depth : Nat) : (fuel : Nat) → Machine H → Option (Machine H)
  | fuel, m =>
    if m.isDone then some m
    else
      match fuel with
      | 0 => none
      | fuel + 1 =>
        match m.step s (World.emit depth) with
        | some m => run s depth fuel m
        | none => none

end Machine

end SnapBlocks

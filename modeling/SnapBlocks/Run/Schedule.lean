import SnapBlocks.Run.Machine
import Mathlib.Logic.Relation

/-! Runs under all schedules. A machine makes its steps by itself, but around them other things
happen, of which nothing is known but the rules. Which of the threads that are ready is polled next
is not known, except that bodies that were queued are polled first in the order in which they were
taken; and a thread that is being polled is not interrupted. Time passes as it likes, and a pause may
end at any moment from the one on at which its time has come or its token was tripped. A deadline
may be met at any moment from its time on, and the host may stop the program at any moment. The loop
that drives bodies may hear that one was queued whenever none is being polled. -/

namespace SnapBlocks

variable {H : Type}

/-- The body that a job starts. -/
def Job.body? : Job H → Option Body
  | .start b => some b
  | .resume _ => none

namespace Machine

/-- What may happen to a machine between its steps. -/
inductive Shift : Machine H → Machine H → Prop
  /-- The jobs that are ready are put in another order, but bodies still start in theirs. -/
  | order {m : Machine H} {ready : List (Job H)} : m.polling = false → ready.Perm m.ready →
      ready.filterMap Job.body? = m.ready.filterMap Job.body? → Shift m { m with ready := ready }
  /-- A pause ends. -/
  | wake {m : Machine H} {before after : List (Paused H)} {p : Paused H} :
      m.paused = before ++ p :: after → m.isDue p ∨ p.isRoused m.world.shared.tokens →
      Shift m { m with ready := m.ready ++ [.resume p.thread], paused := before ++ after }
  | elapse {m : Machine H} {time : Nat} : m.clock ≤ time → Shift m { m with clock := time }
  /-- The deadline is met. -/
  | expire {m : Machine H} {time : Nat} {token : Token} : m.deadline = some (time, token) →
      time ≤ m.clock → Shift m { m with world := m.world.trip token, deadline := none }
  /-- The host stops the program. -/
  | stop {m : Machine H} : Shift m { m with world := m.world.stop }
  /-- The loop that drives bodies hears that one was queued. -/
  | hear {m : Machine H} : m.polling = false → m.isDone = false → m.isCalled → Shift m m.hear

/-- What may have happened to a machine when it makes its next step. -/
abbrev Shifts : Machine H → Machine H → Prop := Relation.ReflTransGen Shift

/-- A machine steps from these states, in turn, before it comes to the last one. In front of each
step anything may have happened to it that the schedule allows. -/
inductive Path (s : Setting H) (depth : Nat) : Machine H → List (Machine H) → Machine H → Prop
  | nil {m : Machine H} : Path s depth m [] m
  | cons {m x m' m'' : Machine H} {trace : List (Machine H)} : m.Shifts x → x.isDone = false →
      x.step s (World.emit depth) = some m' → Path s depth m' trace m'' →
      Path s depth m (x :: trace) m''

/-- A machine that is not done makes a step, however deep emissions have to nest for it. -/
def Steps (m : Machine H) (s : Setting H) (m' : Machine H) : Prop :=
  m.isDone = false ∧ ∃ depth, m.step s (World.emit depth) = some m'

/-- Some schedule brings a machine to its next state. -/
def Leads (s : Setting H) (m m' : Machine H) : Prop := ∃ x, m.Shifts x ∧ x.Steps s m'

/-- The states that a machine comes to. -/
abbrev Comes (s : Setting H) : Machine H → Machine H → Prop := Relation.ReflTransGen (Leads s)

/-- A machine does not go on for ever, whatever the schedule is. -/
def Finishes (s : Setting H) (m : Machine H) : Prop :=
  Acc (fun later earlier => Leads s earlier later) m

/-- A machine comes to its end under every schedule: it never goes on for ever, and is never stuck
before it is done. -/
inductive Halts (s : Setting H) : Machine H → Prop
  | intro {m : Machine H} : (∀ x, m.Shifts x → x.isDone = false → ∃ m', x.Steps s m') →
      (∀ m', Leads s m m' → Halts s m') → Halts s m

end Machine

end SnapBlocks

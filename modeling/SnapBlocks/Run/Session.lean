import SnapBlocks.Run.Machine

/-! Sessions in which programs run: a world that lasts from one run to the next, and the functions
that calls may name. Each call from outside ends within `fuel` steps, or has no outcome. -/

namespace SnapBlocks

/-- A session. -/
structure Session (H : Type) where
  setting : Setting H
  world : World H

/-- What came of running a program. -/
structure Summary where
  calls : Nat
  /-- How many entry chains and bodies failed. -/
  failedBodies : Nat
  deriving DecidableEq, Repr, Inhabited

namespace Session

/-- A new session. The event that stops programs trips the current token. -/
def new (setting : Setting H) (host : H) : Session H :=
  { setting := setting
    world := ({ shared := { host := host } } : World H).subscribe stopEvent (.own .stop) }

/-- Change the world. -/
def modifyWorld (s : Session H) (f : World H → World H) : Session H :=
  { s with world := f s.world }

/-- Change what the host reaches. -/
def modifyShared (s : Session H) (f : Shared H → Shared H) : Session H :=
  s.modifyWorld fun w => { w with shared := f w.shared }

/-- Change the variables. -/
def modifyStore (s : Session H) (f : Store → Store) : Session H :=
  s.modifyShared fun shared => { shared with store := f shared.store }

/-- The variables. -/
def store (s : Session H) : Store := s.world.shared.store

/-- Whether the current token was tripped. -/
def isCancelled (s : Session H) : Bool := s.world.shared.tokens.stopped

/-- Trip the current token. -/
def cancel (s : Session H) : Session H := s.modifyWorld World.stop

/-- Put a fresh token in place of the current one, so that programs can run again. -/
def resetCancellation (s : Session H) : Session H :=
  s.modifyShared fun shared => { shared with tokens := shared.tokens.renew }

/-- Run a machine in a session. -/
def operate (s : Session H) (fuel : Nat) (m : Machine H) : Option (Machine H × Session H) :=
  (m.run s.setting fuel fuel).map fun m => (m, { s with world := m.world })

/-- The machine that runs a program: its entry chains, then the event that starts it, then all bodies
that are queued. If it still runs after `limit` milliseconds, the token that is current now is
tripped. -/
def machine (s : Session H) (p : Program) (limit : Option Nat) : Machine H where
  world := s.world
  plan := .register p.entries
  deadline := limit.map fun time => (time, s.world.shared.tokens.current)

/-- What was counted until a machine came to a state. -/
def summary (s : Session H) (m : Machine H) : Summary where
  calls := m.world.calls - s.world.calls
  failedBodies := m.world.failures - s.world.failures

/-- Run a program. -/
def execute (s : Session H) (fuel : Nat) (p : Program) (limit : Option Nat := none) :
    Option (Summary × Session H) := do
  let (m, after) ← s.operate fuel (s.machine p limit)
  return (s.summary m, after)

/-- The machine that runs a chain. Bodies that the chain queues stay queued. -/
def chainMachine (s : Session H) (c : Chain) : Machine H where
  world := s.world
  plan := .rest
  ready := [.resume [.calls c, .boundary .outside]]
  polling := true

/-- Run a chain. -/
def runChain (s : Session H) (fuel : Nat) (c : Chain) :
    Option (Except RunError Unit × Session H) := do
  let (m, after) ← s.operate fuel (s.chainMachine c)
  return (m.result, after)

/-- Run a body. A failure is noted and counted, and the answer is `false` then. -/
def runBody (s : Session H) (fuel : Nat) (b : Body) : Option (Bool × Session H) := do
  let (result, after) ← s.runChain fuel b.chain
  match result with
  | .ok () => return (true, after)
  | .error e => return (false, after.modifyWorld (·.noteFailure (.bodyFailed b.label e)))

/-- Emit an event. The answer is the number of its subscribers. -/
def emit (s : Session H) (fuel : Nat) (event : String) (args : List BoundInput) :
    Option (Nat × Session H) := do
  let (count, w) ← s.world.emit fuel event args
  return (count, { s with world := w })

/-- Add one who hears an event. -/
def subscribe (s : Session H) (event : String) (who : Subscriber H) : Session H :=
  s.modifyWorld (·.subscribe event who)

/-- Queue a body whenever an event is emitted. -/
def subscribeBody (s : Session H) (event : String) (b : Body) : Session H :=
  s.subscribe event (.own (.start b))

/-- How many hear an event. -/
def subscriberCount (s : Session H) (event : String) : Nat :=
  (s.world.subscribersOf event).length

/-- The value of a variable, if one is named and has a value. -/
def lookup? (s : Session H) (key : Option String) : Option String :=
  s.world.shared.lookup? key

/-- Set a variable from data. -/
def setVariableJson (s : Session H) (key value : Json) : Except RunError (Session H) :=
  match s.store.setJson key value with
  | .ok store => .ok (s.modifyStore fun _ => store)
  | .error e => .error (.store e)

end Session

end SnapBlocks

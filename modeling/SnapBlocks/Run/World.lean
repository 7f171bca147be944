import SnapBlocks.Program.Basic
import SnapBlocks.Run.Error

/-! The world of running programs: variables, stop tokens, subscriptions to events, and bodies
that wait to be run.

A subscriber is either a duty of the run itself or a handler of the host. A handler answers an
event with a reaction, which may look at what the host can reach, change it, subscribe, emit
events in turn, and fail. -/

namespace SnapBlocks

/-- A chain to be run, and what it is called in notices. -/
structure Body where
  label : String
  chain : Chain
  deriving Inhabited

/-- What the run itself does when an event is emitted. -/
inductive Duty where
  /-- Stop the program. -/
  | stop
  /-- Queue a body. -/
  | start (body : Body)

/-- The name of a stop token. -/
abbrev Token := Nat

/-- Stop tokens. One of them is current; a token that was tripped stays so. -/
structure Tokens where
  current : Token := 0
  tripped : List Token := []
  deriving DecidableEq, Repr, Inhabited

namespace Tokens

/-- Whether a token was tripped. -/
def isTripped (ts : Tokens) (t : Token) : Bool := ts.tripped.contains t

/-- Trip a token. -/
def trip (ts : Tokens) (t : Token) : Tokens :=
  if ts.isTripped t then ts else { ts with tripped := t :: ts.tripped }

/-- Whether the current token was tripped. -/
def stopped (ts : Tokens) : Bool := ts.isTripped ts.current

/-- Trip the current token. -/
def stop (ts : Tokens) : Tokens := ts.trip ts.current

/-- Put a fresh token in place of the current one. -/
def renew (ts : Tokens) : Tokens := { ts with current := ts.current + 1 }

end Tokens

/-- The part of the world that the host reaches; `host` is its own state. -/
structure Shared (H : Type) where
  host : H
  store : Store := ∅
  tokens : Tokens := {}

/-- The value of a variable, if one is named and has a value. -/
def Shared.lookup? (s : Shared H) (key : Option String) : Option String :=
  key.bind (s.store[·]?)

mutual
/-- One who hears an event. -/
inductive Subscriber (H : Type) where
  | own (duty : Duty)
  | handler (respond : List BoundInput → Reaction H)

/-- What the host does about a call or an event. -/
inductive Reaction (H : Type) where
  | finish (result : Except RunError Unit)
  | look (rest : Shared H → Reaction H)
  | change (f : Shared H → Shared H) (rest : Reaction H)
  | subscribe (event : String) (subscriber : Subscriber H) (rest : Reaction H)
  /-- Emit an event and go on with the number of its subscribers. -/
  | emit (event : String) (args : List BoundInput) (rest : Nat → Reaction H)
end

namespace Reaction

/-- Nothing more is to be done. -/
def done : Reaction H := .finish (.ok ())

/-- Fail. -/
def fail (e : RunError) : Reaction H := .finish (.error e)

instance : Inhabited (Reaction H) := ⟨done⟩

end Reaction

/-- The world of running programs. -/
structure World (H : Type) where
  shared : Shared H
  /-- Those who hear each event, in the order in which they subscribed. -/
  subscribers : Table (List (Subscriber H)) := ∅
  /-- Bodies that wait to be run, the first one first. -/
  queue : List Body := []
  /-- Whether a body was queued since those who wait for bodies last looked. -/
  signal : Bool := false
  /-- How many calls found their function. -/
  calls : Nat := 0
  /-- How many entry chains and bodies failed. -/
  failures : Nat := 0
  log : List Notice := []

namespace World

/-- Those who hear an event. -/
def subscribersOf (w : World H) (event : String) : List (Subscriber H) :=
  (w.subscribers[event]?).getD []

/-- Add one who hears an event, behind all others. -/
def subscribe (w : World H) (event : String) (s : Subscriber H) : World H :=
  { w with subscribers := w.subscribers.insert event (w.subscribersOf event ++ [s]) }

/-- Queue a body, and tell those who wait for bodies. -/
def enqueue (w : World H) (b : Body) : World H :=
  { w with queue := w.queue ++ [b], signal := true }

/-- Note something. -/
def note (w : World H) (n : Notice) : World H := { w with log := w.log ++ [n] }

/-- Count a call. -/
def countCall (w : World H) : World H := { w with calls := w.calls + 1 }

/-- Note a failure that ends here, and count it. -/
def noteFailure (w : World H) (n : Notice) : World H :=
  { w.note n with failures := w.failures + 1 }

/-- Trip a token. -/
def trip (w : World H) (t : Token) : World H :=
  { w with shared := { w.shared with tokens := w.shared.tokens.trip t } }

/-- Trip the current token. -/
def stop (w : World H) : World H := w.trip w.shared.tokens.current

/-- Set a variable. -/
def setVariable (w : World H) (key value : String) : World H :=
  { w with shared := { w.shared with store := w.shared.store.insert key value } }

end World

end SnapBlocks

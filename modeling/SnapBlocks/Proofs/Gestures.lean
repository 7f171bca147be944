import SnapBlocks.Proofs.Pending

/-! Drags of several blocks at once. Pointers may drag different blocks, so that the events of their
drags arrive mixed; the token keeps them apart. An event that `Strays` leaves the graph as it is, so
that a session with such events goes on as one without them, and from the move by which a block
takes the token to its next release the graph changes only by the events of that block. -/

namespace SnapBlocks

namespace Graph

/-- An event of a drag. -/
inductive Gesture where
  | move (id : BlockId) (position : Point)
  | finish (id : BlockId)
  deriving DecidableEq

/-- What an event of a drag answers. -/
inductive Gesture.Answer where
  | moved (snap : Option Candidate)
  | finished (outcome : DragOutcome)

namespace Gesture

variable {g : Graph} {e : Gesture} {es : List Gesture} {id : BlockId}

/-- The block for which an event arrives. -/
def block : Gesture → BlockId
  | move id _ => id
  | finish id => id

/-- Handle an event. -/
def perform : Gesture → Edit Answer
  | move id position => do return .moved (← dragMove id position)
  | finish id => do return .finished (← dragEnd id)

/-- The graph that an event leaves, also when it fails. -/
def apply (e : Gesture) (g : Graph) : Graph := (e.perform.run g).2

/-- The event arrives while another block holds the token, or ends a drag of a block that does not
hold it. -/
def Strays (e : Gesture) (g : Graph) : Prop :=
  (∃ id, g.drag.active = some id ∧ id ≠ e.block) ∨
    (e = .finish e.block ∧ g.drag.active ≠ some e.block)

/-- What an event answers that strays. -/
def shrug : Gesture → Answer
  | move _ _ => .moved none
  | finish _ => .finished .ignored

theorem any_ne_iff {o : Option BlockId} :
    o.any (fun x => decide (x ≠ id)) = true ↔ ∃ x, o = some x ∧ x ≠ id := by
  simp only [Option.any_eq_true, decide_eq_true_eq]

theorem strays_move {pos : Point} : (move id pos).Strays g ↔
    g.drag.active.any (fun x => decide (x ≠ id)) = true := by
  rw [any_ne_iff]
  constructor
  · intro h
    obtain h | ⟨he, _⟩ := h
    · exact h
    · cases he
  · exact .inl

theorem strays_finish : (finish id).Strays g ↔ g.drag.active ≠ some id := by
  constructor
  · intro h
    obtain ⟨x, hx, hne⟩ | ⟨_, h⟩ := h
    · exact fun heq => hne (Option.some.inj (hx.symm.trans heq))
    · exact h
  · exact fun h => .inr ⟨rfl, h⟩

instance : Decidable (e.Strays g) :=
  match e with
  | move _ _ => decidable_of_iff _ strays_move.symm
  | finish _ => decidable_of_iff _ strays_finish.symm

theorem Strays.of_other (hactive : g.drag.active = some id) (hne : e.block ≠ id) :
    e.Strays g :=
  .inl ⟨id, hactive, hne.symm⟩

/-! ## One event -/

/-- **An event that strays does nothing**, and says so. -/
theorem Strays.run (h : e.Strays g) : e.perform.run g = (.ok e.shrug, g) := by
  cases e with
  | move id pos =>
    have hignored : (dragMove id pos).run g = (.ok none, g) := by
      unfold dragMove
      rw [Edit.run_bind_ok Edit.run_get, if_pos (strays_move.mp h), Edit.run_pure]
    exact Edit.run_bind_ok hignored _
  | finish id =>
    exact Edit.run_bind_ok (dragEnd_idle (strays_finish.mp h)) _

theorem Strays.apply (h : e.Strays g) : e.apply g = g := congrArg Prod.snd h.run

/-- A move that does not stray leaves the token with its block, also when it fails. -/
theorem active_move {pos : Point} (h : ¬ (move id pos).Strays g) :
    ((move id pos).apply g).drag.active = some id := by
  refine Edit.leaves_bind (P := fun k => k.drag.active = some id) ?_ fun _ _ hk => hk
  unfold dragMove
  rw [Edit.run_bind_ok Edit.run_get, if_neg (fun hany => h (strays_move.mpr hany)),
    Edit.run_bind_ok (Edit.run_change _)]
  refine Edit.leaves_bind (P := fun k => k.drag.active = some id) ?_ fun _ k hk => ?_
  · rw [drag_of_frame (frame_hides.moveBlock id pos _)]
  · refine Edit.leaves_ask (P := fun k => k.drag.active = some id) hk fun c _ => ?_
    exact hk

/-- The release of the block that holds the token ends the drag, also when it fails. -/
theorem drag_finish (h : ¬ (finish id).Strays g) : ((finish id).apply g).drag = {} := by
  refine Edit.leaves_bind (P := fun k => k.drag = {}) ?_ fun _ _ hk => hk
  unfold dragEnd
  rw [Edit.run_bind_ok Edit.run_get, if_neg (fun hne => h (strays_finish.mpr hne)),
    Edit.run_bind_ok Edit.run_get, Edit.run_bind_ok (Edit.run_change _)]
  refine Edit.leaves_bind (P := fun k => k.drag = {}) ?_ fun r k hk => ?_
  · rw [drag_of_frame (frame_hides.releaseAbove id _)]
  · split
    · exact hk
    · refine Edit.leaves_bind (P := fun k => k.drag = {}) ?_ fun _ _ hm => hm
      exact (congrArg Graph.drag (frame_hides.connect _ _ k :)).trans hk

/-- While a block holds the token, no event takes it away but the release of that block. -/
theorem active_apply (hactive : g.drag.active = some id) (he : e ≠ .finish id) :
    (e.apply g).drag.active = some id := by
  by_cases hstray : e.Strays g
  · rw [hstray.apply, hactive]
  · have hblock : e.block = id := by_contra fun hne => hstray (.of_other hactive hne)
    subst hblock
    cases e with
    | move id pos => exact active_move hstray
    | finish id => exact absurd rfl he

end Gesture

/-! ## Sessions -/

/-- An event of a session: the graph in which it arrives, what it answers and the graph that it
leaves. -/
structure Occurrence where
  event : Gesture
  before : Graph
  answer : Except GraphError Gesture.Answer
  after : Graph

open Gesture

variable {g : Graph} {e : Gesture} {es fs : List Gesture} {id : BlockId}

/-- The occurrence of an event in a graph. -/
def occurrence (g : Graph) (e : Gesture) : Occurrence :=
  ⟨e, g, (e.perform.run g).1, e.apply g⟩

/-- The graph that events leave. -/
def afterAll (g : Graph) : List Gesture → Graph
  | [] => g
  | e :: es => afterAll (e.apply g) es

/-- The events of a session as they occur. -/
def occurrences (g : Graph) : List Gesture → List Occurrence
  | [] => []
  | e :: es => g.occurrence e :: occurrences (e.apply g) es

/-- The occurrences of the events that do not stray. -/
def heeded (g : Graph) (es : List Gesture) : List Occurrence :=
  (g.occurrences es).filter fun o => ¬ o.event.Strays o.before

theorem afterAll_append : afterAll g (es ++ fs) = afterAll (afterAll g es) fs := by
  induction es generalizing g with
  | nil => rfl
  | cons e es ih => exact ih

theorem heeded_cons_of_strays (h : e.Strays g) : heeded g (e :: es) = heeded g es := by
  calc
    heeded g (e :: es) = heeded (e.apply g) es :=
      List.filter_cons_of_neg fun hkeep => of_decide_eq_true hkeep h
    _ = heeded g es := by rw [h.apply]

theorem heeded_cons_of_not_strays (h : ¬ e.Strays g) :
    heeded g (e :: es) = g.occurrence e :: heeded (e.apply g) es :=
  List.filter_cons_of_pos (decide_eq_true h)

/-- Without the events that stray, the others occur as they did, and the same graph is left. -/
theorem replay_heeded (g : Graph) (es : List Gesture) :
    g.occurrences ((g.heeded es).map (·.event)) = g.heeded es ∧
      g.afterAll ((g.heeded es).map (·.event)) = g.afterAll es := by
  induction es generalizing g with
  | nil => exact ⟨rfl, rfl⟩
  | cons e es ih =>
    obtain ⟨hoccur, hafter⟩ := ih (e.apply g)
    by_cases h : e.Strays g
    · rw [h.apply] at hoccur hafter
      rw [heeded_cons_of_strays h, afterAll, h.apply]
      exact ⟨hoccur, hafter⟩
    · rw [heeded_cons_of_not_strays h]
      exact ⟨congrArg (g.occurrence e :: ·) hoccur, hafter⟩

/-- A drag under way: until its block is let go, it holds the token, and the events of other blocks
do nothing. -/
theorem occurrences_while_active (hactive : g.drag.active = some id) (hes : .finish id ∉ es) :
    (g.afterAll es).drag.active = some id ∧ ∀ o ∈ g.occurrences es,
      o.before.drag.active = some id ∧
        (o.event.block ≠ id → o.answer = .ok o.event.shrug ∧ o.after = o.before) := by
  induction es generalizing g with
  | nil => exact ⟨hactive, fun _ ho => absurd ho List.not_mem_nil⟩
  | cons e es ih =>
    have hnot := List.ne_and_not_mem_of_not_mem_cons hes
    obtain ⟨hend, hrest⟩ := ih (active_apply hactive hnot.1.symm) hnot.2
    refine ⟨hend, fun o ho => ?_⟩
    obtain rfl | ho := List.mem_cons.mp ho
    · refine ⟨hactive, fun hne => ?_⟩
      have hstray : e.Strays g := .of_other hactive hne
      exact ⟨congrArg Prod.fst hstray.run, hstray.apply⟩
    · exact hrest o ho

/-- The token keeps the drags of a session apart. -/
structure Serializes (g : Graph) (es : List Gesture) : Prop where
  /-- Without the events that stray, the others find and leave the graphs that they found and left,
  and answer what they answered. -/
  occurrences : g.occurrences ((g.heeded es).map (·.event)) = g.heeded es
  /-- Without the events that stray, the session ends with the same graph. -/
  afterAll : g.afterAll ((g.heeded es).map (·.event)) = g.afterAll es
  /-- From the move that takes the token for a block to its next release, the block holds it, and
  an event of another block leaves the whole graph as it is. -/
  exclusive {pre mid post : List Gesture} {id : BlockId} {pos : Point} :
    es = pre ++ .move id pos :: mid ++ post → (g.afterAll pre).drag.active = none →
      .finish id ∉ mid →
      ∀ o ∈ ((Gesture.move id pos).apply (g.afterAll pre)).occurrences mid,
        o.before.drag.active = some id ∧
          (o.event.block ≠ id → o.answer = .ok o.event.shrug ∧ o.after = o.before)
  /-- The next release of the block gives up the token and the pending snap, also when it fails. -/
  released {pre mid post : List Gesture} {id : BlockId} {pos : Point} :
    es = pre ++ .move id pos :: mid ++ .finish id :: post →
      (g.afterAll pre).drag.active = none → .finish id ∉ mid →
      (g.afterAll (pre ++ .move id pos :: mid)).drag.active = some id ∧
        (g.afterAll (pre ++ .move id pos :: mid ++ [.finish id])).drag = {}

/-- The token is free: the next move takes it. -/
theorem not_strays_of_idle (hidle : g.drag.active = none) {pos : Point} :
    ¬ (Gesture.move id pos).Strays g := by
  rw [strays_move, hidle]
  exact Bool.false_ne_true

/-- **The drag token serializes drags**, whatever the graph and however the events are mixed. -/
theorem serializes (g : Graph) (es : List Gesture) : g.Serializes es where
  occurrences := (replay_heeded g es).1
  afterAll := (replay_heeded g es).2
  exclusive _ hidle hmid :=
    (occurrences_while_active (active_move (not_strays_of_idle hidle)) hmid).2
  released {pre mid post id pos} _ hidle hmid := by
    have hheld : (g.afterAll (pre ++ .move id pos :: mid)).drag.active = some id := by
      rw [afterAll_append]
      exact (occurrences_while_active (active_move (not_strays_of_idle hidle)) hmid).1
    refine ⟨hheld, ?_⟩
    rw [afterAll_append]
    exact drag_finish fun h => strays_finish.mp h hheld

/-- While the body is dragged, the loop neither moves nor is let go; then the body is put back in
its place. -/
example :
    let es : List Gesture := [.finish "a", .move "b" ⟨0, 232.5⟩, .move "a" ⟨50, 50⟩, .finish "a",
      .move "b" ⟨22.5, 60⟩, .finish "b", .finish "b"]
    (looped.heeded es).map (·.event) =
      [.move "b" ⟨0, 232.5⟩, .move "b" ⟨22.5, 60⟩, .finish "b"] := by
  decide +kernel

end Graph

end SnapBlocks

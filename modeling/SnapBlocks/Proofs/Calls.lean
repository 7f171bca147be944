import SnapBlocks.Program.Compile
import SnapBlocks.Proofs.Table

/-! The calls of a program at every depth, and the chains that they stand in. -/

namespace SnapBlocks

mutual
/-- A call and all that are nested in it. -/
def Call.calls : Call → List Call
  | .mk target block inputs branches scope =>
    .mk target block inputs branches scope :: (Branch.calls branches ++ Scope.calls scope)

/-- The calls of a chain, at every depth. -/
def Chain.calls : List Call → List Call
  | [] => []
  | c :: rest => c.calls ++ Chain.calls rest

/-- The calls of some branches, at every depth. -/
def Branch.calls : List (String × BranchOf Call) → List Call
  | [] => []
  | (_, ⟨_, body⟩) :: rest => Chain.calls body ++ Branch.calls rest

/-- The calls of a scope, at every depth. -/
def Scope.calls : Option (List Call) → List Call
  | none => []
  | some body => Chain.calls body
end

/-- The chains that hang directly inside of a call. -/
def Call.bodies (x : Call) : List Chain := x.branches.map (·.2.body) ++ x.scope.toList

/-- The block of the first call of a chain. -/
def Chain.first? (c : Chain) : Option String := c.head?.map Call.block

/-- The calls of a program, at every depth. -/
def Program.calls (p : Program) : List Call := p.entries.flatMap Chain.calls

/-- The chains of a program, at every depth. -/
def Program.chains (p : Program) : List Chain := p.entries ++ p.calls.flatMap Call.bodies

@[simp] theorem Chain.calls_nil : Chain.calls [] = [] := by rw [Chain.calls]

@[simp] theorem Chain.calls_cons (x : Call) (rest : Chain) :
    Chain.calls (x :: rest) = x.calls ++ Chain.calls rest := by rw [Chain.calls]

theorem Call.calls_eq (x : Call) :
    x.calls = x :: (Branch.calls x.branches ++ Scope.calls x.scope) := by
  obtain ⟨_, _, _, _, _⟩ := x
  rw [Call.calls]
  rfl

@[simp] theorem Scope.calls_none : Scope.calls none = [] := by rw [Scope.calls]

@[simp] theorem Scope.calls_some (c : Chain) : Scope.calls (some c) = Chain.calls c := by
  rw [Scope.calls]

theorem Branch.calls_eq_flatMap (l : List (String × Branch)) :
    Branch.calls l = l.flatMap fun p => Chain.calls p.2.body := by
  induction l with
  | nil => rw [Branch.calls]; rfl
  | cons p rest ih =>
    obtain ⟨_, _, _⟩ := p
    rw [Branch.calls, ih]
    rfl

theorem Chain.calls_eq_flatMap (c : Chain) : Chain.calls c = c.flatMap Call.calls := by
  induction c with
  | nil => rw [Chain.calls]; rfl
  | cons x rest ih => rw [Chain.calls, ih]; rfl

/-! ## Calls in calls -/

section
variable {P : Call → Prop} {x y : Call} {c : Chain}

mutual
/-- What holds of a call whenever it holds of the calls in its bodies holds of every call. -/
theorem Call.induct (h : ∀ x, (∀ c ∈ x.bodies, ∀ y ∈ c, P y) → P x) : ∀ x, P x
  | .mk target block inputs branches scope =>
    h (.mk target block inputs branches scope) fun c hc y hy =>
      (List.mem_append.mp hc).elim
        (fun hc => Branch.induct h branches c hc y hy) fun hc => Scope.induct h scope c hc y hy

theorem Chain.induct (h : ∀ x, (∀ c ∈ x.bodies, ∀ y ∈ c, P y) → P x) :
    ∀ l : List Call, ∀ y ∈ l, P y
  | [], _, hy => absurd hy List.not_mem_nil
  | x :: rest, y, hy => (List.mem_cons.mp hy).elim
      (fun he => he ▸ Call.induct h x) fun hy => Chain.induct h rest y hy

theorem Branch.induct (h : ∀ x, (∀ c ∈ x.bodies, ∀ y ∈ c, P y) → P x) :
    ∀ l : List (String × BranchOf Call), ∀ c ∈ l.map (·.2.body), ∀ y ∈ c, P y
  | [], _, hc => absurd hc List.not_mem_nil
  | (_, ⟨_, body⟩) :: rest, c, hc => (List.mem_cons.mp hc).elim
      (fun he => he ▸ Chain.induct h body) fun hc => Branch.induct h rest c hc

theorem Scope.induct (h : ∀ x, (∀ c ∈ x.bodies, ∀ y ∈ c, P y) → P x) :
    ∀ s : Option (List Call), ∀ c ∈ s.toList, ∀ y ∈ c, P y
  | none, _, hc => absurd hc List.not_mem_nil
  | some body, _, hc => List.mem_singleton.mp hc ▸ Chain.induct h body
end

/-- All calls of a chain, at every depth, have a property. -/
def Chain.All (P : Call → Prop) (c : Chain) : Prop := ∀ x ∈ Chain.calls c, P x

theorem Chain.All.head (h : Chain.All P (x :: c)) : ∀ y ∈ x.calls, P y :=
  fun y hy => h y (by rw [Chain.calls_cons]; exact List.mem_append_left _ hy)

theorem Chain.All.tail (h : Chain.All P (x :: c)) : Chain.All P c :=
  fun y hy => h y (by rw [Chain.calls_cons]; exact List.mem_append_right _ hy)

theorem Chain.All.call (h : Chain.All P c) (hx : x ∈ c) : ∀ y ∈ x.calls, P y :=
  fun y hy => h y (by rw [Chain.calls_eq_flatMap]; exact List.mem_flatMap.mpr ⟨x, hx, hy⟩)

theorem Call.mem_calls_self (x : Call) : x ∈ x.calls := by
  rw [Call.calls_eq]
  exact List.mem_cons_self

theorem Call.bodies_all (h : ∀ y ∈ x.calls, P y) (hc : c ∈ x.bodies) : Chain.All P c := by
  intro y hy
  apply h
  rw [Call.calls_eq]
  refine .tail _ (List.mem_append.mpr ?_)
  rcases List.mem_append.mp hc with hc | hc
  · obtain ⟨p, hp, rfl⟩ := List.mem_map.mp hc
    rw [Branch.calls_eq_flatMap]
    exact .inl (List.mem_flatMap.mpr ⟨p, hp, hy⟩)
  · rw [Option.mem_toList.mp hc, Scope.calls_some]
    exact .inr hy

end

/-! ## Branches by segment -/

section
variable {α : Type} {k : String} {v : α} {l : List (String × α)}

theorem insertSorted_perm (h : k ∉ l.map (·.1)) : (insertSorted k v l).Perm ((k, v) :: l) := by
  induction l with
  | nil => exact .refl _
  | cons p rest ih =>
    rw [List.map_cons, List.mem_cons, not_or] at h
    unfold insertSorted
    split
    · exact .refl _
    · rw [if_neg h.1]
      exact ((ih h.2).cons p).trans (.swap ..)

theorem mem_keys_insertSorted {a : String} :
    a ∈ (insertSorted k v l).map (·.1) ↔ a = k ∨ a ∈ l.map (·.1) := by
  induction l with
  | nil => simp [insertSorted]
  | cons p rest ih =>
    unfold insertSorted
    split
    · simp
    · split
      next he => simp [he]
      next => simp only [List.map_cons, List.mem_cons, ih]; tauto

theorem insertSorted_ascending (h : Ascending l) : Ascending (insertSorted k v l) := by
  induction l with
  | nil => exact List.pairwise_singleton ..
  | cons p rest ih =>
    obtain ⟨hp, hrest⟩ := List.pairwise_cons.mp h
    unfold insertSorted
    split
    next hlt =>
      refine List.pairwise_cons.mpr ⟨fun q hq => ?_, h⟩
      rcases List.mem_cons.mp hq with rfl | hq
      · exact hlt
      · exact String.lt_trans hlt (hp q hq)
    next hge =>
      split
      next he => exact List.pairwise_cons.mpr ⟨fun q hq => he ▸ hp q hq, hrest⟩
      next hne =>
        refine List.pairwise_cons.mpr ⟨fun q hq => ?_, ih hrest⟩
        have hkey : q.1 ∈ (insertSorted k v rest).map (·.1) := List.mem_map_of_mem hq
        rcases mem_keys_insertSorted.mp hkey with he | hm
        · rw [he]
          exact Std.lt_of_le_of_ne (String.not_lt.mp hge) (Ne.symm hne)
        · obtain ⟨r, hr, he⟩ := List.mem_map.mp hm
          exact he ▸ hp r hr

end

private theorem foldl_insertSorted_perm {l acc : List (String × Branch)}
    (hn : (l.map (·.1)).Nodup) (hd : ∀ k ∈ l.map (·.1), k ∉ acc.map (·.1)) :
    (l.foldl (fun acc p => insertSorted p.1 p.2 acc) acc).Perm (acc ++ l) := by
  induction l generalizing acc with
  | nil => simp
  | cons p rest ih =>
    rw [List.map_cons, List.nodup_cons] at hn
    have hp : p.1 ∉ acc.map (·.1) := hd _ (by simp)
    refine (ih hn.2 fun k hk hm => ?_).trans ?_
    · rcases mem_keys_insertSorted.mp hm with rfl | hm
      · exact hn.1 hk
      · exact hd k (by simp only [List.map_cons]; exact .tail _ hk) hm
    · exact ((insertSorted_perm hp).append_right rest).trans List.perm_middle.symm

/-- With distinct segments no branch is lost. -/
theorem Compile.bySegment_perm {l : List (String × Branch)} (hn : (l.map (·.1)).Nodup) :
    (Compile.bySegment l).Perm l := by
  have hperm : (bySegment l).Perm ([] ++ l) := foldl_insertSorted_perm hn (by simp)
  rwa [List.nil_append] at hperm

theorem Compile.bySegment_ascending (l : List (String × Branch)) :
    Ascending (Compile.bySegment l) := by
  unfold bySegment
  suffices ∀ acc : List (String × Branch), Ascending acc →
      Ascending (l.foldl (fun acc p => insertSorted p.1 p.2 acc) acc) from this [] .nil
  induction l with
  | nil => exact fun acc h => h
  | cons p rest ih => exact fun acc h => ih _ (insertSorted_ascending h)

/-! ## Steps of a compilation -/

namespace Compile

variable {α β : Type} {m : Step α} {f : α → Step β} {a : α} {b : β} {v w : TextSet}

/-- A sequence that succeeds does so step by step. -/
theorem run_bind_eq_ok (h : (m >>= f).run v = .ok (b, w)) :
    ∃ a u, m.run v = .ok (a, u) ∧ (f a).run u = .ok (b, w) := by
  rw [StateT.run_bind] at h
  cases hm : m.run v with
  | error e => rw [hm] at h; cases h
  | ok p =>
    rw [hm] at h
    exact ⟨p.1, p.2, rfl, h⟩

theorem run_pure_eq_ok (h : (pure a : Step α).run v = .ok (c, w)) : c = a ∧ v = w := by
  cases h
  exact ⟨rfl, rfl⟩

theorem run_ask_eq_ok {r : Except GraphError α} (h : (ask r).run v = .ok (a, w)) :
    r = .ok a ∧ v = w := by
  cases r with
  | error e => cases h
  | ok c => cases h; exact ⟨rfl, rfl⟩

/-- A block is compiled once. -/
theorem run_visit_eq_ok {start id : BlockId} {a : Unit} (h : (visit start id).run v = .ok (a, w)) :
    id ∉ v ∧ w = v.insert id := by
  unfold visit at h
  obtain ⟨u, v', hget, h⟩ := run_bind_eq_ok h
  cases hget
  split at h
  · cases h
  next hno =>
    cases h
    exact ⟨fun hm => hno (Std.ExtTreeSet.mem_iff_contains.mp hm), rfl⟩

end Compile

end SnapBlocks

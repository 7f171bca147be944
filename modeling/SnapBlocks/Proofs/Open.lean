import SnapBlocks.Proofs.Act
import SnapBlocks.Proofs.Moves
import Mathlib.Algebra.Ring.Nat
import Mathlib.Data.List.Flatten

/-! What is left of a thread once its program was stopped. A call is open if it stands outside of
all scopes and of all loop bodies. A thread whose program was stopped makes open calls only, each of
them once: a step takes the call that it makes off those that are left, and costs something. -/

namespace SnapBlocks

variable {H : Type} {w w' : World H} {em : Emitter H} {c : Call} {t u : Thread H} {a : Advance H}
variable {library : Library H} {n n' : Nat}

/-! ## Open calls -/

mutual
/-- A call and the open ones that are nested in it. -/
def Call.openCalls : Call → List Call
  | .mk target block inputs branches scope =>
    .mk target block inputs branches scope :: Branch.openCalls branches

/-- The open calls of a chain: those that stand outside of scopes, and of branches other than the
ones that a condition guards. -/
def Chain.openCalls : List Call → List Call
  | [] => []
  | c :: rest => c.openCalls ++ Chain.openCalls rest

/-- The open calls of some branches. -/
def Branch.openCalls : List (String × BranchOf Call) → List Call
  | [] => []
  | (_, ⟨name, body⟩) :: rest =>
    (if name = "if" ∨ name = "elif" then Chain.openCalls body else []) ++ Branch.openCalls rest
end

@[simp] theorem Chain.openCalls_nil : Chain.openCalls [] = [] := by rw [Chain.openCalls]

@[simp] theorem Chain.openCalls_cons (x : Call) (rest : Chain) :
    Chain.openCalls (x :: rest) = x.openCalls ++ Chain.openCalls rest := by rw [Chain.openCalls]

theorem Call.openCalls_eq (x : Call) : x.openCalls = x :: Branch.openCalls x.branches := by
  obtain ⟨_, _, _, _, _⟩ := x
  rw [Call.openCalls]
  rfl

/-- The branches that a condition guards. -/
def Call.arms (x : Call) : List Branch :=
  (x.branches.map (·.2)).filter fun b => b.segmentName = "if" ∨ b.segmentName = "elif"

theorem Branch.openCalls_eq_flatMap (l : List (String × Branch)) :
    Branch.openCalls l = ((l.map (·.2)).filter fun b =>
      b.segmentName = "if" ∨ b.segmentName = "elif").flatMap fun b => Chain.openCalls b.body := by
  induction l with
  | nil => rw [Branch.openCalls]; rfl
  | cons p rest ih =>
    obtain ⟨_, name, body⟩ := p
    rw [Branch.openCalls, ih, List.map_cons, List.filter_cons]
    by_cases h : name = "if" ∨ name = "elif" <;> simp [h]

mutual
theorem Call.openCalls_sublist : ∀ x : Call, x.openCalls.Sublist x.calls
  | .mk target block inputs branches scope => by
    rw [Call.openCalls, Call.calls]
    exact ((Branch.openCalls_sublist branches).trans (List.sublist_append_left ..)).cons_cons _

theorem Chain.openCalls_sublist : ∀ c : List Call, (Chain.openCalls c).Sublist (Chain.calls c)
  | [] => by rw [Chain.openCalls, Chain.calls]
  | x :: rest => by
    rw [Chain.openCalls, Chain.calls]
    exact (Call.openCalls_sublist x).append (Chain.openCalls_sublist rest)

theorem Branch.openCalls_sublist :
    ∀ l : List (String × BranchOf Call), (Branch.openCalls l).Sublist (Branch.calls l)
  | [] => by rw [Branch.openCalls, Branch.calls]
  | (_, ⟨name, body⟩) :: rest => by
    rw [Branch.openCalls, Branch.calls]
    refine List.Sublist.append ?_ (Branch.openCalls_sublist rest)
    split
    · exact Chain.openCalls_sublist body
    · exact List.nil_sublist _
end

/-! ## The work that a call leaves -/

theorem subperm_flatMap {α β : Type} {l l' : List α} (h : l.Subperm l') (f : α → List β) :
    (l.flatMap f).Subperm (l'.flatMap f) := by
  obtain ⟨k, hperm, hsub⟩ := h
  exact ⟨k.flatMap f, hperm.flatMap_right f, hsub.flatMap f⟩

theorem subperm_map {α β : Type} {l l' : List α} (h : l.Subperm l') (f : α → β) :
    (l.map f).Subperm (l'.map f) := by
  obtain ⟨k, hperm, hsub⟩ := h
  exact ⟨k.map f, hperm.map f, hsub.map f⟩

/-- The work that a call leaves is a part of the call: bodies of at most two branches that a
condition guards, or the body of a loop. Or it is what the host does about the call. -/
inductive Work.Within (library : Library H) (c : Call) : Work H → Prop
  | none : Within library c .none
  | arms {as : List Arm} : (as.map (·.body.chain)).Subperm (c.arms.map (·.body)) →
      as.length ≤ 2 → Within library c (.arms as)
  | loop {l : Loop} : l.body.chain ∈ c.bodies → Within library c (.loop l)
  | task {t : Task H} : c.task? library = some t → Within library c (.task t)

theorem Call.branch?_eq (c : Call) (segment : String) :
    c.branch? segment = (c.branches.map (·.2)).find? (·.segmentName = segment) := by
  rw [List.find?_map]
  rfl

theorem Call.branch?_sublist {segment : String} (h : segment = "if" ∨ segment = "elif") :
    (c.branch? segment).toList.Sublist (c.arms.filter (·.segmentName = segment)) := by
  have hfilter : c.arms.filter (·.segmentName = segment) =
      (c.branches.map (·.2)).filter (·.segmentName = segment) := by
    unfold arms
    rw [List.filter_filter]
    refine List.filter_congr fun b _ => ?_
    rcases h with rfl | rfl <;> by_cases hb : b.segmentName = "if" <;> simp [hb]
  rw [branch?_eq, hfilter, ← List.head?_filter]
  cases (c.branches.map (·.2)).filter (·.segmentName = segment) with
  | nil => exact .slnil
  | cons b rest => exact (List.nil_sublist rest).cons_cons b

/-- The two branches with conditions are two of the branches that a condition guards. -/
theorem Call.branches_subperm (c : Call) :
    ((c.branch? "if").toList ++ (c.branch? "elif").toList).Subperm c.arms := by
  have hother : (c.arms.filter (·.segmentName = "elif")).Sublist
      (c.arms.filter fun b => ! (b.segmentName = "if" : Bool)) := by
    refine List.monotone_filter_right _ fun b hb => ?_
    rw [of_decide_eq_true hb]
    decide
  have hsublist := (branch?_sublist (c := c) (.inl rfl)).append
    ((branch?_sublist (c := c) (.inr rfl)).trans hother)
  exact hsublist.subperm.trans (List.filter_append_perm _ c.arms).subperm

theorem Call.arm?_chain (c : Call) (segment : String) (l : List BoundInput) :
    (c.arm? segment l).toList.map (·.body.chain) = (c.branch? segment).toList.map (·.body) := by
  unfold arm? body?
  cases c.branch? segment <;> rfl

theorem Call.body?_mem_bodies {segment : String} {b : Body} (h : c.body? segment = some b) :
    b.chain ∈ c.bodies := by
  obtain ⟨branch, hbranch, rfl⟩ := Option.map_eq_some_iff.mp h
  obtain ⟨p, hp, rfl⟩ := Option.map_eq_some_iff.mp hbranch
  exact List.mem_append_left _ (List.mem_map.mpr ⟨p, List.mem_of_find?_eq_some hp, rfl⟩)

theorem Builtin.Does.within {s : Shared H} {b : Builtin} {k : Work H} (h : Does c s b (.leave k)) :
    k.Within library c := by
  cases h with
  | nothing => exact .none
  | loop _ hbody => exact .loop (Call.body?_mem_bodies hbody)
  | @arms first second =>
    refine .arms ?_ ?_
    · rw [List.map_append, c.arm?_chain, c.arm?_chain, ← List.map_append]
      exact subperm_map c.branches_subperm _
    · rw [List.length_append]
      exact Nat.add_le_add Option.length_toList_le Option.length_toList_le
  | @arm l =>
    refine .arms ?_ (Nat.le_trans Option.length_toList_le (by decide))
    rw [c.arm?_chain]
    have hfirst := (List.sublist_append_left _ _).subperm.trans c.branches_subperm
    exact subperm_map hfirst _

theorem Call.work_within {k : Work H} (h : (c.effect library em).run w = some (.ok k, w')) :
    k.Within library c := by
  rcases c.effect_leaves _ _ h k rfl with ⟨_, _, hdoes⟩ | ⟨t, ht, rfl⟩
  · exact hdoes.within
  · exact .task ht

/-! ## What is left of a thread -/

/-- The open calls that a frame leaves to a thread whose program was stopped. Loops run no more, and
functions of the host run no bodies. -/
def Frame.openCalls : Frame H → List Call
  | .calls rest => Chain.openCalls rest
  | .boundary _ => []
  | .arms rest => rest.flatMap fun a => Chain.openCalls a.body.chain
  | .loop _ => []
  | .check _ l => Chain.openCalls l.body.chain
  | .task _ _ => []

/-- The open calls of a thread. -/
def Thread.openCalls (t : Thread H) : List Call := t.flatMap Frame.openCalls

/-- A bound on the steps that a frame takes once its program was stopped, but for those in which a
function of the host goes on. -/
def Frame.cost : Frame H → Nat
  | .calls rest => 10 * (Chain.openCalls rest).length + 1
  | .boundary _ => 2
  | .arms rest => 10 * (rest.flatMap fun a => Chain.openCalls a.body.chain).length +
      4 * rest.length + 1
  | .loop _ => 1
  | .check _ l => 10 * (Chain.openCalls l.body.chain).length + 5
  | .task _ _ => 1

theorem Frame.cost_pos (f : Frame H) : 0 < f.cost := by
  cases f <;> exact Nat.succ_pos _

/-- A bound on the steps that a thread takes once its program was stopped, but for those in which a
function of the host goes on. -/
def Thread.cost (t : Thread H) : Nat := (t.map Frame.cost).sum + 1

/-- The threads that go on after a step. -/
def Advance.threads (a : Advance H) : List (Thread H) := a.jobs.filterMap Job.thread?

namespace Thread

@[simp] theorem openCalls_nil : Thread.openCalls ([] : Thread H) = [] := rfl

@[simp] theorem openCalls_cons (f : Frame H) (t : Thread H) :
    Thread.openCalls (f :: t) = f.openCalls ++ t.openCalls := List.flatMap_cons

@[simp] theorem openCalls_append (t u : Thread H) :
    Thread.openCalls (t ++ u) = t.openCalls ++ u.openCalls := List.flatMap_append

theorem cost_pos (t : Thread H) : 0 < t.cost := Nat.succ_pos _

@[simp] theorem cost_nil : Thread.cost ([] : Thread H) = 1 := rfl

@[simp] theorem cost_cons (f : Frame H) (t : Thread H) :
    Thread.cost (f :: t) = f.cost + t.cost := by
  unfold cost
  rw [List.map_cons, List.sum_cons, Nat.add_assoc]

theorem openCalls_body (b : Body) : Thread.openCalls (b.frames : Thread H) = Chain.openCalls b.chain :=
  List.append_nil _

/-- A failure leaves the end of a thread behind a boundary, or nothing. -/
theorem unwind_cases {b : Boundary H} (h : unwind t = (b, u)) :
    b = .outside ∧ u = [] ∨ .boundary b :: u <:+ t := by
  fun_induction SnapBlocks.unwind t with
  | case1 =>
    cases h
    exact .inl ⟨rfl, rfl⟩
  | case2 =>
    cases h
    exact .inr (List.suffix_refl _)
  | case3 _ _ _ ih => exact (ih h).imp_right fun hs => hs.trans (List.suffix_cons _ _)

theorem suffix_of_unwind {b : Boundary H} (h : unwind t = (b, u)) : u <:+ t := by
  rcases unwind_cases h with ⟨_, rfl⟩ | hs
  · exact List.nil_suffix
  · exact (List.suffix_cons _ _).trans hs

theorem openCalls_resume (b : Boundary H) (r : Except RunError Unit) (s : Shared H)
    (t : Thread H) : Thread.openCalls (b.resume r s ++ t) = t.openCalls := by
  cases b <;> rfl

theorem cost_resume_lt (b : Boundary H) (r : Except RunError Unit) (s : Shared H) (t : Thread H) :
    (b.resume r s ++ t).cost < Thread.cost (.boundary b :: t) := by
  cases b <;> simp only [Boundary.resume, List.nil_append, List.cons_append, cost_cons,
    Frame.cost] <;> omega

theorem cost_le_of_suffix (h : u <:+ t) : u.cost ≤ t.cost := by
  obtain ⟨before, rfl⟩ := h
  unfold Thread.cost
  rw [List.map_append, List.sum_append]
  omega

/-- What a failure leaves of a thread has no more open calls than the thread had. -/
theorem openCalls_unwind {b : Boundary H} {r : Except RunError Unit} {s : Shared H}
    (h : unwind t = (b, u)) : (b.resume r s ++ u).openCalls.Sublist t.openCalls := by
  rw [openCalls_resume]
  obtain ⟨before, rfl⟩ := suffix_of_unwind h
  rw [openCalls_append]
  exact List.sublist_append_right _ _

theorem cost_unwind {b : Boundary H} {r : Except RunError Unit} {s : Shared H}
    (h : unwind t = (b, u)) (hb : b ≠ .outside) : (b.resume r s ++ u).cost < t.cost := by
  rcases unwind_cases h with ⟨hout, _⟩ | hs
  · exact absurd hout hb
  · exact Nat.lt_of_lt_of_le (cost_resume_lt b r s u) (cost_le_of_suffix hs)

end Thread

/-- The work that a call leaves has its open calls in those of the call. -/
theorem Work.Within.openCalls_subperm {k : Work H} (h : k.Within library c) :
    (Thread.openCalls k.frames).Subperm (Branch.openCalls c.branches) := by
  cases h with
  | none | loop | task => exact List.nil_subperm
  | @arms as has _ =>
    have hflat := subperm_flatMap has Chain.openCalls
    rw [List.flatMap_map, List.flatMap_map] at hflat
    rw [Branch.openCalls_eq_flatMap]
    exact (List.Perm.of_eq (List.append_nil _)).subperm.trans hflat

theorem Work.Within.cost_le {k : Work H} (h : k.Within library c) (t : Thread H) :
    (k.frames ++ t).cost ≤ 10 * (Branch.openCalls c.branches).length + 9 + t.cost := by
  have hlen := h.openCalls_subperm.length_le
  cases h with
  | none => exact Nat.le_add_left ..
  | loop | task =>
    simp only [Work.frames, List.cons_append, List.nil_append, Thread.cost_cons, Frame.cost]
    omega
  | @arms as _ htwo =>
    simp only [Work.frames, List.cons_append, List.nil_append, Thread.cost_cons, Frame.cost,
      Thread.openCalls_cons, Thread.openCalls_nil, Frame.openCalls, List.append_nil] at hlen ⊢
    omega

/-- A function of the host goes on in a step of a thread, and does not run a body. -/
def Thread.Answers (t : Thread H) (a : Advance H) : Prop :=
  ∃ x replies reply k, t = .task x replies :: k ∧ a.threads = [.task x (replies ++ [reply]) :: k] ∧
    ∀ result, x replies ≠ .finish result

/-- A step of a thread whose program was stopped: the call that it makes is none of those that are
left, and the thread gets shorter unless a function of the host goes on. -/
structure Thread.Winds (t : Thread H) (a : Advance H) : Prop where
  calls : (t.calling?.toList ++ a.threads.flatMap openCalls).Subperm t.openCalls
  cost : (a.threads.map Thread.cost).sum < t.cost ∨ t.Answers a

namespace Thread.Winds

theorem on (hcalls : (t.calling?.toList ++ u.openCalls).Subperm t.openCalls)
    (hcost : u.cost < t.cost) : t.Winds (.on u) where
  calls := by
    cases u with
    | nil => exact hcalls
    | cons f u =>
      refine List.Subperm.trans (List.Perm.subperm ?_) hcalls
      exact (List.Perm.of_eq (List.append_nil _)).append_left _
  cost := by
    cases u with
    | nil => exact .inl t.cost_pos
    | cons f u => exact .inl hcost

/-- A step that makes no call leaves a part of the thread. -/
theorem rest {f : Frame H} (hf : Thread.calling? (f :: u) = none) :
    Thread.Winds (f :: u) (.on u) := by
  refine .on ?_ ?_
  · rw [hf]
    exact (List.sublist_append_right _ _).subperm
  · rw [cost_cons]
    exact Nat.lt_add_of_pos_left f.cost_pos

theorem fail {e : RunError} {f : Frame H} (hf : (Thread.calling? (f :: u)).toList.Subperm f.openCalls)
    (h : SnapBlocks.fail e u w = (a, w')) : Thread.Winds (f :: u) a := by
  rcases fail_cases h with ⟨_, _, rfl, rfl⟩ | ⟨b, v, hunwind, hb, rfl, rfl⟩
  · refine ⟨?_, .inl (cost_pos _)⟩
    rw [openCalls_cons]
    exact hf.append List.nil_subperm
  · refine .on ?_ ?_
    · rw [openCalls_cons]
      exact hf.append (openCalls_unwind hunwind).subperm
    · rw [cost_cons]
      exact Nat.lt_of_lt_of_le (cost_unwind hunwind hb) (Nat.le_add_left _ _)

/-- A function of the host goes on. -/
theorem answer {x : Task H} {replies : List (Reply H)} {reply : Reply H} {k : Thread H}
    (ha : a.threads = [.task x (replies ++ [reply]) :: k]) (hx : ∀ r, x replies ≠ .finish r) :
    Thread.Winds (.task x replies :: k) a where
  calls := by
    rw [ha, List.flatMap_singleton]
    exact List.Subperm.refl _
  cost := .inr ⟨x, replies, reply, k, rfl, ha, hx⟩

end Thread.Winds

/-- A thread whose function of the host, if it is in one, does not run a body next. -/
def Thread.Inert (t : Thread H) : Prop :=
  ∀ x replies k isolated b, t = .task x replies :: k → x replies ≠ .invoke isolated b

/-- **A stopped thread winds down**, unless a function of the host runs a body. -/
theorem advance_winds (hstop : w.shared.tokens.stopped) (hinert : t.Inert)
    (h : advance library em t w = some (a, w')) : t.Winds a := by
  have hself (c : Call) (cs : List Call) (k : Thread H) :
      (Thread.calling? (.calls (c :: cs) :: k)).toList = [c] := rfl
  have hcalls (c : Call) (cs : List Call) : Frame.openCalls (.calls (c :: cs) : Frame H) =
      c :: (Branch.openCalls c.branches ++ Chain.openCalls cs) := by
    rw [Frame.openCalls, Chain.openCalls_cons, Call.openCalls_eq, List.cons_append]
  cases advances_of_advance h with
  | ended => exact ⟨List.nil_subperm, .inl Nat.one_pos⟩
  | @called c cs k work _ hrun =>
    have hwork := Call.work_within hrun
    refine .on ?_ ?_
    · rw [hself, Thread.openCalls_append, Thread.openCalls_cons, Thread.openCalls_cons, hcalls,
        List.singleton_append, List.cons_append, List.append_assoc]
      refine (List.subperm_cons c).mpr (hwork.openCalls_subperm.append ?_)
      exact List.Subperm.refl _
    · refine Nat.lt_of_le_of_lt (hwork.cost_le _) ?_
      simp only [Thread.cost_cons, Frame.cost, Chain.openCalls_cons, Call.openCalls_eq,
        List.length_cons, List.length_append]
      omega
  | failed hfails hfail =>
    cases hfails with
    | call =>
      refine .fail ?_ hfail
      rw [hself, hcalls]
      exact (List.singleton_sublist.mpr List.mem_cons_self).subperm
    | task => exact .fail List.nil_subperm hfail
  | calls | arms | leaves | ends | finishes => exact .rest rfl
  | @boundary b k =>
    refine .on ?_ (Thread.cost_resume_lt b _ _ k)
    rw [Thread.openCalls_resume]
    exact List.Subperm.refl _
  | enters =>
    refine .on ?_ ?_
    · refine List.Perm.subperm (.of_eq ?_)
      change Thread.openCalls _ = _
      rw [Thread.openCalls_append, Thread.openCalls_body, Thread.openCalls_cons,
        Thread.openCalls_cons, ← List.append_assoc]
      rfl
    · simp only [Body.frames, List.cons_append, List.nil_append, Thread.cost_cons, Frame.cost,
        List.flatMap_cons, List.length_append, List.length_cons]
      omega
  | passes =>
    refine .on ?_ ?_
    · rw [Thread.openCalls_cons, Thread.openCalls_cons, Frame.openCalls, Frame.openCalls,
        List.flatMap_cons, List.append_assoc]
      exact (List.sublist_append_right _ _).subperm
    · simp only [Thread.cost_cons, Frame.cost, List.flatMap_cons, List.length_append,
        List.length_cons]
      omega
  | pauses hgoes =>
    rw [hstop] at hgoes
    cases hgoes
  | repeats =>
    refine .on ?_ ?_
    · refine List.Perm.subperm (.of_eq ?_)
      rw [Thread.openCalls_append, Thread.openCalls_body, Thread.openCalls_cons,
        Thread.openCalls_cons]
      rfl
    · simp only [Body.frames, List.cons_append, List.nil_append, Thread.cost_cons, Frame.cost]
      omega
  | reacts hnext => exact .answer rfl fun _ => by rw [hnext]; nofun
  | waits hnext => exact .answer rfl fun _ => by rw [hnext]; nofun
  | invokes hnext => exact absurd hnext (hinert _ _ _ _ _ rfl)

end SnapBlocks

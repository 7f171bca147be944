import SnapBlocks.Proofs.Open
import SnapBlocks.Proofs.Terms

/-! Where threads come from. A thread is what a step leaves of a thread, or it begins with an entry
chain or with a body that was queued. All that it runs is a part of the chain that it began with, or
a body that a function of the host runs: what terms say of the calls of these holds of those of the
thread. If no such function runs bodies, the thread has no more open calls than the chain has calls,
whatever worlds it has come through. -/

namespace SnapBlocks

variable {H : Type} {w w' : World H} {em : Emitter H} {c : Call} {t u : Thread H} {a : Advance H}
variable {library : Library H} {n n' : Nat}

/-- What a step leaves of a thread, whatever the world is. -/
inductive Thread.Becomes (library : Library H) : Thread H → Thread H → Prop
  | stays : Becomes library [] []
  | drops {f : Frame H} {k : Thread H} : Becomes library (f :: k) k
  | works {c : Call} {cs : List Call} {k : Thread H} {work : Work H} : work.Within library c →
      Becomes library (.calls (c :: cs) :: k) (work.frames ++ .calls cs :: k)
  | unwinds {f : Frame H} {k l : Thread H} {b : Boundary H} {result : Except RunError Unit}
      {shared : Shared H} : unwind k = (b, l) →
      Becomes library (f :: k) (b.resume result shared ++ l)
  | returns {b : Boundary H} {k : Thread H} {result : Except RunError Unit} {shared : Shared H} :
      Becomes library (.boundary b :: k) (b.resume result shared ++ k)
  | enters {a : Arm} {arms : List Arm} {k : Thread H} :
      Becomes library (.arms (a :: arms) :: k) (a.body.frames ++ .arms arms :: k)
  | passes {a : Arm} {arms : List Arm} {k : Thread H} :
      Becomes library (.arms (a :: arms) :: k) (.arms arms :: k)
  | pauses {token : Token} {l : Loop} {k : Thread H} :
      Becomes library (.loop l :: k) (.check token l :: k)
  | repeats {token : Token} {l : Loop} {k : Thread H} :
      Becomes library (.check token l :: k) (l.body.frames ++ .loop l :: k)
  | answers {x : Task H} {replies : List (Reply H)} {reply : Reply H} {k : Thread H} :
      (∀ result, x replies ≠ .finish result) →
      Becomes library (.task x replies :: k) (.task x (replies ++ [reply]) :: k)
  | invokes {x : Task H} {replies : List (Reply H)} {isolated : Bool} {b : Body}
      {label : Option String} {k : Thread H} : x replies = .invoke isolated b →
      Becomes library (.task x replies :: k)
        (.calls b.chain :: .boundary (.task label x replies) :: k)

theorem Advance.eq_of_mem_threads_on (h : t ∈ (Advance.on u).threads) : t = u := by
  cases u with
  | nil => cases h
  | cons f u => exact List.mem_singleton.mp h

/-- What a step leaves is what a thread becomes, whatever the world was. -/
theorem advance_becomes (h : advance library em t w = some (a, w')) :
    ∀ u ∈ a.threads, t.Becomes library u := by
  have hon {u : Thread H} (hu : t.Becomes library u) :
      ∀ v ∈ (Advance.on u).threads, t.Becomes library v :=
    fun v hv => Advance.eq_of_mem_threads_on hv ▸ hu
  cases advances_of_advance h with
  | ended => exact hon .stays
  | called hrun => exact hon (.works (Call.work_within hrun))
  | failed hfails hfail =>
    obtain ⟨f, rfl⟩ := hfails.eq_cons
    rcases fail_cases hfail with ⟨_, _, rfl, _⟩ | ⟨b, l, hunwind, _, rfl, _⟩
    · exact nofun
    · exact hon (.unwinds hunwind)
  | calls | arms | leaves | ends | finishes => exact hon .drops
  | boundary => exact hon .returns
  | enters => exact hon .enters
  | passes => exact hon .passes
  | pauses =>
    intro v hv
    cases List.mem_singleton.mp hv
    exact .pauses
  | repeats => exact hon .repeats
  | reacts hnext =>
    refine hon (.answers ?_)
    rw [hnext]
    exact nofun
  | waits hnext =>
    intro v hv
    cases List.mem_singleton.mp hv
    refine .answers ?_
    rw [hnext]
    exact nofun
  | invokes hnext => exact hon (.invokes hnext)

/-- A thread pauses only at the top of a loop, with the current token, and only if that one is not
tripped, or where a function of the host waits. -/
theorem advance_pause {token : Option Token}
    (h : advance library em t w = some (.pause token u, w')) : w' = w ∧
      ((token = some w.shared.tokens.current ∧ w.shared.tokens.stopped = false ∧
        ∃ l k, t = .loop l :: k ∧ u = .check w.shared.tokens.current l :: k) ∨
      token = none ∧ ∃ x replies reply k, t = .task x replies :: k ∧ x replies = .pause ∧
        u = .task x (replies ++ [reply]) :: k) := by
  cases advances_of_advance h with
  | failed _ hfail =>
    rcases fail_cases hfail with ⟨_, _, ha, _⟩ | ⟨_, _, _, _, ha, _⟩
    · cases ha
    · cases ha
  | @pauses l k hrunning => exact ⟨rfl, .inl ⟨rfl, hrunning, l, k, rfl, rfl⟩⟩
  | waits hnext => exact ⟨rfl, .inr ⟨rfl, _, _, _, _, rfl, hnext, rfl⟩⟩

/-! ## The calls of a thread -/

/-- What goes on at a boundary keeps to terms. -/
def Boundary.Respects (R : Terms H) : Boundary H → Prop
  | .task _ t _ => t.Respects R
  | _ => True

/-- What a frame has still to run is made of calls that terms allow, and of functions of the host
that keep to them. -/
def Frame.Respects (R : Terms H) : Frame H → Prop
  | .calls rest => Chain.All R.calls rest
  | .boundary b => b.Respects R
  | .arms rest => ∀ a ∈ rest, Chain.All R.calls a.body.chain
  | .loop l => Chain.All R.calls l.body.chain
  | .check _ l => Chain.All R.calls l.body.chain
  | .task t _ => t.Respects R

/-- What a thread has still to run keeps to terms. -/
def Thread.Respects (R : Terms H) (t : Thread H) : Prop := ∀ f ∈ t, f.Respects R

section
variable {R : Terms H}

namespace Thread.Respects

variable {f : Frame H}

theorem head (h : Thread.Respects R (f :: t)) : f.Respects R := h f List.mem_cons_self

theorem tail (h : Thread.Respects R (f :: t)) : Thread.Respects R t := fun g hg => h g (.tail _ hg)

theorem cons (hf : f.Respects R) (h : Thread.Respects R t) : Thread.Respects R (f :: t) := by
  intro g hg
  rcases List.mem_cons.mp hg with rfl | hg
  · exact hf
  · exact h g hg

theorem append (h : Thread.Respects R t) (h' : Thread.Respects R u) :
    Thread.Respects R (t ++ u) := fun g hg => (List.mem_append.mp hg).elim (h g) (h' g)

/-- A chain up to a boundary. -/
theorem chain {c : Chain} {b : Boundary H} (hc : Chain.All R.calls c) (hb : b.Respects R) :
    Thread.Respects R [.calls c, .boundary b] := .cons hc (.cons hb nofun)

theorem body {b : Body} (hb : Chain.All R.calls b.chain) : Thread.Respects R (b.frames : Thread H) :=
  .chain hb trivial

theorem resume {b : Boundary H} {result : Except RunError Unit} {shared : Shared H}
    (hb : b.Respects R) (h : Thread.Respects R t) :
    Thread.Respects R (b.resume result shared ++ t) := by
  cases b with
  | task => exact .cons hb h
  | _ => exact h

theorem unwind {b : Boundary H} (h : Thread.Respects R t) (hu : unwind t = (b, u)) :
    b.Respects R ∧ Thread.Respects R u := by
  rcases Thread.unwind_cases hu with ⟨rfl, rfl⟩ | ⟨before, rfl⟩
  · exact ⟨trivial, nofun⟩
  · have hend : Thread.Respects R (.boundary b :: u) :=
      fun f hf => h f (List.mem_append_right _ hf)
    exact ⟨hend.head, hend.tail⟩

end Thread.Respects

/-- The work that a call leaves is made of what is nested in the call, or it is what the host does. -/
theorem Work.Within.respects (hl : library.Respects R) {k : Work H} (h : k.Within library c)
    (hc : ∀ x ∈ c.calls, R.calls x) : Thread.Respects R k.frames := by
  cases h with
  | none => exact nofun
  | loop hbody => exact .cons (Call.bodies_all hc hbody) nofun
  | @arms as has _ =>
    refine .cons (fun a ha => ?_) nofun
    have hmem := has.subset (List.mem_map_of_mem (f := fun a : Arm => a.body.chain) ha)
    obtain ⟨b, hb, hchain⟩ := List.mem_map.mp hmem
    obtain ⟨p, hp, rfl⟩ := List.mem_map.mp (List.mem_filter.mp hb).1
    rw [← hchain]
    exact Call.bodies_all hc (List.mem_append_left _ (List.mem_map.mpr ⟨p, hp, rfl⟩))
  | task ht => exact .cons (hl.task hc ht) nofun

/-- A step leaves no calls but those that a thread had to run, what is nested in them, and those that
functions of the host may run. -/
theorem Thread.Becomes.respects (hl : library.Respects R) (h : t.Becomes library u)
    (ht : t.Respects R) : u.Respects R := by
  cases h with
  | stays => exact ht
  | drops => exact ht.tail
  | @works c cs k work hwork =>
    have hcalls : Chain.All R.calls (c :: cs) := ht.head
    have hrest : Frame.Respects R (.calls cs) := hcalls.tail
    exact (hwork.respects hl hcalls.head).append (.cons hrest ht.tail)
  | unwinds hunwind =>
    obtain ⟨hb, hl⟩ := ht.tail.unwind hunwind
    exact .resume hb hl
  | returns => exact .resume ht.head ht.tail
  | @enters a arms k =>
    have harms : ∀ x ∈ a :: arms, Chain.All R.calls x.body.chain := ht.head
    have hrest : Frame.Respects R (.arms arms) := fun x hx => harms x (.tail _ hx)
    exact (Respects.body (harms a List.mem_cons_self)).append (.cons hrest ht.tail)
  | @passes a arms k =>
    have harms : ∀ x ∈ a :: arms, Chain.All R.calls x.body.chain := ht.head
    exact .cons (fun x hx => harms x (.tail _ hx)) ht.tail
  | @pauses token l k =>
    have hl : Frame.Respects R (.check token l) := ht.head
    exact .cons hl ht.tail
  | @repeats token l k =>
    have hl : Chain.All R.calls l.body.chain := ht.head
    exact (Respects.body hl).append (.cons hl ht.tail)
  | @answers x replies reply k _ =>
    have hx : x.Respects R := ht.head
    exact .cons hx ht.tail
  | @invokes x replies isolated b label k hnext =>
    have hx : x.Respects R := ht.head
    have hb := hx.request replies
    rw [hnext] at hb
    exact .cons hb (.cons hx ht.tail)

end

/-! ## Parts of a chain -/

/-- A bound on the calls of the bodies that a thread runs, given a bound on what stands in front of a
frame. What stands in front of a loop is at most its body. -/
def Frame.extend (n : Nat) : Frame H → Nat
  | .calls rest => n + (Chain.calls rest).length
  | .boundary _ => n
  | .arms rest => n + (rest.flatMap fun a => Chain.calls a.body.chain).length
  | .loop l => max n (Chain.calls l.body.chain).length
  | .check _ l => n + (Chain.calls l.body.chain).length
  | .task _ _ => n

/-- A bound on the open calls of a thread, from the sizes of the chains that it is in. -/
def Thread.extent (n : Nat) (t : Thread H) : Nat := t.foldl Frame.extend n

namespace Thread

@[simp] theorem extent_nil (n : Nat) : Thread.extent n ([] : Thread H) = n := rfl

@[simp] theorem extent_cons (n : Nat) (f : Frame H) (t : Thread H) :
    Thread.extent n (f :: t) = t.extent (f.extend n) := rfl

@[simp] theorem extent_append (n : Nat) (t u : Thread H) :
    Thread.extent n (t ++ u) = u.extent (t.extent n) := List.foldl_append

theorem extent_mono (t : Thread H) (h : n ≤ n') : t.extent n ≤ t.extent n' := by
  induction t generalizing n n' with
  | nil => exact h
  | cons f t ih =>
    refine ih ?_
    cases f <;> simp only [Frame.extend] <;> omega

theorem length_openCalls_le (t : Thread H) (n : Nat) : n + t.openCalls.length ≤ t.extent n := by
  induction t generalizing n with
  | nil => exact Nat.le_refl _
  | cons f t ih =>
    refine Nat.le_trans ?_ (ih (f.extend n))
    have hchain (c : Chain) := (Chain.openCalls_sublist c).length_le
    rw [openCalls_cons, List.length_append, ← Nat.add_assoc]
    refine Nat.add_le_add_right ?_ _
    cases f with
    | calls rest => exact Nat.add_le_add_left (hchain rest) n
    | boundary b => exact Nat.le_refl _
    | arms rest =>
      have hbodies := List.Sublist.flatMap_right rest fun a _ => Chain.openCalls_sublist a.body.chain
      exact Nat.add_le_add_left hbodies.length_le n
    | loop l => exact Nat.le_max_left ..
    | check token l => exact Nat.add_le_add_left (hchain _) n
    | task x replies => exact Nat.le_refl _

theorem extent_le_of_suffix (h : u <:+ t) : u.extent 0 ≤ t.extent 0 := by
  obtain ⟨before, rfl⟩ := h
  rw [extent_append]
  exact u.extent_mono (Nat.zero_le _)

end Thread

theorem Call.bodies_length_le {chain : Chain} (h : chain ∈ c.bodies) :
    (Chain.calls chain).length < c.calls.length := by
  rw [Call.calls_eq, List.length_cons, List.length_append]
  rcases List.mem_append.mp h with h | h
  · obtain ⟨p, hp, rfl⟩ := List.mem_map.mp h
    have hsub := (List.singleton_sublist.mpr hp).flatMap fun p => Chain.calls p.2.body
    rw [List.flatMap_singleton, ← Branch.calls_eq_flatMap] at hsub
    have hle := hsub.length_le
    omega
  · rw [Option.mem_toList.mp h, Scope.calls_some]
    omega

theorem Work.Within.extent_lt {k : Work H} (h : k.Within library c) :
    Thread.extent 0 k.frames < c.calls.length := by
  cases h with
  | none | task =>
    rw [Call.calls_eq]
    exact Nat.succ_pos _
  | loop hbody => exact Nat.max_lt.mpr ⟨Nat.zero_lt_of_lt (Call.bodies_length_le hbody),
      Call.bodies_length_le hbody⟩
  | @arms as has _ =>
    have hflat := (subperm_flatMap has Chain.calls).length_le
    rw [List.flatMap_map, List.flatMap_map] at hflat
    have harms : (c.arms.flatMap fun b => Chain.calls b.body).length ≤
        (Branch.calls c.branches).length := by
      rw [Branch.calls_eq_flatMap, ← List.flatMap_map Prod.snd fun b : Branch => Chain.calls b.body]
      exact (List.filter_sublist.flatMap _).length_le
    rw [Call.calls_eq, List.length_cons, List.length_append]
    simp only [Work.frames, Thread.extent_cons, Thread.extent_nil, Frame.extend]
    omega

theorem Thread.extent_resume (b : Boundary H) (result : Except RunError Unit) (shared : Shared H)
    (t : Thread H) : Thread.extent n (b.resume result shared ++ t) = t.extent n := by
  cases b <;> rfl

/-- Whatever a thread goes through, it does not come to be in more or larger chains, unless a function
of the host runs a body. -/
theorem Thread.Becomes.extent_le (h : t.Becomes library u) (ht : t.Inert) :
    u.extent 0 ≤ t.extent 0 := by
  cases h with
  | stays => exact Nat.le_refl _
  | drops => exact Thread.extent_le_of_suffix (List.suffix_cons _ _)
  | @unwinds f k l b _ _ hunwind =>
    rw [extent_resume]
    exact extent_le_of_suffix ((suffix_of_unwind hunwind).trans (List.suffix_cons _ _))
  | @returns b k =>
    rw [extent_resume]
    exact Nat.le_refl _
  | answers => exact Nat.le_refl _
  | invokes hnext => exact absurd hnext (ht _ _ _ _ _ rfl)
  | @works c cs k work hwork =>
    rw [Thread.extent_append, Thread.extent_cons, Thread.extent_cons]
    refine Thread.extent_mono _ ?_
    have hlt := hwork.extent_lt
    rw [Frame.extend, Frame.extend, Chain.calls_cons, List.length_append]
    omega
  | enters =>
    rw [Thread.extent_append, Thread.extent_cons, Thread.extent_cons]
    refine Thread.extent_mono _ ?_
    simp only [Body.frames, Thread.extent_cons, Thread.extent_nil, Frame.extend,
      List.flatMap_cons, List.length_append]
    omega
  | passes =>
    rw [Thread.extent_cons, Thread.extent_cons]
    refine Thread.extent_mono _ ?_
    simp only [Frame.extend, List.flatMap_cons, List.length_append]
    omega
  | pauses =>
    rw [Thread.extent_cons, Thread.extent_cons]
    refine Thread.extent_mono _ ?_
    simp only [Frame.extend]
    omega
  | repeats =>
    rw [Thread.extent_append, Thread.extent_cons, Thread.extent_cons]
    refine Thread.extent_mono _ ?_
    simp only [Body.frames, Thread.extent_cons, Thread.extent_nil, Frame.extend]
    omega

/-! ## The threads of a machine -/

namespace Machine

variable {m m' : Machine H} {s : Setting H} {rest : List (Job H)}

/-- The chain that begins in the next step: an entry chain, or that of a body that was queued. -/
def beginning? (m : Machine H) : Option Chain :=
  m.entering?.or (m.starting?.map (·.chain))

/-- Where a thread comes from that there is after a step. -/
inductive Origin (s : Setting H) (em : Emitter H) (m : Machine H) (u : Thread H) : Prop
  | kept : u ∈ m.threads → Origin s em m u
  | begun {c : Chain} {b : Boundary H} : m.beginning? = some c →
      (b = .entry ∨ ∃ label, b = .body label) → u = [.calls c, .boundary b] → Origin s em m u
  | left {t : Thread H} {rest : List (Job H)} {a : Advance H} {w : World H} :
      m.ready = .resume t :: rest →
      advance s.library em t m.world = some (a, w) → u ∈ a.threads → Origin s em m u

theorem mem_threads_of_ready (hready : m.ready = .resume t :: rest) : t ∈ m.threads := by
  unfold threads
  rw [hready]
  exact List.mem_cons_self

theorem Move.origin (h : Move s em m m') {u : Thread H} (hu : u ∈ m'.threads) : Origin s em m u := by
  cases h with
  | @start b rest hready hm' =>
    have hthreads : m'.threads = b.frames :: m.threads := by
      rw [hm']
      unfold threads
      rw [hready]
      rfl
    have hbeginning : m.beginning? = some b.chain := by
      unfold beginning? entering? starting?
      rw [hready]
      rfl
    rw [hthreads] at hu
    rcases List.mem_cons.mp hu with rfl | hu
    · exact .begun hbeginning (.inr ⟨_, rfl⟩) rfl
    · exact .kept hu
  | @advance t rest a w hready ha hm' =>
    rw [hm'] at hu
    have hu := (rearranges_settle m s rest a w).threads.mem_iff.mp hu
    rw [threads_taken] at hu
    rcases List.mem_append.mp hu with hu | hu
    · exact .left hready ha hu
    · refine .kept ?_
      unfold threads
      rw [hready]
      exact .tail _ hu
  | @enter chain entries hready hpaused hplan hm' =>
    have hthreads : m'.threads = [[.calls chain, .boundary .entry]] := by
      rw [hm']
      unfold threads
      rw [hpaused]
      rfl
    have hbeginning : m.beginning? = some chain := by
      unfold beginning? entering?
      rw [hready, hpaused, hplan]
      rfl
    rw [hthreads] at hu
    exact .begun hbeginning (.inl rfl) (List.mem_singleton.mp hu)
  | begin _ _ _ _ hm' =>
    rw [hm', (rearranges_enlist _).threads.mem_iff] at hu
    exact .kept hu
  | rearrange _ _ hm' => exact .kept (hm'.threads.mem_iff.mp hu)

/-- A thread is there after a step, unless it is in front; then what the step leaves of it is. -/
theorem Move.fate (h : Move s em m m') (ht : t ∈ m.threads) : t ∈ m'.threads ∨
    ∃ rest a w, m.ready = .resume t :: rest ∧
      SnapBlocks.advance s.library em t m.world = some (a, w) ∧ ∀ u ∈ a.threads, u ∈ m'.threads := by
  cases h with
  | @start b rest hready hm' =>
    rw [hm']
    unfold threads at ht
    rw [hready] at ht
    exact .inl (.tail _ ht)
  | @advance t' rest a w hready ha hm' =>
    have hthreads := (rearranges_settle m s rest a w).threads
    rw [← hm', threads_taken] at hthreads
    unfold threads at ht
    rw [hready] at ht
    rcases List.mem_cons.mp ht with rfl | ht
    · exact .inr ⟨rest, a, w, hready, ha, fun u hu =>
        hthreads.mem_iff.mpr (List.mem_append_left _ hu)⟩
    · exact .inl (hthreads.mem_iff.mpr (List.mem_append_right _ ht))
  | enter hready hpaused =>
    unfold threads at ht
    rw [hready, hpaused] at ht
    cases ht
  | begin _ _ _ _ hm' =>
    rw [hm', (rearranges_enlist _).threads.mem_iff]
    exact .inl ht
  | rearrange _ _ hm' => exact .inl (hm'.threads.mem_iff.mpr ht)

/-- What holds of a thread holds of some thread later, unless there was a state in which the thread in
front had it and might lose it. -/
theorem Path.lasts {depth : Nat} {x : Machine H} {trace : List (Machine H)} {P : Thread H → Prop}
    {Q : Machine H → Prop} (hp : Path s depth m trace x)
    (hP : ∀ {y : Machine H} {t : Thread H} {rest : List (Job H)} {a : Advance H} {w : World H},
      y.ready = .resume t :: rest → P t →
      SnapBlocks.advance s.library (World.emit depth) t y.world = some (a, w) →
      (∃ u ∈ a.threads, P u) ∨ Q y)
    (ht : ∃ t ∈ m.threads, P t) : (∃ u ∈ x.threads, P u) ∨ ∃ y ∈ trace, Q y := by
  induction hp with
  | nil => exact .inl ht
  | @cons m y m' x trace hshifts _ hstep _ ih =>
    obtain ⟨t, ht, hPt⟩ := ht
    have ht : t ∈ y.threads := hshifts.rearranges.threads.mem_iff.mpr ht
    have hlater (hm' : ∃ t ∈ m'.threads, P t) : (∃ u ∈ x.threads, P u) ∨ ∃ z ∈ y :: trace, Q z :=
      (ih hm').imp_right fun ⟨z, hz, hQ⟩ => ⟨z, List.mem_cons_of_mem y hz, hQ⟩
    rcases (move_of_step hstep).fate ht with ht | ⟨rest, a, w, hready, ha, hleft⟩
    · exact hlater ⟨t, ht, hPt⟩
    · rcases hP hready hPt ha with ⟨u, hu, hPu⟩ | hQ
      · exact hlater ⟨u, hleft u hu, hPu⟩
      · exact .inr ⟨y, List.mem_cons_self, hQ⟩

end Machine

end SnapBlocks

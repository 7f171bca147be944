import SnapBlocks.Proofs.Messaging

/-! Loops keep to their checks, whatever runs while they pause. A thread that is not in front waits
at the check of a loop, and a thread has its whole body before it only right after a check: so each
pass begins with a check that let it, and nothing runs in between. What stands behind a loop is left
alone until the loop is left, which it is only at its top when the program was stopped, or at its
check.

The token of a check is the one that was current when the loop paused. Since then the thread has
waited; all that the run did meanwhile is the work of others. -/

namespace SnapBlocks

variable {H : Type} {w w' : World H} {em : Emitter H} {t u k : Thread H} {a : Advance H} {l : Loop}
variable {library : Library H} {depth : Nat} {token : Token}

/-! ## Loops in threads -/

/-- A loop is around what a thread does, and stands in front of `k`. -/
inductive Loop.Around (l : Loop) (k : Thread H) : Thread H → Prop
  /-- The thread runs a pass, or it is at the top of the loop. -/
  | pass (t : Thread H) : Around l k (t ++ .loop l :: k)
  | check (token : Token) : Around l k (.check token l :: k)

theorem Task.Fits.of_loop {T : Task H → Prop} {x : Task H} (h : x.Fits T [] t) :
    x.Fits (fun _ => False) (.loop l :: k) t where
  chain := h.chain
  base := by
    rintro rfl
    exact h.chain

theorem Boundary.Fits.of_loop {T : Task H → Prop} {b : Boundary H} (h : b.Fits T [] t) :
    b.Fits (fun _ => False) (.loop l :: k) t := by
  cases b with
  | task label x replies => exact Task.Fits.of_loop h
  | outside => exact h
  | _ => exact trivial

/-- In front of a loop in a thread, too, each chain of calls stands in front of its boundary. -/
theorem Thread.Whole.of_loop (h : Thread.Whole (t ++ .loop l :: k)) :
    Guarded (fun _ => False) (.loop l :: k) (t ++ .loop l :: k) := by
  generalize hu : t ++ .loop l :: k = u at h
  induction h generalizing t with
  | base => exact absurd hu (List.append_ne_nil_of_right_ne_nil t (List.cons_ne_nil _ _))
  | calls cs hb _ ih =>
    obtain ⟨_, ⟨⟩⟩ | ⟨t, rfl, hs⟩ := List.append_eq_cons_iff.mp hu
    obtain ⟨_, ⟨⟩⟩ | ⟨t, rfl, hrest⟩ := List.append_eq_cons_iff.mp hs.symm
    exact .calls cs hb.of_loop (ih hrest.symm)
  | boundary hb _ ih =>
    obtain ⟨_, ⟨⟩⟩ | ⟨t, rfl, hs⟩ := List.append_eq_cons_iff.mp hu
    exact .boundary hb.of_loop (ih hs.symm)
  | arms as _ ih =>
    obtain ⟨_, ⟨⟩⟩ | ⟨t, rfl, hs⟩ := List.append_eq_cons_iff.mp hu
    exact .arms as (ih hs.symm)
  | loop l _ ih =>
    obtain ⟨rfl, he⟩ | ⟨t, rfl, hs⟩ := List.append_eq_cons_iff.mp hu
    · cases he
      exact .base
    · exact .loop l (ih hs.symm)
  | check token l _ ih =>
    obtain ⟨_, ⟨⟩⟩ | ⟨t, rfl, hs⟩ := List.append_eq_cons_iff.mp hu
    exact .check token l (ih hs.symm)
  | task replies hx _ ih =>
    obtain ⟨_, ⟨⟩⟩ | ⟨t, rfl, hs⟩ := List.append_eq_cons_iff.mp hu
    exact .task replies hx.of_loop (ih hs.symm)

/-- A function of the host does not fail right in front of a loop. -/
theorem Thread.Guarded.not_failsLast {T : Task H → Prop} (ht : Guarded T (.loop l :: k) t) :
    ¬ t.FailsLast (.loop l :: k) := by
  rintro ⟨x, replies, e, rfl, _⟩
  exact (ht.of_task (List.cons_ne_self _ _)).chain

/-- A loop is to be left: it is at its top and the current token is tripped, or it is at its check
and the token of its pause is, or its condition does not hold. -/
inductive Loop.Ends (l : Loop) (k : Thread H) (s : Shared H) : Thread H → Prop
  | top : s.tokens.stopped → Ends l k s (.loop l :: k)
  | tripped {token : Token} : s.tokens.isTripped token → Ends l k s (.check token l :: k)
  | fails {token : Token} {inputs : List BoundInput} : l.condition = some inputs →
      s.conditionHolds inputs = false → Ends l k s (.check token l :: k)

theorem Loop.goesOn_iff {s : Shared H} : l.goesOn token s ↔ s.tokens.isTripped token = false ∧
    ∀ inputs, l.condition = some inputs → s.conditionHolds inputs := by
  unfold goesOn
  cases l.condition <;> simp

theorem Loop.ends_of_goesOn {s : Shared H} (h : ¬ l.goesOn token s) :
    l.Ends k s (.check token l :: k) := by
  by_cases htripped : s.tokens.isTripped token
  · exact .tripped htripped
  · by_contra hnot
    refine h (goesOn_iff.mpr ⟨Bool.eq_false_iff.mpr htripped, fun inputs hinputs => ?_⟩)
    by_contra hfails
    exact hnot (.fails hinputs (Bool.eq_false_iff.mpr hfails))

theorem append_loop_ne (f : Frame H) (t : Thread H) (l : Loop) (k : Thread H) :
    f :: t ++ .loop l :: k ≠ .loop l :: k := by
  intro he
  have hlength := congrArg List.length he
  rw [List.length_append, List.length_cons] at hlength
  omega

/-- A loop stays around what its thread does until it is to be left. -/
theorem Loop.Around.advance (ht : t.Whole) (h : l.Around k t)
    (ha : SnapBlocks.advance library em t w = some (a, w')) :
    (∃ u ∈ a.threads, l.Around k u) ∨ l.Ends k w.shared t ∧ a = .on k := by
  cases h with
  | pass t =>
    cases t with
    | cons f t =>
      have hguarded := ht.of_loop
      obtain ⟨t', ht', hleft⟩ :=
        (hguarded.advance (append_loop_ne f t l k) ha).resolve_right hguarded.not_failsLast
      obtain ⟨u, rfl⟩ := ht'.base_suffix
      refine .inl ⟨_, ?_, .pass u⟩
      rcases hleft with rfl | ⟨token, _, rfl⟩
      · cases u <;> exact List.mem_singleton_self _
      · exact List.mem_singleton_self _
    | nil =>
      cases advances_of_advance ha with
      | leaves hstop => exact .inr ⟨.top hstop, rfl⟩
      | pauses => exact .inl ⟨_, List.mem_singleton_self _, .check _⟩
      | failed hfails => cases hfails
  | check token =>
    cases advances_of_advance ha with
    | repeats => exact .inl ⟨_, List.mem_singleton_self _, .pass l.body.frames⟩
    | ends hleave => exact .inr ⟨Loop.ends_of_goesOn (Bool.eq_false_iff.mp hleave), rfl⟩
    | failed hfails => cases hfails

/-- What a call of a loop enters, when it has a body and the inputs that it needs. -/
inductive Call.Enters (library : Library H) (c : Call) : Loop → Prop
  | whileLoop {inputs : List BoundInput} {body : Body} :
      library[c.target]? = some (.builtin .whileLoop) → c.need .whileLoop "while" 3 = .ok inputs →
      c.body? "while" = some body → Enters library c ⟨some inputs, body⟩
  | forever {body : Body} : library[c.target]? = some (.builtin .forever) →
      c.body? "forever" = some body → Enters library c ⟨none, body⟩

theorem Call.Enters.effect {c : Call} (h : c.Enters library l) :
    (c.effect library em).run w = some (.ok (.loop l), w.countCall) := by
  cases h with
  | whileLoop htarget hneed hbody =>
    rw [effect_builtin htarget]
    simp only [Builtin.act, hneed, hbody]
    rfl
  | forever htarget hbody =>
    rw [effect_builtin htarget]
    simp only [Builtin.act, hbody]
    rfl

/-! ## Threads that keep pace -/

/-- A chain that stands in front of a loop in a thread, as its pass does, is shorter than the body.
-/
def Thread.Short (t : Thread H) : Prop :=
  ∀ (cs : List Call) (label : String) (l : Loop) (k : Thread H),
    .calls cs :: .boundary (.body label) :: .loop l :: k <:+ t → cs.length < l.body.chain.length

namespace Thread.Short

theorem nil : Thread.Short ([] : Thread H) := by
  intro _ _ _ _ hk
  cases List.suffix_nil.mp hk

theorem suffix (h : t.Short) (hu : u <:+ t) : u.Short :=
  fun _ _ _ _ hk => h _ _ _ _ (hk.trans hu)

theorem cons {f : Frame H} (h : t.Short)
    (hf : ∀ cs label l k, f = .calls cs → t = .boundary (.body label) :: .loop l :: k →
      cs.length < l.body.chain.length) : Thread.Short (f :: t) := by
  intro cs label l k hk
  rcases List.suffix_cons_iff.mp hk with he | hk
  · exact hf _ _ _ _ (List.cons.inj he).1.symm (List.cons.inj he).2.symm
  · exact h _ _ _ _ hk

end Thread.Short

/-- A thread has no more to do of a pass than the body; less, except at the top; and only at the top
does a loop wait at its check. -/
structure Thread.Paced (t : Thread H) : Prop where
  top {cs : List Call} {label : String} {l : Loop} {k : Thread H} :
    t = .calls cs :: .boundary (.body label) :: .loop l :: k → cs.length ≤ l.body.chain.length
  short : Thread.Short t.tail
  unpaused : Thread.Unpaused t.tail

namespace Thread.Paced

theorem of_short (hs : t.Short) (hu : Thread.Unpaused t.tail) : t.Paced where
  top := by
    rintro cs b l k rfl
    exact (hs _ _ _ _ (List.suffix_refl _)).le
  short := hs.suffix (List.tail_suffix t)
  unpaused := hu

theorem of_suffix (h : t.Paced) (hu : u <:+ t.tail) : u.Paced :=
  of_short (h.short.suffix hu) (h.unpaused.suffix ((List.tail_suffix u).trans hu))

/-- A call is taken off a pass. -/
theorem short_rest {c : Call} {cs : List Call} (h : Thread.Paced (.calls (c :: cs) :: t)) :
    Thread.Short (.calls cs :: t) := by
  refine Short.cons h.short fun cs' b l k' he hk => ?_
  have hless := h.top (congrArg (.calls (c :: cs) :: ·) hk)
  rwa [Frame.calls.inj he] at hless

theorem short_body (b : Body) (as : List Arm) (h : t.Short) :
    Thread.Short (b.frames ++ .arms as :: t) := by
  refine Short.cons (Short.cons (Short.cons h nofun) nofun) fun _ _ _ _ _ he => ?_
  cases (List.cons.inj he).2

/-- What goes on at a boundary keeps pace. -/
theorem resume {b : Boundary H} {result : Except RunError Unit} {shared : Shared H} (h : t.Paced)
    (hu : u <:+ t.tail) : (b.resume result shared ++ u).Paced := by
  cases b with
  | task => exact of_short (Short.cons (h.short.suffix hu) nofun) (h.unpaused.suffix hu)
  | _ => exact h.of_suffix hu

/-- A thread keeps pace. -/
theorem becomes (h : t.Paced) (hu : t.Becomes library u) : u.Paced := by
  cases hu with
  | stays => exact h
  | drops => exact h.of_suffix (List.suffix_refl _)
  | unwinds hk => exact h.resume (suffix_of_unwind hk)
  | returns => exact h.resume (List.suffix_refl _)
  | @works c cs k work _ =>
    have hs := h.short_rest
    cases work with
    | none => exact of_short hs h.unpaused
    | arms | loop | task => exact of_short (Short.cons hs nofun) (.cons rfl h.unpaused)
  | enters => exact of_short (short_body _ _ h.short) (.cons rfl (.cons rfl h.unpaused))
  | passes | pauses | answers => exact of_short (Short.cons h.short nofun) h.unpaused
  | @repeats token l k =>
    exact {
      top := by
        rintro cs label l' k' ⟨⟩
        exact Nat.le_refl _
      short := Short.cons (Short.cons h.short nofun) nofun
      unpaused := .cons rfl (.cons rfl h.unpaused) }
  | invokes =>
    refine of_short (Short.cons (Short.cons h.short nofun) fun _ _ _ _ _ he => ?_)
      (.cons rfl h.unpaused)
    cases (List.cons.inj he).1

/-- A thread has a whole body in front of the loop only right after the check. -/
theorem begins (h : t.Paced) (hu : t.Becomes library (l.body.frames ++ .loop l :: k)) :
    ∃ token, t = .check token l :: k := by
  generalize hv : l.body.frames ++ .loop l :: k = v at hu
  -- anywhere else the chain would be shorter than itself
  have hnot (hs : v <:+ t.tail) : False := Nat.lt_irrefl _ (h.short _ _ _ _ (hv ▸ hs))
  -- a function of the host that goes on at a boundary has no chain in front
  have hresume {b : Boundary H} {result : Except RunError Unit} {shared : Shared H} {u : Thread H}
      (he : v = b.resume result shared ++ u) (hu : u <:+ t.tail) : False := by
    cases b with
    | task => cases hv.trans he
    | _ => exact hnot (he ▸ hu)
  cases hu with
  | stays => cases hv
  | drops => exact (hnot (List.suffix_refl _)).elim
  | unwinds hk => exact (hresume rfl (suffix_of_unwind hk)).elim
  | returns => exact (hresume rfl (List.suffix_refl _)).elim
  | @works c cs k work _ =>
    cases work with
    | none =>
      cases hv
      exact absurd (h.top rfl) (Nat.not_succ_le_self _)
    | arms | loop | task => cases hv
  | enters => simp [Body.frames] at hv
  | passes | pauses | answers => cases hv
  | @repeats token =>
    obtain ⟨rfl, rfl⟩ : l = _ ∧ k = _ := by
      simp only [Body.frames, List.cons_append, List.nil_append, List.cons.injEq, Frame.loop.injEq]
        at hv
      exact hv.2.2
    exact ⟨token, rfl⟩
  | invokes => cases (List.cons.inj (List.cons.inj hv).2).1

/-- A thread comes to a check only from the top of its loop. -/
theorem pauses (h : t.Paced) (hu : t.Becomes library (.check token l :: k)) : t = .loop l :: k := by
  have hnot (hs : .check token l :: k <:+ t.tail) : False := by
    cases h.unpaused.suffix hs _ List.mem_cons_self
  generalize hv : Frame.check token l :: k = v at hu hnot
  have hresume {b : Boundary H} {result : Except RunError Unit} {shared : Shared H} {u : Thread H}
      (he : v = b.resume result shared ++ u) (hu : u <:+ t.tail) : False := by
    cases b with
    | task => cases hv.trans he
    | _ => exact hnot (he ▸ hu)
  cases hu with
  | stays => cases hv
  | drops => exact (hnot (List.suffix_refl _)).elim
  | unwinds hk => exact (hresume rfl (suffix_of_unwind hk)).elim
  | returns => exact (hresume rfl (List.suffix_refl _)).elim
  | @works c cs k work _ => cases work <;> cases hv
  | pauses =>
    cases hv
    rfl
  | enters | passes | repeats | answers | invokes => cases hv

end Thread.Paced

/-! ## What a step at a loop does -/

/-- A loop comes to its check with the token that is current, unless that one is tripped. -/
theorem advance_loop (ha : advance library em (.loop l :: k) w = some (a, w'))
    (hu : .check token l :: k ∈ a.threads) : w.shared.tokens.current = token ∧
      w.shared.tokens.isTripped token = false := by
  cases advances_of_advance ha with
  | leaves =>
    have hlength := congrArg List.length (Advance.eq_of_mem_threads_on hu)
    exact absurd hlength (Nat.succ_ne_self _)
  | pauses hrunning =>
    cases List.mem_singleton.mp hu
    exact ⟨rfl, hrunning⟩
  | failed hfails => cases hfails

/-- A check that lets a pass begin leaves the world alone. -/
theorem advance_check (ha : advance library em (.check token l :: k) w = some (a, w'))
    (hu : l.body.frames ++ .loop l :: k ∈ a.threads) : l.goesOn token w.shared ∧ w' = w := by
  cases advances_of_advance ha with
  | repeats hgoes => exact ⟨hgoes, rfl⟩
  | ends =>
    have hlength := congrArg List.length (Advance.eq_of_mem_threads_on hu)
    simp only [Body.frames, List.length_append, List.length_cons, List.length_nil] at hlength
    omega
  | failed hfails => cases hfails

/-! ## Threads that are not being polled -/

/-- A thread waits at the check of a loop, or in a function of the host. -/
inductive Thread.Waits : Thread H → Prop
  | check (token : Token) (l : Loop) (k : Thread H) : Waits (.check token l :: k)
  | task (x : Task H) (replies : List (Reply H)) (k : Thread H) : Waits (.task x replies :: k)

namespace Machine

variable {m m' x y last : Machine H} {s : Setting H} {trace before : List (Machine H)}
variable {rest : List (Job H)}

/-- The threads that are not being polled. -/
def others (m : Machine H) : List (Thread H) :=
  (if m.polling then m.ready.tail else m.ready).filterMap Job.thread? ++ m.paused.map (·.thread)

theorem others_of_polling (h : m.polling) :
    m.others = m.ready.tail.filterMap Job.thread? ++ m.paused.map (·.thread) := by
  unfold others
  rw [if_pos h]

theorem others_of_not_polling (h : m.polling = false) : m.others = m.threads := by
  unfold others
  rw [h, if_neg Bool.false_ne_true]
  rfl

/-- All threads keep pace, and those that are not being polled wait. -/
structure Orderly (m : Machine H) : Prop where
  paced : ∀ t ∈ m.threads, t.Paced
  others : ∀ t ∈ m.others, t.Waits
  front : m.polling → ∃ t rest, m.ready = .resume t :: rest

/-- A thread that is in front and does not wait has just begun, or it was in front before. -/
inductive Fronted (s : Setting H) (em : Emitter H) (m m' : Machine H) (u : Thread H) : Prop
  | begun {c : Chain} {b : Boundary H} : (b = .entry ∨ ∃ label, b = .body label) →
      u = [.calls c, .boundary b] → Fronted s em m m' u
  | left {t : Thread H} {rest : List (Job H)} : m.ready = .resume t :: rest →
      SnapBlocks.advance s.library em t m.world = some (.on u, m'.world) → Fronted s em m m' u

namespace Orderly

/-- A schedule keeps threads in order. -/
theorem shift (hm : m.Orderly) (h : Shift m x) : x.Orderly := by
  have hr := h.rearranges
  have hpolling := h.polling_eq
  refine ⟨fun t ht => hm.paced t (hr.threads.mem_iff.mp ht), ?_, ?_⟩
  · by_cases hx : x.polling
    · obtain ⟨u, rest, hready⟩ := hm.front (hpolling ▸ hx)
      obtain ⟨later, hlater⟩ := (Shifts.of_polling (.single h) (hpolling ▸ hx)).1
      have hmem : x.threads.Perm (u :: m.others) := by
        refine hr.threads.trans (.of_eq ?_)
        rw [others_of_polling (hpolling ▸ hx)]
        unfold threads
        rw [hready]
        rfl
      have hothers : x.threads = u :: x.others := by
        rw [others_of_polling hx]
        unfold threads
        rw [hlater, hready]
        rfl
      rw [hothers] at hmem
      exact fun t ht => hm.others t (((List.perm_cons u).mp hmem).mem_iff.mp ht)
    · have hfree := Bool.eq_false_iff.mpr hx
      have hm' := hm.others
      rw [others_of_not_polling (hpolling.symm.trans hfree)] at hm'
      rw [others_of_not_polling hfree]
      exact fun t ht => hm' t (hr.threads.mem_iff.mp ht)
  · intro hx
    obtain ⟨u, rest, hready⟩ := hm.front (hpolling ▸ hx)
    obtain ⟨later, hlater⟩ := (Shifts.of_polling (.single h) (hpolling ▸ hx)).1
    exact ⟨u, rest ++ later, by rw [hlater, hready]; rfl⟩

theorem shifts (hm : m.Orderly) (h : m.Shifts x) : x.Orderly := h.invariant hm Orderly.shift

/-- A thread that is ready, but is not in front or is not polled, waits. -/
theorem waits_of_nil (hm : m.Orderly) (hready : m.ready = []) : m.polling = false ∧
    ∀ t ∈ m.threads, t.Waits := by
  have hfree : m.polling = false := by
    refine Bool.eq_false_iff.mpr fun hpolling => ?_
    obtain ⟨_, _, hfront⟩ := hm.front hpolling
    cases hready.symm.trans hfront
  have hothers := hm.others
  rw [others_of_not_polling hfree] at hothers
  exact ⟨hfree, hothers⟩

/-- Only the thread in front comes to be one that does not wait, and then it is being polled. -/
theorem polled (hm : m.Orderly) (h : Move s em m m') : (∀ t ∈ m'.others, t.Waits) ∧
    (m'.polling → ∃ t rest, m'.ready = .resume t :: rest ∧ (t.Waits ∨ Fronted s em m m' t)) := by
  have hall (hfree : m'.polling = false) (hm' : ∀ t ∈ m'.threads, t.Waits) :
      (∀ t ∈ m'.others, t.Waits) ∧
        (m'.polling → ∃ t rest, m'.ready = .resume t :: rest ∧ (t.Waits ∨ Fronted s em m m' t)) := by
    rw [others_of_not_polling hfree, hfree]
    exact ⟨hm', nofun⟩
  cases h with
  | @start b rest hready hm' =>
    have hfree : m.polling = false := by
      refine Bool.eq_false_iff.mpr fun hpolling => ?_
      obtain ⟨_, _, hfront⟩ := hm.front hpolling
      cases hready.symm.trans hfront
    have hothers := hm.others
    rw [others_of_not_polling hfree] at hothers
    unfold threads at hothers
    rw [hready] at hothers
    rw [hm']
    exact ⟨hothers, fun _ => ⟨b.frames, rest, rfl, .inr (.begun (.inr ⟨_, rfl⟩) rfl)⟩⟩
  | @advance t rest a w hready ha hm' =>
    have hothers : ∀ t ∈ rest.filterMap Job.thread? ++ m.paused.map (·.thread), t.Waits := by
      intro u hu
      refine hm.others u ?_
      unfold Machine.others
      rw [hready]
      refine List.mem_append.mpr ((List.mem_append.mp hu).imp_left fun hu => ?_)
      split
      · exact hu
      · exact .tail _ hu
    have hthreads := (rearranges_settle m s rest a w).threads
    rw [← hm', threads_taken] at hthreads
    -- unless the thread goes on to be polled, all threads wait
    have hwaits (hfree : m'.polling = false) (ha : ∀ t ∈ a.threads, t.Waits) :=
      hall hfree fun t ht =>
        (List.mem_append.mp (hthreads.mem_iff.mp ht)).elim (ha t) (hothers t)
    cases a with
    | escaped e => exact hwaits (hm' ▸ polling_enlist _) nofun
    | pause token u =>
      refine hwaits (hm' ▸ polling_pause _ _ _ _) fun t ht => ?_
      cases List.mem_singleton.mp ht
      rcases (advance_pause ha).2 with ⟨_, _, l, k, _, rfl⟩ | ⟨_, x, replies, reply, k, _, _, rfl⟩
      · exact .check _ l k
      · exact .task x _ k
    | on u =>
      cases u with
      | nil => exact hwaits (hm' ▸ polling_enlist _) nofun
      | cons f u =>
        have hperm : m'.others.Perm (rest.filterMap Job.thread? ++ m.paused.map (·.thread)) := by
          rw [hm'] at hthreads ⊢
          exact (List.perm_cons (f :: u)).mp hthreads
        refine ⟨fun t ht => hothers t (hperm.mem_iff.mp ht), fun _ => ?_⟩
        rw [hm']
        exact ⟨f :: u, _, rfl, .inr (.left hready ha)⟩
  | @enter chain entries hready hpaused hplan hm' =>
    have hnone : m'.others = [] := by
      rw [hm', others_of_polling rfl]
      exact congrArg (List.map _) hpaused
    rw [hnone]
    refine ⟨List.forall_mem_nil _, fun _ => ?_⟩
    rw [hm']
    exact ⟨_, _, rfl, .inr (.begun (.inl rfl) rfl)⟩
  | begin hready _ _ _ hm' =>
    obtain ⟨hfree, hwaits⟩ := hm.waits_of_nil hready
    refine hall (hm' ▸ (polling_enlist _).trans hfree) fun t ht => hwaits t ?_
    rwa [hm', (rearranges_enlist _).threads.mem_iff] at ht
  | rearrange hready _ hm' hpolling =>
    obtain ⟨hfree, hwaits⟩ := hm.waits_of_nil hready
    exact hall (hpolling.trans hfree) fun t ht => hwaits t (hm'.threads.mem_iff.mp ht)

theorem move (hm : m.Orderly) (h : Move s em m m') : m'.Orderly := by
  obtain ⟨hothers, hfront⟩ := hm.polled h
  refine ⟨fun u hu => ?_, hothers, fun hpolling => ?_⟩
  · cases h.origin hu with
    | kept hu => exact hm.paced u hu
    | begun _ _ hu =>
      rw [hu]
      exact .of_short (Thread.Short.cons (Thread.Short.cons .nil nofun) nofun)
        (.cons rfl (List.forall_mem_nil _))
    | left hready ha hu =>
      exact (hm.paced _ (mem_threads_of_ready hready)).becomes (advance_becomes ha u hu)
  · obtain ⟨t, rest, hready, _⟩ := hfront hpolling
    exact ⟨t, rest, hready⟩

/-- A thread that is in front and does not wait is being polled. -/
theorem polling_of_front (hm : m.Orderly) (hready : m.ready = .resume t :: rest) (ht : ¬ t.Waits) :
    m.polling := by
  by_contra hfree
  have hothers := hm.others
  rw [others_of_not_polling (Bool.eq_false_iff.mpr hfree)] at hothers
  exact ht (hothers t (mem_threads_of_ready hready))

/-- A pass is in front only right after the check that let it begin. -/
theorem begins (hm : m.Orderly) (h : Move s em m m')
    (hready : m'.ready = .resume (l.body.frames ++ .loop l :: k) :: rest) (hpolling : m'.polling) :
    ∃ token rest', m.ready = .resume (.check token l :: k) :: rest' ∧ m'.world = m.world ∧
      l.goesOn token m.world.shared := by
  obtain ⟨_, hfront⟩ := hm.polled h
  obtain ⟨u, rest', hu, hcase⟩ := hfront hpolling
  cases hready.symm.trans hu
  rcases hcase with hwaits | ⟨_, hbegun⟩ | ⟨hbefore, ha⟩
  · cases hwaits
  · cases hbegun
  · have hmem : l.body.frames ++ .loop l :: k ∈
        (Advance.on (l.body.frames ++ .loop l :: k)).threads := List.mem_singleton_self _
    have hpaced := hm.paced _ (mem_threads_of_ready hbefore)
    obtain ⟨token, rfl⟩ := hpaced.begins (advance_becomes ha _ hmem)
    obtain ⟨hgoes, hworld⟩ := advance_check ha hmem
    exact ⟨token, _, hbefore, hworld, hgoes⟩

end Orderly

/-! ## Pauses -/

/-- A loop is at its top and comes to pause, with a token that is current and not tripped. -/
structure Pauses (m : Machine H) (token : Token) (l : Loop) (k : Thread H) : Prop where
  front : ∃ rest, m.ready = .resume (.loop l :: k) :: rest
  current : m.world.shared.tokens.current = token
  running : m.world.shared.tokens.isTripped token = false

/-- A loop has waited at its check since it came to pause with a token. -/
def Waited (before : List (Machine H)) (token : Token) (l : Loop) (k : Thread H) : Prop :=
  ∃ earlier x since, before = earlier ++ x :: since ∧ x.Pauses token l k ∧
    ∀ y ∈ since, .check token l :: k ∈ y.threads

/-- A loop that waits at its check does so since it paused, or from the beginning. -/
theorem Path.waited (hp : Path s depth m before x) (hm : m.Orderly)
    (hx : .check token l :: k ∈ x.threads) : Waited before token l k ∨
      .check token l :: k ∈ m.threads ∧ ∀ y ∈ before, .check token l :: k ∈ y.threads := by
  induction hp with
  | nil => exact .inr ⟨hx, List.forall_mem_nil _⟩
  | @cons m y m' x before hshifts _ hstep _ ih =>
    have hmove := move_of_step hstep
    have hy := hm.shifts hshifts
    rcases ih (hy.move hmove) hx with ⟨earlier, z, since, rfl, hz, hsince⟩ | ⟨hm', hsince⟩
    · exact .inl ⟨y :: earlier, z, since, rfl, hz, hsince⟩
    · cases hmove.origin hm' with
      | kept hkept =>
        have hkept' := hshifts.rearranges.threads.mem_iff.mp hkept
        exact .inr ⟨hkept', List.forall_mem_cons.mpr ⟨hkept, hsince⟩⟩
      | begun _ _ hu => cases hu
      | left hready ha hu =>
        have hpaced := hy.paced _ (mem_threads_of_ready hready)
        cases hpaced.pauses (advance_becomes ha _ hu)
        obtain ⟨hcurrent, hrunning⟩ := advance_loop ha hu
        exact .inl ⟨[], y, before, rfl, ⟨⟨_, hready⟩, hcurrent, hrunning⟩, hsince⟩

/-- A loop is around some thread for as long as it is not to be left. -/
theorem Path.around (hp : Path s depth m trace x) (hm : m.Guarded)
    (ht : ∃ t ∈ m.threads, l.Around k t) : (∃ u ∈ x.threads, l.Around k u) ∨
      ∃ y ∈ trace, ∃ t rest, y.ready = .resume t :: rest ∧ l.Ends k y.world.shared t := by
  obtain ⟨t, ht, haround⟩ := ht
  have hlasts := hp.lasts (P := fun t => t.Whole ∧ l.Around k t)
    (Q := fun y => ∃ t rest, y.ready = .resume t :: rest ∧ l.Ends k y.world.shared t)
    (fun {y t rest a w} hready ht ha => ?_) ⟨t, ht, hm.threads ht, haround⟩
  · exact hlasts.imp_left fun ⟨u, hu, _, haround⟩ => ⟨u, hu, haround⟩
  · rcases ht.2.advance ht.1 ha with ⟨u, hu, haround⟩ | ⟨hends, _⟩
    · exact .inl ⟨u, hu, (ht.1.jobs ha).1 u hu, haround⟩
    · exact .inr ⟨t, rest, hready, hends⟩

/-- A failure in a pass ends at a boundary in front of the loop. -/
theorem Guarded.fails_of_loop (hm : m.Guarded) {e : RunError} {k' : Thread H} {w : World H}
    (hready : m.ready = .resume (t ++ .loop l :: k) :: rest)
    (hfails : Thread.Fails s.library (World.emit depth) m.world (t ++ .loop l :: k) e k' w) :
    ∃ b u, .boundary b :: u <:+ t ∧ m.step s (World.emit depth) = some (m.settle s rest
      (.on (b.resume (.error e) w.shared ++ (u ++ .loop l :: k)), b.catch e w)) := by
  cases t with
  | nil => cases hfails
  | cons f t =>
    have hguarded := (hm.front hready).of_loop
    obtain ⟨b, left, hk, _, hleft, hfail⟩ :=
      (hguarded.fails (append_loop_ne f t l k) hfails).resolve_right hguarded.not_failsLast
    obtain ⟨u, rfl⟩ := hleft.base_suffix
    refine ⟨b, u, ?_, hfail ▸ step_of_fails hready hfails⟩
    obtain ⟨_, he⟩ := hfails.eq_cons
    obtain ⟨rfl, rfl⟩ := List.cons.inj he
    rcases hk with hk | ⟨cs, hk⟩
    · have ht : t = .boundary b :: u := List.append_cancel_right (hk.trans rfl)
      exact ht ▸ List.suffix_cons _ _
    · have ht : t = .calls cs :: .boundary b :: u := List.append_cancel_right (hk.trans rfl)
      exact ht ▸ (List.suffix_cons _ _).trans (List.suffix_cons _ _)

/-! ## Runs -/

/-- **Loops that keep to their checks**, in a state from which a run makes a step after some others. -/
structure KeepsLoops (s : Setting H) (depth : Nat) (before : List (Machine H)) (x : Machine H) :
    Prop where
  /-- A loop that waits at its check does so since it paused, and its token was current then. -/
  waited {token : Token} {l : Loop} {k : Thread H} : .check token l :: k ∈ x.threads →
    Waited before token l k
  /-- A pass begins right after a check, at which the token of the pause was not tripped and the
  condition held. No step is made in between, and nothing has changed but that tokens may have been
  tripped. -/
  begins {l : Loop} {k : Thread H} {rest : List (Job H)} :
    x.ready = .resume (l.body.frames ++ .loop l :: k) :: rest →
    ∃ earlier y token rest', before = earlier ++ [y] ∧
      y.ready = .resume (.check token l :: k) :: rest' ∧ Waited earlier token l k ∧
      y.world.shared.tokens.isTripped token = false ∧
      (∀ inputs, l.condition = some inputs → y.world.shared.conditionHolds inputs) ∧
      y.world.shared.Trips x.world.shared ∧ x.world = { y.world with shared := x.world.shared }
  /-- A call of a loop that has a body and the inputs that it needs comes to the top of the loop. -/
  enters {c : Call} {cs : List Call} {l : Loop} {k : Thread H} {rest : List (Job H)} :
    x.ready = .resume (.calls (c :: cs) :: k) :: rest → c.Enters s.library l →
    x.step s (World.emit depth) =
      some (x.settle s rest (.on (.loop l :: .calls cs :: k), x.world.countCall))
  /-- The call returns only in a state in which the loop is to be left; any other step of its thread
  leaves it in the loop. -/
  returns {t k : Thread H} {l : Loop} {rest : List (Job H)} {a : Advance H} {w : World H} :
    x.ready = .resume t :: rest → l.Around k t →
    SnapBlocks.advance s.library (World.emit depth) t x.world = some (a, w) →
    (∃ u ∈ a.threads, l.Around k u) ∨ l.Ends k x.world.shared t ∧ a = .on k
  /-- Between a state in which a thread is in the loop and one in which none is, there is one in
  which the loop is to be left. -/
  lasts {earlier since : List (Machine H)} {y : Machine H} {l : Loop} {k : Thread H} :
    before = earlier ++ y :: since → (∃ t ∈ y.threads, l.Around k t) →
    (∃ u ∈ x.threads, l.Around k u) ∨
      ∃ z ∈ y :: since, ∃ t rest, z.ready = .resume t :: rest ∧ l.Ends k z.world.shared t
  /-- A failure in a pass, be it of a call or of a function of the host, ends at a boundary in front
  of the loop; there it is noted, and the loop stays. -/
  fails {t k k' : Thread H} {l : Loop} {rest : List (Job H)} {e : RunError} {w : World H} :
    x.ready = .resume (t ++ .loop l :: k) :: rest →
    Thread.Fails s.library (World.emit depth) x.world (t ++ .loop l :: k) e k' w →
    ∃ b u, .boundary b :: u <:+ t ∧ x.step s (World.emit depth) = some (x.settle s rest
      (.on (b.resume (.error e) w.shared ++ (u ++ .loop l :: k)), b.catch e w))

/-- Loops keep to their checks in a run that begins without threads, whatever the schedule is. -/
theorem Path.keepsLoops (hp : Path s depth m before y) (hx : y.Shifts x) (hguarded : m.Guarded)
    (hm : m.Orderly) (hnone : m.threads = []) : x.KeepsLoops s depth before := by
  have horderly {before : List (Machine H)} {x : Machine H} (hp : Path s depth m before x) :
      x.Orderly := (hp.invariant hm Orderly.shift Orderly.move).2
  have hsafe {before : List (Machine H)} {x : Machine H} (hp : Path s depth m before x) :
      x.Guarded := (hp.invariant hguarded (fun hm h => hm.rearranges h.rearranges)
        fun hm hmove => hm.move hmove).2
  have hwaited {before : List (Machine H)} {x : Machine H} {token : Token} {l : Loop} {k : Thread H}
      (hp : Path s depth m before x) (ht : .check token l :: k ∈ x.threads) :
      Waited before token l k := by
    refine (hp.waited hm ht).resolve_right fun h => ?_
    rw [hnone] at h
    cases h.1
  have hy := horderly hp
  have hthreads := hx.rearranges.threads
  have horder := hy.shifts hx
  have hkept := (hsafe hp).rearranges hx.rearranges
  constructor
  case waited => exact fun ht => hwaited hp (hthreads.mem_iff.mp ht)
  case begins =>
    intro l k rest hpass
    have hpolling := (Shifts.polling_eq hx).symm.trans (horder.polling_of_front hpass nofun)
    obtain ⟨⟨later, hlater⟩, hworld⟩ := Shifts.of_polling hx hpolling
    obtain ⟨u, rest', hfront⟩ := hy.front hpolling
    rw [hlater, hfront] at hpass
    cases hpass
    rcases List.eq_nil_or_concat before with rfl | ⟨earlier, z, rfl⟩
    · cases hp
      have hmem := mem_threads_of_ready hfront
      rw [hnone] at hmem
      cases hmem
    rw [List.concat_eq_append] at hp
    obtain ⟨z', hearlier, hlast⟩ := hp.split
    cases hlast with
    | cons hshifts hmore hstep hlast =>
      cases hlast
      obtain ⟨token, rest', hcheck, hsame, hgoes⟩ :=
        ((horderly hearlier).shifts hshifts).begins (move_of_step hstep) hfront hpolling
      obtain ⟨hrunning, hcondition⟩ := Loop.goesOn_iff.mp hgoes
      have hwaits := hshifts.rearranges.threads.mem_iff.mp (mem_threads_of_ready hcheck)
      exact ⟨earlier, z, token, rest', List.concat_eq_append, hcheck, hwaited hearlier hwaits,
        hrunning, hcondition, hsame ▸ hx.rearranges.shared, hsame ▸ hworld⟩
  case enters =>
    intro c cs l k rest hcall henters
    exact step_of_call hcall henters.effect
  case returns =>
    intro t k l rest a w hfront haround ha
    exact haround.advance (hkept.front hfront) ha
  case lasts =>
    rintro earlier since z l k rfl ⟨t, ht, haround⟩
    obtain ⟨z', hearlier, hsince⟩ := hp.split
    have ht' : t ∈ z'.threads := by
      cases hsince with
      | cons hshifts => exact hshifts.rearranges.threads.mem_iff.mp ht
    refine (hsince.around (hsafe hearlier) ⟨t, ht', haround⟩).imp_left ?_
    exact fun ⟨u, hu, haround⟩ => ⟨u, hthreads.mem_iff.mpr hu, haround⟩
  case fails =>
    intro t k k' l rest e w hready hfails
    exact hkept.fails_of_loop hready hfails

end Machine

namespace Session

open Machine

theorem orderly_machine {s : Session H} {p : Program} {limit : Option Nat} :
    (s.machine p limit).Orderly :=
  ⟨List.forall_mem_nil _, List.forall_mem_nil _, nofun⟩

theorem orderly_chainMachine {s : Session H} {chain : Chain} : (s.chainMachine chain).Orderly where
  paced t ht := by
    cases List.mem_singleton.mp ht
    exact .of_short (Thread.Short.cons (Thread.Short.cons .nil nofun) nofun)
      (.cons rfl (List.forall_mem_nil _))
  others := List.forall_mem_nil _
  front _ := ⟨_, _, rfl⟩

variable {s : Session H} {p : Program} {limit : Option Nat} {before : List (Machine H)}
variable {m x : Machine H}

/-- **Loops keep to their checks** in every state that a run of a program comes to, under every
schedule, and whatever the library, the hosts and the other programs are. -/
theorem keepsLoops_of_path (hp : Path s.setting depth (s.machine p limit) before m)
    (hx : m.Shifts x) : x.KeepsLoops s.setting depth before :=
  hp.keepsLoops hx guarded_machine orderly_machine rfl

/-- A new session with variables for a channel and for conditions. -/
def spinning : Session Unit := fresh {} () (Table.ofPairs [("chan", "ping"), ("op", "==")])

/-- A call that copies the name of the channel to another variable. -/
def storing (block : String) : Call :=
  .mk "setVariableTo" block [("0",
    [⟨"0", "", "data", .operand, .read, some "chan", "setVariableTo"⟩,
      ⟨"1", "", "variable", .operand, .write, some "x", "setVariableTo"⟩])] [] none

/-- A loop that sends a message as long as a variable has no value, and a body that gives it one
when it hears the message. -/
def spins : Program :=
  ⟨[[hearing "h" [storing "v"]],
    [.mk "startAgent" "s" [] [] (some [.mk "while" "w"
      [("0", ⟨"0", "", "varA", .operand, .read, some "x", "while"⟩ :: (holding "while").tail)]
      [("0", ⟨"while", [sending "c"]⟩)] none])]]⟩

/-- The body is run while the loop pauses after its only pass. -/
theorem keepsLoops_spins : ∃ before x,
    Path spinning.setting 2 (spinning.machine spins none) before x ∧ x.Shifts x ∧
      x.KeepsLoops spinning.setting 2 before ∧ x.isDone ∧
      (before.filterMap looping?).length = 1 ∧ x.world.shared.store["x"]? = some "ping" := by
  have hwalk : ((walk spinning.setting 2 30 (spinning.machine spins none)).any fun p =>
      p.2.isDone && (p.1.filterMap looping?).length == 1 &&
        p.2.world.shared.store["x"]? == some "ping") = true := by decide +kernel
  obtain ⟨⟨before, x⟩, hwalk, hx⟩ := (Option.any_eq_true _ _).mp hwalk
  simp only [Bool.and_eq_true, beq_iff_eq] at hx
  have hp := path_of_walk hwalk
  exact ⟨before, x, hp, .refl, keepsLoops_of_path hp .refl, hx.1.1, hx.1.2, hx.2⟩

end Session

end SnapBlocks

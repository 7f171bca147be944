import SnapBlocks.Proofs.Winding
import Mathlib.Logic.Hydra

/-! What is still run after a stop, under every schedule. A chain that runs in a stopped session comes
to its end: it makes open calls only, each of them once, and enters no loop. When a program is stopped
while it runs, each entry chain and each body goes on to make no more calls than there are in its own
chain, whatever it has gone through before, and whatever else is run meanwhile. -/

namespace SnapBlocks

open Relation

variable {H : Type} {w w' : World H} {em : Emitter H} {t u k : Thread H} {a : Advance H} {depth : Nat}
variable {library : Library H} {b : Boundary H}

/-! ## Loops -/

/-- Whether a frame is the check of a loop that has paused. -/
def Frame.isCheck : Frame H → Bool
  | .check _ _ => true
  | _ => false

/-- No loop in a thread has paused at its check. -/
def Thread.Unpaused (t : Thread H) : Prop := ∀ f ∈ t, f.isCheck = false

namespace Thread.Unpaused

theorem head {f : Frame H} (h : Thread.Unpaused (f :: t)) : f.isCheck = false := h f List.mem_cons_self

theorem tail {f : Frame H} (h : Thread.Unpaused (f :: t)) : t.Unpaused := fun g hg => h g (.tail _ hg)

theorem cons {f : Frame H} (hf : f.isCheck = false) (h : t.Unpaused) : Thread.Unpaused (f :: t) :=
  List.forall_mem_cons.mpr ⟨hf, h⟩

theorem work (k : Work H) (h : t.Unpaused) : Thread.Unpaused (k.frames ++ t) := by
  cases k with
  | none => exact h
  | arms | loop | task => exact .cons rfl h

theorem resume {result : Except RunError Unit} {shared : Shared H} (h : t.Unpaused) :
    Thread.Unpaused (b.resume result shared ++ t) := by
  cases b with
  | task => exact .cons rfl h
  | _ => exact h

theorem suffix (h : t.Unpaused) (hu : u <:+ t) : u.Unpaused := fun f hf => h f (hu.mem hf)

end Thread.Unpaused

/-- In a stopped program no loop comes to pause. -/
theorem advance_unpaused (hstop : w.shared.tokens.stopped) (ht : t.Unpaused)
    (h : advance library em t w = some (a, w')) : ∀ u ∈ a.threads, u.Unpaused := by
  intro u hu
  cases advance_becomes h u hu with
  | stays => exact ht
  | drops => exact ht.tail
  | works => exact .work _ (.cons rfl ht.tail)
  | unwinds hunwind => exact .resume (ht.tail.suffix (Thread.suffix_of_unwind hunwind))
  | returns => exact .resume ht.tail
  | enters => exact .cons rfl (.cons rfl (.cons rfl ht.tail))
  | passes | answers => exact .cons rfl ht.tail
  | invokes => exact .cons rfl (.cons rfl ht.tail)
  | pauses =>
    -- the loop is left instead
    cases advances_of_advance h with
    | leaves =>
      rw [Advance.eq_of_mem_threads_on hu]
      exact ht.tail
    | pauses hrunning =>
      rw [hstop] at hrunning
      cases hrunning
    | failed hfails => cases hfails
  | repeats => cases ht.head

namespace Machine

variable {m m' : Machine H} {s : Setting H} {trace : List (Machine H)} {rest : List (Job H)}

/-- The body of a loop that is entered in the next step. -/
def looping? (m : Machine H) : Option Body :=
  match m.ready with
  | .resume (.check token l :: _) :: _ =>
    if l.goesOn token m.world.shared then some l.body else none
  | _ => none

/-- Only a loop that has paused is entered. -/
theorem looping?_eq_none (h : ∀ t ∈ m.threads, t.Unpaused) : m.looping? = none := by
  unfold looping?
  split
  next token l t rest hready =>
    cases (h _ (mem_threads_of_ready hready)).head
  · rfl

theorem Move.unpaused (hstop : m.isStopped) (h : Move s em m m')
    (hm : ∀ t ∈ m.threads, t.Unpaused) : ∀ t ∈ m'.threads, t.Unpaused := by
  intro u hu
  cases h.origin hu with
  | kept hu => exact hm u hu
  | begun _ _ hu => exact hu ▸ .cons rfl (.cons rfl nofun)
  | left ht ha hu => exact advance_unpaused hstop (hm _ (mem_threads_of_ready ht)) ha u hu

theorem Path.unpaused (hp : Path s depth m trace m') (hstop : ∀ x ∈ trace, x.isStopped)
    (hm : ∀ t ∈ m.threads, t.Unpaused) : ∀ x ∈ trace, ∀ t ∈ x.threads, t.Unpaused := by
  induction hp with
  | nil => exact List.forall_mem_nil _
  | @cons m x m' m'' trace hshifts _ hstep _ ih =>
    obtain ⟨hfirst, hlater⟩ := List.forall_mem_cons.mp hstop
    have hx : ∀ t ∈ x.threads, t.Unpaused :=
      fun t ht => hm t (hshifts.rearranges.threads.mem_iff.mp ht)
    exact List.forall_mem_cons.mpr ⟨hx, ih hlater ((move_of_step hstep).unpaused hfirst hx)⟩

end Machine

/-! ## The course of a body -/

/-- The course of a part of a thread: it makes its steps from some states, in turn, before it comes to
what is left of it. All this is done in front of a base, to which the thread has not come back. -/
inductive Strand (s : Setting H) (depth : Nat) (base : Thread H) :
    Thread H → List (Machine H) → Thread H → Prop
  | nil {t : Thread H} : Strand s depth base t [] t
  | cons {x : Machine H} {t u v : Thread H} {rest : List (Job H)} {a : Advance H} {w : World H}
      {steps : List (Machine H)} : x.ready = .resume (t ++ base) :: rest →
      advance s.library (World.emit depth) (t ++ base) x.world = some (a, w) →
      u ++ base ∈ a.threads → Strand s depth base u steps v → Strand s depth base t (x :: steps) v

namespace Thread

theorem unwind_append (t : Thread H) (b : Boundary H) (k : Thread H) :
    unwind (t ++ .boundary b :: k) = (b, k) ∨
      ∃ b' l, unwind t = (b', l) ∧ unwind (t ++ .boundary b :: k) = (b', l ++ .boundary b :: k) := by
  fun_induction unwind t with
  | case1 => exact .inl rfl
  | case2 b' rest => exact .inr ⟨b', rest, rfl, rfl⟩
  | case3 f rest hf ih =>
    have hskip : unwind (f :: rest ++ .boundary b :: k) = unwind (rest ++ .boundary b :: k) := by
      cases f with
      | boundary b' => exact absurd rfl (hf b')
      | _ => rfl
    rw [hskip]
    exact ih

/-- What a thread comes to when it reaches a boundary: a part of what stands behind, with the function
of the host in front that runs what stood before. -/
inductive Returned (b : Boundary H) (k : Thread H) : Thread H → Prop
  | left {l : Thread H} : l <:+ k → Returned b k l
  | replied {l : Thread H} {label : Option String} {x : Task H} {replies : List (Reply H)}
      {reply : Reply H} : l <:+ k → .boundary (.task label x replies) ∈ .boundary b :: k →
      Returned b k (.task x (replies ++ [reply]) :: l)

namespace Returned

theorem resume {b' : Boundary H} {result : Except RunError Unit} {shared : Shared H} {l : Thread H}
    (hl : l <:+ k) (hb : b' = .outside ∨ .boundary b' ∈ .boundary b :: k) :
    Returned b k (b'.resume result shared ++ l) := by
  cases b' with
  | task label x replies => exact .replied hl (hb.resolve_left nofun)
  | _ => exact .left hl

theorem ne_append (h : Returned b k t) : t ≠ u ++ .boundary b :: k := by
  intro he
  have hlen := congrArg List.length he
  rw [List.length_append, List.length_cons] at hlen
  cases h with
  | left hl =>
    have hle := hl.length_le
    omega
  | replied hl _ =>
    have hle := hl.length_le
    cases u with
    | nil => cases he
    | cons f u =>
      rw [List.length_cons, List.length_cons] at hlen
      omega

end Returned

/-- What stands in front of a boundary becomes what it would be on its own, until the boundary is
reached. -/
theorem Becomes.above {v : Thread H} (h : Becomes library (t ++ .boundary b :: k) v) :
    (∃ u, v = u ++ .boundary b :: k ∧ t.Becomes library u) ∨ Returned b k v := by
  cases t with
  | nil =>
    right
    cases h with
    | drops => exact .left (List.suffix_refl k)
    | @unwinds _ _ l b' _ _ hk =>
      refine .resume (suffix_of_unwind hk) ((unwind_cases hk).imp And.left fun hs => ?_)
      exact .tail _ (hs.mem List.mem_cons_self)
    | returns => exact .resume (List.suffix_refl k) (.inr List.mem_cons_self)
  | cons f t =>
    cases h with
    | drops => exact .inl ⟨t, rfl, .drops⟩
    | @works c cs _ work hwork =>
      exact .inl ⟨_, (List.append_assoc _ (.calls cs :: t) _).symm, .works hwork⟩
    | unwinds hk =>
      rcases unwind_append t b k with he | ⟨b', l, hl, he⟩
      · cases he.symm.trans hk
        exact .inr (.resume (List.suffix_refl k) (.inr List.mem_cons_self))
      · cases he.symm.trans hk
        exact .inl ⟨_, (List.append_assoc ..).symm, .unwinds hl⟩
    | returns => exact .inl ⟨_, (List.append_assoc ..).symm, .returns⟩
    | @enters a arms => exact .inl ⟨_, (List.append_assoc _ (.arms arms :: t) _).symm, .enters⟩
    | passes => exact .inl ⟨_, rfl, .passes⟩
    | pauses => exact .inl ⟨_, rfl, .pauses⟩
    | @repeats token l => exact .inl ⟨_, (List.append_assoc _ (.loop l :: t) _).symm, .repeats⟩
    | answers hgoes => exact .inl ⟨_, rfl, .answers hgoes⟩
    | invokes hnext => exact .inl ⟨_, rfl, .invokes hnext⟩

theorem calling?_above (t : Thread H) (b : Boundary H) (k : Thread H) :
    Thread.calling? (t ++ .boundary b :: k) = t.calling? := by
  cases t with
  | nil => rfl
  | cons f t => rcases f with (_ | _) | _ | _ | _ | _ | _ <;> rfl

theorem calling?_sublist (t : Thread H) : t.calling?.toList.Sublist t.openCalls := by
  unfold Thread.calling?
  split
  next c cs k =>
    rw [openCalls_cons, Frame.openCalls, Chain.openCalls_cons, Call.openCalls_eq]
    exact List.singleton_sublist.mpr List.mem_cons_self
  · exact List.nil_sublist _

theorem ne_nil_of_mem_threads (h : advance library em t w = some (a, w')) (hu : u ∈ a.threads) :
    u ≠ [] := by
  rintro rfl
  cases a with
  | on t =>
    cases t with
    | nil => cases hu
    | cons f t => cases List.mem_singleton.mp hu
  | pause token t =>
    cases List.mem_singleton.mp hu
    rcases (advance_pause h).2 with ⟨_, _, _, _, _, he⟩ | ⟨_, _, _, _, _, _, _, he⟩
    · cases he
    · cases he
  | escaped e => cases hu

end Thread

namespace Strand

variable {s : Setting H} {base v : Thread H} {steps : List (Machine H)} {x : Machine H}
variable {rest : List (Job H)}

theorem snoc (h : Strand s depth base t steps u) (hready : x.ready = .resume (u ++ base) :: rest)
    (ha : advance s.library (World.emit depth) (u ++ base) x.world = some (a, w))
    (hv : v ++ base ∈ a.threads) : Strand s depth base t (steps ++ [x]) v := by
  induction h with
  | nil => exact .cons hready ha hv .nil
  | cons hready' ha' hu _ ih => exact .cons hready' ha' hu (ih hready ha)

section
variable (h : Strand s depth (.boundary b :: k) t steps u)
variable (hx : x.ready = .resume (u ++ .boundary b :: k) :: rest)
variable (hinert : ∀ y ∈ steps ++ [x], ∀ t ∈ y.threads, t.Inert)
include h hx hinert

/-- The calls that are made once the program was stopped are open in what there was to run. -/
theorem calls_le_openCalls (hstop : ∀ y ∈ steps ++ [x], y.isStopped) :
    ((steps ++ [x]).filterMap Machine.calling?).length ≤ t.openCalls.length := by
  induction h with
  | @nil t =>
    have hcalling : x.calling? = t.calling? :=
      (Machine.calling?_resume hx).trans (Thread.calling?_above t b k)
    have hle := (Thread.calling?_sublist t).length_le
    rw [List.nil_append, List.filterMap_eq_flatMap_toList, List.flatMap_singleton, hcalling]
    exact hle
  | @cons y t u v rest a w steps hready ha hu _ ih =>
    have hy := hinert y List.mem_cons_self _ (Machine.mem_threads_of_ready hready)
    have hwinds := advance_winds (hstop y List.mem_cons_self) hy ha
    have hmem := (List.singleton_sublist.mpr hu).flatMap Thread.openCalls
    rw [List.flatMap_singleton] at hmem
    have hlater := ih hx (fun z hz => hinert z (.tail _ hz)) fun z hz => hstop z (.tail _ hz)
    have hcalls := hwinds.calls.length_le
    have hleft := hmem.length_le
    rw [← Machine.calling?_resume hready, List.length_append] at hcalls
    simp only [Thread.openCalls_append, List.length_append] at hcalls hleft
    rw [List.cons_append, List.filterMap_eq_flatMap_toList, List.flatMap_cons, List.length_append,
      ← List.filterMap_eq_flatMap_toList]
    omega

/-- **Calls after a stop.** What was run in front of a boundary makes no more calls after a stop than
there are in the chains that it is in, whatever it has gone through before. -/
theorem calls_le (hstays : (steps ++ [x]).Pairwise fun y z => y.isStopped → z.isStopped) :
    (((steps ++ [x]).filter (·.isStopped)).filterMap Machine.calling?).length ≤ t.extent 0 := by
  have hstopped {t : Thread H} {y : Machine H} {l : List (Machine H)}
      (hle : (∀ z ∈ y :: l, z.isStopped) →
        ((y :: l).filterMap Machine.calling?).length ≤ t.openCalls.length)
      (hstays : (y :: l).Pairwise fun y z => y.isStopped → z.isStopped) (hy : y.isStopped) :
      (((y :: l).filter (·.isStopped)).filterMap Machine.calling?).length ≤ t.extent 0 := by
    have hall : ∀ z ∈ y :: l, z.isStopped :=
      List.forall_mem_cons.mpr ⟨hy, fun z hz => List.rel_of_pairwise_cons hstays hz hy⟩
    have hextent := t.length_openCalls_le 0
    rw [List.filter_eq_self.mpr hall]
    exact Nat.le_trans (hle hall) (by omega)
  induction h with
  | @nil t =>
    by_cases hy : x.isStopped
    · have hnil : Strand s depth (.boundary b :: k) t [] t := .nil
      exact hstopped (hnil.calls_le_openCalls hx hinert) hstays hy
    · rw [List.nil_append, List.filter_cons_of_neg hy]
      exact Nat.zero_le _
  | @cons y t u v rest a w steps hready ha hu hrest ih =>
    by_cases hy : y.isStopped
    · exact hstopped ((Strand.cons hready ha hu hrest).calls_le_openCalls hx hinert) hstays hy
    · have hinert' := hinert y List.mem_cons_self _ (Machine.mem_threads_of_ready hready)
      have hlater := ih hx (fun z hz => hinert z (.tail _ hz)) (List.Pairwise.of_cons hstays)
      rw [List.cons_append, List.filter_cons_of_neg hy]
      refine Nat.le_trans hlater ?_
      rcases (advance_becomes ha _ hu).above with ⟨u', he, hbecomes⟩ | hreturned
      · cases List.append_cancel_right he
        refine hbecomes.extent_le fun x replies k' isolated b' ht => ?_
        exact hinert' x replies (k' ++ .boundary b :: k) isolated b' (by rw [ht]; rfl)
      · exact absurd rfl hreturned.ne_append

end

end Strand

namespace Machine

variable {m m' x : Machine H} {s : Setting H} {trace before : List (Machine H)} {T : Task H → Prop}

theorem Keeps.stays (hm : m.Keeps (.persistent T) s) (hp : Path s depth m trace m') :
    trace.Pairwise fun y z => y.isStopped → z.isStopped := by
  have hR := Terms.lasting_persistent (T := T)
  induction hp with
  | nil => exact .nil
  | cons hshifts _ hstep hp ih =>
    obtain ⟨hm', hdoes⟩ := (hm.shifts hR hshifts).1.move hR (move_of_step hstep)
    refine .cons (fun y hy hx => ?_) (ih hm')
    exact (hm'.isStopped (hdoes.persists.stopped hx) hp).1 y hy

/-- A thread is in the course of an entry chain, or of a body that was queued, which began in one of
some states. -/
inductive Underway (s : Setting H) (depth : Nat) (before : List (Machine H)) : Thread H → Prop
  | intro {earlier since steps : List (Machine H)} {y : Machine H} {c : Chain} {b : Boundary H}
      {t : Thread H} : before = earlier ++ y :: since → y.beginning? = some c →
      (b = .entry ∨ ∃ label, b = .body label) → steps.Sublist since →
      Strand s depth [.boundary b] [.calls c] steps t → Underway s depth before (t ++ [.boundary b])

theorem Underway.later (h : Underway s depth before t) (x : Machine H) :
    Underway s depth (before ++ [x]) t := by
  cases h with
  | intro hbefore hc hb hsteps hstrand =>
    rw [hbefore, List.append_assoc, List.cons_append]
    exact .intro rfl hc hb (hsteps.trans (List.sublist_append_left _ _)) hstrand

theorem Underway.move (hm : ∀ t ∈ m.threads, Underway s depth before t)
    (h : Move s (World.emit depth) m m') :
    ∀ t ∈ m'.threads, Underway s depth (before ++ [m]) t := by
  intro u hu
  cases h.origin hu with
  | kept hu => exact (hm u hu).later m
  | @begun c b hc hb hu => exact hu ▸ .intro (t := [.calls c]) rfl hc hb (.refl _) .nil
  | @left t' rest a w hready ha hu =>
    have hne := Thread.ne_nil_of_mem_threads ha hu
    obtain ⟨hbefore, hc, hb, hsteps, hstrand⟩ := hm _ (mem_threads_of_ready hready)
    rcases (advance_becomes ha u hu).above with ⟨v, rfl, _⟩ | hreturned
    · rw [hbefore, List.append_assoc, List.cons_append]
      exact .intro rfl hc hb (hsteps.append (.refl [m])) (hstrand.snoc hready ha hu)
    · -- nothing stands behind the boundary of the chain
      cases hreturned with
      | left hl => exact absurd (List.suffix_nil.mp hl) hne
      | replied _ htask =>
        cases List.mem_singleton.mp htask
        rcases hb with hb | ⟨_, hb⟩
        · cases hb
        · cases hb

/-- **Each thread of a program is in the course of a chain that began**, whatever the schedule is. -/
theorem Path.underway (hp : Path s depth m trace m') (hm : m.threads = []) :
    ∀ t ∈ m'.threads, Underway s depth trace t := by
  suffices hlater : ∀ before, (∀ t ∈ m.threads, Underway s depth before t) →
      ∀ t ∈ m'.threads, Underway s depth (before ++ trace) t from
    hlater [] (hm ▸ List.forall_mem_nil _)
  clear hm
  induction hp with
  | nil => exact fun before hm => by rwa [List.append_nil]
  | @cons m x m' m'' trace hshifts _ hstep _ ih =>
    intro before hm
    have hx : ∀ t ∈ x.threads, Underway s depth before t :=
      fun t ht => hm t (hshifts.rearranges.threads.mem_iff.mp ht)
    have hlater := ih _ (Underway.move hx (move_of_step hstep))
    rwa [List.append_assoc, List.singleton_append] at hlater

end Machine

/-! ## Functions of the host that return -/

/-- What a function of the host does about a call runs no body. -/
def Task.Plain (x : Task H) : Prop := ∀ replies isolated b, x replies ≠ .invoke isolated b

/-- What a function of the host does goes on with one more reply. -/
def Task.Next (x : Task H) (later earlier : List (Reply H)) : Prop :=
  (∀ result, x earlier ≠ .finish result) ∧ ∃ reply, later = earlier ++ [reply]

/-- What a function of the host does comes to its end, whatever the replies are. -/
def Task.Returns (x : Task H) : Prop := Acc x.Next []

/-- If a function of the host goes on in a frame, it comes to its end. -/
def Frame.Settled : Frame H → Prop
  | .task x replies => Acc x.Next replies
  | .boundary (.task _ x replies) => ∀ reply, Acc x.Next (replies ++ [reply])
  | _ => True

/-- The functions of the host that go on in a thread come to their ends. -/
def Thread.Settled (t : Thread H) : Prop := ∀ f ∈ t, f.Settled

namespace Thread

namespace Settled

theorem head {f : Frame H} (h : Thread.Settled (f :: t)) : f.Settled := h f List.mem_cons_self

theorem tail {f : Frame H} (h : Thread.Settled (f :: t)) : t.Settled := fun g hg => h g (.tail _ hg)

theorem cons {f : Frame H} (hf : f.Settled) (h : t.Settled) : Thread.Settled (f :: t) :=
  List.forall_mem_cons.mpr ⟨hf, h⟩

theorem resume {result : Except RunError Unit} {shared : Shared H} (hb : Frame.Settled (.boundary b))
    (h : t.Settled) : Thread.Settled (b.resume result shared ++ t) := by
  cases b with
  | task => exact .cons (hb _) h
  | _ => exact h

theorem unwind (h : t.Settled) (hu : unwind t = (b, u)) :
    Frame.Settled (.boundary b) ∧ u.Settled := by
  rcases unwind_cases hu with ⟨rfl, rfl⟩ | hs
  · exact ⟨trivial, List.forall_mem_nil _⟩
  · have hend : Thread.Settled (.boundary b :: u) := fun f hf => h f (hs.mem hf)
    exact ⟨hend.head, hend.tail⟩

end Settled

theorem Becomes.settled (hl : ∀ (c : Call) (x : Task H), c.task? library = some x → x.Returns)
    (h : t.Becomes library u) (ht : t.Settled) : u.Settled := by
  cases h with
  | stays => exact ht
  | drops => exact ht.tail
  | @works c cs k work hwork =>
    have hrest : Thread.Settled (.calls cs :: k) := .cons trivial ht.tail
    cases hwork with
    | none => exact hrest
    | arms | loop => exact .cons trivial hrest
    | task hx => exact .cons (hl c _ hx) hrest
  | unwinds hunwind =>
    obtain ⟨hb, hk⟩ := ht.tail.unwind hunwind
    exact .resume hb hk
  | returns => exact .resume ht.head ht.tail
  | enters | repeats => exact .cons trivial (.cons trivial (.cons trivial ht.tail))
  | passes | pauses => exact .cons trivial ht.tail
  | @answers x replies reply k hgoes =>
    have hx : Acc x.Next replies := ht.head
    exact .cons (hx.inv ⟨hgoes, reply, rfl⟩) ht.tail
  | @invokes x replies isolated b label k hnext =>
    have hx : Acc x.Next replies := ht.head
    have hgoes : ∀ result, x replies ≠ .finish result := by
      rw [hnext]
      exact nofun
    exact .cons trivial (.cons (fun reply => hx.inv ⟨hgoes, reply, rfl⟩) ht.tail)

/-- What a step leaves of a thread once its program was stopped: less than there was, or what a
function of the host leaves that goes on. -/
def Goes (u t : Thread H) : Prop :=
  t.Settled ∧ (u.cost < t.cost ∨ ∃ x replies reply k, t = .task x replies :: k ∧
    u = .task x (replies ++ [reply]) :: k ∧ ∀ result, x replies ≠ .finish result)

/-- A thread whose functions of the host come to their ends does not go on for ever. -/
theorem wellFounded_goes : WellFounded (Goes (H := H)) := by
  refine ⟨fun t => ?_⟩
  induction hn : t.cost using Nat.strong_induction_on generalizing t with
  | _ n ih =>
    have hless {t u : Thread H} (ht : t.cost = n) (hu : u.cost < t.cost) : Acc Goes u :=
      ih _ (ht ▸ hu) u rfl
    by_cases htask : ∃ x replies k, t = .task x replies :: k
    · obtain ⟨x, replies, k, rfl⟩ := htask
      by_cases hx : Acc x.Next replies
      · -- the function comes to its end without making the thread any less
        induction hx with
        | intro replies _ ihx =>
          refine ⟨_, fun u hu => ?_⟩
          rcases hu.2 with hu | ⟨_, _, reply, _, he, rfl, hgoes⟩
          · exact hless hn hu
          · cases he
            exact ihx _ ⟨hgoes, reply, rfl⟩ hn
      · exact ⟨_, fun u hu => absurd hu.1.head hx⟩
    · refine ⟨_, fun u hu => hu.2.elim (hless hn) ?_⟩
      rintro ⟨x, replies, _, k, ht, _⟩
      exact absurd ⟨x, replies, k, ht⟩ htask

theorem goes_of_advance (hstop : w.shared.tokens.stopped) (hinert : t.Inert) (ht : t.Settled)
    (h : advance library em t w = some (a, w')) : ∀ u ∈ a.threads, u.Goes t := by
  intro u hu
  refine ⟨ht, ?_⟩
  rcases (advance_winds hstop hinert h).cost with hlt | ⟨x, replies, reply, k, rfl, ha, hgoes⟩
  · exact .inl (Nat.lt_of_le_of_lt (List.le_sum_of_mem (List.mem_map_of_mem hu)) hlt)
  · rw [ha] at hu
    exact .inr ⟨x, replies, reply, k, rfl, List.mem_singleton.mp hu, hgoes⟩

end Thread

namespace Machine

variable {m m' : Machine H} {s : Setting H} {depth : Nat} {T : Task H → Prop}

theorem Keeps.settled (hm : m.Keeps (.persistent T) s) (hT : ∀ x, T x → x.Returns)
    (h : Move s em m m') (hsettled : ∀ t ∈ m.threads, t.Settled) :
    ∀ t ∈ m'.threads, t.Settled := by
  intro u hu
  cases h.origin hu with
  | kept hu => exact hsettled u hu
  | begun _ hb hu =>
    rw [hu]
    rcases hb with rfl | ⟨_, rfl⟩
    · exact .cons trivial (.cons trivial (List.forall_mem_nil _))
    · exact .cons trivial (.cons trivial (List.forall_mem_nil _))
  | left ht ha hu =>
    refine (advance_becomes ha u hu).settled (fun c x hx => ?_) (hsettled _ (mem_threads_of_ready ht))
    exact hT x (hm.library.task (fun _ _ => trivial) hx).task

theorem Keeps.inert (hm : m.Keeps (.persistent T) s) (hT : ∀ x, T x → x.Plain) :
    ∀ t ∈ m.threads, t.Inert := by
  rintro t ht x replies k isolated b rfl
  have hx : x.Respects (.persistent T) := (hm.threads ht).head
  exact hT x hx.task replies isolated b

/-- **A chain that runs alone in a stopped program comes to its end**, under every schedule. -/
theorem Keeps.halts_of_rest (hm : m.Keeps (.persistent T) s)
    (hT : ∀ x, T x → x.Plain ∧ x.Returns) (hstop : m.isStopped) (hplan : m.plan = .rest)
    (henlisted : m.enlisted = []) (hsettled : ∀ t ∈ m.threads, t.Settled)
    (hresponsive : m.Responsive s) : m.Halts s := by
  have hR := Terms.lasting_persistent (T := T)
  refine (finishes_of_ranked Thread.wellFounded_goes.cutExpand
    (I := fun l x => (x.threads : Multiset (Thread H)) = l ∧ x.plan = .rest ∧ x.enlisted = [] ∧
      ∀ t ∈ x.threads, t.Settled) ?_ ?_ ⟨rfl, hplan, henlisted, hsettled⟩).halts hresponsive
  · rintro _ x y ⟨rfl, hplan, henlisted, hsettled⟩ h
    refine ⟨Multiset.coe_eq_coe.mpr h.threads, h.plan.trans hplan, ?_,
      fun t ht => hsettled t (h.threads.mem_iff.mp ht)⟩
    rw [h.enlisted (by rw [hplan]; nofun)]
    exact henlisted
  · rintro _ m' x y hcomes hshifts ⟨rfl, hplan, henlisted, hsettled⟩ ⟨hmore, depth, hstep⟩
    have hmove := move_of_step hstep
    have hx := ((hm.comes hR hcomes).shifts hR hshifts).1
    have hstopped : x.isStopped := hshifts.isStopped (hm.isStopped_of_comes hstop hcomes)
    have hy := hx.settled (fun t ht => (hT t ht).2) hmove hsettled
    cases hmove with
    | start hready =>
      have hstart := henlisted
      unfold Machine.enlisted at hstart
      rw [hready] at hstart
      cases hstart
    | @advance t rest a w hready ha he =>
      have ht := mem_threads_of_ready hready
      have hinert := hx.inert (fun t ht => (hT t ht).1) t ht
      have hsettle := rearranges_settle x s rest a w
      rw [← he] at hsettle
      refine .inl ⟨y.threads, ⟨a.threads, t, fun u hu => ?_, ?_⟩, rfl, hsettle.plan.trans hplan, ?_,
        hy⟩
      · exact Thread.goes_of_advance hstopped hinert (hsettled t ht) ha u hu
      · have hthreads := hsettle.threads
        rw [threads_taken] at hthreads
        have hbefore : x.threads = t :: (rest.filterMap Job.thread? ++ x.paused.map (·.thread)) := by
          unfold Machine.threads
          rw [hready]
          rfl
        rw [hbefore]
        refine Multiset.coe_eq_coe.mpr ((List.perm_append_singleton t _).trans (.cons t ?_))
        exact hthreads.trans List.perm_append_comm
      · have hdrive : (x.taken rest a w).plan ≠ .drive := by
          change x.plan ≠ .drive
          rw [hplan]
          exact nofun
        rw [hsettle.enlisted hdrive, enlisted_taken, ← henlisted]
        unfold Machine.enlisted
        rw [hready]
        rfl
    | enter _ _ hregister => cases hplan.symm.trans hregister
    | begin _ _ hregister => cases hplan.symm.trans hregister
    | rearrange hready =>
      refine .inr (.inl ⟨hready, fun hpaused => Bool.eq_false_iff.mp hmore (isDone_iff.mpr ?_)⟩)
      refine ⟨hready, hpaused, fun entries he => ?_⟩
      cases hplan.symm.trans he

/-! ## Chains that run alone -/

theorem openCalls_chainMachine (s : Session H) (c : Chain) :
    (s.chainMachine c).openCalls = (Chain.openCalls c : Multiset Call) := by
  have hopen : (s.chainMachine c).openCalls =
      ((Thread.openCalls [.calls c, .boundary .outside] : Multiset Call) + 0) + 0 + 0 := rfl
  rw [hopen, add_zero, add_zero, add_zero, Thread.openCalls_cons, Thread.openCalls_cons,
    Thread.openCalls_nil, Frame.openCalls, Frame.openCalls, List.append_nil, List.append_nil]

theorem Path.plan_rest {trace : List (Machine H)} (hp : Path s depth m trace m')
    (hm : m.plan = .rest) : ∀ x ∈ trace, x.plan = .rest :=
  (hp.invariant (I := fun x => x.plan = .rest) hm (fun hx h => h.rearranges.plan.trans hx)
    fun hx h => h.plan_rest.mpr hx).1

/-- A chain that runs alone in a stopped program makes each of its open calls at most once. -/
theorem Path.openCalls_subperm {trace : List (Machine H)} (hp : Path s depth m trace m')
    (hm : m.plan = .rest) (hstop : ∀ x ∈ trace, x.isStopped)
    (hinert : ∀ x ∈ trace, ∀ t ∈ x.threads, t.Inert) :
    (trace.filterMap calling? : Multiset Call) ≤ m.openCalls := by
  have hnone : (trace.map (incomingCalls s depth)).sum = 0 := by
    refine List.sum_eq_zero fun n hn => ?_
    obtain ⟨x, hx, rfl⟩ := List.mem_map.mp hn
    unfold incomingCalls
    rw [incoming_of_rest (hp.plan_rest hm x hx)]
    rfl
  have hle := hp.openCalls_le hstop hinert
  rw [hnone, add_zero] at hle
  exact (Multiset.le_add_right _ _).trans hle

end Machine

/-! ## Sessions -/

namespace Session

open Machine

variable {s : Session H}

theorem runChain_eq (s : Session H) (fuel : Nat) (c : Chain) :
    s.runChain fuel c = (Machine.run s.setting fuel fuel (s.chainMachine c)).map fun m =>
      (m.result, { s with world := m.world }) := by
  unfold runChain operate
  cases Machine.run s.setting fuel fuel _ <;> rfl

/-- The machines that a session runs. -/
inductive Runs (s : Session H) : Machine H → Prop
  | program {p : Program} {limit : Option Nat} : Runs s (s.machine p limit)
  | chain {c : Chain} : Runs s (s.chainMachine c)

/-- What becomes of what is run when a session was stopped, or while it runs. -/
structure WindsDown (s : Session H) : Prop where
  /-- A chain comes to its end under every schedule, and returns, if the host answers whenever it is
  asked. -/
  returns {c : Chain} : s.isCancelled → (s.chainMachine c).Responsive s.setting →
    (s.chainMachine c).Halts s.setting ∧
      ∃ bound result after, ∀ fuel, bound ≤ fuel → s.runChain fuel c = some (result, after)
  /-- The calls that are made while a chain runs are open calls of it, each of them made once. -/
  calls {c : Chain} {depth : Nat} {trace : List (Machine H)} {m : Machine H} : s.isCancelled →
    Path s.setting depth (s.chainMachine c) trace m →
      (trace.filterMap calling?).Subperm (Chain.openCalls c)
  /-- If its blocks are distinct, none of them is called twice. -/
  nodup {c : Chain} {depth : Nat} {trace : List (Machine H)} {m : Machine H} : s.isCancelled →
    Path s.setting depth (s.chainMachine c) trace m → ((Chain.calls c).map Call.block).Nodup →
      ((trace.filterMap calling?).map Call.block).Nodup
  /-- No loop is entered, however deep it is nested. -/
  loops {c : Chain} {depth : Nat} {trace : List (Machine H)} {m x : Machine H} : s.isCancelled →
    Path s.setting depth (s.chainMachine c) trace m → x ∈ trace → x.looping? = none
  /-- Whenever the session is stopped while something runs: the steps of a body that are made after
  that, the last of which is `x`, make no more calls than there are in the chain of the body. Bodies
  are all that is run up to a boundary: those of conditions and loops, and those that were queued. -/
  bodies {start m x : Machine H} {c : Chain} {b : Boundary H} {k v : Thread H} {depth : Nat}
    {trace steps : List (Machine H)} {rest : List (Job H)} : s.Runs start →
    Path s.setting depth start trace m →
    Strand s.setting depth (.boundary b :: k) [.calls c] steps v →
    x.ready = .resume (v ++ .boundary b :: k) :: rest → (steps ++ [x]).Sublist trace →
      (((steps ++ [x]).filter (·.isStopped)).filterMap calling?).length ≤ (Chain.calls c).length
  /-- Each thread of a program is in the course of an entry chain or of a body that was queued, from
  the step on in which that one began. -/
  threads {p : Program} {limit : Option Nat} {depth : Nat} {trace : List (Machine H)}
    {m : Machine H} {t : Thread H} : Path s.setting depth (s.machine p limit) trace m →
    t ∈ m.threads → Underway s.setting depth trace t

/-- **No work is repeated after a stop**, under every schedule, and whatever the world of a session is,
as long as the host does not replace the token, and its functions come to their ends and run no
bodies. -/
theorem windsDown (hs : s.Respects (.persistent fun x => x.Plain ∧ x.Returns)) : s.WindsDown := by
  have hR := Terms.lasting_persistent (T := fun x : Task H => x.Plain ∧ x.Returns)
  have hkeeps {m : Machine H} (hm : s.Runs m) :
      m.Keeps (.persistent fun x => x.Plain ∧ x.Returns) s.setting := by
    cases hm with
    | program => exact hs.machine fun _ _ => trivial
    | chain => exact hs.chainMachine fun _ _ => trivial
  have hinert {m m' : Machine H} {depth : Nat} {trace : List (Machine H)} (hm : s.Runs m)
      (hp : Path s.setting depth m trace m') : ∀ x ∈ trace, ∀ t ∈ x.threads, t.Inert :=
    fun x hx => (((hkeeps hm).path hR hp).1 x hx).inert fun _ hT => hT.1
  have hstopped {c : Chain} {m : Machine H} {depth : Nat} {trace : List (Machine H)}
      (hcancelled : s.isCancelled) (hp : Path s.setting depth (s.chainMachine c) trace m) :
      ∀ x ∈ trace, x.isStopped := ((hkeeps .chain).isStopped hcancelled hp).1
  have hcalls {c : Chain} {depth : Nat} {trace : List (Machine H)} {m : Machine H}
      (hcancelled : s.isCancelled) (hp : Path s.setting depth (s.chainMachine c) trace m) :
      (trace.filterMap calling?).Subperm (Chain.openCalls c) := by
    have hle := hp.openCalls_subperm rfl (hstopped hcancelled hp) (hinert .chain hp)
    rw [openCalls_chainMachine] at hle
    exact Multiset.coe_le.mp hle
  refine ⟨fun {c} hcancelled hresponsive => ?_, hcalls, fun {c _ _ _} hcancelled hp hnodup => ?_,
    fun {c depth trace m x} hcancelled hp hx => ?_,
    fun {_ _ _ c b k _ _ trace steps _} hstart hp hstrand hx hsublist => ?_,
    fun {p limit _ _ _ t} hp ht => ?_⟩
  · have hsettled : ∀ t ∈ (s.chainMachine c).threads, t.Settled :=
      List.forall_mem_singleton.mpr (.cons trivial (.cons trivial (List.forall_mem_nil _)))
    have hhalts := (hkeeps .chain).halts_of_rest (fun _ hT => hT) hcancelled rfl rfl hsettled
      hresponsive
    obtain ⟨m, bound, hrun⟩ := hhalts.returns
    refine ⟨hhalts, bound, m.result, { s with world := m.world }, fun fuel hfuel => ?_⟩
    rw [runChain_eq, hrun fuel fuel hfuel hfuel]
    rfl
  · have hsub := (hcalls hcancelled hp).trans (Chain.openCalls_sublist c).subperm
    obtain ⟨l, hperm, hl⟩ := subperm_map hsub Call.block
    exact hperm.nodup_iff.mp (hl.nodup hnodup)
  · have hunpaused : ∀ t ∈ (s.chainMachine c).threads, t.Unpaused :=
      List.forall_mem_singleton.mpr (.cons rfl (.cons rfl (List.forall_mem_nil _)))
    exact looping?_eq_none (hp.unpaused (hstopped hcancelled hp) hunpaused x hx)
  · have hstays := ((hkeeps hstart).stays hp).sublist hsublist
    have hle := hstrand.calls_le hx (fun y hy => hinert hstart hp y (hsublist.mem hy)) hstays
    have hextent : Thread.extent 0 ([.calls c] : Thread H) = (Chain.calls c).length :=
      Nat.zero_add _
    rwa [hextent] at hle
  · exact hp.underway rfl t ht

/-- A function of the host that emits an event, and then waits. -/
def signaling : Task Unit
  | [] => .react (.emit "ping" [] fun _ => .done)
  | [_] => .pause
  | _ :: _ :: _ => .finish (.ok ())

/-- A session that was stopped. It has a function of the host, which emits an event that the host
hears and to which a body has subscribed; it has variables for conditions and for that event. -/
def halted : Session Unit :=
  (new ⟨Library.standard.insert "note" (.host fun _ => signaling), {}⟩ ())
    |>.modifyStore (fun _ => Table.ofPairs [("op", "=="), ("to", "ping")])
    |>.subscribe "ping" (.handler fun _ => .done)
    |>.subscribeBody "ping" ⟨"heard", []⟩
    |>.cancel

/-- Inputs of a condition that holds. -/
def holding (segment : String) : List BoundInput :=
  [⟨"0", "", "varA", .operand, .read, none, segment⟩,
    ⟨"1", "", "varB", .operand, .read, none, segment⟩,
    ⟨"2", "", "eval", .operator, .read, some "op", segment⟩]

/-- A call of the function of the host. -/
def noting (block : String) : Call := .mk "note" block [] [] none

/-- A chain with loops outside and inside of a condition, and with a scope. -/
def nested : Chain :=
  [.mk "if" "a" [("0", holding "if")] [("0", ⟨"if", [noting "b",
      .mk "broadcast" "c" [("0", [⟨"0", "", "channel", .operand, .read, some "to", "broadcast"⟩])] []
        none,
      .mk "while" "d" [("0", holding "while")] [("0", ⟨"while", [noting "e"]⟩)] none]⟩)] none,
    .mk "forever" "f" [] [("0", ⟨"forever", [noting "g"]⟩)] none,
    .mk "startAgent" "h" [] [] (some [noting "i"]), noting "j"]

/-- That function keeps to all terms that allow it, and so does the session. -/
theorem respects_halted {R : Terms Unit} (htask : R.tasks signaling)
    (hhandler : R.handlers fun _ => .done) : halted.Respects R := by
  have hdone : (Reaction.done : Reaction Unit).Respects R := .finish _
  have hfunction : (Function.host fun _ => signaling).Respects R := by
    refine fun _ _ => ⟨htask, fun replies => ?_⟩
    rcases replies with _ | ⟨_, _ | _⟩
    · exact .emit fun _ => hdone
    · exact trivial
    · exact trivial
  have hlibrary := Library.respects_standard.insert "note" hfunction
  have hheard : Duty.Respects (H := Unit) R (.start ⟨"heard", []⟩) := nofun
  exact ((((respects_new hlibrary ()).modifyStore _).subscribe "ping"
    (.handler hhandler fun _ => hdone)).subscribe "ping" (.own hheard)).cancel

theorem plain_signaling : signaling.Plain := by
  rintro (_ | ⟨_, _ | _⟩) isolated b h
  · cases h
  · cases h
  · cases h

theorem returns_signaling : signaling.Returns := by
  refine ⟨_, ?_⟩
  rintro _ ⟨_, first, rfl⟩
  refine ⟨_, ?_⟩
  rintro _ ⟨_, second, rfl⟩
  refine ⟨_, ?_⟩
  rintro _ ⟨hgoes, _⟩
  exact absurd rfl (hgoes _)

/-- The host answers whenever such a session asks it. -/
theorem responsive_halted : (halted.chainMachine nested).Responsive halted.setting := by
  -- the function emits an event only at first, and handlers end at once
  have hR : Terms.Lasting (H := Unit) ⟨fun _ _ => True, fun _ => True, (· = signaling), Answers⟩ :=
    ⟨fun _ => trivial, fun _ _ => trivial, fun _ _ => trivial⟩
  have hhosts : halted.Respects ⟨fun _ _ => True, fun _ => True, (· = signaling), Answers⟩ :=
    respects_halted rfl fun _ _ _ => rfl
  refine (hhosts.chainMachine fun _ _ => trivial).responsive hR ⟨id, ?_⟩
    (Library.unguarded_standard.insert_host _ _)
  rintro t replies r w rfl hnext hw
  rcases replies with _ | ⟨_, _ | _⟩
  · cases hnext
    refine ⟨1, ?_⟩
    have hemit : (World.emit 1 "ping" [] w).isSome := by
      refine World.emit_isSome (fun respond hmem => ?_) 0
      cases hw.subscribers hmem with
      | handler hanswers => exact hanswers
    obtain ⟨q, hq⟩ := Option.isSome_iff_exists.mp hemit
    unfold Reaction.run
    rw [hq]
    rfl
  · cases hnext
  · cases hnext

theorem windsDown_halted : halted.isCancelled ∧
    (halted.chainMachine nested).Responsive halted.setting ∧ halted.WindsDown ∧
      ∃ after, halted.runChain 60 nested = some (.ok (), after) ∧ after.world.calls = 7 ∧
        (Chain.calls nested).length = 10 := by
  have hrun : (halted.runChain 60 nested).map (fun q => (q.1.toOption, q.2.world.calls)) =
      some (some (), 7) := by decide +kernel
  obtain ⟨⟨result, after⟩, he, hr⟩ := Option.map_eq_some_iff.mp hrun
  obtain ⟨hresult, hcalls⟩ := Prod.mk.inj hr
  cases result with
  | error => cases hresult
  | ok =>
    have hlength : (Chain.calls nested).length = 10 := by decide +kernel
    have hwinds := windsDown (respects_halted ⟨plain_signaling, returns_signaling⟩ trivial)
    exact ⟨by decide +kernel, responsive_halted, hwinds, after, he, hcalls, hlength⟩

end Session

end SnapBlocks

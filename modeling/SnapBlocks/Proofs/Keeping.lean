import SnapBlocks.Proofs.Outcome
import SnapBlocks.Proofs.Threads

/-! Terms along runs. If the hosts of a machine keep to terms, then whatever the schedule is, all that
waits, listens or runs keeps to them in every state, and what is shared changes as they say, but for
the calls that set a variable. -/

namespace SnapBlocks

variable {H : Type} {w w' : World H} {em : Emitter H} {depth : Nat} {library : Library H}
variable {R : Terms H}

/-! ## Steps of threads -/

theorem Loop.leave_remains (l : Loop) (w : World H) : w.Remains (l.leave w) := by
  unfold leave
  split
  · exact .of_eq rfl rfl rfl
  · exact .of_eq rfl rfl rfl

theorem fail_remains {e : RunError} {t : Thread H} {a : Advance H} (h : fail e t w = (a, w')) :
    w.Remains w' := by
  rcases fail_world h with rfl | ⟨_, rfl⟩
  · exact .of_eq rfl rfl rfl
  · exact .of_eq rfl rfl rfl

theorem Thread.Respects.reacting {t : Thread H} (ht : t.Respects R) {r : Reaction H}
    (hr : t.reacting? = some r) : r.Respects R := by
  unfold reacting? at hr
  split at hr
  next x replies k =>
    have hx : x.Respects R := ht.head
    have hrequest := hx.request replies
    split at hr
    next hnext =>
      cases hr
      rw [hnext] at hrequest
      exact hrequest
    · cases hr
  · cases hr

theorem Thread.Respects.calling {t : Thread H} (ht : t.Respects R) {c : Call}
    (hc : t.calling? = some c) : ∀ x ∈ c.calls, R.calls x := by
  unfold calling? at hc
  split at hc
  next c' cs k =>
    cases hc
    have hcalls : Chain.All R.calls (c :: cs) := ht.head
    exact hcalls.head
  · cases hc

section
variable (hR : R.Lasting) (hl : library.Respects R) (hw : w.Respects R)
include hR hl hw

theorem advance_called (hem : em.Abides R) {t : Thread H} {a : Advance H} (ht : t.Respects R)
    (h : advance library em t w = some (a, w')) : w.Abides R w' ∨
      ∃ c, t.calling? = some c ∧ w.Called R (c.builtin? library) c w' := by
  have hcall {c : Call} (hc : t.calling? = some c) : ∀ x ∈ c.calls, R.calls x := ht.calling hc
  cases advances_of_advance h with
  | @called c _ _ _ _ hrun =>
    exact .inr ⟨c, rfl, c.effect_called hR hem hl (hcall rfl) hw _ _ hrun⟩
  | failed hfails hfail =>
    cases hfails with
    | @call c _ _ _ _ hrun =>
      have hu := c.effect_called hR hem hl (hcall rfl) hw _ _ hrun
      exact .inr ⟨c, rfl, hu.abides_trans hR (hu.hosts.remains hR (fail_remains hfail))⟩
    | task => exact .inl (hw.remains hR (fail_remains hfail))
  | @leaves l => exact .inl (hw.remains hR (l.leave_remains w))
  | @ends token l => exact .inl (hw.remains hR (l.leave_remains w))
  | ended | calls | boundary | arms | enters | passes | pauses | repeats | finishes | waits
  | invokes => exact .inl (hw.abides hR)
  | reacts hnext hrun =>
    refine .inl (Reaction.run_abides hR hem (ht.reacting ?_) hw hrun)
    simp only [Thread.reacting?, hnext]

end

theorem Terms.Lasting.trips (hR : R.Lasting) {s t : Shared H} (h : s.Trips t) : R.changes s t := by
  induction h with
  | refl => exact hR.refl s
  | trip token _ ih => exact hR.trans ih (hR.trip _ token)

/-! ## Machines -/

namespace Machine

variable {m m' x : Machine H} {s : Setting H} {trace : List (Machine H)}

/-- The hosts of a machine keep to terms, and so does all that it has still to run. -/
structure Keeps (R : Terms H) (s : Setting H) (m : Machine H) : Prop where
  library : s.library.Respects R
  world : m.world.Respects R
  waiting {b : Body} : b ∈ m.waiting → Chain.All R.calls b.chain
  entries {c : Chain} : c ∈ m.entries → Chain.All R.calls c
  threads {t : Thread H} : t ∈ m.threads → t.Respects R

/-- What a step makes of a world when hosts keep to terms: it keeps to them, too, but that a call may
copy a variable to the one that it writes. -/
inductive Does (R : Terms H) (s : Setting H) (m m' : Machine H) : Prop
  | abides : m.world.Abides R m'.world → Does R s m m'
  | calls {c : Call} : m.calling? = some c → (∀ x ∈ c.calls, R.calls x) →
      m.world.Called R (c.builtin? s.library) c m'.world → Does R s m m'

namespace Keeps

theorem calling (hm : m.Keeps R s) {c : Call} (hc : m.calling? = some c) :
    ∀ x ∈ c.calls, R.calls x := by
  obtain ⟨_, _, _, hready⟩ := ready_of_calling hc
  exact (hm.threads (mem_threads_of_ready hready)).calling rfl

theorem beginning (hm : m.Keeps R s) {c : Chain} (hc : m.beginning? = some c) :
    Chain.All R.calls c := by
  rcases Option.or_eq_some_iff.mp hc with hc | ⟨_, hc⟩
  · unfold entering? at hc
    split at hc
    next hplan =>
      cases hc
      refine hm.entries ?_
      unfold Machine.entries
      rw [hplan]
      exact List.mem_cons_self
    · cases hc
  · obtain ⟨b, hb, rfl⟩ := Option.map_eq_some_iff.mp hc
    unfold starting? at hb
    split at hb
    next hready =>
      cases hb
      refine hm.waiting (List.mem_append_left _ ?_)
      unfold enlisted
      rw [hready]
      exact List.mem_cons_self
    · cases hb

/-- Threads keep to terms as long as those do that there were before. -/
theorem threads_move (hm : m.Keeps R s) (h : Move s em m m') {t : Thread H} (ht : t ∈ m'.threads) :
    t.Respects R := by
  cases h.origin ht with
  | kept ht => exact hm.threads ht
  | begun hc hb hu =>
    rw [hu]
    refine .chain (hm.beginning hc) ?_
    rcases hb with rfl | ⟨_, rfl⟩
    · exact trivial
    · exact trivial
  | left hu ha ht =>
    exact (advance_becomes ha t ht).respects hm.library (hm.threads (mem_threads_of_ready hu))

section
variable (hR : R.Lasting)
include hR

theorem rearranges (hm : m.Keeps R s) (h : m.Rearranges m') :
    m'.Keeps R s ∧ m.world.Abides R m'.world := by
  have hworld : m'.world.Respects R := by
    refine ⟨fun hb => hm.waiting (h.waiting ▸ List.mem_append_right _ hb), fun {event who} hwho => ?_⟩
    unfold World.subscribersOf at hwho
    rw [h.subscribers] at hwho
    exact hm.world.subscribers hwho
  refine ⟨⟨hm.library, hworld, fun hb => hm.waiting (h.waiting ▸ hb), fun hc => ?_,
    fun ht => hm.threads (h.threads.mem_iff.mp ht)⟩, hR.trips h.shared, hworld⟩
  unfold Machine.entries at hc
  rw [h.plan] at hc
  exact hm.entries hc

/-- **A step keeps to the terms of the hosts**, but that a call may copy a variable to the one that it
writes. -/
theorem move (hm : m.Keeps R s) (h : Move s (World.emit depth) m m') :
    m'.Keeps R s ∧ Does R s m m' := by
  have hem := World.emit_abides hR depth
  -- what waits in front waited before, and what is queued keeps to the terms
  have hkeeps {x : Machine H} (hx : x.world.Respects R) (hlist : x.enlisted ⊆ m.enlisted)
      (hentries : x.entries ⊆ m.entries) (hthreads : ∀ t ∈ x.threads, t.Respects R) :
      x.Keeps R s := by
    refine ⟨hm.library, hx, fun hb => ?_, fun hc => hm.entries (hentries hc), fun ht => hthreads _ ht⟩
    rcases List.mem_append.mp hb with hb | hb
    · exact hm.waiting (List.mem_append_left _ (hlist hb))
    · exact hx.queue hb
  have hthreads {t : Thread H} (ht : t ∈ m'.threads) : t.Respects R := hm.threads_move h ht
  cases h with
  | @start b rest hready hm' =>
    have hworld : m'.world = m.world := hm' ▸ rfl
    refine ⟨hkeeps (hworld ▸ hm.world) ?_ ?_ fun t ht => hthreads ht,
      .abides (hm.world.remains hR (.of_eq (by rw [hworld]) (by rw [hworld]) (by rw [hworld])))⟩
    · rw [hm']
      unfold enlisted
      rw [hready]
      exact List.subset_cons_self _ _
    · rw [hm']
      exact List.Subset.refl _
  | @advance t rest a w hready ha hm' =>
    have ht := hm.threads (mem_threads_of_ready hready)
    have hcalled := advance_called hR hm.library hm.world hem ht ha
    have hw : w.Respects R := by
      rcases hcalled with hw | ⟨_, _, hw⟩
      · exact hw.hosts
      · exact hw.hosts
    have htaken : (m.taken rest a w).Keeps R s := by
      refine hkeeps hw ?_ (List.Subset.refl _) fun u hu => ?_
      · rw [enlisted_taken]
        unfold enlisted
        rw [hready]
        exact List.Subset.refl _
      · refine hthreads ?_
        rw [hm']
        exact (rearranges_settle m s rest a w).threads.mem_iff.mpr hu
    obtain ⟨hm'', habides⟩ := htaken.rearranges hR (rearranges_settle m s rest a w)
    rw [hm']
    refine ⟨hm'', ?_⟩
    rcases hcalled with hw | ⟨c, hc, hw⟩
    · exact .abides (hw.trans hR habides)
    · exact .calls (calling?_resume hready ▸ hc) (ht.calling hc) (hw.abides_trans hR habides)
  | @enter chain entries hready hpaused hplan hm' =>
    have hworld : m'.world = m.world := hm' ▸ rfl
    refine ⟨hkeeps (hworld ▸ hm.world) ?_ ?_ fun t ht => hthreads ht,
      .abides (hm.world.remains hR (.of_eq (by rw [hworld]) (by rw [hworld]) (by rw [hworld])))⟩
    · rw [hm']
      exact List.nil_subset _
    · rw [hm']
      unfold Machine.entries
      rw [hplan]
      exact List.subset_cons_self _ _
  | @begin n w hready hpaused hplan he hm' =>
    have hw := hem _ _ _ _ _ he hm.world
    have hbegun : Keeps R s { m with plan := .drive, world := w } :=
      hkeeps hw.hosts (List.Subset.refl _) (List.nil_subset _) fun t ht => hm.threads ht
    obtain ⟨hm'', habides⟩ := hbegun.rearranges hR (rearranges_enlist _)
    rw [hm']
    exact ⟨hm'', .abides (hw.trans hR habides)⟩
  | rearrange _ _ hm' =>
    obtain ⟨hm'', habides⟩ := hm.rearranges hR hm'
    exact ⟨hm'', .abides habides⟩

/-- **Terms are kept to** in all the states of a run, whatever the schedule. -/
theorem path (hm : m.Keeps R s) (hp : Path s depth m trace m') :
    (∀ x ∈ trace, x.Keeps R s) ∧ m'.Keeps R s :=
  hp.invariant hm (fun hm h => (hm.rearranges hR h.rearranges).1) fun hm h => (hm.move hR h).1

theorem shifts (hm : m.Keeps R s) (h : m.Shifts x) : x.Keeps R s ∧ m.world.Abides R x.world :=
  hm.rearranges hR h.rearranges

theorem comes (hm : m.Keeps R s) (h : Comes s m m') : m'.Keeps R s := by
  obtain ⟨_, _, hp⟩ := h.path
  exact (hm.path hR hp).2

end

end Keeps

end Machine

/-! ## Runs without hosts -/

/-- Terms by which the host has no functions of its own and handles no events, so that only some calls
are made. -/
def Terms.unaided (P : Call → Prop) : Terms H where
  changes _ _ := True
  calls := P
  tasks _ := False
  handlers _ := False

section
variable {P : Call → Prop}

theorem Terms.lasting_unaided : (unaided P : Terms H).Lasting where
  refl _ := trivial
  trans _ _ := trivial
  trip _ _ := trivial

end

/-! ## Sessions -/

/-- The hosts of a session keep to terms, and so does all that waits in it. -/
structure Session.Respects (R : Terms H) (s : Session H) : Prop where
  library : s.setting.library.Respects R
  world : s.world.Respects R

theorem Library.respects_standard : (Library.standard : Library H).Respects R := by
  intro name f hf
  obtain ⟨b, _, ⟨⟩⟩ := List.mem_map.mp (Table.mem_of_getElem?_ofPairs hf)
  exact trivial

theorem Library.Respects.insert (hl : library.Respects R) (name : String) {f : Function H}
    (hf : f.Respects R) : Library.Respects R (library.insert name f) := by
  intro name' f' hf'
  rw [Table.getElem?_insert] at hf'
  split at hf'
  · cases hf'
    exact hf
  · exact hl name' f' hf'

namespace Session

variable {s : Session H} {p : Program} {limit : Option Nat}

/-- A new session with the standard functions and some variables. -/
def fresh (config : RunConfig) (host : H) (store : Store) : Session H :=
  (new ⟨Library.standard, config⟩ host).modifyStore fun _ => store

theorem respects_new {setting : Setting H} (hl : setting.library.Respects R) (host : H) :
    (new setting host).Respects R where
  library := hl
  world := by
    have hempty : World.Respects R ({ shared := { host := host } } : World H) := by
      refine ⟨nofun, fun {event who} hwho => ?_⟩
      unfold World.subscribersOf at hwho
      rw [Std.ExtTreeMap.getElem?_empty] at hwho
      cases hwho
    exact hempty.subscribe stopEvent (.own trivial)

theorem Respects.subscribe (hs : s.Respects R) (event : String) {who : Subscriber H}
    (hwho : who.Respects R) : (s.subscribe event who).Respects R :=
  ⟨hs.library, hs.world.subscribe event hwho⟩

theorem Respects.modifyStore (hs : s.Respects R) (f : Store → Store) :
    (s.modifyStore f).Respects R := ⟨hs.library, hs.world.of_eq (List.Subset.refl _) rfl⟩

/-- No host has a part in a new session with the standard functions. -/
theorem respects_fresh (config : RunConfig) (host : H) (store : Store) :
    (fresh config host store).Respects R := by
  have hlibrary : (Setting.mk (H := H) Library.standard config).library.Respects R := by
    dsimp only
    exact Library.respects_standard
  exact (respects_new hlibrary host).modifyStore fun _ => store

theorem Respects.cancel (hs : s.Respects R) : s.cancel.Respects R :=
  ⟨hs.library, hs.world.of_eq (List.Subset.refl _) rfl⟩

/-- A program is run on the terms of its hosts. -/
theorem Respects.machine (hs : s.Respects R) (hp : ∀ x ∈ p.calls, R.calls x) :
    (s.machine p limit).Keeps R s.setting where
  library := hs.library
  world := hs.world
  waiting hb := hs.world.queue hb
  entries hc x hx := hp x (List.mem_flatMap.mpr ⟨_, hc, hx⟩)
  threads := nofun

/-- A chain is run on the terms of its hosts. -/
theorem Respects.chainMachine (hs : s.Respects R) {c : Chain} (hc : Chain.All R.calls c) :
    (s.chainMachine c).Keeps R s.setting where
  library := hs.library
  world := hs.world
  waiting hb := hs.world.queue hb
  entries := nofun
  threads ht := by
    cases List.mem_singleton.mp ht
    exact .chain hc trivial

end Session

end SnapBlocks

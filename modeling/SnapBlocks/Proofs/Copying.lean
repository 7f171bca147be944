import SnapBlocks.Proofs.Host
import SnapBlocks.Proofs.Keeping

/-! Programs only copy, under every schedule. A run never takes a variable away, and a value that it
gives to a variable is one that some variable had before. It changes a variable only by a call that
sets it, and such a call stands in the program, or in a body that waited or listened: whatever holds
of the calls of all these holds of every call that is made. -/

namespace SnapBlocks

variable {H : Type} {w w' : World H} {em : Emitter H} {depth : Nat} {P : Call → Prop}

/-! ## Stores -/

/-- A store has come from another one by copies to some of its variables. -/
structure Store.Copies (written : String → Prop) (s t : Store) : Prop where
  kept {key : String} : key ∈ s → key ∈ t
  changed {key : String} : t[key]? ≠ s[key]? → written key
  values {key value : String} : t[key]? = some value → ∃ source : String, s[source]? = some value

namespace Store.Copies

variable {written written' : String → Prop} {s t u : Store}

theorem refl (s : Store) : Copies written s s := ⟨id, fun h => absurd rfl h, fun h => ⟨_, h⟩⟩

theorem of_eq (h : t = s) : Copies written s t := by
  rw [h]
  exact refl s

theorem mono (h : Copies written s t) (hw : ∀ key, written key → written' key) :
    Copies written' s t := ⟨h.kept, fun hne => hw _ (h.changed hne), h.values⟩

theorem trans (h : Copies written s t) (h' : Copies written t u) : Copies written s u where
  kept hkey := h'.kept (h.kept hkey)
  changed {key} hne := by
    by_cases ht : t[key]? = s[key]?
    · exact h'.changed fun hu => hne (hu.trans ht)
    · exact h.changed ht
  values hvalue := by
    obtain ⟨source, hsource⟩ := h'.values hvalue
    exact h.values hsource

/-- Copying one variable to another one. -/
theorem insert {key source value : String} (hsource : s[source]? = some value)
    (hkey : written key) : Copies written s (s.insert key value) where
  kept hmem := Std.ExtTreeMap.mem_insert.mpr (.inr hmem)
  changed {key'} hne := by
    rw [Table.getElem?_insert] at hne
    split at hne
    next heq => exact heq ▸ hkey
    · exact absurd rfl hne
  values {key' value'} hvalue := by
    rw [Table.getElem?_insert] at hvalue
    split at hvalue
    · cases hvalue
      exact ⟨source, hsource⟩
    · exact ⟨key', hvalue⟩

end Store.Copies

/-! ## Machines -/

/-- Terms by which the host leaves the store alone, and lets only bodies of some calls wait or run. -/
def Terms.copying (P : Call → Prop) : Terms H where
  changes s t := t.store = s.store
  calls := P
  tasks _ := True
  handlers _ := True

theorem Terms.lasting_copying : (copying P : Terms H).Lasting where
  refl _ := rfl
  trans h h' := h'.trans h
  trip _ _ := rfl

theorem World.Called.store_copies {c : Call} {b : Option Builtin} {written : String → Prop}
    (h : w.Called (.copying P) b c w')
    (hwritten : ∀ key, b = some .setVariableTo → c.written? = some key → written key) :
    w.shared.store.Copies written w'.shared.store := by
  cases h with
  | abides h => exact .of_eq h.shared
  | @copies u key source value hu hb hkey hvalue hset =>
    have hfirst : w.shared.store.Copies written u.shared.store := .of_eq hu.shared
    have hcopy := Store.Copies.insert hvalue (hwritten key hb hkey)
    exact hfirst.trans (hcopy.trans (.of_eq hset.shared))

namespace Machine

variable {m m' : Machine H} {s : Setting H} {trace : List (Machine H)} {key : String}

/-- A call that sets a variable is made in the next step. -/
def Writes (P : Call → Prop) (s : Setting H) (key : String) (m : Machine H) : Prop :=
  ∃ c, m.calling? = some c ∧ P c ∧ c.builtin? s.library = some .setVariableTo ∧
    c.written? = some key

theorem Does.store_copies (h : Does (.copying P) s m m') :
    m.world.shared.store.Copies (m.Writes P s ·) m'.world.shared.store := by
  cases h with
  | abides h => exact .of_eq h.shared
  | @calls c hc hP h =>
    exact h.store_copies fun key hb hkey => ⟨c, hc, hP c c.mem_calls_self, hb, hkey⟩

/-- **A run copies**, whatever the schedule. -/
theorem Keeps.copies (hm : m.Keeps (.copying P) s) (hp : Path s depth m trace m') :
    m.world.shared.store.Copies (fun key => ∃ x ∈ trace, x.Writes P s key)
      m'.world.shared.store := by
  have hR := Terms.lasting_copying (H := H) (P := P)
  induction hp with
  | nil => exact .refl _
  | cons hshifts _ hstep _ ih =>
    obtain ⟨hx, hsame⟩ := hm.shifts hR hshifts
    obtain ⟨hm', hdoes⟩ := hx.move hR (move_of_step hstep)
    refine Store.Copies.trans (.of_eq hsame.shared) (Store.Copies.trans
      (hdoes.store_copies.mono fun key hkey => ?_) ((ih hm').mono fun key hkey => ?_))
    · exact ⟨_, List.mem_cons_self, hkey⟩
    · obtain ⟨y, hy, hkey⟩ := hkey
      exact ⟨y, .tail _ hy, hkey⟩

end Machine

/-! ## Sessions -/

/-- Whether a call stands in a body that waits in a session, or listens to an event. -/
inductive Session.Holds (s : Session H) (c : Call) : Prop
  | queued {b : Body} : b ∈ s.world.queue → c ∈ Chain.calls b.chain → Holds s c
  | subscribed {event : String} {b : Body} : .own (.start b) ∈ s.world.subscribersOf event →
      c ∈ Chain.calls b.chain → Holds s c

/-- The functions of the host, its guards and its handlers leave the store alone. A body that they run,
or let listen to an event, is nested in the call that they answer, or made of calls with a
property. -/
structure Session.LeavesStore (Q : Call → Prop) (s : Session H) : Prop where
  library {P : Call → Prop} : (∀ c, Q c → P c) → s.setting.library.Respects (.copying P)
  handlers {event : String} {who : Subscriber H} : who ∈ s.world.subscribersOf event →
    who.isHandler → who.Respects (.copying Q)

namespace Session

open Machine

variable {s : Session H} {Q : Call → Prop}

theorem LeavesStore.respects (hs : s.LeavesStore Q) (hQ : ∀ c, Q c → P c)
    (hP : ∀ c, s.Holds c → P c) : s.Respects (.copying P) := by
  have hwithin : (Terms.copying Q : Terms H).Within (.copying P) := ⟨id, hQ _, id⟩
  refine ⟨hs.library hQ, ⟨fun hb x hx => hP x (.queued hb hx), ?_⟩⟩
  intro event who hwho
  cases who with
  | own d =>
    refine .own ?_
    cases d with
    | stop => exact trivial
    | start b => exact fun x hx => hP x (.subscribed hwho hx)
  | handler respond => exact (hs.handlers hwho rfl).mono hwithin

/-- Programs, and chains that run alone, only copy: in each state of a run, whatever the schedule and
whatever comes of the run, the store has come from that of the session by copies to variables that
calls wrote. Such a call is one of the program, or of a body that waited or listened, or of one that
the host itself runs or lets listen. -/
structure OnlyCopies (Q : Call → Prop) (s : Session H) : Prop where
  program {p : Program} {limit : Option Nat} {depth : Nat} {trace : List (Machine H)}
    {m x : Machine H} : Path s.setting depth (s.machine p limit) trace m → m.Shifts x →
      s.store.Copies (fun key => ∃ y ∈ trace,
        y.Writes (fun c => c ∈ p.calls ∨ s.Holds c ∨ Q c) s.setting key) x.world.shared.store
  chain {c : Chain} {depth : Nat} {trace : List (Machine H)} {m x : Machine H} :
    Path s.setting depth (s.chainMachine c) trace m → m.Shifts x →
      s.store.Copies (fun key => ∃ y ∈ trace,
        y.Writes (fun x => x ∈ Chain.calls c ∨ s.Holds x ∨ Q x) s.setting key) x.world.shared.store

/-- **Programs only copy**, when the host leaves the store alone. -/
theorem onlyCopies (hs : s.LeavesStore Q) : s.OnlyCopies Q where
  program {p limit depth trace m x} hp hx := by
    have hhosts : s.Respects (.copying fun c => c ∈ p.calls ∨ s.Holds c ∨ Q c) :=
      hs.respects (fun _ hc => .inr (.inr hc)) fun _ hc => .inr (.inl hc)
    have hm : (s.machine p limit).Keeps _ s.setting := hhosts.machine fun _ hc => .inl hc
    have hlast := (hm.path Terms.lasting_copying hp).2
    exact (hm.copies hp).trans (.of_eq (hlast.shifts Terms.lasting_copying hx).2.shared)
  chain {c depth trace m x} hp hx := by
    have hhosts : s.Respects (.copying fun x => x ∈ Chain.calls c ∨ s.Holds x ∨ Q x) :=
      hs.respects (fun _ hx => .inr (.inr hx)) fun _ hx => .inr (.inl hx)
    have hm := hhosts.chainMachine (c := c) fun _ hx => .inl hx
    have hlast := (hm.path Terms.lasting_copying hp).2
    exact (hm.copies hp).trans (.of_eq (hlast.shifts Terms.lasting_copying hx).2.shared)

/-- A call that copies a variable to another one. -/
def assigning (block target source : String) : Call :=
  .mk "setVariableTo" block
    [("0", [⟨"0", "", "variable", .operand, .write, some target, "setVariableTo"⟩,
      ⟨"1", "", "data", .operand, .read, some source, "setVariableTo"⟩])] [] none

/-- A function that emits an event, waits, and then runs a body that hangs from its call. -/
def pinging : Function Unit :=
  .host fun c replies =>
    match replies, c.body? "then" with
    | [], _ => .react (.emit "ping" [] fun _ => .done)
    | [_], _ => .pause
    | [_, _], some b => .invoke true b
    | _, _ => .finish (.ok ())

/-- A session whose host has such a function. A body listens to the event, and a handler lets another
body listen. -/
def reacting : Session Unit :=
  (new ⟨Library.standard.insert "ping" pinging, {}⟩ ())
    |>.modifyStore (fun _ => Table.ofPairs [("a", "1"), ("b", "2")])
    |>.subscribe "ping" (.handler fun _ =>
      .subscribe "ping" (.own (.start ⟨"y", [assigning "y" "d" "b"]⟩)) .done)
    |>.subscribe "ping" (.own (.start ⟨"x", [assigning "x" "c" "b"]⟩))

/-- A program that copies a variable, and calls that function twice. -/
def assignment : Program :=
  ⟨[[.mk "startAgent" "s" [] [] (some
    [assigning "p" "b" "a",
      .mk "ping" "n" [] [("0", ⟨"then", [assigning "q" "e" "b"]⟩)] none,
      .mk "ping" "o" [] [] none])]]⟩

theorem respects_pinging : pinging.Respects (.copying P) := by
  refine fun c hc => ⟨trivial, fun replies => ?_⟩
  dsimp only
  split
  · exact .emit fun _ => .finish _
  · exact trivial
  next b hbody => exact Call.bodies_all hc (Call.body?_mem_bodies hbody)
  · exact trivial

theorem onlyCopies_reacting : reacting.LeavesStore (·.written? ≠ some "a") ∧
    reacting.OnlyCopies (·.written? ≠ some "a") ∧
    ∃ r after, reacting.execute 60 assignment none = some (r, after) ∧
      after.store.snapshot = [("a", "1"), ("b", "1"), ("c", "1"), ("d", "1"), ("e", "1")] := by
  have hlibrary {P : Call → Prop} : Library.Respects (.copying P) reacting.setting.library :=
    Library.respects_standard.insert "ping" respects_pinging
  have hhosts : reacting.Respects (.copying (·.written? ≠ some "a")) := by
    have hx : ∀ c ∈ Chain.calls [assigning "x" "c" "b"], c.written? ≠ some "a" := by decide +kernel
    have hy : ∀ c ∈ Chain.calls [assigning "y" "d" "b"], c.written? ≠ some "a" := by decide +kernel
    have hhandler : (.handler fun _ => .subscribe "ping" (.own (.start ⟨"y",
        [assigning "y" "d" "b"]⟩)) .done : Subscriber Unit).Respects
          (.copying (·.written? ≠ some "a")) :=
      .handler trivial fun _ => .subscribe (.own hy) (.finish _)
    exact (((respects_new hlibrary ()).modifyStore _).subscribe "ping" hhandler).subscribe "ping"
      (.own hx)
  have hleaves : reacting.LeavesStore (·.written? ≠ some "a") :=
    ⟨fun _ => hlibrary, fun hwho _ => hhosts.world.subscribers hwho⟩
  have hrun : (reacting.execute 60 assignment none).map (fun q => q.2.store.snapshot) =
      some [("a", "1"), ("b", "1"), ("c", "1"), ("d", "1"), ("e", "1")] := by decide +kernel
  obtain ⟨⟨r, after⟩, he, hstore⟩ := Option.map_eq_some_iff.mp hrun
  exact ⟨hleaves, onlyCopies hleaves, r, after, he, hstore⟩

end Session

end SnapBlocks

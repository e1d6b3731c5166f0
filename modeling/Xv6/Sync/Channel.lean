import Xv6.Lib.Transition
import Xv6.Lib.Word
import Mathlib.Data.Fintype.Basic

/-! The semaphores of several process groups. `Cond_wait` sleeps on the user virtual address
of the condition and `Cond_signal` searches the whole process table for that address, so
groups that use one address share a channel. `xem_wait` up to sleeping, what it does after
it was woken, and `xem_unlock` are atomic. -/
namespace Xv6.Channel

open Transition Word

/-- What a thread does: `sleeping cond` is SLEEPING on the channel `cond` in `xem_wait`,
`runnable cond` RUNNABLE after that. -/
inductive Mode (Addr : Type) where
  | running
  | sleeping (cond : Addr)
  | runnable (cond : Addr)
  deriving DecidableEq

def Mode.isRunning {Addr : Type} : Mode Addr → Bool
  | .running => true
  | .sleeping _ | .runnable _ => false

def Mode.isRunnable {Addr : Type} : Mode Addr → Bool
  | .runnable _ => true
  | .running | .sleeping _ => false

structure Xem where
  value : Int
  waiting : Int

/-- The process table: for every slot in use, the group and the mode of its thread. -/
abbrev Table (n : Nat) (Group Addr : Type) := Fin n → Option (Group × Mode Addr)

structure State (n : Nat) (Group Addr : Type) where
  slot : Table n Group Addr
  xem : Group → Addr → Xem

inductive Act (n : Nat) (Group Addr : Type) where
  | xemInit (t : Fin n) (a : Addr)
  | xemWait (t : Fin n) (a : Addr)
  | xemUnlock (t : Fin n) (a : Addr)
  | resume (t : Fin n)
  | threadCreate (t u : Fin n)
  | fork (t u : Fin n) (child : Group)

variable {n : Nat} {Group Addr : Type} [DecidableEq Group] [DecidableEq Addr]

def start (first : Fin n) (g : Group) : State n Group Addr :=
  ⟨Function.update (fun _ => none) first (some (g, .running)), fun _ _ => ⟨0, 0⟩⟩

/-- `p->state == SLEEPING && p->chan == cond`, whatever the group. -/
def Table.asleep (slot : Table n Group Addr) (a : Addr) (u : Fin n) : Bool :=
  match slot u with
  | some (_, m) => decide (m = .sleeping a)
  | none => false

def Table.wakeFirst (slot : Table n Group Addr) (a : Addr) : Table n Group Addr :=
  match Fin.find? (slot.asleep a) with
  | none => slot
  | some u => Function.update slot u ((slot u).map fun p => (p.1, .runnable a))

namespace State

def setSlot (s : State n Group Addr) (t : Fin n) (g : Group) (m : Mode Addr) :
    State n Group Addr :=
  { s with slot := Function.update s.slot t (some (g, m)) }

def setXem (s : State n Group Addr) (g : Group) (a : Addr) (x : Xem) : State n Group Addr :=
  { s with xem := Function.update s.xem g (Function.update (s.xem g) a x) }

/-- The test of the `while` in `xem_wait`: take the semaphore, or count in and sleep. -/
def tryWait (s : State n Group Addr) (t : Fin n) (g : Group) (a : Addr) : State n Group Addr :=
  let x := s.xem g a
  if x.value ≤ 0 then
    (s.setXem g a { x with waiting := i32 (x.waiting + 1) }).setSlot t g (.sleeping a)
  else
    (s.setXem g a { x with value := i32 (x.value - 1) }).setSlot t g .running

def condSignal (s : State n Group Addr) (g : Group) (a : Addr) : State n Group Addr :=
  let x := s.xem g a
  if x.waiting = 0 then s
  else { s.setXem g a { x with waiting := i32 (x.waiting - 1) } with slot := s.slot.wakeFirst a }

def xemUnlock (s : State n Group Addr) (g : Group) (a : Addr) : State n Group Addr :=
  let x := s.xem g a
  (s.setXem g a { x with value := i32 (x.value + 1) }).condSignal g a

def step (s : State n Group Addr) : Act n Group Addr → State n Group Addr
  | .xemInit t a =>
      match s.slot t with
      | some (g, .running) => s.setXem g a ⟨1, 0⟩
      | _ => s
  | .xemWait t a =>
      match s.slot t with
      | some (g, .running) => s.tryWait t g a
      | _ => s
  | .xemUnlock t a =>
      match s.slot t with
      | some (g, .running) => s.xemUnlock g a
      | _ => s
  | .resume t =>
      match s.slot t with
      | some (g, .runnable a) => s.tryWait t g a
      | _ => s
  | .threadCreate t u =>
      match s.slot t with
      | some (g, .running) => s.setSlot u g .running
      | _ => s
  | .fork t u child =>
      match s.slot t with
      -- copyuvm copies the semaphores with the rest of the memory
      | some (g, .running) =>
          { s with xem := Function.update s.xem child (s.xem g) }.setSlot u child .running
      | _ => s

def runs (s : State n Group Addr) (t : Fin n) : Bool := (s.slot t).any fun p => p.2.isRunning

/-- The calls are made by running threads; new threads take free slots, and a forked
process has a page directory of its own. -/
def Enabled (s : State n Group Addr) : Act n Group Addr → Prop
  | .xemInit t _ | .xemWait t _ | .xemUnlock t _ => s.runs t = true
  | .resume t => ((s.slot t).any fun p => p.2.isRunnable) = true
  | .threadCreate t u => s.runs t = true ∧ s.slot u = none
  | .fork t u child => s.runs t = true ∧ s.slot u = none ∧
      ∀ v, ((s.slot v).any fun p => p.1 = child) = false

instance (s : State n Group Addr) : (a : Act n Group Addr) → Decidable (s.Enabled a)
  | .xemInit _ _ | .xemWait _ _ | .xemUnlock _ _ => inferInstanceAs (Decidable (_ = true))
  | .resume _ => inferInstanceAs (Decidable (_ = true))
  | .threadCreate _ _ => inferInstanceAs (Decidable (_ ∧ _))
  | .fork _ _ _ => inferInstanceAs (Decidable (_ ∧ _ ∧ ∀ _, _))

/-- A signal of group `g` leaves the threads of all other groups alone, and wakes exactly
one thread of `g` when one sleeps on the condition and `waiting_threads` is positive. -/
structure Contained (s : State n Group Addr) (g : Group) (a : Addr)
    (s' : State n Group Addr) : Prop where
  others : ∀ u g' m, g' ≠ g → s.slot u = some (g', m) → s'.slot u = some (g', m)
  one : 0 < (s.xem g a).waiting → (∃ v, s.slot v = some (g, .sleeping a)) →
    ∃! v, s.slot v = some (g, .sleeping a) ∧ s'.slot v = some (g, .runnable a)

/-- If `waiting_threads` is not 0, a thread of another group that sleeps on the same
address stands behind one of `g` that does. -/
def OwnFirst (s : State n Group Addr) (g : Group) (a : Addr) : Prop :=
  (s.xem g a).waiting ≠ 0 → ∀ u g', g' ≠ g → s.slot u = some (g', .sleeping a) →
    ∃ v < u, s.slot v = some (g, .sleeping a)

instance [Fintype Group] (s : State n Group Addr) (g : Group) (a : Addr) :
    Decidable (s.OwnFirst g a) :=
  inferInstanceAs (Decidable (_ ≠ _ → ∀ _ _, _ → _ → ∃ _, _ ∧ _))

end State

open State

def machine : Machine (State n Group Addr) (Act n Group Addr) Unit Empty :=
  fun s a => .ok (s.step a, ())

omit [DecidableEq Group] in
theorem asleep_iff {slot : Table n Group Addr} {a : Addr} {u : Fin n} :
    slot.asleep a u = true ↔ ∃ g, slot u = some (g, .sleeping a) := by
  unfold Table.asleep
  split <;> simp_all

theorem xemUnlock_slot (s : State n Group Addr) (g : Group) (a : Addr) :
    (s.xemUnlock g a).slot =
      if (s.xem g a).waiting = 0 then s.slot else s.slot.wakeFirst a := by
  simp only [State.xemUnlock, State.condSignal, State.setXem, Function.update_self]
  split <;> rfl

omit [DecidableEq Group] in
theorem wakeFirst_cases (slot : Table n Group Addr) (a : Addr) :
    (slot.wakeFirst a = slot ∧ ∀ u g, slot u ≠ some (g, .sleeping a)) ∨
    ∃ u g, slot u = some (g, .sleeping a) ∧
      slot.wakeFirst a = Function.update slot u (some (g, .runnable a)) ∧
      ∀ v < u, ∀ g', slot v ≠ some (g', .sleeping a) := by
  unfold Table.wakeFirst
  split
  · rename_i hnone
    refine .inl ⟨rfl, fun u g hu => ?_⟩
    have := asleep_iff.mpr ⟨g, hu⟩
    rw [Fin.find?_eq_none_iff.mp hnone u] at this
    cases this
  · rename_i u hu
    obtain ⟨hasleep, hfirst⟩ := Fin.find?_eq_some_iff.mp hu
    obtain ⟨g, hg⟩ := asleep_iff.mp hasleep
    refine .inr ⟨u, g, hg, by rw [hg]; rfl, fun v hv g' hg' => ?_⟩
    have := asleep_iff.mpr ⟨g', hg'⟩
    rw [hfirst v hv] at this
    cases this

/-- One signal of group `g`: it stays within the group exactly when the first thread on its
channel, if it looks for one, is of the group. -/
theorem contained_iff (s : State n Group Addr) (g : Group) (a : Addr) :
    s.Contained g a (s.xemUnlock g a) ↔ s.OwnFirst g a := by
  by_cases hzero : (s.xem g a).waiting = 0
  · refine ⟨fun _ hne => (hne hzero).elim, fun _ => ⟨?_, ?_⟩⟩
    · intro u g' m _ hu
      rwa [xemUnlock_slot, if_pos hzero]
    · intro hpos
      omega
  have hslot : (s.xemUnlock g a).slot = s.slot.wakeFirst a := by
    rw [xemUnlock_slot, if_neg hzero]
  rcases wakeFirst_cases s.slot a with ⟨hsame, hnone⟩ | ⟨u, gu, hu, hwoken, hfirst⟩
  · refine ⟨fun _ _ u g' _ hu => (hnone u g' hu).elim, fun _ => ⟨?_, ?_⟩⟩
    · intro u g' m _ hu
      rwa [hslot, hsame]
    · rintro - ⟨v, hv⟩
      exact (hnone v g hv).elim
  rw [hwoken] at hslot
  constructor
  · intro hcontained _ v g' hg' hv
    have hown : gu = g := by
      by_contra hne
      have := hcontained.others u gu _ hne hu
      rw [hslot, Function.update_self] at this
      cases this
    refine ⟨u, ?_, hown ▸ hu⟩
    rcases lt_trichotomy u v with hlt | heq | hgt
    · exact hlt
    · rw [heq, hv] at hu
      cases hu
      exact (hg' hown).elim
    · exact (hfirst v hgt g' hv).elim
  · intro hown
    have hgu : gu = g := by
      by_contra hne
      obtain ⟨v, hlt, hv⟩ := hown hzero u gu hne hu
      exact hfirst v hlt g hv
    subst hgu
    refine ⟨?_, fun _ _ => ⟨u, ⟨hu, by rw [hslot, Function.update_self]⟩, ?_⟩⟩
    · intro v g' m hg' hv
      have hvu : v ≠ u := by
        rintro rfl
        rw [hu] at hv
        cases hv
        exact hg' rfl
      rwa [hslot, Function.update_of_ne hvu]
    · rintro v ⟨hv, hafter⟩
      by_contra hvu
      rw [hslot, Function.update_of_ne hvu, hv] at hafter
      cases hafter

/-- In every run, a signal of group `g` changes no thread of another group and wakes exactly
one of its own if, and only if, `waiting_threads` is 0 or every thread of another group that
sleeps on the same virtual address stands behind a thread of `g` that does. -/
theorem signals_contained {first : Fin n} {group : Group}
    {trace : List (State n Group Addr × Act n Group Addr × Unit)} {finish s : State n Group Addr}
    (h : Run machine Enabled (start first group) trace finish) {t : Fin n} {a : Addr}
    (hmem : (s, .xemUnlock t a, ()) ∈ trace) {g : Group} {m : Mode Addr}
    (ht : s.slot t = some (g, m)) :
    s.Contained g a (s.step (.xemUnlock t a)) ↔ s.OwnFirst g a := by
  have hruns : s.runs t = true := h.allowed_of_mem hmem
  rw [State.runs, ht] at hruns
  cases m with
  | running =>
    rw [State.step, ht]
    exact contained_iff s g a
  | sleeping | runnable => cases hruns

/-- Two groups sleep on one address; the signal of group 0 finds its own thread first. -/
theorem signals_contained_ahead : ∃ trace, ∃ s finish : State 3 (Fin 2) Unit,
    Run machine Enabled (start 0 0) trace finish ∧ (s, .xemUnlock 0 (), ()) ∈ trace ∧
    s.slot 2 = some (1, .sleeping ()) ∧ s.Contained 0 () (s.step (.xemUnlock 0 ())) := by
  obtain ⟨s, ⟨trace, hrun⟩, htest⟩ := exists_reaches machine Enabled
    (start 0 0 : State 3 (Fin 2) Unit)
    [.xemInit 0 (), .xemWait 0 (), .threadCreate 0 1, .fork 0 2 1, .xemWait 1 (), .xemWait 2 ()]
    (fun s => decide (s.Enabled (.xemUnlock 0 ()) ∧ s.slot 0 = some (0, .running) ∧
      s.slot 2 = some (1, .sleeping ()) ∧ s.OwnFirst 0 ())) (by decide +kernel)
  obtain ⟨henabled, h0, h2, hown⟩ := of_decide_eq_true htest
  have hstep := hrun.step henabled rfl
  have hmem := List.mem_cons_self (a := (s, Act.xemUnlock 0 (), ())) (l := trace)
  exact ⟨_, s, _, hstep, hmem, h2, (signals_contained hstep hmem h0).mpr hown⟩

/-- The signal of group 1 wakes the thread of group 0, whose slot comes first, and leaves
its own asleep. -/
theorem signal_escapes : ∃ trace, ∃ s finish : State 3 (Fin 2) Unit,
    Run machine Enabled (start 0 0) trace finish ∧ (s, .xemUnlock 1 (), ()) ∈ trace ∧
    s.slot 1 = some (1, .running) ∧ ¬ s.Contained 1 () (s.step (.xemUnlock 1 ())) := by
  obtain ⟨s, ⟨trace, hrun⟩, htest⟩ := exists_reaches machine Enabled
    (start 0 0 : State 3 (Fin 2) Unit)
    [.xemInit 0 (), .xemWait 0 (), .fork 0 1 1, .threadCreate 1 2, .xemWait 0 (), .xemWait 2 ()]
    (fun s => decide (s.Enabled (.xemUnlock 1 ()) ∧ s.slot 1 = some (1, .running) ∧
      s.slot 0 = some (0, .sleeping ()) ∧
      (s.step (.xemUnlock 1 ())).slot 0 = some (0, .runnable ()))) (by decide +kernel)
  obtain ⟨henabled, h1, h0, hafter⟩ := of_decide_eq_true htest
  refine ⟨_, s, _, hrun.step henabled rfl, List.mem_cons_self, h1, fun hcontained => ?_⟩
  have := hcontained.others 0 0 _ (by decide) h0
  rw [hafter] at this
  cases this

end Xv6.Channel

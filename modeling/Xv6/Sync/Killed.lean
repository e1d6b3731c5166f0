import Xv6.Sync.Semaphore

/-! Threads at any number of semaphores while `kill`, `exit` and `cleanup_lwp` set their
`killed` flags and wake them. The calls run statement by statement, as they do at one
semaphore; a thread that uses a readers-writer lock calls `xem_wait` and `xem_unlock` on the
two semaphores of the lock. -/
namespace Xv6.Killed

open Transition Threads Word
open Semaphore (Pc Life Thread Shared next)

structure Xem where
  value : Int
  lock : Int
  waiting : Int
  condLock : Int
  deriving DecidableEq

def Shared.xem (sh : Shared) : Xem := ⟨sh.value, sh.lock, sh.waiting, sh.condLock⟩

structure Caller (X : Type) where
  th : Thread
  on : X

structure State (n : Nat) (X : Type) where
  xem : X → Xem
  ptable : Bool
  caller : Fin n → Caller X
  killed : Fin n → Bool

/-- `kill` stands for all three functions that mark threads and wake those asleep, `mark` for
the end of `exit` in an LWP, which sets `killed` of the manager. `dispatch` is the scheduler
at a RUNNABLE thread that has not left its CPU, and `reuse` gives the slot to a new thread. -/
inductive Act (n : Nat) (X : Type) where
  | xemWait (t : Fin n) (x : X)
  | xemUnlock (t : Fin n) (x : X)
  | go (t : Fin n)
  | kill (victims : Fin n → Bool)
  | mark (t : Fin n)
  | dispatch (t : Fin n)
  | reuse (t : Fin n)

inductive Fault where
  | twice
  deriving DecidableEq

variable {n : Nat} {X : Type} [DecidableEq X]

def Caller.asleep (x : X) (c : Caller X) : Bool := c.th.asleep && decide (c.on = x)

def Caller.awake (c : Caller X) : Caller X := { c with th := { c.th with state := .runnable } }

def start (v : X → Int) (on : Fin n → X) : State n X where
  xem x := ⟨v x, 0, 0, 0⟩
  ptable := false
  caller t := ⟨⟨.out, .running, false⟩, on t⟩
  killed _ := false

namespace State

def shared (s : State n X) (x : X) : Shared :=
  ⟨(s.xem x).value, (s.xem x).lock, (s.xem x).waiting, (s.xem x).condLock, s.ptable⟩

def slot (s : State n X) (x : X) (i : Nat) : Option Bool :=
  if h : i < n then some ((s.caller ⟨i, h⟩).asleep x) else none

def enter (s : State n X) (t : Fin n) (x : X) (pc : Pc) : State n X :=
  { s with caller := Function.update s.caller t ⟨(s.caller t).th.goto pc, x⟩ }

def wakeup (s : State n X) (i : Nat) : State n X :=
  if h : i < n then
    { s with caller := Function.update s.caller ⟨i, h⟩ (s.caller ⟨i, h⟩).awake }
  else s

def run (s : State n X) (t : Fin n) : State n X :=
  let x := (s.caller t).on
  let after := next (s.shared x) (s.slot x) (s.caller t).th
  { s with
    xem := Function.update s.xem x (Shared.xem after.1)
    ptable := after.1.ptable
    caller := Function.update s.caller t ⟨after.2, x⟩ }

/-- The assignment of `Cond_signal`, without `ptable.lock`. -/
def signal (s : State n X) (t : Fin n) : State n X :=
  match (s.caller t).th.pc with
  | .wake i => s.wakeup i
  | _ => s

def go (s : State n X) (t : Fin n) : State n X := (s.signal t).run t

def kill (s : State n X) (victims : Fin n → Bool) : State n X :=
  { s with
    killed := fun t => s.killed t || victims t
    caller := fun t =>
      if victims t = true ∧ (s.caller t).th.state = .sleeping then (s.caller t).awake
      else s.caller t }

/-- The three functions hold `ptable.lock`, and so does the scheduler. -/
def Enabled (s : State n X) : Act n X → Prop
  | .xemWait t _ | .xemUnlock t _ | .reuse t => (s.caller t).th.pc = .out
  | .go t => (s.caller t).th.pc ≠ .out
  | .kill _ | .mark _ => s.ptable = false
  | .dispatch t =>
      s.ptable = false ∧ (s.caller t).th.state = .runnable ∧ (s.caller t).th.pc ≠ .off

instance (s : State n X) : (a : Act n X) → Decidable (s.Enabled a)
  | .xemWait _ _ | .xemUnlock _ _ | .reuse _ | .kill _ | .mark _ =>
      inferInstanceAs (Decidable (_ = _))
  | .go _ => inferInstanceAs (Decidable (_ ≠ _))
  | .dispatch _ => inferInstanceAs (Decidable (_ ∧ _ ∧ _))

end State

def machine : Machine (State n X) (Act n X) Unit Fault := fun s a =>
  match a with
  | .xemWait t x => .ok (s.enter t x .waitLock, ())
  | .xemUnlock t x => .ok (s.enter t x .postLock, ())
  | .go t => .ok (s.go t, ())
  | .kill victims => .ok (s.kill victims, ())
  | .mark t => .ok ({ s with killed := Function.update s.killed t true }, ())
  | .dispatch _ => .error .twice
  | .reuse t => .ok ({ s with killed := Function.update s.killed t false }, ())

namespace State

/-- A thread that is marked finds the semaphore positive. -/
def Noticed (s : State n X) : Act n X → Prop
  | .go t => (s.caller t).th.pc = .waitTest → s.killed t = true →
      0 < (s.xem (s.caller t).on).value
  | _ => True

instance (s : State n X) : (a : Act n X) → Decidable (s.Noticed a)
  | .go _ => inferInstanceAs (Decidable (_ → _ → _))
  | .xemWait _ _ | .xemUnlock _ _ | .kill _ | .mark _ | .dispatch _ | .reuse _ =>
      inferInstanceAs (Decidable True)

/-- No thread is marked between its test of the semaphore and its sleep, and none is marked in
its sleep without being woken. -/
def Caught (s : State n X) : Act n X → Prop
  | .kill victims => ∀ t, victims t = true → (s.caller t).th.resting = true →
      (s.caller t).th.state = .sleeping
  | .mark t => (s.caller t).th.resting = false
  | _ => True

instance (s : State n X) : (a : Act n X) → Decidable (s.Caught a)
  | .kill _ => inferInstanceAs (Decidable (∀ _, _ → _ → _))
  | .mark _ => inferInstanceAs (Decidable (_ = _))
  | .xemWait _ _ | .xemUnlock _ _ | .go _ | .dispatch _ | .reuse _ =>
      inferInstanceAs (Decidable True)

end State

abbrev Trace (n : Nat) (X : Type) := List (State n X × Act n X × Unit)

def testedKilled (t : Fin n) : Trace n X → Bool
  | [] => false
  | (s, .go u, _) :: rest =>
      if u = t ∧ (s.caller t).th.pc = .waitTest then s.killed t else testedKilled t rest
  | _ :: rest => testedKilled t rest

/-- No thread sleeps that was marked before it tested the semaphore; and no marked thread
sleeps at all, if threads are marked only where that wakes them. -/
structure Unblocked (trace : Trace n X) (s : State n X) : Prop where
  tested : ∀ t, testedKilled t trace = true → (s.caller t).th.state ≠ .sleeping
  group : (∀ e ∈ trace, e.1.Caught e.2.1) →
    ∀ t, s.killed t = true → (s.caller t).th.state ≠ .sleeping

inductive Change (s : State n X) (a : Act n X) (u : Fin n) : Caller X → Prop where
  | same : Change s a u (s.caller u)
  | awake : (∃ victims, a = .kill victims ∧ victims u = true ∧
        (s.caller u).th.state = .sleeping) ∨
      (∃ t, a = .go t ∧ (s.caller t).th.pc = .wake u.val) → Change s a u (s.caller u).awake
  | enter {x : X} {pc : Pc} : (s.caller u).th.pc = .out → pc = .waitLock ∨ pc = .postLock →
      Change s a u ⟨(s.caller u).th.goto pc, x⟩
  | next {slot : Nat → Option Bool} {c : Caller X} : a = .go u →
      c = s.caller u ∨ c = (s.caller u).awake ∧ (s.caller u).th.pc = .wake u.val →
      Change s a u ⟨(next (s.shared c.on) slot c.th).2, c.on⟩

section

variable {s s' : State n X} {a : Act n X}

omit [DecidableEq X] in
theorem signal_eq (s : State n X) (t : Fin n) : s.signal t = s ∨
    ∃ u : Fin n, (s.caller t).th.pc = .wake u.val ∧
      s.signal t = { s with caller := Function.update s.caller u (s.caller u).awake } := by
  unfold State.signal
  split
  · rename_i i hpc
    unfold State.wakeup
    split
    · rename_i hi
      exact .inr ⟨⟨i, hi⟩, hpc, rfl⟩
    · exact .inl rfl
  · exact .inl rfl

theorem change (hon : s.Enabled a) (hstep : machine s a = .ok (s', ())) (u : Fin n) :
    Change s a u (s'.caller u) := by
  have henter : ∀ {t x pc}, (s.caller t).th.pc = .out → pc = .waitLock ∨ pc = .postLock →
      Change s a u ((s.enter t x pc).caller u) := by
    intro t x pc hout hpc
    unfold State.enter
    dsimp only
    by_cases hu : u = t
    · rw [hu, Function.update_self]
      exact .enter hout hpc
    · rw [Function.update_of_ne hu]
      exact .same
  cases a with
  | xemWait t x =>
    cases Except.ok.inj hstep
    exact henter hon (.inl rfl)
  | xemUnlock t x =>
    cases Except.ok.inj hstep
    exact henter hon (.inr rfl)
  | go t =>
    cases Except.ok.inj hstep
    unfold State.go State.run
    dsimp only
    by_cases hu : u = t
    · subst hu
      rw [Function.update_self]
      rcases signal_eq s u with heq | ⟨v, hpc, heq⟩
      · rw [heq]
        exact .next rfl (.inl rfl)
      · rw [heq]
        by_cases hv : u = v
        · subst hv
          simp only [Function.update_self]
          exact .next rfl (.inr ⟨rfl, hpc⟩)
        · simp only [Function.update_of_ne hv]
          exact .next rfl (.inl rfl)
    · rw [Function.update_of_ne hu]
      rcases signal_eq s t with heq | ⟨v, hpc, heq⟩
      · rw [heq]
        exact .same
      · rw [heq]
        by_cases hv : u = v
        · subst hv
          simp only [Function.update_self]
          exact .awake (.inr ⟨t, rfl, hpc⟩)
        · simp only [Function.update_of_ne hv]
          exact .same
  | kill victims =>
    cases Except.ok.inj hstep
    unfold State.kill
    dsimp only
    split
    · rename_i hvictim
      exact .awake (.inl ⟨victims, rfl, hvictim⟩)
    · exact .same
  | mark t =>
    cases Except.ok.inj hstep
    exact .same
  | dispatch t => cases hstep
  | reuse t =>
    cases Except.ok.inj hstep
    exact .same

omit [DecidableEq X] in
theorem awake_resting {c : Caller X} (h : c.awake.th.resting = true) : c.th.resting = true := by
  obtain ⟨⟨pc, state, chan⟩, on⟩ := c
  cases pc <;> first | exact h | cases h

omit [DecidableEq X] in
/-- A thread comes to rest at the test of `xem_wait`, and only if the value is not positive. -/
theorem Change.rests {u : Fin n} {c : Caller X} (h : Change s a u c)
    (hrest : c.th.resting = true) :
    (s.caller u).th.resting = true ∨ a = .go u ∧ (s.caller u).th.pc = .waitTest ∧
      (s.xem (s.caller u).on).value ≤ 0 := by
  cases h with
  | same => exact .inl hrest
  | awake _ => exact .inl (awake_resting hrest)
  | enter _ hpc => rcases hpc with rfl | rfl <;> cases hrest
  | next hgo hc =>
    rcases hc with rfl | ⟨rfl, hpc⟩
    · rcases Semaphore.next_resting hrest with hrest | ⟨hpc, hvalue, -⟩
      · exact .inl hrest
      · exact .inr ⟨hgo, hpc, hvalue⟩
    · rcases Semaphore.next_resting hrest with hrest | ⟨hpc', -, -⟩
      · exact .inl (awake_resting hrest)
      · cases hpc.symm.trans hpc'

theorem next_sleeping {sh : Shared} {slot : Nat → Option Bool} {th : Thread}
    (h : th.state = .sleeping → th.pc = .sched ∨ th.pc = .off)
    (hsleep : (next sh slot th).2.state = .sleeping) :
    (next sh slot th).2.pc = .sched ∨ (next sh slot th).2.pc = .off := by
  obtain ⟨pc, state, chan⟩ := th
  cases pc <;> simp only [next] at hsleep ⊢ <;> (try split at hsleep) <;>
    simp_all [Thread.goto]

omit [DecidableEq X] in
theorem Change.sleeps {u : Fin n} {c : Caller X} (h : Change s a u c)
    (hbefore : (s.caller u).th.state = .sleeping →
      (s.caller u).th.pc = .sched ∨ (s.caller u).th.pc = .off)
    (hsleep : c.th.state = .sleeping) : c.th.pc = .sched ∨ c.th.pc = .off := by
  cases h with
  | same => exact hbefore hsleep
  | awake _ => cases hsleep
  | enter hout hpc =>
    rcases hbefore hsleep with h | h
    · cases hout.symm.trans h
    · cases hout.symm.trans h
  | next hgo hc =>
    refine next_sleeping ?_ hsleep
    rcases hc with rfl | ⟨rfl, _⟩
    · exact hbefore
    · exact nofun

theorem resting_of_sleeping {th : Thread} (hsleep : th.state = .sleeping)
    (hpc : th.pc = .sched ∨ th.pc = .off) : th.resting = true := by
  rcases hpc with hpc | hpc <;> simp [Thread.resting, Thread.counted, hpc, hsleep]

omit [DecidableEq X] in
theorem testedKilled_cons (t : Fin n) (s : State n X) (a : Act n X) (trace : Trace n X) :
    testedKilled t ((s, a, ()) :: trace) = true →
      a = .go t ∧ (s.caller t).th.pc = .waitTest ∧ s.killed t = true ∨
      ¬ (a = .go t ∧ (s.caller t).th.pc = .waitTest) ∧ testedKilled t trace = true := by
  intro h
  cases a with
  | go u =>
    simp only [testedKilled] at h
    split at h
    · rename_i htest
      exact .inl ⟨by rw [htest.1], htest.2, h⟩
    · rename_i htest
      exact .inr ⟨fun hboth => htest ⟨Act.go.inj hboth.1, hboth.2⟩, h⟩
  | xemWait | xemUnlock | kill | mark | dispatch | reuse =>
    exact .inr ⟨fun hgo => (nomatch hgo.1), h⟩

theorem killed_of_step (hstep : machine s a = .ok (s', ())) {t : Fin n}
    (hkilled : s'.killed t = true) : s.killed t = true ∨
      (∃ victims, a = .kill victims ∧ victims t = true) ∨ a = .mark t := by
  cases a with
  | xemWait | xemUnlock =>
    cases Except.ok.inj hstep
    exact .inl hkilled
  | go u =>
    cases Except.ok.inj hstep
    rcases signal_eq s u with heq | ⟨_, _, heq⟩
    · unfold State.go at hkilled
      rw [heq] at hkilled
      exact .inl hkilled
    · unfold State.go at hkilled
      rw [heq] at hkilled
      exact .inl hkilled
  | kill victims =>
    cases Except.ok.inj hstep
    rcases Bool.or_eq_true_iff.mp hkilled with hbefore | hnow
    · exact .inl hbefore
    · exact .inr (.inl ⟨victims, rfl, hnow⟩)
  | mark u =>
    cases Except.ok.inj hstep
    by_cases hu : t = u
    · rw [hu]
      exact .inr (.inr rfl)
    · simp only [Function.update_of_ne hu] at hkilled
      exact .inl hkilled
  | dispatch u => cases hstep
  | reuse u =>
    cases Except.ok.inj hstep
    by_cases hu : t = u
    · simp only [hu, Function.update_self] at hkilled
      cases hkilled
    · simp only [Function.update_of_ne hu] at hkilled
      exact .inl hkilled

/-- Where threads stand in the loop of `xem_wait`, if a marked thread always finds the
semaphore positive. -/
structure Awake (trace : Trace n X) (s : State n X) : Prop where
  sleeping : ∀ t, (s.caller t).th.state = .sleeping →
    (s.caller t).th.pc = .sched ∨ (s.caller t).th.pc = .off
  tested : ∀ t, testedKilled t trace = true → (s.caller t).th.resting ≠ true
  group : (∀ e ∈ trace, e.1.Caught e.2.1) →
    ∀ t, s.killed t = true → (s.caller t).th.resting ≠ true

theorem Awake.step {trace : Trace n X} (h : Awake trace s) (hon : s.Enabled a)
    (hnoticed : s.Noticed a) (hstep : machine s a = .ok (s', ())) :
    Awake ((s, a, ()) :: trace) s' := by
  have hchange := change hon hstep
  have hpositive : ∀ {t}, a = .go t → (s.caller t).th.pc = .waitTest → s.killed t = true →
      ¬ (s.xem (s.caller t).on).value ≤ 0 := by
    intro t hgo hpc hkilled hvalue
    subst hgo
    have hpos := hnoticed hpc hkilled
    omega
  refine ⟨fun t => (hchange t).sleeps (h.sleeping t), fun t htested hrest => ?_,
    fun hcaught t hkilled hrest => ?_⟩
  · rcases (hchange t).rests hrest with hbefore | ⟨hgo, hpc, hvalue⟩
    · rcases testedKilled_cons t s a trace htested with ⟨_, hpc, _⟩ | ⟨_, hearlier⟩
      · rw [Thread.resting, hpc, Thread.counted, hpc] at hbefore
        cases hbefore
      · exact h.tested t hearlier hbefore
    · rcases testedKilled_cons t s a trace htested with ⟨_, _, hkilled⟩ | ⟨hnot, _⟩
      · exact hpositive hgo hpc hkilled hvalue
      · exact hnot ⟨hgo, hpc⟩
  · have hearlier : ∀ e ∈ trace, e.1.Caught e.2.1 := fun e he => hcaught e (.tail _ he)
    have hnow : s.Caught a := hcaught _ (.head _)
    rcases (hchange t).rests hrest with hbefore | ⟨hgo, hpc, hvalue⟩
    · rcases killed_of_step hstep hkilled with hkilled | ⟨victims, rfl, hvictim⟩ | rfl
      · exact h.group hearlier t hkilled hbefore
      · -- the victim was asleep, so that it is RUNNABLE now
        have hsleep := hnow t hvictim hbefore
        cases Except.ok.inj hstep
        simp only [State.kill, hvictim, hsleep, and_self, if_true] at hrest
        rcases h.sleeping t hsleep with hpc | hpc <;>
          simp [Caller.awake, Thread.resting, Thread.counted, hpc] at hrest
      · exact absurd hbefore (by rw [show (s.caller t).th.resting = false from hnow]; decide)
    · rcases killed_of_step hstep hkilled with hkilled | ⟨victims, hkill, _⟩ | hmark
      · exact hpositive hgo hpc hkilled hvalue
      · cases hgo.symm.trans hkill
      · cases hgo.symm.trans hmark

/-- If every marked thread that tests a semaphore finds it positive, none goes back to sleep
in `Cond_wait`. -/
theorem killed_not_sleeping {v : X → Int} {on : Fin n → X} {trace : Trace n X}
    (hrun : Run machine (fun s a => s.Enabled a ∧ s.Noticed a) (start v on) trace s) :
    Unblocked trace s := by
  have hawake : Awake trace s := by
    refine hrun.invariant Awake ⟨fun t h => ?_, fun t h => ?_, fun _ t h => ?_⟩ ?_
    · cases h
    · cases h
    · cases h
    · intro trace s a s' out h hallowed hstep
      exact h.step hallowed.1 hallowed.2 hstep
  refine ⟨fun t htested hsleep => ?_, fun hcaught t hkilled hsleep => ?_⟩
  · exact hawake.tested t htested (resting_of_sleeping hsleep (hawake.sleeping t hsleep))
  · exact hawake.group hcaught t hkilled (resting_of_sleeping hsleep (hawake.sleeping t hsleep))

end

/-- Slot 0 is killed in its sleep; slot 1 raises the semaphore before slot 0 tests it again. -/
theorem killed_not_sleeping_served : ∃ (trace : Trace 2 Unit) (s : State 2 Unit),
    Run machine (fun s a => s.Enabled a ∧ s.Noticed a) (start (fun _ => 1) fun _ => ()) trace s ∧
    (testedKilled 0 trace = true ∧ (s.caller 0).th.pc = .out ∧ s.killed 0 = true) ∧
    (∀ e ∈ trace, e.1.Caught e.2.1) ∧ Unblocked trace s := by
  obtain ⟨trace, s, hrun, htest⟩ := exists_run machine
    (fun (s : State 2 Unit) a => s.Enabled a ∧ s.Noticed a) (start (fun _ => 1) fun _ => ())
    (.xemWait 1 () :: List.replicate 4 (.go 1) ++ .xemWait 0 () :: List.replicate 10 (.go 0) ++
      .kill (fun t => decide (t = 0)) :: .xemUnlock 1 () :: List.replicate 10 (.go 1) ++
      List.replicate 7 (.go 0))
    (fun trace s => decide ((testedKilled 0 trace = true ∧ (s.caller 0).th.pc = .out ∧
      s.killed 0 = true) ∧ ∀ e ∈ trace, e.1.Caught e.2.1)) (by decide +kernel)
  obtain ⟨htested, hcaught⟩ := of_decide_eq_true htest
  exact ⟨trace, s, hrun, htested, hcaught, killed_not_sleeping hrun⟩

/-- Slot 0 is killed in its sleep and finds the semaphore at 0 again. -/
theorem killed_sleeps : ∃ (trace : Trace 2 Unit) (s : State 2 Unit),
    Run machine State.Enabled (start (fun _ => 1) fun _ => ()) trace s ∧
    testedKilled 0 trace = true ∧ (s.caller 0).th.state = .sleeping := by
  obtain ⟨trace, s, hrun, htest⟩ := exists_run machine State.Enabled
    (start (fun _ => 1) fun _ => ())
    (.xemWait 1 () :: List.replicate 4 (.go 1) ++ .xemWait 0 () :: List.replicate 10 (.go 0) ++
      .kill (fun t => decide (t = 0)) :: List.replicate 13 (.go 0))
    (fun trace (s : State 2 Unit) => decide (testedKilled 0 trace = true ∧
      (s.caller 0).th.state = .sleeping)) (by decide +kernel)
  exact ⟨trace, s, hrun, of_decide_eq_true htest⟩

end Xv6.Killed

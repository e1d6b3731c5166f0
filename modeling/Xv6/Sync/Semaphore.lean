import Xv6.Lib.Transition
import Xv6.Lib.Threads
import Xv6.Lib.Word

/-! The semaphore of `semaphore.c`, run by the threads of a process table. `TestAndSet` is
atomic; every other statement of `xem_wait`, `xem_unlock`, `Cond_wait` and `Cond_signal` is
a step of its own, and `Cond_signal` searches the table without `ptable.lock`. -/
namespace Xv6.Semaphore

open Transition Threads Word

/-- The statement a thread is about to run. `scan i` is the test of `Cond_signal` on slot
`i`, `wake i` its assignment to the state of slot `i`; a thread at `off` has left the CPU
in `sched`. -/
inductive Pc where
  | out
  | waitLock | waitTest | waitTake | waitUnlock
  | condLock | condCount | condUnlock | condAcquire | condRelease | condChan | condSleep
  | sched | off | tidy | release | relock
  | postLock | postAdd
  | signalLock | signalTest | signalNone | signalCount | signalUnlock
  | scan (i : Nat) | wake (i : Nat) | postUnlock
  deriving DecidableEq, Repr

def Pc.looksAt : Pc → Option Nat
  | .scan i => some i
  | _ => none

inductive Life where
  | running | sleeping | runnable
  deriving DecidableEq, Repr

/-- A slot: what its thread runs next, its `state`, and whether `chan` is the condition. -/
structure Thread where
  pc : Pc
  state : Life
  chan : Bool
  deriving DecidableEq

structure Shared where
  value : Int
  lock : Int
  waiting : Int
  condLock : Int
  ptable : Bool
  deriving DecidableEq

def Shared.init : Shared := ⟨1, 0, 0, 0, false⟩

namespace Thread

def goto (th : Thread) (pc : Pc) : Thread := { th with pc }

def asleep (th : Thread) : Bool := decide (th.state = .sleeping) && th.chan

end Thread

/-- One statement. `slot i` is the test of `Cond_signal` on slot `i`, `none` past the end of
the table. `Mutex_lock` and `acquire` spin: the thread stays where it is. -/
def next (sh : Shared) (slot : Nat → Option Bool) (th : Thread) : Shared × Thread :=
  match th.pc with
  | .out => (sh, th)
  | .waitLock => if sh.lock = 1 then (sh, th) else ({ sh with lock := 1 }, th.goto .waitTest)
  | .waitTest => (sh, th.goto (if sh.value ≤ 0 then .condLock else .waitTake))
  | .waitTake => ({ sh with value := i32 (sh.value - 1) }, th.goto .waitUnlock)
  | .waitUnlock => ({ sh with lock := 0 }, th.goto .out)
  | .condLock =>
      if sh.condLock = 1 then (sh, th) else ({ sh with condLock := 1 }, th.goto .condCount)
  | .condCount => ({ sh with waiting := sh.waiting + 1 }, th.goto .condUnlock)
  | .condUnlock => ({ sh with condLock := 0 }, th.goto .condAcquire)
  | .condAcquire =>
      if sh.ptable then (sh, th) else ({ sh with ptable := true }, th.goto .condRelease)
  | .condRelease => ({ sh with lock := 0 }, th.goto .condChan)
  | .condChan => (sh, { th with pc := .condSleep, chan := true })
  | .condSleep => (sh, { th with pc := .sched, state := .sleeping })
  -- the scheduler releases ptable.lock, and takes it again before it switches back
  | .sched => ({ sh with ptable := false }, th.goto .off)
  | .off =>
      if th.state = .runnable ∧ sh.ptable = false then
        ({ sh with ptable := true }, { th with pc := .tidy, state := .running })
      else (sh, th)
  | .tidy => (sh, { th with pc := .release, chan := false })
  | .release => ({ sh with ptable := false }, th.goto .relock)
  | .relock => if sh.lock = 1 then (sh, th) else ({ sh with lock := 1 }, th.goto .waitTest)
  | .postLock => if sh.lock = 1 then (sh, th) else ({ sh with lock := 1 }, th.goto .postAdd)
  | .postAdd => ({ sh with value := i32 (sh.value + 1) }, th.goto .signalLock)
  | .signalLock =>
      if sh.condLock = 1 then (sh, th) else ({ sh with condLock := 1 }, th.goto .signalTest)
  | .signalTest => (sh, th.goto (if sh.waiting = 0 then .signalNone else .signalCount))
  | .signalNone => ({ sh with condLock := 0 }, th.goto .postUnlock)
  | .signalCount => ({ sh with waiting := sh.waiting - 1 }, th.goto .signalUnlock)
  | .signalUnlock => ({ sh with condLock := 0 }, th.goto (.scan 0))
  | .scan i =>
      match slot i with
      | none => (sh, th.goto .postUnlock)
      | some true => (sh, th.goto (.wake i))
      | some false => (sh, th.goto (.scan (i + 1)))
  | .wake _ => (sh, th.goto .postUnlock)
  | .postUnlock => ({ sh with lock := 0 }, th.goto .out)

structure State (n : Nat) where
  sh : Shared
  thread : Fin n → Thread

inductive Act (n : Nat) where
  | xemWait (t : Fin n)
  | xemUnlock (t : Fin n)
  | go (t : Fin n)

def start {n : Nat} : State n := ⟨.init, fun _ => ⟨.out, .running, false⟩⟩

namespace State

variable {n : Nat}

def slot (s : State n) (i : Nat) : Option Bool :=
  if h : i < n then some (s.thread ⟨i, h⟩).asleep else none

def set (s : State n) (t : Fin n) (th : Thread) : State n :=
  { s with thread := Function.update s.thread t th }

def wakeup (s : State n) (i : Nat) : State n :=
  if h : i < n then s.set ⟨i, h⟩ { s.thread ⟨i, h⟩ with state := .runnable } else s

def run (s : State n) (t : Fin n) : State n :=
  let after := next s.sh s.slot (s.thread t)
  { sh := after.1, thread := Function.update s.thread t after.2 }

def step (s : State n) : Act n → State n
  | .xemWait t => s.set t ((s.thread t).goto .waitLock)
  | .xemUnlock t => s.set t ((s.thread t).goto .postLock)
  | .go t =>
      match (s.thread t).pc with
      | .wake i => (s.wakeup i).run t
      | _ => s.run t

def Enabled (s : State n) : Act n → Prop
  | .xemWait t | .xemUnlock t => (s.thread t).pc = .out
  | .go t => (s.thread t).pc ≠ .out

instance (s : State n) : (a : Act n) → Decidable (s.Enabled a)
  | .xemWait _ | .xemUnlock _ => inferInstanceAs (Decidable (_ = _))
  | .go _ => inferInstanceAs (Decidable (_ ≠ _))

/-- Released the semaphore's mutex in `Cond_wait` and not yet SLEEPING. -/
def Window (s : State n) (i : Nat) : Prop :=
  ∃ u : Fin n, u.val = i ∧ ((s.thread u).pc = .condChan ∨ (s.thread u).pc = .condSleep)

instance (s : State n) (i : Nat) : Decidable (s.Window i) :=
  inferInstanceAs (Decidable (∃ _, _ ∧ (_ ∨ _)))

def Settled (s : State n) : Act n → Prop
  | .xemWait _ | .xemUnlock _ => True
  | .go t => ∀ i ∈ (s.thread t).pc.looksAt, ¬ s.Window i

instance (s : State n) : (a : Act n) → Decidable (s.Settled a)
  | .xemWait _ | .xemUnlock _ => inferInstanceAs (Decidable True)
  | .go _ => inferInstanceAs (Decidable (∀ _ ∈ _, ¬ _))

/-- No thread is inside `xem_wait` or `xem_unlock`, except those SLEEPING on the condition. -/
def Quiet (s : State n) : Prop := ∀ t, (s.thread t).pc = .out ∨ (s.thread t).asleep = true

instance (s : State n) : Decidable s.Quiet := inferInstanceAs (Decidable (∀ _, _ ∨ _))

/-- The semaphore is positive only when no thread is SLEEPING on it. -/
def NoneLost (s : State n) : Prop := s.sh.value ≤ 0 ∨ ∀ t, (s.thread t).asleep = false

instance (s : State n) : Decidable s.NoneLost := inferInstanceAs (Decidable (_ ∨ ∀ _, _))

end State

open State

variable {n : Nat}

def machine : Machine (State n) (Act n) Unit Empty := fun s a => .ok (s.step a, ())

def Thread.locked (th : Thread) : Bool :=
  match th.pc with
  | .waitTest | .waitTake | .waitUnlock | .condLock | .condCount | .condUnlock | .condAcquire
  | .condRelease | .postAdd | .signalLock | .signalTest | .signalNone | .signalCount
  | .signalUnlock | .scan _ | .wake _ | .postUnlock => true
  | _ => false

/-- Counted itself in `waiting_threads` and not woken yet. -/
def Thread.counted (th : Thread) : Bool :=
  match th.pc with
  | .condUnlock | .condAcquire | .condRelease | .condChan | .condSleep => true
  | .sched | .off => decide (th.state = .sleeping)
  | _ => false

/-- A signal that has counted a thread out and not woken one yet. -/
def Thread.waking (th : Thread) : Bool :=
  match th.pc with
  | .signalUnlock | .scan _ | .wake _ => true
  | _ => false

/-- Found the semaphore not positive, and not woken since. -/
def Thread.resting (th : Thread) : Bool :=
  match th.pc with
  | .condLock | .condCount => true
  | _ => th.counted

/-- On its way to the test of `xem_wait` or past it. -/
def Thread.claiming (th : Thread) : Bool :=
  match th.pc with
  | .sched | .off => decide (th.state = .runnable)
  | .tidy | .release | .relock | .waitTest | .waitTake => true
  | _ => false

def Thread.pending (th : Thread) : Bool :=
  match th.pc with
  | .signalLock | .signalTest | .signalCount | .signalUnlock | .scan _ | .wake _ => true
  | _ => false

/-- The least slot that a signal which has to wake a thread has still to look at. -/
def Pc.searches : Pc → Option Nat
  | .signalCount | .signalUnlock => some 0
  | .scan i => some i
  | _ => none

/-- A thread is off the CPU only from `Cond_wait`, and on the condition's channel there. -/
def Thread.Ok (th : Thread) : Prop :=
  match th.pc with
  | .condSleep => th.chan = true ∧ th.state = .running
  | .sched | .off => th.chan = true ∧ th.state ≠ .running
  | _ => th.state = .running

/-- What one step of a thread does to the shared fields and to its place. -/
structure Moves (sh : Shared) (slot : Nat → Option Bool) (th : Thread)
    (after : Shared × Thread) : Prop where
  isInt : IsInt after.1.value
  ok : after.2.Ok
  bit : after.1.lock = 0 ∨ after.1.lock = 1
  lock : after.1.lock + th.locked.toNat = sh.lock + after.2.locked.toNat
  value : th.locked = false → after.1.value = sh.value
  take : after.2.pc = .waitTake → 0 < after.1.value
  waiting : after.1.waiting + after.2.waking.toNat + th.counted.toNat =
    sh.waiting + th.waking.toNat + after.2.counted.toNat
  budget : after.1.value + th.claiming.toNat + th.pending.toNat ≤
      sh.value + after.2.claiming.toNat + after.2.pending.toNat ∨
    th.pc = .waitTest ∧ sh.value ≤ 0 ∧ after.1 = sh ∨ th.pc = .signalTest ∧ sh.waiting = 0
  resting : after.2.resting = true →
    th.resting = true ∨ th.pc = .waitTest ∧ sh.value ≤ 0 ∧ after.1 = sh
  counted : th.counted = true → after.2.counted = true
  asleep : th.asleep = true → after.2.asleep = true
  searches : ∀ j, after.2.pc.searches = some j →
    th.pc = .signalTest ∧ sh.waiting ≠ 0 ∧ j = 0 ∨ th.pc.searches = some j ∨
      ∃ i, th.pc = .scan i ∧ slot i = some false ∧ j = i + 1
  wake : ∀ i, after.2.pc = .wake i → th.pc = .scan i ∧ slot i = some true

section Local

variable {sh : Shared} {slot : Nat → Option Bool} {th : Thread}

theorem next_ok (h : th.Ok) : (next sh slot th).2.Ok := by
  obtain ⟨pc, state, chan⟩ := th
  cases pc <;> simp only [next] <;> (try split) <;> simp_all [Thread.Ok, Thread.goto]

theorem next_lock (hlock : th.locked = true → sh.lock = 1) (hbit : sh.lock = 0 ∨ sh.lock = 1) :
    (next sh slot th).1.lock + th.locked.toNat =
      sh.lock + (next sh slot th).2.locked.toNat := by
  obtain ⟨pc, state, chan⟩ := th
  cases pc <;> simp only [next] <;> (try split) <;>
    simp_all [Thread.locked, Thread.goto]

theorem next_value_isInt (h : IsInt sh.value) : IsInt (next sh slot th).1.value := by
  obtain ⟨pc, state, chan⟩ := th
  cases pc <;> simp only [next] <;> (try split) <;> first | exact h | exact i32_isInt _

theorem next_value (h : th.locked = false) : (next sh slot th).1.value = sh.value := by
  obtain ⟨pc, state, chan⟩ := th
  cases pc <;> simp only [next] <;> (try split) <;> first | rfl | cases h

theorem next_take (h : (next sh slot th).2.pc = .waitTake) :
    0 < (next sh slot th).1.value := by
  obtain ⟨pc, state, chan⟩ := th
  cases pc <;> simp only [next] at h ⊢ <;> (try split at h) <;>
    simp_all [Thread.goto]

theorem next_waiting (hend : ∀ i, th.pc = .scan i → slot i ≠ none)
    (hwake : ∀ i, th.pc ≠ .wake i) :
    (next sh slot th).1.waiting + (next sh slot th).2.waking.toNat + th.counted.toNat =
      sh.waiting + th.waking.toNat + (next sh slot th).2.counted.toNat := by
  obtain ⟨pc, state, chan⟩ := th
  cases pc <;> simp only [next] <;> (try split) <;>
    simp_all [Thread.waking, Thread.counted, Thread.goto]
  rfl

/-- What a step adds to the value is claimed or pending, unless the thread goes to rest or
its signal finds nobody to wake. -/
theorem next_budget (hint : IsInt sh.value) (htake : th.pc = .waitTake → 0 < sh.value)
    (hend : ∀ i, th.pc = .scan i → slot i ≠ none) (hwake : ∀ i, th.pc ≠ .wake i) :
    (next sh slot th).1.value + th.claiming.toNat + th.pending.toNat ≤
      sh.value + (next sh slot th).2.claiming.toNat + (next sh slot th).2.pending.toNat ∨
    th.pc = .waitTest ∧ sh.value ≤ 0 ∧ (next sh slot th).1 = sh ∨
    th.pc = .signalTest ∧ sh.waiting = 0 := by
  have hadd : i32 (sh.value + 1) ≤ sh.value + 1 := by
    unfold IsInt at hint
    unfold i32
    omega
  have hsub : 0 < sh.value → i32 (sh.value - 1) = sh.value - 1 := by
    intro hpos
    unfold IsInt at hint
    exact i32_eq_self ⟨by omega, by omega⟩
  obtain ⟨pc, state, chan⟩ := th
  cases pc <;> simp only [next] <;> (try split) <;>
    simp_all [Thread.claiming, Thread.pending, Thread.goto]
  all_goals first | omega | exact Nat.le_refl _

theorem next_resting (h : (next sh slot th).2.resting = true) :
    th.resting = true ∨ th.pc = .waitTest ∧ sh.value ≤ 0 ∧ (next sh slot th).1 = sh := by
  obtain ⟨pc, state, chan⟩ := th
  cases pc <;> simp only [next] at h ⊢ <;> (try split at h) <;>
    simp_all [Thread.resting, Thread.counted, Thread.goto]
  exact of_decide_eq_true h

theorem next_counted (h : th.counted = true) : (next sh slot th).2.counted = true := by
  obtain ⟨pc, state, chan⟩ := th
  cases pc <;> simp only [next] <;> (try split) <;>
    simp_all [Thread.counted, Thread.goto]

theorem next_asleep (hok : th.Ok) (h : th.asleep = true) :
    (next sh slot th).2.asleep = true := by
  obtain ⟨pc, state, chan⟩ := th
  cases pc <;> simp only [next] <;> (try split) <;>
    simp_all [Thread.asleep, Thread.Ok, Thread.goto]

theorem next_searches {j : Nat} (h : (next sh slot th).2.pc.searches = some j) :
    th.pc = .signalTest ∧ sh.waiting ≠ 0 ∧ j = 0 ∨ th.pc.searches = some j ∨
      ∃ i, th.pc = .scan i ∧ slot i = some false ∧ j = i + 1 := by
  obtain ⟨pc, state, chan⟩ := th
  cases pc <;> simp only [next] at h ⊢ <;> (try split at h) <;>
    simp_all [Pc.searches, Thread.goto]

theorem next_wake {i : Nat} (h : (next sh slot th).2.pc = .wake i) :
    th.pc = .scan i ∧ slot i = some true := by
  obtain ⟨pc, state, chan⟩ := th
  cases pc <;> simp only [next] at h ⊢ <;> (try split at h) <;>
    simp_all [Thread.goto]

theorem next_bit (h : sh.lock = 0 ∨ sh.lock = 1) :
    (next sh slot th).1.lock = 0 ∨ (next sh slot th).1.lock = 1 := by
  obtain ⟨pc, state, chan⟩ := th
  cases pc <;> simp only [next] <;> (try split) <;> first | exact h | simp

theorem locked_of_waking (h : th.waking = true) : th.locked = true := by
  obtain ⟨pc, state, chan⟩ := th
  cases pc <;> first | rfl | cases h

theorem locked_of_searches {i : Nat} (h : th.pc.searches = some i) : th.locked = true := by
  obtain ⟨pc, state, chan⟩ := th
  cases pc <;> first | rfl | cases h

theorem resting_cases (h : th.resting = true) :
    th.counted = true ∨ th.locked = true ∧ th.waking = false ∧ th.pc ≠ .signalTest := by
  obtain ⟨pc, state, chan⟩ := th
  cases pc <;> first | exact .inl h | exact .inr ⟨rfl, rfl, Pc.noConfusion⟩

theorem counted_cases (hok : th.Ok) (h : th.counted = true) :
    th.asleep = true ∨ th.pc = .condChan ∨ th.pc = .condSleep ∨
      th.locked = true ∧ th.pc.looksAt = none := by
  obtain ⟨pc, state, chan⟩ := th
  cases pc <;> simp_all [Thread.Ok, Thread.counted, Thread.asleep, Thread.locked, Pc.looksAt]

theorem asleep_cases (hok : th.Ok) (h : th.asleep = true) :
    (th.pc = .sched ∨ th.pc = .off) ∧ th.state = .sleeping ∧ th.chan = true := by
  obtain ⟨pc, state, chan⟩ := th
  cases pc <;> simp_all [Thread.Ok, Thread.asleep]

end Local

structure State.Sound (s : State n) : Prop where
  value : IsInt s.sh.value
  ok : ∀ t, (s.thread t).Ok
  bit : s.sh.lock = 0 ∨ s.sh.lock = 1
  lock : s.sh.lock = count s.thread Thread.locked
  take : ∀ t, (s.thread t).pc = .waitTake → 0 < s.sh.value
  waiting : s.sh.waiting + count s.thread Thread.waking = count s.thread Thread.counted
  search : ∀ t i, (s.thread t).pc.searches = some i →
    ∃ u : Fin n, i ≤ u.val ∧ (s.thread u).counted = true
  wake : ∀ t i, (s.thread t).pc = .wake i → ∃ u : Fin n, u.val = i ∧ (s.thread u).asleep = true
  budget : ∀ t, (s.thread t).resting = true →
    s.sh.value ≤ count s.thread Thread.claiming + count s.thread Thread.pending

theorem sound_start : (start : State n).Sound := by
  have hnone : ∀ region : Thread → Bool, region ⟨.out, .running, false⟩ = false →
      count (start : State n).thread region = 0 := fun region h => count_eq_zero fun _ => h
  have hint : IsInt 1 := by decide
  refine ⟨hint, fun _ => rfl, .inl rfl, ?_, ?_, ?_, ?_, ?_, ?_⟩
  · rw [hnone Thread.locked rfl]
    rfl
  · intro t h
    cases h
  · rw [hnone Thread.waking rfl, hnone Thread.counted rfl]
    rfl
  · intro t i h
    cases h
  · intro t i h
    cases h
  · intro t h
    cases h

namespace State.Sound

variable {s : State n}

theorem locked_eq (h : s.Sound) {t u : Fin n} (ht : (s.thread t).locked = true)
    (hu : (s.thread u).locked = true) : t = u := by
  have hlock := h.lock
  have hbit := h.bit
  exact eq_of_count_le_one (by omega) ht hu

theorem lock_one (h : s.Sound) {t : Fin n} (ht : (s.thread t).locked = true) : s.sh.lock = 1 := by
  have hlock := h.lock
  have hbit := h.bit
  have := count_pos ht
  omega

theorem waking_eq_zero (h : s.Sound) {t : Fin n} (ht : (s.thread t).locked = true)
    (hnot : (s.thread t).waking = false) : count s.thread Thread.waking = 0 := by
  apply count_eq_zero
  intro u
  by_contra hu
  rw [Bool.not_eq_false] at hu
  have hlocked : (s.thread u).locked = true := locked_of_waking hu
  rw [h.locked_eq hlocked ht, hnot] at hu
  cases hu

theorem not_resting (h : s.Sound) {t : Fin n} (ht : (s.thread t).pc = .signalTest)
    (hzero : s.sh.waiting = 0) (u : Fin n) : (s.thread u).resting = false := by
  have hlocked : (s.thread t).locked = true := by rw [Thread.locked, ht]
  have hwaking := h.waking_eq_zero hlocked (by rw [Thread.waking, ht])
  have hwaiting := h.waiting
  by_contra hu
  rcases resting_cases (Bool.not_eq_false _ ▸ hu) with hcounted | ⟨hin, -, hpc⟩
  · have := count_pos hcounted
    omega
  · rw [h.locked_eq hin hlocked] at hpc
    exact hpc ht

theorem slot_ne_none (h : s.Sound) {t : Fin n} {i : Nat} (ht : (s.thread t).pc = .scan i) :
    s.slot i ≠ none := by
  obtain ⟨u, hle, -⟩ := h.search t i (by rw [ht]; rfl)
  have hlt : i < n := Nat.lt_of_le_of_lt hle u.isLt
  simp [slot, hlt]

theorem search_on (h : s.Sound) {t : Fin n} {i : Nat} (ht : (s.thread t).pc = .scan i)
    (hslot : s.slot i = some false) (hset : s.Settled (.go t)) :
    ∃ u : Fin n, i + 1 ≤ u.val ∧ (s.thread u).counted = true := by
  obtain ⟨u, hle, hu⟩ := h.search t i (by rw [ht]; rfl)
  refine ⟨u, ?_, hu⟩
  by_contra hnot
  have hui : u.val = i := by omega
  have hawake : (s.thread u).asleep = false := by
    subst hui
    simpa [slot] using hslot
  have hlook : (s.thread t).pc.looksAt = some i := by rw [ht]; rfl
  have hwindow : ¬ s.Window i := hset i (by rw [hlook]; rfl)
  rcases counted_cases (h.ok u) hu with hasleep | hpc | hpc | ⟨hin, hpc⟩
  · rw [hawake] at hasleep
    cases hasleep
  · exact hwindow ⟨u, hui, .inl hpc⟩
  · exact hwindow ⟨u, hui, .inr hpc⟩
  · have hut := h.locked_eq hin (t := u) (u := t) (by rw [Thread.locked, ht])
    rw [hut, ht] at hpc
    cases hpc

theorem move (h : s.Sound) {t : Fin n} {after : Shared × Thread}
    (hmove : Moves s.sh s.slot (s.thread t) after) (hset : s.Settled (.go t)) :
    State.Sound ⟨after.1, Function.update s.thread t after.2⟩ := by
  have hupdate := count_update s.thread t after.2
  have hthread : ∀ u, Function.update s.thread t after.2 u =
      if u = t then after.2 else s.thread u := fun u => Function.update_apply ..
  refine ⟨hmove.isInt, ?_, hmove.bit, ?_, ?_, ?_, ?_, ?_, ?_⟩
  · intro u
    simp only [hthread]
    split
    · exact hmove.ok
    · exact h.ok u
  · have := hupdate Thread.locked
    have := hmove.lock
    have := h.lock
    simp only
    omega
  · intro u hu
    simp only [hthread] at hu
    split at hu
    · exact hmove.take hu
    · rename_i hut
      have hin : (s.thread u).locked = true := by rw [Thread.locked, hu]
      have hout : (s.thread t).locked = false :=
        Bool.eq_false_iff.mpr fun ht => hut (h.locked_eq hin ht)
      exact hmove.value hout ▸ h.take u hu
  · have := hupdate Thread.waking
    have := hupdate Thread.counted
    have := hmove.waiting
    have := h.waiting
    simp only
    omega
  · intro u j hu
    suffices hbefore : ∃ v : Fin n, j ≤ v.val ∧ (s.thread v).counted = true by
      obtain ⟨v, hle, hv⟩ := hbefore
      refine ⟨v, hle, ?_⟩
      simp only [hthread]
      split
      · rename_i hvt
        exact hmove.counted (hvt ▸ hv)
      · exact hv
    simp only [hthread] at hu
    split at hu
    · rcases hmove.searches j hu with ⟨ht, hsome, rfl⟩ | ht | ⟨i, ht, hslot, rfl⟩
      · have hwaking := h.waking_eq_zero (t := t) (by rw [Thread.locked, ht])
          (by rw [Thread.waking, ht])
        have hwaiting := h.waiting
        have hpos : 0 < count s.thread Thread.counted := by omega
        obtain ⟨v, hv⟩ := exists_of_count_pos hpos
        exact ⟨v, Nat.zero_le _, hv⟩
      · exact h.search t j ht
      · exact h.search_on ht hslot hset
    · exact h.search u j hu
  · intro u i hu
    suffices hbefore : ∃ v : Fin n, v.val = i ∧ (s.thread v).asleep = true by
      obtain ⟨v, hvi, hv⟩ := hbefore
      refine ⟨v, hvi, ?_⟩
      simp only [hthread]
      split
      · rename_i hvt
        exact hmove.asleep (hvt ▸ hv)
      · exact hv
    simp only [hthread] at hu
    split at hu
    · obtain ⟨-, hslot⟩ := hmove.wake i hu
      simp only [slot, Option.dite_none_right_eq_some, Option.some.injEq] at hslot
      obtain ⟨hlt, hasleep⟩ := hslot
      exact ⟨⟨i, hlt⟩, rfl, hasleep⟩
    · exact h.wake u i hu
  · intro u hu
    have hbefore : (∃ v, (s.thread v).resting = true) ∨ after.1.value ≤ 0 := by
      simp only [hthread] at hu
      split at hu
      · rcases hmove.resting hu with ht | ⟨-, hle, hsame⟩
        · exact .inl ⟨t, ht⟩
        · exact .inr (hsame.symm ▸ hle)
      · exact .inl ⟨u, hu⟩
    simp only
    rcases hbefore with ⟨v, hv⟩ | hle
    · have := h.budget v hv
      have := hupdate Thread.claiming
      have := hupdate Thread.pending
      rcases hmove.budget with hb | ⟨-, hle, hsame⟩ | ⟨ht, hzero⟩
      · omega
      · rw [hsame]
        omega
      · rw [h.not_resting ht hzero v] at hv
        cases hv
    · omega

theorem run_moves (h : s.Sound) {t : Fin n} (hwake : ∀ i, (s.thread t).pc ≠ .wake i) :
    Moves s.sh s.slot (s.thread t) (next s.sh s.slot (s.thread t)) := by
  have hend := fun i (ht : (s.thread t).pc = .scan i) => h.slot_ne_none ht
  exact {
    isInt := next_value_isInt h.value
    ok := next_ok (h.ok t)
    bit := next_bit h.bit
    lock := next_lock h.lock_one h.bit
    value := next_value
    take := next_take
    waiting := next_waiting hend hwake
    budget := next_budget h.value (h.take t) hend hwake
    resting := next_resting
    counted := next_counted
    asleep := next_asleep (h.ok t)
    searches := fun _ => next_searches
    wake := fun _ => next_wake }

theorem call_moves (h : s.Sound) {t : Fin n} (ht : (s.thread t).pc = .out) {pc : Pc}
    (hpc : pc = .waitLock ∨ pc = .postLock) :
    Moves s.sh s.slot (s.thread t) (s.sh, (s.thread t).goto pc) := by
  have hok := h.ok t
  rcases hpc with rfl | rfl <;>
    constructor <;>
    simp_all [h.value, h.bit, Thread.goto, Thread.Ok, Thread.locked, Thread.waking,
      Thread.counted, Thread.resting, Thread.claiming, Thread.pending, Thread.asleep,
      Pc.searches]

theorem step_wake (h : s.Sound) {t u : Fin n} (ht : (s.thread t).pc = .wake u.val)
    (hu : (s.thread u).asleep = true) :
    t ≠ u ∧ s.step (.go t) = ⟨s.sh, Function.update (Function.update s.thread u
      { s.thread u with state := .runnable }) t ((s.thread t).goto .postUnlock)⟩ := by
  have htu : t ≠ u := by
    rintro rfl
    have hok := h.ok t
    rw [Thread.Ok, ht] at hok
    simp [Thread.asleep, hok] at hu
  refine ⟨htu, ?_⟩
  simp [State.step, State.wakeup, State.run, State.set, ht, htu, next]

/-- Between the decrement of `waiting_threads` and this assignment nothing was lost: the
thread counted out is the one that is woken. -/
theorem wake_sound (h : s.Sound) {t u : Fin n} (ht : (s.thread t).pc = .wake u.val)
    (hu : (s.thread u).asleep = true) : (s.step (.go t)).Sound := by
  have hlocked : (s.thread t).locked = true := by rw [Thread.locked, ht]
  obtain ⟨hpc, hstate, hchan⟩ := asleep_cases (h.ok u) hu
  obtain ⟨htu, hstep⟩ := h.step_wake ht hu
  rw [hstep]
  have hcount : ∀ region : Thread → Bool,
      count (Function.update (Function.update s.thread u
        { s.thread u with state := .runnable }) t ((s.thread t).goto .postUnlock)) region +
        (region (s.thread t)).toNat + (region (s.thread u)).toNat =
      count s.thread region + (region ((s.thread t).goto .postUnlock)).toNat +
        (region { s.thread u with state := .runnable }).toNat := by
    intro region
    have hfirst := count_update s.thread u { s.thread u with state := .runnable } region
    have hsecond := count_update (Function.update s.thread u
      { s.thread u with state := .runnable }) t ((s.thread t).goto .postUnlock) region
    rw [Function.update_of_ne htu] at hsecond
    omega
  have hother : ∀ v, v ≠ t → (s.thread v).locked = true → False :=
    fun v hv hin => hv (h.locked_eq hin hlocked)
  refine ⟨h.value, ?_, h.bit, ?_, ?_, ?_, ?_, ?_, ?_⟩
  · intro v
    have hok := h.ok v
    by_cases hvt : v = t
    · subst hvt
      simpa [Thread.Ok, Thread.goto, ht] using hok
    by_cases hvu : v = u
    · subst hvu
      rcases hpc with hpc | hpc <;> simp [Thread.Ok, hvt, hpc, hchan]
    · simpa [hvt, hvu] using hok
  · have hnow := hcount Thread.locked
    have := h.lock
    rcases hpc with hpc | hpc <;> simp [Thread.locked, ht, hpc, Thread.goto] at hnow ⊢ <;> omega
  · intro v hv
    by_cases hvt : v = t
    · simp [hvt, Thread.goto] at hv
    by_cases hvu : v = u
    · rcases hpc with hpc | hpc <;> simp [hvu, Ne.symm htu, hpc] at hv
    · exact h.take v (by simpa [hvt, hvu] using hv)
  · have hwaking := hcount Thread.waking
    have hcounted := hcount Thread.counted
    have := h.waiting
    rcases hpc with hpc | hpc <;>
      simp [Thread.waking, Thread.counted, ht, hpc, hstate, Thread.goto] at hwaking hcounted ⊢ <;>
      omega
  · intro v i hv
    by_cases hvt : v = t
    · simp [hvt, Thread.goto, Pc.searches] at hv
    by_cases hvu : v = u
    · rcases hpc with hpc | hpc <;> simp [hvu, Ne.symm htu, hpc, Pc.searches] at hv
    · have hbefore : (s.thread v).pc.searches = some i := by simpa [hvt, hvu] using hv
      exact (hother v hvt (locked_of_searches hbefore)).elim
  · intro v i hv
    by_cases hvt : v = t
    · simp [hvt, Thread.goto] at hv
    by_cases hvu : v = u
    · rcases hpc with hpc | hpc <;> simp [hvu, Ne.symm htu, hpc] at hv
    · have hbefore : (s.thread v).pc = .wake i := by simpa [hvt, hvu] using hv
      exact (hother v hvt (by rw [Thread.locked, hbefore])).elim
  · intro v hv
    have hbefore : (s.thread v).resting = true := by
      by_cases hvt : v = t
      · simp [hvt, Thread.resting, Thread.counted, Thread.goto] at hv
      by_cases hvu : v = u
      · rcases hpc with hpc | hpc <;>
          simp [hvu, Ne.symm htu, hpc, Thread.resting, Thread.counted] at hv
      · simpa [hvt, hvu] using hv
    have hclaiming := hcount Thread.claiming
    have hpending := hcount Thread.pending
    have := h.budget v hbefore
    rcases hpc with hpc | hpc <;>
      simp [Thread.claiming, Thread.pending, ht, hpc, hstate, Thread.goto]
        at hclaiming hpending ⊢ <;>
      omega

end State.Sound

theorem settled_of_out {s : State n} {t : Fin n} (ht : (s.thread t).pc = .out) :
    s.Settled (.go t) := by
  intro i hi
  rw [ht] at hi
  cases hi

theorem sound_step {s : State n} {a : Act n} (h : s.Sound) (henabled : s.Enabled a)
    (hset : s.Settled a) : (s.step a).Sound := by
  cases a with
  | xemWait t => exact h.move (h.call_moves henabled (.inl rfl)) (settled_of_out henabled)
  | xemUnlock t => exact h.move (h.call_moves henabled (.inr rfl)) (settled_of_out henabled)
  | go t =>
    by_cases hwake : ∃ i, (s.thread t).pc = .wake i
    · obtain ⟨i, ht⟩ := hwake
      obtain ⟨u, rfl, hu⟩ := h.wake t i ht
      exact h.wake_sound ht hu
    · have hnot : ∀ i, (s.thread t).pc ≠ .wake i := fun i ht => hwake ⟨i, ht⟩
      have hrun : s.step (.go t) = s.run t := by simp only [State.step]
      rw [hrun]
      exact h.move (h.run_moves hnot) hset

theorem sound_reaches {s : State n}
    (h : Reaches machine (fun s a => s.Enabled a ∧ s.Settled a) start s) : s.Sound := by
  refine h.invariant State.Sound sound_start ?_
  intro s a s' out hs hallowed hstep
  injection hstep with hstep
  injection hstep with hnext
  rw [← hnext]
  exact sound_step hs hallowed.1 hallowed.2

end Xv6.Semaphore

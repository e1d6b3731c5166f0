import Xv6.Sync.Rwlock

/-! The thread-safe guards of `ulib.c`. `thread_safe_guard_init` returns the address of one
static variable, so every guard ever returned is that variable. The handles of the calls
are numbered; `inits` lists the descriptors they were made for. -/
namespace Xv6.Guard

open Transition

structure ThreadSafeGuard where
  fd : Int
  rwlock : Rwlock

/-- `guard` is the static variable of `thread_safe_guard_init`; `pc t` is where thread `t`
stands in `thread_safe_pread` or `thread_safe_pwrite`, `handle t` the call's first argument. -/
structure State (T : Type) where
  guard : ThreadSafeGuard
  inits : List Int
  pc : T → Rwlock.Pc
  handle : T → Nat

inductive Act (T : Type) where
  | init (fd : Int)
  | pread (t : T) (k : Nat)
  | pwrite (t : T) (k : Nat)
  | go (t : T)
  | destroy (t : T) (k : Nat)

def start {T : Type} : State T := ⟨⟨0, ⟨0, 0, 0⟩⟩, [], fun _ => .out, fun _ => 0⟩

variable {T : Type} [DecidableEq T]

namespace State

def deref (s : State T) (_k : Nat) : ThreadSafeGuard := s.guard

def store (s : State T) (_k : Nat) (guard : ThreadSafeGuard) : State T := { s with guard }

def call (s : State T) (t : T) (k : Nat) (pc : Rwlock.Pc) : State T :=
  { s with pc := Function.update s.pc t pc, handle := Function.update s.handle t k }

def acts (s : State T) (t : T) : Option Int :=
  match s.pc t with
  | .reading | .writing => some (s.deref (s.handle t)).fd
  | _ => none

def step (s : State T) : Act T → State T × Option Int
  | .init fd => ({ s with guard := ⟨fd, .init⟩, inits := s.inits ++ [fd] }, none)
  | .pread t k => (s.call t k .readWait, none)
  | .pwrite t k => (s.call t k .writeWait, none)
  | .go t =>
      let after := Rwlock.next (s.deref (s.handle t)).rwlock (s.pc t)
      ({ s.store (s.handle t) { s.deref (s.handle t) with rwlock := after.1 } with
          pc := Function.update s.pc t after.2 }, s.acts t)
  -- the assignment is to the parameter only
  | .destroy _ _ => (s, none)

def Enabled (s : State T) : Act T → Prop
  | .init _ => True
  | .pread t k | .pwrite t k | .destroy t k => s.pc t = .out ∧ k < s.inits.length
  | .go t => (s.pc t).Ready (s.deref (s.handle t)).rwlock

instance (s : State T) : (a : Act T) → Decidable (s.Enabled a)
  | .init _ => inferInstanceAs (Decidable True)
  | .pread _ _ | .pwrite _ _ | .destroy _ _ => inferInstanceAs (Decidable (_ ∧ _))
  | .go t => inferInstanceAs (Decidable ((s.pc t).Ready _))

def lockState (s : State T) : Rwlock.State T := ⟨s.guard.rwlock, s.pc⟩

/-- One guard at a time: a guard is made only when no call is under way, and the calls use
the latest one. -/
def OneAtATime (s : State T) : Act T → Prop
  | .init _ => ∀ t, s.pc t = .out
  | .pread _ k | .pwrite _ k => k + 1 = s.inits.length
  | .go _ | .destroy _ _ => True

instance [Fintype T] (s : State T) : (a : Act T) → Decidable (s.OneAtATime a)
  | .init _ => inferInstanceAs (Decidable (∀ _, _))
  | .pread _ _ | .pwrite _ _ => inferInstanceAs (Decidable (_ = _))
  | .go _ | .destroy _ _ => inferInstanceAs (Decidable True)

variable [Fintype T]

/-- After the first init: the lock is sound and every call under way is on the latest
guard. -/
structure Sound (s : State T) : Prop where
  idle : s.inits = [] → ∀ t, s.pc t = .out
  lock : s.inits ≠ [] → s.lockState.Sound
  fd : s.inits ≠ [] → s.inits.getLast? = some s.guard.fd
  handle : ∀ t, s.pc t ≠ .out → s.handle t + 1 = s.inits.length

end State

open State

def machine : Machine (State T) (Act T) (Option Int) Empty := fun s a => .ok (s.step a)

variable [Fintype T]

omit [DecidableEq T] in
theorem sound_start : (start : State T).Sound :=
  ⟨fun _ _ => rfl, fun h => (h rfl).elim, fun h => (h rfl).elim, fun _ h => (h rfl).elim⟩

namespace State.Sound

variable {s : State T}

theorem init (h : ∀ t, s.pc t = .out) (fd : Int) : (s.step (.init fd)).1.Sound := by
  have hpc : s.pc = fun _ => .out := funext h
  refine ⟨fun hnil => ?_, fun _ => ?_, fun _ => ?_, fun t ht => (ht (h t)).elim⟩
  · exact (List.append_ne_nil_of_right_ne_nil _ (List.cons_ne_nil _ _) hnil).elim
  · have hstart : (s.step (.init fd)).1.lockState = Rwlock.start := by
      simp only [State.step, State.lockState, Rwlock.start, hpc]
    rw [hstart]
    exact Rwlock.sound_start
  · exact List.getLast?_concat ..

theorem call (h : s.Sound) {t : T} {k : Nat} (ht : s.pc t = .out) (hk : k + 1 = s.inits.length)
    {pc : Rwlock.Pc} (hpc : pc = .readWait ∨ pc = .writeWait) : (s.call t k pc).Sound := by
  have hsome : s.inits ≠ [] := by
    rintro hnil
    rw [hnil] at hk
    cases hk
  refine ⟨fun hnil => (hsome hnil).elim, fun _ => (h.lock hsome).call ht hpc,
    fun _ => h.fd hsome, fun u hu => ?_⟩
  by_cases hut : u = t
  · subst hut
    simpa [State.call] using hk
  · simp only [State.call, Function.update_of_ne hut] at hu ⊢
    exact h.handle u hu

theorem go (h : s.Sound) {t : T} (ht : s.Enabled (.go t)) : (s.step (.go t)).1.Sound := by
  have hbusy : s.pc t ≠ .out := by
    intro hout
    rw [State.Enabled, hout] at ht
    exact ht
  have hsome : s.inits ≠ [] := fun hnil => hbusy (h.idle hnil t)
  refine ⟨fun hnil => (hsome hnil).elim, fun _ => (h.lock hsome).go ht, fun _ => h.fd hsome, ?_⟩
  intro u hu
  by_cases hut : u = t
  · rw [hut]
    exact h.handle t hbusy
  · simp only [State.step, Function.update_of_ne hut] at hu
    exact h.handle u hu

end State.Sound

theorem sound_step {s : State T} {a : Act T} (h : s.Sound) (henabled : s.Enabled a)
    (hone : s.OneAtATime a) : (s.step a).1.Sound := by
  cases a with
  | init fd => exact .init hone fd
  | pread t k => exact h.call henabled.1 hone (.inl rfl)
  | pwrite t k => exact h.call henabled.1 hone (.inr rfl)
  | go t => exact h.go henabled
  | destroy t k => exact h

theorem sound_of_mem {trace : List (State T × Act T × Option Int)} {s finish : State T}
    {a : Act T} {out : Option Int}
    (h : Run machine (fun s a => s.Enabled a ∧ s.OneAtATime a) start trace finish)
    (hmem : (s, a, out) ∈ trace) : s.Sound ∧ (s.step a).2 = out := by
  refine (h.invariant (fun trace s => s.Sound ∧
    ∀ e ∈ trace, e.1.Sound ∧ (e.1.step e.2.1).2 = e.2.2) ⟨sound_start, by simp⟩ ?_).2 _ hmem
  intro trace s a s' out hs hallowed hstep
  have hnext : s.step a = (s', out) := Except.ok.inj hstep
  refine ⟨?_, fun e he => ?_⟩
  · have := sound_step hs.1 hallowed.1 hallowed.2
    rwa [hnext] at this
  · rcases List.mem_cons.mp he with rfl | he
    · exact ⟨hs.1, congrArg Prod.snd hnext⟩
    · exact hs.2 e he

/-- In every run that uses one guard at a time, an operation on the guard of the `k`-th init
acts on the descriptor of that init, and an init leaves the lock of the guards made before
as it was. -/
theorem guards_independent {trace : List (State T × Act T × Option Int)} {finish : State T}
    (h : Run machine (fun s a => s.Enabled a ∧ s.OneAtATime a) start trace finish) :
    (∀ s t fd, (s, .go t, some fd) ∈ trace → s.inits[s.handle t]? = some fd) ∧
    (∀ s fd out, (s, .init fd, out) ∈ trace → ∀ k < s.inits.length,
      ((s.step (.init fd)).1.deref k).rwlock = (s.deref k).rwlock) := by
  refine ⟨fun s t fd hmem => ?_, fun s fd out hmem k hk => ?_⟩
  · obtain ⟨hsound, hacts⟩ := sound_of_mem h hmem
    have hbusy : s.pc t ≠ .out ∧ s.guard.fd = fd := by
      simp only [State.step, State.acts, State.deref] at hacts
      split at hacts
      · rename_i hpc
        exact ⟨by rw [hpc]; decide, Option.some.inj hacts⟩
      · rename_i hpc
        exact ⟨by rw [hpc]; decide, Option.some.inj hacts⟩
      · cases hacts
    have hsome : s.inits ≠ [] := fun hnil => hbusy.1 (hsound.idle hnil t)
    have hlast := hsound.fd hsome
    have hhandle := hsound.handle t hbusy.1
    rw [List.getLast?_eq_getElem?, hbusy.2] at hlast
    rwa [show s.handle t = s.inits.length - 1 by omega]
  · obtain ⟨hsound, -⟩ := sound_of_mem h hmem
    have hsome : s.inits ≠ [] := List.ne_nil_of_length_pos (Nat.zero_lt_of_lt hk)
    exact ((hsound.lock hsome).idle (h.allowed_of_mem hmem).2).symm

/-- Two guards in turn: the write through the second acts on descriptor 5. -/
theorem guards_independent_turns : ∃ trace, ∃ s finish : State (Fin 2),
    Run machine (fun s a => s.Enabled a ∧ s.OneAtATime a) start trace finish ∧
    (s, .go 1, some 5) ∈ trace ∧ s.inits = [3, 5] ∧ s.inits[s.handle 1]? = some 5 := by
  obtain ⟨s, ⟨trace, hrun⟩, htest⟩ := exists_reaches machine
    (fun (s : State (Fin 2)) a => s.Enabled a ∧ s.OneAtATime a) start
    ([.init 3, .pread 0 0] ++ List.replicate 11 (.go 0) ++ [.init 5, .pwrite 1 1, .go 1])
    (fun s => decide ((s.Enabled (.go 1) ∧ s.OneAtATime (.go 1)) ∧ s.acts 1 = some 5 ∧
      s.inits = [3, 5])) (by decide +kernel)
  obtain ⟨hallowed, hacts, hinits⟩ := of_decide_eq_true htest
  have hstep : Run machine _ start ((s, .go 1, some 5) :: trace) (s.step (.go 1)).1 :=
    hrun.step hallowed (congrArg Except.ok (Prod.ext rfl hacts))
  exact ⟨_, s, _, hstep, List.mem_cons_self, hinits,
    (guards_independent hstep).1 s 1 5 List.mem_cons_self⟩

/-- A read through the first of two guards acts on the descriptor of the second; an init
frees the lock that a writer holds. -/
theorem guards_shared :
    (∃ trace, ∃ s finish : State (Fin 1), Run machine Enabled start trace finish ∧
      (s, .go 0, some 5) ∈ trace ∧ s.inits[s.handle 0]? = some 3) ∧
    ∃ s : State (Fin 1), Reaches machine Enabled start s ∧ s.lockState.HoldsWrite 0 ∧
      (s.guard.rwlock = ⟨0, 1, 0⟩ ∧ (s.step (.init 5)).1.guard.rwlock = ⟨0, 1, 1⟩) := by
  constructor
  · obtain ⟨s, ⟨trace, hrun⟩, htest⟩ := exists_reaches machine Enabled (start : State (Fin 1))
      ([.init 3, .init 5, .pread 0 0] ++ List.replicate 5 (.go 0))
      (fun s => decide (s.Enabled (.go 0) ∧ s.acts 0 = some 5 ∧
        s.inits[s.handle 0]? = some 3)) (by decide +kernel)
    obtain ⟨henabled, hacts, hfirst⟩ := of_decide_eq_true htest
    have hstep : Run machine Enabled start ((s, .go 0, some 5) :: trace) (s.step (.go 0)).1 :=
      hrun.step henabled (congrArg Except.ok (Prod.ext rfl hacts))
    exact ⟨_, s, _, hstep, List.mem_cons_self, hfirst⟩
  · obtain ⟨s, hreach, htest⟩ := exists_reaches machine Enabled (start : State (Fin 1))
      [.init 3, .pwrite 0 0, .go 0]
      (fun s => decide (s.pc 0 = .writing ∧ s.guard.rwlock = ⟨0, 1, 0⟩ ∧
        (s.step (.init 5)).1.guard.rwlock = ⟨0, 1, 1⟩)) (by decide +kernel)
    obtain ⟨hpc, hrest⟩ := of_decide_eq_true htest
    exact ⟨s, hreach, .inl hpc, hrest⟩

end Xv6.Guard

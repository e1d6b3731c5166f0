import Xv6.Lib.Transition
import Mathlib.Data.Fintype.Basic

/-! `TestAndSet`, `Mutex_lock` and `Mutex_unlock` of `semaphore.c`, run by any threads on
one mutex. Every load and every store of `lock->flag` is a step of its own. -/
namespace Xv6.Mutex

open Transition

/-- `store old` stands between the load and the store of `TestAndSet`; `critical` after
the return from `Mutex_lock`. -/
inductive Pc where
  | out | load | store (old : Int) | critical
  deriving DecidableEq, Repr

structure State (T : Type) where
  flag : Int
  pc : T → Pc

def start {T : Type} : State T := ⟨0, fun _ => .out⟩

variable {T : Type} [DecidableEq T]

namespace State

def goto (s : State T) (t : T) (pc : Pc) : State T :=
  { s with pc := Function.update s.pc t pc }

def step (s : State T) (t : T) : State T :=
  match s.pc t with
  | .out => s.goto t .load
  | .load => s.goto t (.store s.flag)
  | .store old => { s.goto t (if old = 1 then .load else .critical) with flag := 1 }
  | .critical => { s.goto t .out with flag := 0 }

def Exclusive (s : State T) : Prop :=
  ∀ t u, s.pc t = .critical → s.pc u = .critical → t = u

/-- No thread loads 0 while another one that loaded 0 has still to store. -/
def Undisturbed (s : State T) (t : T) : Prop :=
  s.pc t = .load → s.flag = 0 → ∀ u, s.pc u ≠ .store 0

instance [Fintype T] (s : State T) (t : T) : Decidable (s.Undisturbed t) :=
  inferInstanceAs (Decidable (_ → _ → ∀ _, _))

def Claims (s : State T) (t : T) : Prop := s.pc t = .critical ∨ s.pc t = .store 0

structure Sound (s : State T) : Prop where
  bit : s.flag = 0 ∨ s.flag = 1
  loaded : ∀ t old, s.pc t = .store old → old = 0 ∨ old = 1
  held : ∀ t, s.pc t = .critical → s.flag = 1
  alone : ∀ t u, s.Claims t → s.Claims u → t = u

end State

open State

def machine : Machine (State T) T Unit Empty := fun s t => .ok (s.step t, ())

theorem goto_pc (s : State T) (t u : T) (pc : Pc) :
    (s.goto t pc).pc u = if u = t then pc else s.pc u := by
  simp [goto, Function.update_apply]

omit [DecidableEq T] in
theorem sound_start : (start : State T).Sound where
  bit := .inl rfl
  loaded := by
    intro t old h
    cases h
  held := by
    intro t h
    cases h
  alone := by
    intro t u h
    rcases h with h | h <;> cases h

theorem State.Sound.goto {s : State T} (h : s.Sound) (t : T) (pc : Pc) (flag : Int)
    (hbit : flag = 0 ∨ flag = 1) (hloaded : ∀ old, pc = .store old → old = 0 ∨ old = 1)
    (hheld : ∀ u, (s.goto t pc).pc u = .critical → flag = 1)
    (hclaim : pc = .critical ∨ pc = .store 0 → ∀ u, u ≠ t → ¬ s.Claims u) :
    Sound ⟨flag, (s.goto t pc).pc⟩ := by
  have hother : ∀ u, u ≠ t → (s.goto t pc).pc u = s.pc u := by
    intro u hu
    rw [goto_pc, if_neg hu]
  have hself : (s.goto t pc).pc t = pc := by rw [goto_pc, if_pos rfl]
  refine ⟨hbit, ?_, hheld, ?_⟩
  · intro u old hu
    by_cases hut : u = t
    · subst hut
      exact hloaded old (hself.symm.trans hu)
    · exact h.loaded u old ((hother u hut).symm.trans hu)
  · intro u w hu hw
    simp only [Claims] at hu hw
    by_cases hut : u = t
    · by_cases hwt : w = t
      · rw [hut, hwt]
      · rw [hut, hself] at hu
        rw [hother w hwt] at hw
        exact absurd hw (hclaim hu w hwt)
    · rw [hother u hut] at hu
      by_cases hwt : w = t
      · rw [hwt, hself] at hw
        exact absurd hu (hclaim hw u hut)
      · rw [hother w hwt] at hw
        exact h.alone u w hu hw

theorem State.Sound.held_goto {s : State T} (h : s.Sound) {t : T} {pc : Pc}
    (hpc : pc ≠ .critical) (u : T) (hu : (s.goto t pc).pc u = .critical) : s.flag = 1 := by
  rw [goto_pc] at hu
  split at hu
  · exact absurd hu hpc
  · exact h.held u hu

theorem State.Sound.step {s : State T} (h : s.Sound) {t : T} (hguard : s.Undisturbed t) :
    (s.step t).Sound := by
  unfold State.step
  split
  · exact h.goto t .load s.flag h.bit (by simp) (h.held_goto (by simp)) (by simp)
  · rename_i hpc
    refine h.goto t (.store s.flag) s.flag h.bit ?_ (h.held_goto (by simp)) ?_
    · rintro old ⟨⟩
      exact h.bit
    · rintro (hfalse | hzero) u hut hclaim
      · cases hfalse
      · injection hzero with hzero
        rcases hclaim with hcritical | hstore
        · rw [h.held u hcritical] at hzero
          cases hzero
        · exact hguard hpc hzero u hstore
  · rename_i old hpc
    refine h.goto t (if old = 1 then .load else .critical) 1 (.inr rfl) ?_ (fun _ _ => rfl) ?_
    · intro old' heq
      split at heq <;> cases heq
    · intro hclaim u hut hu
      -- only a thread that loaded 0 goes on to the critical section
      have hold : old = 0 := by
        rcases h.loaded t old hpc with h0 | h1
        · exact h0
        · rw [h1] at hclaim
          simp at hclaim
      rw [hold] at hpc
      exact hut (h.alone u t hu (.inr hpc))
  · rename_i hpc
    refine h.goto t .out 0 (.inl rfl) (by simp) ?_ (by simp)
    intro u hu
    rw [goto_pc] at hu
    split at hu
    · cases hu
    · rename_i hut
      exact absurd (h.alone u t (.inl hu) (.inl hpc)) hut

/-- At most one thread is between `Mutex_lock` and `Mutex_unlock`, as long as the load and
the store of a successful `TestAndSet` are not overlapped by another successful load. -/
theorem mutex_exclusive {s : State T} (h : Reaches machine Undisturbed start s) :
    s.Exclusive := by
  have hsound : s.Sound := by
    apply h.invariant Sound sound_start
    intro state t next out hstate hguard hstep
    injection hstep with hstep
    injection hstep with hnext
    rw [← hnext]
    exact hstate.step hguard
  intro t u ht hu
  exact hsound.alone t u (.inl ht) (.inl hu)

/-- Two threads that take turns. -/
theorem mutex_exclusive_turns : ∃ s : State (Fin 2),
    Reaches machine Undisturbed start s ∧ s.pc 1 = .critical ∧ s.Exclusive := by
  obtain ⟨s, hreach, htest⟩ := exists_reaches machine Undisturbed start
    [0, 0, 0, 1, 1, 1, 0, 1, 1] (fun s : State (Fin 2) => decide (s.pc 1 = .critical))
    (by decide +kernel)
  exact ⟨s, hreach, of_decide_eq_true htest, mutex_exclusive hreach⟩

/-- Both threads load 0 before either stores. -/
theorem mutex_shared : ∃ s : State (Fin 2),
    Reaches machine (fun _ _ => True) start s ∧ ¬ s.Exclusive := by
  obtain ⟨s, hreach, htest⟩ := exists_reaches machine (fun _ _ => True) start
    [0, 1, 0, 1, 0, 1]
    (fun s : State (Fin 2) => decide (s.pc 0 = .critical ∧ s.pc 1 = .critical))
    (by decide +kernel)
  obtain ⟨h0, h1⟩ := of_decide_eq_true htest
  exact ⟨s, hreach, fun h => absurd (h 0 1 h0 h1) (by decide)⟩

end Xv6.Mutex

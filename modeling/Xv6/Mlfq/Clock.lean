import Xv6.Proc.Standing
import Xv6.Mlfq.Allotment

/-! The kernel with its clock. The timer, `sys_yield` and `priority_boost` take the place of the
bare `charge` and `yield` of the kernel's machine: an LWP gives up the CPU at every tick, and its
ticks are charged to its manager. No timer interrupt falls inside `sys_yield` here. -/
namespace Xv6

open Word Fallible Transition

def Act.caller : Act → Option Slot
  | .visit .. | .wakeup _ | .charge .. => none
  | .yield p | .sleepOn p _ | .kill p _ | .fork p | .exec p _ _ | .sbrk p _ | .wait p
  | .resumeWait p | .threadCreate p _ | .threadExit p _ | .threadJoin p _ | .resumeJoin p
  | .exit p | .exitBegin p | .exitEnd p | .setCpuShare p _ => some p

def Act.isTiming : Act → Bool
  | .charge .. | .yield _ => true
  | _ => false

/-- The kernel, and the processes that are inside the `yield()` of a timer interrupt. -/
structure Clocked where
  kernel : Kernel
  inTrap : Slot → Bool

namespace Clocked

inductive Action where
  | act (a : Act)
  | timer (p : Slot)
  | resume (p : Slot)
  | sysYield (p : Slot)
  | boost

def boot (free : Nat) : Clocked := ⟨.boot free, fun _ => false⟩

def charged (k : Kernel) (p : Slot) : Except Fault Slot :=
  if (k.proc p).tid = 0 then .ok p else deref (k.proc p).manager

def priorityBoost (k : Kernel) : Kernel :=
  Kernel.slots.foldl (fun k p => k.modify p Proc.boost) k

def settle (k : Kernel) (inTrap : Slot → Bool) : Slot → Bool :=
  fun p => inTrap p && (k.proc p).state ≠ .unused

def step : Machine Clocked Action Out Fault := fun s action =>
  match action with
  | .act a => do
      let (k, out) ← s.kernel.perform a
      return (⟨k, settle k s.inTrap⟩, out)
  | .timer p =>
      if (s.kernel.proc p).tid = 0 then do
        let (q, yields) ← (s.kernel.proc p).timer
        if yields then
          return (⟨(s.kernel.modify p fun _ => q).yield p, Function.update s.inTrap p true⟩, .done)
        else return (⟨s.kernel.modify p fun _ => q.charge, s.inTrap⟩, .done)
      else .ok (⟨s.kernel.yield p, Function.update s.inTrap p true⟩, .done)
  | .resume p => do
      let m ← charged s.kernel p
      return (⟨s.kernel.modify m Proc.charge, Function.update s.inTrap p false⟩, .done)
  | .sysYield p => do
      let q ← (s.kernel.proc p).sysYield
      return (⟨(s.kernel.modify p fun _ => q).yield p, s.inTrap⟩, .done)
  | .boost => .ok (⟨priorityBoost s.kernel, s.inTrap⟩, .done)

/-- A process in the trap first finishes it. -/
def Allowed (s : Clocked) : Action → Prop
  | .act a => s.kernel.Enabled a ∧ a.isTiming = false ∧ a.caller.all fun p => !s.inTrap p
  | .timer p => (s.kernel.proc p).state = .running ∧ s.inTrap p = false
  | .resume p => (s.kernel.proc p).state = .running ∧ s.inTrap p = true
  | .sysYield p => s.kernel.At p .user ∧ s.inTrap p = false
  | .boost => True

instance (s : Clocked) : (action : Action) → Decidable (s.Allowed action)
  | .act _ | .timer _ | .resume _ | .sysYield _ => inferInstanceAs (Decidable (_ ∧ _))
  | .boost => inferInstanceAs (Decidable True)

end Clocked

namespace Proc

variable {p q : Proc} {yields : Bool}

def Recounted (p q : Proc) : Prop :=
  q = { p with level := q.level, ticks := q.ticks, runtime := q.runtime }

def Ranked (p : Proc) : Prop := 0 ≤ p.level ∧ p.level ≤ 2

instance (p : Proc) : Decidable p.Ranked := inferInstanceAs (Decidable (_ ∧ _))

theorem recounted_timer (h : p.timer = .ok (q, yields)) : Recounted p q := by
  unfold timer at h
  split at h
  · split at h <;> · cases Except.ok.inj h; rfl
  · obtain ⟨a, -, h⟩ := bind_eq_ok.mp h
    split at h
    · obtain ⟨used, -, h⟩ := bind_eq_ok.mp h
      split at h <;> · cases Except.ok.inj h; rfl
    · cases Except.ok.inj h
      rfl

theorem recounted_sysYield (h : p.sysYield = .ok q) : Recounted p q := by
  obtain ⟨used, -, h⟩ := bind_eq_ok.mp h
  split at h <;> · cases Except.ok.inj h; rfl

theorem Ranked.timer (hp : p.Ranked) (h : p.timer = .ok (q, yields)) : q.Ranked := by
  by_cases hmode : p.passValue = -1
  · obtain ⟨a, ha⟩ : ∃ a, tableEntry quantum p.level = .ok a := by
      rcases table_cases hp.1 hp.2 with ⟨-, ha, -⟩ | ⟨-, ha, -⟩ | ⟨-, ha⟩ <;> exact ⟨_, ha⟩
    rw [timer_mlfq hmode hp.1 hp.2 ha] at h
    split at h
    · cases Except.ok.inj h
      exact rollOver_level hp.1 hp.2
    · cases Except.ok.inj h
      exact hp
  · unfold Proc.timer at h
    rw [if_pos hmode] at h
    split at h <;> · cases Except.ok.inj h; exact hp

theorem Ranked.sysYield (hp : p.Ranked) (h : p.sysYield = .ok q) : q.Ranked := by
  rw [sysYield_eq hp.1 hp.2] at h
  cases Except.ok.inj h
  split
  · rename_i hspent
    have hhigh : p.level < 2 := level_of_spent (p := p.charge) hp.2 hspent
    have hnext : p.charge.demote.clearTicks.level = p.level + 1 :=
      demote_level (p := p.charge) hp.1 hhigh
    unfold Ranked
    rw [hnext]
    exact ⟨by have := hp.1; omega, by omega⟩
  · exact hp

end Proc

namespace Clocked

variable {s s' : Clocked} {action : Action} {out : Out} {free : Nat}

def Ranked (k : Kernel) : Prop := ∀ i, (k.proc i).Ranked

theorem Ranked.standings {k k' : Kernel} (hk : Ranked k) (h : k.Standings k') : Ranked k' := by
  intro i
  have hi := hk i
  unfold Proc.Ranked at hi ⊢
  rcases h i with hsame | hfresh
  · have hlevel : (k'.proc i).level = (k.proc i).level := congrArg Standing.level hsame
    rw [hlevel]
    exact hi
  · have hlevel : (k'.proc i).level = 0 := congrArg Standing.level hfresh
    omega

theorem Ranked.same {k k' : Kernel} (hk : Ranked k)
    (h : ∀ i, (k'.proc i).level = (k.proc i).level) : Ranked k' := by
  intro i
  unfold Proc.Ranked
  rw [h i]
  exact hk i

theorem Ranked.modify {k : Kernel} (hk : Ranked k) {p : Slot} {f : Proc → Proc}
    (h : (f (k.proc p)).Ranked) : Ranked (k.modify p f) := by
  intro i
  rw [Kernel.modify_proc]
  split
  · exact h
  · exact hk i

theorem priorityBoost_induction {P : Kernel → Prop} {k : Kernel} (hk : P k)
    (hslot : ∀ k p, P k → P (k.modify p Proc.boost)) : P (priorityBoost k) := by
  unfold priorityBoost
  refine List.foldlRecOn Kernel.slots _ hk ?_
  intro k hk p _
  exact hslot k p hk

theorem ranked_step (hs : Ranked s.kernel) (hallowed : s.Allowed action)
    (h : step s action = .ok (s', out)) : Ranked s'.kernel := by
  cases action with
  | act a =>
    obtain ⟨⟨k, out'⟩, hop, h⟩ := bind_eq_ok.mp h
    cases Except.ok.inj h
    cases Kernel.perform_restands hop with
    | keeps hkeeps _ => exact hs.standings hkeeps
    | advances mgr hadvances =>
      refine hs.same fun i => ?_
      by_cases hi : i = mgr
      · rw [hi]
        exact congrArg Standing.level hadvances.same
      · exact congrArg Standing.level (hadvances.others i hi)
    | @grants p percent _ hgrants =>
      refine hs.same fun i => ?_
      by_cases hi : i = p
      · rw [hi, hgrants.same]
      · rw [hgrants.others i hi]
    | charges => cases hallowed.2.1
  | timer p =>
    unfold step at h
    dsimp only at h
    split at h
    · obtain ⟨⟨q, yields⟩, htimer, h⟩ := bind_eq_ok.mp h
      have hq := (hs p).timer htimer
      cases yields with
      | true =>
        cases Except.ok.inj h
        exact (hs.modify (f := fun _ => q) hq).standings (Kernel.records_yield _ _).standings
      | false =>
        cases Except.ok.inj h
        exact hs.modify (f := fun _ => q.charge) hq
    · cases Except.ok.inj h
      exact hs.standings (Kernel.records_yield _ _).standings
  | resume p =>
    obtain ⟨m, -, h⟩ := bind_eq_ok.mp h
    cases Except.ok.inj h
    exact hs.modify (f := Proc.charge) (hs m)
  | sysYield p =>
    obtain ⟨q, hyield, h⟩ := bind_eq_ok.mp h
    cases Except.ok.inj h
    exact (hs.modify (f := fun _ => q) ((hs p).sysYield hyield)).standings
      (Kernel.records_yield _ _).standings
  | boost =>
    cases Except.ok.inj h
    refine priorityBoost_induction hs ?_
    intro k p hk
    exact hk.modify ⟨le_refl 0, (by decide : (0 : Int) ≤ 2)⟩

theorem ranked_reaches (h : Reaches step Allowed (boot free) s) : Ranked s.kernel := by
  refine h.invariant (fun s => Ranked s.kernel) ?_ ?_
  · intro i
    dsimp only [boot, Kernel.boot]
    by_cases hi : i = 0
    · subst hi
      exact ⟨by decide, by decide⟩
    · rw [Function.update_of_ne hi]
      exact ⟨by decide, by decide⟩
  · intro s action s' out hs hallowed hstep
    exact ranked_step hs hallowed hstep

section Refinement

variable {start k : Kernel} {p : Slot} {q : Proc}

theorem reaches_modify (h : Reaches Kernel.perform Kernel.Enabled start k)
    (hq : Proc.Recounted (k.proc p) q) :
    Reaches Kernel.perform Kernel.Enabled start (k.modify p fun _ => q) := by
  have henabled : k.Enabled (.charge p q.level q.ticks q.runtime) := trivial
  have hstep : k.perform (.charge p q.level q.ticks q.runtime) =
      .ok (k.modify p fun _ => q, .done) := by
    have heq : k.charge p q.level q.ticks q.runtime = k.modify p fun _ => q := by
      unfold Kernel.charge Kernel.modify
      dsimp only
      rw [← hq]
    rw [← heq]
    rfl
  exact h.step henabled hstep

theorem reaches_yield (h : Reaches Kernel.perform Kernel.Enabled start k)
    (hrunning : (k.proc p).state = .running) :
    Reaches Kernel.perform Kernel.Enabled start (k.yield p) := by
  have henabled : k.Enabled (.yield p) := hrunning
  have hstep : k.perform (.yield p) = .ok (k.yield p, .done) := rfl
  exact h.step henabled hstep

theorem Recounted.state {p q : Proc} (h : Proc.Recounted p q) : q.state = p.state := by
  rw [h]

theorem kernel_step (hk : Reaches Kernel.perform Kernel.Enabled start s.kernel)
    (hallowed : s.Allowed action) (h : step s action = .ok (s', out)) :
    Reaches Kernel.perform Kernel.Enabled start s'.kernel := by
  cases action with
  | act a =>
    obtain ⟨⟨k, out'⟩, hop, h⟩ := bind_eq_ok.mp h
    cases Except.ok.inj h
    exact hk.step hallowed.1 hop
  | timer p =>
    unfold step at h
    dsimp only at h
    split at h
    · obtain ⟨⟨q, yields⟩, htimer, h⟩ := bind_eq_ok.mp h
      have hq := Proc.recounted_timer htimer
      cases yields with
      | true =>
        cases Except.ok.inj h
        refine reaches_yield (reaches_modify hk hq) ?_
        rw [Kernel.modify_proc_same, Recounted.state hq]
        exact hallowed.1
      | false =>
        cases Except.ok.inj h
        refine reaches_modify hk ?_
        unfold Proc.Recounted at hq ⊢
        unfold Proc.charge
        rw [hq]
    · cases Except.ok.inj h
      exact reaches_yield hk hallowed.1
  | resume p =>
    obtain ⟨m, -, h⟩ := bind_eq_ok.mp h
    cases Except.ok.inj h
    exact reaches_modify (q := (s.kernel.proc m).charge) hk rfl
  | sysYield p =>
    obtain ⟨q, hyield, h⟩ := bind_eq_ok.mp h
    have hq := Proc.recounted_sysYield hyield
    cases Except.ok.inj h
    refine reaches_yield (reaches_modify hk hq) ?_
    rw [Kernel.modify_proc_same, Recounted.state hq]
    exact hallowed.1.1
  | boost =>
    cases Except.ok.inj h
    refine priorityBoost_induction hk ?_
    intro k p hk
    exact reaches_modify (q := (k.proc p).boost) hk rfl

theorem reaches_kernel (h : Reaches step Allowed (boot free) s) :
    Reaches Kernel.perform Kernel.Enabled (.boot free) s.kernel := by
  refine h.invariant (fun s => Reaches Kernel.perform Kernel.Enabled (.boot free) s.kernel) ?_ ?_
  · exact ⟨[], .start⟩
  · intro s action s' out hs hallowed hstep
    exact kernel_step hs hallowed hstep

end Refinement

end Clocked

end Xv6

import Xv6.Mlfq.Clock
import Xv6.Share.Pass
import Xv6.Share.Groups

/-! Priorities of groups. The MLFQ phase compares the levels of the slots themselves, while the
time of an LWP goes to its manager; the choice follows the levels of the groups as long as the
two agree. -/
namespace Xv6

open Fallible Transition

namespace Kernel

variable {k k' : Kernel} {c : Fin ncpu} {p q : Slot}

def Competes (k : Kernel) (p : Slot) : Prop := k.Runnable p ∧ (k.proc p).passValue = -1

instance (k : Kernel) (p : Slot) : Decidable (k.Competes p) := inferInstanceAs (Decidable (_ ∧ _))

def AtGroupLevel (k : Kernel) : Prop :=
  ∀ p mgr, k.Competes p → 0 < (k.proc p).tid → (k.proc p).manager = some mgr →
    (k.proc p).level = (k.proc mgr).level

instance (k : Kernel) : Decidable k.AtGroupLevel :=
  inferInstanceAs (Decidable (∀ _ _, _ → _ → _ → _))

theorem visit_mlfq_topLevel (h : k.visit c p = .ok (k', .mlfq)) : k.TopLevel p := by
  obtain ⟨hrunnable, hpass⟩ := visit_mlfq h
  by_cases hescape : 1000 < (k.cpu c).schedTicks + 1
  · unfold visit at h
    rw [if_neg (not_not.mpr hrunnable), if_pos hescape] at h
    cases execution_how h
  rw [visit_eq hrunnable hescape] at h
  split at h
  · obtain ⟨mgr, -, h⟩ := bind_eq_ok.mp h
    split at h
    · obtain ⟨k1, -, h⟩ := bind_eq_ok.mp h
      cases execution_how h
    · cases h
  split at h
  · cases h
  split at h
  · cases h
  · rename_i hlevel
    refine ⟨hpass, ?_⟩
    by_cases hzero : (k.proc p).level ≤ 0
    · exact .inl hzero
    · refine .inr ?_
      rw [Bool.eq_false_iff]
      exact fun hhigher => hlevel ⟨by omega, hhigher⟩

theorem TopLevel.least (hp : k.TopLevel p) (hranked : ∀ i, (k.proc i).Ranked)
    (hq : k.Competes q) : (k.proc p).level ≤ (k.proc q).level := by
  rcases hp.2 with hzero | hnone
  · have := (hranked q).1
    omega
  · by_contra hlt
    rw [higherLevel, List.any_eq_false] at hnone
    refine hnone q (List.mem_finRange q) ?_
    rw [decide_eq_true_eq]
    exact ⟨hq.1, hq.2, by omega⟩

theorem AtGroupLevel.schedManager {mgr : Slot} (h : k.AtGroupLevel) (hp : k.Competes p)
    (hmgr : k.schedManager p = .ok mgr) : (k.proc p).level = (k.proc mgr).level := by
  unfold Kernel.schedManager at hmgr
  split at hmgr
  · rename_i htid
    exact h p mgr hp htid (deref_eq_ok hmgr)
  · cases Except.ok.inj hmgr
    rfl

end Kernel

namespace Clocked

open Kernel

/-- In every reachable state where the LWPs that compete have the level of their groups, the MLFQ
phase dispatches a process of a group of the smallest level. -/
theorem group_priority {free : Nat} {s : Clocked} {c : Fin ncpu} {p : Slot} {k' : Kernel}
    (hreach : Reaches step Allowed (boot free) s) (hlevels : s.kernel.AtGroupLevel)
    (h : s.kernel.visit c p = .ok (k', .mlfq)) :
    ∃ mgr, s.kernel.schedManager p = .ok mgr ∧ ∀ q, s.kernel.Competes q →
      ∃ mgr', s.kernel.schedManager q = .ok mgr' ∧
        (s.kernel.proc mgr).level ≤ (s.kernel.proc mgr').level := by
  have hfit := fit_reaches (reaches_kernel hreach)
  have hp : s.kernel.Competes p := visit_mlfq h
  have htop := visit_mlfq_topLevel h
  obtain ⟨mgr, hmgr⟩ := hfit.schedManager hp.1
  refine ⟨mgr, hmgr, fun q hq => ?_⟩
  obtain ⟨mgr', hmgr'⟩ := hfit.schedManager hq.1
  refine ⟨mgr', hmgr', ?_⟩
  rw [← hlevels.schedManager hp hmgr, ← hlevels.schedManager hq hmgr']
  exact htop.least (ranked_reaches hreach) hq

/-- Does a visit to `p` dispatch it in the MLFQ phase? -/
def dispatches (k : Kernel) (c : Fin ncpu) (p : Slot) : Bool :=
  (k.visit c p).toOption.any fun r => r.2 = .mlfq

theorem exists_of_dispatches {k : Kernel} {c : Fin ncpu} {p : Slot}
    (h : dispatches k c p = true) : ∃ k', k.visit c p = .ok (k', .mlfq) := by
  unfold dispatches at h
  cases hvisit : k.visit c p with
  | error fault =>
    rw [hvisit] at h
    cases h
  | ok r =>
    obtain ⟨k', how⟩ := r
    rw [hvisit] at h
    obtain rfl : how = .mlfq := of_decide_eq_true h
    exact ⟨k', rfl⟩

def yields (p : Slot) : Nat → List Action
  | 0 => []
  | n + 1 => .sysYield p :: .act (.visit 0 p) :: yields p n

/-- `init` and its LWP have both gone down to level 1. -/
theorem group_priority_lower : ∃ s k', Reaches step Allowed (boot 100) s ∧
    s.kernel.AtGroupLevel ∧ s.kernel.Competes 0 ∧
    ((s.kernel.proc 1).tid = 1 ∧ (s.kernel.proc 1).level = 1) ∧
    s.kernel.visit 0 1 = .ok (k', .mlfq) ∧
    ∃ mgr, s.kernel.schedManager 1 = .ok mgr ∧ ∀ q, s.kernel.Competes q →
      ∃ mgr', s.kernel.schedManager q = .ok mgr' ∧
        (s.kernel.proc mgr).level ≤ (s.kernel.proc mgr').level := by
  obtain ⟨s, hreach, htest⟩ := exists_reaches step Allowed (boot 100)
    (.act (.visit 0 0) :: yields 0 20 ++ [.act (.threadCreate 0 0), .sysYield 0,
      .act (.visit 0 1)] ++ yields 1 19 ++ [.sysYield 1])
    (fun s => decide (s.kernel.AtGroupLevel ∧ s.kernel.Competes 0 ∧
      (s.kernel.proc 1).tid = 1 ∧ (s.kernel.proc 1).level = 1) && dispatches s.kernel 0 1)
    (by decide +kernel)
  obtain ⟨hpre, hvisit⟩ := Bool.and_eq_true_iff.mp htest
  obtain ⟨hlevels, hcompetes, hlwp⟩ := of_decide_eq_true hpre
  obtain ⟨k', hvisit⟩ := exists_of_dispatches hvisit
  exact ⟨s, k', hreach, hlevels, hcompetes, hlwp, hvisit, group_priority hreach hlevels hvisit⟩

/-- `init` yields twenty times and goes down to level 1. Its new LWP starts at level 0 and is
dispatched, though a child of level 0 is RUNNABLE. -/
theorem group_overtaken : ∃ s k', Reaches step Allowed (boot 100) s ∧
    s.kernel.visit 0 2 = .ok (k', .mlfq) ∧ s.kernel.Competes 1 ∧
    s.kernel.schedManager 2 = .ok 0 ∧ s.kernel.schedManager 1 = .ok 1 ∧
    (s.kernel.proc 1).level < (s.kernel.proc 0).level := by
  obtain ⟨s, hreach, htest⟩ := exists_reaches step Allowed (boot 100)
    (.act (.visit 0 0) :: yields 0 20 ++ [.act (.fork 0), .act (.threadCreate 0 0), .sysYield 0])
    (fun s => decide (s.kernel.Competes 1 ∧ (s.kernel.schedManager 2).toOption = some 0 ∧
      (s.kernel.schedManager 1).toOption = some 1 ∧
      (s.kernel.proc 1).level < (s.kernel.proc 0).level) && dispatches s.kernel 0 2)
    (by decide +kernel)
  obtain ⟨hpre, hvisit⟩ := Bool.and_eq_true_iff.mp htest
  obtain ⟨hcompetes, hlwp, hchild, hlevel⟩ := of_decide_eq_true hpre
  obtain ⟨k', hvisit⟩ := exists_of_dispatches hvisit
  have hok : ∀ {x : Except Fault Slot} {slot : Slot}, x.toOption = some slot → x = .ok slot := by
    intro x slot hx
    cases x with
    | error fault => cases hx
    | ok slot' => rw [Option.some.inj hx]
  exact ⟨s, k', hreach, hvisit, hcompetes, hok hlwp, hok hchild, hlevel⟩

end Clocked

end Xv6

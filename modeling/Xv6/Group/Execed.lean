import Xv6.Group.Turn

/-! The bookkeeping of the LWPs across `exec`. `exec` replaces the image of its caller and marks
LWPs of the group, but `tid`, `manager`, `nexttid` and the free stacks stay as they were. -/
namespace Xv6

open Word Fallible Transition

/-- A process without any trace of LWPs, as `allocproc` makes it. -/
structure Proc.General (p : Proc) : Prop where
  tid : p.tid = 0
  manager : p.manager = none
  nexttid : p.nexttid = 1
  stack : p.stack = []

namespace Kernel

def EnabledWhile (cur : Slot) (k : Kernel) (a : Act) : Prop := k.Enabled a ∧ (k.proc cur).Live

instance (cur : Slot) (k : Kernel) (a : Act) : Decidable (EnabledWhile cur k a) :=
  inferInstanceAs (Decidable (_ ∧ _))

/-- What `exec` by `cur` should leave of the group of `mgr`. `manager?` names the process whose
`sz` a later `fork`, `sbrk` or `thread_create` works with. -/
structure LeavesGeneral (k k' : Kernel) (cur mgr : Slot) : Prop where
  caller : (k'.proc cur).General
  others : ∀ p, k.Member mgr p → p ≠ cur →
    (k'.proc p).state = .unused ∨ (k'.proc p).state = .zombie ∨ (k'.proc p).killed = true
  own : ∀ later, Reaches perform (EnabledWhile cur) k' later →
    later.manager? cur = .ok (some cur)

structure SameGroup (p q : Proc) : Prop where
  tid : q.tid = p.tid
  manager : q.manager = p.manager
  nexttid : q.nexttid = p.nexttid
  stack : q.stack = p.stack

section

variable {k k' : Kernel} {cur mgr : Slot}

theorem cleanupLwp_same (k : Kernel) (mgr : Slot) (lwp : Option Slot) (p : Slot) :
    SameGroup (k.proc p) ((k.cleanupLwp mgr lwp).proc p) := by
  simp only [cleanupLwp]
  split
  · exact ⟨rfl, rfl, rfl, rfl⟩
  · exact ⟨rfl, rfl, rfl, rfl⟩

theorem commitImage_same {s : Space} {entry sz sp : Nat} {r : Int}
    (h : k.commitImage cur s entry sz sp = .ok (k', r)) :
    SameGroup (k.proc cur) (k'.proc cur) ∧ ∀ p, p ≠ cur → k'.proc p = k.proc p := by
  unfold commitImage at h
  dsimp only at h
  split at h
  · split at h
    · obtain ⟨left, -, h⟩ := bind_eq_ok.mp h
      cases Except.ok.inj h
      exact ⟨by constructor <;> simp [addDir], fun p hp => by simp [addDir, hp]⟩
    · cases h
  · cases Except.ok.inj h
    exact ⟨by constructor <;> simp [addDir], fun p hp => by simp [addDir, hp]⟩

theorem exec_done {file : Option ElfFile} {argv : List Nat}
    (hmgr : k.manager? cur = .ok (some mgr)) (h : k.exec cur file argv = .ok (k', 0)) :
    ∃ s entry sz sp,
      (k.cleanupLwp mgr (if (k.proc cur).tid = 0 then none else some cur)).commitImage
        cur s entry sz sp = .ok (k', 0) := by
  unfold exec at h
  split at h
  · obtain ⟨⟨s, image⟩, -, h⟩ := bind_eq_ok.mp h
    cases image with
    | none =>
      obtain ⟨left, -, heq⟩ := map_eq_ok.mp h
      cases heq
    | some image =>
      unfold manager? at hmgr
      dsimp only at h
      split at h
      · rename_i htid
        rw [if_pos htid] at hmgr
        obtain ⟨m, hm, h⟩ := bind_eq_ok.mp h
        obtain ⟨m', hm', heq⟩ := map_eq_ok.mp hmgr
        cases heq
        cases hm.symm.trans hm'
        rw [if_neg (by omega)]
        exact ⟨_, _, _, _, h⟩
      · rename_i htid
        rw [if_neg htid] at hmgr
        split at h
        · rename_i hzero
          rw [if_pos hzero] at hmgr ⊢
          cases Except.ok.inj hmgr
          exact ⟨_, _, _, _, h⟩
        · obtain ⟨left, -, heq⟩ := map_eq_ok.mp h
          cases heq
  · cases Except.ok.inj h

theorem tid_kept {a : Act} {out : Out} (hallowed : EnabledWhile cur k a)
    (h : k.perform a = .ok (k', out)) : (k'.proc cur).tid = (k.proc cur).tid := by
  have hturn : Turn False k a out cur (k'.proc cur) := perform_turn hallowed.1 False.elim h cur
  cases hturn with
  | steady h => exact h.tid
  | vacated h => exact absurd h.before hallowed.2.2
  | slept _ h => exact h.same.2.2.1
  | ended _ h _ => exact h.tid
  | untouched h => exact absurd h.before hallowed.2.1
  | forked _ _ h => exact absurd h.before hallowed.2.1
  | created _ _ _ _ _ h => exact absurd h.before hallowed.2.1
  | spoiled _ _ _ _ _ h _ => exact absurd h.before hallowed.2.1

theorem manager?_self (h : (k.proc cur).tid = 0) : k.manager? cur = .ok (some cur) := by
  unfold manager?
  rw [if_neg (by omega), if_pos h]

/-- A successful `exec` leaves a general process and ends the rest of the group if and only if
its caller was a manager that no LWP had left a mark on. -/
theorem exec_leaves_general {file : Option ElfFile} {argv : List Nat}
    (hmgr : k.manager? cur = .ok (some mgr)) (h : k.exec cur file argv = .ok (k', 0)) :
    LeavesGeneral k k' cur mgr ↔ (k.proc cur).General := by
  obtain ⟨s, entry, sz, sp, hcommit⟩ := exec_done hmgr h
  obtain ⟨hcommitted, hothers⟩ := commitImage_same hcommit
  have hclean := cleanupLwp_same k mgr (if (k.proc cur).tid = 0 then none else some cur) cur
  have htid := hcommitted.tid.trans hclean.tid
  have hmanager := hcommitted.manager.trans hclean.manager
  have hnexttid := hcommitted.nexttid.trans hclean.nexttid
  have hstack := hcommitted.stack.trans hclean.stack
  constructor
  · intro hleaves
    have hcaller := hleaves.caller
    exact ⟨htid ▸ hcaller.tid, hmanager ▸ hcaller.manager, hnexttid ▸ hcaller.nexttid,
      hstack ▸ hcaller.stack⟩
  · intro hgeneral
    have hcur : mgr = cur := by
      rw [manager?_self hgeneral.tid] at hmgr
      cases Except.ok.inj hmgr
      rfl
    have hzero : (k'.proc cur).tid = 0 := htid.trans hgeneral.tid
    refine ⟨⟨hzero, hmanager.trans hgeneral.manager, hnexttid.trans hgeneral.nexttid,
      hstack.trans hgeneral.stack⟩, ?_, ?_⟩
    · intro p hp hne
      have hp : (k.proc p).manager = some mgr := hp.resolve_left (by rw [hcur]; exact hne)
      rw [hothers p hne, if_pos hgeneral.tid]
      simp only [cleanupLwp]
      by_cases hzombie : (k.proc p).state = .zombie
      · rw [if_neg (by simp [hzombie])]
        exact .inr (.inl hzombie)
      · rw [if_pos ⟨by simp, hp, hzombie⟩]
        exact .inr (.inr rfl)
    · intro later hlater
      apply manager?_self
      exact hlater.invariant (fun k => (k.proc cur).tid = 0) hzero
        fun _ _ _ _ hk hallowed hstep => (tid_kept hallowed hstep).trans hk

end

def bareFile : ElfFile := ⟨0, [], fun _ _ => true⟩

/-- `init` execs before it has made any LWP. -/
theorem exec_leaves_general_init : ∃ k k', Reaches perform Enabled (boot 1000) k ∧
    k.perform (.exec 0 (some bareFile) []) = .ok (k', .ret 0) ∧ LeavesGeneral k k' 0 0 := by
  obtain ⟨k, hreach, htest⟩ := exists_reaches perform Enabled (boot 1000) [.visit 0 0]
    (fun k => decide ((k.proc 0).tid = 0 ∧ (k.proc 0).manager = none ∧ (k.proc 0).nexttid = 1 ∧
      (k.proc 0).stack = []) && succeeds perform k (.exec 0 (some bareFile) []) fun _ out =>
        decide (out = .ret 0)) (by decide +kernel)
  obtain ⟨hstate, hexec⟩ := Bool.and_eq_true_iff.mp htest
  obtain ⟨htid, hmanager, hnexttid, hstack⟩ := of_decide_eq_true hstate
  obtain ⟨k', out, hstep, hout⟩ := exists_of_succeeds hexec
  cases of_decide_eq_true hout
  obtain ⟨⟨k1, r⟩, hdone, heq⟩ := map_eq_ok.mp hstep
  cases heq
  exact ⟨k, k1, hreach, hstep,
    (exec_leaves_general (manager?_self htid) hdone).mpr ⟨htid, hmanager, hnexttid, hstack⟩⟩

/-- An LWP execs: it stays an LWP of a manager that goes on unmarked, and a later `sbrk` or
`fork` of the new program takes the size of that manager. -/
theorem exec_leaves_lwp : ∃ k k', Reaches perform Enabled (boot 1000) k ∧
    k.perform (.exec 1 (some bareFile) []) = .ok (k', .ret 0) ∧ k.Member 0 1 ∧
    ¬ LeavesGeneral k k' 1 0 ∧ (k'.proc 1).tid = 1 ∧
    ((k'.proc 0).state = .runnable ∧ (k'.proc 0).killed = false) ∧
    k'.manager? 1 = .ok (some 0) ∧ (k'.proc 0).sz ≠ (k'.proc 1).sz := by
  obtain ⟨k, hreach, htest⟩ := exists_reaches perform Enabled (boot 1000)
    [.visit 0 0, .threadCreate 0 5, .yield 0, .visit 0 1]
    (fun k => decide (k.Member 0 1) && succeeds perform k (.exec 1 (some bareFile) [])
      fun k' out => decide (out = .ret 0 ∧ (k'.proc 1).tid = 1 ∧ (k'.proc 1).manager = some 0 ∧
        ((k'.proc 0).state = .runnable ∧ (k'.proc 0).killed = false) ∧
        (k'.proc 0).sz ≠ (k'.proc 1).sz)) (by decide +kernel)
  obtain ⟨hmember, hexec⟩ := Bool.and_eq_true_iff.mp htest
  obtain ⟨k', out, hstep, hout⟩ := exists_of_succeeds hexec
  obtain ⟨rfl, htid, hmanager, hmgr, hsz⟩ := of_decide_eq_true hout
  refine ⟨k, k', hreach, hstep, of_decide_eq_true hmember, ?_, htid, hmgr, ?_, hsz⟩
  · intro hleaves
    have hzero := hleaves.caller.tid
    omega
  · simp [manager?, htid, hmanager, deref, Except.map]

end Kernel

end Xv6

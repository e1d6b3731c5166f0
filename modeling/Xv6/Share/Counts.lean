import Xv6.Proc.Shape

/-! Only the scheduler changes the `count` of a CPU: every other action of the system leaves
all of them alone. -/
namespace Xv6.Kernel

open Word Fallible Transition

def SameCounts (k k' : Kernel) : Prop := ∀ c, (k'.cpu c).count = (k.cpu c).count

section

variable {k k' k'' : Kernel}

theorem SameCounts.refl (k : Kernel) : SameCounts k k := fun _ => rfl

theorem SameCounts.trans (h : SameCounts k k') (h' : SameCounts k' k'') : SameCounts k k'' :=
  fun c => (h' c).trans (h c)

theorem sameCounts_of_cpu (h : k'.cpu = k.cpu) : SameCounts k k' := fun c => by rw [h]

theorem sameCounts_sched (k : Kernel) (slot : Slot) : SameCounts k (k.sched slot) := by
  intro c
  simp only [sched]
  split
  · rfl
  · rfl

theorem dupFiles_cpu {src dst : Slot} (h : k.dupFiles src dst = .ok k') : k'.cpu = k.cpu := by
  obtain ⟨ofile, cwd, fileRef, inodeRef, rfl⟩ := dupFiles_shape h
  rfl

theorem closeFiles_cpu {slot : Slot} (h : k.closeFiles slot = .ok k') : k'.cpu = k.cpu := by
  obtain ⟨ofile, cwd, fileRef, inodeRef, rfl⟩ := closeFiles_shape h
  rfl

theorem allocproc_cpu {np : Option Slot} (h : k.allocproc = (k', np)) : k'.cpu = k.cpu := by
  unfold allocproc at h
  split at h
  · cases h
    rfl
  · dsimp only at h
    split at h
    · cases h
      rfl
    · cases h
      rfl

theorem growproc_cpu {cur : Slot} {n r : Int} (h : k.growproc cur n = .ok (k', r)) :
    k'.cpu = k.cpu := by
  obtain ⟨d, s, mgr, sz, rfl⟩ := growproc_shape h
  rfl

theorem fork_cpu {cur : Slot} {r : Int} (h : k.fork cur = .ok (k', r)) : k'.cpu = k.cpu := by
  unfold fork at h
  split at h
  · rename_i hnone
    cases Except.ok.inj h
    exact allocproc_cpu hnone
  · rename_i k0 np hsome
    have h0 := allocproc_cpu hsome
    obtain ⟨mgr, -, h⟩ := bind_eq_ok.mp h
    cases mgr with
    | none =>
      cases Except.ok.inj h
      exact h0
    | some mgr =>
      obtain ⟨d, -, h⟩ := bind_eq_ok.mp h
      obtain ⟨⟨pages, left⟩, -, h⟩ := bind_eq_ok.mp h
      cases pages with
      | none =>
        cases Except.ok.inj h
        exact h0
      | some pages =>
        obtain ⟨k1, hdup, h⟩ := bind_eq_ok.mp h
        cases Except.ok.inj h
        exact (dupFiles_cpu hdup).trans h0

theorem mapStack_cpu {np : Slot} {base : Nat} {ok : Bool} (h : k.mapStack np base = .ok (k', ok)) :
    k'.cpu = k.cpu := by
  obtain ⟨d, s, sz, rfl⟩ := mapStack_shape h
  rfl

theorem threadCreate_cpu {cur : Slot} {start : Nat} {c : Created}
    (h : k.threadCreate cur start = .ok (k', c)) : k'.cpu = k.cpu := by
  unfold threadCreate at h
  split at h
  · rename_i hnone
    cases Except.ok.inj h
    exact allocproc_cpu hnone
  · rename_i k0 np hsome
    have h0 := allocproc_cpu hsome
    obtain ⟨mgr, -, h⟩ := bind_eq_ok.mp h
    cases mgr with
    | none =>
      cases Except.ok.inj h
      exact h0
    | some mgr =>
      obtain ⟨k1, hdup, h⟩ := bind_eq_ok.mp h
      obtain ⟨⟨k2, mapped⟩, hmap, h⟩ := bind_eq_ok.mp h
      have htake : (k1.takeStack mgr).1.cpu = k1.cpu := by
        unfold takeStack
        split
        · rfl
        · rfl
      have h2 : k2.cpu = k.cpu :=
        (mapStack_cpu hmap).trans (htake.trans ((dupFiles_cpu hdup).trans h0))
      cases mapped with
      | true =>
        cases Except.ok.inj h
        exact h2
      | false =>
        cases Except.ok.inj h
        exact h2

theorem reap_cpu {mgr p : Slot} {pushed : Bool} (h : k.reap mgr p = .ok (k', pushed)) :
    k'.cpu = k.cpu := by
  obtain ⟨d, -, h⟩ := bind_eq_ok.mp h
  obtain ⟨⟨s, result⟩, -, h⟩ := bind_eq_ok.mp h
  dsimp only at h
  split at h
  · cases Except.ok.inj h
    rfl
  split at h
  · cases h
  · cases Except.ok.inj h
    rfl

theorem sweep_cpu {mgr : Slot} {lwp : Option Slot} (rest : List Slot) {go : Bool}
    (h : sweep mgr lwp rest k = .ok (k', go)) : k'.cpu = k.cpu := by
  refine sweep_invariant (fun k1 => k1.cpu = k.cpu) (fun k1 p k2 more hcpu hone => ?_) rest rfl h
  obtain rfl | ⟨-, -, rfl⟩ | ⟨-, -, hreap⟩ := sweepOne_shape hone
  · exact hcpu
  · exact hcpu
  · exact (reap_cpu hreap).trans hcpu

theorem exitBegin_cpu {cur : Slot} {go : Bool} (h : k.exitBegin cur = .ok (k', go)) :
    k'.cpu = k.cpu := by
  unfold exitBegin at h
  split at h
  · cases h
  obtain ⟨k1, hshare, h⟩ := bind_eq_ok.mp h
  have h1 : k1.cpu = k.cpu := by
    unfold returnShare at hshare
    split at hshare
    · obtain ⟨popped, -, rfl⟩ := map_eq_ok.mp hshare
      rfl
    · cases Except.ok.inj hshare
      rfl
  split at h
  · obtain ⟨mgr, -, h⟩ := bind_eq_ok.mp h
    exact (sweep_cpu slots h).trans h1
  split at h
  · exact (sweep_cpu slots h).trans h1
  · cases Except.ok.inj h
    exact h1

theorem exitEnd_counts {cur : Slot} (h : k.exitEnd cur = .ok k') : SameCounts k k' := by
  obtain ⟨k1, hclose, h⟩ := bind_eq_ok.mp h
  obtain ⟨k2, hnotify, h⟩ := bind_eq_ok.mp h
  cases Except.ok.inj h
  have h2 : k2.cpu = k1.cpu := by
    obtain ⟨slot, killed, chan, rfl⟩ := notify_shape hnotify
    rfl
  have h3 : (k2.passChildren cur).cpu = k2.cpu := by
    unfold passChildren
    dsimp only
    split
    · rfl
    · rfl
  refine (sameCounts_of_cpu ?_).trans (sameCounts_sched _ _)
  exact h3.trans (h2.trans (closeFiles_cpu hclose))

theorem exec_cpu {cur : Slot} {file : Option ElfFile} {argv : List Nat} {r : Int}
    (h : k.exec cur file argv = .ok (k', r)) : k'.cpu = k.cpu := by
  obtain ⟨free, rfl⟩ | ⟨mgr, lwp, s, entry, sz, sp, free, freed, rfl⟩ := exec_shape h
  · rfl
  · rfl

theorem wait_counts {cur : Slot} {a : Answer} (h : k.wait cur = .ok (k', a)) :
    SameCounts k k' := by
  unfold wait at h
  split at h
  · dsimp only at h
    split at h
    · obtain ⟨left, -, h⟩ := bind_eq_ok.mp h
      cases Except.ok.inj h
      exact .refl k
    · cases h
  split at h
  · cases Except.ok.inj h
    exact .refl k
  · cases Except.ok.inj h
    exact sameCounts_sched _ _

theorem threadExit_counts {cur : Slot} {retval : Nat} {a : Answer}
    (h : k.threadExit cur retval = .ok (k', a)) : SameCounts k k' := by
  obtain rfl | ⟨k1, chan, hclose, rfl⟩ := threadExit_shape h
  · exact .refl _
  · exact (sameCounts_of_cpu (closeFiles_cpu hclose)).trans (sameCounts_sched _ _)

theorem threadJoin_counts {cur : Slot} {thread : Int} {j : Joined}
    (h : k.threadJoin cur thread = .ok (k', j)) : SameCounts k k' := by
  unfold threadJoin at h
  split at h
  · cases Except.ok.inj h
    exact .refl k
  split at h
  · obtain ⟨⟨k1, pushed⟩, hreap, h⟩ := bind_eq_ok.mp h
    cases Except.ok.inj h
    have h1 := reap_cpu hreap
    exact sameCounts_of_cpu h1
  split at h
  · cases Except.ok.inj h
    exact .refl k
  · cases Except.ok.inj h
    exact sameCounts_sched _ _

theorem setCpuShare_cpu {cur : Slot} {percent r : Int}
    (h : k.setCpuShare cur percent = .ok (k', r)) : k'.cpu = k.cpu := by
  obtain rfl | ⟨heap, tickets, pass, stride, rfl⟩ := setCpuShare_shape h
  · rfl
  · rfl

theorem perform_counts {a : Act} {out : Out} (hstep : k.perform a = .ok (k', out))
    (hvisit : ∀ c p, a ≠ .visit c p) : SameCounts k k' := by
  cases performs hstep with
  | visit => exact absurd rfl (hvisit _ _)
  | yield p => exact sameCounts_sched _ _
  | sleepOn p chan => exact sameCounts_sched _ _
  | wakeup chan => exact .refl k
  | charge p level ticks runtime => exact .refl k
  | kill p pid =>
    refine sameCounts_of_cpu ?_
    unfold kill
    split
    · rfl
    · rfl
  | fork h => exact sameCounts_of_cpu (fork_cpu h)
  | exec h => exact sameCounts_of_cpu (exec_cpu h)
  | sbrk h => exact sameCounts_of_cpu (growproc_cpu h)
  | wait h => exact wait_counts h
  | resumeWait h =>
    have h1 := wait_counts h
    exact (SameCounts.refl k).trans h1
  | threadCreate h => exact sameCounts_of_cpu (threadCreate_cpu h)
  | threadExit h => exact threadExit_counts h
  | threadJoin h => exact threadJoin_counts h
  | resumeJoin h =>
    have h1 := threadJoin_counts h
    exact (SameCounts.refl k).trans h1
  | exitStays h => exact sameCounts_of_cpu (exitBegin_cpu h)
  | exits hbegin hend =>
    exact (sameCounts_of_cpu (exitBegin_cpu hbegin)).trans (exitEnd_counts hend)
  | exitReturns h => exact sameCounts_of_cpu (exitBegin_cpu h)
  | exitBegin h => exact (sameCounts_of_cpu (exitBegin_cpu h)).trans (.refl _)
  | exitEnd h => exact exitEnd_counts h
  | setCpuShare h => exact sameCounts_of_cpu (setCpuShare_cpu h)

end

end Xv6.Kernel

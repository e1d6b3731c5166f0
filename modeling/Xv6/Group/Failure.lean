import Xv6.Proc.Frame

/-! What a failed `thread_create` leaves behind. Its `bad:` label gives back the kernel stack and
the slot; whatever was entered before the failure stays. -/
namespace Xv6.Kernel

open Word Fallible Transition

def borrowed (k : Kernel) : Option Slot := k.findSlot fun _ p => p.state = .unused

/-- The slot after `allocproc` and `bad:`. The context is set with the kernel stack. -/
def givenBack (k : Kernel) (p : Proc) : Proc :=
  { allocFields k.nextpid p with
    kstack := false, state := .unused
    context := if k.free = 0 then p.context else .user }

/-- The call has left no trace in the group of `cur`, in the reference counts and in the slot
it borrowed. -/
structure Restored (k k' : Kernel) (cur : Slot) : Prop where
  manager : ∀ mgr, k.manager? cur = .ok (some mgr) →
    (k'.proc mgr).sz = (k.proc mgr).sz ∧ (k'.proc mgr).nexttid = (k.proc mgr).nexttid ∧
      (k'.proc mgr).stack = (k.proc mgr).stack
  mappings : ∀ mgr d, k.manager? cur = .ok (some mgr) → (k.proc mgr).pgdir = some d →
    (k'.dir d).pages = (k.dir d).pages ∧ (k'.dir d).guards = (k.dir d).guards
  files : k'.fileRef = k.fileRef
  inodes : k'.inodeRef = k.inodeRef
  slot : ∀ np, k.borrowed = some np → k'.proc np = k.proc np

/-- The call finds no slot, or it stops before it links an LWP, in a slot that holds already
what `allocproc` writes. -/
def Traceless (k : Kernel) (cur : Slot) : Prop :=
  ∀ np, k.borrowed = some np →
    (k.free = 0 ∨ (k.proc cur).tid < 0) ∧ k.givenBack (k.proc np) = k.proc np

section

variable {k k' : Kernel} {cur : Slot}

theorem dupFile_inodeRef {src dst : Slot} {fd : Fin nofile} (h : dupFile src dst k fd = .ok k') :
    k'.inodeRef = k.inodeRef ∧ ∀ i, (k'.proc i).cwd = (k.proc i).cwd := by
  unfold dupFile at h
  split at h
  · cases Except.ok.inj h
    exact ⟨rfl, fun _ => rfl⟩
  · obtain ⟨k1, hdup, rfl⟩ := map_eq_ok.mp h
    unfold filedup at hdup
    split at hdup
    · cases hdup
    · cases Except.ok.inj hdup
      refine ⟨rfl, fun i => ?_⟩
      rw [modify_proc]
      split
      · rename_i hi
        rw [hi]
        rfl
      · rfl

theorem dupFiles_inodeRef {src dst : Slot} (h : k.dupFiles src dst = .ok k') :
    ∃ inode, k'.inodeRef inode = k.inodeRef inode + 1 := by
  obtain ⟨k1, hfold, h⟩ := bind_eq_ok.mp h
  obtain ⟨k2, hidup, h⟩ := bind_eq_ok.mp h
  cases Except.ok.inj h
  have hsame : k1.inodeRef = k.inodeRef :=
    foldlM_invariant (fun k1 => k1.inodeRef = k.inodeRef)
      (fun _ _ _ hb hstep => (dupFile_inodeRef hstep).1.trans hb) _ rfl hfold
  obtain ⟨inode, -, rfl⟩ := map_eq_ok.mp hidup
  refine ⟨inode, ?_⟩
  simp [modify, setInodeRef, hsame]

theorem linkLwp_inodeRef (k : Kernel) (mgr np : Slot) :
    (k.linkLwp mgr np).inodeRef = k.inodeRef := rfl

theorem takeStack_inodeRef (k : Kernel) (mgr : Slot) :
    (k.takeStack mgr).1.inodeRef = k.inodeRef := by
  unfold takeStack
  split
  · rfl
  · rfl

theorem mapStack_inodeRef {np : Slot} {base : Nat} {ok : Bool}
    (h : k.mapStack np base = .ok (k', ok)) : k'.inodeRef = k.inodeRef := by
  obtain ⟨d, -, h⟩ := bind_eq_ok.mp h
  obtain ⟨⟨s, result⟩, -, h⟩ := bind_eq_ok.mp h
  dsimp only at h
  split at h
  · cases Except.ok.inj h
    rfl
  · obtain ⟨s', -, h⟩ := bind_eq_ok.mp h
    obtain ⟨copied, -, h⟩ := bind_eq_ok.mp h
    cases Except.ok.inj h
    rfl

structure GivenBack (k k' : Kernel) (np : Slot) : Prop where
  proc : k'.proc = Function.update k.proc np (k.givenBack (k.proc np))
  dir : k'.dir = k.dir
  files : k'.fileRef = k.fileRef
  inodes : k'.inodeRef = k.inodeRef

theorem givenBack_modify {np : Slot} (f g : Proc → Proc) (hdir : k'.dir = k.dir)
    (hfiles : k'.fileRef = k.fileRef) (hinodes : k'.inodeRef = k.inodeRef)
    (hproc : k'.proc = ((k.modify np f).modify np g).proc)
    (hback : g (f (k.proc np)) = k.givenBack (k.proc np)) : GivenBack k k' np := by
  refine ⟨?_, hdir, hfiles, hinodes⟩
  rw [hproc, ← hback]
  simp [modify]

/-- Where a failed call has stopped: without a slot, before it linked an LWP, or after. -/
inductive Stopped (k k' : Kernel) (cur : Slot) : Prop where
  | noSlot (hborrowed : k.borrowed = none) (h : k' = k)
  | unlinked (np : Slot) (hborrowed : k.borrowed = some np)
      (hearly : k.free = 0 ∨ (k.proc cur).tid < 0) (h : GivenBack k k' np)
  | linked (np : Slot) (hborrowed : k.borrowed = some np)
      (hlate : ¬ (k.free = 0 ∨ (k.proc cur).tid < 0)) (inode : InodeId)
      (h : k'.inodeRef inode = k.inodeRef inode + 1)

theorem allocproc_stopped (h : k.allocproc = (k', none)) : Stopped k k' cur := by
  unfold allocproc at h
  split at h
  · rename_i hnone
    cases h
    exact .noSlot hnone rfl
  · rename_i np hsome
    dsimp only at h
    split at h
    · rename_i hfree
      cases h
      refine .unlinked np hsome (.inl hfree) (givenBack_modify (allocFields k.nextpid)
        (fun p => { p with kstack := false, state := .unused }) rfl rfl rfl rfl ?_)
      have hfree : k.free = 0 := hfree
      simp [givenBack, hfree, allocFields]
    · cases h

structure Allocated (k k1 : Kernel) (np : Slot) : Prop where
  borrowed : k.borrowed = some np
  frames : k.free ≠ 0
  abandoned : GivenBack k (k1.abandon np) np
  others : ∀ i, i ≠ np → k1.proc i = k.proc i
  inodes : k1.inodeRef = k.inodeRef

theorem allocproc_allocated {np : Slot} (h : k.allocproc = (k', some np)) :
    Allocated k k' np := by
  unfold allocproc at h
  split at h
  · cases h
  · rename_i slot hsome
    dsimp only at h
    split at h
    · cases h
    · rename_i hfree
      cases h
      have hfree : k.free ≠ 0 := hfree
      refine ⟨hsome, hfree, ?_, fun i hi => by simp [setFree, hi], rfl⟩
      refine givenBack_modify (allocFields k.nextpid) (fun p =>
        { p with kstack := false, state := .unused, context := .user }) rfl rfl rfl ?_ ?_
      · simp [abandon, modify, setFree]
      · simp [givenBack, hfree, allocFields]

theorem borrowed_unused {np : Slot} (h : k.borrowed = some np) : (k.proc np).state = .unused := by
  simpa using findSlot_some h

theorem threadCreate_stopped {start : Nat} {c : Created} (hcur : (k.proc cur).Live)
    (h : k.threadCreate cur start = .ok (k', c)) (hret : c.ret = -1) : Stopped k k' cur := by
  unfold threadCreate at h
  split at h
  · rename_i hnone
    cases Except.ok.inj h
    exact allocproc_stopped hnone
  · rename_i k1 np hsome
    have halloc := allocproc_allocated hsome
    have hne : cur ≠ np := by
      rintro rfl
      exact hcur.1 (borrowed_unused halloc.borrowed)
    obtain ⟨mgr, hmgr, h⟩ := bind_eq_ok.mp h
    unfold manager? at hmgr
    rw [halloc.others cur hne] at hmgr
    cases mgr with
    | none =>
      cases Except.ok.inj h
      refine .unlinked np halloc.borrowed (.inr ?_) halloc.abandoned
      split at hmgr
      · obtain ⟨m, -, heq⟩ := map_eq_ok.mp hmgr
        cases heq
      · split at hmgr
        · cases Except.ok.inj hmgr
        · omega
    | some mgr =>
      have htid : ¬ (k.proc cur).tid < 0 := by
        intro hneg
        rw [if_neg (by omega), if_neg (by omega)] at hmgr
        cases Except.ok.inj hmgr
      obtain ⟨k2, hdup, h⟩ := bind_eq_ok.mp h
      obtain ⟨⟨k3, mapped⟩, hmap, h⟩ := bind_eq_ok.mp h
      obtain ⟨inode, hinode⟩ := dupFiles_inodeRef hdup
      have hcount : k3.inodeRef inode = k.inodeRef inode + 1 := by
        rw [mapStack_inodeRef hmap]
        change (k2.takeStack mgr).1.inodeRef inode = _
        rw [takeStack_inodeRef, hinode, linkLwp_inodeRef, halloc.inodes]
      cases mapped with
      | true =>
        cases Except.ok.inj h
        cases hret
      | false =>
        cases Except.ok.inj h
        exact .linked np halloc.borrowed (not_or.mpr ⟨halloc.frames, htid⟩) inode hcount

/-- A `thread_create` that returns -1 leaves everything as it was if and only if it found no
slot, or stopped before it linked an LWP in a slot that holds what `allocproc` writes. -/
theorem threadCreate_restores {start : Nat} {c : Created} (hcur : k.At cur .user)
    (h : k.threadCreate cur start = .ok (k', c)) (hret : c.ret = -1) :
    Restored k k' cur ↔ k.Traceless cur := by
  have hlive : (k.proc cur).Live := ⟨by simp [hcur.1], by simp [hcur.1]⟩
  cases threadCreate_stopped hlive h hret with
  | noSlot hborrowed heq =>
    subst heq
    constructor
    · intro _ np hnp
      rw [hborrowed] at hnp
      cases hnp
    · intro _
      exact ⟨fun _ _ => ⟨rfl, rfl, rfl⟩, fun _ _ _ _ => ⟨rfl, rfl⟩, rfl, rfl, fun _ _ => rfl⟩
  | unlinked np hborrowed hearly hback =>
    constructor
    · intro hrestored np' hnp'
      rw [hborrowed] at hnp'
      cases hnp'
      have hslot := hrestored.slot np hborrowed
      rw [hback.proc, Function.update_self] at hslot
      exact ⟨hearly, hslot⟩
    · intro htraceless
      have hproc : k'.proc = k.proc := by
        rw [hback.proc, (htraceless np hborrowed).2, Function.update_eq_self]
      refine ⟨fun mgr _ => ?_, fun mgr d _ _ => ?_, hback.files, hback.inodes, fun i _ => ?_⟩
      · rw [hproc]
        exact ⟨rfl, rfl, rfl⟩
      · rw [hback.dir]
        exact ⟨rfl, rfl⟩
      · rw [hproc]
  | linked np hborrowed hlate inode hcount =>
    constructor
    · intro hrestored
      rw [hrestored.inodes] at hcount
      omega
    · intro htraceless
      exact absurd (htraceless np hborrowed).1 hlate

end

/-- All 64 slots are taken. -/
theorem threadCreate_restores_full : ∃ k k' c, Reaches perform Enabled (boot 5000) k ∧
    k.perform (.threadCreate 0 5) = .ok (k', .created c) ∧ c.ret = -1 ∧ Restored k k' 0 := by
  obtain ⟨k, hreach, htest⟩ := exists_reaches perform Enabled (boot 5000)
    (.visit 0 0 :: List.replicate 63 (.fork 0))
    (fun k => decide (k.At 0 .user ∧ k.borrowed = none) &&
      succeeds perform k (.threadCreate 0 5) fun _ out => decide (out = .created ⟨-1, none⟩))
    (by decide +kernel)
  obtain ⟨hstate, hcreate⟩ := Bool.and_eq_true_iff.mp htest
  obtain ⟨hcur, hfull⟩ := of_decide_eq_true hstate
  obtain ⟨k', out, hstep, hout⟩ := exists_of_succeeds hcreate
  cases of_decide_eq_true hout
  obtain ⟨⟨k1, c⟩, hdone, heq⟩ := map_eq_ok.mp hstep
  cases heq
  refine ⟨k, k1, ⟨-1, none⟩, hreach, hstep, rfl, ?_⟩
  refine (threadCreate_restores hcur hdone rfl).mpr fun np hnp => ?_
  rw [hfull] at hnp
  cases hnp

/-- Memory runs out at the second page of the stack: the manager has grown by two pages and
lost a `tid`, its working directory counts once more, and the slot keeps `tid` and manager. -/
theorem threadCreate_leaks : ∃ k k' c, Reaches perform Enabled (boot 2) k ∧
    k.perform (.threadCreate 0 5) = .ok (k', .created c) ∧ c.ret = -1 ∧ ¬ Restored k k' 0 ∧
    (k.manager? 0 = .ok (some 0) ∧ k.borrowed = some 1) ∧
    ((k'.proc 0).sz = (k.proc 0).sz + 2 * pgsize ∧
      (k'.proc 0).nexttid = (k.proc 0).nexttid + 1) ∧
    k'.inodeRef 1 = k.inodeRef 1 + 1 ∧
    ((k'.proc 1).tid = 1 ∧ (k'.proc 1).manager = some 0 ∧ (k'.proc 1).cwd = some 1) := by
  obtain ⟨k, hreach, htest⟩ := exists_reaches perform Enabled (boot 2) [.visit 0 0]
    (fun k => decide ((k.proc 0).tid = 0 ∧ k.borrowed = some 1) &&
      succeeds perform k (.threadCreate 0 5) fun k' out => decide (out = .created ⟨-1, some 1⟩ ∧
        ((k'.proc 0).sz = (k.proc 0).sz + 2 * pgsize ∧
          (k'.proc 0).nexttid = (k.proc 0).nexttid + 1) ∧
        k'.inodeRef 1 = k.inodeRef 1 + 1 ∧
        ((k'.proc 1).tid = 1 ∧ (k'.proc 1).manager = some 0 ∧ (k'.proc 1).cwd = some 1)))
    (by decide +kernel)
  obtain ⟨hstate, hcreate⟩ := Bool.and_eq_true_iff.mp htest
  obtain ⟨htid, hborrowed⟩ := of_decide_eq_true hstate
  obtain ⟨k', out, hstep, hout⟩ := exists_of_succeeds hcreate
  obtain ⟨rfl, hgrown, hinode, hslot⟩ := of_decide_eq_true hout
  have hmgr : k.manager? 0 = .ok (some 0) := by simp [manager?, htid]
  refine ⟨k, k', ⟨-1, some 1⟩, hreach, hstep, rfl, ?_, ⟨hmgr, hborrowed⟩, hgrown, hinode, hslot⟩
  intro hrestored
  rw [hrestored.inodes] at hinode
  omega

end Xv6.Kernel

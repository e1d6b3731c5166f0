import Xv6.Proc.Frame
import Xv6.Proc.Shape

/-! The effect of every operation in terms of the frame: quiet, settling, spawning
a process, letting one die, or changing a page directory or a share. -/
namespace Xv6.Kernel

open Word Fallible

theorem quiet_wakeup1 (k : Kernel) (chan : Option Chan) : Quiet k (k.wakeup1 chan) where
  shares := ⟨rfl, rfl, rfl⟩
  freed := rfl
  nextdir := rfl
  proc := by
    intro i
    simp only [wakeup1]
    split
    · rename_i h
      exact .of_identity (by simp [h.1]) (by simp [h.1]) Iff.rfl rfl
    · exact .refl _

theorem quiet_sleep (k : Kernel) (slot : Slot) (chan : Chan) (h : (k.proc slot).Live) :
    Quiet k (k.sleep slot chan) := by
  apply Quiet.trans _ (quiet_sched _ _)
  apply quiet_modify
  exact .of_identity (by simp [h.1]) (by simp [h.2]) Iff.rfl rfl

theorem quiet_yield (k : Kernel) (slot : Slot) (h : (k.proc slot).Live) :
    Quiet k (k.yield slot) := by
  apply Quiet.trans _ (quiet_sched _ _)
  apply quiet_modify
  exact .of_identity (by simp [h.1]) (by simp [h.2]) Iff.rfl rfl

theorem quiet_kill (k : Kernel) (pid : Int) : Quiet k (k.kill pid).1 := by
  unfold kill
  split
  · exact .refl k
  · dsimp only
    exact quiet_modify k _ _ (Proc.quiet_wake _ true)

theorem quiet_awake (k : Kernel) (slot : Slot) : Quiet k (k.awake slot) :=
  quiet_modify_of_eq _ _ _ rfl rfl rfl

theorem quiet_charge (k : Kernel) (slot : Slot) (level ticks runtime : Int) :
    Quiet k (k.charge slot level ticks runtime) :=
  quiet_modify_of_eq _ _ _ rfl rfl rfl

theorem quiet_setContext (k : Kernel) (slot : Slot) {context : Context}
    (hbefore : (k.proc slot).context ≠ .exit) (hafter : context ≠ .exit) :
    Quiet k (k.modify slot fun p => { p with context := context }) :=
  quiet_modify_of_eq _ _ _ rfl rfl (by simp [Proc.identity, hbefore, hafter])

theorem quiet_cleanupLwp (k : Kernel) (mgr : Slot) (lwp : Option Slot) :
    Quiet k (k.cleanupLwp mgr lwp) where
  shares := ⟨rfl, rfl, rfl⟩
  freed := rfl
  nextdir := rfl
  proc := by
    intro i
    simp only [cleanupLwp]
    split
    · exact Proc.quiet_wake _ _
    · exact .refl _

theorem quiet_setFree (k : Kernel) (free : Nat) : Quiet k (k.setFree free) :=
  ⟨⟨rfl, rfl, rfl⟩, rfl, rfl, fun _ => .refl _⟩

theorem quiet_refile (k : Kernel) (slot : Slot) (ofile : Fin nofile → Option FileId)
    (cwd : Option InodeId) (fileRef : FileId → Nat) (inodeRef : InodeId → Nat) :
    Quiet k (k.refile slot ofile cwd fileRef inodeRef) := by
  have hrefs : Quiet k { k with fileRef := fileRef, inodeRef := inodeRef } :=
    ⟨⟨rfl, rfl, rfl⟩, rfl, rfl, fun _ => .refl _⟩
  exact hrefs.trans (quiet_modify_of_eq _ _ _ rfl rfl rfl)

theorem quiet_dupFiles {k k' : Kernel} {src dst : Slot} (h : k.dupFiles src dst = .ok k') :
    Quiet k k' := by
  obtain ⟨ofile, cwd, fileRef, inodeRef, rfl⟩ := dupFiles_shape h
  exact quiet_refile ..

theorem quiet_closeFiles {k k' : Kernel} {slot : Slot} (h : k.closeFiles slot = .ok k') :
    Quiet k k' := by
  obtain ⟨ofile, cwd, fileRef, inodeRef, rfl⟩ := closeFiles_shape h
  exact quiet_refile ..

theorem quiet_respace (k : Kernel) (d : DirId) (s : Space) (slot : Slot) (sz : Nat) :
    Quiet k (k.respace d s slot sz) :=
  (quiet_setSpace _ _ _).trans (quiet_modify_of_eq _ _ _ rfl rfl rfl)

theorem quiet_growproc {k k' : Kernel} {cur : Slot} {n r : Int}
    (h : k.growproc cur n = .ok (k', r)) : Quiet k k' := by
  obtain ⟨d, s, mgr, sz, rfl⟩ := growproc_shape h
  exact quiet_respace ..

structure Spawning (k k' : Kernel) (np : Slot) : Prop where
  shares : SameShares k k'
  freed : k'.freed = k.freed
  before : (k.proc np).state = .unused
  others : ∀ i, i ≠ np → Proc.Quiet (k.proc i) (k'.proc i)

theorem Spawning.quiet {k k' k'' : Kernel} {np : Slot} (h : Spawning k k' np)
    (h' : Quiet k' k'') : Spawning k k'' np :=
  ⟨h.shares.trans h'.shares, h'.freed.trans h.freed, h.before,
    fun i hi => (h.others i hi).trans (h'.proc i)⟩

theorem Spawning.modify {k k' : Kernel} {np : Slot} (h : Spawning k k' np) (f : Proc → Proc) :
    Spawning k (k'.modify np f) np where
  shares := h.shares.trans ⟨rfl, rfl, rfl⟩
  freed := h.freed
  before := h.before
  others := by
    intro i hi
    rw [modify_proc_ne _ _ hi]
    exact h.others i hi

theorem Spawning.abandon {k k' : Kernel} {np : Slot} (h : Spawning k k' np)
    (hnextdir : k'.nextdir = k.nextdir)
    (hparent : (k'.proc np).parent = none ↔ (k.proc np).parent = none)
    (hidle : (k'.proc np).Idle) : Quiet k (k'.abandon np) where
  shares := h.shares.trans ⟨rfl, rfl, rfl⟩
  freed := h.freed
  nextdir := hnextdir
  proc := by
    intro i
    by_cases hi : i = np
    · subst hi
      have hnot : ¬ (k.proc i).state ≠ .unused := fun hne => hne h.before
      simp only [Kernel.abandon, modify_proc_same]
      exact ⟨by simp [h.before], by simp [h.before], hparent, fun _ => hidle,
        fun hne => absurd hne hnot⟩
    · simp only [Kernel.abandon, modify_proc_ne _ _ hi]
      exact h.others i hi

theorem quiet_of_allocproc_none {k k' : Kernel} (h : k.allocproc = (k', none)) : Quiet k k' := by
  unfold allocproc at h
  split at h
  · cases h; exact .refl k
  · rename_i np hfind
    have hstate : (k.proc np).state = .unused := by simpa using findSlot_some hfind
    dsimp only at h
    split at h
    · cases h
      refine ⟨⟨rfl, rfl, rfl⟩, rfl, rfl, fun i => ?_⟩
      by_cases hi : i = np
      · subst hi
        simp only [modify_proc_same]
        exact ⟨by simp [hstate], by simp [hstate], by simp [allocFields], fun _ => ⟨rfl, rfl⟩,
          fun hne => absurd hstate hne⟩
      · simp only [modify_proc_ne _ _ hi]
        exact .refl _
    · cases h

structure Taken (k k' : Kernel) (np : Slot) : Prop where
  found : (k.findSlot fun _ p => p.state = .unused) = some np
  spawning : Spawning k k' np
  nextdir : k'.nextdir = k.nextdir
  dir : k'.dir = k.dir
  free : k.free = k'.free + 1
  others : ∀ i, i ≠ np → k'.proc i = k.proc i
  proc : k'.proc np =
    { allocFields k.nextpid (k.proc np) with kstack := true, context := .user }

theorem taken_of_allocproc {k k' : Kernel} {np : Slot} (h : k.allocproc = (k', some np)) :
    Taken k k' np := by
  unfold allocproc at h
  split at h
  · cases h
  · rename_i slot hfind
    have hstate : (k.proc slot).state = .unused := by simpa using findSlot_some hfind
    dsimp only at h
    split at h
    · cases h
    · rename_i hfree
      cases h
      have hothers : ∀ i, i ≠ np → ∀ f g : Proc → Proc, ∀ free pid,
          ((setFree { k.modify np f with nextpid := pid } free).modify np g).proc i =
            k.proc i := by
        intro i hi f g free pid
        simp [hi, setFree]
      refine ⟨hfind, ⟨⟨rfl, rfl, rfl⟩, rfl, hstate, fun i hi => ?_⟩, rfl, rfl, ?_,
        fun i hi => ?_, ?_⟩
      · rw [hothers i hi]; exact .refl _
      · have hpositive : k.free ≠ 0 := hfree
        simp only [setFree, modify]
        omega
      · exact hothers i hi _ _ _ _
      · simp [setFree]

theorem Taken.idle {k k' : Kernel} {np : Slot} (h : Taken k k' np) : (k'.proc np).Idle := by
  rw [h.proc]
  exact ⟨rfl, rfl⟩

/-- A successful `fork`: an MLFQ process with a directory of its own. The slot keeps
the `manager` and `retval` of its last occupant. -/
structure Forks (k k' : Kernel) (np : Slot) : Prop where
  spawning : Spawning k k' np
  nextdir : k'.nextdir = k.nextdir + 1
  state : (k'.proc np).state = .runnable
  parent : (k'.proc np).parent ≠ none
  identity : (k'.proc np).identity = ⟨k.nextpid, -1, 0, 0, 0, (k.proc np).manager,
    some k.nextdir, (k.proc np).retval, false⟩

theorem fork_effect {k k' : Kernel} {cur : Slot} {r : Int} (h : k.fork cur = .ok (k', r)) :
    Quiet k k' ∨ ∃ np, Forks k k' np := by
  unfold fork at h
  split at h
  · rename_i k0 halloc
    cases Except.ok.inj h
    exact .inl (quiet_of_allocproc_none halloc)
  · rename_i k0 np halloc
    have taken := taken_of_allocproc halloc
    have hparent : (k0.proc np).parent = none ↔ (k.proc np).parent = none := by
      simp [taken.proc, allocFields]
    obtain ⟨mgr?, -, h⟩ := bind_eq_ok.mp h
    cases mgr? with
    | none =>
      cases Except.ok.inj h
      exact .inl (taken.spawning.abandon taken.nextdir hparent taken.idle)
    | some mgr =>
      obtain ⟨d, -, h⟩ := bind_eq_ok.mp h
      obtain ⟨⟨pages, left⟩, -, h⟩ := bind_eq_ok.mp h
      cases pages with
      | none =>
        cases Except.ok.inj h
        refine .inl (Spawning.abandon ?_ taken.nextdir ?_ ?_)
        · exact (taken.spawning.quiet (quiet_setFree _ _)).modify _
        · simpa [setFree] using hparent
        · simpa [setFree, Proc.Idle] using taken.idle
      | some pages =>
        obtain ⟨k1, hdup, h⟩ := bind_eq_ok.mp h
        cases Except.ok.inj h
        have hquiet := quiet_dupFiles hdup
        refine .inr ⟨np, ⟨?_, ?_, by simp, ?_, ?_⟩⟩
        · refine Spawning.modify (Spawning.quiet (Spawning.modify ?_ _) hquiet) _
          exact ⟨taken.spawning.shares.trans ⟨rfl, rfl, rfl⟩, taken.spawning.freed,
            taken.spawning.before, taken.spawning.others⟩
        · exact hquiet.nextdir.trans (congrArg (· + 1) taken.nextdir)
        · have hpar := hquiet.proc np
          simpa using hpar.parent
        · have hid := (hquiet.proc np).identity
          simp only [modify_proc_same, addDir, taken.proc, taken.nextdir] at hid ⊢
          exact hid (by simp [allocFields])

/-- A successful `thread_create`: an LWP of `mgr` that shares its directory. A manager
that was itself unused may be the slot that is taken. -/
structure Creates (k k' : Kernel) (cur np mgr : Slot) : Prop where
  found : (k.findSlot fun _ p => p.state = .unused) = some np
  spawning : Spawning k k' np
  nextdir : k'.nextdir = k.nextdir
  manager : k.manager? cur = .ok (some mgr)
  state : (k'.proc np).state = .runnable
  parent : (k'.proc np).parent = none ↔ (k.proc np).parent = none
  identity : (k'.proc np).identity =
    ⟨k.nextpid, -1, 0, 0, if mgr = np then 1 else (k.proc mgr).nexttid, some mgr,
      (k.proc mgr).pgdir, (k.proc np).retval, false⟩

theorem Taken.manager? {k k' : Kernel} {np cur : Slot} (h : Taken k k' np)
    (hcur : (k.proc cur).Live) : k'.manager? cur = k.manager? cur := by
  have hne : cur ≠ np := by
    intro heq
    subst heq
    exact hcur.1 h.spawning.before
  unfold Kernel.manager?
  rw [h.others cur hne]

theorem quiet_takeStack (k : Kernel) (mgr : Slot) : Quiet k (k.takeStack mgr).1 := by
  unfold takeStack
  split
  · dsimp only
    exact quiet_modify_of_eq k mgr _ (by dsimp only) (by dsimp only) (by simp only [Proc.identity])
  · dsimp only
    exact quiet_modify_of_eq k mgr _ rfl rfl rfl

theorem quiet_mapStack {k k' : Kernel} {np : Slot} {base : Nat} {ok : Bool}
    (h : k.mapStack np base = .ok (k', ok)) : Quiet k k' := by
  obtain ⟨d, s, sz, rfl⟩ := mapStack_shape h
  exact quiet_respace ..

theorem Spawning.linkLwp {k k' : Kernel} {np : Slot} (h : Spawning k k' np) (mgr : Slot) :
    Spawning k (k'.linkLwp mgr np) np := by
  have hmgr := h.modify fun p => { p with manager := some mgr }
  have htid := hmgr.quiet (quiet_modify_of_eq _ mgr
    (fun p => { p with nexttid := i32 ((k'.proc mgr).nexttid + 1) }) rfl rfl rfl)
  unfold Kernel.linkLwp
  exact htid.modify _

theorem linkLwp_proc (k : Kernel) (mgr np : Slot) :
    (k.linkLwp mgr np).proc np =
      { k.proc np with
        manager := some mgr
        tid := (k.proc mgr).nexttid
        tf := (k.proc mgr).tf
        pgdir := (k.proc mgr).pgdir
        nexttid := if mgr = np then i32 ((k.proc mgr).nexttid + 1) else (k.proc np).nexttid } := by
  unfold linkLwp
  by_cases h : mgr = np
  · subst h; simp
  · have h' : np ≠ mgr := fun heq => h heq.symm
    simp [h, h']

theorem threadCreate_effect {k k' : Kernel} {cur : Slot} {start : Nat} {out : Created}
    (hcur : (k.proc cur).Live) (h : k.threadCreate cur start = .ok (k', out)) :
    Quiet k k' ∧ out.ret = -1 ∨
      ∃ np mgr, Creates k k' cur np mgr ∧ out = ⟨0, some (k'.proc np).tid⟩ := by
  unfold threadCreate at h
  split at h
  · rename_i k0 halloc
    cases Except.ok.inj h
    exact .inl ⟨quiet_of_allocproc_none halloc, rfl⟩
  · rename_i k0 np halloc
    have taken := taken_of_allocproc halloc
    have hparent : (k0.proc np).parent = none ↔ (k.proc np).parent = none := by
      simp [taken.proc, allocFields]
    obtain ⟨mgr?, hmgr, h⟩ := bind_eq_ok.mp h
    rw [taken.manager? hcur] at hmgr
    cases mgr? with
    | none =>
      cases Except.ok.inj h
      exact .inl ⟨taken.spawning.abandon taken.nextdir hparent taken.idle, rfl⟩
    | some mgr =>
      obtain ⟨k1, hdup, h⟩ := bind_eq_ok.mp h
      obtain ⟨⟨k2, ok⟩, hmap, h⟩ := bind_eq_ok.mp h
      have hquiet : Quiet (k0.linkLwp mgr np) k2 :=
        ((quiet_dupFiles hdup).trans (quiet_takeStack _ _)).trans (quiet_mapStack hmap)
      have hspawn : Spawning k k2 np := (taken.spawning.linkLwp mgr).quiet hquiet
      have hnextdir : k2.nextdir = k.nextdir := hquiet.nextdir.trans taken.nextdir
      have hparent2 : (k2.proc np).parent = none ↔ (k.proc np).parent = none := by
        rw [(hquiet.proc np).parent, linkLwp_proc]
        exact hparent
      have hid : (k2.proc np).identity = ((k0.linkLwp mgr np).proc np).identity := by
        apply (hquiet.proc np).identity
        rw [linkLwp_proc, taken.proc]
        simp [allocFields]
      cases ok with
      | false =>
        cases Except.ok.inj h
        have hidle : ((k0.linkLwp mgr np).proc np).Idle := by
          rw [linkLwp_proc]
          exact taken.idle
        exact .inl ⟨hspawn.abandon hnextdir hparent2 (Proc.idle_of_identity hid hidle), rfl⟩
      | true =>
        cases Except.ok.inj h
        refine .inr ⟨np, mgr, ⟨taken.found, hspawn.modify _, hnextdir, hmgr, by simp,
          by simpa using hparent2, ?_⟩, ?_⟩
        · rw [modify_proc_same]
          refine Eq.trans hid ?_
          rw [linkLwp_proc]
          by_cases hnp : mgr = np
          · subst hnp
            simp [Proc.identity, taken.proc, allocFields]
          · simp [Proc.identity, taken.proc, taken.others mgr hnp, allocFields, hnp]
        · have htid : (k1.proc np).tid = (k2.proc np).tid := by
            have hrest : Quiet k1 k2 := (quiet_takeStack _ _).trans (quiet_mapStack hmap)
            have hembryo : (k1.proc np).state ≠ .unused := by
              rw [Ne, ((quiet_dupFiles hdup).proc np).unused, linkLwp_proc, taken.proc]
              simp [allocFields]
            exact (congrArg Identity.tid ((hrest.proc np).identity hembryo)).symm
          simp [htid]

end Xv6.Kernel

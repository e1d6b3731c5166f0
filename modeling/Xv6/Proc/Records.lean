import Xv6.Proc.Inversion

/-! What the scheduler and the LWP calls keep of a process. Few functions of `proc.c` write these
fields: `allocproc`, the reaping of an LWP, `thread_create`, and what moves a share or a level.
All others leave them as they are, in every slot. -/
namespace Xv6

open Word Fallible

structure Record where
  level : Int
  passValue : Int
  stride : Int
  portion : Int
  tid : Int
  manager : Option Slot
  nexttid : Int
  stack : List Nat

def Proc.record (p : Proc) : Record :=
  ⟨p.level, p.passValue, p.stride, p.portion, p.tid, p.manager, p.nexttid, p.stack⟩

namespace Kernel

def SameRecords (k k' : Kernel) : Prop := ∀ i, (k'.proc i).record = (k.proc i).record

variable {k k' k'' : Kernel} {cur mgr np p : Slot}

theorem SameRecords.refl (k : Kernel) : SameRecords k k := fun _ => rfl

theorem SameRecords.trans (h : SameRecords k k') (h' : SameRecords k' k'') : SameRecords k k'' :=
  fun i => (h' i).trans (h i)

theorem records_of_proc (h : k'.proc = k.proc) : SameRecords k k' := by
  intro i
  rw [h]

theorem records_update {slot : Slot} {q : Proc} (h : k'.proc = Function.update k.proc slot q)
    (hq : q.record = (k.proc slot).record) : SameRecords k k' := by
  intro i
  rw [h, Function.update_apply]
  split
  · rename_i hi
    rw [hi]
    exact hq
  · rfl

theorem records_modify (k : Kernel) (slot : Slot) (f : Proc → Proc)
    (h : (f (k.proc slot)).record = (k.proc slot).record) : SameRecords k (k.modify slot f) :=
  records_update rfl h

theorem records_wakeup1 (k : Kernel) (chan : Option Chan) : SameRecords k (k.wakeup1 chan) := by
  intro i
  simp only [wakeup1]
  split
  · rfl
  · rfl

theorem records_sched (k : Kernel) (slot : Slot) : SameRecords k (k.sched slot) :=
  records_of_proc rfl

theorem records_sleep (k : Kernel) (slot : Slot) (chan : Chan) :
    SameRecords k (k.sleep slot chan) := by
  unfold sleep
  exact (records_modify k slot _ rfl).trans (records_sched _ _)

theorem records_yield (k : Kernel) (slot : Slot) : SameRecords k (k.yield slot) := by
  unfold yield
  exact (records_modify k slot _ rfl).trans (records_sched _ _)

theorem records_kill (k : Kernel) (pid : Int) : SameRecords k (k.kill pid).1 := by
  unfold kill
  split
  · exact .refl k
  · dsimp only
    exact records_modify k _ _ rfl

theorem records_dupFiles {src dst : Slot} (h : k.dupFiles src dst = .ok k') : SameRecords k k' := by
  obtain ⟨ofile, cwd, fileRef, inodeRef, rfl⟩ := dupFiles_shape h
  exact records_update rfl rfl

theorem records_closeFiles {slot : Slot} (h : k.closeFiles slot = .ok k') : SameRecords k k' := by
  obtain ⟨ofile, cwd, fileRef, inodeRef, rfl⟩ := closeFiles_shape h
  exact records_update rfl rfl

theorem records_abandon (k : Kernel) (np : Slot) : SameRecords k (k.abandon np) :=
  records_modify (k.setFree (k.free + 1)) np _ rfl

theorem records_growproc {n r : Int} (h : k.growproc cur n = .ok (k', r)) : SameRecords k k' := by
  obtain ⟨d, s, mgr, sz, rfl⟩ := growproc_shape h
  exact records_update rfl rfl

theorem records_passChildren (k : Kernel) (cur : Slot) : SameRecords k (k.passChildren cur) := by
  have hpassed :
      SameRecords k { k with proc := fun slot => reparent cur k.initproc (k.proc slot) } := by
    intro i
    dsimp only [reparent]
    split
    · rfl
    · rfl
  unfold passChildren
  dsimp only
  split
  · exact hpassed.trans (records_wakeup1 _ _)
  · exact hpassed

theorem records_exitEnd (h : k.exitEnd cur = .ok k') : SameRecords k k' := by
  obtain ⟨k1, hclose, h⟩ := bind_eq_ok.mp h
  obtain ⟨k2, hnotify, h⟩ := bind_eq_ok.mp h
  cases Except.ok.inj h
  have hnotified : SameRecords k1 k2 := by
    obtain ⟨slot, killed, chan, rfl⟩ := notify_shape hnotify
    exact (records_modify k1 slot _ rfl).trans (records_wakeup1 _ _)
  exact ((records_closeFiles hclose).trans hnotified).trans ((records_passChildren _ _).trans
    ((records_modify _ cur _ rfl).trans (records_sched _ _)))

theorem records_wait {a : Answer} (h : k.wait cur = .ok (k', a)) : SameRecords k k' := by
  unfold wait at h
  split at h
  · rename_i p hfind
    split at h
    · rename_i d hdir
      obtain ⟨left, -, h⟩ := bind_eq_ok.mp h
      cases Except.ok.inj h
      refine SameRecords.trans ?_ (records_modify _ cur _ rfl)
      exact records_modify { k with free := left + 1, freed := insert d k.freed } p _ rfl
    · cases h
  · split at h
    · cases Except.ok.inj h
      exact records_modify k cur _ rfl
    · cases Except.ok.inj h
      exact (records_modify k cur _ rfl).trans (records_sleep _ _ _)

theorem records_mapStack {base : Nat} {ok : Bool} (h : k.mapStack np base = .ok (k', ok)) :
    SameRecords k k' := by
  obtain ⟨d, s, sz, rfl⟩ := mapStack_shape h
  exact records_update rfl rfl

theorem records_threadExit {retval : Nat} {a : Answer}
    (h : k.threadExit cur retval = .ok (k', a)) : SameRecords k k' := by
  obtain rfl | ⟨k1, chan, hclose, rfl⟩ := threadExit_shape h
  · exact .refl _
  · exact (records_closeFiles hclose).trans ((records_modify k1 cur _ rfl).trans
      ((records_wakeup1 _ _).trans ((records_modify _ cur _ rfl).trans (records_sched _ _))))

theorem records_cleanupLwp (k : Kernel) (mgr : Slot) (lwp : Option Slot) :
    SameRecords k (k.cleanupLwp mgr lwp) := by
  intro i
  simp only [cleanupLwp]
  split
  · rfl
  · rfl

theorem records_exec {file : Option ElfFile} {argv : List Nat} {r : Int}
    (h : k.exec cur file argv = .ok (k', r)) : SameRecords k k' := by
  obtain ⟨free, rfl⟩ | ⟨mgr, lwp, s, entry, sz, sp, free, freed, rfl⟩ := exec_shape h
  · exact records_of_proc rfl
  · exact (records_cleanupLwp k mgr lwp).trans (records_update rfl rfl)

theorem records_returnShare (h : k.returnShare cur = .ok k') : SameRecords k k' :=
  records_of_proc (returnShare_proc h).1

theorem records_execution {c : Fin ncpu} {how out : Visit}
    (h : k.execution c p how = .ok (k', out)) : SameRecords k k' := by
  rw [(execution_eq h).1]
  exact (records_modify k p (fun q => { q with state := .running }) rfl).trans
    (records_of_proc rfl)

theorem records_fork {r : Int} (h : k.fork cur = .ok (k', r)) :
    ∃ k0 slot, k.allocproc = (k0, slot) ∧ SameRecords k0 k' := by
  unfold fork at h
  split at h
  · rename_i k0 halloc
    cases Except.ok.inj h
    exact ⟨_, none, halloc, .refl _⟩
  · rename_i k0 np halloc
    refine ⟨k0, some np, halloc, ?_⟩
    obtain ⟨mgr?, -, h⟩ := bind_eq_ok.mp h
    cases mgr? with
    | none =>
      cases Except.ok.inj h
      exact records_abandon k0 np
    | some mgr =>
      obtain ⟨d, -, h⟩ := bind_eq_ok.mp h
      obtain ⟨⟨pages, left⟩, -, h⟩ := bind_eq_ok.mp h
      cases pages with
      | none =>
        cases Except.ok.inj h
        exact (records_modify (k0.setFree left) np _ rfl).trans (records_abandon _ _)
      | some pages =>
        obtain ⟨k1, hdup, h⟩ := bind_eq_ok.mp h
        cases Except.ok.inj h
        exact (records_modify (k0.addDir pages left) np _ rfl).trans
          ((records_dupFiles hdup).trans (records_modify _ np _ rfl))

/-- What an action can do to the records, apart from those of the scheduler: nothing, or one of
the few steps that write them, with nothing before and after it. -/
inductive Rewrites (k k' : Kernel) : Prop where
  | same (h : SameRecords k k')
  | allocates (k0 : Kernel) (slot : Option Slot) (halloc : k.allocproc = (k0, slot))
      (hafter : SameRecords k0 k')
  | creates (k0 k1 : Kernel) (np mgr : Slot) (halloc : k.allocproc = (k0, some np))
      (hlinked : SameRecords (k0.linkLwp mgr np) k1)
      (hafter : SameRecords (k1.takeStack mgr).1 k')
  | reaps (k0 k1 : Kernel) (mgr p : Slot) (pushed : Bool) (hbefore : SameRecords k k0)
      (hmanager : (k0.proc p).manager = some mgr) (hreap : k0.reap mgr p = .ok (k1, pushed))
      (hafter : SameRecords k1 k')
  | sweeps (k0 k1 : Kernel) (mgr : Slot) (lwp : Option Slot) (go : Bool)
      (hbefore : SameRecords k k0) (hsweep : sweep mgr lwp slots k0 = .ok (k1, go))
      (hafter : SameRecords k1 k')

theorem rewrites_threadCreate {start : Nat} {out : Created}
    (h : k.threadCreate cur start = .ok (k', out)) : Rewrites k k' := by
  unfold threadCreate at h
  split at h
  · rename_i k0 halloc
    cases Except.ok.inj h
    exact .allocates _ none halloc (.refl _)
  · rename_i k0 np halloc
    obtain ⟨mgr?, -, h⟩ := bind_eq_ok.mp h
    cases mgr? with
    | none =>
      cases Except.ok.inj h
      exact .allocates k0 (some np) halloc (records_abandon k0 np)
    | some mgr =>
      obtain ⟨k1, hdup, h⟩ := bind_eq_ok.mp h
      obtain ⟨⟨k2, ok⟩, hmap, h⟩ := bind_eq_ok.mp h
      refine .creates k0 k1 np mgr halloc (records_dupFiles hdup) ((records_mapStack hmap).trans ?_)
      cases ok with
      | false =>
        cases Except.ok.inj h
        exact records_abandon k2 np
      | true =>
        cases Except.ok.inj h
        exact records_modify k2 np _ rfl

theorem rewrites_threadJoin {k0 : Kernel} {thread : Int} {out : Joined}
    (hbefore : SameRecords k k0) (h : k0.threadJoin cur thread = .ok (k', out)) :
    Rewrites k k' := by
  unfold threadJoin at h
  split at h
  · cases Except.ok.inj h
    exact .same hbefore
  split at h
  · rename_i p hfind
    have hp := of_decide_eq_true (findSlot_some hfind)
    obtain ⟨⟨k1, pushed⟩, hreap, h⟩ := bind_eq_ok.mp h
    cases Except.ok.inj h
    exact .reaps k0 k1 cur p pushed hbefore hp.1 hreap (records_modify k1 cur _ rfl)
  split at h
  · cases Except.ok.inj h
    exact .same (hbefore.trans (records_modify k0 cur _ rfl))
  · cases Except.ok.inj h
    exact .same (hbefore.trans ((records_modify k0 cur _ rfl).trans (records_sleep _ _ _)))

theorem rewrites_exitBegin {k1 : Kernel} {go : Bool} (h : k.exitBegin cur = .ok (k1, go))
    (hafter : SameRecords k1 k') : Rewrites k k' := by
  unfold exitBegin at h
  split at h
  · cases h
  obtain ⟨k0, hshare, h⟩ := bind_eq_ok.mp h
  have hbefore := records_returnShare hshare
  split at h
  · obtain ⟨mgr, -, h⟩ := bind_eq_ok.mp h
    exact .sweeps k0 k1 mgr (some cur) go hbefore h hafter
  split at h
  · exact .sweeps k0 k1 cur none go hbefore h hafter
  · cases Except.ok.inj h
    exact .same (hbefore.trans hafter)

def ranks : Act → Bool
  | .visit .. | .charge .. | .setCpuShare .. => true
  | _ => false

theorem perform_rewrites {a : Act} {out : Out} (ha : ranks a = false)
    (hstep : k.perform a = .ok (k', out)) : Rewrites k k' := by
  cases performs hstep with
  | visit => cases ha
  | charge => cases ha
  | setCpuShare => cases ha
  | yield p => exact .same (records_yield k p)
  | sleepOn p chan => exact .same (records_sleep k p chan)
  | wakeup chan => exact .same (records_wakeup1 k (some chan))
  | kill p pid => exact .same (records_kill k pid)
  | fork h =>
    obtain ⟨k0, slot, halloc, hafter⟩ := records_fork h
    exact .allocates k0 slot halloc hafter
  | exec h => exact .same (records_exec h)
  | sbrk h => exact .same (records_growproc h)
  | wait h => exact .same (records_wait h)
  | resumeWait h => exact .same ((records_modify k _ _ rfl).trans (records_wait h))
  | threadCreate h => exact rewrites_threadCreate h
  | threadExit h => exact .same (records_threadExit h)
  | threadJoin h => exact rewrites_threadJoin (.refl k) h
  | resumeJoin h => exact rewrites_threadJoin (records_modify k _ _ rfl) h
  | exitStays h => exact rewrites_exitBegin h (.refl _)
  | exits hbegin hend => exact rewrites_exitBegin hbegin (records_exitEnd hend)
  | exitReturns h => exact rewrites_exitBegin h (.refl _)
  | exitBegin h => exact rewrites_exitBegin h (records_modify _ _ _ rfl)
  | exitEnd h => exact .same (records_exitEnd h)

end Kernel

end Xv6

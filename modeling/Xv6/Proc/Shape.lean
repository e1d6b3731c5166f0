import Xv6.Proc.Step
import Xv6.Lib.Fallible

/-! The state that a function of `proc.c` returns, as an update of the one it started from. A
frame of the whole system is then one line for each function. -/
namespace Xv6.Kernel

open Word Fallible

section

variable {k k' : Kernel} {cur mgr np p : Slot}

theorem modify_self (k : Kernel) (slot : Slot) (f : Proc → Proc)
    (h : f (k.proc slot) = k.proc slot) : k.modify slot f = k := by
  simp only [modify, h, Function.update_eq_self]

def refile (k : Kernel) (slot : Slot) (ofile : Fin nofile → Option FileId) (cwd : Option InodeId)
    (fileRef : FileId → Nat) (inodeRef : InodeId → Nat) : Kernel :=
  { k with fileRef := fileRef, inodeRef := inodeRef }.modify slot
    fun p => { p with ofile := ofile, cwd := cwd }

theorem refile_cwd (k : Kernel) (slot : Slot) (ofile : Fin nofile → Option FileId)
    (cwd cwd' : Option InodeId) (fileRef : FileId → Nat) (inodeRef : InodeId → Nat)
    (inode : InodeId) (n : Nat) :
    ((k.refile slot ofile cwd fileRef inodeRef).setInodeRef inode n).modify slot
        (fun p => { p with cwd := cwd' }) =
      k.refile slot ofile cwd' fileRef (Function.update inodeRef inode n) := by
  simp only [refile, setInodeRef, modify, Function.update_self, Function.update_idem]

theorem refile_loop (slot : Slot) {step : Kernel → Fin nofile → Except Fault Kernel}
    {fds : List (Fin nofile)}
    (hstep : ∀ k fd k', step k fd = .ok k' → k' = k ∨ ∃ f n file,
      k' = (k.setFileRef f n).modify slot
        fun p => { p with ofile := Function.update p.ofile fd file })
    (h : fds.foldlM step k = .ok k') :
    ∃ ofile fileRef, k' = k.refile slot ofile (k.proc slot).cwd fileRef k.inodeRef := by
  refine foldlM_invariant
    (fun k1 => ∃ ofile fileRef, k1 = k.refile slot ofile (k.proc slot).cwd fileRef k.inodeRef)
    (fun k1 fd k2 hk1 hone => ?_) _ ⟨(k.proc slot).ofile, k.fileRef, ?_⟩ h
  · obtain ⟨ofile, fileRef, rfl⟩ := hk1
    rcases hstep _ _ _ hone with rfl | ⟨f, n, file, rfl⟩
    · exact ⟨ofile, fileRef, rfl⟩
    · refine ⟨Function.update ofile fd file, Function.update fileRef f n, ?_⟩
      simp only [refile, setFileRef, modify, Function.update_self, Function.update_idem]
  · exact (modify_self k slot _ rfl).symm

theorem dupFile_shape {src dst : Slot} {fd : Fin nofile} (h : dupFile src dst k fd = .ok k') :
    k' = k ∨ ∃ f n file, k' = (k.setFileRef f n).modify dst
      fun p => { p with ofile := Function.update p.ofile fd file } := by
  unfold dupFile at h
  split at h
  · exact .inl (Except.ok.inj h).symm
  · obtain ⟨k1, hdup, rfl⟩ := map_eq_ok.mp h
    unfold filedup at hdup
    split at hdup
    · cases hdup
    · cases Except.ok.inj hdup
      exact .inr ⟨_, _, _, rfl⟩

theorem dupFiles_shape {src dst : Slot} (h : k.dupFiles src dst = .ok k') :
    ∃ ofile cwd fileRef inodeRef, k' = k.refile dst ofile cwd fileRef inodeRef := by
  obtain ⟨k1, hloop, h⟩ := bind_eq_ok.mp h
  obtain ⟨k2, hidup, h⟩ := bind_eq_ok.mp h
  obtain ⟨inode, -, rfl⟩ := map_eq_ok.mp hidup
  cases Except.ok.inj h
  obtain ⟨ofile, fileRef, rfl⟩ := refile_loop dst (fun _ _ _ => dupFile_shape) hloop
  exact ⟨_, _, _, _, refile_cwd ..⟩

theorem closeFile_shape {slot : Slot} {fd : Fin nofile} (h : closeFile slot k fd = .ok k') :
    k' = k ∨ ∃ f n file, k' = (k.setFileRef f n).modify slot
      fun p => { p with ofile := Function.update p.ofile fd file } := by
  unfold closeFile at h
  split at h
  · exact .inl (Except.ok.inj h).symm
  · obtain ⟨k1, hclose, rfl⟩ := map_eq_ok.mp h
    unfold fileclose at hclose
    split at hclose
    · cases hclose
    · cases Except.ok.inj hclose
      exact .inr ⟨_, _, _, rfl⟩

theorem closeFiles_shape {slot : Slot} (h : k.closeFiles slot = .ok k') :
    ∃ ofile cwd fileRef inodeRef, k' = k.refile slot ofile cwd fileRef inodeRef := by
  obtain ⟨k1, hloop, h⟩ := bind_eq_ok.mp h
  obtain ⟨k2, hiput, h⟩ := bind_eq_ok.mp h
  obtain ⟨inode, -, rfl⟩ := map_eq_ok.mp hiput
  cases Except.ok.inj h
  obtain ⟨ofile, fileRef, rfl⟩ := refile_loop slot (fun _ _ _ => closeFile_shape) hloop
  exact ⟨_, _, _, _, refile_cwd ..⟩

def respace (k : Kernel) (d : DirId) (s : Space) (slot : Slot) (sz : Nat) : Kernel :=
  (k.setSpace d s).modify slot fun p => { p with sz := sz }

theorem growproc_shape {n r : Int} (h : k.growproc cur n = .ok (k', r)) :
    ∃ d s mgr sz, k' = k.respace d s mgr sz := by
  have hsame : ∀ (k : Kernel) slot, k = k.modify slot fun p => { p with sz := (k.proc slot).sz } :=
    fun k slot => (modify_self k slot _ rfl).symm
  obtain ⟨mgr?, -, h⟩ := bind_eq_ok.mp h
  cases mgr? with
  | none =>
    cases Except.ok.inj h
    refine ⟨0, k.space 0, cur, (k.proc cur).sz, ?_⟩
    have hspace : k.setSpace 0 (k.space 0) = k := by
      simp only [setSpace, space, Function.update_eq_self]
    rw [respace, hspace]
    exact hsame k cur
  | some mgr =>
    obtain ⟨d, -, h⟩ := bind_eq_ok.mp h
    obtain ⟨⟨s, result⟩, -, h⟩ := bind_eq_ok.mp h
    dsimp only at h
    split at h
    · cases Except.ok.inj h
      exact ⟨d, s, mgr, _, hsame _ mgr⟩
    · cases Except.ok.inj h
      exact ⟨d, s, mgr, result, rfl⟩

theorem mapStack_shape {base : Nat} {ok : Bool} (h : k.mapStack np base = .ok (k', ok)) :
    ∃ d s sz, k' = k.respace d s np sz := by
  obtain ⟨d, -, h⟩ := bind_eq_ok.mp h
  obtain ⟨⟨s, result⟩, -, h⟩ := bind_eq_ok.mp h
  dsimp only at h
  split at h
  · cases Except.ok.inj h
    exact ⟨d, s, result, rfl⟩
  · obtain ⟨s', -, h⟩ := bind_eq_ok.mp h
    obtain ⟨copied, -, h⟩ := bind_eq_ok.mp h
    cases Except.ok.inj h
    refine ⟨d, s', result, ?_⟩
    simp only [respace, setSpace, modify, Function.update_idem]

def reimage (k : Kernel) (cur : Slot) (s : Space) (entry sz sp free : Nat)
    (freed : Finset DirId) : Kernel :=
  { k.addDir s.dir s.free with free := free, freed := freed }.modify cur fun p =>
    { p with pgdir := some k.nextdir, sz := sz, tf := { p.tf with eip := entry, esp := sp } }

theorem commitImage_shape {s : Space} {entry sz sp : Nat} {r : Int}
    (h : k.commitImage cur s entry sz sp = .ok (k', r)) :
    ∃ free freed, k' = k.reimage cur s entry sz sp free freed := by
  unfold commitImage at h
  dsimp only at h
  split at h
  · split at h
    · rename_i d hd
      obtain ⟨left, -, h⟩ := bind_eq_ok.mp h
      cases Except.ok.inj h
      exact ⟨left, insert d k.freed, rfl⟩
    · cases h
  · cases Except.ok.inj h
    exact ⟨s.free, k.freed, rfl⟩

theorem exec_shape {file : Option ElfFile} {argv : List Nat} {r : Int}
    (h : k.exec cur file argv = .ok (k', r)) :
    (∃ free, k' = { k with free := free }) ∨ ∃ mgr lwp s entry sz sp free freed,
      k' = (k.cleanupLwp mgr lwp).reimage cur s entry sz sp free freed := by
  unfold exec at h
  split at h
  · obtain ⟨⟨s, image⟩, -, h⟩ := bind_eq_ok.mp h
    cases image with
    | none =>
      obtain ⟨left, -, heq⟩ := map_eq_ok.mp h
      cases heq
      exact .inl ⟨left, rfl⟩
    | some image =>
      dsimp only at h
      split at h
      · obtain ⟨mgr, -, h⟩ := bind_eq_ok.mp h
        obtain ⟨free, freed, rfl⟩ := commitImage_shape h
        exact .inr ⟨mgr, _, _, _, _, _, _, _, rfl⟩
      split at h
      · obtain ⟨free, freed, rfl⟩ := commitImage_shape h
        exact .inr ⟨cur, _, _, _, _, _, _, _, rfl⟩
      · obtain ⟨left, -, heq⟩ := map_eq_ok.mp h
        cases heq
        exact .inl ⟨left, rfl⟩
  · cases Except.ok.inj h
    exact .inl ⟨k.free, rfl⟩

theorem execution_eq {c : Fin ncpu} {how out : Visit} (h : k.execution c p how = .ok (k', out)) :
    k' = (k.modify p fun q => { q with state := .running }).setCpu c
      (fun cpu => { cpu with proc := some p }) ∧ how = out := by
  unfold execution at h
  split at h
  · cases h
  · cases Except.ok.inj h
    exact ⟨rfl, rfl⟩

def repass (k : Kernel) (mgr : Slot) (pass : Int) (heap : StrideHeap) : Kernel :=
  { k with heap := heap }.modify mgr fun q => { q with passValue := pass }

theorem advancePass_shape (h : k.advancePass mgr = .ok k') :
    ∃ pass heap, k' = k.repass mgr pass heap := by
  obtain ⟨popped, -, h⟩ := bind_eq_ok.mp h
  obtain ⟨heap, -, h⟩ := bind_eq_ok.mp h
  cases Except.ok.inj h
  exact ⟨i32 ((k.proc mgr).passValue + (k.proc mgr).stride), heap, rfl⟩

theorem visit_shape {c : Fin ncpu} {how : Visit} (h : k.visit c p = .ok (k', how)) :
    (∃ cpu, k' = { k with cpu := cpu }) ∨ (k.proc p).state = .runnable ∧
      ∃ cpu k1 how', (k1 = { k with cpu := cpu } ∨
        ∃ mgr pass heap, k1 = { k with cpu := cpu }.repass mgr pass heap) ∧
        k1.execution c p how' = .ok (k', how) := by
  unfold visit at h
  split at h
  · cases Except.ok.inj h
    exact .inl ⟨k.cpu, rfl⟩
  rename_i hrunnable
  split at h
  · exact .inr ⟨not_not.mp hrunnable, _, _, _, .inl rfl, h⟩
  dsimp only at h
  split at h
  · obtain ⟨mgr, -, h⟩ := bind_eq_ok.mp h
    split at h
    · obtain ⟨k1, hadvance, h⟩ := bind_eq_ok.mp h
      obtain ⟨pass, heap, rfl⟩ := advancePass_shape hadvance
      exact .inr ⟨not_not.mp hrunnable, _, _, _, .inr ⟨mgr, pass, heap, rfl⟩, h⟩
    · cases Except.ok.inj h
      exact .inl ⟨_, rfl⟩
  split at h
  · cases Except.ok.inj h
    exact .inl ⟨_, rfl⟩
  split at h
  · cases Except.ok.inj h
    exact .inl ⟨_, rfl⟩
  · exact .inr ⟨not_not.mp hrunnable, _, _, _, .inl rfl, h⟩

theorem setCpuShare_shape {percent r : Int} (h : k.setCpuShare cur percent = .ok (k', r)) :
    k' = k ∨ ∃ heap tickets pass stride,
      k' = { k with heap := heap, strideTickets := tickets }.modify cur
        fun p => { p with passValue := pass, stride := stride, portion := percent } := by
  unfold setCpuShare at h
  split at h
  · exact .inl (congrArg Prod.fst (Except.ok.inj h)).symm
  split at h
  · obtain ⟨heap, -, h⟩ := bind_eq_ok.mp h
    cases Except.ok.inj h
    exact .inr ⟨heap, i32 (k.strideTickets + percent), heap.cells 1, 1000 / percent, rfl⟩
  · exact .inl (congrArg Prod.fst (Except.ok.inj h)).symm

theorem allocproc_shape {slot : Option Slot} (h : k.allocproc = (k', slot)) :
    k' = k ∨ ∃ np nextpid free kstack state context, (k.proc np).state = .unused ∧
      k' = { k with nextpid := nextpid, free := free }.modify np fun p =>
        { allocFields k.nextpid p with kstack := kstack, state := state, context := context } := by
  unfold allocproc at h
  split at h
  · exact .inl (congrArg Prod.fst h).symm
  · rename_i np hfind
    have hstate : (k.proc np).state = .unused := by simpa using findSlot_some hfind
    dsimp only at h
    split at h
    · refine .inr ⟨np, i32 (k.nextpid + 1), k.free, false, .unused, (k.proc np).context, hstate, ?_⟩
      cases h
      simp only [modify, Function.update_self, Function.update_idem, allocFields]
    · refine .inr ⟨np, i32 (k.nextpid + 1), k.free - 1, true, .embryo, .user, hstate, ?_⟩
      cases h
      simp only [modify, setFree, Function.update_self, Function.update_idem, allocFields]

theorem notify_shape (h : k.notify cur = .ok k') :
    ∃ slot killed chan,
      k' = (k.modify slot fun p => { p with killed := killed }).wakeup1 chan := by
  unfold notify at h
  split at h
  · cases Except.ok.inj h
    refine ⟨cur, (k.proc cur).killed, (k.proc cur).parent.map .proc, ?_⟩
    rw [modify_self k cur _ rfl]
  · obtain ⟨mgr, -, rfl⟩ := map_eq_ok.mp h
    exact ⟨mgr, true, _, rfl⟩

theorem threadExit_shape {retval : Nat} {a : Answer} (h : k.threadExit cur retval = .ok (k', a)) :
    k' = k ∨ ∃ k1 chan, k.closeFiles cur = .ok k1 ∧
      k' = (((k1.modify cur fun p => { p with retval := retval }).wakeup1 chan).modify cur
        fun p => { p with state := .zombie }).sched cur := by
  unfold threadExit at h
  split at h
  · cases h
  split at h
  · exact .inl (congrArg Prod.fst (Except.ok.inj h)).symm
  · obtain ⟨k1, hclose, h⟩ := bind_eq_ok.mp h
    cases Except.ok.inj h
    exact .inr ⟨k1, _, hclose, rfl⟩

theorem exitBegin_shape {go : Bool} (h : k.exitBegin cur = .ok (k', go)) :
    ∃ heap tickets, k' = { k with heap := heap, strideTickets := tickets } ∨
      ∃ mgr lwp, sweep mgr lwp slots { k with heap := heap, strideTickets := tickets } =
        .ok (k', go) := by
  unfold exitBegin at h
  split at h
  · cases h
  obtain ⟨k1, hshare, h⟩ := bind_eq_ok.mp h
  obtain ⟨heap, tickets, rfl⟩ :
      ∃ heap tickets, k1 = { k with heap := heap, strideTickets := tickets } := by
    unfold returnShare at hshare
    split at hshare
    · obtain ⟨popped, -, rfl⟩ := map_eq_ok.mp hshare
      exact ⟨_, _, rfl⟩
    · cases Except.ok.inj hshare
      exact ⟨k.heap, k.strideTickets, rfl⟩
  refine ⟨heap, tickets, ?_⟩
  split at h
  · obtain ⟨mgr, -, h⟩ := bind_eq_ok.mp h
    exact .inr ⟨mgr, _, h⟩
  split at h
  · exact .inr ⟨cur, none, h⟩
  · cases Except.ok.inj h
    exact .inl rfl

theorem sweep_invariant {lwp : Option Slot} (inv : Kernel → Prop)
    (preserved : ∀ k p k' go, inv k → k.sweepOne mgr lwp p = .ok (k', go) → inv k')
    (rest : List Slot) {go : Bool} (hk : inv k) (h : sweep mgr lwp rest k = .ok (k', go)) :
    inv k' := by
  induction rest generalizing k with
  | nil =>
    cases Except.ok.inj h
    exact hk
  | cons p rest ih =>
    obtain ⟨⟨k1, more⟩, hone, h⟩ := bind_eq_ok.mp h
    have hk1 := preserved k p k1 more hk hone
    cases more with
    | true => exact ih hk1 h
    | false =>
      cases Except.ok.inj h
      exact hk1

theorem sweepOne_shape {lwp : Option Slot} {go : Bool} (h : k.sweepOne mgr lwp p = .ok (k', go)) :
    k' = k ∨ ((k.proc p).manager = some mgr ∧ (k.proc p).state ≠ .zombie ∧
        k' = k.modify p fun q =>
          { q with killed := true, state := if q.state = .sleeping then .runnable else q.state }) ∨
      ((k.proc p).manager = some mgr ∧ (k.proc p).state = .zombie ∧
        k.reap mgr p = .ok (k', go)) := by
  unfold sweepOne at h
  split at h
  · exact .inl (congrArg Prod.fst (Except.ok.inj h)).symm
  rename_i hgroup
  rw [not_or, not_not] at hgroup
  split at h
  · rename_i hstate
    cases Except.ok.inj h
    exact .inr (.inl ⟨hgroup.1, hstate, rfl⟩)
  · rename_i hstate
    exact .inr (.inr ⟨hgroup.1, not_not.mp hstate, h⟩)

end

inductive Performs (k : Kernel) : Act → Kernel → Out → Prop where
  | visit {c p k' how} (h : k.visit c p = .ok (k', how)) : Performs k (.visit c p) k' (.visited how)
  | yield (p : Slot) : Performs k (.yield p) (k.yield p) .done
  | sleepOn (p : Slot) (chan : Chan) : Performs k (.sleepOn p chan) (k.sleep p chan) .done
  | wakeup (chan : Chan) : Performs k (.wakeup chan) (k.wakeup1 (some chan)) .done
  | charge (p : Slot) (level ticks runtime : Int) :
      Performs k (.charge p level ticks runtime) (k.charge p level ticks runtime) .done
  | kill (p : Slot) (pid : Int) : Performs k (.kill p pid) (k.kill pid).1 (.ret (k.kill pid).2)
  | fork {p k' r} (h : k.fork p = .ok (k', r)) : Performs k (.fork p) k' (.ret r)
  | exec {p file argv k' r} (h : k.exec p file argv = .ok (k', r)) :
      Performs k (.exec p file argv) k' (.ret r)
  | sbrk {p n k' r} (h : k.growproc p n = .ok (k', r)) : Performs k (.sbrk p n) k' (.ret r)
  | wait {p k' answer} (h : k.wait p = .ok (k', answer)) : Performs k (.wait p) k' (.answer answer)
  | resumeWait {p k' answer} (h : (k.awake p).wait p = .ok (k', answer)) :
      Performs k (.resumeWait p) k' (.answer answer)
  | threadCreate {p start k' out} (h : k.threadCreate p start = .ok (k', out)) :
      Performs k (.threadCreate p start) k' (.created out)
  | threadExit {p retval k' answer} (h : k.threadExit p retval = .ok (k', answer)) :
      Performs k (.threadExit p retval) k' (.answer answer)
  | threadJoin {p thread k' out} (h : k.threadJoin p thread = .ok (k', out)) :
      Performs k (.threadJoin p thread) k' (.joined out)
  | resumeJoin {p k' out}
      (h : (k.awake p).threadJoin p ((k.joining p).getD 0) = .ok (k', out)) :
      Performs k (.resumeJoin p) k' (.joined out)
  | exits {p k1 k'} (hbegin : k.exitBegin p = .ok (k1, true)) (hend : k1.exitEnd p = .ok k') :
      Performs k (.exit p) k' (.answer .gone)
  | exitStays {p k'} (h : k.exitBegin p = .ok (k', false)) :
      Performs k (.exit p) k' (.answer (.returned 0))
  | exitBegin {p k1} (h : k.exitBegin p = .ok (k1, true)) :
      Performs k (.exitBegin p) (k1.modify p fun q => { q with context := .exit }) .done
  | exitReturns {p k'} (h : k.exitBegin p = .ok (k', false)) :
      Performs k (.exitBegin p) k' (.answer (.returned 0))
  | exitEnd {p k'} (h : k.exitEnd p = .ok k') : Performs k (.exitEnd p) k' (.answer .gone)
  | setCpuShare {p percent k' r} (h : k.setCpuShare p percent = .ok (k', r)) :
      Performs k (.setCpuShare p percent) k' (.ret r)

theorem answered {α : Type} {x : Except Fault (Kernel × α)} {f : α → Out} {k' : Kernel} {out : Out}
    (h : (x.map fun r => (r.1, f r.2)) = .ok (k', out)) : ∃ a, x = .ok (k', a) ∧ f a = out := by
  obtain ⟨⟨k1, a⟩, hx, heq⟩ := map_eq_ok.mp h
  cases heq
  exact ⟨a, hx, rfl⟩

theorem performs {k k' : Kernel} {a : Act} {out : Out} (h : k.perform a = .ok (k', out)) :
    Performs k a k' out := by
  cases a with
  | visit c p =>
    obtain ⟨how, hvisit, rfl⟩ := answered h
    exact .visit hvisit
  | yield p =>
    cases Except.ok.inj h
    exact .yield p
  | sleepOn p chan =>
    cases Except.ok.inj h
    exact .sleepOn p chan
  | wakeup chan =>
    cases Except.ok.inj h
    exact .wakeup chan
  | charge p level ticks runtime =>
    cases Except.ok.inj h
    exact .charge p level ticks runtime
  | kill p pid =>
    cases Except.ok.inj h
    exact .kill p pid
  | fork p =>
    obtain ⟨r, hfork, rfl⟩ := answered h
    exact .fork hfork
  | exec p file argv =>
    obtain ⟨r, hexec, rfl⟩ := answered h
    exact .exec hexec
  | sbrk p n =>
    obtain ⟨r, hgrow, rfl⟩ := answered h
    exact .sbrk hgrow
  | wait p =>
    obtain ⟨answer, hwait, rfl⟩ := answered h
    exact .wait hwait
  | resumeWait p =>
    obtain ⟨answer, hwait, rfl⟩ := answered h
    exact .resumeWait hwait
  | threadCreate p start =>
    obtain ⟨created, hcreate, rfl⟩ := answered h
    exact .threadCreate hcreate
  | threadExit p retval =>
    obtain ⟨answer, hexit, rfl⟩ := answered h
    exact .threadExit hexit
  | threadJoin p thread =>
    obtain ⟨joined, hjoin, rfl⟩ := answered h
    exact .threadJoin hjoin
  | resumeJoin p =>
    obtain ⟨joined, hjoin, rfl⟩ := answered h
    exact .resumeJoin hjoin
  | exit p =>
    obtain ⟨answer, hexit, rfl⟩ := answered h
    obtain ⟨⟨k1, go⟩, hbegin, hexit⟩ := bind_eq_ok.mp hexit
    cases go with
    | true =>
      obtain ⟨k2, hend, heq⟩ := map_eq_ok.mp hexit
      cases heq
      exact .exits hbegin hend
    | false =>
      cases Except.ok.inj hexit
      exact .exitStays hbegin
  | exitBegin p =>
    obtain ⟨⟨k1, go⟩, hbegin, heq⟩ := map_eq_ok.mp h
    cases go with
    | true =>
      cases heq
      exact .exitBegin hbegin
    | false =>
      cases heq
      exact .exitReturns hbegin
  | exitEnd p =>
    obtain ⟨k1, hend, heq⟩ := map_eq_ok.mp h
    cases heq
    exact .exitEnd hend
  | setCpuShare p percent =>
    obtain ⟨r, hshare, rfl⟩ := answered h
    exact .setCpuShare hshare

end Xv6.Kernel

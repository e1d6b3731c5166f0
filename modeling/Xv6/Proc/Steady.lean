import Xv6.Proc.Kin

/-! What an action leaves of a single slot, in the fields that outlive its process. `exit`,
`wait` and `thread_join` give a slot back with some of them reset, `allocproc` takes it with
others reset, and `kill` does not ask who is in it. -/
namespace Xv6

open Word Fallible

namespace Proc

structure Residue where
  parent : Option Slot
  manager : Option Slot
  tid : Int
  killed : Bool
  ofile : Fin nofile → Option FileId
  context : Context
  chan : Option Chan

def residue (p : Proc) : Residue :=
  ⟨p.parent, p.manager, p.tid, p.killed, p.ofile, p.context, p.chan⟩

/-- The occupant stays, or the slot stays free. Marks are only added, and `strict` says that
none is made on a free slot; nobody falls asleep. -/
structure Steady (strict : Prop) (p q : Proc) : Prop where
  unused : q.state = .unused ↔ p.state = .unused
  zombie : q.state = .zombie ↔ p.state = .zombie
  parent : q.parent = none ↔ p.parent = none
  manager : q.manager = p.manager
  tid : q.tid = p.tid
  killed : p.killed = true → q.killed = true
  spared : strict → p.state = .unused → q.killed = p.killed
  files : ¬ p.Live → q.ofile = p.ofile
  asleep : q.state = .sleeping → p.state = .sleeping ∧ q.context = p.context ∧ q.chan = p.chan

section

variable {strict : Prop} {p q r : Proc}

theorem Steady.of_residue (hunused : q.state = .unused ↔ p.state = .unused)
    (hzombie : q.state = .zombie ↔ p.state = .zombie)
    (hasleep : q.state = .sleeping → p.state = .sleeping) (h : q.residue = p.residue) :
    Steady strict p q where
  unused := hunused
  zombie := hzombie
  parent := by rw [show q.parent = p.parent from congrArg Residue.parent h]
  manager := congrArg Residue.manager h
  tid := congrArg Residue.tid h
  killed := fun hk => (congrArg Residue.killed h).trans hk
  spared := fun _ _ => congrArg Residue.killed h
  files := fun _ => congrArg Residue.ofile h
  asleep := fun hs => ⟨hasleep hs, congrArg Residue.context h, congrArg Residue.chan h⟩

theorem Steady.refl (p : Proc) : Steady strict p p := .of_residue Iff.rfl Iff.rfl id rfl

theorem Steady.live (h : Steady strict p q) : q.Live ↔ p.Live :=
  and_congr (not_congr h.unused) (not_congr h.zombie)

theorem Steady.trans (h : Steady strict p q) (h' : Steady strict q r) : Steady strict p r where
  unused := h'.unused.trans h.unused
  zombie := h'.zombie.trans h.zombie
  parent := h'.parent.trans h.parent
  manager := h'.manager.trans h.manager
  tid := h'.tid.trans h.tid
  killed := h'.killed ∘ h.killed
  spared := fun hs hp => (h'.spared hs (h.unused.mpr hp)).trans (h.spared hs hp)
  files := fun hp => (h'.files (mt h.live.mp hp)).trans (h.files hp)
  asleep := fun hr => by
    obtain ⟨hq, hcontext, hchan⟩ := h'.asleep hr
    obtain ⟨hp, hcontext', hchan'⟩ := h.asleep hq
    exact ⟨hp, hcontext.trans hcontext', hchan.trans hchan'⟩

theorem Steady.goes_on (hp : p.Live) (hq : q.state = .runnable ∨ q.state = .running)
    (hparent : q.parent = none ↔ p.parent = none) (hmanager : q.manager = p.manager)
    (htid : q.tid = p.tid) (hkilled : p.killed = true → q.killed = true) : Steady strict p q := by
  have hlive : q.Live ∧ q.state ≠ .sleeping := by
    rcases hq with hq | hq
    · exact ⟨⟨by simp [hq], by simp [hq]⟩, by simp [hq]⟩
    · exact ⟨⟨by simp [hq], by simp [hq]⟩, by simp [hq]⟩
  exact ⟨⟨fun h => absurd h hlive.1.1, fun h => absurd h hp.1⟩,
    ⟨fun h => absurd h hlive.1.2, fun h => absurd h hp.2⟩, hparent, hmanager, htid, hkilled,
    fun _ h => absurd h hp.1, fun h => absurd hp h, fun h => absurd h hlive.2⟩

theorem steady_wake (h : strict → p.state ≠ .unused) :
    Steady strict p { p with killed := true,
                             state := if p.state = .sleeping then .runnable else p.state } where
  unused := by by_cases h : p.state = .sleeping <;> simp [h]
  zombie := by by_cases h : p.state = .sleeping <;> simp [h]
  parent := Iff.rfl
  manager := rfl
  tid := rfl
  killed := fun _ => rfl
  spared := fun hs hp => absurd hp (h hs)
  files := fun _ => rfl
  asleep := by by_cases h : p.state = .sleeping <;> simp [h]

end

end Proc

namespace Kernel

def Steady (strict : Prop) (k k' : Kernel) : Prop :=
  ∀ i, Proc.Steady strict (k.proc i) (k'.proc i)

section

variable {strict : Prop} {k k' k'' : Kernel}

theorem Steady.refl (k : Kernel) : Steady strict k k := fun _ => .refl _

theorem Steady.trans (h : Steady strict k k') (h' : Steady strict k' k'') : Steady strict k k'' :=
  fun i => (h i).trans (h' i)

theorem steady_of_proc (h : k'.proc = k.proc) : Steady strict k k' := by
  intro i
  rw [h]
  exact .refl _

theorem steady_update {slot : Slot} {q : Proc} (h : k'.proc = Function.update k.proc slot q)
    (hq : Proc.Steady strict (k.proc slot) q) : Steady strict k k' := by
  intro i
  rw [h, Function.update_apply]
  split
  · rename_i hi
    rw [hi]
    exact hq
  · exact .refl _

theorem steady_modify (k : Kernel) (slot : Slot) (f : Proc → Proc)
    (h : Proc.Steady strict (k.proc slot) (f (k.proc slot))) :
    Steady strict k (k.modify slot f) :=
  steady_update rfl h

theorem steady_update_of_eq {slot : Slot} {q : Proc}
    (h : k'.proc = Function.update k.proc slot q) (hstate : q.state = (k.proc slot).state)
    (hresidue : q.residue = (k.proc slot).residue) : Steady strict k k' :=
  steady_update h
    (.of_residue (by rw [hstate]) (by rw [hstate]) (by rw [hstate]; exact id) hresidue)

theorem steady_modify_of_eq (k : Kernel) (slot : Slot) (f : Proc → Proc)
    (hstate : (f (k.proc slot)).state = (k.proc slot).state)
    (h : (f (k.proc slot)).residue = (k.proc slot).residue) : Steady strict k (k.modify slot f) :=
  steady_update_of_eq rfl hstate h

theorem steady_wakeup1 (k : Kernel) (chan : Option Chan) : Steady strict k (k.wakeup1 chan) := by
  intro i
  simp only [wakeup1]
  split
  · rename_i h
    exact .goes_on ⟨by simp [h.1], by simp [h.1]⟩ (.inl rfl) Iff.rfl rfl rfl id
  · exact .refl _

theorem steady_sched (k : Kernel) (slot : Slot) : Steady strict k (k.sched slot) :=
  steady_of_proc rfl

theorem steady_yield (k : Kernel) (slot : Slot) (h : (k.proc slot).Live) :
    Steady strict k (k.yield slot) := by
  unfold yield
  exact (steady_modify k slot _ (.goes_on h (.inl rfl) Iff.rfl rfl rfl id)).trans (steady_sched _ _)

theorem steady_kill (k : Kernel) (pid : Int)
    (h : strict → ∀ i, (k.findSlot fun _ p => p.pid = pid) = some i →
      (k.proc i).state ≠ .unused) :
    Steady strict k (k.kill pid).1 := by
  unfold kill
  split
  · exact .refl k
  · rename_i slot hfind
    dsimp only
    exact steady_modify k slot _ (Proc.steady_wake fun hs => h hs slot hfind)

theorem steady_cleanupLwp (k : Kernel) (mgr : Slot) (lwp : Option Slot)
    (h : strict → ∀ i, (k.proc i).state = .unused → (k.proc i).manager = none) :
    Steady strict k (k.cleanupLwp mgr lwp) := by
  intro i
  simp only [cleanupLwp]
  split
  · rename_i hvictim
    refine Proc.steady_wake fun hs hunused => ?_
    have hnone := h hs i hunused
    rw [hvictim.2.1] at hnone
    cases hnone
  · exact .refl _

theorem steady_files {slot : Slot} {q : Proc} (hlive : (k.proc slot).Live)
    (h : k'.proc = Function.update k.proc slot q) (hstate : q.state = (k.proc slot).state)
    (hq : { q.residue with ofile := (k.proc slot).ofile } = (k.proc slot).residue) :
    Steady strict k k' := by
  have hsteady : Proc.Steady strict (k.proc slot) { q with ofile := (k.proc slot).ofile } :=
    .of_residue (by rw [← hstate]) (by rw [← hstate]) (by rw [← hstate]; exact id) hq
  exact steady_update h ⟨hsteady.unused, hsteady.zombie, hsteady.parent, hsteady.manager,
    hsteady.tid, hsteady.killed, hsteady.spared, fun hdead => absurd hlive hdead, hsteady.asleep⟩

theorem steady_dupFiles {src dst : Slot} (hdst : (k.proc dst).Live)
    (h : k.dupFiles src dst = .ok k') : Steady strict k k' := by
  obtain ⟨ofile, cwd, fileRef, inodeRef, rfl⟩ := dupFiles_shape h
  exact steady_files hdst rfl rfl rfl

theorem steady_closeFiles {slot : Slot} (hlive : (k.proc slot).Live)
    (h : k.closeFiles slot = .ok k') : Steady strict k k' := by
  obtain ⟨ofile, cwd, fileRef, inodeRef, rfl⟩ := closeFiles_shape h
  exact steady_files hlive rfl rfl rfl

theorem closeFile_ofile {slot : Slot} {fd : Fin nofile} (h : closeFile slot k fd = .ok k') :
    (k'.proc slot).ofile = Function.update (k.proc slot).ofile fd none := by
  unfold closeFile at h
  split at h
  · rename_i hnone
    cases Except.ok.inj h
    exact (Function.update_eq_self_iff.mpr hnone.symm).symm
  · obtain ⟨k1, hclose, rfl⟩ := map_eq_ok.mp h
    unfold fileclose at hclose
    split at hclose
    · cases hclose
    · cases Except.ok.inj hclose
      rw [modify_proc_same]
      rfl

theorem closeLoop_ofile {slot : Slot} {fds : List (Fin nofile)}
    (h : fds.foldlM (closeFile slot) k = .ok k') (fd : Fin nofile) :
    (k'.proc slot).ofile fd = if fd ∈ fds then none else (k.proc slot).ofile fd := by
  induction fds generalizing k with
  | nil =>
    cases Except.ok.inj h
    simp
  | cons fd' rest ih =>
    rw [List.foldlM_cons] at h
    obtain ⟨k1, hclose, h⟩ := bind_eq_ok.mp h
    rw [ih h, closeFile_ofile hclose]
    by_cases heq : fd = fd'
    · simp [heq]
    · simp [heq]

theorem closeFiles_ofile {slot : Slot} (h : k.closeFiles slot = .ok k') :
    (k'.proc slot).ofile = fun _ => none := by
  obtain ⟨k1, hloop, h⟩ := bind_eq_ok.mp h
  obtain ⟨k2, hiput, h⟩ := bind_eq_ok.mp h
  cases Except.ok.inj h
  obtain ⟨inode, -, rfl⟩ := map_eq_ok.mp hiput
  funext fd
  have hclosed := closeLoop_ofile hloop fd
  rw [if_pos (List.mem_finRange fd)] at hclosed
  rw [modify_proc_same]
  exact hclosed

theorem steady_growproc {cur : Slot} {n r : Int} (h : k.growproc cur n = .ok (k', r)) :
    Steady strict k k' := by
  obtain ⟨d, s, mgr, sz, rfl⟩ := growproc_shape h
  exact steady_update_of_eq rfl rfl rfl

theorem steady_takeStack (k : Kernel) (mgr : Slot) : Steady strict k (k.takeStack mgr).1 := by
  unfold takeStack
  split
  · dsimp only
    refine steady_modify_of_eq k mgr _ ?_ ?_ <;> simp only [Proc.residue]
  · exact steady_update_of_eq rfl rfl rfl

theorem steady_mapStack {np : Slot} {base : Nat} {ok : Bool}
    (h : k.mapStack np base = .ok (k', ok)) : Steady strict k k' := by
  obtain ⟨d, s, sz, rfl⟩ := mapStack_shape h
  exact steady_update_of_eq rfl rfl rfl

theorem steady_exec {cur : Slot} {file : Option ElfFile} {argv : List Nat} {r : Int}
    (hfree : strict → ∀ i, (k.proc i).state = .unused → (k.proc i).manager = none)
    (h : k.exec cur file argv = .ok (k', r)) : Steady strict k k' := by
  obtain ⟨free, rfl⟩ | ⟨mgr, lwp, s, entry, sz, sp, free, freed, rfl⟩ := exec_shape h
  · exact steady_of_proc rfl
  · exact (steady_cleanupLwp k mgr lwp hfree).trans (steady_update_of_eq rfl rfl rfl)

theorem steady_execution {c : Fin ncpu} {p : Slot} {how out : Visit} (hp : (k.proc p).Live)
    (h : k.execution c p how = .ok (k', out)) : Steady strict k k' := by
  rw [(execution_eq h).1]
  exact steady_update rfl (.goes_on hp (.inr rfl) Iff.rfl rfl rfl id)

theorem steady_visit {c : Fin ncpu} {p : Slot} {how : Visit} (h : k.visit c p = .ok (k', how)) :
    Steady strict k k' := by
  obtain ⟨cpu, rfl⟩ | ⟨hrunnable, cpu, k1, how', hk1, h⟩ := visit_shape h
  · exact steady_of_proc rfl
  · have hp : (k.proc p).Live := by simp [Proc.Live, hrunnable]
    have hbefore : Steady strict k k1 := by
      obtain rfl | ⟨mgr, pass, heap, rfl⟩ := hk1
      · exact steady_of_proc rfl
      · exact steady_update_of_eq rfl rfl rfl
    exact hbefore.trans (steady_execution ((hbefore p).live.mpr hp) h)

theorem steady_setCpuShare {cur : Slot} {percent r : Int}
    (h : k.setCpuShare cur percent = .ok (k', r)) : Steady strict k k' := by
  obtain ⟨rfl, -⟩ | ⟨hgrants, -⟩ := setCpuShare_effect h
  · exact .refl _
  · intro i
    by_cases hi : i = cur
    · subst hi
      rw [hgrants.same]
      exact .of_residue Iff.rfl Iff.rfl id rfl
    · rw [hgrants.others i hi]
      exact .refl _

theorem steady_notify {cur : Slot}
    (hmanager : strict → ∀ m, (k.proc cur).manager = some m → (k.proc cur).tid ≠ 0 →
      (k.proc m).state ≠ .unused) (h : k.notify cur = .ok k') : Steady strict k k' := by
  unfold notify at h
  split at h
  · cases Except.ok.inj h
    exact steady_wakeup1 _ _
  · rename_i htid
    obtain ⟨mgr, hderef, rfl⟩ := map_eq_ok.mp h
    refine (steady_modify k mgr _ ?_).trans (steady_wakeup1 _ _)
    refine ⟨Iff.rfl, Iff.rfl, Iff.rfl, rfl, rfl, fun _ => rfl, fun hs hunused => ?_, fun _ => rfl,
      fun hs => ⟨hs, rfl, rfl⟩⟩
    exact absurd hunused (hmanager hs mgr (deref_eq_ok hderef) htid)

end

end Kernel

end Xv6

import Xv6.Group.Whole
import Xv6.Proc.Steady

/-! What an action does to a single slot: it is left alone, taken back, put to sleep, ended,
or taken for a new process, which may fail half way. -/
namespace Xv6

open Word Fallible

namespace Proc

/-- `exit`, `thread_join` or `wait` takes a slot back. The first two also forget the group,
which `wait` leaves as it is. -/
structure Vacated (strict : Prop) (p q : Proc) : Prop where
  before : p.state = .zombie
  after : q.state = .unused
  parent : q.parent = none
  killed : strict → q.killed = false
  ofile : q.ofile = p.ofile
  group : q.manager = none ∧ q.tid = 0 ∨
    q.manager = p.manager ∧ q.tid = p.tid ∧ p.parent ≠ none

structure Ended (p q : Proc) : Prop where
  state : q.state = .zombie
  parent : q.parent = none ↔ p.parent = none
  manager : q.manager = p.manager
  tid : q.tid = p.tid
  ofile : q.ofile = fun _ => none

structure Abandoned (p q : Proc) : Prop where
  before : p.state = .unused
  after : q.state = .unused
  parent : q.parent = p.parent
  killed : q.killed = p.killed

structure Untouched (p q : Proc) : Prop extends Abandoned p q where
  manager : q.manager = p.manager
  tid : q.tid = 0
  ofile : q.ofile = p.ofile

/-- A new process, which is marked killed if its slot was. -/
structure Born (manager : Option Slot) (tid : Int) (p q : Proc) : Prop where
  before : p.state = .unused
  state : q.state = .runnable
  killed : q.killed = p.killed
  manager : q.manager = manager
  tid : q.tid = tid

inductive Swept (strict : Prop) (p q : Proc) : Prop where
  | steady (h : Steady strict p q)
  | vacated (h : Vacated strict p q)

section

variable {strict : Prop} {p q r : Proc}

theorem not_live_of_zombie (h : p.state = .zombie) : ¬ p.Live := fun hlive => hlive.2 h

theorem Steady.vacated (h : Steady strict p q) (h' : Vacated strict q r) : Vacated strict p r := by
  have hzombie := h.zombie.mp h'.before
  refine ⟨hzombie, h'.after, h'.parent, h'.killed,
    h'.ofile.trans (h.files (not_live_of_zombie hzombie)), h'.group.imp_right ?_⟩
  rintro ⟨hmanager, htid, hparent⟩
  exact ⟨hmanager.trans h.manager, htid.trans h.tid, mt h.parent.mpr hparent⟩

theorem Vacated.steady (h : Vacated strict p q) (h' : Steady strict q r) : Vacated strict p r := by
  refine ⟨h.before, h'.unused.mpr h.after, h'.parent.mpr h.parent, fun hs => ?_,
    (h'.files fun hlive => hlive.1 h.after).trans h.ofile, ?_⟩
  · rw [h'.spared hs h.after]
    exact h.killed hs
  · rw [h'.manager, h'.tid]
    exact h.group

theorem Swept.trans (h : Swept strict p q) (h' : Swept strict q r) : Swept strict p r := by
  cases h with
  | steady h =>
    cases h' with
    | steady h' => exact .steady (h.trans h')
    | vacated h' => exact .vacated (h.vacated h')
  | vacated h =>
    cases h' with
    | steady h' => exact .vacated (h.steady h')
    | vacated h' =>
      have hzombie := h'.before
      rw [h.after] at hzombie
      cases hzombie

theorem Swept.of_live (h : Swept strict p q) (hp : p.Live) : Steady strict p q := by
  cases h with
  | steady h => exact h
  | vacated h => exact absurd h.before hp.2

theorem Steady.ended (h : Steady strict p q) (h' : Ended q r) : Ended p r :=
  ⟨h'.state, h'.parent.trans h.parent, h'.manager.trans h.manager, h'.tid.trans h.tid, h'.ofile⟩

theorem steady_reparent (p : Proc) (old new : Slot) :
    Steady strict p (Kernel.reparent old new p) := by
  unfold Kernel.reparent
  split
  · rename_i hparent
    exact ⟨Iff.rfl, Iff.rfl, by simp [hparent], rfl, rfl, id, fun _ _ => rfl, fun _ => rfl,
      fun hs => ⟨hs, rfl, rfl⟩⟩
  · exact .refl p

end

end Proc

namespace Kernel

section

variable {strict : Prop} {k k' : Kernel}

def Swept (strict : Prop) (k k' : Kernel) : Prop :=
  ∀ i, Proc.Swept strict (k.proc i) (k'.proc i)

theorem Steady.swept (h : Steady strict k k') : Swept strict k k' := fun i => .steady (h i)

theorem Swept.trans {k'' : Kernel} (h : Swept strict k k') (h' : Swept strict k' k'') :
    Swept strict k k'' :=
  fun i => (h i).trans (h' i)

theorem Swept.not_sleeping (h : Swept strict k k') {i : Slot}
    (hi : (k.proc i).state = .running) : (k'.proc i).state ≠ .sleeping := by
  intro hs
  have hsteady := (h i).of_live (by simp [Proc.Live, hi])
  have hasleep := (hsteady.asleep hs).1
  rw [hi] at hasleep
  cases hasleep

theorem swept_modify (k : Kernel) (slot : Slot) (f : Proc → Proc)
    (h : Proc.Vacated strict (k.proc slot) (f (k.proc slot))) :
    Swept strict k (k.modify slot f) := by
  intro i
  rw [modify_proc]
  split
  · rename_i hi
    rw [hi]
    exact .vacated h
  · exact .steady (.refl _)

theorem swept_reap {mgr p : Slot} {pushed : Bool} (hp : (k.proc p).state = .zombie)
    (h : k.reap mgr p = .ok (k', pushed)) : Swept strict k k' := by
  obtain ⟨d, -, h⟩ := bind_eq_ok.mp h
  obtain ⟨⟨s, result⟩, -, h⟩ := bind_eq_ok.mp h
  have hcleared : Swept strict k (((k.setFree (k.free + 1)).modify p reapFields).setSpace d s) :=
    (swept_modify (k.setFree (k.free + 1)) p reapFields
      ⟨hp, rfl, rfl, fun _ => rfl, rfl, .inl ⟨rfl, rfl⟩⟩).trans (steady_of_proc rfl).swept
  dsimp only at h
  split at h
  · cases Except.ok.inj h
    exact hcleared
  split at h
  · cases h
  · cases Except.ok.inj h
    exact hcleared.trans (steady_modify_of_eq _ mgr _ rfl rfl).swept

def Unclaimed (k : Kernel) : Prop :=
  ∀ i, (k.proc i).state = .unused ∨ (k.proc i).parent ≠ none → (k.proc i).manager = none

theorem Swept.unclaimed (h : Swept strict k k') (hk : k.Unclaimed) : k'.Unclaimed := by
  intro i hi
  cases h i with
  | steady h =>
    rw [h.manager]
    exact hk i (hi.imp h.unused.mp (mt h.parent.mpr))
  | vacated h =>
    rcases h.group with ⟨hmanager, -⟩ | ⟨hmanager, -, hparent⟩
    · exact hmanager
    · exact hmanager.trans (hk i (.inr hparent))

theorem swept_sweepOne {mgr p : Slot} {lwp : Option Slot} {go : Bool}
    (hfree : strict → k.Unclaimed) (h : k.sweepOne mgr lwp p = .ok (k', go)) :
    Swept strict k k' := by
  obtain rfl | ⟨hmanager, -, rfl⟩ | ⟨-, hzombie, hreap⟩ := sweepOne_shape h
  · exact (Steady.refl k').swept
  · refine (steady_modify k p _ (Proc.steady_wake fun hs hunused => ?_)).swept
    rw [hfree hs p (.inl hunused)] at hmanager
    cases hmanager
  · exact swept_reap hzombie hreap

theorem swept_sweep {mgr : Slot} {lwp : Option Slot} {go : Bool} {rest : List Slot}
    (hfree : strict → k.Unclaimed) (h : sweep mgr lwp rest k = .ok (k', go)) :
    Swept strict k k' := by
  refine sweep_invariant (fun k1 => Swept strict k k1) (fun k1 p k2 go hk1 hone => ?_) rest
    (Steady.refl k).swept h
  exact hk1.trans (swept_sweepOne (fun hs => hk1.unclaimed (hfree hs)) hone)

theorem swept_exitBegin {cur : Slot} {go : Bool} (hfree : strict → k.Unclaimed)
    (h : k.exitBegin cur = .ok (k', go)) : Swept strict k k' := by
  obtain ⟨heap, tickets, rfl | ⟨mgr, lwp, hsweep⟩⟩ := exitBegin_shape h
  · exact (steady_of_proc rfl).swept
  · have hsame : Swept strict k { k with heap := heap, strideTickets := tickets } :=
      (steady_of_proc rfl).swept
    exact hsame.trans (swept_sweep hfree hsweep)

theorem steady_awake (k : Kernel) (slot : Slot) (h : (k.proc slot).state ≠ .sleeping) :
    Steady strict k (k.awake slot) :=
  steady_modify k slot _ ⟨Iff.rfl, Iff.rfl, Iff.rfl, rfl, rfl, id, fun _ _ => rfl, fun _ => rfl,
    fun hs => absurd hs h⟩

theorem steady_setContext (k : Kernel) (slot : Slot) (context : Context)
    (h : (k.proc slot).state ≠ .sleeping) :
    Steady strict k (k.modify slot fun p => { p with context := context }) :=
  steady_modify k slot _ ⟨Iff.rfl, Iff.rfl, Iff.rfl, rfl, rfl, id, fun _ _ => rfl, fun _ => rfl,
    fun hs => absurd hs h⟩

theorem steady_passChildren (k : Kernel) (cur : Slot) : Steady strict k (k.passChildren cur) := by
  have hpassed : Steady strict k
      { k with proc := fun slot => reparent cur k.initproc (k.proc slot) } :=
    fun i => Proc.steady_reparent (k.proc i) cur k.initproc
  unfold passChildren
  dsimp only
  split
  · exact hpassed.trans (steady_wakeup1 _ _)
  · exact hpassed

structure Ends (strict : Prop) (k k' : Kernel) (cur : Slot) : Prop where
  ended : Proc.Ended (k.proc cur) (k'.proc cur)
  others : ∀ i, i ≠ cur → Proc.Steady strict (k.proc i) (k'.proc i)

theorem ends_of_steady {k1 : Kernel} {cur : Slot} (h : Steady strict k k1)
    (hofile : (k1.proc cur).ofile = fun _ => none) :
    Ends strict k ((k1.modify cur fun p => { p with state := .zombie }).sched cur) cur := by
  refine ⟨?_, fun i hi => ?_⟩
  · simp only [sched, modify_proc_same]
    exact (h cur).ended ⟨rfl, Iff.rfl, rfl, rfl, hofile⟩
  · simp only [sched, modify_proc_ne _ _ hi]
    exact h i

theorem wakeup1_ofile (k : Kernel) (chan : Option Chan) (i : Slot) :
    ((k.wakeup1 chan).proc i).ofile = (k.proc i).ofile := by
  simp only [wakeup1]
  split <;> rfl

theorem notify_ofile {cur : Slot} (h : k.notify cur = .ok k') (i : Slot) :
    (k'.proc i).ofile = (k.proc i).ofile := by
  obtain ⟨slot, killed, chan, rfl⟩ := notify_shape h
  rw [wakeup1_ofile, modify_proc]
  split
  · rename_i hi
    rw [hi]
  · rfl

theorem passChildren_ofile (k : Kernel) (cur i : Slot) :
    ((k.passChildren cur).proc i).ofile = (k.proc i).ofile := by
  have hreparent : ∀ p, (reparent cur k.initproc p).ofile = p.ofile := by
    intro p
    unfold reparent
    split <;> rfl
  unfold passChildren
  dsimp only
  split
  · rw [wakeup1_ofile]
    exact hreparent _
  · exact hreparent _

theorem exitEnd_ends {cur : Slot} (hcur : (k.proc cur).Live)
    (hmanager : strict → ∀ m, (k.proc cur).manager = some m → (k.proc cur).tid ≠ 0 →
      (k.proc m).state ≠ .unused) (h : k.exitEnd cur = .ok k') : Ends strict k k' cur := by
  obtain ⟨k1, hclose, h⟩ := bind_eq_ok.mp h
  obtain ⟨k2, hnotify, h⟩ := bind_eq_ok.mp h
  cases Except.ok.inj h
  have hclosed : Steady strict k k1 := steady_closeFiles hcur hclose
  have hnotified : Steady strict k1 k2 := by
    refine steady_notify (fun hs m hm htid hunused => ?_) hnotify
    rw [(hclosed cur).manager] at hm
    rw [(hclosed cur).tid] at htid
    exact hmanager hs m hm htid ((hclosed m).unused.mp hunused)
  refine ends_of_steady ((hclosed.trans hnotified).trans (steady_passChildren k2 cur)) ?_
  rw [passChildren_ofile, notify_ofile hnotify, closeFiles_ofile hclose]

theorem threadExit_ends {cur : Slot} {retval : Nat} {a : Answer} (hcur : (k.proc cur).Live)
    (h : k.threadExit cur retval = .ok (k', a)) :
    k' = k ∧ a = .returned 0 ∨ Ends strict k k' cur ∧ a = .gone := by
  unfold threadExit at h
  split at h
  · cases h
  split at h
  · cases Except.ok.inj h
    exact .inl ⟨rfl, rfl⟩
  · obtain ⟨k1, hclose, h⟩ := bind_eq_ok.mp h
    cases Except.ok.inj h
    have hvalue : Steady strict k1 (k1.modify cur fun p => { p with retval := retval }) :=
      steady_modify_of_eq k1 cur _ rfl rfl
    refine .inr ⟨ends_of_steady
      (((steady_closeFiles hcur hclose).trans hvalue).trans (steady_wakeup1 _ _)) ?_, rfl⟩
    rw [wakeup1_ofile, modify_proc_same, closeFiles_ofile hclose]

theorem wait_turn {cur : Slot} {a : Answer} (hcur : (k.proc cur).state = .running)
    (h : k.wait cur = .ok (k', a)) :
    Swept strict k k' ∨ (k.proc cur).killed = false ∧
      k' = (k.modify cur fun q => { q with context := .wait }).sleep cur (.proc cur) := by
  unfold wait at h
  split at h
  · rename_i p hfind
    have hchild : (k.proc p).parent = some cur ∧ (k.proc p).state = .zombie := by
      simpa using findSlot_some hfind
    split at h
    · rename_i d _
      obtain ⟨left, -, h⟩ := bind_eq_ok.mp h
      cases Except.ok.inj h
      have hvacated : Swept strict k
          (modify { k with free := left + 1, freed := insert d k.freed } p waitFields) :=
        swept_modify { k with free := left + 1, freed := insert d k.freed } p waitFields
          ⟨hchild.2, rfl, rfl, fun _ => rfl, rfl, .inr ⟨rfl, rfl, by simp [hchild.1]⟩⟩
      exact .inl (hvacated.trans (steady_setContext _ cur _ (hvacated.not_sleeping hcur)).swept)
    · cases h
  · split at h
    · cases Except.ok.inj h
      exact .inl (steady_setContext k cur _ (by simp [hcur])).swept
    · rename_i hgo
      cases Except.ok.inj h
      exact .inr ⟨by simpa using (not_or.mp hgo).2, rfl⟩

theorem threadJoin_turn {cur : Slot} {thread : Int} {out : Joined}
    (hcur : (k.proc cur).state = .running) (h : k.threadJoin cur thread = .ok (k', out)) :
    Swept strict k k' ∨ (k.proc cur).killed = false ∧
      (∃ z, (k.proc z).manager = some cur ∧ (k.proc z).tid = thread ∧
        (k.proc z).state ≠ .zombie) ∧
      k' = (k.modify cur fun q => { q with context := .join thread }).sleep cur (.proc cur) := by
  unfold threadJoin at h
  split at h
  · cases Except.ok.inj h
    exact .inl (Steady.refl k).swept
  split at h
  · rename_i p hfind
    have hp : (k.proc p).manager = some cur ∧ (k.proc p).tid = thread ∧
        (k.proc p).state = .zombie := by
      simpa using findSlot_some hfind
    obtain ⟨⟨k1, pushed⟩, hreap, h⟩ := bind_eq_ok.mp h
    cases Except.ok.inj h
    have hswept : Swept strict k k1 := swept_reap hp.2.2 hreap
    exact .inl (hswept.trans (steady_setContext _ cur _ (hswept.not_sleeping hcur)).swept)
  · rename_i hnone
    split at h
    · cases Except.ok.inj h
      exact .inl (steady_setContext k cur _ (by simp [hcur])).swept
    · rename_i hgo
      cases Except.ok.inj h
      obtain ⟨hsome, hkilled⟩ := not_or.mp hgo
      obtain ⟨z, hz⟩ := Option.ne_none_iff_exists'.mp hsome
      have hmatch : (k.proc z).manager = some cur ∧ (k.proc z).tid = thread := by
        simpa using findSlot_some hz
      refine .inr ⟨by simpa using hkilled, ⟨z, hmatch.1, hmatch.2, fun hzombie => ?_⟩, rfl⟩
      have hnot := findSlot_none hnone z
      simp [hmatch, hzombie] at hnot

theorem killed_modify (k : Kernel) (slot : Slot) (f : Proc → Proc)
    (h : (f (k.proc slot)).killed = (k.proc slot).killed) (i : Slot) :
    ((k.modify slot f).proc i).killed = (k.proc i).killed := by
  rw [modify_proc]
  split
  · rename_i hi
    rw [hi, h]
  · rfl

theorem killed_dupFiles {src dst : Slot} (h : k.dupFiles src dst = .ok k') (i : Slot) :
    (k'.proc i).killed = (k.proc i).killed := by
  obtain ⟨ofile, cwd, fileRef, inodeRef, rfl⟩ := dupFiles_shape h
  exact killed_modify { k with fileRef := fileRef, inodeRef := inodeRef } dst
    (fun p => { p with ofile := ofile, cwd := cwd }) rfl i

theorem killed_takeStack (k : Kernel) (mgr i : Slot) :
    ((k.takeStack mgr).1.proc i).killed = (k.proc i).killed := by
  unfold takeStack
  split
  · dsimp only
    refine killed_modify k mgr _ ?_ i
    simp only
  · dsimp only
    refine killed_modify k mgr _ ?_ i
    rfl

theorem killed_mapStack {np : Slot} {base : Nat} {ok : Bool}
    (h : k.mapStack np base = .ok (k', ok)) (i : Slot) :
    (k'.proc i).killed = (k.proc i).killed := by
  obtain ⟨d, s, sz, rfl⟩ := mapStack_shape h
  exact killed_modify (k.setSpace d s) np (fun p => { p with sz := sz }) rfl i

theorem Taken.live {np : Slot} (h : Taken k k' np) : (k'.proc np).Live := by
  rw [h.proc]
  exact ⟨by simp [allocFields], by simp [allocFields]⟩

def Spares (strict : Prop) (k k' : Kernel) (np : Slot) : Prop :=
  ∀ i, i ≠ np → Proc.Steady strict (k.proc i) (k'.proc i)

theorem Spares.refl (k : Kernel) (np : Slot) : Spares strict k k np := fun _ _ => .refl _

theorem Taken.spares {np : Slot} (h : Taken k k' np) : Spares strict k k' np := by
  intro i hi
  rw [h.others i hi]
  exact .refl _

theorem Spares.steady {k1 : Kernel} {np : Slot} (h : Spares strict k k1 np)
    (h' : Steady strict k1 k') : Spares strict k k' np :=
  fun i hi => (h i hi).trans (h' i)

theorem Spares.of_proc {k1 : Kernel} {np : Slot} (h : Spares strict k k1 np)
    (hproc : k'.proc = k1.proc) : Spares strict k k' np :=
  h.steady (steady_of_proc hproc)

theorem Spares.modify {np : Slot} (h : Spares strict k k' np) (f : Proc → Proc) :
    Spares strict k (k'.modify np f) np := by
  intro i hi
  rw [modify_proc_ne _ _ hi]
  exact h i hi

theorem Spares.abandon {np : Slot} (h : Spares strict k k' np) :
    Spares strict k (k'.abandon np) np :=
  @Spares.modify strict k (k'.setFree (k'.free + 1)) np (h.of_proc rfl) _

theorem allocproc_none_turn (h : k.allocproc = (k', none)) :
    k' = k ∨ ∃ np, Spares strict k k' np ∧ Proc.Untouched (k.proc np) (k'.proc np) := by
  unfold allocproc at h
  split at h
  · cases h
    exact .inl rfl
  · rename_i np hfind
    have hstate : (k.proc np).state = .unused := by simpa using findSlot_some hfind
    dsimp only at h
    split at h
    · cases h
      refine .inr ⟨np, fun i hi => ?_, ?_⟩
      · simp only [modify_proc_ne _ _ hi]
        exact .refl _
      · simp only [modify_proc_same]
        exact ⟨⟨hstate, rfl, rfl, rfl⟩, rfl, rfl, rfl⟩
    · cases h

theorem Taken.abandon {k0 k1 : Kernel} {np : Slot} (h : Taken k k0 np)
    (hproc : (k1.proc np).residue = (k0.proc np).residue) :
    Proc.Untouched (k.proc np) ((k1.abandon np).proc np) := by
  have hmanager := congrArg Proc.Residue.manager hproc
  have hparent := congrArg Proc.Residue.parent hproc
  have hkilled := congrArg Proc.Residue.killed hproc
  have htid := congrArg Proc.Residue.tid hproc
  have hofile := congrArg Proc.Residue.ofile hproc
  rw [h.proc] at hmanager hparent hkilled htid hofile
  simp only [Kernel.abandon, modify_proc_same]
  exact ⟨⟨h.spawning.before, rfl, hparent, hkilled⟩, hmanager, htid, hofile⟩

theorem fork_turn {cur : Slot} {r : Int} (h : k.fork cur = .ok (k', r)) :
    k' = k ∨ ∃ np, Spares strict k k' np ∧ (Proc.Untouched (k.proc np) (k'.proc np) ∨
      Proc.Born (k.proc np).manager 0 (k.proc np) (k'.proc np)) := by
  unfold fork at h
  split at h
  · rename_i k0 halloc
    cases Except.ok.inj h
    obtain rfl | ⟨np, hspares, huntouched⟩ := allocproc_none_turn halloc
    · exact .inl rfl
    · exact .inr ⟨np, hspares, .inl huntouched⟩
  · rename_i k0 np halloc
    have taken := taken_of_allocproc halloc
    right
    refine ⟨np, ?_⟩
    obtain ⟨mgr?, -, h⟩ := bind_eq_ok.mp h
    cases mgr? with
    | none =>
      cases Except.ok.inj h
      exact ⟨taken.spares.abandon, .inl (taken.abandon rfl)⟩
    | some mgr =>
      obtain ⟨d, -, h⟩ := bind_eq_ok.mp h
      obtain ⟨⟨pages, left⟩, -, h⟩ := bind_eq_ok.mp h
      cases pages with
      | none =>
        cases Except.ok.inj h
        have hspares : Spares strict k (k0.setFree left) np := taken.spares.of_proc rfl
        refine ⟨(hspares.modify _).abandon, .inl (taken.abandon ?_)⟩
        rw [modify_proc_same]
        rfl
      | some pages =>
        obtain ⟨k1, hdup, h⟩ := bind_eq_ok.mp h
        cases Except.ok.inj h
        have hspares : Spares strict k (k0.addDir pages left) np := taken.spares.of_proc rfl
        have hlive : (((k0.addDir pages left).modify np fun p =>
            { p with pgdir := some k0.nextdir, sz := (k0.proc mgr).sz, parent := some cur,
                     tf := { (k0.proc cur).tf with eax := 0 } }).proc np).Live := by
          rw [modify_proc_same]
          exact taken.live
        have hdups : Steady strict _ k1 := steady_dupFiles hlive hdup
        refine ⟨((hspares.modify _).steady hdups).modify _, .inr ?_⟩
        have hkilled := killed_dupFiles hdup np
        have hmanager := (hdups np).manager
        have htid := (hdups np).tid
        rw [modify_proc_same] at hkilled hmanager htid ⊢
        simp only [addDir, taken.proc, allocFields] at hkilled hmanager htid
        exact ⟨taken.spawning.before, rfl, hkilled, hmanager, htid⟩

def stackStart (k : Kernel) (mgr : Slot) : Nat :=
  pgroundup ((k.proc mgr).stack.head?.getD (k.proc mgr).sz)

/-- Two pages at `stackStart` lie below `KERNBASE`, and there are frames for them after one
has gone to the kernel stack. -/
def StackRoom (k : Kernel) (mgr : Slot) : Prop :=
  0 < k.free → (k.findSlot fun _ p => p.state = .unused) ≠ none →
    k.stackStart mgr + 2 * pgsize < kernbase ∧
    1 + framesNeeded (k.groupDir mgr) (k.stackStart mgr / pgsize)
      (k.stackStart mgr / pgsize + 2) ≤ k.free

instance (k : Kernel) (mgr : Slot) : Decidable (k.StackRoom mgr) :=
  inferInstanceAs (Decidable (_ → _ → _ ∧ _))

theorem copyout_top {dir : PageDir} {b : Nat} {copied : Bool} (hbelow : b + 2 < kernpage)
    (hpage : b + 1 ∈ dir.pages) (hguard : b + 1 ∉ dir.guards)
    (h : copyout dir (u32OfInt (((b + 2) * pgsize : Nat) - 2 * 4)) (2 * 4) = .ok copied) :
    copied = true := by
  have hva : u32OfInt (((b + 2) * pgsize : Nat) - 2 * 4) = (b + 1) * pgsize + (pgsize - 8) := by
    simp only [kernpage, pgsize] at *
    rw [u32OfInt_eq (by omega) (by omega)]
    omega
  have huser : dir.User (b + 1) := ⟨by omega, hpage, hguard⟩
  have hpos : ((b + 1) * pgsize + (pgsize - 8)) / pgsize = b + 1 := by
    simp only [pgsize]
    omega
  have hoff : (((b + 1) * pgsize + (pgsize - 8)) % pgsize + 2 * 4 + (pgsize - 1)) / pgsize = 1 := by
    simp only [pgsize]
    omega
  unfold copyout at h
  rw [hva, hpos, hoff] at h
  unfold copyoutLoop at h
  split at h
  · cases h
  · exact (Except.ok.inj h).symm

theorem mapStack_fits {np : Slot} {base : Nat} {d : DirId} {ok : Bool}
    (hd : (k.proc np).pgdir = some d) (hbelow : pgroundup base + 2 * pgsize < kernbase)
    (hframes : framesNeeded (k.dir d) (pgroundup base / pgsize) (pgroundup base / pgsize + 2) ≤
      k.free) (h : k.mapStack np base = .ok (k', ok)) : ok = true := by
  obtain ⟨b, hb⟩ : ∃ b, pgroundup base = b * pgsize := ⟨_, rfl⟩
  obtain ⟨d', hderef, h⟩ := bind_eq_ok.mp h
  have hsame := deref_eq_ok hderef
  rw [hd] at hsame
  cases hsame
  obtain ⟨⟨s, result⟩, halloc, h⟩ := bind_eq_ok.mp h
  have hmul : (b + 2) * pgsize = pgroundup base + 2 * pgsize := by rw [hb, Nat.add_mul]
  rw [← hmul] at hbelow
  have hkern : b + 2 < kernpage := by
    simp only [pgsize, kernbase, kernpage] at *
    omega
  have hsize : pagesOf (pgroundup base) = b := by
    rw [hb]
    exact pagesOf_mul b (by omega)
  have hstop : pagesOf ((b + 2) * pgsize) = b + 2 := pagesOf_mul (b + 2) hbelow.le
  have hstart : pgroundup base / pgsize = b := by
    rw [hb]
    exact Nat.mul_div_cancel b (by decide)
  have halloc : allocuvm (k.space d) (pgroundup base) ((b + 2) * pgsize) = .ok (s, result) := by
    rw [← u32_eq_self (hbelow.trans (by decide)), hmul]
    exact halloc
  rw [hstart] at hframes
  obtain ⟨rfl, huser⟩ :=
    allocuvm_fits (by omega) hbelow (by rw [hsize, hstop]; exact hframes) halloc
  obtain ⟨hpage, hguard⟩ := huser (b + 1) (by omega) (mul_pgsize_lt.mpr (by omega))
  dsimp only at h
  rw [if_neg (by simp only [pgsize]; omega)] at h
  obtain ⟨s1, hclear, h⟩ := bind_eq_ok.mp h
  obtain ⟨copied, hcopied, h⟩ := bind_eq_ok.mp h
  cases Except.ok.inj h
  have hlow : u32OfInt (((b + 2) * pgsize : Nat) - 2 * pgsize) / pgsize = b := by
    simp only [pgsize, kernpage] at *
    rw [u32OfInt_eq (by omega) (by omega)]
    omega
  rw [hlow] at hclear
  refine copyout_top hkern ?_ (fun hmem => ?_) hcopied
  · rw [(clearpteu_pages hclear).1]
    exact hpage
  · rcases Finset.mem_insert.mp (clearpteu_guards hclear hmem) with heq | hmem
    · omega
    · exact hguard hmem

theorem stackStart_eq {mgr : Slot} {l : Layout} (hl : k.layout mgr = some l) :
    pgroundup l.stackBase = k.stackStart mgr := by
  obtain ⟨-, hsz, hstack, -, -, -⟩ := layout_eq_some hl
  unfold stackStart Layout.stackBase
  rw [hsz, hstack]
  cases l.stack <;> rfl

theorem Taken.stack_fits {k0 k1 k2 : Kernel} {mgr np : Slot} {ok : Bool} (h : Taken k k0 np)
    (hmgr : (k.proc mgr).state ≠ .unused) (hroom : k.StackRoom mgr)
    (hdup : (k0.linkLwp mgr np).dupFiles mgr np = .ok k1)
    (hmap : (k1.takeStack mgr).1.mapStack np (k1.takeStack mgr).2 = .ok (k2, ok)) :
    ok = true := by
  have hl : k.layout mgr = some _ := Proc.layout_used hmgr
  obtain ⟨hdir, hfree, hne, hlayout⟩ := h.linked hl hdup
  have hl1 : k1.layout mgr = k.layout mgr := by rw [hlayout, Function.update_of_ne hne]
  obtain ⟨hbase, htaken⟩ := takeStack_layout (hl1.trans hl)
  obtain ⟨hdirs, hfrees⟩ := takeStack_frame k1 mgr
  obtain ⟨hbelow, hframes⟩ := hroom (by have hfree := h.free; omega) (by simp [h.found])
  have hnp : (k1.takeStack mgr).1.layout np = some ⟨(k.proc np).sz, [], (k.proc mgr).nexttid,
      some mgr, (k.proc mgr).pgdir⟩ := by
    rw [htaken, Function.update_of_ne hne.symm, hlayout, Function.update_self]
  obtain ⟨-, -, -, -, -, hpgdir⟩ := layout_eq_some hnp
  obtain ⟨d, hd, -⟩ := bind_eq_ok.mp hmap
  have hd := deref_eq_ok hd
  have hgroup : k.groupDir mgr = k.dir d := by
    have hpgdir : (k.proc mgr).pgdir = some d := hpgdir.symm.trans hd
    unfold groupDir
    rw [hpgdir]
    rfl
  rw [← stackStart_eq hl, ← hbase] at hbelow hframes
  refine mapStack_fits hd hbelow ?_ hmap
  rw [hdirs, hfrees, hdir, hfree, ← hgroup]
  omega

theorem threadCreate_turn {cur : Slot} {start : Nat} {out : Created} (hcur : (k.proc cur).Live)
    (h : k.threadCreate cur start = .ok (k', out)) :
    k' = k ∨ ∃ np, Spares strict k k' np ∧ (Proc.Untouched (k.proc np) (k'.proc np) ∨
      ∃ mgr, k.manager? cur = .ok (some mgr) ∧
        (Proc.Born (some mgr) (if mgr = np then 1 else (k.proc mgr).nexttid) (k.proc np)
            (k'.proc np) ∨
          Proc.Abandoned (k.proc np) (k'.proc np) ∧
            ((k.proc mgr).state ≠ .unused → ¬ k.StackRoom mgr))) := by
  unfold threadCreate at h
  split at h
  · rename_i k0 halloc
    cases Except.ok.inj h
    obtain rfl | ⟨np, hspares, huntouched⟩ := allocproc_none_turn halloc
    · exact .inl rfl
    · exact .inr ⟨np, hspares, .inl huntouched⟩
  · rename_i k0 np halloc
    have taken := taken_of_allocproc halloc
    right
    refine ⟨np, ?_⟩
    obtain ⟨mgr?, hmgr, h⟩ := bind_eq_ok.mp h
    rw [taken.manager? hcur] at hmgr
    cases mgr? with
    | none =>
      cases Except.ok.inj h
      exact ⟨taken.spares.abandon, .inl (taken.abandon rfl)⟩
    | some mgr =>
      obtain ⟨k1, hdup, h⟩ := bind_eq_ok.mp h
      obtain ⟨⟨k2, ok⟩, hmap, h⟩ := bind_eq_ok.mp h
      have hmap : (k1.takeStack mgr).1.mapStack np (k1.takeStack mgr).2 = .ok (k2, ok) := hmap
      have hlinked : Spares strict k (k0.linkLwp mgr np) np := by
        unfold linkLwp
        exact ((taken.spares.modify _).steady (steady_modify_of_eq _ mgr _ rfl rfl)).modify _
      have hlive : ((k0.linkLwp mgr np).proc np).Live := by
        rw [linkLwp_proc]
        exact taken.live
      have hsteady : Steady strict (k0.linkLwp mgr np) k2 :=
        ((steady_dupFiles hlive hdup).trans (steady_takeStack _ _)).trans (steady_mapStack hmap)
      have hkilled : (k2.proc np).killed = (k.proc np).killed := by
        rw [killed_mapStack hmap, killed_takeStack, killed_dupFiles hdup, linkLwp_proc, taken.proc]
        rfl
      cases ok with
      | false =>
        cases Except.ok.inj h
        refine ⟨(hlinked.steady hsteady).abandon, .inr ⟨mgr, hmgr, .inr ⟨?_, ?_⟩⟩⟩
        · have hparent : (k2.proc np).parent = (k.proc np).parent := by
            rw [(kin_mapStack hmap np).parent, (kin_takeStack k1 mgr np).parent,
              (kin_dupFiles hdup np).parent, linkLwp_proc, taken.proc]
            rfl
          simp only [abandon, modify_proc_same]
          exact ⟨taken.spawning.before, rfl, hparent, hkilled⟩
        · intro hused hroom
          exact Bool.false_ne_true (taken.stack_fits hused hroom hdup hmap)
      | true =>
        cases Except.ok.inj h
        refine ⟨(hlinked.steady hsteady).modify _, .inr ⟨mgr, hmgr, .inl ?_⟩⟩
        have hmanager := (hsteady np).manager
        have htid := (hsteady np).tid
        rw [linkLwp_proc] at hmanager htid
        rw [modify_proc_same]
        refine ⟨taken.spawning.before, rfl, hkilled, hmanager, htid.trans ?_⟩
        by_cases hnp : mgr = np
        · subst hnp
          simp [taken.proc, allocFields]
        · simp [hnp, taken.others mgr hnp]

/-- `kill`, and `exit` of an LWP at its end, mark a slot only while it is in use. -/
def Spared (k : Kernel) : Act → Prop
  | .kill _ pid => ∀ i, (k.findSlot fun _ p => p.pid = pid) = some i → (k.proc i).state ≠ .unused
  | .exit p | .exitEnd p =>
      ∀ m, (k.proc p).manager = some m → (k.proc p).tid ≠ 0 → (k.proc m).state ≠ .unused
  | _ => True

instance (k : Kernel) : (a : Act) → Decidable (k.Spared a)
  | .kill .. | .exit _ | .exitEnd _ => inferInstanceAs (Decidable (∀ _, _))
  | .visit .. | .yield _ | .sleepOn .. | .wakeup _ | .charge .. | .fork _ | .exec .. | .sbrk ..
  | .wait _ | .resumeWait _ | .threadCreate .. | .threadExit .. | .threadJoin .. | .resumeJoin _
  | .exitBegin _ | .setCpuShare .. => inferInstanceAs (Decidable True)

/-- What keeps an action from marking a free slot. -/
structure Sparing (k : Kernel) (a : Act) : Prop where
  unclaimed : k.Unclaimed
  own : ∀ i, (k.proc i).manager ≠ some i
  spared : k.Spared a

inductive Nap (k : Kernel) (a : Act) (i : Slot) (q : Proc) : Prop where
  | on (chan : Chan) (ha : a = .sleepOn i chan)
      (hq : q = { k.proc i with chan := some chan, state := .sleeping })
  | wait (ha : a = .wait i ∨ a = .resumeWait i) (hkilled : (k.proc i).killed = false)
      (hq : q = { k.proc i with context := .wait, chan := some (.proc i), state := .sleeping })
  | join (thread : Int) (z : Slot) (ha : a = .threadJoin i thread ∨ a = .resumeJoin i)
      (hkilled : (k.proc i).killed = false) (hmanager : (k.proc z).manager = some i)
      (htid : (k.proc z).tid = thread) (hzombie : (k.proc z).state ≠ .zombie)
      (hq : q = { k.proc i with
        context := .join thread, chan := some (.proc i), state := .sleeping })

inductive Turn (strict : Prop) (k : Kernel) (a : Act) (out : Out) (i : Slot) (q : Proc) : Prop where
  | steady (h : Proc.Steady strict (k.proc i) q)
  | vacated (h : Proc.Vacated strict (k.proc i) q)
  | slept (hlive : (k.proc i).Live) (h : Nap k a i q)
  | ended (hlive : (k.proc i).Live) (h : Proc.Ended (k.proc i) q)
      (ha : (∃ retval, a = .threadExit i retval ∧ out = .answer .gone) ∨ leaver a out = some i)
  | untouched (h : Proc.Untouched (k.proc i) q)
  | forked (cur : Slot) (ha : a = .fork cur)
      (h : Proc.Born (k.proc i).manager 0 (k.proc i) q)
  | created (cur mgr : Slot) (start : Nat) (ha : a = .threadCreate cur start)
      (hmgr : k.manager? cur = .ok (some mgr))
      (h : Proc.Born (some mgr) (if mgr = i then 1 else (k.proc mgr).nexttid) (k.proc i) q)
  | spoiled (cur mgr : Slot) (start : Nat) (ha : a = .threadCreate cur start)
      (hmgr : k.manager? cur = .ok (some mgr)) (h : Proc.Abandoned (k.proc i) q)
      (hroom : (k.proc mgr).state ≠ .unused → ¬ k.StackRoom mgr)

variable {a : Act} {out : Out}

theorem Nap.same {i : Slot} {q : Proc} (h : Nap k a i q) :
    q.state = .sleeping ∧ q.manager = (k.proc i).manager ∧ q.tid = (k.proc i).tid ∧
      q.killed = (k.proc i).killed := by
  cases h with
  | on chan _ hq => rw [hq]; exact ⟨rfl, rfl, rfl, rfl⟩
  | wait _ _ hq => rw [hq]; exact ⟨rfl, rfl, rfl, rfl⟩
  | join _ _ _ _ _ _ _ hq => rw [hq]; exact ⟨rfl, rfl, rfl, rfl⟩

theorem Swept.turn (h : Swept strict k k') (i : Slot) : Turn strict k a out i (k'.proc i) := by
  cases h i with
  | steady h => exact .steady h
  | vacated h => exact .vacated h

theorem Spares.turn {np : Slot} (h : Spares strict k k' np)
    (hnp : Turn strict k a out np (k'.proc np)) (i : Slot) :
    Turn strict k a out i (k'.proc i) := by
  by_cases hi : i = np
  · rw [hi]
    exact hnp
  · exact .steady (h i hi)

theorem Ends.spares {cur : Slot} (h : Ends strict k k' cur) : Spares strict k k' cur := h.others

theorem Spares.nap {k1 : Kernel} {p : Slot} {chan : Chan} (h : Spares strict k k1 p)
    (hlive : (k.proc p).Live)
    (hnap : Nap k a p { k1.proc p with chan := some chan, state := .sleeping }) (i : Slot) :
    Turn strict k a out i ((k1.sleep p chan).proc i) := by
  have hspares : Spares strict k (k1.sleep p chan) p :=
    (h.modify fun p => { p with chan := some chan, state := .sleeping }).of_proc rfl
  refine hspares.turn (.slept hlive ?_) i
  simp only [sleep, sched, modify_proc_same]
  exact hnap

theorem exitBegin_tid {cur : Slot} (h : k.exitBegin cur = .ok (k', true)) :
    0 ≤ (k.proc cur).tid := by
  unfold exitBegin at h
  split at h
  · cases h
  obtain ⟨k1, hshare, h⟩ := bind_eq_ok.mp h
  rw [(returnShare_proc hshare).1] at h
  split at h
  · omega
  split at h
  · omega
  · cases h

theorem manager_left {cur : Slot} (hsparing : k.Sparing (.exit cur))
    (hlive : (k.proc cur).Live) (h : k.exitBegin cur = .ok (k', true)) (m : Slot)
    (hm : (k'.proc cur).manager = some m) (htid : (k'.proc cur).tid ≠ 0) :
    (k'.proc m).state ≠ .unused := by
  have hswept : Swept True k k' := swept_exitBegin (fun _ => hsparing.unclaimed) h
  have hcur := (hswept cur).of_live hlive
  rw [hcur.manager] at hm
  rw [hcur.tid] at htid
  have hused := hsparing.spared m hm htid
  have hpositive : 0 < (k.proc cur).tid := by
    have hnonneg := exitBegin_tid h
    omega
  intro hunused
  cases hswept m with
  | steady hsteady => exact hused (hsteady.unused.mp hunused)
  | vacated hvacated =>
    have hreaped := (exitBegin_leaves h).reaped m hvacated.before hunused
    unfold swept at hreaped
    rw [if_pos hpositive, hm] at hreaped
    exact hsparing.own m hreaped

theorem perform_turn (henabled : k.Enabled a) (hstrict : strict → k.Sparing a)
    (hstep : k.perform a = .ok (k', out)) (i : Slot) : Turn strict k a out i (k'.proc i) := by
  have hsteady : Steady strict k k' → Turn strict k a out i (k'.proc i) :=
    fun hsteady => .steady (hsteady i)
  have hunclaimed : strict → k.Unclaimed := fun hs => (hstrict hs).unclaimed
  cases performs hstep with
  | visit h => exact hsteady (steady_visit h)
  | yield p =>
    have hp : (k.proc p).state = .running := henabled
    exact hsteady (steady_yield k p ⟨by simp [hp], by simp [hp]⟩)
  | sleepOn p chan =>
    exact (Spares.refl k p).nap (henabled.elim At.live At.live) (.on chan rfl rfl) i
  | wakeup chan => exact hsteady (steady_wakeup1 k _)
  | charge p level ticks runtime => exact hsteady (steady_modify_of_eq k p _ rfl rfl)
  | kill p pid => exact hsteady (steady_kill k pid fun hs => (hstrict hs).spared)
  | @fork p _ _ hfork =>
    obtain rfl | ⟨np, hspares, huntouched | hborn⟩ := @fork_turn strict _ _ _ _ hfork
    · exact hsteady (.refl _)
    · exact hspares.turn (.untouched huntouched) i
    · exact hspares.turn (.forked p rfl hborn) i
  | exec h => exact hsteady (steady_exec (fun hs i hi => hunclaimed hs i (.inl hi)) h)
  | sbrk h => exact hsteady (steady_growproc h)
  | @wait p _ _ hwait =>
    obtain hswept | ⟨hkilled, rfl⟩ := @wait_turn strict _ _ _ _ henabled.1 hwait
    · exact hswept.turn i
    · refine ((Spares.refl k p).modify _).nap (At.live henabled) (.wait (.inl rfl) hkilled ?_) i
      rw [modify_proc_same]
  | @resumeWait p _ _ hwait =>
    have hawake : Steady strict k (k.awake p) := steady_awake k p (by simp [henabled.1])
    have hp : ((k.awake p).proc p).state = .running := by simp [awake, henabled.1]
    obtain hswept | ⟨hkilled, rfl⟩ := @wait_turn strict _ _ _ _ hp hwait
    · exact (hawake.swept.trans hswept).turn i
    · refine (((Spares.refl k p).modify _).modify _).nap (At.live henabled)
        (.wait (.inr rfl) ?_ ?_) i
      · simpa [awake] using hkilled
      · simp
  | @threadCreate p start _ _ hcreate =>
    obtain rfl | ⟨np, hspares, hnp⟩ :=
      @threadCreate_turn strict _ _ _ _ _ (At.live henabled) hcreate
    · exact hsteady (.refl _)
    · refine hspares.turn ?_ i
      obtain huntouched | ⟨mgr, hmgr, hborn | ⟨habandoned, hroom⟩⟩ := hnp
      · exact .untouched huntouched
      · exact .created p mgr start rfl hmgr hborn
      · exact .spoiled p mgr start rfl hmgr habandoned hroom
  | @threadExit p retval _ _ hexit =>
    obtain ⟨rfl, -⟩ | ⟨hends, rfl⟩ := @threadExit_ends strict _ _ _ _ _ (At.live henabled) hexit
    · exact hsteady (.refl _)
    · exact hends.spares.turn (.ended (At.live henabled) hends.ended (.inl ⟨retval, rfl, rfl⟩)) i
  | @threadJoin p thread _ _ hjoin =>
    obtain hswept | ⟨hkilled, ⟨z, hmanager, htid, hzombie⟩, rfl⟩ :=
      @threadJoin_turn strict _ _ _ _ _ henabled.1 hjoin
    · exact hswept.turn i
    · refine ((Spares.refl k p).modify _).nap (At.live henabled)
        (.join thread z (.inl rfl) hkilled hmanager htid hzombie ?_) i
      rw [modify_proc_same]
  | @resumeJoin p _ _ hjoin =>
    have hlive : (k.proc p).Live := by simp [Proc.Live, henabled.1]
    have hawake : Steady strict k (k.awake p) := steady_awake k p (by simp [henabled.1])
    have hp : ((k.awake p).proc p).state = .running := by simp [awake, henabled.1]
    obtain hswept | ⟨hkilled, ⟨z, hmanager, htid, hzombie⟩, rfl⟩ :=
      @threadJoin_turn strict _ _ _ _ _ hp hjoin
    · exact (hawake.swept.trans hswept).turn i
    · rw [(hawake z).manager] at hmanager
      rw [(hawake z).tid] at htid
      refine (((Spares.refl k p).modify _).modify _).nap hlive
        (.join _ z (.inr rfl) ?_ hmanager htid (mt (hawake z).zombie.mpr hzombie) ?_) i
      · simpa [awake] using hkilled
      · simp
  | exitStays h => exact (swept_exitBegin hunclaimed h).turn i
  | @exits p left _ hbegin hend =>
    have hswept : Swept strict k left := swept_exitBegin hunclaimed hbegin
    have hbefore := (hswept p).of_live (At.live henabled)
    have hends : Ends strict left _ p := exitEnd_ends (hbefore.live.mpr (At.live henabled))
      (fun hs => manager_left (hstrict hs) (At.live henabled) hbegin) hend
    by_cases hi : i = p
    · subst hi
      exact .ended (At.live henabled) (hbefore.ended hends.ended) (.inr rfl)
    · cases (hswept i).trans (.steady (hends.others i hi)) with
      | steady h => exact .steady h
      | vacated h => exact .vacated h
  | exitReturns h => exact (swept_exitBegin hunclaimed h).turn i
  | @exitBegin p left h =>
    have hswept : Swept strict k left := swept_exitBegin hunclaimed h
    have hawake := hswept.not_sleeping henabled.1
    exact (hswept.trans (steady_setContext left p .exit hawake).swept).turn i
  | @exitEnd p _ hend =>
    have hends : Ends strict k k' p :=
      exitEnd_ends (At.live henabled) (fun hs => (hstrict hs).spared) hend
    exact hends.spares.turn (.ended (At.live henabled) hends.ended (.inr rfl)) i
  | setCpuShare h => exact hsteady (steady_setCpuShare h)

end

end Kernel

end Xv6

import Xv6.Group.Parents
import Xv6.Group.Turn

/-! What a slot that has been given back keeps of its last process. `allocproc` sets neither
`killed` nor `manager`, `parent` or `ofile`, so that it relies on whoever frees a slot. -/
namespace Xv6

open Fallible Transition

abbrev nfile : Nat := 100

namespace Proc

structure Labelled (i : Slot) (p : Proc) : Prop where
  free : p.state = .unused → p.manager = none
  own : p.manager ≠ some i
  lwp : p.manager ≠ none ∧ 0 < p.tid ∨ p.manager = none ∧ p.tid = 0

variable {i : Slot} {p q : Proc}

theorem Labelled.of_same (h : Labelled i p) (hmanager : q.manager = p.manager)
    (htid : q.tid = p.tid) (hfree : q.state = .unused → q.manager = none) : Labelled i q := by
  refine ⟨hfree, ?_, ?_⟩
  · rw [hmanager]
    exact h.own
  · rw [hmanager, htid]
    exact h.lwp

theorem labelled_of_none (hmanager : q.manager = none) (htid : q.tid = 0) : Labelled i q :=
  ⟨fun _ => hmanager, by simp [hmanager], .inr ⟨hmanager, htid⟩⟩

theorem Steady.labelled {strict : Prop} (h : Steady strict p q) (hp : Labelled i p) :
    Labelled i q :=
  hp.of_same h.manager h.tid fun hfree => h.manager.trans (hp.free (h.unused.mp hfree))

end Proc

namespace Kernel

def filealloc (k : Kernel) : Kernel × Option FileId :=
  match (List.range nfile).find? fun f => k.fileRef f = 0 with
  | none => (k, none)
  | some f => (k.setFileRef f 1, some f)

def fdalloc (k : Kernel) (p : Slot) (f : FileId) : Kernel × Option (Fin nofile) :=
  match (List.finRange nofile).find? fun fd => (k.proc p).ofile fd = none with
  | none => (k, none)
  | some fd =>
      (k.modify p fun q => { q with ofile := Function.update q.ofile fd (some f) }, some fd)

/-- `sys_open` once it has its inode; `sys_pipe` does this twice. -/
def sysOpen (k : Kernel) (p : Slot) : Except Fault (Kernel × Int) :=
  match k.filealloc with
  | (k, none) => .ok (k, -1)
  | (k, some f) =>
      match k.fdalloc p f with
      | (k, none) => (k.fileclose f).map fun k => (k, -1)
      | (k, some fd) => .ok (k, fd)

def sysDup (k : Kernel) (p : Slot) (fd : Fin nofile) : Except Fault (Kernel × Int) :=
  match (k.proc p).ofile fd with
  | none => .ok (k, -1)
  | some f =>
      match k.fdalloc p f with
      | (k, none) => .ok (k, -1)
      | (k, some new) => (k.filedup f).map fun k => (k, new)

def sysClose (k : Kernel) (p : Slot) (fd : Fin nofile) : Except Fault (Kernel × Int) :=
  match (k.proc p).ofile fd with
  | none => .ok (k, -1)
  | some f =>
      ((k.modify p fun q => { q with ofile := Function.update q.ofile fd none }).fileclose f).map
        fun k => (k, 0)

inductive Call where
  | kernel (a : Act)
  | sysOpen (p : Slot)
  | sysDup (p : Slot) (fd : Fin nofile)
  | sysClose (p : Slot) (fd : Fin nofile)

def Ready (k : Kernel) : Call → Prop
  | .kernel a => k.Enabled a
  | .sysOpen p | .sysDup p _ | .sysClose p _ => k.At p .user

instance (k : Kernel) : (c : Call) → Decidable (k.Ready c)
  | .kernel _ => inferInstanceAs (Decidable (Enabled _ _))
  | .sysOpen _ | .sysDup .. | .sysClose .. => inferInstanceAs (Decidable (At _ _ _))

def call (k : Kernel) : Call → Except Fault (Kernel × Out)
  | .kernel a => k.perform a
  | .sysOpen p => (k.sysOpen p).map fun r => (r.1, .ret r.2)
  | .sysDup p fd => (k.sysDup p fd).map fun r => (r.1, .ret r.2)
  | .sysClose p fd => (k.sysClose p fd).map fun r => (r.1, .ret r.2)

/-- What `allocproc` hands out is clean, and the LWPs are the slots with a manager. -/
structure Recycled (k : Kernel) : Prop where
  clean : ∀ k' np, k.allocproc = (k', some np) → (k'.proc np).killed = false ∧
    (k'.proc np).manager = none ∧ (k'.proc np).parent = none ∧
    (k'.proc np).ofile = fun _ => none
  lwps : ∀ i, (k.proc i).manager ≠ none ↔ 0 < (k.proc i).tid

/-- `thread_create` finds the manager in use, with a handle to give, and room for the stack. -/
def Provided (k : Kernel) : Act → Prop
  | .threadCreate p _ => ∀ m, k.manager? p = .ok (some m) →
      (k.proc m).state ≠ .unused ∧ 0 < (k.proc m).nexttid ∧ k.StackRoom m
  | _ => True

instance (k : Kernel) : (a : Act) → Decidable (k.Provided a)
  | .threadCreate .. => inferInstanceAs (Decidable (∀ _, _))
  | .exit _ | .exitBegin _ | .wait _ | .resumeWait _ | .threadJoin .. | .resumeJoin _ | .exec ..
  | .visit .. | .yield _ | .sleepOn .. | .wakeup _ | .charge .. | .kill .. | .fork _ | .sbrk ..
  | .exitEnd _ | .setCpuShare .. | .threadExit .. => inferInstanceAs (Decidable True)

/-- The action marks no free slot, and a thread it creates gets through. -/
def Careful (k : Kernel) : Call → Prop
  | .kernel a => k.Enabled a ∧ k.Spared a ∧ k.Provided a
  | c => k.Ready c

instance (k : Kernel) : (c : Call) → Decidable (k.Careful c)
  | .kernel _ => inferInstanceAs (Decidable (_ ∧ _ ∧ _))
  | .sysOpen _ | .sysDup .. | .sysClose .. => inferInstanceAs (Decidable (At _ _ _))

structure Labelled (k : Kernel) : Prop where
  fatherless : k.Fatherless
  slots : ∀ i, Proc.Labelled i (k.proc i)

theorem Labelled.unclaimed {k : Kernel} (h : k.Labelled) : k.Unclaimed := by
  intro i hi
  rcases hi with hfree | hparent
  · exact (h.slots i).free hfree
  · rcases (h.slots i).lwp with ⟨-, htid⟩ | ⟨hmanager, -⟩
    · exact absurd (h.fatherless i (.inr (by omega))) hparent
    · exact hmanager

theorem labelled_boot (free : Nat) : (boot free).Labelled := by
  refine ⟨fatherless_boot free, fun i => ?_⟩
  have hlabel : ((boot free).proc i).manager = none ∧ ((boot free).proc i).tid = 0 := by
    by_cases hi : i = 0
    · subst hi
      simp [boot, Proc.zero]
    · simp [boot, hi, Proc.zero]
  exact ⟨fun _ => hlabel.1, by simp [hlabel.1], .inr hlabel⟩

section

variable {strict : Prop} {k k' : Kernel} {a : Act} {out : Out}

theorem Steady.labelled (h : Steady strict k k') (hk : k.Labelled) : k'.Labelled := by
  refine ⟨fun i hi => ?_, fun i => (h i).labelled (hk.slots i)⟩
  rw [(h i).tid] at hi
  exact (h i).parent.mpr (hk.fatherless i (hi.imp_left (h i).unused.mp))

theorem Turn.labelled {i : Slot} {q : Proc} (h : Turn strict k a out i q) (hk : k.Labelled)
    (hprovided : k.Provided a) : Proc.Labelled i q := by
  have hi := hk.slots i
  -- a slot that was free has no manager to keep
  have hfresh : (k.proc i).state = .unused → q.manager = (k.proc i).manager → q.tid = 0 →
      Proc.Labelled i q := fun hfree hmanager htid =>
    Proc.labelled_of_none (hmanager.trans (hi.free hfree)) htid
  cases h with
  | steady h => exact h.labelled hi
  | vacated h =>
    rcases h.group with ⟨hmanager, htid⟩ | ⟨hmanager, htid, hparent⟩
    · exact Proc.labelled_of_none hmanager htid
    · exact hi.of_same hmanager htid fun _ => hmanager.trans (hk.unclaimed i (.inr hparent))
  | slept hlive h =>
    obtain ⟨hstate, hmanager, htid, -⟩ := h.same
    exact hi.of_same hmanager htid (by simp [hstate])
  | ended hlive h _ => exact hi.of_same h.manager h.tid (by simp [h.state])
  | untouched h => exact hfresh h.before h.manager h.tid
  | forked cur _ h => exact hfresh h.before h.manager h.tid
  | created cur mgr start ha hmgr h =>
    subst ha
    obtain ⟨hused, hnexttid, -⟩ := hprovided mgr hmgr
    have hne : mgr ≠ i := by
      rintro rfl
      exact hused h.before
    have htid := h.tid
    rw [if_neg hne] at htid
    refine ⟨by simp [h.state], ?_, .inl ⟨by simp [h.manager], htid ▸ hnexttid⟩⟩
    rw [h.manager]
    simpa using hne
  | spoiled cur mgr start ha hmgr _ hroom =>
    subst ha
    obtain ⟨hused, -, hfits⟩ := hprovided mgr hmgr
    exact absurd hfits (hroom hused)

theorem Labelled.step (hk : k.Labelled) (henabled : k.Enabled a) (hprovided : k.Provided a)
    (hstep : k.perform a = .ok (k', out)) : k'.Labelled :=
  ⟨(perform_effect henabled hstep).fatherless henabled hk.fatherless,
    fun i => (@perform_turn False _ _ _ _ henabled (nomatch ·) hstep i).labelled hk hprovided⟩

theorem Labelled.sparing (hk : k.Labelled) (hspared : k.Spared a) : k.Sparing a :=
  ⟨hk.unclaimed, fun i => (hk.slots i).own, hspared⟩

/-- A free slot is not marked, and without a process there are no open files. -/
structure Tidy (k : Kernel) : Prop where
  labelled : k.Labelled
  killed : ∀ i, (k.proc i).state = .unused → (k.proc i).killed = false
  ofile : ∀ i, ¬ (k.proc i).Live → (k.proc i).ofile = fun _ => none

theorem tidy_boot (free : Nat) : (boot free).Tidy := by
  refine ⟨labelled_boot free, fun i _ => ?_, fun i _ => ?_⟩
  · by_cases hi : i = 0
    · subst hi
      rfl
    · simp [boot, hi, Proc.zero]
  · by_cases hi : i = 0
    · subst hi
      rfl
    · simp [boot, hi, Proc.zero]

theorem Tidy.steady (hk : k.Tidy) (h : Steady True k k') : k'.Tidy := by
  refine ⟨h.labelled hk.labelled, fun i hfree => ?_, fun i hdead => ?_⟩
  · have hbefore := (h i).unused.mp hfree
    rw [(h i).spared trivial hbefore]
    exact hk.killed i hbefore
  · have hbefore := mt (h i).live.mpr hdead
    rw [(h i).files hbefore]
    exact hk.ofile i hbefore

theorem Tidy.step (hk : k.Tidy) (henabled : k.Enabled a) (hspared : k.Spared a)
    (hprovided : k.Provided a) (hstep : k.perform a = .ok (k', out)) : k'.Tidy := by
  have hturn := @perform_turn True _ _ _ _ henabled (fun _ => hk.labelled.sparing hspared) hstep
  refine ⟨hk.labelled.step henabled hprovided hstep, fun i hfree => ?_, fun i hdead => ?_⟩
  · cases hturn i with
    | steady h =>
      have hbefore := h.unused.mp hfree
      rw [h.spared trivial hbefore]
      exact hk.killed i hbefore
    | vacated h => exact h.killed trivial
    | slept _ h => simp [h.same.1] at hfree
    | ended _ h _ => simp [h.state] at hfree
    | untouched h => exact h.killed.trans (hk.killed i h.before)
    | forked cur _ h => simp [h.state] at hfree
    | created cur mgr start _ _ h => simp [h.state] at hfree
    | spoiled cur mgr start _ _ h _ => exact h.killed.trans (hk.killed i h.before)
  · cases hturn i with
    | steady h =>
      have hbefore := mt h.live.mpr hdead
      rw [h.files hbefore]
      exact hk.ofile i hbefore
    | vacated h => exact h.ofile.trans (hk.ofile i (Proc.not_live_of_zombie h.before))
    | slept _ h => simp [Proc.Live, h.same.1] at hdead
    | ended _ h _ => exact h.ofile
    | untouched h => exact h.ofile.trans (hk.ofile i fun hlive => hlive.1 h.before)
    | forked cur _ h => simp [Proc.Live, h.state] at hdead
    | created cur mgr start _ _ h => simp [Proc.Live, h.state] at hdead
    | spoiled cur mgr start ha hmgr _ hroom =>
      subst ha
      obtain ⟨hused, -, hfits⟩ := hprovided mgr hmgr
      exact absurd hfits (hroom hused)

theorem steady_ofile {k1 : Kernel} {p : Slot} (hp : (k.proc p).Live) (hproc : k1.proc = k.proc)
    (ofile : (Fin nofile → Option FileId) → Fin nofile → Option FileId) :
    Steady strict k (k1.modify p fun q => { q with ofile := ofile q.ofile }) :=
  (steady_of_proc hproc).trans (steady_files (hproc ▸ hp) rfl rfl rfl)

theorem steady_fdalloc {p : Slot} {f : FileId} {fd : Option (Fin nofile)}
    (hp : (k.proc p).Live) (h : k.fdalloc p f = (k', fd)) : Steady strict k k' := by
  unfold fdalloc at h
  split at h
  · cases h
    exact .refl k
  · rename_i new _
    cases h
    exact steady_ofile hp rfl fun ofile => Function.update ofile new (some f)

theorem steady_fileclose {f : FileId} (h : k.fileclose f = .ok k') : Steady strict k k' := by
  unfold fileclose at h
  split at h
  · cases h
  · cases Except.ok.inj h
    exact steady_of_proc rfl

theorem steady_filealloc {f : Option FileId} (h : k.filealloc = (k', f)) : Steady strict k k' := by
  unfold filealloc at h
  split at h
  · cases h
    exact .refl k
  · cases h
    exact steady_of_proc rfl

theorem steady_sysOpen {p : Slot} {r : Int} (hp : (k.proc p).Live)
    (h : k.sysOpen p = .ok (k', r)) : Steady strict k k' := by
  unfold sysOpen at h
  split at h
  · rename_i k1 halloc
    cases Except.ok.inj h
    exact steady_filealloc halloc
  · rename_i k1 f halloc
    have hfile : Steady strict k k1 := steady_filealloc halloc
    have hp1 := (hfile p).live.mpr hp
    split at h
    · rename_i k2 hfd
      obtain ⟨k3, hclose, heq⟩ := map_eq_ok.mp h
      cases heq
      exact (hfile.trans (steady_fdalloc hp1 hfd)).trans (steady_fileclose hclose)
    · rename_i k2 fd hfd
      cases Except.ok.inj h
      exact hfile.trans (steady_fdalloc hp1 hfd)

theorem steady_sysDup {p : Slot} {fd : Fin nofile} {r : Int} (hp : (k.proc p).Live)
    (h : k.sysDup p fd = .ok (k', r)) : Steady strict k k' := by
  unfold sysDup at h
  split at h
  · cases Except.ok.inj h
    exact .refl k
  · split at h
    · rename_i k1 hfd
      cases Except.ok.inj h
      exact steady_fdalloc hp hfd
    · rename_i k1 new hfd
      obtain ⟨k2, hdup, heq⟩ := map_eq_ok.mp h
      cases heq
      refine (steady_fdalloc hp hfd).trans ?_
      unfold filedup at hdup
      split at hdup
      · cases hdup
      · cases Except.ok.inj hdup
        exact steady_of_proc rfl

theorem steady_sysClose {p : Slot} {fd : Fin nofile} {r : Int} (hp : (k.proc p).Live)
    (h : k.sysClose p fd = .ok (k', r)) : Steady strict k k' := by
  unfold sysClose at h
  split at h
  · cases Except.ok.inj h
    exact .refl k
  · obtain ⟨k1, hclose, heq⟩ := map_eq_ok.mp h
    cases heq
    exact (steady_ofile hp rfl fun ofile => Function.update ofile fd none).trans
      (steady_fileclose hclose)

theorem Tidy.call {c : Call} (hk : k.Tidy) (hcareful : k.Careful c)
    (hstep : k.call c = .ok (k', out)) : k'.Tidy := by
  cases c with
  | kernel a => exact hk.step hcareful.1 hcareful.2.1 hcareful.2.2 hstep
  | sysOpen p =>
    obtain ⟨⟨k1, r⟩, hopen, heq⟩ := map_eq_ok.mp hstep
    cases heq
    exact hk.steady (steady_sysOpen (At.live hcareful) hopen)
  | sysDup p fd =>
    obtain ⟨⟨k1, r⟩, hdup, heq⟩ := map_eq_ok.mp hstep
    cases heq
    exact hk.steady (steady_sysDup (At.live hcareful) hdup)
  | sysClose p fd =>
    obtain ⟨⟨k1, r⟩, hclose, heq⟩ := map_eq_ok.mp hstep
    cases heq
    exact hk.steady (steady_sysClose (At.live hcareful) hclose)

theorem Tidy.recycled (hk : k.Tidy) : k.Recycled := by
  refine ⟨fun k' np halloc => ?_, fun i => ?_⟩
  · have taken := taken_of_allocproc halloc
    have hfree := taken.spawning.before
    rw [taken.proc]
    exact ⟨hk.killed np hfree, (hk.labelled.slots np).free hfree,
      hk.labelled.fatherless np (.inl hfree), hk.ofile np fun hlive => hlive.1 hfree⟩
  · rcases (hk.labelled.slots i).lwp with ⟨hmanager, htid⟩ | ⟨hmanager, htid⟩
    · exact iff_of_true hmanager htid
    · exact iff_of_false (not_not.mpr hmanager) (by omega)

/-- As long as no free slot is marked killed and every thread that is created gets through,
`allocproc` hands out clean slots. -/
theorem slots_recycled (free : Nat) (h : Reaches call Careful (boot free) k) : k.Recycled :=
  Tidy.recycled (h.invariant Tidy (tidy_boot free)
    fun _ _ _ _ hk hcareful hstep => hk.call hcareful hstep)

end

/-- A process with a file and an LWP that has ended, and is killed then, exits and is reaped; the
next `fork` takes its slot. -/
theorem slots_recycled_reaped : ∃ k, Reaches call Careful (boot 1000) k ∧
    ((k.proc 1).state = .runnable ∧ (k.proc 1).parent = some 0 ∧ (k.proc 1).pid = 4) ∧
    k.Recycled := by
  obtain ⟨k, hreach, htest⟩ := exists_reaches call Careful (boot 1000)
    [.kernel (.visit 0 0), .kernel (.fork 0), .kernel (.yield 0), .kernel (.visit 0 1),
      .sysOpen 1, .kernel (.threadCreate 1 5), .kernel (.yield 1), .kernel (.visit 0 2),
      .kernel (.threadExit 2 7), .kernel (.visit 0 1), .kernel (.kill 1 3), .sysDup 1 0,
      .sysClose 1 0, .kernel (.exit 1), .kernel (.visit 0 0), .kernel (.wait 0),
      .kernel (.fork 0)]
    (fun k => (k.proc 1).state = .runnable ∧ (k.proc 1).parent = some 0 ∧ (k.proc 1).pid = 4)
    (by decide +kernel)
  exact ⟨k, hreach, of_decide_eq_true htest, slots_recycled 1000 hreach⟩

/-- `kill(0)` marks the first free slot. A `thread_create` that finds no frames for the stack
leaves its manager and a file in one. An LWP that outlives its manager marks the slot of the
manager after `wait` has given it back. -/
theorem slots_dirty :
    (∃ k, Reaches call Ready (boot 100) k ∧
      (k.allocproc.2 = some 1 ∧ (k.allocproc.1.proc 1).killed = true) ∧ ¬ k.Recycled) ∧
    (∃ k, Reaches call Ready (boot 2) k ∧
      (k.allocproc.2 = some 1 ∧ (k.allocproc.1.proc 1).manager = some 0 ∧
        (k.allocproc.1.proc 1).ofile 0 = some 0) ∧ ¬ k.Recycled) ∧
    ∃ k, Reaches call Ready (boot 1000) k ∧
      (k.allocproc.2 = some 1 ∧ (k.allocproc.1.proc 1).killed = true) ∧ ¬ k.Recycled := by
  have halloc : ∀ {k : Kernel}, k.Recycled → k.allocproc.2 = some 1 →
      (k.allocproc.1.proc 1).killed = false ∧ (k.allocproc.1.proc 1).manager = none := by
    intro k hk h
    obtain ⟨hkilled, hmanager, -⟩ := hk.clean k.allocproc.1 1 (Prod.ext rfl h)
    exact ⟨hkilled, hmanager⟩
  refine ⟨?_, ?_, ?_⟩
  · obtain ⟨k, hreach, htest⟩ := exists_reaches call Ready (boot 100)
      [.kernel (.visit 0 0), .kernel (.kill 0 0)]
      (fun k => k.allocproc.2 = some 1 ∧ (k.allocproc.1.proc 1).killed = true) (by decide +kernel)
    have hdirty := of_decide_eq_true htest
    refine ⟨k, hreach, hdirty, fun hk => ?_⟩
    exact Bool.false_ne_true ((halloc hk hdirty.1).1.symm.trans hdirty.2)
  · obtain ⟨k, hreach, htest⟩ := exists_reaches call Ready (boot 2)
      [.kernel (.visit 0 0), .sysOpen 0, .kernel (.threadCreate 0 5)]
      (fun k => k.allocproc.2 = some 1 ∧ (k.allocproc.1.proc 1).manager = some 0 ∧
        (k.allocproc.1.proc 1).ofile 0 = some 0) (by decide +kernel)
    have hdirty := of_decide_eq_true htest
    refine ⟨k, hreach, hdirty, fun hk => ?_⟩
    cases (halloc hk hdirty.1).2.symm.trans hdirty.2.1
  · obtain ⟨k, hreach, htest⟩ := exists_reaches call Ready (boot 1000)
      [.kernel (.visit 0 0), .kernel (.fork 0), .kernel (.yield 0), .kernel (.visit 0 1),
        .kernel (.threadCreate 1 5), .kernel (.exit 1), .kernel (.visit 0 0), .kernel (.wait 0),
        .kernel (.yield 0), .kernel (.visit 0 2), .kernel (.exit 2)]
      (fun k => k.allocproc.2 = some 1 ∧ (k.allocproc.1.proc 1).killed = true) (by decide +kernel)
    have hdirty := of_decide_eq_true htest
    refine ⟨k, hreach, hdirty, fun hk => ?_⟩
    exact Bool.false_ne_true ((halloc hk hdirty.1).1.symm.trans hdirty.2)

end Kernel

end Xv6

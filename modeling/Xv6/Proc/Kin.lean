import Xv6.Proc.Inversion

/-! Parents and kernel stacks, which are outside the frame of `Quiet`. Only `fork` gives a
process its parent, only the second half of `exit` passes children on to `init`, and a slot
in use keeps its kernel stack. -/
namespace Xv6

open Word Fallible

namespace Proc

structure Kin (p q : Proc) : Prop where
  parent : q.parent = p.parent
  kstack : q.kstack = p.kstack

theorem Kin.refl (p : Proc) : Kin p p := ⟨rfl, rfl⟩

theorem Kin.trans {p q r : Proc} (h : Kin p q) (h' : Kin q r) : Kin p r :=
  ⟨h'.parent.trans h.parent, h'.kstack.trans h.kstack⟩

structure SameGroup (p q : Proc) : Prop where
  tid : q.tid = p.tid
  manager : q.manager = p.manager
  pgdir : p.pgdir ≠ none → q.pgdir ≠ none

theorem SameGroup.trans {p q r : Proc} (h : SameGroup p q) (h' : SameGroup q r) : SameGroup p r :=
  ⟨h'.tid.trans h.tid, h'.manager.trans h.manager, h'.pgdir ∘ h.pgdir⟩

end Proc

namespace Kernel

def Kin (k k' : Kernel) : Prop := ∀ i, Proc.Kin (k.proc i) (k'.proc i)

theorem Kin.refl (k : Kernel) : Kin k k := fun _ => .refl _

theorem Kin.trans {k k' k'' : Kernel} (h : Kin k k') (h' : Kin k' k'') : Kin k k'' :=
  fun i => (h i).trans (h' i)

theorem kin_of_proc {k k' : Kernel} (h : k'.proc = k.proc) : Kin k k' := by
  intro i
  rw [h]
  exact .refl _

theorem kin_update {k k' : Kernel} {slot : Slot} {q : Proc}
    (h : k'.proc = Function.update k.proc slot q) (hq : Proc.Kin (k.proc slot) q) : Kin k k' := by
  intro i
  rw [h, Function.update_apply]
  split
  · rename_i hi
    rw [hi]
    exact hq
  · exact .refl _

theorem kin_modify (k : Kernel) (slot : Slot) (f : Proc → Proc)
    (h : Proc.Kin (k.proc slot) (f (k.proc slot))) : Kin k (k.modify slot f) :=
  kin_update rfl h

theorem kin_wakeup1 (k : Kernel) (chan : Option Chan) : Kin k (k.wakeup1 chan) := by
  intro i
  simp only [wakeup1]
  split
  · exact ⟨rfl, rfl⟩
  · exact .refl _

theorem kin_sched (k : Kernel) (slot : Slot) : Kin k (k.sched slot) := kin_of_proc rfl

theorem kin_sleep (k : Kernel) (slot : Slot) (chan : Chan) : Kin k (k.sleep slot chan) := by
  unfold sleep
  exact (kin_modify k slot _ ⟨rfl, rfl⟩).trans (kin_sched _ _)

theorem kin_yield (k : Kernel) (slot : Slot) : Kin k (k.yield slot) := by
  unfold yield
  exact (kin_modify k slot _ ⟨rfl, rfl⟩).trans (kin_sched _ _)

theorem kin_kill (k : Kernel) (pid : Int) : Kin k (k.kill pid).1 := by
  unfold kill
  split
  · exact .refl k
  · dsimp only
    exact kin_modify k _ _ ⟨rfl, rfl⟩

theorem kin_cleanupLwp (k : Kernel) (mgr : Slot) (lwp : Option Slot) :
    Kin k (k.cleanupLwp mgr lwp) := by
  intro i
  simp only [cleanupLwp]
  split
  · exact ⟨rfl, rfl⟩
  · exact .refl _

theorem kin_dupFiles {k k' : Kernel} {src dst : Slot} (h : k.dupFiles src dst = .ok k') :
    Kin k k' := by
  obtain ⟨ofile, cwd, fileRef, inodeRef, rfl⟩ := dupFiles_shape h
  exact kin_update rfl ⟨rfl, rfl⟩

theorem kin_closeFiles {k k' : Kernel} {slot : Slot} (h : k.closeFiles slot = .ok k') :
    Kin k k' := by
  obtain ⟨ofile, cwd, fileRef, inodeRef, rfl⟩ := closeFiles_shape h
  exact kin_update rfl ⟨rfl, rfl⟩

theorem kin_growproc {k k' : Kernel} {cur : Slot} {n r : Int}
    (h : k.growproc cur n = .ok (k', r)) : Kin k k' := by
  obtain ⟨d, s, mgr, sz, rfl⟩ := growproc_shape h
  exact kin_update rfl ⟨rfl, rfl⟩

theorem kin_takeStack (k : Kernel) (mgr : Slot) : Kin k (k.takeStack mgr).1 := by
  unfold takeStack
  split
  · dsimp only
    exact kin_modify k mgr _ ⟨rfl, rfl⟩
  · dsimp only
    exact kin_modify k mgr _ ⟨rfl, rfl⟩

theorem kin_mapStack {k k' : Kernel} {np : Slot} {base : Nat} {ok : Bool}
    (h : k.mapStack np base = .ok (k', ok)) : Kin k k' := by
  obtain ⟨d, s, sz, rfl⟩ := mapStack_shape h
  exact kin_update rfl ⟨rfl, rfl⟩

theorem kin_linkLwp (k : Kernel) (mgr np : Slot) : Kin k (k.linkLwp mgr np) := by
  unfold linkLwp
  dsimp only
  refine Kin.trans (kin_modify k np _ ?_)
    (Kin.trans (kin_modify _ mgr _ ?_) (kin_modify _ np _ ?_)) <;> exact ⟨rfl, rfl⟩

theorem kin_exec {k k' : Kernel} {cur : Slot} {file : Option ElfFile} {argv : List Nat} {r : Int}
    (h : k.exec cur file argv = .ok (k', r)) : Kin k k' := by
  obtain ⟨free, rfl⟩ | ⟨mgr, lwp, s, entry, sz, sp, free, freed, rfl⟩ := exec_shape h
  · exact kin_of_proc rfl
  · exact (kin_cleanupLwp k mgr lwp).trans (kin_update rfl ⟨rfl, rfl⟩)

theorem kin_execution {k k' : Kernel} {c : Fin ncpu} {p : Slot} {how out : Visit}
    (h : k.execution c p how = .ok (k', out)) : Kin k k' := by
  rw [(execution_eq h).1]
  exact kin_update rfl ⟨rfl, rfl⟩

theorem kin_visit {k k' : Kernel} {c : Fin ncpu} {p : Slot} {how : Visit}
    (h : k.visit c p = .ok (k', how)) : Kin k k' := by
  obtain ⟨cpu, rfl⟩ | ⟨-, cpu, k1, how', hk1, h⟩ := visit_shape h
  · exact kin_of_proc rfl
  · refine Kin.trans ?_ (kin_execution h)
    obtain rfl | ⟨mgr, pass, heap, rfl⟩ := hk1
    · exact kin_of_proc rfl
    · exact kin_update rfl ⟨rfl, rfl⟩

theorem kin_setCpuShare {k k' : Kernel} {cur : Slot} {percent r : Int}
    (h : k.setCpuShare cur percent = .ok (k', r)) : Kin k k' := by
  obtain ⟨rfl, -⟩ | ⟨hgrants, -⟩ := setCpuShare_effect h
  · exact .refl _
  · intro i
    by_cases hi : i = cur
    · subst hi
      rw [hgrants.same]
      exact ⟨rfl, rfl⟩
    · rw [hgrants.others i hi]
      exact .refl _

theorem kin_notify {k k' : Kernel} {cur : Slot} (h : k.notify cur = .ok k') : Kin k k' := by
  obtain ⟨slot, killed, chan, rfl⟩ := notify_shape h
  exact (kin_modify k slot _ ⟨rfl, rfl⟩).trans (kin_wakeup1 _ _)

theorem kin_threadExit {k k' : Kernel} {cur : Slot} {retval : Nat} {a : Answer}
    (h : k.threadExit cur retval = .ok (k', a)) : Kin k k' := by
  obtain rfl | ⟨k1, chan, hclose, rfl⟩ := threadExit_shape h
  · exact .refl _
  · refine (kin_closeFiles hclose).trans ((kin_modify k1 cur _ ?_).trans
      ((kin_wakeup1 _ _).trans ((kin_modify _ cur _ ?_).trans (kin_sched _ _)))) <;>
      exact ⟨rfl, rfl⟩

/-- A slot in use afterwards was in use before, with the same parent and kernel stack. -/
def Keeps (k k' : Kernel) : Prop :=
  ∀ i, (k'.proc i).state ≠ .unused →
    (k.proc i).state ≠ .unused ∧ Proc.Kin (k.proc i) (k'.proc i)

theorem Keeps.refl (k : Kernel) : Keeps k k := fun _ h => ⟨h, .refl _⟩

theorem Keeps.trans {k k' k'' : Kernel} (h : Keeps k k') (h' : Keeps k' k'') : Keeps k k'' := by
  intro i hi
  obtain ⟨hused, hkin⟩ := h' i hi
  obtain ⟨hused, hkin'⟩ := h i hused
  exact ⟨hused, hkin'.trans hkin⟩

theorem Kin.keeps {k k' : Kernel} (h : Kin k k') (hquiet : Quiet k k') : Keeps k k' :=
  fun i hi => ⟨fun hunused => hi ((hquiet.proc i).unused.mpr hunused), h i⟩

theorem keeps_modify (k : Kernel) (slot : Slot) (f : Proc → Proc)
    (h : (f (k.proc slot)).state ≠ .unused →
      (k.proc slot).state ≠ .unused ∧ Proc.Kin (k.proc slot) (f (k.proc slot))) :
    Keeps k (k.modify slot f) := by
  intro i hi
  rw [modify_proc] at hi ⊢
  split at hi
  · rename_i heq
    rw [if_pos heq, heq]
    exact h hi
  · rename_i hne
    rw [if_neg hne]
    exact ⟨hi, .refl _⟩

theorem keeps_of_proc {k k' : Kernel} (h : k'.proc = k.proc) : Keeps k k' := by
  intro i hi
  rw [h] at hi ⊢
  exact ⟨hi, .refl _⟩

theorem keeps_sched (k : Kernel) (slot : Slot) : Keeps k (k.sched slot) := keeps_of_proc rfl

theorem keeps_reap {k k' : Kernel} {mgr p : Slot} {pushed : Bool}
    (h : k.reap mgr p = .ok (k', pushed)) : Keeps k k' := by
  obtain ⟨d, -, h⟩ := bind_eq_ok.mp h
  obtain ⟨⟨s, result⟩, -, h⟩ := bind_eq_ok.mp h
  have hcleared : Keeps k (((k.setFree (k.free + 1)).modify p reapFields).setSpace d s) :=
    (keeps_of_proc rfl).trans ((keeps_modify _ p _ fun hused => absurd rfl hused).trans
      (keeps_of_proc rfl))
  dsimp only at h
  split at h
  · cases Except.ok.inj h
    exact hcleared
  split at h
  · cases h
  · cases Except.ok.inj h
    exact hcleared.trans (keeps_modify _ mgr _ fun hused => ⟨hused, rfl, rfl⟩)

theorem keeps_sweep {k k' : Kernel} {mgr : Slot} {lwp : Option Slot} {go : Bool}
    {rest : List Slot} (h : sweep mgr lwp rest k = .ok (k', go)) : Keeps k k' := by
  refine sweep_invariant (Keeps k) (fun k1 p k2 more hkeeps hone => hkeeps.trans ?_) rest
    (.refl k) h
  obtain rfl | ⟨-, -, rfl⟩ | ⟨-, -, hreap⟩ := sweepOne_shape hone
  · exact .refl _
  · exact Kin.keeps (kin_modify k1 p _ ⟨rfl, rfl⟩) (quiet_killed k1 p)
  · exact keeps_reap hreap

theorem keeps_exitBegin {k k' : Kernel} {cur : Slot} {go : Bool}
    (h : k.exitBegin cur = .ok (k', go)) : Keeps k k' := by
  unfold exitBegin at h
  split at h
  · cases h
  obtain ⟨k1, hshare, h⟩ := bind_eq_ok.mp h
  have hsame : Keeps k k1 := keeps_of_proc (returnShare_proc hshare).1
  split at h
  · obtain ⟨mgr, -, h⟩ := bind_eq_ok.mp h
    exact hsame.trans (keeps_sweep h)
  split at h
  · exact hsame.trans (keeps_sweep h)
  · cases Except.ok.inj h
    exact hsame

theorem kin_reparent {p q : Proc} (h : Proc.Kin p q) (old new : Slot) :
    Proc.Kin (reparent old new p) (reparent old new q) := by
  unfold reparent
  rw [h.parent]
  split
  · exact ⟨rfl, h.kstack⟩
  · exact h

theorem exitEnd_kin {k k' : Kernel} {cur : Slot} (h : k.exitEnd cur = .ok k') (i : Slot) :
    Proc.Kin (reparent cur k.initproc (k.proc i)) (k'.proc i) := by
  obtain ⟨k1, hclose, h⟩ := bind_eq_ok.mp h
  obtain ⟨k2, hnotify, h⟩ := bind_eq_ok.mp h
  cases Except.ok.inj h
  have hbefore : Kin k k2 := (kin_closeFiles hclose).trans (kin_notify hnotify)
  have hinit : k2.initproc = k.initproc :=
    ((quiet_closeFiles hclose).trans (quiet_notify hnotify)).shares.initproc
  have hafter : Proc.Kin (reparent cur k.initproc (k2.proc i)) ((k2.passChildren cur).proc i) := by
    unfold passChildren
    rw [hinit]
    dsimp only
    split
    · exact kin_wakeup1 { k2 with proc := fun slot => reparent cur k.initproc (k2.proc slot) } _ i
    · exact .refl _
  have hreparent := kin_reparent (hbefore i) cur k.initproc
  exact (hreparent.trans hafter).trans (((kin_modify _ cur _ ⟨rfl, rfl⟩).trans (kin_sched _ _)) i)

theorem keeps_awake (k : Kernel) (slot : Slot) : Keeps k (k.awake slot) :=
  keeps_modify k slot _ fun hused => ⟨hused, rfl, rfl⟩

theorem keeps_setContext (k : Kernel) (slot : Slot) (context : Context) :
    Keeps k (k.modify slot fun p => { p with context := context }) :=
  keeps_modify k slot _ fun hused => ⟨hused, rfl, rfl⟩

theorem keeps_sleep (k : Kernel) (slot : Slot) (chan : Chan)
    (h : (k.proc slot).state ≠ .unused) : Keeps k (k.sleep slot chan) := by
  unfold sleep
  exact (keeps_modify k slot _ fun _ => ⟨h, rfl, rfl⟩).trans (keeps_sched _ _)

theorem keeps_wait {k k' : Kernel} {cur : Slot} {a : Answer}
    (hcur : (k.proc cur).state ≠ .unused) (h : k.wait cur = .ok (k', a)) : Keeps k k' := by
  unfold wait at h
  split at h
  · rename_i p hfind
    split at h
    · rename_i d hdir
      obtain ⟨left, -, h⟩ := bind_eq_ok.mp h
      cases Except.ok.inj h
      refine Keeps.trans ?_ (keeps_setContext _ cur _)
      exact Keeps.trans (keeps_of_proc rfl) (keeps_modify _ p _ fun hused => absurd rfl hused)
    · cases h
  · split at h
    · cases Except.ok.inj h
      exact keeps_setContext _ cur _
    · cases Except.ok.inj h
      refine (keeps_setContext _ cur _).trans (keeps_sleep _ cur _ ?_)
      simpa using hcur

theorem keeps_threadJoin {k k' : Kernel} {cur : Slot} {thread : Int} {out : Joined}
    (hcur : (k.proc cur).state ≠ .unused) (h : k.threadJoin cur thread = .ok (k', out)) :
    Keeps k k' := by
  unfold threadJoin at h
  split at h
  · cases Except.ok.inj h
    exact .refl k
  split at h
  · obtain ⟨⟨k1, pushed⟩, hreap, h⟩ := bind_eq_ok.mp h
    cases Except.ok.inj h
    exact (keeps_reap hreap).trans (keeps_setContext _ cur _)
  split at h
  · cases Except.ok.inj h
    exact keeps_setContext _ cur _
  · cases Except.ok.inj h
    refine (keeps_setContext _ cur _).trans (keeps_sleep _ cur _ ?_)
    simpa using hcur

/-- Everybody but `np`, a slot that was free, is kept; `np` is free again or has been
given to a process with a kernel stack. -/
structure Spawns (k k' : Kernel) (np : Slot) (parent : Option Slot) : Prop where
  free : (k.proc np).state = .unused
  others : ∀ i, i ≠ np → (k'.proc i).state ≠ .unused →
    (k.proc i).state ≠ .unused ∧ Proc.Kin (k.proc i) (k'.proc i)
  used : (k'.proc np).state ≠ .unused →
    (k'.proc np).kstack = true ∧ (k'.proc np).parent = parent ∧ (k'.proc np).pgdir ≠ none

theorem keeps_of_allocproc_none {k k' : Kernel} (h : k.allocproc = (k', none)) : Keeps k k' := by
  unfold allocproc at h
  split at h
  · cases h
    exact .refl k
  · rename_i np hfind
    dsimp only at h
    split at h
    · cases h
      intro i hi
      by_cases hnp : i = np
      · subst hnp
        simp at hi
      · simp only [modify_proc_ne _ _ hnp] at hi ⊢
        exact ⟨hi, .refl _⟩
    · cases h

theorem Taken.abandons {k k0 k1 : Kernel} {np : Slot} (h : Taken k k0 np) (hkeeps : Keeps k0 k1)
    (parent : Option Slot) : Spawns k (k1.abandon np) np parent := by
  refine ⟨h.spawning.before, fun i hi => ?_, fun hused => absurd ?_ hused⟩
  · simp only [abandon, modify_proc_ne _ _ hi]
    rw [← h.others i hi]
    exact hkeeps i
  · simp [abandon]

theorem fork_spawns {k k' : Kernel} {cur : Slot} {r : Int} (h : k.fork cur = .ok (k', r)) :
    Keeps k k' ∨ ∃ np, Spawns k k' np (some cur) := by
  unfold fork at h
  split at h
  · rename_i k0 halloc
    cases Except.ok.inj h
    exact .inl (keeps_of_allocproc_none halloc)
  · rename_i k0 np halloc
    have taken := taken_of_allocproc halloc
    right
    refine ⟨np, ?_⟩
    obtain ⟨mgr?, -, h⟩ := bind_eq_ok.mp h
    cases mgr? with
    | none =>
      cases Except.ok.inj h
      exact taken.abandons (.refl _) _
    | some mgr =>
      obtain ⟨d, -, h⟩ := bind_eq_ok.mp h
      obtain ⟨⟨pages, left⟩, -, h⟩ := bind_eq_ok.mp h
      cases pages with
      | none =>
        cases Except.ok.inj h
        have hkeeps : Keeps k0 ((k0.setFree left).modify np fun p => { p with pgdir := none }) :=
          keeps_modify (k0.setFree left) np (fun p => { p with pgdir := none })
            fun hused => ⟨hused, rfl, rfl⟩
        exact taken.abandons hkeeps _
      | some pages =>
        obtain ⟨k1, hdup, h⟩ := bind_eq_ok.mp h
        cases Except.ok.inj h
        have hkeeps := (kin_dupFiles hdup).keeps (quiet_dupFiles hdup)
        have hdir := congrArg Identity.pgdir (((quiet_dupFiles hdup).proc np).identity
          (by simp [addDir, taken.proc, allocFields]))
        refine ⟨taken.spawning.before, fun i hi => ?_, fun _ => ?_⟩
        · have hother := hkeeps i
          rw [modify_proc_ne _ _ hi] at hother ⊢
          simp only [addDir, taken.others i hi] at hother
          exact hother
        · have hsame := kin_dupFiles hdup np
          simp only [modify_proc_same, Proc.identity] at hsame hdir ⊢
          refine ⟨hsame.kstack.trans ?_, hsame.parent, ?_⟩
          · simp [addDir, taken.proc]
          · rw [hdir]
            simp

theorem mapStack_pgdir {k k' : Kernel} {np : Slot} {base : Nat} {ok : Bool}
    (h : k.mapStack np base = .ok (k', ok)) : (k'.proc np).pgdir ≠ none := by
  obtain ⟨d, hd, h⟩ := bind_eq_ok.mp h
  obtain ⟨⟨s, result⟩, -, h⟩ := bind_eq_ok.mp h
  have hdir : (((k.setSpace d s).modify np fun p => { p with sz := result }).proc np).pgdir =
      some d := by
    rw [modify_proc_same]
    exact deref_eq_ok hd
  dsimp only at h
  split at h
  · cases Except.ok.inj h
    exact ne_of_eq_of_ne hdir (Option.some_ne_none d)
  · obtain ⟨s', -, h⟩ := bind_eq_ok.mp h
    obtain ⟨copied, -, h⟩ := bind_eq_ok.mp h
    cases Except.ok.inj h
    exact ne_of_eq_of_ne hdir (Option.some_ne_none d)

theorem keeps_linkLwp (k : Kernel) (mgr np : Slot) : Keeps k (k.linkLwp mgr np) := by
  unfold linkLwp
  dsimp only
  refine Keeps.trans (keeps_modify k np _ ?_)
    (Keeps.trans (keeps_modify _ mgr _ ?_) (keeps_modify _ np _ ?_)) <;>
    exact fun hused => ⟨hused, rfl, rfl⟩

theorem threadCreate_spawns {k k' : Kernel} {cur : Slot} {start : Nat} {out : Created}
    (h : k.threadCreate cur start = .ok (k', out)) :
    Keeps k k' ∨ ∃ np, Spawns k k' np (k.proc np).parent := by
  unfold threadCreate at h
  split at h
  · rename_i k0 halloc
    cases Except.ok.inj h
    exact .inl (keeps_of_allocproc_none halloc)
  · rename_i k0 np halloc
    have taken := taken_of_allocproc halloc
    right
    refine ⟨np, ?_⟩
    obtain ⟨mgr?, -, h⟩ := bind_eq_ok.mp h
    cases mgr? with
    | none =>
      cases Except.ok.inj h
      exact taken.abandons (.refl _) _
    | some mgr =>
      obtain ⟨k1, hdup, h⟩ := bind_eq_ok.mp h
      obtain ⟨⟨k2, ok⟩, hmap, h⟩ := bind_eq_ok.mp h
      have hkin : Kin k0 k2 := ((kin_linkLwp k0 mgr np).trans (kin_dupFiles hdup)).trans
        ((kin_takeStack _ _).trans (kin_mapStack hmap))
      have hkeeps : Keeps k0 k2 := ((keeps_linkLwp k0 mgr np).trans
        ((kin_dupFiles hdup).keeps (quiet_dupFiles hdup))).trans
        (((kin_takeStack _ _).trans (kin_mapStack hmap)).keeps
          ((quiet_takeStack _ _).trans (quiet_mapStack hmap)))
      cases ok with
      | false =>
        cases Except.ok.inj h
        exact taken.abandons hkeeps _
      | true =>
        cases Except.ok.inj h
        refine ⟨taken.spawning.before, fun i hi => ?_, fun _ => ?_⟩
        · rw [modify_proc_ne _ _ hi, ← taken.others i hi]
          exact hkeeps i
        · have hsame := hkin np
          simp only [modify_proc_same]
          refine ⟨hsame.kstack.trans ?_, hsame.parent.trans ?_, mapStack_pgdir hmap⟩
          · simp [taken.proc]
          · simp [taken.proc, allocFields]

def leaver : Act → Out → Option Slot
  | .exit p, .answer .gone | .exitEnd p, .answer .gone => some p
  | _, _ => none

/-- Where a slot in use after an action comes from. -/
inductive Fate (k : Kernel) (a : Act) (out : Out) (i : Slot) (q : Proc) : Prop where
  | kept (hleaver : leaver a out = none) (hused : (k.proc i).state ≠ .unused)
      (hkin : Proc.Kin (k.proc i) q)
  | passed (cur : Slot) (hleaver : leaver a out = some cur) (hused : (k.proc i).state ≠ .unused)
      (hkin : Proc.Kin (reparent cur k.initproc (k.proc i)) q)
  | forked (cur : Slot) (ha : a = .fork cur) (hfree : (k.proc i).state = .unused)
      (hstack : q.kstack = true) (hparent : q.parent = some cur) (hdir : q.pgdir ≠ none)
  | created (cur : Slot) (start : Nat) (ha : a = .threadCreate cur start)
      (hfree : (k.proc i).state = .unused) (hstack : q.kstack = true) (hdir : q.pgdir ≠ none)

theorem Keeps.fate {k k' : Kernel} {a : Act} {out : Out} (h : Keeps k k')
    (hleaver : leaver a out = none) {i : Slot} (hi : (k'.proc i).state ≠ .unused) :
    Fate k a out i (k'.proc i) :=
  .kept hleaver (h i hi).1 (h i hi).2

theorem used_of_visit {k k' : Kernel} {c : Fin ncpu} {p : Slot} {how : Visit}
    (h : k.visit c p = .ok (k', how)) {i : Slot} (hi : (k'.proc i).state ≠ .unused) :
    (k.proc i).state ≠ .unused := by
  obtain ⟨hquiet, -⟩ | ⟨-, mgr, hselects⟩ := visit_effect h
  · exact fun hunused => hi ((hquiet.proc i).unused.mpr hunused)
  · intro hunused
    by_cases hm : i = mgr
    · subst hm
      exact hi (hselects.unused.mpr hunused)
    · exact hi ((hselects.others i hm).unused.mpr hunused)

theorem used_of_dies {k k' : Kernel} {cur : Slot} {retval : Nat} (h : Dies k k' cur retval)
    (hcur : (k.proc cur).Live) {i : Slot} (hi : (k'.proc i).state ≠ .unused) :
    (k.proc i).state ≠ .unused := by
  by_cases hp : i = cur
  · rw [hp]
    exact hcur.1
  · exact fun hunused => hi ((h.others i hp).unused.mpr hunused)

theorem perform_fate {k k' : Kernel} {a : Act} {out : Out} (henabled : k.Enabled a)
    (hstep : k.perform a = .ok (k', out)) {i : Slot} (hi : (k'.proc i).state ≠ .unused) :
    Fate k a out i (k'.proc i) := by
  have hquiet : Kin k k' → Quiet k k' → leaver a out = none → Fate k a out i (k'.proc i) :=
    fun hkin hquiet hleaver => (hkin.keeps hquiet).fate hleaver hi
  cases performs hstep with
  | visit h => exact .kept rfl (used_of_visit h hi) (kin_visit h i)
  | yield p =>
    have hp : (k.proc p).state = .running := henabled
    exact hquiet (kin_yield k p) (quiet_yield k p ⟨by simp [hp], by simp [hp]⟩) rfl
  | sleepOn p chan =>
    exact hquiet (kin_sleep k p chan) (quiet_sleep k p chan (henabled.elim At.live At.live)) rfl
  | wakeup chan => exact hquiet (kin_wakeup1 k _) (quiet_wakeup1 k _) rfl
  | charge p _ _ _ => exact hquiet (kin_modify k p _ ⟨rfl, rfl⟩) (quiet_charge k p _ _ _) rfl
  | kill p pid => exact hquiet (kin_kill k pid) (quiet_kill k pid) rfl
  | @fork p _ _ hfork =>
    obtain hkeeps | ⟨np, hspawns⟩ := fork_spawns hfork
    · exact hkeeps.fate rfl hi
    · by_cases hnp : i = np
      · subst hnp
        obtain ⟨hstack, hparent, hdir⟩ := hspawns.used hi
        exact .forked p rfl hspawns.free hstack hparent hdir
      · obtain ⟨hused, hkin⟩ := hspawns.others i hnp hi
        exact .kept rfl hused hkin
  | @exec p _ _ _ _ hexec =>
    refine .kept rfl ?_ (kin_exec hexec i)
    obtain hquiet | hexecs := exec_effect (At.live henabled) hexec
    · exact fun hunused => hi ((hquiet.proc i).unused.mpr hunused)
    · by_cases hp : i = p
      · rw [hp]
        exact (At.live henabled).1
      · exact fun hunused => hi ((hexecs.others i hp).unused.mpr hunused)
  | sbrk h => exact hquiet (kin_growproc h) (quiet_growproc h) rfl
  | wait h => exact (keeps_wait (At.live henabled).1 h).fate rfl hi
  | @resumeWait p _ _ h =>
    have hused : ((k.awake p).proc p).state ≠ .unused := by
      simpa [awake] using (At.live henabled).1
    exact ((keeps_awake k p).trans (keeps_wait hused h)).fate rfl hi
  | @threadCreate p start _ _ hcreate =>
    obtain hkeeps | ⟨np, hspawns⟩ := threadCreate_spawns hcreate
    · exact hkeeps.fate rfl hi
    · by_cases hnp : i = np
      · subst hnp
        obtain ⟨hstack, -, hdir⟩ := hspawns.used hi
        exact .created p start rfl hspawns.free hstack hdir
      · obtain ⟨hused, hkin⟩ := hspawns.others i hnp hi
        exact .kept rfl hused hkin
  | @threadExit _ _ _ answer hexit =>
    refine .kept ?_ ?_ (kin_threadExit hexit i)
    · cases answer <;> rfl
    · obtain ⟨rfl, -⟩ | ⟨-, hdies, -⟩ := threadExit_effect (At.live henabled) hexit
      · exact hi
      · exact used_of_dies hdies (At.live henabled) hi
  | threadJoin h => exact (keeps_threadJoin (At.live henabled).1 h).fate rfl hi
  | @resumeJoin p _ _ h =>
    have hused : ((k.awake p).proc p).state ≠ .unused := by
      simp [awake, henabled.1]
    exact ((keeps_awake k p).trans (keeps_threadJoin hused h)).fate rfl hi
  | exitStays h => exact (keeps_exitBegin h).fate rfl hi
  | @exits p left _ hbegin hend =>
    have hleaves := exitBegin_leaves hbegin
    have hlive := (hleaves.live p).mpr (At.live henabled)
    obtain ⟨hused, hkin⟩ :=
      keeps_exitBegin hbegin i (used_of_dies (exitEnd_effect hlive hend) hlive hi)
    have hinit : left.initproc = k.initproc := by
      obtain ⟨shared, hshare, hsettles⟩ := hleaves.settled
      exact hsettles.shares.initproc.trans (returnShare_proc hshare).2.2.2
    have hpassed := exitEnd_kin hend i
    rw [hinit] at hpassed
    exact .passed p rfl hused ((kin_reparent hkin _ _).trans hpassed)
  | exitReturns h => exact (keeps_exitBegin h).fate rfl hi
  | @exitBegin p _ h =>
    exact ((keeps_exitBegin h).trans (keeps_setContext _ p _)).fate rfl hi
  | @exitEnd p _ hend =>
    have hlive := At.live henabled
    exact .passed p rfl (used_of_dies (exitEnd_effect hlive hend) hlive hi) (exitEnd_kin hend i)
  | @setCpuShare p _ _ _ hshare =>
    refine .kept rfl ?_ (kin_setCpuShare hshare i)
    obtain ⟨rfl, -⟩ | ⟨hgrants, -⟩ := setCpuShare_effect hshare
    · exact hi
    · by_cases hp : i = p
      · rw [hp]
        exact (At.live henabled).1
      · rwa [← hgrants.others i hp]

theorem sameGroup_of_identity {p q : Proc} (h : q.identity = p.identity) : Proc.SameGroup p q :=
  ⟨congrArg Identity.tid h, congrArg Identity.manager h,
    fun hdir => ne_of_eq_of_ne (congrArg Identity.pgdir h) hdir⟩

theorem Settles.sameGroup {k k' : Kernel} (h : Settles k k') {i : Slot}
    (hbefore : (k.proc i).state ≠ .unused) (hafter : (k'.proc i).state ≠ .unused) :
    Proc.SameGroup (k.proc i) (k'.proc i) := by
  cases h.proc i with
  | quiet hquiet => exact sameGroup_of_identity (hquiet.identity hbefore)
  | reaped _ hunused => exact absurd hunused hafter

theorem Leaves.sameGroup {k k' : Kernel} {cur : Slot} {go : Bool} (h : Leaves k k' cur go)
    {i : Slot} (hbefore : (k.proc i).state ≠ .unused) (hafter : (k'.proc i).state ≠ .unused) :
    Proc.SameGroup (k.proc i) (k'.proc i) := by
  obtain ⟨shared, hshare, hsettles⟩ := h.settled
  rw [← (returnShare_proc hshare).1] at hbefore ⊢
  exact hsettles.sameGroup hbefore hafter

theorem Dies.sameGroup {k k' : Kernel} {cur : Slot} {retval : Nat} (h : Dies k k' cur retval)
    {i : Slot} (hbefore : (k.proc i).state ≠ .unused) : Proc.SameGroup (k.proc i) (k'.proc i) := by
  by_cases hi : i = cur
  · subst hi
    have hid := h.identity
    exact ⟨congrArg Identity.tid hid, congrArg Identity.manager hid,
      fun hdir => ne_of_eq_of_ne (congrArg Identity.pgdir hid) hdir⟩
  · exact sameGroup_of_identity ((h.others i hi).identity hbefore)

theorem Reaps.sameGroup {k k' : Kernel} {p : Slot} (h : Reaps k k' p) {i : Slot}
    (hbefore : (k.proc i).state ≠ .unused) (hafter : (k'.proc i).state ≠ .unused) :
    Proc.SameGroup (k.proc i) (k'.proc i) := by
  have hi : i ≠ p := by
    rintro rfl
    exact hafter h.after
  exact sameGroup_of_identity ((h.others i hi).identity hbefore)

theorem Effect.sameGroup {k k' : Kernel} {a : Act} {out : Out} (h : Effect k a k' out)
    (henabled : k.Enabled a) {i : Slot} (hbefore : (k.proc i).state ≠ .unused)
    (hafter : (k'.proc i).state ≠ .unused) : Proc.SameGroup (k.proc i) (k'.proc i) := by
  have hother : ∀ {p : Slot}, (∀ i, i ≠ p → Proc.Quiet (k.proc i) (k'.proc i)) → i ≠ p →
      Proc.SameGroup (k.proc i) (k'.proc i) :=
    fun hquiet hi => sameGroup_of_identity ((hquiet i hi).identity hbefore)
  cases h with
  | quiet hquiet _ => exact sameGroup_of_identity ((hquiet.proc i).identity hbefore)
  | selects mgr hselects =>
    by_cases hi : i = mgr
    · subst hi
      have hid := hselects.identity hbefore
      exact ⟨congrArg Identity.tid hid, congrArg Identity.manager hid,
        fun hdir => ne_of_eq_of_ne (congrArg Identity.pgdir hid) hdir⟩
    · exact hother hselects.others hi
  | forks np hforks =>
    exact hother hforks.spawning.others fun hi => hbefore (hi ▸ hforks.spawning.before)
  | creates np mgr hcreates =>
    exact hother hcreates.spawning.others fun hi => hbefore (hi ▸ hcreates.spawning.before)
  | @execs cur _ _ _ _ hexecs =>
    by_cases hi : i = cur
    · subst hi
      have hid := hexecs.identity
      exact ⟨congrArg Identity.tid hid, congrArg Identity.manager hid,
        fun _ => ne_of_eq_of_ne (congrArg Identity.pgdir hid) (Option.some_ne_none _)⟩
    · exact hother hexecs.others hi
  | waits p d _ hreaps => exact hreaps.sameGroup hbefore hafter
  | joins p _ hreaps => exact hreaps.sameGroup hbefore hafter
  | threadExits _ hdies => exact hdies.sameGroup hbefore
  | exits left hleaves hdies =>
    have hleft : (left.proc i).state ≠ .unused :=
      used_of_dies hdies ((hleaves.live _).mpr (At.live henabled)) hafter
    exact (hleaves.sameGroup hbefore hleft).trans (hdies.sameGroup hleft)
  | returns _ hleaves => exact hleaves.sameGroup hbefore hafter
  | @begins cur left hleaves =>
    have hsame : ((left.modify cur fun p => { p with context := .exit }).proc i).state =
        (left.proc i).state := by
      rw [modify_proc]
      split
      · rename_i hi
        rw [hi]
      · rfl
    rw [hsame] at hafter
    refine (hleaves.sameGroup hbefore hafter).trans ?_
    rw [modify_proc]
    split
    · rename_i hi
      rw [hi]
      exact ⟨rfl, rfl, id⟩
    · exact ⟨rfl, rfl, id⟩
  | ends hdies => exact hdies.sameGroup hbefore
  | @grants cur _ _ hgrants =>
    by_cases hi : i = cur
    · subst hi
      rw [hgrants.same]
      exact ⟨rfl, rfl, id⟩
    · rw [hgrants.others i hi]
      exact ⟨rfl, rfl, id⟩

theorem Settles.still_unused {k k' : Kernel} (h : Settles k k') {i : Slot}
    (hfree : (k.proc i).state = .unused) : (k'.proc i).state = .unused := by
  cases h.proc i with
  | quiet hquiet => exact hquiet.unused.mpr hfree
  | reaped _ hafter => exact hafter

theorem Leaves.still_unused {k k' : Kernel} {cur : Slot} {go : Bool} (h : Leaves k k' cur go)
    {i : Slot} (hfree : (k.proc i).state = .unused) : (k'.proc i).state = .unused := by
  obtain ⟨shared, hshare, hsettles⟩ := h.settled
  rw [← (returnShare_proc hshare).1] at hfree
  exact hsettles.still_unused hfree

theorem Effect.born {k k' : Kernel} {a : Act} {out : Out} (h : Effect k a k' out)
    (henabled : k.Enabled a) {i : Slot} (hfree : (k.proc i).state = .unused)
    (hused : (k'.proc i).state ≠ .unused) :
    (∃ cur, a = .fork cur ∧ Forks k k' i) ∨
      ∃ cur start mgr, a = .threadCreate cur start ∧ Creates k k' cur i mgr := by
  have hothers : ∀ {p : Slot}, (∀ i, i ≠ p → Proc.Quiet (k.proc i) (k'.proc i)) → i ≠ p → False :=
    fun hquiet hi => hused ((hquiet i hi).unused.mpr hfree)
  have hlive : ∀ {p : Slot}, (k.proc p).Live → i ≠ p := fun hp heq => hp.1 (heq ▸ hfree)
  have hzombie : ∀ {p : Slot}, (k.proc p).state = .zombie → i ≠ p := by
    rintro p hp rfl
    rw [hfree] at hp
    cases hp
  cases h with
  | quiet hquiet _ => exact (hused ((hquiet.proc i).unused.mpr hfree)).elim
  | selects mgr hselects =>
    by_cases hi : i = mgr
    · subst hi
      exact (hused (hselects.unused.mpr hfree)).elim
    · exact (hothers hselects.others hi).elim
  | @forks cur _ _ np hforks =>
    by_cases hi : i = np
    · subst hi
      exact .inl ⟨cur, rfl, hforks⟩
    · exact (hothers hforks.spawning.others hi).elim
  | @creates cur start _ np mgr hcreates =>
    by_cases hi : i = np
    · subst hi
      exact .inr ⟨cur, start, mgr, rfl, hcreates⟩
    · exact (hothers hcreates.spawning.others hi).elim
  | execs hexecs => exact (hothers hexecs.others (hlive (At.live henabled))).elim
  | waits p d _ hreaps => exact (hothers hreaps.others (hzombie hreaps.before)).elim
  | joins p _ hreaps => exact (hothers hreaps.others (hzombie hreaps.before)).elim
  | threadExits _ hdies => exact (hothers hdies.others (hlive (At.live henabled))).elim
  | @exits cur _ left hleaves hdies =>
    have hi : i ≠ cur := hlive (At.live henabled)
    exact (hused ((hdies.others i hi).unused.mpr (hleaves.still_unused hfree))).elim
  | returns _ hleaves => exact (hused (hleaves.still_unused hfree)).elim
  | @begins cur left hleaves =>
    have hi : i ≠ cur := hlive (At.live henabled)
    rw [modify_proc_ne _ _ hi] at hused
    exact (hused (hleaves.still_unused hfree)).elim
  | ends hdies => exact (hothers hdies.others (hlive (At.live henabled))).elim
  | @grants cur _ _ hgrants =>
    have hi : i ≠ cur := hlive (At.live henabled)
    rw [hgrants.others i hi] at hused
    exact (hused hfree).elim

end Kernel

end Xv6

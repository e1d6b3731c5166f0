import Xv6.Proc.Endings

/-! One inversion for every action of the machine: what a step of `perform` can do to
the slots, the shares and the page directories. -/
namespace Xv6.Kernel

open Word Fallible

/-- A successful `exec`: a directory of its own, and the old one freed unless the
caller is an LWP. -/
structure Execs (k k' : Kernel) (cur : Slot) : Prop where
  shares : SameShares k k'
  nextdir : k'.nextdir = k.nextdir + 1
  freed : (k.proc cur).tid = 0 ∧ (∃ d, (k.proc cur).pgdir = some d ∧ k'.freed = insert d k.freed) ∨
    (k.proc cur).tid ≠ 0 ∧ k'.freed = k.freed
  live : (k'.proc cur).Live
  parent : (k'.proc cur).parent = none ↔ (k.proc cur).parent = none
  identity : (k'.proc cur).identity = { (k.proc cur).identity with pgdir := some k.nextdir }
  others : ∀ i, i ≠ cur → Proc.Quiet (k.proc i) (k'.proc i)

theorem Quiet.execs {k k1 k' : Kernel} {cur : Slot} (h : Quiet k k1)
    (hcur : (k.proc cur).Live) (h' : Execs k1 k' cur) : Execs k k' cur := by
  have hid := (h.proc cur).identity hcur.1
  have htid : (k1.proc cur).tid = (k.proc cur).tid := congrArg Identity.tid hid
  have hdir : (k1.proc cur).pgdir = (k.proc cur).pgdir := congrArg Identity.pgdir hid
  refine ⟨h.shares.trans h'.shares, by rw [h'.nextdir, h.nextdir], ?_, h'.live,
    h'.parent.trans (h.proc cur).parent, ?_, fun i hi => (h.proc i).trans (h'.others i hi)⟩
  · have hfreed := h'.freed
    rwa [htid, hdir, h.freed] at hfreed
  · rw [h'.identity, hid, h.nextdir]

theorem commitImage_effect {k k' : Kernel} {cur : Slot} {s : Space} {entry sz sp : Nat} {r : Int}
    (hcur : (k.proc cur).Live) (h : k.commitImage cur s entry sz sp = .ok (k', r)) :
    Execs k k' cur := by
  unfold commitImage at h
  dsimp only at h
  split at h
  · rename_i htid
    split at h
    · rename_i d hdir
      obtain ⟨left, -, h⟩ := bind_eq_ok.mp h
      cases Except.ok.inj h
      refine ⟨⟨rfl, rfl, rfl⟩, rfl, .inl ⟨htid, d, hdir, rfl⟩, ?_, ?_, ?_, ?_⟩
      · simpa [addDir, Proc.Live] using hcur
      · simp [addDir]
      · simp [addDir, Proc.identity]
      · intro i hi
        simpa [addDir, hi] using Proc.Quiet.refl (k.proc i)
    · cases h
  · rename_i htid
    cases Except.ok.inj h
    refine ⟨⟨rfl, rfl, rfl⟩, rfl, .inr ⟨htid, rfl⟩, ?_, ?_, ?_, ?_⟩
    · simpa [addDir, Proc.Live] using hcur
    · simp [addDir]
    · simp [addDir, Proc.identity]
    · intro i hi
      simpa [addDir, hi] using Proc.Quiet.refl (k.proc i)

theorem exec_effect {k k' : Kernel} {cur : Slot} {file : Option ElfFile} {argv : List Nat}
    {r : Int} (hcur : (k.proc cur).Live) (h : k.exec cur file argv = .ok (k', r)) :
    Quiet k k' ∨ Execs k k' cur := by
  have hleft : ∀ left, Quiet k { k with free := left } := fun left => quiet_setFree k left
  unfold exec at h
  split at h
  · obtain ⟨⟨s, image⟩, -, h⟩ := bind_eq_ok.mp h
    cases image with
    | none =>
      obtain ⟨left, -, heq⟩ := map_eq_ok.mp h
      cases heq
      exact .inl (hleft left)
    | some image =>
      dsimp only at h
      split at h
      · obtain ⟨mgr, -, h⟩ := bind_eq_ok.mp h
        have hquiet := quiet_cleanupLwp k mgr (some cur)
        exact .inr (hquiet.execs hcur (commitImage_effect ((hquiet.proc cur).live.mpr hcur) h))
      · split at h
        · have hquiet := quiet_cleanupLwp k cur none
          exact .inr (hquiet.execs hcur (commitImage_effect ((hquiet.proc cur).live.mpr hcur) h))
        · obtain ⟨left, -, heq⟩ := map_eq_ok.mp h
          cases heq
          exact .inl (hleft left)
  · cases Except.ok.inj h
    exact .inl (.refl k)

theorem quiet_setCpu (k : Kernel) (c : Fin ncpu) (f : Cpu → Cpu) : Quiet k (k.setCpu c f) :=
  ⟨⟨rfl, rfl, rfl⟩, rfl, rfl, fun _ => .refl _⟩

theorem execution_how {k k' : Kernel} {c : Fin ncpu} {p : Slot} {how how' : Visit}
    (h : k.execution c p how = .ok (k', how')) : how = how' :=
  (execution_eq h).2

theorem quiet_execution {k k' : Kernel} {c : Fin ncpu} {p : Slot} {how out : Visit}
    (hp : (k.proc p).Live) (h : k.execution c p how = .ok (k', out)) :
    Quiet k k' ∧ out = how := by
  unfold execution at h
  split at h
  · cases h
  · cases Except.ok.inj h
    refine ⟨(quiet_modify k p _ ?_).trans (quiet_setCpu _ _ _), rfl⟩
    exact .of_identity (by simp [hp.1]) (by simp [hp.2]) Iff.rfl rfl

@[mk_iff]
structure Chosen (k : Kernel) (c : Fin ncpu) (p mgr : Slot) : Prop where
  runnable : (k.proc p).state = .runnable
  noEscape : (k.cpu c).schedTicks + 1 ≤ 1000
  phase : nextCount (k.cpu c).count ≤ k.strideTickets
  manager : k.schedManager p = .ok mgr
  nonempty : 0 < k.heap.count
  minimum : (k.proc mgr).passValue = k.heap.cells 1

instance (k : Kernel) (c : Fin ncpu) (p mgr : Slot) : Decidable (k.Chosen c p mgr) :=
  decidable_of_iff' _ (chosen_iff ..)

structure Selects (k k' : Kernel) (c : Fin ncpu) (p mgr : Slot) : Prop where
  chosen : Chosen k c p mgr
  heap : ∃ popped, k.heap.pop = .ok popped ∧
    popped.2.push (i32 ((k.proc mgr).passValue + (k.proc mgr).stride)) = .ok k'.heap
  strideTickets : k'.strideTickets = k.strideTickets
  initproc : k'.initproc = k.initproc
  freed : k'.freed = k.freed
  nextdir : k'.nextdir = k.nextdir
  unused : (k'.proc mgr).state = .unused ↔ (k.proc mgr).state = .unused
  zombie : (k'.proc mgr).state = .zombie ↔ (k.proc mgr).state = .zombie
  parent : (k'.proc mgr).parent = none ↔ (k.proc mgr).parent = none
  idle : (k.proc mgr).Idle → (k'.proc mgr).Idle
  identity : (k.proc mgr).state ≠ .unused → (k'.proc mgr).identity =
    { (k.proc mgr).identity with
      passValue := i32 ((k.proc mgr).passValue + (k.proc mgr).stride) }
  others : ∀ i, i ≠ mgr → Proc.Quiet (k.proc i) (k'.proc i)

theorem selects_of_advancePass {k k0 k1 k' : Kernel} {c : Fin ncpu} {p mgr : Slot}
    (h : k0.advancePass mgr = .ok k1) (hquiet : Quiet k1 k') (hchosen : k.Chosen c p mgr)
    (hproc : k0.proc = k.proc) (hbefore : Quiet k k0) : Selects k k' c p mgr := by
  obtain ⟨popped, hpop, h⟩ := bind_eq_ok.mp h
  obtain ⟨heap, hpush, h⟩ := bind_eq_ok.mp h
  cases Except.ok.inj h
  have hsame := hquiet.proc mgr
  simp only [modify_proc_same, hproc] at hsame
  rw [hbefore.shares.heap] at hpop
  rw [hproc] at hpush
  refine ⟨hchosen, ⟨popped, hpop, ?_⟩, ?_, ?_, ?_, ?_, hsame.unused, hsame.zombie,
    hsame.parent, ?_, hsame.identity, ?_⟩
  · rw [hquiet.shares.heap]
    exact hpush
  · exact hquiet.shares.strideTickets.trans hbefore.shares.strideTickets
  · exact hquiet.shares.initproc.trans hbefore.shares.initproc
  · exact hquiet.freed.trans hbefore.freed
  · exact hquiet.nextdir.trans hbefore.nextdir
  · intro hidle
    apply hsame.idle
    exact ⟨by simp [hidle.1, hidle.2, i32], hidle.2⟩
  · intro i hi
    have hother := hquiet.proc i
    simpa [hi, hproc] using hother

theorem advancePass_live {k k' : Kernel} {mgr : Slot} (h : k.advancePass mgr = .ok k')
    (p : Slot) : (k'.proc p).Live ↔ (k.proc p).Live := by
  obtain ⟨popped, -, h⟩ := bind_eq_ok.mp h
  obtain ⟨heap, -, h⟩ := bind_eq_ok.mp h
  cases Except.ok.inj h
  by_cases hp : p = mgr
  · subst hp
    simp [Proc.Live]
  · simp [hp]

theorem visit_effect {k k' : Kernel} {c : Fin ncpu} {p : Slot} {how : Visit}
    (h : k.visit c p = .ok (k', how)) :
    Quiet k k' ∧ how ≠ .stride ∨ how = .stride ∧ ∃ mgr, Selects k k' c p mgr := by
  unfold visit at h
  split at h
  · cases Except.ok.inj h
    exact .inl ⟨.refl k, by simp⟩
  · rename_i hrunnable
    have hp : (k.proc p).Live := by
      have hstate : (k.proc p).state = .runnable := not_not.mp hrunnable
      exact ⟨by simp [hstate], by simp [hstate]⟩
    split at h
    · obtain ⟨hquiet, rfl⟩ := quiet_execution (k := k.setCpu c _) hp h
      exact .inl ⟨(quiet_setCpu _ _ _).trans hquiet, by simp⟩
    · rename_i hescape
      dsimp only at h
      split at h
      · rename_i hphase
        obtain ⟨mgr, hmgr, h⟩ := bind_eq_ok.mp h
        split at h
        · rename_i hmatch
          obtain ⟨k1, hadvance, h⟩ := bind_eq_ok.mp h
          obtain ⟨hquiet, rfl⟩ := quiet_execution ((advancePass_live hadvance p).mpr hp) h
          have hchosen : k.Chosen c p mgr :=
            ⟨not_not.mp hrunnable, by omega, by simpa [setCpu] using hphase, hmgr,
              hmatch.1, hmatch.2⟩
          refine .inr ⟨rfl, mgr, selects_of_advancePass hadvance hquiet hchosen rfl ?_⟩
          exact (quiet_setCpu _ _ _).trans (quiet_setCpu _ _ _)
        · cases Except.ok.inj h
          exact .inl ⟨(quiet_setCpu _ _ _).trans (quiet_setCpu _ _ _), by simp⟩
      · split at h
        · cases Except.ok.inj h
          exact .inl ⟨(quiet_setCpu _ _ _).trans (quiet_setCpu _ _ _), by simp⟩
        · split at h
          · cases Except.ok.inj h
            exact .inl ⟨(quiet_setCpu _ _ _).trans (quiet_setCpu _ _ _), by simp⟩
          · obtain ⟨hquiet, rfl⟩ := quiet_execution (k := (k.setCpu c _).setCpu c _) hp h
            exact .inl ⟨((quiet_setCpu _ _ _).trans (quiet_setCpu _ _ _)).trans hquiet, by simp⟩

structure Grants (k k' : Kernel) (cur : Slot) (percent : Int) : Prop where
  positive : 0 < percent
  admitted : i32 (percent + k.strideTickets) ≤ 80
  heap : k.enterHeap = .ok k'.heap
  strideTickets : k'.strideTickets = i32 (k.strideTickets + percent)
  initproc : k'.initproc = k.initproc
  freed : k'.freed = k.freed
  nextdir : k'.nextdir = k.nextdir
  same : k'.proc cur = { k.proc cur with
    passValue := k'.heap.cells 1, stride := 1000 / percent, portion := percent }
  others : ∀ i, i ≠ cur → k'.proc i = k.proc i

theorem setCpuShare_effect {k k' : Kernel} {cur : Slot} {percent r : Int}
    (h : k.setCpuShare cur percent = .ok (k', r)) :
    k' = k ∧ r = -1 ∨ Grants k k' cur percent ∧ r = 0 := by
  unfold setCpuShare at h
  split at h
  · cases Except.ok.inj h
    exact .inl ⟨rfl, rfl⟩
  · rename_i hpositive
    split at h
    · rename_i hadmitted
      obtain ⟨heap, hheap, h⟩ := bind_eq_ok.mp h
      cases Except.ok.inj h
      refine .inr ⟨⟨by omega, hadmitted, hheap, rfl, rfl, rfl, rfl, ?_, ?_⟩, rfl⟩
      · simp
      · intro i hi
        simp [hi]
    · cases Except.ok.inj h
      exact .inl ⟨rfl, rfl⟩

/-- `exit` as far as its second locked section; `go` is false after an early return. -/
structure Leaves (k k' : Kernel) (cur : Slot) (go : Bool) : Prop where
  settled : ∃ shared, k.returnShare cur = .ok shared ∧ Settles shared k'
  reaped : ∀ i, (k.proc i).state = .zombie → (k'.proc i).state = .unused →
    (k.proc i).manager = k.swept cur
  completes : k.ExitCompletes cur → go = true

theorem exitBegin_leaves {k k' : Kernel} {cur : Slot} {go : Bool}
    (h : k.exitBegin cur = .ok (k', go)) : Leaves k k' cur go := by
  obtain ⟨shared, hshare, hsettles, hreaped, hcut⟩ := exitBegin_effect h
  refine ⟨⟨shared, hshare, hsettles⟩, hreaped, fun hcompletes => ?_⟩
  cases go with
  | true => rfl
  | false => exact absurd hcompletes (hcut rfl)

inductive Effect (k : Kernel) : Act → Kernel → Out → Prop where
  | quiet {a k' out} (h : Quiet k k') (hout : out.Uneventful) : Effect k a k' out
  | selects {c p k'} (mgr : Slot) (h : Selects k k' c p mgr) :
      Effect k (.visit c p) k' (.visited .stride)
  | forks {cur k' r} (np : Slot) (h : Forks k k' np) : Effect k (.fork cur) k' (.ret r)
  | creates {cur start k'} (np mgr : Slot) (h : Creates k k' cur np mgr) :
      Effect k (.threadCreate cur start) k' (.created ⟨0, some (k'.proc np).tid⟩)
  | execs {cur file argv k' r} (h : Execs k k' cur) : Effect k (.exec cur file argv) k' (.ret r)
  | waits {a cur k' answer} (p : Slot) (d : DirId) (ha : a = .wait cur ∨ a = .resumeWait cur)
      (h : Reaps k k' p) (hparent : (k.proc p).parent = some cur)
      (hdir : (k.proc p).pgdir = some d) (hfreed : k'.freed = insert d k.freed) :
      Effect k a k' (.answer answer)
  | joins {a cur thread k' out} (p : Slot)
      (ha : a = .threadJoin cur thread ∨ a = .resumeJoin cur ∧ k.joining cur = some thread)
      (h : Reaps k k' p) (hfreed : k'.freed = k.freed)
      (hmanager : (k.proc p).manager = some cur) (htid : (k.proc p).tid = thread)
      (hout : out = .joined (.delivered (k.proc p).retval) ∨ out = .joined .failed) :
      Effect k a k' out
  | threadExits {cur retval k'} (htid : (k.proc cur).tid ≠ 0) (h : Dies k k' cur retval) :
      Effect k (.threadExit cur retval) k' (.answer .gone)
  | exits {cur k'} (left : Kernel) (h : Leaves k left cur true)
      (hdies : Dies left k' cur (left.proc cur).retval) : Effect k (.exit cur) k' (.answer .gone)
  | returns {a cur k'} (ha : a = .exit cur ∨ a = .exitBegin cur) (h : Leaves k k' cur false) :
      Effect k a k' (.answer (.returned 0))
  | begins {cur} (left : Kernel) (h : Leaves k left cur true) :
      Effect k (.exitBegin cur) (left.modify cur fun p => { p with context := .exit }) .done
  | ends {cur k'} (h : Dies k k' cur (k.proc cur).retval) :
      Effect k (.exitEnd cur) k' (.answer .gone)
  | grants {cur percent k'} (h : Grants k k' cur percent) :
      Effect k (.setCpuShare cur percent) k' (.ret 0)

theorem At.live {k : Kernel} {p : Slot} {context : Context} (h : k.At p context) :
    (k.proc p).Live :=
  ⟨by simp [h.1], by simp [h.1]⟩

theorem Leaves.settled_proc {k k' : Kernel} {cur : Slot} {go : Bool} (h : Leaves k k' cur go)
    (i : Slot) : Proc.Settled (k.proc i) (k'.proc i) := by
  obtain ⟨shared, hshare, hsettles⟩ := h.settled
  rw [← (returnShare_proc hshare).1]
  exact hsettles.proc i

theorem Leaves.live {k k' : Kernel} {cur : Slot} {go : Bool} (h : Leaves k k' cur go) (i : Slot) :
    (k'.proc i).Live ↔ (k.proc i).Live :=
  (h.settled_proc i).live

theorem Quiet.reaps {k k0 k' : Kernel} {p : Slot} (h : Quiet k k0) (h' : Reaps k0 k' p) :
    Reaps k k' p ∧ (k0.proc p).identity = (k.proc p).identity := by
  have hbefore : (k.proc p).state = .zombie := (h.proc p).zombie.mp h'.before
  refine ⟨⟨h.shares.trans h'.shares, h'.nextdir.trans h.nextdir, hbefore, h'.after, h'.parent,
    h'.idle ∘ (h.proc p).idle, fun i hi => (h.proc i).trans (h'.others i hi)⟩,
    (h.proc p).identity ?_⟩
  rw [hbefore]
  simp

theorem awake_parent (k : Kernel) (cur i : Slot) :
    ((k.awake cur).proc i).parent = (k.proc i).parent := by
  simp only [awake, modify_proc]
  split
  · rename_i h; rw [h]
  · rfl

theorem wait_perform {k k0 k' : Kernel} {a : Act} {cur : Slot} {answer : Answer}
    (hquiet : Quiet k k0) (hparents : ∀ i, (k0.proc i).parent = (k.proc i).parent)
    (ha : a = .wait cur ∨ a = .resumeWait cur) (hcur : (k0.proc cur).Live)
    (hcontext : (k0.proc cur).context ≠ .exit) (h : k0.wait cur = .ok (k', answer)) :
    Effect k a k' (.answer answer) := by
  obtain ⟨hstill, hanswer⟩ | ⟨p, d, hreaps, hparent, hdir, hfreed⟩ := wait_effect hcur hcontext h
  · refine .quiet (hquiet.trans hstill) ?_
    cases answer with
    | gone => exact absurd rfl hanswer
    | _ => trivial
  · obtain ⟨hreaps', hid⟩ := hquiet.reaps hreaps
    refine .waits p d ha hreaps' ?_ ?_ ?_
    · rw [← hparents, hparent]
    · exact (congrArg Identity.pgdir hid).symm.trans hdir
    · rw [hfreed, hquiet.freed]

theorem join_perform {k k0 k' : Kernel} {a : Act} {cur : Slot} {thread : Int} {out : Joined}
    (hquiet : Quiet k k0)
    (ha : a = .threadJoin cur thread ∨ a = .resumeJoin cur ∧ k.joining cur = some thread)
    (hcur : (k0.proc cur).Live) (hcontext : (k0.proc cur).context ≠ .exit)
    (h : k0.threadJoin cur thread = .ok (k', out)) : Effect k a k' (.joined out) := by
  obtain ⟨hstill, hout⟩ | ⟨p, hreaps, hfreed, hmanager, htid, hout⟩ :=
    threadJoin_effect hcur hcontext h
  · refine .quiet (hquiet.trans hstill) ?_
    rcases hout with rfl | rfl <;> trivial
  · obtain ⟨hreaps', hid⟩ := hquiet.reaps hreaps
    refine .joins p ha hreaps' (hfreed.trans hquiet.freed) ?_ ?_ ?_
    · exact (congrArg Identity.manager hid).symm.trans hmanager
    · exact (congrArg Identity.tid hid).symm.trans htid
    · have hretval : (k0.proc p).retval = (k.proc p).retval := congrArg Identity.retval hid
      rw [hretval] at hout
      rcases hout with rfl | rfl
      · exact .inl rfl
      · exact .inr rfl

theorem perform_effect {k k' : Kernel} {a : Act} {out : Out} (henabled : k.Enabled a)
    (hstep : k.perform a = .ok (k', out)) : Effect k a k' out := by
  cases performs hstep with
  | @visit _ _ _ how hvisit =>
    obtain ⟨hquiet, hhow⟩ | ⟨rfl, mgr, hselects⟩ := visit_effect hvisit
    · refine .quiet hquiet ?_
      cases how with
      | stride => exact absurd rfl hhow
      | _ => trivial
    · exact .selects mgr hselects
  | yield p =>
    have hp : (k.proc p).state = .running := henabled
    exact .quiet (quiet_yield k p ⟨by simp [hp], by simp [hp]⟩) trivial
  | sleepOn p chan =>
    have hp : (k.proc p).Live := henabled.elim At.live At.live
    exact .quiet (quiet_sleep k p chan hp) trivial
  | wakeup chan => exact .quiet (quiet_wakeup1 k _) trivial
  | charge p level ticks runtime => exact .quiet (quiet_charge k p _ _ _) trivial
  | kill p pid => exact .quiet (quiet_kill k pid) trivial
  | fork hfork =>
    obtain hquiet | ⟨np, hforks⟩ := fork_effect hfork
    · exact .quiet hquiet trivial
    · exact .forks np hforks
  | exec hexec =>
    obtain hquiet | hexecs := exec_effect (At.live henabled) hexec
    · exact .quiet hquiet trivial
    · exact .execs hexecs
  | sbrk h => exact .quiet (quiet_growproc h) trivial
  | wait h =>
    exact wait_perform (.refl k) (fun _ => rfl) (.inl rfl) (At.live henabled)
      (by simp [henabled.2]) h
  | @resumeWait p _ _ h =>
    apply wait_perform (quiet_awake k p) (awake_parent k p) (.inr rfl) _ _ h
    · simpa [awake, Proc.Live] using At.live henabled
    · simp [awake, henabled.2]
  | threadCreate hcreate =>
    obtain ⟨hquiet, hret⟩ | ⟨np, mgr, hcreates, rfl⟩ :=
      threadCreate_effect (At.live henabled) hcreate
    · exact .quiet hquiet hret
    · exact .creates np mgr hcreates
  | threadExit hexit =>
    obtain ⟨rfl, rfl⟩ | ⟨htid, hdies, rfl⟩ := threadExit_effect (At.live henabled) hexit
    · exact .quiet (.refl _) trivial
    · exact .threadExits htid hdies
  | threadJoin h =>
    exact join_perform (.refl k) (.inl rfl) (At.live henabled) (by simp [henabled.2]) h
  | @resumeJoin p _ _ hjoin =>
    obtain ⟨thread, hthread⟩ := Option.isSome_iff_exists.mp henabled.2
    rw [hthread, Option.getD_some] at hjoin
    have hcontext : (k.proc p).context = .join thread := by
      unfold joining at hthread
      split at hthread
      · rename_i hcontext
        cases hthread
        exact hcontext
      · cases hthread
    apply join_perform (quiet_awake k p) (.inr ⟨rfl, hthread⟩) _ _ hjoin
    · simp [awake, Proc.Live, henabled.1]
    · simp [awake, hcontext]
  | exitStays h => exact .returns (.inl rfl) (exitBegin_leaves h)
  | @exits p left _ hbegin hend =>
    have hleaves := exitBegin_leaves hbegin
    exact .exits left hleaves (exitEnd_effect ((hleaves.live p).mpr (At.live henabled)) hend)
  | exitReturns h => exact .returns (.inr rfl) (exitBegin_leaves h)
  | exitBegin h => exact .begins _ (exitBegin_leaves h)
  | exitEnd h => exact .ends (exitEnd_effect (At.live henabled) h)
  | setCpuShare hshare =>
    obtain ⟨rfl, -⟩ | ⟨hgrants, rfl⟩ := setCpuShare_effect hshare
    · exact .quiet (.refl _) trivial
    · exact .grants hgrants

theorem Effect.death {k k' : Kernel} {a : Act} {out : Out} (h : Effect k a k' out)
    (henabled : k.Enabled a) {p : Slot} (hlive : (k.proc p).Live) (hdead : ¬ (k'.proc p).Live) :
    a = .exit p ∧ out = .answer .gone ∨ a = .exitEnd p ∧ out = .answer .gone ∨
      ∃ retval, a = .threadExit p retval ∧ (k.proc p).tid ≠ 0 := by
  have hothers : ∀ {q : Slot}, (∀ i, i ≠ q → Proc.Quiet (k.proc i) (k'.proc i)) → p = q := by
    intro q hquiet
    by_contra hne
    exact hdead ((hquiet p hne).live.mpr hlive)
  cases h with
  | quiet hquiet _ => exact (hdead ((hquiet.proc p).live.mpr hlive)).elim
  | selects mgr hselects =>
    cases hothers hselects.others
    exact (hdead ⟨mt hselects.unused.mp hlive.1, mt hselects.zombie.mp hlive.2⟩).elim
  | forks np hforks =>
    cases hothers hforks.spawning.others
    exact (hlive.1 hforks.spawning.before).elim
  | creates np mgr hcreates =>
    cases hothers hcreates.spawning.others
    exact (hlive.1 hcreates.spawning.before).elim
  | execs hexecs =>
    cases hothers hexecs.others
    exact (hdead hexecs.live).elim
  | waits q d _ hreaps => exact (hdead ((hreaps.settled p).live.mpr hlive)).elim
  | joins q _ hreaps => exact (hdead ((hreaps.settled p).live.mpr hlive)).elim
  | threadExits htid hdies =>
    cases hothers hdies.others
    exact .inr (.inr ⟨_, rfl, htid⟩)
  | @exits cur _ left hleaves hdies =>
    by_cases hp : p = cur
    · exact .inl ⟨hp ▸ rfl, rfl⟩
    · exact (hdead ((hdies.others p hp).live.mpr ((hleaves.live p).mpr hlive))).elim
  | returns _ hleaves => exact (hdead ((hleaves.live p).mpr hlive)).elim
  | begins left hleaves =>
    have hleft := (hleaves.live p).mpr hlive
    refine (hdead ?_).elim
    rw [modify_proc]
    split
    · rename_i hp
      exact hp ▸ hleft
    · exact hleft
  | ends hdies =>
    cases hothers hdies.others
    exact .inr (.inl ⟨rfl, rfl⟩)
  | @grants cur _ _ hgrants =>
    refine (hdead ?_).elim
    by_cases hp : p = cur
    · rw [hp, hgrants.same]
      exact hp ▸ hlive
    · rw [hgrants.others p hp]
      exact hlive

theorem Effect.initproc {k k' : Kernel} {a : Act} {out : Out} (h : Effect k a k' out) :
    k'.initproc = k.initproc := by
  have hleft : ∀ {left : Kernel} {cur : Slot} {go : Bool}, Leaves k left cur go →
      left.initproc = k.initproc := by
    intro left cur go hleaves
    obtain ⟨shared, hshare, hsettles⟩ := hleaves.settled
    exact hsettles.shares.initproc.trans (returnShare_proc hshare).2.2.2
  cases h with
  | quiet hquiet _ => exact hquiet.shares.initproc
  | selects mgr hselects => exact hselects.initproc
  | forks np hforks => exact hforks.spawning.shares.initproc
  | creates np mgr hcreates => exact hcreates.spawning.shares.initproc
  | execs hexecs => exact hexecs.shares.initproc
  | waits q d _ hreaps => exact hreaps.shares.initproc
  | joins q _ hreaps => exact hreaps.shares.initproc
  | threadExits _ hdies => exact hdies.shares.initproc
  | exits left hleaves hdies => exact hdies.shares.initproc.trans (hleft hleaves)
  | returns _ hleaves => exact hleft hleaves
  | begins left hleaves => exact (hleft hleaves :)
  | ends hdies => exact hdies.shares.initproc
  | grants hgrants => exact hgrants.initproc

theorem Effect.exiting {k k' : Kernel} {a : Act} {out : Out} (h : Effect k a k' out)
    (henabled : k.Enabled a) {p : Slot} (hlive : (k'.proc p).Live)
    (hexit : (k'.proc p).context = .exit) :
    (k.proc p).Live ∧ (k.proc p).context = .exit ∨ a = .exitBegin p ∧ out = .done := by
  have hothers : ∀ {q : Slot}, (∀ i, i ≠ q → Proc.Quiet (k.proc i) (k'.proc i)) →
      (p = q → (k.proc p).Live ∧ (k'.proc p).identity.exiting = (k.proc p).identity.exiting) →
      (k.proc p).Live ∧ (k.proc p).context = .exit := by
    intro q hquiet hsame
    by_cases hp : p = q
    · obtain ⟨hbefore, hid⟩ := hsame hp
      simp only [Proc.identity, decide_eq_decide] at hid
      exact ⟨hbefore, hid.mp hexit⟩
    · exact (Proc.Settled.quiet (hquiet p hp)).exiting hlive hexit
  have hfresh : ∀ {q : Slot}, (k'.proc q).identity.exiting = false → p = q → False := by
    rintro q hid rfl
    simp [Proc.identity, hexit] at hid
  cases h with
  | quiet hquiet _ => exact .inl ((Proc.Settled.quiet (hquiet.proc p)).exiting hlive hexit)
  | selects mgr hselects =>
    refine .inl (hothers hselects.others fun hp => ?_)
    subst hp
    have hused := mt hselects.unused.mpr hlive.1
    have hid := congrArg Identity.exiting (hselects.identity hused)
    exact ⟨⟨hused, mt hselects.zombie.mpr hlive.2⟩, hid⟩
  | forks np hforks =>
    exact .inl (hothers hforks.spawning.others fun hp =>
      (hfresh (congrArg Identity.exiting hforks.identity) hp).elim)
  | creates np mgr hcreates =>
    exact .inl (hothers hcreates.spawning.others fun hp =>
      (hfresh (congrArg Identity.exiting hcreates.identity) hp).elim)
  | execs hexecs =>
    refine .inl (hothers hexecs.others fun hp => ?_)
    subst hp
    have hid := congrArg Identity.exiting hexecs.identity
    exact ⟨At.live henabled, hid⟩
  | waits q d _ hreaps => exact .inl ((hreaps.settled p).exiting hlive hexit)
  | joins q _ hreaps => exact .inl ((hreaps.settled p).exiting hlive hexit)
  | threadExits _ hdies =>
    exact .inl (hothers hdies.others fun hp => absurd (hp ▸ hdies.state) hlive.2)
  | @exits cur _ left hleaves hdies =>
    have hp : p ≠ cur := by
      rintro rfl
      exact hlive.2 hdies.state
    exact .inl (((hleaves.settled_proc p).trans (.quiet (hdies.others p hp))).exiting hlive hexit)
  | returns _ hleaves => exact .inl ((hleaves.settled_proc p).exiting hlive hexit)
  | @begins cur left hleaves =>
    by_cases hp : p = cur
    · exact .inr ⟨hp ▸ rfl, rfl⟩
    · rw [modify_proc_ne _ _ hp] at hlive hexit
      exact .inl ((hleaves.settled_proc p).exiting hlive hexit)
  | ends hdies =>
    exact .inl (hothers hdies.others fun hp => absurd (hp ▸ hdies.state) hlive.2)
  | @grants cur _ _ hgrants =>
    refine .inl (hothers (q := cur) (fun i hi => ?_) fun hp => ?_)
    · rw [hgrants.others i hi]
      exact .refl _
    · subst hp
      refine ⟨At.live henabled, ?_⟩
      rw [hgrants.same]
      rfl

end Xv6.Kernel

import Xv6.Group.Parents

/-! Who reaps the zombies. A zombie LWP waits for a `thread_join` or the `exit` of its
manager, any other zombie for a `wait` of its parent, so the slot comes back only if that
process is still there. -/
namespace Xv6.Kernel

open Word Fallible Transition

/-- `z` was created by `thread_create` in the group of `m`, and the slot of `m` has been in
use ever since. -/
def CreatedBy (m z : Slot) : List (Kernel × Act × Out) → Prop
  | [] => False
  | (k, a, _) :: rest => (k.proc m).state ≠ .unused ∧
      if (k.proc z).state = .unused then
        ∃ p start, a = .threadCreate p start ∧ k.manager? p = .ok (some m)
      else CreatedBy m z rest

structure Reapable (trace : List (Kernel × Act × Out)) (k : Kernel) : Prop where
  lwps : ∀ z, (k.proc z).state = .zombie → 0 < (k.proc z).tid →
    ∃ m, (k.proc z).manager = some m ∧ (k.proc m).Live ∧ CreatedBy m z trace
  processes : ∀ z, (k.proc z).state = .zombie → (k.proc z).tid = 0 →
    ∃ q, (k.proc z).parent = some q ∧ ((k.proc q).Live ∨ q = k.initproc)

/-- A process leaves after its LWPs, and an LWP that ends with `thread_exit` has no children. -/
def Orderly (k : Kernel) : Act → Prop
  | .exit p | .exitBegin p => (k.proc p).tid = 0 → k.Childless p
  | .threadExit p _ => (k.proc p).tid ≠ 0 →
      ∀ z, (k.proc z).state ≠ .unused → (k.proc z).parent ≠ some p
  | .threadCreate p _ => ∀ mgr, k.manager? p = .ok (some mgr) → (k.proc mgr).nexttid ≠ 0
  | _ => True

instance (k : Kernel) : (a : Act) → Decidable (k.Orderly a)
  | .exit _ | .exitBegin _ | .threadExit .. => inferInstanceAs (Decidable (_ → _))
  | .threadCreate .. => inferInstanceAs (Decidable (∀ _, _))
  | .wait _ | .resumeWait _ | .threadJoin .. | .resumeJoin _ | .exec .. | .visit .. | .yield _
  | .sleepOn .. | .wakeup _ | .charge .. | .kill .. | .fork _ | .sbrk .. | .exitEnd _
  | .setCpuShare .. => inferInstanceAs (Decidable True)

theorem Orderly.leavesNone {k : Kernel} {a : Act} (h : k.Orderly a) : k.LeavesNone a := by
  cases a with
  | threadExit | threadCreate => exact h
  | _ => trivial

def OrderlyEnabled (k : Kernel) (a : Act) : Prop := k.Enabled a ∧ k.Orderly a

instance (k : Kernel) (a : Act) : Decidable (k.OrderlyEnabled a) :=
  inferInstanceAs (Decidable (_ ∧ _))

theorem sweep_clears {k k' : Kernel} {mgr : Slot} {rest : List Slot}
    (h : sweep mgr none rest k = .ok (k', true)) {z : Slot} (hz : z ∈ rest)
    (hzombie : (k'.proc z).state = .zombie) : (k'.proc z).manager ≠ some mgr := by
  induction rest generalizing k with
  | nil => cases hz
  | cons p rest ih =>
    obtain ⟨⟨k1, go⟩, hone, hrest⟩ := bind_eq_ok.mp h
    cases go with
    | false => cases hrest
    | true =>
      rcases List.mem_cons.mp hz with rfl | hz
      · -- what the turn for `z` left behind stays as it is
        cases (sweep_effect hrest).1.proc z with
        | reaped _ hafter =>
          rw [hafter] at hzombie
          cases hzombie
        | quiet hquiet =>
          have hbefore := hquiet.zombie.mp hzombie
          have hid := hquiet.identity (by rw [hbefore]; simp)
          have hmanager : (k'.proc z).manager = (k1.proc z).manager :=
            congrArg Identity.manager hid
          rw [hmanager]
          unfold sweepOne at hone
          split at hone
          · rename_i hother
            cases Except.ok.inj hone
            exact hother.resolve_right (by simp)
          split at hone
          · rename_i hstate
            cases Except.ok.inj hone
            exact absurd (((quiet_killed k z).proc z).zombie.mp hbefore) hstate
          · rename_i hstate
            have hreaps := (reap_effect (not_not.mp hstate) hone).1
            rw [hreaps.after] at hbefore
            cases hbefore
      · exact ih hrest hz

theorem exitBegin_clears {k left : Kernel} {p : Slot} (htid : (k.proc p).tid = 0)
    (hchildless : k.Childless p) (h : k.exitBegin p = .ok (left, true)) {z : Slot}
    (hused : (left.proc z).state ≠ .unused) (hlwp : (left.proc z).tid ≠ 0) :
    (left.proc z).manager ≠ some p := by
  intro hmanager
  have hleaves := exitBegin_leaves h
  by_cases hzombie : (left.proc z).state = .zombie
  · unfold exitBegin at h
    split at h
    · cases h
    obtain ⟨k1, hshare, h⟩ := bind_eq_ok.mp h
    rw [(returnShare_proc hshare).1, if_neg (by omega), if_pos htid] at h
    exact sweep_clears h (List.mem_finRange z) hzombie hmanager
  · have hlive : (k.proc z).Live := (hleaves.live z).mp ⟨hused, hzombie⟩
    have hsame := hleaves.sameGroup hlive.1 hused
    exact hchildless z hlive (hsame.tid ▸ hlwp) (hsame.manager.symm.trans hmanager)

structure Tended (trace : List (Kernel × Act × Out)) (k : Kernel) : Prop where
  init : (k.proc k.initproc).Live ∧ (k.proc k.initproc).context ≠ .exit
  lwps : ∀ z, (k.proc z).state ≠ .unused → (k.proc z).tid ≠ 0 →
    ∃ m, (k.proc z).manager = some m ∧ (k.proc m).Live ∧ (k.proc m).tid = 0 ∧ CreatedBy m z trace
  processes : ∀ z, (k.proc z).state ≠ .unused → (k.proc z).tid = 0 → z ≠ k.initproc →
    ∃ q, (k.proc z).parent = some q ∧ (k.proc q).Live
  exiting : ∀ p, (k.proc p).Live → (k.proc p).context = .exit → (k.proc p).tid = 0 →
    ∀ z, (k.proc z).state ≠ .unused → (k.proc z).tid ≠ 0 → (k.proc z).manager ≠ some p

theorem tended_boot (free : Nat) : Tended [] (boot free) := by
  have honly : ∀ i, ((boot free).proc i).state ≠ .unused → i = 0 := by
    intro i hi
    by_contra hne
    exact hi (by simp [boot, hne, Proc.zero])
  have htid : ∀ i, ((boot free).proc i).state ≠ .unused → ((boot free).proc i).tid = 0 := by
    intro i hi
    rw [honly i hi]
    rfl
  refine ⟨⟨⟨by simp [boot], by simp [boot]⟩, by simp [boot, Proc.zero]⟩, ?_, ?_, ?_⟩
  · intro z hz hne
    exact absurd (htid z hz) hne
  · intro z hz _ hne
    exact absurd (honly z hz) hne
  · intro p _ _ _ z hz hne
    exact absurd (htid z hz) hne

section

variable {trace : List (Kernel × Act × Out)} {k k' : Kernel} {a : Act} {out : Out}

theorem Tended.manager_stays (h : Tended trace k) (hallowed : k.OrderlyEnabled a)
    (hstep : k.perform a = .ok (k', out)) {m z : Slot} (hlive : (k.proc m).Live)
    (htid : (k.proc m).tid = 0) (hused : (k'.proc z).state ≠ .unused)
    (hlwp : (k'.proc z).tid ≠ 0) (hmanager : (k'.proc z).manager = some m) :
    (k'.proc m).Live := by
  obtain ⟨henabled, horderly⟩ := hallowed
  have heffect := perform_effect henabled hstep
  by_contra hdead
  rcases heffect.death henabled hlive hdead with ⟨rfl, rfl⟩ | ⟨rfl, rfl⟩ | ⟨retval, rfl, hne⟩
  · obtain ⟨left, hbegin, hend⟩ := exit_gone hstep
    have hdies := exitEnd_effect (((exitBegin_leaves hbegin).live m).mpr hlive) hend
    have hleft := used_of_dies hdies (((exitBegin_leaves hbegin).live m).mpr hlive) hused
    have hsame := hdies.sameGroup hleft
    exact exitBegin_clears htid (horderly htid) hbegin hleft (hsame.tid ▸ hlwp)
      (hsame.manager.symm.trans hmanager)
  · have hbefore : (k.proc z).state ≠ .unused := by
      intro hfree
      obtain ⟨cur, heq, -⟩ | ⟨cur, start, mgr, heq, -⟩ := heffect.born henabled hfree hused
      · cases heq
      · cases heq
    have hsame := heffect.sameGroup henabled hbefore hused
    exact h.exiting m hlive henabled.2 htid z hbefore (hsame.tid ▸ hlwp)
      (hsame.manager.symm.trans hmanager)
  · exact hne htid

theorem Tended.manager_of_creator (h : Tended trace k) {cur mgr : Slot}
    (hcur : (k.proc cur).Live) (hmanager : k.manager? cur = .ok (some mgr)) :
    (k.proc mgr).Live ∧ (k.proc mgr).tid = 0 := by
  unfold manager? at hmanager
  split at hmanager
  · rename_i htid
    obtain ⟨m, hm, heq⟩ := map_eq_ok.mp hmanager
    cases heq
    obtain ⟨m', hm', hlive, hzero, -⟩ := h.lwps cur hcur.1 (by omega)
    rw [deref_eq_ok hm] at hm'
    cases hm'
    exact ⟨hlive, hzero⟩
  split at hmanager
  · rename_i htid
    cases hmanager
    exact ⟨hcur, htid⟩
  · cases hmanager

theorem Creates.group {k k' : Kernel} {cur np mgr : Slot} (h : Creates k k' cur np mgr)
    (hmgr : (k.proc mgr).Live) : (k'.proc np).manager = some mgr ∧
      (k'.proc np).tid = (k.proc mgr).nexttid ∧ (k'.proc mgr).Live := by
  have hne : mgr ≠ np := by
    rintro rfl
    exact hmgr.1 h.spawning.before
  have hid := h.identity
  rw [if_neg hne] at hid
  exact ⟨congrArg Identity.manager hid, congrArg Identity.tid hid,
    (h.spawning.others mgr hne).live.mpr hmgr⟩

theorem Tended.lwps_step (h : Tended trace k) (hallowed : k.OrderlyEnabled a)
    (hstep : k.perform a = .ok (k', out)) (z : Slot) (hused : (k'.proc z).state ≠ .unused)
    (hlwp : (k'.proc z).tid ≠ 0) :
    ∃ m, (k'.proc z).manager = some m ∧ (k'.proc m).Live ∧ (k'.proc m).tid = 0 ∧
      CreatedBy m z ((k, a, out) :: trace) := by
  have henabled := hallowed.1
  have heffect := perform_effect henabled hstep
  have htid : ∀ {m : Slot}, (k.proc m).Live → (k'.proc m).Live → (k.proc m).tid = 0 →
      (k'.proc m).tid = 0 :=
    fun hbefore hafter hzero => (heffect.sameGroup henabled hbefore.1 hafter.1).tid.trans hzero
  by_cases hfree : (k.proc z).state = .unused
  · obtain ⟨cur, rfl, hforks⟩ | ⟨cur, start, mgr, rfl, hcreates⟩ :=
      heffect.born henabled hfree hused
    · exact absurd (congrArg Identity.tid hforks.identity) hlwp
    · obtain ⟨hlive, hzero⟩ := h.manager_of_creator (At.live henabled) hcreates.manager
      obtain ⟨hmanager, -, hafter⟩ := hcreates.group hlive
      refine ⟨mgr, hmanager, hafter, htid hlive hafter hzero, hlive.1, ?_⟩
      rw [if_pos hfree]
      exact ⟨cur, start, rfl, hcreates.manager⟩
  · have hsame := heffect.sameGroup henabled hfree hused
    obtain ⟨m, hmanager, hlive, hzero, hcreated⟩ := h.lwps z hfree (hsame.tid ▸ hlwp)
    have hmgr := hsame.manager.trans hmanager
    have hafter := h.manager_stays hallowed hstep hlive hzero hused hlwp hmgr
    refine ⟨m, hmgr, hafter, htid hlive hafter hzero, hlive.1, ?_⟩
    rw [if_neg hfree]
    exact hcreated

theorem Tended.exiting_step (h : Tended trace k) (hallowed : k.OrderlyEnabled a)
    (hstep : k.perform a = .ok (k', out)) (p : Slot) (hlive : (k'.proc p).Live)
    (hexit : (k'.proc p).context = .exit) (htid : (k'.proc p).tid = 0) (z : Slot)
    (hused : (k'.proc z).state ≠ .unused) (hlwp : (k'.proc z).tid ≠ 0) :
    (k'.proc z).manager ≠ some p := by
  obtain ⟨henabled, horderly⟩ := hallowed
  have heffect := perform_effect henabled hstep
  obtain ⟨hbefore, hcontext⟩ | ⟨rfl, rfl⟩ := heffect.exiting henabled hlive hexit
  · have hzero : (k.proc p).tid = 0 :=
      (heffect.sameGroup henabled hbefore.1 hlive.1).tid.symm.trans htid
    by_cases hfree : (k.proc z).state = .unused
    · obtain ⟨cur, rfl, hforks⟩ | ⟨cur, start, mgr, rfl, hcreates⟩ :=
        heffect.born henabled hfree hused
      · exact absurd (congrArg Identity.tid hforks.identity) hlwp
      · -- a caller in the group of `p` would be `p` itself or an LWP of it
        intro hmanager
        obtain ⟨hmgr, -⟩ := h.manager_of_creator (At.live henabled) hcreates.manager
        rw [(hcreates.group hmgr).1] at hmanager
        cases hmanager
        have hcreator := hcreates.manager
        unfold manager? at hcreator
        split at hcreator
        · rename_i hpos
          obtain ⟨m, hm, heq⟩ := map_eq_ok.mp hcreator
          cases heq
          exact h.exiting p hbefore hcontext hzero cur (At.live henabled).1 (by omega)
            (deref_eq_ok hm)
        split at hcreator
        · cases hcreator
          rw [henabled.2] at hcontext
          cases hcontext
        · cases hcreator
    · have hsame := heffect.sameGroup henabled hfree hused
      rw [hsame.manager]
      exact h.exiting p hbefore hcontext hzero z hfree (hsame.tid ▸ hlwp)
  · obtain ⟨left, hbegin, rfl⟩ := exitBegin_done hstep
    have hleft : ∀ i, ((left.modify p fun q => { q with context := .exit }).proc i).state =
        (left.proc i).state ∧
        ((left.modify p fun q => { q with context := .exit }).proc i).tid = (left.proc i).tid ∧
        ((left.modify p fun q => { q with context := .exit }).proc i).manager =
          (left.proc i).manager := by
      intro i
      rw [modify_proc]
      split
      · rename_i hi
        rw [hi]
        exact ⟨rfl, rfl, rfl⟩
      · exact ⟨rfl, rfl, rfl⟩
    have hzero : (k.proc p).tid = 0 := by
      have hp := (hleft p).1 ▸ hlive.1
      rw [(hleft p).2.1] at htid
      exact ((exitBegin_leaves hbegin).sameGroup (At.live henabled).1 hp).tid.symm.trans htid
    rw [(hleft z).1] at hused
    rw [(hleft z).2.1] at hlwp
    rw [(hleft z).2.2]
    exact exitBegin_clears hzero (horderly hzero) hbegin hused hlwp

theorem Tended.processes_step (h : Tended trace k) (hallowed : k.OrderlyEnabled a)
    (hstep : k.perform a = .ok (k', out)) (z : Slot) (hused : (k'.proc z).state ≠ .unused)
    (htid : (k'.proc z).tid = 0) (hz : z ≠ k'.initproc) :
    ∃ q, (k'.proc z).parent = some q ∧ (k'.proc q).Live := by
  obtain ⟨henabled, horderly⟩ := hallowed
  have hsame := (perform_effect henabled hstep).sameGroup henabled (i := z)
  rw [(perform_effect henabled hstep).initproc] at hz
  have hparent :=
    fun hbefore => h.processes z hbefore ((hsame hbefore hused).tid.symm.trans htid) hz
  obtain ⟨q, hq, hlive, -⟩ :=
    parent_step henabled horderly.leavesNone hstep (init_stays h.init henabled hstep).1 hparent
      hused
      htid
  exact ⟨q, hq, hlive⟩

theorem Tended.step (h : Tended trace k) (hallowed : k.OrderlyEnabled a)
    (hstep : k.perform a = .ok (k', out)) : Tended ((k, a, out) :: trace) k' :=
  ⟨init_stays h.init hallowed.1 hstep, h.lwps_step hallowed hstep, h.processes_step hallowed hstep,
    h.exiting_step hallowed hstep⟩

end

/-- If processes leave after their LWPs and LWPs after their children, every zombie can be
reaped. -/
theorem zombies_reapable (free : Nat) {trace : List (Kernel × Act × Out)} {k : Kernel}
    (run : Run perform OrderlyEnabled (boot free) trace k) : Reapable trace k := by
  have htended : Tended trace k :=
    run.invariant Tended (tended_boot free)
      fun _ _ _ _ _ htended hallowed hstep => htended.step hallowed hstep
  constructor
  · intro z hzombie htid
    obtain ⟨m, hmanager, hlive, -, hcreated⟩ := htended.lwps z (by simp [hzombie]) (by omega)
    exact ⟨m, hmanager, hlive, hcreated⟩
  · intro z hzombie htid
    have hz : z ≠ k.initproc := by
      rintro rfl
      exact htended.init.1.2 hzombie
    obtain ⟨q, hparent, hlive⟩ := htended.processes z (by simp [hzombie]) htid hz
    exact ⟨q, hparent, .inl hlive⟩

/-- A zombie LWP of `init` and a zombie child of it. -/
theorem zombies_reapable_both : ∃ trace k, Run perform OrderlyEnabled (boot 100) trace k ∧
    ((k.proc 1).state = .zombie ∧ (k.proc 1).tid = 1) ∧
    ((k.proc 2).state = .zombie ∧ (k.proc 2).tid = 0) ∧ Reapable trace k := by
  obtain ⟨trace, k, run, htest⟩ := exists_run perform OrderlyEnabled (boot 100)
    [.visit 0 0, .threadCreate 0 5, .fork 0, .yield 0, .visit 0 1, .threadExit 1 7, .visit 0 2,
      .exit 2]
    (fun _ k => ((k.proc 1).state = .zombie ∧ (k.proc 1).tid = 1) ∧
      (k.proc 2).state = .zombie ∧ (k.proc 2).tid = 0) (by decide +kernel)
  obtain ⟨hlwp, hchild⟩ := of_decide_eq_true htest
  exact ⟨trace, k, run, hlwp, hchild, zombies_reapable 100 run⟩

/-- A process exits before its LWP: once `init` has reaped it, the slot of the manager is
free and the LWP stays a zombie. An LWP ends before its child: the child stays a zombie, with
a free slot as its parent. -/
theorem zombies_abandoned :
    (∃ trace k, Run perform Enabled (boot 100) trace k ∧ (k.proc 2).state = .zombie ∧
      (k.proc 2).tid = 1 ∧ (k.proc 2).manager = some 1 ∧ (k.proc 1).state = .unused ∧
      ¬ Reapable trace k) ∧
    ∃ trace k, Run perform Enabled (boot 100) trace k ∧ (k.proc 2).state = .zombie ∧
      (k.proc 2).tid = 0 ∧ (k.proc 2).parent = some 1 ∧ (k.proc 1).state = .unused ∧
      ¬ Reapable trace k := by
  constructor
  · obtain ⟨trace, k, run, htest⟩ := exists_run perform Enabled (boot 100)
      [.visit 0 0, .fork 0, .yield 0, .visit 0 1, .threadCreate 1 5, .exit 1, .visit 0 2,
        .threadExit 2 7, .visit 0 0, .wait 0]
      (fun _ k => (k.proc 2).state = .zombie ∧ (k.proc 2).tid = 1 ∧
        (k.proc 2).manager = some 1 ∧ (k.proc 1).state = .unused) (by decide +kernel)
    obtain ⟨hzombie, htid, hmanager, hfree⟩ := of_decide_eq_true htest
    refine ⟨trace, k, run, hzombie, htid, hmanager, hfree, fun hreapable => ?_⟩
    obtain ⟨m, hm, hlive, -⟩ := hreapable.lwps 2 hzombie (by omega)
    cases hmanager.symm.trans hm
    exact hlive.1 hfree
  · obtain ⟨trace, k, run, htest⟩ := exists_run perform Enabled (boot 100)
      [.visit 0 0, .threadCreate 0 5, .yield 0, .visit 0 1, .fork 1, .threadExit 1 7, .visit 0 0,
        .threadJoin 0 1, .yield 0, .visit 0 2, .exit 2]
      (fun _ k => k.initproc = 0 ∧ (k.proc 2).state = .zombie ∧ (k.proc 2).tid = 0 ∧
        (k.proc 2).parent = some 1 ∧ (k.proc 1).state = .unused) (by decide +kernel)
    obtain ⟨hinit, hzombie, htid, hparent, hfree⟩ := of_decide_eq_true htest
    refine ⟨trace, k, run, hzombie, htid, hparent, hfree, fun hreapable => ?_⟩
    obtain ⟨q, hq, hlive | heq⟩ := hreapable.processes 2 hzombie htid
    · cases hparent.symm.trans hq
      exact hlive.1 hfree
    · cases hparent.symm.trans hq
      cases heq.trans hinit

end Xv6.Kernel

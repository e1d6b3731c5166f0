import Xv6.Group.Dirs
import Xv6.Proc.Kin

/-! Whose child a process is. `fork` makes the caller the parent, the second half of `exit`
passes children on to `init`, and `thread_exit` does not. -/
namespace Xv6.Kernel

open Word Fallible Transition

def ForkedBy (q z : Slot) : List (Kernel × Act × Out) → Prop
  | [] => False
  | (k, a, _) :: rest => (k.proc q).state ≠ .unused ∧
      if (k.proc z).state = .unused then a = .fork q else ForkedBy q z rest

instance (q : Slot) : (a : Act) → Decidable (a = .fork q)
  | .fork p => decidable_of_iff (p = q) ⟨fun h => h ▸ rfl, Act.fork.inj⟩
  | .exit _ | .exitBegin _ | .wait _ | .resumeWait _ | .threadJoin .. | .resumeJoin _ | .exec ..
  | .visit .. | .yield _ | .sleepOn .. | .wakeup _ | .charge .. | .kill .. | .sbrk ..
  | .exitEnd _ | .setCpuShare .. | .threadCreate .. | .threadExit .. => isFalse nofun

instance decidableForkedBy (q z : Slot) : (trace : List (Kernel × Act × Out)) →
    Decidable (ForkedBy q z trace)
  | [] => isFalse id
  | (k, a, _) :: rest =>
      have := decidableForkedBy q z rest
      inferInstanceAs (Decidable ((k.proc q).state ≠ .unused ∧
        if (k.proc z).state = .unused then a = .fork q else ForkedBy q z rest))

/-- A process is the child of the process or LWP that forked it, which is still there, or of
`init`; and `wait` answers with the `pid` of such a child. -/
structure Parented (trace : List (Kernel × Act × Out)) (k : Kernel) : Prop where
  links : ∀ z, (k.proc z).state ≠ .unused → (k.proc z).tid = 0 → z ≠ k.initproc →
    ∃ q, (k.proc z).parent = some q ∧
      ((k.proc q).state ≠ .unused ∧ ForkedBy q z trace ∨ q = k.initproc)
  waits : ∀ p a, a = .wait p ∨ a = .resumeWait p → ∀ k' pid,
    k.perform a = .ok (k', .answer (.returned pid)) → pid = -1 ∨
      ∃ z, (k.proc z).pid = pid ∧ (k.proc z).state = .zombie ∧
        (ForkedBy p z trace ∨ p = k.initproc)

def LeavesNone (k : Kernel) : Act → Prop
  | .threadExit p _ => (k.proc p).tid ≠ 0 →
      ∀ z, (k.proc z).state ≠ .unused → (k.proc z).parent ≠ some p
  | .threadCreate p _ => ∀ mgr, k.manager? p = .ok (some mgr) → (k.proc mgr).nexttid ≠ 0
  | _ => True

instance (k : Kernel) : (a : Act) → Decidable (k.LeavesNone a)
  | .threadExit .. => inferInstanceAs (Decidable (_ → _))
  | .threadCreate .. => inferInstanceAs (Decidable (∀ _, _))
  | .exit _ | .exitBegin _ | .wait _ | .resumeWait _ | .threadJoin .. | .resumeJoin _ | .exec ..
  | .visit .. | .yield _ | .sleepOn .. | .wakeup _ | .charge .. | .kill .. | .fork _ | .sbrk ..
  | .exitEnd _ | .setCpuShare .. => inferInstanceAs (Decidable True)

def LeavesNoneEnabled (k : Kernel) (a : Act) : Prop := k.Enabled a ∧ k.LeavesNone a

instance (k : Kernel) (a : Act) : Decidable (k.LeavesNoneEnabled a) :=
  inferInstanceAs (Decidable (_ ∧ _))

def Fatherless (k : Kernel) : Prop :=
  ∀ i, (k.proc i).state = .unused ∨ (k.proc i).tid ≠ 0 → (k.proc i).parent = none

theorem fatherless_boot (free : Nat) : (boot free).Fatherless := (dirsOwned_boot free).parents

theorem Kept.fatherless {p q : Proc} (h : Kept p q)
    (hp : p.state = .unused ∨ p.tid ≠ 0 → p.parent = none) :
    q.state = .unused ∨ q.tid ≠ 0 → q.parent = none := by
  intro hq
  by_cases hfree : q.state = .unused
  · rcases h.empty hfree with hunused | hparent
    · exact h.parent (hp (.inl hunused))
    · exact hparent
  · have htid := hq.resolve_left hfree
    rw [h.tid hfree] at htid
    exact h.parent (hp (.inr htid))

theorem exit_gone {k k' : Kernel} {p : Slot}
    (h : k.perform (.exit p) = .ok (k', .answer .gone)) :
    ∃ left, k.exitBegin p = .ok (left, true) ∧ left.exitEnd p = .ok k' := by
  obtain ⟨⟨k1, answer⟩, hexit, heq⟩ := map_eq_ok.mp h
  cases heq
  obtain ⟨⟨left, go⟩, hbegin, hexit⟩ := bind_eq_ok.mp hexit
  cases go with
  | false => cases hexit
  | true =>
    obtain ⟨k2, hend, heq⟩ := map_eq_ok.mp hexit
    cases heq
    exact ⟨left, hbegin, hend⟩

theorem exitBegin_done {k k' : Kernel} {p : Slot}
    (h : k.perform (.exitBegin p) = .ok (k', .done)) :
    ∃ left, k.exitBegin p = .ok (left, true) ∧
      k' = left.modify p fun q => { q with context := .exit } := by
  obtain ⟨⟨left, go⟩, hbegin, heq⟩ := map_eq_ok.mp h
  cases go with
  | false => cases heq
  | true =>
    cases heq
    exact ⟨left, hbegin, rfl⟩

theorem exitBegin_not_init {k left : Kernel} {p : Slot} {go : Bool}
    (h : k.exitBegin p = .ok (left, go)) : p ≠ k.initproc := by
  rintro rfl
  rw [exitBegin, if_pos rfl] at h
  cases h

section

variable {trace : List (Kernel × Act × Out)} {k k' : Kernel} {a : Act} {out : Out}

theorem Effect.fatherless (h : Effect k a k' out) (henabled : k.Enabled a) (hinv : k.Fatherless) :
    k'.Fatherless := by
  have hkept : ∀ {k k' : Kernel}, k.Fatherless → (∀ i, Kept (k.proc i) (k'.proc i)) →
      k'.Fatherless := fun hinv hkept i => (hkept i).fatherless (hinv i)
  have hothers : ∀ {p : Slot}, (∀ i, i ≠ p → Proc.Quiet (k.proc i) (k'.proc i)) →
      ((k'.proc p).state = .unused ∨ (k'.proc p).tid ≠ 0 → (k'.proc p).parent = none) →
      k'.Fatherless := by
    intro p hquiet hp i
    by_cases hi : i = p
    · rw [hi]
      exact hp
    · exact (kept_of_settled (.quiet (hquiet i hi))).fatherless (hinv i)
  cases h with
  | quiet hquiet _ => exact hkept hinv fun i => kept_of_settled (.quiet (hquiet.proc i))
  | selects mgr hselects =>
    refine hothers hselects.others fun hmgr => hselects.parent.mpr (hinv mgr ?_)
    by_cases hfree : (k.proc mgr).state = .unused
    · exact .inl hfree
    · have htid : (k'.proc mgr).tid = (k.proc mgr).tid :=
        congrArg Identity.tid (hselects.identity hfree)
      exact hmgr.imp hselects.unused.mp fun hne => htid ▸ hne
  | forks np hforks =>
    refine hothers hforks.spawning.others fun hnp => ?_
    rw [hforks.state] at hnp
    have htid : (k'.proc np).tid = 0 := congrArg Identity.tid hforks.identity
    exact absurd htid (hnp.resolve_left (by decide))
  | creates np mgr hcreates =>
    exact hothers hcreates.spawning.others fun _ =>
      hcreates.parent.mpr (hinv np (.inl hcreates.spawning.before))
  | @execs cur _ _ _ _ hexecs =>
    refine hothers hexecs.others fun hcur => hexecs.parent.mpr (hinv cur ?_)
    have htid : (k'.proc cur).tid = (k.proc cur).tid := congrArg Identity.tid hexecs.identity
    exact .inr (htid ▸ hcur.resolve_left hexecs.live.1)
  | waits p d _ hreaps => exact hkept hinv fun i => kept_of_settled (hreaps.settled i)
  | joins p _ hreaps => exact hkept hinv fun i => kept_of_settled (hreaps.settled i)
  | threadExits _ hdies => exact hkept hinv fun i => kept_of_dies hdies (At.live henabled) i
  | @exits cur _ left hleaves hdies =>
    have hleft : left.Fatherless :=
      hkept hinv fun i => kept_of_settled (hleaves.settled_proc i)
    exact hkept hleft fun i => kept_of_dies hdies ((hleaves.live cur).mpr (At.live henabled)) i
  | returns _ hleaves => exact hkept hinv fun i => kept_of_settled (hleaves.settled_proc i)
  | @begins cur left hleaves =>
    have hleft : left.Fatherless :=
      hkept hinv fun i => kept_of_settled (hleaves.settled_proc i)
    intro i
    rw [modify_proc]
    split
    · exact hleft cur
    · exact hleft i
  | ends hdies => exact hkept hinv fun i => kept_of_dies hdies (At.live henabled) i
  | @grants cur _ _ hgrants =>
    intro i
    by_cases hi : i = cur
    · rw [hi, hgrants.same]
      exact hinv cur
    · rw [hgrants.others i hi]
      exact hinv i

theorem init_stays (hinit : (k.proc k.initproc).Live ∧ (k.proc k.initproc).context ≠ .exit)
    (henabled : k.Enabled a) (hstep : k.perform a = .ok (k', out)) :
    (k'.proc k'.initproc).Live ∧ (k'.proc k'.initproc).context ≠ .exit := by
  have heffect := perform_effect henabled hstep
  rw [heffect.initproc]
  have hlive : (k'.proc k.initproc).Live := by
    by_contra hdead
    rcases heffect.death henabled hinit.1 hdead with ⟨rfl, rfl⟩ | ⟨rfl, rfl⟩ | ⟨retval, rfl, -⟩
    · obtain ⟨left, hbegin, -⟩ := exit_gone hstep
      exact exitBegin_not_init hbegin rfl
    · exact hinit.2 henabled.2
    · obtain ⟨r, hexit, -⟩ := map_eq_ok.mp hstep
      rw [threadExit, if_pos rfl] at hexit
      cases hexit
  refine ⟨hlive, fun hexit => ?_⟩
  obtain ⟨-, hcontext⟩ | ⟨rfl, rfl⟩ := heffect.exiting henabled hlive hexit
  · exact hinit.2 hcontext
  · obtain ⟨left, hbegin, -⟩ := exitBegin_done hstep
    exact exitBegin_not_init hbegin rfl

theorem Creates.tid {k k' : Kernel} {cur np mgr : Slot} (h : Creates k k' cur np mgr) :
    (k'.proc np).tid = if mgr = np then 1 else (k.proc mgr).nexttid :=
  congrArg Identity.tid h.identity

theorem parent_step (henabled : k.Enabled a) (hleaves : k.LeavesNone a)
    (hstep : k.perform a = .ok (k', out)) (hinit : (k'.proc k'.initproc).Live) {z : Slot}
    (hparent : (k.proc z).state ≠ .unused → ∃ q, (k.proc z).parent = some q ∧ (k.proc q).Live)
    (hused : (k'.proc z).state ≠ .unused) (htid : (k'.proc z).tid = 0) :
    ∃ q, (k'.proc z).parent = some q ∧ (k'.proc q).Live ∧
      (q = k.initproc ∨ (k.proc q).Live ∧
        if (k.proc z).state = .unused then a = .fork q else (k.proc z).parent = some q) := by
  have heffect := perform_effect henabled hstep
  rw [heffect.initproc] at hinit
  cases perform_fate henabled hstep hused with
  | kept hleaver hbefore hkin =>
    obtain ⟨q, hq, hlive⟩ := hparent hbefore
    refine ⟨q, hkin.parent.trans hq, ?_, .inr ⟨hlive, by rw [if_neg hbefore]; exact hq⟩⟩
    by_contra hdead
    rcases heffect.death henabled hlive hdead with ⟨rfl, rfl⟩ | ⟨rfl, rfl⟩ | ⟨retval, rfl, hne⟩
    · cases hleaver
    · cases hleaver
    · exact hleaves hne z hbefore hq
  | passed cur hleaver hbefore hkin =>
    obtain ⟨q, hq, hlive⟩ := hparent hbefore
    have hpassed := hkin.parent
    unfold reparent at hpassed
    split at hpassed
    · exact ⟨k.initproc, hpassed, hinit, .inl rfl⟩
    · rename_i hne
      refine ⟨q, hpassed.trans hq, ?_, .inr ⟨hlive, by rw [if_neg hbefore]; exact hq⟩⟩
      by_contra hdead
      rcases heffect.death henabled hlive hdead with ⟨rfl, rfl⟩ | ⟨rfl, rfl⟩ | ⟨retval, rfl, -⟩
      · cases hleaver
        exact hne hq
      · cases hleaver
        exact hne hq
      · cases hleaver
  | forked cur ha hfree _ hcur _ =>
    subst ha
    refine ⟨cur, hcur, ?_, .inr ⟨At.live henabled, by rw [if_pos hfree]⟩⟩
    by_contra hdead
    rcases heffect.death henabled (At.live henabled) hdead with ⟨heq, -⟩ | ⟨heq, -⟩ | ⟨r, heq, -⟩
    · cases heq
    · cases heq
    · cases heq
  | created cur start ha hfree =>
    subst ha
    obtain ⟨cur, heq, -⟩ | ⟨cur', start', mgr, heq, hcreates⟩ :=
      heffect.born henabled hfree hused
    · cases heq
    · cases heq
      rw [hcreates.tid] at htid
      split at htid
      · cases htid
      · exact absurd htid (hleaves mgr hcreates.manager)

/-- The invariant: parents are alive, and nobody but processes has one. -/
structure Rooted (trace : List (Kernel × Act × Out)) (k : Kernel) : Prop where
  init : (k.proc k.initproc).Live ∧ (k.proc k.initproc).context ≠ .exit
  fatherless : k.Fatherless
  links : ∀ z, (k.proc z).state ≠ .unused → (k.proc z).tid = 0 → z ≠ k.initproc →
    ∃ q, (k.proc z).parent = some q ∧ (k.proc q).Live ∧ (q = k.initproc ∨ ForkedBy q z trace)

theorem rooted_boot (free : Nat) : Rooted [] (boot free) := by
  refine ⟨⟨⟨by simp [boot], by simp [boot]⟩, by simp [boot, Proc.zero]⟩, fatherless_boot free, ?_⟩
  intro z hused _ hz
  refine absurd ?_ hused
  have hne : z ≠ 0 := hz
  simp [boot, hne, Proc.zero]

theorem Rooted.step (h : Rooted trace k) (hallowed : k.LeavesNoneEnabled a)
    (hstep : k.perform a = .ok (k', out)) : Rooted ((k, a, out) :: trace) k' := by
  obtain ⟨henabled, hleaves⟩ := hallowed
  have heffect := perform_effect henabled hstep
  have hinit := init_stays h.init henabled hstep
  refine ⟨hinit, heffect.fatherless henabled h.fatherless, fun z hused htid hz => ?_⟩
  rw [heffect.initproc] at hz ⊢
  have hlinks := fun hbefore => h.links z hbefore
    ((heffect.sameGroup henabled hbefore hused).tid.symm.trans htid) hz
  obtain ⟨q, hq, hlive, hor⟩ := parent_step henabled hleaves hstep hinit.1
    (fun hbefore => (hlinks hbefore).imp fun q hq => ⟨hq.1, hq.2.1⟩) hused htid
  refine ⟨q, hq, hlive, ?_⟩
  rcases hor with hroot | ⟨hbefore, hwhy⟩
  · exact .inl hroot
  by_cases hfree : (k.proc z).state = .unused
  · rw [if_pos hfree] at hwhy
    refine .inr ⟨hbefore.1, ?_⟩
    rw [if_pos hfree]
    exact hwhy
  · rw [if_neg hfree] at hwhy
    obtain ⟨q', hq', -, hroot | hforked⟩ := hlinks hfree
    · cases hwhy.symm.trans hq'
      exact .inl hroot
    · cases hwhy.symm.trans hq'
      refine .inr ⟨hbefore.1, ?_⟩
      rw [if_neg hfree]
      exact hforked

theorem wait_returns {k0 : Kernel} {p : Slot} {pid : Int}
    (h : k0.wait p = .ok (k', .returned pid)) : pid = -1 ∨
      ∃ z, (k0.proc z).pid = pid ∧ (k0.proc z).state = .zombie ∧
        (k0.proc z).parent = some p := by
  unfold wait at h
  split at h
  · rename_i z hfind
    obtain ⟨hparent, hzombie⟩ := of_decide_eq_true (findSlot_some hfind)
    split at h
    · obtain ⟨left, -, h⟩ := bind_eq_ok.mp h
      cases Except.ok.inj h
      exact .inr ⟨z, rfl, hzombie, hparent⟩
    · cases h
  · split at h
    · cases Except.ok.inj h
      exact .inl rfl
    · cases Except.ok.inj h

theorem Rooted.waits (h : Rooted trace k) {p : Slot} {pid : Int} {z : Slot}
    (hpid : (k.proc z).pid = pid) (hzombie : (k.proc z).state = .zombie)
    (hparent : (k.proc z).parent = some p) :
    ∃ z, (k.proc z).pid = pid ∧ (k.proc z).state = .zombie ∧
      (ForkedBy p z trace ∨ p = k.initproc) := by
  have hused : (k.proc z).state ≠ .unused := by simp [hzombie]
  have htid : (k.proc z).tid = 0 := by
    by_contra hne
    rw [h.fatherless z (.inr hne)] at hparent
    cases hparent
  have hz : z ≠ k.initproc := by
    rintro rfl
    exact h.init.1.2 hzombie
  obtain ⟨q, hq, -, hwhy⟩ := h.links z hused htid hz
  cases hq.symm.trans hparent
  exact ⟨z, hpid, hzombie, hwhy.symm⟩

/-- If no LWP leaves children behind with `thread_exit`, every process has the parent that
forked it, or `init`. -/
theorem parents_valid (free : Nat) (run : Run perform LeavesNoneEnabled (boot free) trace k) :
    Parented trace k := by
  have hrooted : Rooted trace k :=
    run.invariant Rooted (rooted_boot free)
      fun _ _ _ _ _ hrooted hallowed hstep => hrooted.step hallowed hstep
  constructor
  · intro z hused htid hz
    obtain ⟨q, hq, hlive, hroot | hforked⟩ := hrooted.links z hused htid hz
    · exact ⟨q, hq, .inr hroot⟩
    · exact ⟨q, hq, .inl ⟨hlive.1, hforked⟩⟩
  · rintro p a (rfl | rfl) k' pid hstep
    · obtain ⟨⟨k1, answer⟩, hwait, heq⟩ := map_eq_ok.mp hstep
      cases heq
      rcases wait_returns hwait with hfail | ⟨z, hpid, hzombie, hparent⟩
      · exact .inl hfail
      · exact .inr (hrooted.waits hpid hzombie hparent)
    · obtain ⟨⟨k1, answer⟩, hwait, heq⟩ := map_eq_ok.mp hstep
      cases heq
      rcases wait_returns hwait with hfail | ⟨z, hpid, hzombie, hparent⟩
      · exact .inl hfail
      · have hfields : ((k.awake p).proc z).pid = (k.proc z).pid ∧
            ((k.awake p).proc z).state = (k.proc z).state := by
          unfold awake
          rw [modify_proc]
          split
          · rename_i hz
            rw [hz]
            exact ⟨rfl, rfl⟩
          · exact ⟨rfl, rfl⟩
        rw [awake_parent] at hparent
        exact .inr
          (hrooted.waits (hfields.1.symm.trans hpid) (hfields.2.symm.trans hzombie) hparent)

end

/-- An LWP of `init` forks and waits for its child before it ends. -/
theorem parents_valid_waited : ∃ trace k, Run perform LeavesNoneEnabled (boot 100) trace k ∧
    ((k.proc 1).state = .runnable ∧ (k.proc 2).state = .zombie ∧ (k.proc 2).parent = some 1) ∧
    Parented trace k := by
  obtain ⟨trace, k, run, htest⟩ := exists_run perform LeavesNoneEnabled (boot 100)
    [.visit 0 0, .threadCreate 0 5, .yield 0, .visit 0 1, .fork 1, .wait 1, .visit 0 2, .exit 2]
    (fun _ k => (k.proc 1).state = .runnable ∧ (k.proc 2).state = .zombie ∧
      (k.proc 2).parent = some 1) (by decide +kernel)
  exact ⟨trace, k, run, of_decide_eq_true htest, parents_valid 100 run⟩

/-- An LWP forks and ends with `thread_exit`; `init` joins it, gives its stack back with `sbrk` and
forks. The child of the LWP now passes for a child of the new process in its slot, whose `wait`
answers with it. -/
theorem parent_recycled : ∃ trace k, Run perform Enabled (boot 400) trace k ∧
    ((k.proc 2).parent = some 1 ∧ ¬ ForkedBy 1 2 trace) ∧ k.Enabled (.wait 1) ∧
    (∃ k', k.perform (.wait 1) = .ok (k', .answer (.returned (k.proc 2).pid))) ∧
    ¬ Parented trace k := by
  obtain ⟨trace, k, run, htest⟩ := exists_run perform Enabled (boot 400)
    [.visit 0 0, .threadCreate 0 5, .yield 0, .visit 0 1, .fork 1, .threadExit 1 7, .visit 0 0,
      .threadJoin 0 1, .sbrk 0 (-8192), .fork 0, .yield 0, .visit 0 2, .exit 2, .visit 0 1]
    (fun trace k => decide ((k.initproc = 0 ∧ (k.proc 2).state = .zombie ∧ (k.proc 2).tid = 0) ∧
      ((k.proc 2).parent = some 1 ∧ ¬ ForkedBy 1 2 trace) ∧ k.Enabled (.wait 1)) &&
      succeeds perform k (.wait 1) fun _ out =>
        decide (out = .answer (.returned (k.proc 2).pid))) (by decide +kernel)
  obtain ⟨hstate, hwait⟩ := Bool.and_eq_true_iff.mp htest
  obtain ⟨⟨hinit, hzombie, htid⟩, ⟨hparent, hnot⟩, henabled⟩ := of_decide_eq_true hstate
  obtain ⟨k', out, hstep, hout⟩ := exists_of_succeeds hwait
  cases of_decide_eq_true hout
  refine ⟨trace, k, run, ⟨hparent, hnot⟩, henabled, ⟨k', hstep⟩, fun hparented => ?_⟩
  obtain ⟨q, hq, ⟨-, hforked⟩ | hroot⟩ := hparented.links 2 (by simp [hzombie]) htid
    (by rw [hinit]; decide)
  · cases hparent.symm.trans hq
    exact hnot hforked
  · cases hparent.symm.trans hq
    cases hroot.trans hinit

end Xv6.Kernel

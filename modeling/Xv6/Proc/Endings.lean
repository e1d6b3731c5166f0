import Xv6.Proc.Effects

/-! The effect of the operations that end a process or take its slot back: `exit` with
its sweep over the group, `thread_exit`, `wait` and `thread_join`. -/
namespace Xv6.Kernel

open Word Fallible

structure Dies (k k' : Kernel) (cur : Slot) (retval : Nat) : Prop where
  shares : SameShares k k'
  freed : k'.freed = k.freed
  nextdir : k'.nextdir = k.nextdir
  state : (k'.proc cur).state = .zombie
  parent : (k'.proc cur).parent = none ↔ (k.proc cur).parent = none
  identity : (k'.proc cur).identity = { (k.proc cur).identity with retval := retval }
  others : ∀ i, i ≠ cur → Proc.Quiet (k.proc i) (k'.proc i)

theorem Quiet.dies {k k1 k' : Kernel} {cur : Slot} {retval : Nat} (h : Quiet k k1)
    (hcur : (k.proc cur).Live) (h' : Dies k1 k' cur retval) : Dies k k' cur retval where
  shares := h.shares.trans h'.shares
  freed := h'.freed.trans h.freed
  nextdir := h'.nextdir.trans h.nextdir
  state := h'.state
  parent := h'.parent.trans (h.proc cur).parent
  identity := by rw [h'.identity, (h.proc cur).identity hcur.1]
  others := fun i hi => (h.proc i).trans (h'.others i hi)

/-- The last steps of a death: the exit value is in place, and after quiet steps the
state changes. -/
theorem dies_of_quiet {k k1 : Kernel} {cur : Slot} {retval : Nat}
    (h : Quiet (k.modify cur fun p => { p with retval := retval }) k1)
    (hcur : (k.proc cur).Live) :
    Dies k ((k1.modify cur fun p => { p with state := .zombie }).sched cur) cur retval where
  shares := ⟨h.shares.heap, h.shares.strideTickets, h.shares.initproc⟩
  freed := h.freed
  nextdir := h.nextdir
  state := by simp [sched]
  parent := by
    have hparent := (h.proc cur).parent
    simpa [sched] using hparent
  identity := by
    have hid := (h.proc cur).identity
    simp only [modify_proc_same] at hid
    simp only [sched, modify_proc_same]
    exact hid hcur.1
  others := by
    intro i hi
    have hquiet := h.proc i
    rw [modify_proc_ne _ _ hi] at hquiet
    simpa [sched, hi] using hquiet

theorem quiet_notify {k k' : Kernel} {cur : Slot} (h : k.notify cur = .ok k') : Quiet k k' := by
  unfold notify at h
  split at h
  · cases Except.ok.inj h
    exact quiet_wakeup1 _ _
  · obtain ⟨mgr, -, rfl⟩ := map_eq_ok.mp h
    exact (quiet_modify_of_eq k mgr _ rfl rfl rfl).trans (quiet_wakeup1 _ _)

theorem quiet_reparent (old new : Slot) (p : Proc) : p.Quiet (reparent old new p) := by
  unfold reparent
  split
  · rename_i h
    exact .of_identity Iff.rfl Iff.rfl (by simp [h]) rfl
  · exact .refl p

theorem quiet_passChildren (k : Kernel) (cur : Slot) : Quiet k (k.passChildren cur) := by
  have hpassed : Quiet k { k with proc := fun slot => reparent cur k.initproc (k.proc slot) } :=
    ⟨⟨rfl, rfl, rfl⟩, rfl, rfl, fun _ => quiet_reparent _ _ _⟩
  unfold passChildren
  dsimp only
  split
  · exact hpassed.trans (quiet_wakeup1 _ _)
  · exact hpassed

theorem exitEnd_effect {k k' : Kernel} {cur : Slot} (hcur : (k.proc cur).Live)
    (h : k.exitEnd cur = .ok k') : Dies k k' cur (k.proc cur).retval := by
  obtain ⟨k1, hclose, h⟩ := bind_eq_ok.mp h
  obtain ⟨k2, hnotify, h⟩ := bind_eq_ok.mp h
  cases Except.ok.inj h
  have hquiet : Quiet k (k2.passChildren cur) :=
    ((quiet_closeFiles hclose).trans (quiet_notify hnotify)).trans (quiet_passChildren _ _)
  apply dies_of_quiet _ hcur
  have hsame : (k.modify cur fun p => { p with retval := (k.proc cur).retval }) = k := by
    simp [modify]
  rw [hsame]
  exact hquiet

theorem threadExit_effect {k k' : Kernel} {cur : Slot} {retval : Nat} {a : Answer}
    (hcur : (k.proc cur).Live) (h : k.threadExit cur retval = .ok (k', a)) :
    k' = k ∧ a = .returned 0 ∨
      (k.proc cur).tid ≠ 0 ∧ Dies k k' cur retval ∧ a = .gone := by
  unfold threadExit at h
  split at h
  · cases h
  · split at h
    · cases Except.ok.inj h
      exact .inl ⟨rfl, rfl⟩
    · rename_i htid
      obtain ⟨k1, hclose, h⟩ := bind_eq_ok.mp h
      cases Except.ok.inj h
      have hquiet := quiet_closeFiles hclose
      refine .inr ⟨htid, hquiet.dies hcur ?_, rfl⟩
      exact dies_of_quiet (quiet_wakeup1 _ _) ((hquiet.proc cur).live.mpr hcur)

structure Reaps (k k' : Kernel) (p : Slot) : Prop where
  shares : SameShares k k'
  nextdir : k'.nextdir = k.nextdir
  before : (k.proc p).state = .zombie
  after : (k'.proc p).state = .unused
  parent : (k'.proc p).parent = none
  idle : (k.proc p).Idle → (k'.proc p).Idle
  others : ∀ i, i ≠ p → Proc.Quiet (k.proc i) (k'.proc i)

theorem Reaps.settled {k k' : Kernel} {p : Slot} (h : Reaps k k' p) (i : Slot) :
    Proc.Settled (k.proc i) (k'.proc i) := by
  by_cases hi : i = p
  · subst hi
    exact .reaped h.before h.after h.parent h.idle
  · exact .quiet (h.others i hi)

theorem Reaps.quiet {k k' k'' : Kernel} {p : Slot} (h : Reaps k k' p) (h' : Quiet k' k'') :
    Reaps k k'' p where
  shares := h.shares.trans h'.shares
  nextdir := h'.nextdir.trans h.nextdir
  before := h.before
  after := (h'.proc p).unused.mpr h.after
  parent := (h'.proc p).parent.mpr h.parent
  idle := (h'.proc p).idle ∘ h.idle
  others := fun i hi => (h.others i hi).trans (h'.proc i)

/-- Sizes for which the `deallocuvm` of a reaped LWP returns 0. -/
def NoStack (sz : Nat) : Prop := sz = 0 ∨ u32OfInt (sz - 2 * pgsize) = 0

instance (sz : Nat) : Decidable (NoStack sz) := inferInstanceAs (Decidable (_ ∨ _))

theorem reap_effect {k k' : Kernel} {mgr p : Slot} {pushed : Bool}
    (hp : (k.proc p).state = .zombie) (h : k.reap mgr p = .ok (k', pushed)) :
    Reaps k k' p ∧ k'.freed = k.freed ∧ (∀ i, (k'.proc i).sz = (k.proc i).sz) ∧
      (pushed = false → NoStack (k.proc p).sz) := by
  obtain ⟨d, -, h⟩ := bind_eq_ok.mp h
  obtain ⟨⟨s, result⟩, hdealloc, h⟩ := bind_eq_ok.mp h
  dsimp only at h
  have hcleared : Reaps k (((k.setFree (k.free + 1)).modify p reapFields).setSpace d s) p := by
    refine ⟨⟨rfl, rfl, rfl⟩, rfl, hp, by simp [setSpace, reapFields],
      by simp [setSpace, reapFields], by simp [setSpace, reapFields, Proc.Idle], ?_⟩
    intro i hi
    simpa [setSpace, setFree, hi] using Proc.Quiet.refl (k.proc i)
  have hsz : ∀ i, ((((k.setFree (k.free + 1)).modify p reapFields).setSpace d s).proc i).sz =
      (k.proc i).sz := by
    intro i
    by_cases hi : i = p
    · subst hi
      simp [setSpace, reapFields, setFree]
    · simp [setSpace, setFree, hi]
  have hresult := deallocuvm_result hdealloc
  simp only [modify_proc_same, reapFields, setFree] at hresult
  split at h
  · rename_i hzero
    cases Except.ok.inj h
    refine ⟨hcleared, rfl, hsz, fun _ => ?_⟩
    unfold NoStack
    omega
  · split at h
    · cases h
    · cases Except.ok.inj h
      refine ⟨hcleared.quiet (quiet_modify_of_eq _ _ _ rfl rfl rfl), rfl, ?_, by simp⟩
      intro i
      by_cases hi : i = mgr
      · subst hi
        rw [modify_proc_same]
        exact hsz i
      · rw [modify_proc_ne _ _ hi]
        exact hsz i

theorem Quiet.not_reaped {k k' : Kernel} (h : Quiet k k') {i : Slot}
    (hz : (k.proc i).state = .zombie) (hu : (k'.proc i).state = .unused) : False := by
  rw [(h.proc i).unused.mp hu] at hz
  cases hz

theorem quiet_killed (k : Kernel) (p : Slot) : Quiet k (k.modify p fun q =>
    { q with killed := true, state := if q.state = .sleeping then .runnable else q.state }) :=
  quiet_modify k p _ (Proc.quiet_wake _ true)

theorem sweepOne_effect {k k' : Kernel} {mgr p : Slot} {lwp : Option Slot} {go : Bool}
    (h : k.sweepOne mgr lwp p = .ok (k', go)) :
    Settles k k' ∧ (∀ i, (k'.proc i).sz = (k.proc i).sz) ∧
      (∀ i, (k.proc i).state = .zombie → (k'.proc i).state = .unused →
        (k.proc i).manager = some mgr) ∧
      (go = false → (k.proc p).state = .zombie ∧ (k.proc p).manager = some mgr ∧
        NoStack (k.proc p).sz) := by
  unfold sweepOne at h
  split at h
  · cases Except.ok.inj h
    exact ⟨.refl k, fun _ => rfl, fun i hz hu => ((Quiet.refl k).not_reaped hz hu).elim, by simp⟩
  · rename_i hgroup
    split at h
    · cases Except.ok.inj h
      have hquiet := quiet_killed k p
      refine ⟨hquiet.settles, fun i => ?_, fun i hz hu => (hquiet.not_reaped hz hu).elim, by simp⟩
      by_cases hi : i = p
      · subst hi; simp
      · simp [hi]
    · rename_i hstate
      have hzombie : (k.proc p).state = .zombie := not_not.mp hstate
      have hmanager : (k.proc p).manager = some mgr := by
        by_contra hne
        exact hgroup (.inl hne)
      obtain ⟨hreaps, hfreed, hsz, hnoStack⟩ := reap_effect hzombie h
      refine ⟨⟨hreaps.shares, hfreed, hreaps.nextdir, hreaps.settled⟩, hsz, fun i hz hu => ?_,
        fun hgo => ⟨hzombie, hmanager, hnoStack hgo⟩⟩
      by_cases hi : i = p
      · rw [hi, hmanager]
      · rw [(hreaps.others i hi).unused.mp hu] at hz
        cases hz

/-- The sweep reaps only zombies of the group, and is cut short only by one that has no
stack. -/
theorem sweep_effect {k k' : Kernel} {mgr : Slot} {lwp : Option Slot} {go : Bool}
    {rest : List Slot} (h : sweep mgr lwp rest k = .ok (k', go)) :
    Settles k k' ∧
      (∀ i, (k.proc i).state = .zombie → (k'.proc i).state = .unused →
        (k.proc i).manager = some mgr) ∧
      (go = false → ∃ p, (k.proc p).state = .zombie ∧ (k.proc p).manager = some mgr ∧
        NoStack (k.proc p).sz) := by
  induction rest generalizing k with
  | nil =>
    cases Except.ok.inj h
    exact ⟨.refl _, fun i hz hu => ((Quiet.refl _).not_reaped hz hu).elim, by simp⟩
  | cons p rest ih =>
    obtain ⟨⟨k1, go1⟩, hone, h⟩ := bind_eq_ok.mp h
    obtain ⟨hsettles, hsz, hreaped, hcut⟩ := sweepOne_effect hone
    -- a zombie after one turn was the same zombie before it
    have hsame : ∀ q, (k1.proc q).state = .zombie →
        (k.proc q).state = .zombie ∧ (k1.proc q).manager = (k.proc q).manager := by
      intro q hzombie
      cases hsettles.proc q with
      | quiet hquiet =>
        have hbefore := hquiet.zombie.mp hzombie
        have hid := hquiet.identity (by rw [hbefore]; simp)
        exact ⟨hbefore, congrArg Identity.manager hid⟩
      | reaped _ hafter _ _ =>
        rw [hafter] at hzombie
        cases hzombie
    cases go1 with
    | false =>
      cases Except.ok.inj h
      exact ⟨hsettles, hreaped, fun _ => ⟨p, hcut rfl⟩⟩
    | true =>
      obtain ⟨hrest, hreapedRest, hcutRest⟩ := ih h
      refine ⟨hsettles.trans hrest, fun i hz hu => ?_, fun hgo => ?_⟩
      · cases hsettles.proc i with
        | quiet hquiet =>
          have hzombie := hquiet.zombie.mpr hz
          rw [← (hsame i hzombie).2]
          exact hreapedRest i hzombie hu
        | reaped _ hafter _ _ => exact hreaped i hz hafter
      · obtain ⟨q, hzombie, hmanager, hstack⟩ := hcutRest hgo
        obtain ⟨hbefore, hmgr⟩ := hsame q hzombie
        exact ⟨q, hbefore, hmgr ▸ hmanager, hsz q ▸ hstack⟩

def swept (k : Kernel) (cur : Slot) : Option Slot :=
  if 0 < (k.proc cur).tid then (k.proc cur).manager else some cur

/-- Neither of the two early returns of `exit` is taken. -/
def ExitCompletes (k : Kernel) (cur : Slot) : Prop :=
  0 ≤ (k.proc cur).tid ∧ ∀ i, (k.proc i).state = .zombie →
    (k.proc i).manager = k.swept cur → ¬ NoStack (k.proc i).sz

instance (k : Kernel) (cur : Slot) : Decidable (k.ExitCompletes cur) :=
  inferInstanceAs (Decidable (_ ∧ _))

theorem returnShare_proc {k k' : Kernel} {cur : Slot} (h : k.returnShare cur = .ok k') :
    k'.proc = k.proc ∧ k'.freed = k.freed ∧ k'.nextdir = k.nextdir ∧
      k'.initproc = k.initproc := by
  unfold returnShare at h
  split at h
  · obtain ⟨popped, -, rfl⟩ := map_eq_ok.mp h
    exact ⟨rfl, rfl, rfl, rfl⟩
  · cases Except.ok.inj h
    exact ⟨rfl, rfl, rfl, rfl⟩

theorem exitBegin_effect {k k' : Kernel} {cur : Slot} {go : Bool}
    (h : k.exitBegin cur = .ok (k', go)) :
    ∃ k1, k.returnShare cur = .ok k1 ∧ Settles k1 k' ∧
      (∀ i, (k.proc i).state = .zombie → (k'.proc i).state = .unused →
        (k.proc i).manager = k.swept cur) ∧
      (go = false → ¬ k.ExitCompletes cur) := by
  have hsweep : ∀ {k1 : Kernel} {mgr : Slot} {lwp : Option Slot}, k1.proc = k.proc →
      k.swept cur = some mgr → sweep mgr lwp slots k1 = .ok (k', go) → Settles k1 k' ∧
        (∀ i, (k.proc i).state = .zombie → (k'.proc i).state = .unused →
          (k.proc i).manager = k.swept cur) ∧
        (go = false → ¬ k.ExitCompletes cur) := by
    intro k1 mgr lwp hproc hswept hsweep
    obtain ⟨hsettles, hreaped, hcut⟩ := sweep_effect hsweep
    rw [hproc] at hreaped hcut
    rw [hswept]
    refine ⟨hsettles, hreaped, fun hgo hcompletes => ?_⟩
    obtain ⟨p, hzombie, hgroup, hstack⟩ := hcut hgo
    exact hcompletes.2 p hzombie (hgroup.trans hswept.symm) hstack
  unfold exitBegin at h
  split at h
  · cases h
  · obtain ⟨k1, hshare, h⟩ := bind_eq_ok.mp h
    have hproc := (returnShare_proc hshare).1
    refine ⟨k1, hshare, ?_⟩
    split at h
    · rename_i htid
      rw [hproc] at htid
      obtain ⟨mgr, hmgr, h⟩ := bind_eq_ok.mp h
      have hmanager := deref_eq_ok hmgr
      rw [hproc] at hmanager
      exact hsweep hproc (by rw [swept, if_pos htid, hmanager]) h
    · split at h
      · rename_i hpos htid
        rw [hproc] at hpos
        exact hsweep hproc (by rw [swept, if_neg hpos]) h
      · rename_i hpos hzero
        cases Except.ok.inj h
        rw [hproc] at hpos hzero
        refine ⟨.refl _, fun i hz hu => ?_, fun _ hcompletes => ?_⟩
        · rw [hproc, hz] at hu
          cases hu
        · have := hcompletes.1
          omega

theorem wait_effect {k k' : Kernel} {cur : Slot} {a : Answer} (hcur : (k.proc cur).Live)
    (hcontext : (k.proc cur).context ≠ .exit) (h : k.wait cur = .ok (k', a)) :
    Quiet k k' ∧ a ≠ .gone ∨ ∃ p d, Reaps k k' p ∧ (k.proc p).parent = some cur ∧
      (k.proc p).pgdir = some d ∧ k'.freed = insert d k.freed := by
  unfold wait at h
  split at h
  · rename_i p hfind
    have hchild := findSlot_some hfind
    simp only [decide_eq_true_eq] at hchild
    split at h
    · rename_i d hdir
      obtain ⟨left, -, h⟩ := bind_eq_ok.mp h
      cases Except.ok.inj h
      refine .inr ⟨p, d, Reaps.quiet ?_ (quiet_setContext _ _ ?_ (by simp)), hchild.1, hdir, rfl⟩
      · refine ⟨⟨rfl, rfl, rfl⟩, rfl, hchild.2, by simp [waitFields], by simp [waitFields],
          by simp [waitFields, Proc.Idle], ?_⟩
        intro i hi
        simpa [hi] using Proc.Quiet.refl (k.proc i)
      · have hne : cur ≠ p := by
          intro heq
          subst heq
          exact hcur.2 hchild.2
        simpa [hne] using hcontext
    · cases h
  · split at h
    · cases Except.ok.inj h
      exact .inl ⟨quiet_setContext _ _ hcontext (by simp), by simp⟩
    · cases Except.ok.inj h
      refine .inl ⟨(quiet_setContext _ _ hcontext (by simp)).trans (quiet_sleep _ _ _ ?_), by simp⟩
      simpa [Proc.Live] using hcur

theorem threadJoin_effect {k k' : Kernel} {cur : Slot} {thread : Int} {out : Joined}
    (hcur : (k.proc cur).Live) (hcontext : (k.proc cur).context ≠ .exit)
    (h : k.threadJoin cur thread = .ok (k', out)) :
    Quiet k k' ∧ (out = .failed ∨ out = .slept) ∨
      ∃ p, Reaps k k' p ∧ k'.freed = k.freed ∧ (k.proc p).manager = some cur ∧
        (k.proc p).tid = thread ∧ (out = .delivered (k.proc p).retval ∨ out = .failed) := by
  unfold threadJoin at h
  split at h
  · cases Except.ok.inj h
    exact .inl ⟨.refl k, .inl rfl⟩
  · split at h
    · rename_i p hfind
      have hlwp := findSlot_some hfind
      simp only [decide_eq_true_eq] at hlwp
      obtain ⟨⟨k1, pushed⟩, hreap, h⟩ := bind_eq_ok.mp h
      cases Except.ok.inj h
      obtain ⟨hreaps, hfreed, -, -⟩ := reap_effect hlwp.2.2 hreap
      have hne : cur ≠ p := by
        intro heq
        subst heq
        exact hcur.2 hlwp.2.2
      have hexiting := congrArg Identity.exiting ((hreaps.others cur hne).identity hcur.1)
      simp only [Proc.identity, decide_eq_decide] at hexiting
      refine .inr ⟨p, hreaps.quiet (quiet_setContext _ _ (mt hexiting.mp hcontext) (by simp)),
        hfreed, hlwp.1, hlwp.2.1, ?_⟩
      cases pushed with
      | true => exact .inl rfl
      | false => exact .inr rfl
    · split at h
      · cases Except.ok.inj h
        exact .inl ⟨quiet_setContext _ _ hcontext (by simp), .inl rfl⟩
      · cases Except.ok.inj h
        refine .inl ⟨(quiet_setContext _ _ hcontext (by simp)).trans (quiet_sleep _ _ _ ?_),
          .inr rfl⟩
        simpa [Proc.Live] using hcur

end Xv6.Kernel

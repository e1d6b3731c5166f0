import Xv6.Group.Join

/-! What `exit` leaves of the group of its caller. The sweep marks and wakes the LWPs; the
manager of an LWP is marked at the very end, and woken only if it sleeps on its own address. -/
namespace Xv6

open Fallible Transition

namespace Proc

def Down (p : Proc) : Prop :=
  p.state = .unused ∨ p.state = .zombie ∨ p.killed = true ∧ p.state ≠ .sleeping

instance (p : Proc) : Decidable p.Down := inferInstanceAs (Decidable (_ ∨ _ ∨ _))

variable {strict : Prop} {p q : Proc}

theorem Steady.down (h : Steady strict p q) (hp : p.Down) : q.Down :=
  hp.imp h.unused.mpr (Or.imp h.zombie.mpr
    (And.imp h.killed fun hawake hs => hawake (h.asleep hs).1))

theorem Swept.down (h : Swept strict p q) (hp : p.Down) : q.Down := by
  cases h with
  | steady h => exact h.down hp
  | vacated h => exact .inl h.after

end Proc

namespace Kernel

def Mate (k : Kernel) (c z : Slot) : Prop :=
  z ≠ c ∧ ∃ m, k.swept c = some m ∧
    (z = m ∨ (k.proc z).manager = some m ∧ (k.proc z).tid ≠ 0)

instance (k : Kernel) (c z : Slot) : Decidable (k.Mate c z) := inferInstanceAs (Decidable (_ ∧ _))

/-- Some member of the group of `m` other than `p` is between the two halves of `exit`. -/
def Leaving (k : Kernel) (m p : Slot) : Prop :=
  ∃ c, c ≠ p ∧ (k.proc c).Live ∧ (k.proc c).context = .exit ∧ k.swept c = some m

instance (k : Kernel) (m p : Slot) : Decidable (k.Leaving m p) :=
  inferInstanceAs (Decidable (∃ _, _))

/-- An LWP leaves while its manager is awake or waits on its own address, and while a member of
a group leaves no other LWP of it goes to sleep and none is created. -/
def Watched (k : Kernel) : Act → Prop
  | .exit p | .exitEnd p => ∀ m, (k.proc p).manager = some m → (k.proc p).tid ≠ 0 →
      (k.proc m).state = .sleeping → (k.proc m).chan = some (.proc m)
  | .sleepOn p _ => ∀ m, (k.proc p).manager = some m → (k.proc p).tid ≠ 0 → ¬ k.Leaving m p
  | .threadCreate p _ => ∀ m, k.manager? p = .ok (some m) → ¬ k.Leaving m p
  | _ => True

instance (k : Kernel) : (a : Act) → Decidable (k.Watched a)
  | .exit _ | .exitEnd _ | .sleepOn .. | .threadCreate .. => inferInstanceAs (Decidable (∀ _, _))
  | .exitBegin _ | .wait _ | .resumeWait _ | .threadJoin .. | .resumeJoin _ | .exec ..
  | .visit .. | .yield _ | .wakeup _ | .charge .. | .kill .. | .fork _ | .sbrk ..
  | .setCpuShare .. | .threadExit .. => inferInstanceAs (Decidable True)

def WatchedEnabled (k : Kernel) (a : Act) : Prop := k.Enabled a ∧ k.Watched a

instance (k : Kernel) (a : Act) : Decidable (k.WatchedEnabled a) :=
  inferInstanceAs (Decidable (_ ∧ _))

section

variable {strict : Prop} {k k' : Kernel} {a : Act} {out : Out}

theorem sweepOne_marks {mgr z : Slot} {lwp : Option Slot} {go : Bool}
    (hmanager : (k.proc z).manager = some mgr) (hlwp : lwp ≠ some z)
    (h : k.sweepOne mgr lwp z = .ok (k', go)) : (k'.proc z).Down := by
  unfold sweepOne at h
  rw [if_neg (by simp [hmanager, hlwp])] at h
  split at h
  · cases Except.ok.inj h
    rw [modify_proc_same]
    refine .inr (.inr ⟨rfl, ?_⟩)
    dsimp only
    split
    · simp
    · assumption
  · rename_i hzombie
    exact .inl (reap_effect (not_not.mp hzombie) h).1.after

theorem sweep_marks {mgr z : Slot} {lwp : Option Slot} {rest : List Slot}
    (hmanager : (k.proc z).manager = some mgr) (hlwp : lwp ≠ some z) (hz : z ∈ rest)
    (h : sweep mgr lwp rest k = .ok (k', true)) : (k'.proc z).Down := by
  induction rest generalizing k with
  | nil => cases hz
  | cons p rest ih =>
    obtain ⟨⟨k1, go⟩, hone, h⟩ := bind_eq_ok.mp h
    cases go with
    | false => cases h
    | true =>
      have hrest : Swept False k1 k' := swept_sweep (nomatch ·) h
      rcases List.mem_cons.mp hz with rfl | hz
      · exact (hrest z).down (sweepOne_marks hmanager hlwp hone)
      · cases @swept_sweepOne False _ _ _ _ _ _ (nomatch ·) hone z with
        | steady hsteady => exact ih (hsteady.manager.trans hmanager) hz h
        | vacated hvacated => exact (hrest z).down (.inl hvacated.after)

theorem exitBegin_marks {c m z : Slot} (hm : k.swept c = some m)
    (hmanager : (k.proc z).manager = some m) (hz : z ≠ c)
    (h : k.exitBegin c = .ok (k', true)) : (k'.proc z).Down := by
  unfold exitBegin at h
  split at h
  · cases h
  obtain ⟨k1, hshare, h⟩ := bind_eq_ok.mp h
  have hproc := (returnShare_proc hshare).1
  have hmanager1 : (k1.proc z).manager = some m := by rwa [hproc]
  unfold swept at hm
  rw [hproc] at h
  split at h
  · rename_i htid
    rw [if_pos htid] at hm
    obtain ⟨mgr, hderef, h⟩ := bind_eq_ok.mp h
    cases (deref_eq_ok hderef).symm.trans hm
    exact sweep_marks hmanager1 (by simpa using hz.symm) (List.mem_finRange z) h
  · rename_i htid
    rw [if_neg htid] at hm
    cases hm
    split at h
    · exact sweep_marks hmanager1 (by simp) (List.mem_finRange z) h
    · cases h

theorem swept_eq {c : Slot} (hmanager : (k'.proc c).manager = (k.proc c).manager)
    (htid : (k'.proc c).tid = (k.proc c).tid) : k'.swept c = k.swept c := by
  unfold swept
  rw [hmanager, htid]

theorem exitEnd_killed {c m : Slot} (hc : (k.proc c).Live) (hm : (k.proc c).manager = some m)
    (htid : (k.proc c).tid ≠ 0) (hne : m ≠ c) (h : k.exitEnd c = .ok k') :
    (k'.proc m).killed = true := by
  obtain ⟨k1, hclose, h⟩ := bind_eq_ok.mp h
  obtain ⟨k2, hnotify, h⟩ := bind_eq_ok.mp h
  cases Except.ok.inj h
  have hclosed := @steady_closeFiles False _ _ _ hc hclose c
  unfold notify at hnotify
  rw [if_neg (by rwa [hclosed.tid]), hclosed.manager, hm] at hnotify
  cases Except.ok.inj hnotify
  simp only [sched, modify_proc_ne _ _ hne]
  apply (@steady_passChildren False _ c m).killed
  apply (@steady_wakeup1 False _ _ m).killed
  rw [modify_proc_same]

theorem exitEnd_down {c : Slot} (hc : (k.proc c).Live)
    (hlwps : ∀ m, k.swept c = some m → ∀ z, z ≠ c → (k.proc z).manager = some m →
      (k.proc z).tid ≠ 0 → (k.proc z).Down)
    (hmanager : ∀ m, (k.proc c).manager = some m → (k.proc c).tid ≠ 0 →
      (k.proc m).state = .sleeping → (k.proc m).chan = some (.proc m))
    (h : k.exitEnd c = .ok k') {z : Slot} (hz : k.Mate c z) : (k'.proc z).Down := by
  obtain ⟨hne, m, hm, hzm⟩ := hz
  have hends : Ends False k k' c := exitEnd_ends hc (nomatch ·) h
  have hsteady := hends.others z hne
  rcases hzm with rfl | ⟨hz, htid⟩
  · have hpositive : 0 < (k.proc c).tid := by
      by_contra hnot
      unfold swept at hm
      rw [if_neg hnot] at hm
      exact hne (Option.some.inj hm).symm
    have hm : (k.proc c).manager = some z := by
      unfold swept at hm
      rwa [if_pos hpositive] at hm
    refine .inr (.inr ⟨exitEnd_killed hc hm hpositive.ne' hne h, fun hsleeping => ?_⟩)
    obtain ⟨hbefore, -, hchan⟩ := hsteady.asleep hsleeping
    exact exitEnd_wakes hm hpositive.ne' hc h
      ⟨hsleeping, hchan.trans (hmanager z hm hpositive.ne' hbefore)⟩
  · exact hsteady.down (hlwps m hm z hne hz htid)

/-- Whoever is between the two halves of `exit` has swept its group. -/
structure Marked (k : Kernel) : Prop where
  lwps : ∀ c, (k.proc c).Live → (k.proc c).context = .exit → ∀ m, k.swept c = some m →
    ∀ z, z ≠ c → (k.proc z).manager = some m → (k.proc z).tid ≠ 0 → (k.proc z).Down

theorem marked_boot (free : Nat) : (boot free).Marked := by
  have hcontext : ∀ c, ((boot free).proc c).context ≠ .exit := by
    intro c
    by_cases hc : c = 0
    · subst hc
      simp [boot, Proc.zero]
    · simp [boot, hc, Proc.zero]
  exact ⟨fun c _ hexit => absurd hexit (hcontext c)⟩

theorem Turn.down {z : Slot} {q : Proc} (h : Turn strict k a out z q)
    (hz : (k.proc z).manager = q.manager → (k.proc z).tid = q.tid → (k.proc z).Down)
    (hsleep : ∀ chan, a = .sleepOn z chan → (k.proc z).manager = q.manager →
      (k.proc z).tid ≠ q.tid) :
    q.Down ∨ q.tid = 0 ∨ ∃ cur mgr start, a = .threadCreate cur start ∧
      k.manager? cur = .ok (some mgr) ∧ q.manager = some mgr := by
  cases h with
  | steady h => exact .inl (h.down (hz h.manager.symm h.tid.symm))
  | vacated h => exact .inl (.inl h.after)
  | slept hlive h =>
    obtain ⟨-, hmanager, htid, -⟩ := h.same
    have hdown := hz hmanager.symm htid.symm
    have hkilled : (k.proc z).killed = true :=
      ((hdown.resolve_left hlive.1).resolve_left hlive.2).1
    cases h with
    | on chan ha _ => exact absurd htid.symm (hsleep chan ha hmanager.symm)
    | wait _ hnot _ => exact absurd (hkilled.symm.trans hnot) (by simp)
    | join _ _ _ hnot _ _ _ _ => exact absurd (hkilled.symm.trans hnot) (by simp)
  | ended _ h _ => exact .inl (.inr (.inl h.state))
  | untouched h => exact .inl (.inl h.after)
  | forked _ _ h => exact .inr (.inl h.tid)
  | created cur mgr start ha hmgr h => exact .inr (.inr ⟨cur, mgr, start, ha, hmgr, h.manager⟩)
  | spoiled _ _ _ _ _ h _ => exact .inl (.inl h.after)

theorem Marked.still_down (hk : k.Marked) (hallowed : k.WatchedEnabled a)
    (hturn : ∀ i, Turn False k a out i (k'.proc i)) {c m z : Slot} (hc : (k.proc c).Live)
    (hexit : (k.proc c).context = .exit) (hm : k.swept c = some m) (hne : z ≠ c)
    (hmanager : (k'.proc z).manager = some m) (htid : (k'.proc z).tid ≠ 0) :
    (k'.proc z).Down := by
  have hdown := (hturn z).down
    (fun hsame htid' => hk.lwps c hc hexit m hm z hne (hsame.trans hmanager) (htid' ▸ htid))
    (fun chan ha hsame htid' => by
      subst ha
      exact hallowed.2 m (hsame.trans hmanager) (htid' ▸ htid) ⟨c, hne.symm, hc, hexit, hm⟩)
  rcases hdown with hdown | hzero | ⟨cur, mgr, start, rfl, hmgr, hsame⟩
  · exact hdown
  · exact absurd hzero htid
  · cases hsame.symm.trans hmanager
    have hcur : c ≠ cur := by
      rintro rfl
      have huser : (k.proc c).context = .user := hallowed.1.2
      rw [hexit] at huser
      cases huser
    exact absurd ⟨c, hcur, hc, hexit, hm⟩ (hallowed.2 m hmgr)

theorem Marked.step (hk : k.Marked) (hallowed : k.WatchedEnabled a)
    (hstep : k.perform a = .ok (k', out)) : k'.Marked := by
  have hturn := @perform_turn False _ _ _ _ hallowed.1 (nomatch ·) hstep
  have heffect := perform_effect hallowed.1 hstep
  -- the label of a process that leaves stays as it is
  have hlabel : ∀ c, (k.proc c).Live → (k'.proc c).Live →
      (k'.proc c).manager = (k.proc c).manager ∧ (k'.proc c).tid = (k.proc c).tid := by
    intro c hbefore hafter
    have hsame := heffect.sameGroup hallowed.1 hbefore.1 hafter.1
    exact ⟨hsame.manager, hsame.tid⟩
  refine ⟨fun c hc hexit m hm z hne hmanager htid => ?_⟩
  rcases heffect.exiting hallowed.1 hc hexit with ⟨hbefore, hcontext⟩ | ⟨rfl, rfl⟩
  · have hlabels := hlabel c hbefore hc
    rw [swept_eq hlabels.1 hlabels.2] at hm
    exact hk.still_down hallowed hturn hbefore hcontext hm hne hmanager htid
  · have hlabels := hlabel c (At.live hallowed.1) hc
    rw [swept_eq hlabels.1 hlabels.2] at hm
    obtain ⟨left, hbegin, rfl⟩ := exitBegin_done hstep
    rw [modify_proc_ne _ _ hne] at hmanager ⊢
    cases @swept_exitBegin False _ _ _ _ (nomatch ·) hbegin z with
    | steady h => exact exitBegin_marks hm (h.manager.symm.trans hmanager) hne hbegin
    | vacated h => exact .inl h.after

theorem exit_down {c : Slot} (hc : (k.proc c).Live)
    (hmanager : ∀ m, (k.proc c).manager = some m → (k.proc c).tid ≠ 0 →
      (k.proc m).state = .sleeping → (k.proc m).chan = some (.proc m)) {left : Kernel}
    (hbegin : k.exitBegin c = .ok (left, true)) (hend : left.exitEnd c = .ok k') {z : Slot}
    (hz : k.Mate c z) : (k'.proc z).Down := by
  have hswept : Swept False k left := swept_exitBegin (nomatch ·) hbegin
  have hcur := (hswept c).of_live hc
  have hsame := swept_eq hcur.manager hcur.tid
  have hlive := hcur.live.mpr hc
  have hends : Ends False left k' c := exitEnd_ends hlive (nomatch ·) hend
  obtain ⟨hne, m, hm, hzm⟩ := hz
  cases hswept z with
  | vacated h => exact (hends.others z hne).down (.inl h.after)
  | steady h =>
    refine exitEnd_down hlive (fun m' hm' z' hne' hmanager' _ => ?_) (fun m' hm' htid hs => ?_)
      hend ⟨hne, m, hsame.trans hm, hzm.imp_right fun hz => ?_⟩
    · rw [hsame] at hm'
      cases hswept z' with
      | steady h' => exact exitBegin_marks hm' (h'.manager.symm.trans hmanager') hne' hbegin
      | vacated h' => exact .inl h'.after
    · rw [hcur.manager] at hm'
      rw [hcur.tid] at htid
      cases hswept m' with
      | steady h' =>
        obtain ⟨hbefore, -, hchan⟩ := h'.asleep hs
        exact hchan.trans (hmanager m' hm' htid hbefore)
      | vacated h' => simp [h'.after] at hs
    · rw [h.manager, h.tid]
      exact hz

/-- If an LWP leaves only while its manager is awake or waits on its own address, and nobody in
its group sleeps or creates threads half way through an `exit`, then whoever calls `exit` leaves
its whole group gone, or marked and awake. -/
theorem group_ends (free : Nat) (h : Reaches perform WatchedEnabled (boot free) k)
    (hallowed : k.WatchedEnabled a) (hstep : k.perform a = .ok (k', out)) (c : Slot)
    (hleaver : leaver a out = some c) (z : Slot) (hz : k.Mate c z) : (k'.proc z).Down := by
  have hk : k.Marked := h.invariant Marked (marked_boot free)
    fun _ _ _ _ hk hallowed hstep => hk.step hallowed hstep
  unfold leaver at hleaver
  split at hleaver
  · cases hleaver
    obtain ⟨left, hbegin, hend⟩ := exit_gone hstep
    exact exit_down (At.live hallowed.1) hallowed.2 hbegin hend hz
  · cases hleaver
    obtain ⟨k1, hend, heq⟩ := map_eq_ok.mp hstep
    cases heq
    have hlive := At.live hallowed.1
    have hexit : (k.proc c).context = .exit := hallowed.1.2
    exact exitEnd_down hlive (hk.lwps c hlive hexit) hallowed.2 hend hz
  · cases hleaver

end

/-- An LWP exits while its manager sleeps in `thread_join` and a sibling in the kernel. -/
theorem group_ends_joining : ∃ k k', Reaches perform WatchedEnabled (boot 1000) k ∧
    k.perform (.exit 2) = .ok (k', .answer .gone) ∧
    ((k.proc 1).state = .sleeping ∧ (k.proc 3).state = .sleeping ∧
      k.Mate 2 1 ∧ k.Mate 2 3) ∧
    (k'.proc 1).Down ∧ (k'.proc 3).Down := by
  obtain ⟨k, hreach, htest⟩ := exists_reaches perform WatchedEnabled (boot 1000)
    [.visit 0 0, .fork 0, .yield 0, .visit 0 1, .threadCreate 1 5, .threadCreate 1 6,
      .threadJoin 1 1, .visit 0 3, .sleepOn 3 (.other 9), .visit 0 2]
    (fun k => decide (((k.proc 1).state = .sleeping ∧ (k.proc 3).state = .sleeping ∧
      k.Mate 2 1 ∧ k.Mate 2 3) ∧ k.WatchedEnabled (.exit 2)) &&
      succeeds perform k (.exit 2) fun _ out => decide (out = .answer .gone)) (by decide +kernel)
  obtain ⟨hstate, hexit⟩ := Bool.and_eq_true_iff.mp htest
  obtain ⟨⟨hmgr, hsibling, hmate1, hmate3⟩, hallowed⟩ := of_decide_eq_true hstate
  obtain ⟨k', out, hstep, hout⟩ := exists_of_succeeds hexit
  cases of_decide_eq_true hout
  exact ⟨k, k', hreach, hstep, ⟨hmgr, hsibling, hmate1, hmate3⟩,
    group_ends 1000 hreach hallowed hstep 2 rfl 1 hmate1,
    group_ends 1000 hreach hallowed hstep 2 rfl 3 hmate3⟩

/-- An LWP exits while its manager sleeps in the kernel on another address, and is not woken.
In the second run an LWP that was marked and woken goes back to sleep before the exit of its
manager has ended. -/
theorem group_sleeps :
    (∃ k k', Reaches perform Enabled (boot 1000) k ∧
      k.perform (.exit 2) = .ok (k', .answer .gone) ∧ k.Mate 2 1 ∧ ¬ (k'.proc 1).Down) ∧
    ∃ k k', Reaches perform Enabled (boot 1000) k ∧
      k.perform (.exitEnd 1) = .ok (k', .answer .gone) ∧ k.Mate 1 2 ∧ ¬ (k'.proc 2).Down := by
  constructor
  · obtain ⟨k, hreach, htest⟩ := exists_reaches perform Enabled (boot 1000)
      [.visit 0 0, .fork 0, .yield 0, .visit 0 1, .threadCreate 1 5, .sleepOn 1 (.other 9),
        .visit 0 2]
      (fun k => decide (k.Mate 2 1) && succeeds perform k (.exit 2) fun k' out =>
        decide (out = .answer .gone ∧ ¬ (k'.proc 1).Down)) (by decide +kernel)
    obtain ⟨hmate, hexit⟩ := Bool.and_eq_true_iff.mp htest
    obtain ⟨k', out, hstep, hout⟩ := exists_of_succeeds hexit
    obtain ⟨rfl, hdown⟩ := of_decide_eq_true hout
    exact ⟨k, k', hreach, hstep, of_decide_eq_true hmate, hdown⟩
  · obtain ⟨k, hreach, htest⟩ := exists_reaches perform Enabled (boot 1000)
      [.visit 0 0, .fork 0, .yield 0, .visit 0 1, .threadCreate 1 5, .exitBegin 1, .visit 1 2,
        .sleepOn 2 (.other 9)]
      (fun k => decide (k.Mate 1 2) && succeeds perform k (.exitEnd 1) fun k' out =>
        decide (out = .answer .gone ∧ ¬ (k'.proc 2).Down)) (by decide +kernel)
    obtain ⟨hmate, hexit⟩ := Bool.and_eq_true_iff.mp htest
    obtain ⟨k', out, hstep, hout⟩ := exists_of_succeeds hexit
    obtain ⟨rfl, hdown⟩ := of_decide_eq_true hout
    exact ⟨k, k', hreach, hstep, of_decide_eq_true hmate, hdown⟩

end Kernel

end Xv6

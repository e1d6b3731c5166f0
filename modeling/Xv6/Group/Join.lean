import Xv6.Group.Slots

/-! Whom a sleeping `thread_join` waits for. The scan of the table compares manager and handle
and does not ask whether the slot is in use. -/
namespace Xv6.Kernel

open Fallible Transition

/-- Who sleeps in `thread_join` waits for an LWP of its own that can still finish; a handle
without an LWP is refused. -/
structure Joinable (k : Kernel) : Prop where
  sleepers : ∀ m thread, (k.proc m).state = .sleeping → (k.proc m).context = .join thread →
    ∃ z, (k.proc z).Live ∧ (k.proc z).manager = some m ∧ (k.proc z).tid = thread
  refused : ∀ m thread, (∀ z, (k.proc z).state ≠ .unused → (k.proc z).manager = some m →
      (k.proc z).tid ≠ thread) →
    (∃ k', k.perform (.threadJoin m thread) = .ok (k', .joined .failed)) ∧
      (k.joining m = some thread → ∃ k', k.perform (.resumeJoin m) = .ok (k', .joined .failed))

def ProvidedEnabled (k : Kernel) (a : Act) : Prop := k.Enabled a ∧ k.Provided a

instance (k : Kernel) (a : Act) : Decidable (k.ProvidedEnabled a) :=
  inferInstanceAs (Decidable (_ ∧ _))

section

variable {strict : Prop} {k k' : Kernel} {a : Act} {out : Out}

def AsleepOn (p : Proc) (chan : Chan) : Prop := p.state = .sleeping ∧ p.chan = some chan

theorem Proc.Steady.asleepOn {p q : Proc} {chan : Chan} (h : Proc.Steady strict p q)
    (hq : AsleepOn q chan) : AsleepOn p chan :=
  ⟨(h.asleep hq.1).1, (h.asleep hq.1).2.2.symm.trans hq.2⟩

theorem wakeup1_wakes (k : Kernel) (chan : Chan) (i : Slot) :
    ¬ AsleepOn ((k.wakeup1 (some chan)).proc i) chan := by
  rintro ⟨hstate, hchan⟩
  simp only [wakeup1] at hstate hchan
  split at hstate
  · cases hstate
  · rename_i hnot
    rw [if_neg hnot] at hchan
    exact hnot ⟨hstate, hchan⟩

theorem not_asleepOn_zombie {cur m : Slot} {chan : Chan} (h : ¬ AsleepOn (k.proc m) chan) :
    ¬ AsleepOn (((k.modify cur fun p => { p with state := .zombie }).sched cur).proc m) chan := by
  simp only [sched, modify_proc]
  split
  · rintro ⟨hstate, -⟩
    cases hstate
  · exact h

theorem threadExit_wakes {cur m : Slot} {retval : Nat} (hm : (k.proc cur).manager = some m)
    (hcur : (k.proc cur).Live) (h : k.threadExit cur retval = .ok (k', .gone)) :
    ¬ AsleepOn (k'.proc m) (.proc m) := by
  unfold threadExit at h
  split at h
  · cases h
  split at h
  · cases h
  · obtain ⟨k1, hclose, h⟩ := bind_eq_ok.mp h
    cases Except.ok.inj h
    have hmanager : (k1.proc cur).manager = some m :=
      (@steady_closeFiles False _ _ _ hcur hclose cur).manager.trans hm
    apply not_asleepOn_zombie
    rw [modify_proc_same, hmanager]
    exact wakeup1_wakes _ (.proc m) m

theorem notify_wakes {cur m : Slot} (hm : (k.proc cur).manager = some m)
    (htid : (k.proc cur).tid ≠ 0) (h : k.notify cur = .ok k') :
    ¬ AsleepOn (k'.proc m) (.proc m) := by
  unfold notify at h
  rw [if_neg htid, hm] at h
  cases Except.ok.inj h
  exact wakeup1_wakes _ (.proc m) m

theorem exitEnd_wakes {cur m : Slot} (hm : (k.proc cur).manager = some m)
    (htid : (k.proc cur).tid ≠ 0) (hcur : (k.proc cur).Live) (h : k.exitEnd cur = .ok k') :
    ¬ AsleepOn (k'.proc m) (.proc m) := by
  obtain ⟨k1, hclose, h⟩ := bind_eq_ok.mp h
  obtain ⟨k2, hnotify, h⟩ := bind_eq_ok.mp h
  cases Except.ok.inj h
  have hclosed := @steady_closeFiles False _ _ _ hcur hclose cur
  apply not_asleepOn_zombie
  refine fun hasleep => notify_wakes (hclosed.manager.trans hm) (by rwa [hclosed.tid]) hnotify ?_
  exact Proc.Steady.asleepOn (@steady_passChildren False k2 cur m) hasleep

theorem death_wakes {z m : Slot} (henabled : k.Enabled a) (hstep : k.perform a = .ok (k', out))
    (ha : (∃ retval, a = .threadExit z retval ∧ out = .answer .gone) ∨ leaver a out = some z)
    (hm : (k.proc z).manager = some m) (htid : (k.proc z).tid ≠ 0) :
    ¬ AsleepOn (k'.proc m) (.proc m) := by
  rcases ha with ⟨retval, rfl, rfl⟩ | hleaver
  · obtain ⟨⟨k1, answer⟩, hexit, heq⟩ := map_eq_ok.mp hstep
    cases heq
    exact threadExit_wakes hm (At.live henabled) hexit
  · unfold leaver at hleaver
    split at hleaver
    · cases hleaver
      obtain ⟨left, hbegin, hend⟩ := exit_gone hstep
      have hlive := At.live henabled
      have hsame := ((@swept_exitBegin False _ _ _ _ (nomatch ·) hbegin) z).of_live hlive
      exact exitEnd_wakes (hsame.manager.trans hm) (by rwa [hsame.tid]) (hsame.live.mpr hlive) hend
    · cases hleaver
      obtain ⟨k1, hend, heq⟩ := map_eq_ok.mp hstep
      cases heq
      exact exitEnd_wakes hm htid (At.live henabled) hend
    · cases hleaver

theorem Turn.of_live {z : Slot} {q : Proc} (h : Turn strict k a out z q) (hz : (k.proc z).Live) :
    (q.Live ∧ q.manager = (k.proc z).manager ∧ q.tid = (k.proc z).tid) ∨
      ((∃ retval, a = .threadExit z retval ∧ out = .answer .gone) ∨ leaver a out = some z) := by
  cases h with
  | steady h => exact .inl ⟨h.live.mpr hz, h.manager, h.tid⟩
  | vacated h => exact absurd h.before hz.2
  | slept _ h =>
    obtain ⟨hstate, hmanager, htid, -⟩ := h.same
    exact .inl ⟨by simp [Proc.Live, hstate], hmanager, htid⟩
  | ended _ _ ha => exact .inr ha
  | untouched h => exact absurd h.before hz.1
  | forked _ _ h => exact absurd h.before hz.1
  | created _ _ _ _ _ h => exact absurd h.before hz.1
  | spoiled _ _ _ _ _ h _ => exact absurd h.before hz.1

structure Waited (k : Kernel) : Prop where
  labelled : k.Labelled
  sleepers : ∀ m thread, (k.proc m).state = .sleeping → (k.proc m).context = .join thread →
    (k.proc m).chan = some (.proc m) ∧
      ∃ z, (k.proc z).Live ∧ (k.proc z).manager = some m ∧ (k.proc z).tid = thread

theorem waited_boot (free : Nat) : (boot free).Waited := by
  refine ⟨labelled_boot free, fun m thread hsleeping => ?_⟩
  by_cases hm : m = 0
  · subst hm
    cases hsleeping
  · simp [boot, hm, Proc.zero] at hsleeping

theorem Waited.step (hk : k.Waited) (hallowed : k.ProvidedEnabled a)
    (hstep : k.perform a = .ok (k', out)) : k'.Waited := by
  have hturn := @perform_turn False _ _ _ _ hallowed.1 (nomatch ·) hstep
  refine ⟨hk.labelled.step hallowed.1 hallowed.2 hstep, fun m thread hsleeping hcontext => ?_⟩
  -- the LWP that was waited for is still there, or has woken the manager
  have hstays : ∀ z, (k.proc z).Live → (k.proc z).manager = some m → (k.proc z).tid = thread →
      (k'.proc m).chan = some (.proc m) →
      ∃ z, (k'.proc z).Live ∧ (k'.proc z).manager = some m ∧ (k'.proc z).tid = thread := by
    intro z hlive hmanager htid hchan
    rcases (hturn z).of_live hlive with ⟨hlive', hmanager', htid'⟩ | hends
    · exact ⟨z, hlive', hmanager'.trans hmanager, htid'.trans htid⟩
    · have hlwp : (k.proc z).tid ≠ 0 := by
        rcases (hk.labelled.slots z).lwp with ⟨-, hpositive⟩ | ⟨hnone, -⟩
        · omega
        · rw [hnone] at hmanager
          cases hmanager
      exact absurd ⟨hsleeping, hchan⟩ (death_wakes hallowed.1 hstep hends hmanager hlwp)
  cases hturn m with
  | steady h =>
    obtain ⟨hbefore, hcontext', hchan'⟩ := h.asleep hsleeping
    obtain ⟨hchan, z, hlive, hmanager, htid⟩ :=
      hk.sleepers m thread hbefore (hcontext'.symm.trans hcontext)
    have hchan := hchan'.trans hchan
    exact ⟨hchan, hstays z hlive hmanager htid hchan⟩
  | vacated h => simp [h.after] at hsleeping
  | slept _ h =>
    cases h with
    | on chan ha hq =>
      -- a call that sleeps elsewhere is not in `thread_join`
      subst ha
      rw [hq] at hcontext
      rcases hallowed.1 with hat | hat <;> cases hat.2.symm.trans hcontext
    | wait _ _ hq =>
      rw [hq] at hcontext
      cases hcontext
    | join _ z ha _ hmanager htid hzombie hq =>
      have hchan : (k'.proc m).chan = some (.proc m) := by rw [hq]
      rw [hq] at hcontext
      cases hcontext
      refine ⟨hchan, hstays z ⟨fun hfree => ?_, hzombie⟩ hmanager htid hchan⟩
      rw [(hk.labelled.slots z).free hfree] at hmanager
      cases hmanager
  | ended _ h _ => simp [h.state] at hsleeping
  | untouched h => simp [h.after] at hsleeping
  | forked _ _ h => simp [h.state] at hsleeping
  | created _ _ _ _ _ h => simp [h.state] at hsleeping
  | spoiled _ _ _ _ _ h _ => simp [h.after] at hsleeping

theorem findSlot_eq_none {test : Slot → Proc → Bool} (h : ∀ i, test i (k.proc i) = false) :
    k.findSlot test = none :=
  List.find?_eq_none.mpr fun i _ => by simp [h i]

theorem threadJoin_fails {cur : Slot} {thread : Int}
    (h : ∀ z, (k.proc z).manager = some cur → (k.proc z).tid ≠ thread) :
    ∃ k', k.threadJoin cur thread = .ok (k', .failed) := by
  have hzombie : (k.findSlot fun _ p =>
      p.manager = some cur ∧ p.tid = thread ∧ p.state = .zombie) = none :=
    findSlot_eq_none fun i => by simpa using fun hm ht => absurd ht (h i hm)
  have hmatch : (k.findSlot fun _ p => p.manager = some cur ∧ p.tid = thread) = none :=
    findSlot_eq_none fun i => by simpa using h i
  unfold threadJoin
  split
  · exact ⟨_, rfl⟩
  · rw [hzombie, hmatch]
    exact ⟨_, rfl⟩

theorem Labelled.refused (hk : k.Labelled) {m : Slot} {thread : Int}
    (h : ∀ z, (k.proc z).state ≠ .unused → (k.proc z).manager = some m →
      (k.proc z).tid ≠ thread) :
    (∃ k', k.perform (.threadJoin m thread) = .ok (k', .joined .failed)) ∧
      (k.joining m = some thread →
        ∃ k', k.perform (.resumeJoin m) = .ok (k', .joined .failed)) := by
  have hnone : ∀ z, (k.proc z).manager = some m → (k.proc z).tid ≠ thread := by
    intro z hmanager
    refine h z (fun hfree => ?_) hmanager
    rw [(hk.slots z).free hfree] at hmanager
    cases hmanager
  constructor
  · obtain ⟨k', hjoin⟩ := threadJoin_fails hnone
    exact ⟨k', map_eq_ok.mpr ⟨_, hjoin, rfl⟩⟩
  · intro hjoining
    have hnone' : ∀ z, ((k.awake m).proc z).manager = some m →
        ((k.awake m).proc z).tid ≠ thread := by
      intro z
      have hsame : ((k.awake m).proc z).manager = (k.proc z).manager ∧
          ((k.awake m).proc z).tid = (k.proc z).tid := by
        unfold awake
        rw [modify_proc]
        split
        · rename_i hz
          rw [hz]
          exact ⟨rfl, rfl⟩
        · exact ⟨rfl, rfl⟩
      rw [hsame.1, hsame.2]
      exact hnone z
    obtain ⟨k', hjoin⟩ := threadJoin_fails hnone'
    refine ⟨k', map_eq_ok.mpr ⟨(k', .failed), ?_, rfl⟩⟩
    rw [hjoining]
    exact hjoin

/-- As long as every thread that is created gets through, `thread_join` sleeps only for an LWP
that can still finish. -/
theorem joins_finish (free : Nat) (h : Reaches perform ProvidedEnabled (boot free) k) :
    k.Joinable := by
  have hk : k.Waited := h.invariant Waited (waited_boot free)
    fun _ _ _ _ hk hallowed hstep => hk.step hallowed hstep
  refine ⟨fun m thread hsleeping hcontext => ?_, fun m thread hnone => hk.labelled.refused hnone⟩
  exact (hk.sleepers m thread hsleeping hcontext).2

end

/-- `init` sleeps in `thread_join(1)` while its LWP runs. -/
theorem joins_finish_asleep : ∃ k, Reaches perform ProvidedEnabled (boot 100) k ∧
    ((k.proc 0).state = .sleeping ∧ (k.proc 0).context = .join 1 ∧
      (k.proc 1).state = .running) ∧ k.Joinable := by
  obtain ⟨k, hreach, htest⟩ := exists_reaches perform ProvidedEnabled (boot 100)
    [.visit 0 0, .threadCreate 0 5, .threadJoin 0 1, .visit 0 1]
    (fun k => (k.proc 0).state = .sleeping ∧ (k.proc 0).context = .join 1 ∧
      (k.proc 1).state = .running) (by decide +kernel)
  exact ⟨k, hreach, of_decide_eq_true htest, joins_finish 100 hreach⟩

/-- A `thread_create` that finds no frames for the stack has already stored the handle, and
leaves it with the manager in the slot it gives back: `thread_join` sleeps for nobody. -/
theorem join_waits_forever : ∃ k, Reaches perform Enabled (boot 2) k ∧
    ((k.proc 0).state = .sleeping ∧ (k.proc 0).context = .join 1 ∧
      ∀ z, z ≠ 0 → (k.proc z).state = .unused) ∧ ¬ k.Joinable := by
  obtain ⟨k, hreach, htest⟩ := exists_reaches perform Enabled (boot 2)
    [.visit 0 0, .threadCreate 0 5, .threadJoin 0 1]
    (fun k => ((k.proc 0).state = .sleeping ∧ (k.proc 0).context = .join 1 ∧
      ∀ z, z ≠ 0 → (k.proc z).state = .unused) ∧ (k.proc 0).manager = none) (by decide +kernel)
  obtain ⟨⟨hsleeping, hcontext, hunused⟩, hmanager⟩ := of_decide_eq_true htest
  refine ⟨k, hreach, ⟨hsleeping, hcontext, hunused⟩, fun hk => ?_⟩
  obtain ⟨z, hlive, hm, -⟩ := hk.sleepers 0 1 hsleeping hcontext
  by_cases hz : z = 0
  · rw [hz, hmanager] at hm
    cases hm
  · exact hlive.1 (hunused z hz)

end Xv6.Kernel

import Xv6.Share.Pass

/-! A run in which the pass values do run out. One process has a share of 3 percent, hence the
stride 333, another one has none; each sleeps after a turn and is woken when the scheduler has
come to its phase. Nothing else ever changes, and the pass value goes through the multiples of
333 modulo 2^32. -/
namespace Xv6.Kernel

open Word Fallible Transition

def bed (p : Slot) : Chan := .other p

structure Spinning (k : Kernel) (pass ticks turn : Int) : Prop where
  reaches : Reaches perform Enabled (boot 100) k
  asleep : ∀ p, p = 0 ∨ p = 1 → (k.proc p).state = .sleeping ∧ (k.proc p).chan = some (bed p) ∧
    (k.proc p).context = .user ∧ (k.proc p).tid = 0
  others : ∀ p, p ≠ 0 → p ≠ 1 → (k.proc p).state = .unused
  first : (k.proc 0).passValue = pass ∧ (k.proc 0).stride = 333 ∧ (k.proc 0).portion = 3
  second : (k.proc 1).passValue = -1
  count : k.heap.count = 1
  root : k.heap.cells 1 = pass
  tickets : k.strideTickets = 3
  cpu : k.cpu 0 = ⟨none, ticks, turn⟩

variable {k k' : Kernel} {pass pass' ticks ticks' turn turn' : Int} {p : Slot}

theorem Spinning.wakeup (h : k.Spinning pass ticks turn) (hp : p = 0 ∨ p = 1) :
    k.wakeup1 (some (bed p)) = k.modify p fun q => { q with state := .runnable } := by
  unfold wakeup1 modify
  congr 1
  funext i
  by_cases hi : i = p
  · subst hi
    obtain ⟨hstate, hchan, -⟩ := h.asleep i hp
    rw [if_pos ⟨hstate, hchan⟩, Function.update_self]
  · rw [if_neg, Function.update_of_ne hi]
    rintro ⟨hstate, hchan⟩
    by_cases hother : i = 0 ∨ i = 1
    · rw [(h.asleep i hother).2.1] at hchan
      have hbed : i.val = p.val := Chan.other.inj (Option.some.inj hchan)
      exact hi (Fin.ext hbed)
    · obtain ⟨hzero, hone⟩ := not_or.mp hother
      rw [h.others i hzero hone] at hstate
      cases hstate

def rouse (k : Kernel) (p : Slot) : Kernel := k.modify p fun q => { q with state := .runnable }

def SameButPass (k k' : Kernel) : Prop :=
  ∀ i, k'.proc i = { k.proc i with passValue := (k'.proc i).passValue }

theorem sameButPass_modify {mgr : Slot} {x : Int}
    (h : k'.proc = (k.modify mgr fun q => { q with passValue := x }).proc) : SameButPass k k' := by
  intro i
  rw [h, modify_proc]
  split
  · rename_i hi
    rw [hi]
  · rfl

theorem slept_proc {k2 : Kernel}
    (hk2 : k2 = (k'.modify p fun q => { q with state := .running }).setCpu 0
      (fun cpu => { cpu with proc := some p })) (hproc : SameButPass (k.rouse p) k')
    (hstate : (k.proc p).state = .sleeping) (hchan : (k.proc p).chan = some (bed p)) (i : Slot) :
    (k2.sleep p (bed p)).proc i = { k.proc i with passValue := (k'.proc i).passValue } := by
  subst hk2
  change ((k'.modify p fun q => { q with state := .running }).modify p
    fun q => { q with chan := some (bed p), state := .sleeping }).proc i = _
  by_cases hi : i = p
  · subst hi
    rw [modify_proc_same, modify_proc_same, hproc i]
    unfold rouse
    rw [modify_proc_same]
    dsimp only
    rw [← hstate, ← hchan]
  · rw [modify_proc_ne _ _ hi, modify_proc_ne _ _ hi, hproc i]
    unfold rouse
    rw [modify_proc_ne _ _ hi]

theorem Spinning.woken (h : k.Spinning pass ticks turn) (hp : p = 0 ∨ p = 1) :
    Reaches perform Enabled (boot 100) (k.rouse p) := by
  have henabled : k.Enabled (.wakeup (bed p)) := trivial
  have hstep : k.perform (.wakeup (bed p)) = .ok (k.rouse p, .done) := by
    unfold rouse
    rw [← h.wakeup hp]
    rfl
  exact h.reaches.step henabled hstep

theorem rouse_runnable (k : Kernel) (p : Slot) : (k.rouse p).Runnable p := by
  unfold Runnable rouse
  rw [modify_proc_same]

theorem Spinning.dispatch {how : Visit} (h : k.Spinning pass ticks turn) (hp : p = 0 ∨ p = 1)
    (hvisit : (k.rouse p).visit 0 p = k'.execution 0 p how)
    (hproc : SameButPass (k.rouse p) k') (hfirst : (k'.proc 0).passValue = pass')
    (hsecond : (k'.proc 1).passValue = -1) (hcount : k'.heap.count = 1)
    (hroot : k'.heap.cells 1 = pass') (htickets : k'.strideTickets = 3)
    (hcpu : k'.cpu 0 = ⟨none, ticks', turn'⟩) :
    ∃ k', Spinning k' pass' ticks' turn' := by
  obtain ⟨hstate, hchan, hcontext, -⟩ := h.asleep p hp
  have hwoken := h.woken hp
  have hrun : ∃ k2, k'.execution 0 p how = .ok (k2, how) :=
    (fit_reaches hwoken).execution how (rouse_runnable k p) (by rw [hproc p]) (by rw [hproc p])
  obtain ⟨k2, hexecution⟩ := hrun
  have hrunning : Reaches perform Enabled (boot 100) k2 := by
    have henabled : (k.rouse p).Enabled (.visit 0 p) := by
      change (k.cpu 0).proc = none
      rw [h.cpu]
    have hstep : (k.rouse p).perform (.visit 0 p) = .ok (k2, .visited how) := by
      change ((k.rouse p).visit 0 p).map _ = _
      rw [hvisit, hexecution]
      rfl
    exact hwoken.step henabled hstep
  have hk2 := (execution_eq hexecution).1
  have hslept := slept_proc hk2 hproc hstate hchan
  refine ⟨k2.sleep p (bed p), ?_, fun i hi => ?_, fun i hzero hone => ?_, ?_, ?_, ?_, ?_, ?_, ?_⟩
  · have henabled : k2.Enabled (.sleepOn p (bed p)) := by
      refine .inl ?_
      subst hk2
      change ((k'.modify p fun q => { q with state := .running }).proc p).state = _ ∧
        ((k'.modify p fun q => { q with state := .running }).proc p).context = _
      rw [modify_proc_same, hproc p]
      unfold rouse
      rw [modify_proc_same]
      exact ⟨rfl, hcontext⟩
    exact hrunning.step henabled rfl
  · rw [hslept i]
    exact h.asleep i hi
  · rw [hslept i]
    exact h.others i hzero hone
  · rw [hslept 0]
    exact ⟨hfirst, h.first.2⟩
  · rw [hslept 1]
    exact hsecond
  · subst hk2
    exact hcount
  · subst hk2
    exact hroot
  · subst hk2
    exact htickets
  · subst hk2
    simp [sleep, sched, setCpu, modify, hcpu]

theorem Spinning.alone {q : Slot} (h : k.Spinning pass ticks turn) (hq : (k.rouse p).Runnable q) :
    q = p := by
  by_contra hne
  unfold Runnable rouse at hq
  rw [modify_proc_ne _ _ hne] at hq
  by_cases hother : q = 0 ∨ q = 1
  · rw [(h.asleep q hother).1] at hq
    cases hq
  · obtain ⟨hzero, hone⟩ := not_or.mp hother
    rw [h.others q hzero hone] at hq
    cases hq

theorem Spinning.escape (h : k.Spinning pass ticks turn) (hticks : 1000 < ticks + 1) :
    ∃ k', Spinning k' pass 1 turn := by
  have hcpu : (k.rouse 1).cpu 0 = ⟨none, ticks, turn⟩ := h.cpu
  have hvisit : (k.rouse 1).visit 0 1 =
      ((k.rouse 1).setCpu 0 fun cpu => { cpu with schedTicks := 1 }).execution 0 1 .escape := by
    have hrunnable : ¬ ((k.rouse 1).proc 1).state ≠ .runnable := not_not.mpr (rouse_runnable k 1)
    unfold visit
    rw [if_neg hrunnable, hcpu, if_pos hticks]
  refine h.dispatch (.inr rfl) hvisit (fun i => rfl) h.first.1 h.second h.count h.root h.tickets ?_
  simp [setCpu, hcpu]

theorem Spinning.mlfq (h : k.Spinning pass ticks turn) (hticks : ¬ 1000 < ticks + 1)
    (hphase : ¬ nextCount turn ≤ 3) : ∃ k', Spinning k' pass (ticks + 1) (nextCount turn) := by
  have hcpu : (k.rouse 1).cpu 0 = ⟨none, ticks, turn⟩ := h.cpu
  have hpass : ((k.rouse 1).proc 1).passValue = -1 := h.second
  have hnone : (k.rouse 1).higherLevel 1 = false := by
    rw [higherLevel, List.any_eq_false]
    intro q _
    rw [decide_eq_true_eq]
    rintro ⟨hrunnable, -, hlevel⟩
    rw [h.alone hrunnable] at hlevel
    omega
  have hvisit : (k.rouse 1).visit 0 1 = ((k.rouse 1).counted 0).execution 0 1 .mlfq := by
    rw [visit_eq (rouse_runnable k 1) (by rw [hcpu]; exact hticks), hcpu,
      if_neg (by rw [show (k.rouse 1).strideTickets = 3 from h.tickets]; exact hphase),
      if_neg (not_not.mpr hpass), if_neg (by rw [hnone]; simp)]
  refine h.dispatch (.inr rfl) hvisit (fun i => rfl) h.first.1 h.second h.count h.root h.tickets ?_
  simp [counted, setCpu, hcpu]

theorem advancePass_single {mgr : Slot} (hcount : k.heap.count = 1) :
    ∃ heap, heap.count = 1 ∧
      heap.cells 1 = i32 ((k.proc mgr).passValue + (k.proc mgr).stride) ∧
      k.advancePass mgr = .ok { k.modify mgr fun q => { q with
        passValue := i32 ((k.proc mgr).passValue + (k.proc mgr).stride) } with heap := heap } := by
  have hlow : 0 ≤ k.heap.count := by omega
  have hhigh : k.heap.count ≤ nproc := by
    rw [hcount]
    decide
  obtain ⟨⟨x, popped⟩, hpop⟩ := StrideHeap.pop_total hlow hhigh
  have hpopped := (StrideHeap.pop_ok hpop).2.2.1
  have hlow' : -1 ≤ popped.count := by omega
  have hhigh' : popped.count < nproc := by
    rw [hpopped, hcount]
    decide
  obtain ⟨heap, hpush⟩ := StrideHeap.push_total hlow' hhigh'
    (i32 ((k.proc mgr).passValue + (k.proc mgr).stride))
  have hone := (StrideHeap.push_ok hpush).2.2.1
  have hcontents := StrideHeap.contents_push hpush (by omega)
  have hempty : popped.contents = 0 := by
    have hzero : popped.count.toNat = 0 := by omega
    rw [StrideHeap.contents, hzero]
    rfl
  have hpositive : 0 < heap.count := by omega
  have hroot := StrideHeap.root_mem hpositive
  rw [hcontents, hempty] at hroot
  refine ⟨heap, by omega, Multiset.mem_singleton.mp hroot, ?_⟩
  unfold advancePass
  rw [hpop]
  simp only [bind, Except.bind, hpush]

theorem Spinning.stride (h : k.Spinning pass ticks turn) (hticks : ¬ 1000 < ticks + 1)
    (hphase : nextCount turn ≤ 3) :
    ∃ k', Spinning k' (i32 (pass + 333)) (ticks + 1) (nextCount turn) := by
  have hcpu : (k.rouse 0).cpu 0 = ⟨none, ticks, turn⟩ := h.cpu
  have hpass : ((k.rouse 0).proc 0).passValue = pass := h.first.1
  have hstride : ((k.rouse 0).proc 0).stride = 333 := h.first.2.1
  have hmanager : (k.rouse 0).schedManager 0 = .ok 0 := by
    have htid : ((k.rouse 0).proc 0).tid = 0 := (h.asleep 0 (.inl rfl)).2.2.2
    unfold schedManager
    rw [htid]
    rfl
  have hminimum : 0 < (k.rouse 0).heap.count ∧
      ((k.rouse 0).proc 0).passValue = (k.rouse 0).heap.cells 1 := by
    change 0 < k.heap.count ∧ _ = k.heap.cells 1
    rw [h.count, h.root]
    exact ⟨by decide, hpass⟩
  obtain ⟨heap, hcount, hroot, hadvance⟩ :=
    @advancePass_single ((k.rouse 0).counted 0) 0 h.count
  have hnext : i32 ((((k.rouse 0).counted 0).proc 0).passValue +
      (((k.rouse 0).counted 0).proc 0).stride) = i32 (pass + 333) := by
    change i32 (((k.rouse 0).proc 0).passValue + ((k.rouse 0).proc 0).stride) = _
    rw [hpass, hstride]
  rw [hnext] at hroot hadvance
  have hvisit : (k.rouse 0).visit 0 0 = Kernel.execution
      { ((k.rouse 0).counted 0).modify 0 fun q => { q with passValue := i32 (pass + 333) } with
        heap := heap } 0 0 .stride := by
    rw [visit_eq (rouse_runnable k 0) (by rw [hcpu]; exact hticks), hcpu,
      if_pos (by rw [show (k.rouse 0).strideTickets = 3 from h.tickets]; exact hphase), hmanager]
    simp only [bind, Except.bind]
    rw [if_pos hminimum, hadvance]
  refine h.dispatch (.inl rfl) hvisit (sameButPass_modify rfl) ?_ h.second hcount hroot h.tickets ?_
  · exact congrArg Proc.passValue
      (modify_proc_same (k.rouse 0) 0 fun q => { q with passValue := i32 (pass + 333) })
  · simp [counted, setCpu, hcpu, modify]

theorem Spinning.next (h : k.Spinning pass ticks turn) :
    ∃ k' ticks', Spinning k' (if nextCount turn ≤ 3 then i32 (pass + 333) else pass) ticks'
      (nextCount turn) := by
  have hcounted : ∀ {k ticks}, Spinning k pass ticks turn → ¬ 1000 < ticks + 1 →
      ∃ k', Spinning k' (if nextCount turn ≤ 3 then i32 (pass + 333) else pass) (ticks + 1)
        (nextCount turn) := by
    intro k ticks h hticks
    split
    · rename_i hphase
      exact h.stride hticks hphase
    · rename_i hphase
      exact h.mlfq hticks hphase
  by_cases hticks : 1000 < ticks + 1
  · obtain ⟨k1, h1⟩ := h.escape hticks
    obtain ⟨k', h'⟩ := hcounted h1 (by decide)
    exact ⟨k', _, h'⟩
  · obtain ⟨k', h'⟩ := hcounted h hticks
    exact ⟨k', _, h'⟩

theorem Spinning.idle (n : Nat) {k : Kernel} {ticks turn : Int} (h : k.Spinning pass ticks turn)
    (hturn : turn = 100 - n) (hlow : 3 ≤ turn) : ∃ k' ticks', Spinning k' pass ticks' 100 := by
  induction n generalizing k ticks turn with
  | zero =>
    have hend : turn = 100 := by simpa using hturn
    subst hend
    exact ⟨k, ticks, h⟩
  | succ n ih =>
    have hnext : nextCount turn = turn + 1 := if_neg (by push_cast at hturn; omega)
    obtain ⟨k1, ticks1, h1⟩ := h.next
    rw [hnext, if_neg (by omega)] at h1
    exact ih h1 (by push_cast at hturn ⊢; omega) (by omega)

theorem Spinning.again (h : k.Spinning pass ticks turn) (hlow : 1 ≤ turn) (hhigh : turn ≤ 3) :
    ∃ k' ticks' turn', Spinning k' (i32 (pass + 333)) ticks' turn' ∧ 1 ≤ turn' ∧ turn' ≤ 3 := by
  by_cases hlast : turn = 3
  · subst hlast
    obtain ⟨k1, ticks1, h1⟩ := h.idle 97 rfl le_rfl
    obtain ⟨k2, ticks2, h2⟩ := h1.next
    exact ⟨k2, ticks2, 1, h2, by decide, by decide⟩
  · have hnext : nextCount turn = turn + 1 := if_neg (by omega)
    obtain ⟨k1, ticks1, h1⟩ := h.next
    rw [hnext, if_pos (by omega)] at h1
    exact ⟨k1, ticks1, turn + 1, h1, by omega, by omega⟩

theorem spinning_start : ∃ k, Spinning k 0 3 3 := by
  obtain ⟨k, hreach, htest⟩ := exists_reaches perform Enabled (boot 100)
    [.visit 0 0, .fork 0, .sleepOn 0 (bed 0), .visit 0 1, .sleepOn 1 (bed 1), .wakeup (bed 0),
      .visit 0 0, .setCpuShare 0 3, .sleepOn 0 (bed 0)]
    (fun k => decide ((∀ p, p = 0 ∨ p = 1 → (k.proc p).state = .sleeping ∧
        (k.proc p).chan = some (bed p) ∧ (k.proc p).context = .user ∧ (k.proc p).tid = 0) ∧
      (∀ p, p ≠ 0 → p ≠ 1 → (k.proc p).state = .unused) ∧
      ((k.proc 0).passValue = 0 ∧ (k.proc 0).stride = 333 ∧ (k.proc 0).portion = 3) ∧
      (k.proc 1).passValue = -1 ∧ k.heap.count = 1 ∧ k.heap.cells 1 = 0 ∧ k.strideTickets = 3 ∧
      (k.cpu 0).proc = none ∧ (k.cpu 0).schedTicks = 3 ∧ (k.cpu 0).count = 3))
    (by decide +kernel)
  obtain ⟨hasleep, hothers, hfirst, hsecond, hcount, hroot, htickets, hproc, hticks, hturn⟩ :=
    of_decide_eq_true htest
  refine ⟨k, hreach, hasleep, hothers, hfirst, hsecond, hcount, hroot, htickets, ?_⟩
  have hcpu : k.cpu 0 = ⟨(k.cpu 0).proc, (k.cpu 0).schedTicks, (k.cpu 0).count⟩ := rfl
  rw [hcpu, hproc, hticks, hturn]

theorem spins (n : Nat) :
    ∃ k ticks turn, Spinning k (i32 (333 * n)) ticks turn ∧ 1 ≤ turn ∧ turn ≤ 3 := by
  induction n with
  | zero =>
    obtain ⟨k, h⟩ := spinning_start
    exact ⟨k, 3, 3, h, by decide, by decide⟩
  | succ n ih =>
    obtain ⟨k, ticks, turn, h, hlow, hhigh⟩ := ih
    obtain ⟨k', ticks', turn', h', hbounds⟩ := h.again hlow hhigh
    rw [i32_add_i32] at h'
    have hmore : (333 : Int) * (n + 1 : Nat) = 333 * n + 333 := by omega
    rw [hmore]
    exact ⟨k', ticks', turn', h', hbounds⟩

end Xv6.Kernel

import Xv6.Proc.Kin
import Mathlib.Data.Finset.Max

/-! Passes of the scheduler over the process table. `ptable.lock` is held from the start of
a pass to its first dispatch, so a pass that dispatches nobody is a sequence of rejected
visits to one and the same table. -/
namespace Xv6.Kernel

open Word Fallible Transition

def passFrom (c : Fin ncpu) : List Slot → Kernel → Except Fault (Kernel × Option Slot)
  | [], k => .ok (k, none)
  | p :: rest, k => do
      match ← k.visit c p with
      | (k, .skipped) | (k, .rejected) => passFrom c rest k
      | (k, .escape) | (k, .stride) | (k, .mlfq) => .ok (k, some p)

def pass (k : Kernel) (c : Fin ncpu) : Except Fault (Kernel × Option Slot) := passFrom c slots k

def Runnable (k : Kernel) (p : Slot) : Prop := (k.proc p).state = .runnable

instance (k : Kernel) (p : Slot) : Decidable (k.Runnable p) := inferInstanceAs (Decidable (_ = _))

def runnableIn (k : Kernel) (rest : List Slot) : Nat := rest.countP fun p => k.Runnable p

def HoldsMinimum (k : Kernel) (p : Slot) : Prop :=
  0 < k.heap.count ∧ ∃ mgr, k.schedManager p = .ok mgr ∧ (k.proc mgr).passValue = k.heap.cells 1

def TopLevel (k : Kernel) (p : Slot) : Prop :=
  (k.proc p).passValue = -1 ∧ ((k.proc p).level ≤ 0 ∨ k.higherLevel p = false)

/-- A visit of CPU `c` to the runnable process `p` dispatches it, the escape apart. -/
def Picks (k : Kernel) (c : Fin ncpu) (p : Slot) : Prop :=
  nextCount (k.cpu c).count ≤ k.strideTickets ∧ k.HoldsMinimum p ∨
  k.strideTickets < nextCount (k.cpu c).count ∧ k.TopLevel p

structure Fit (k : Kernel) : Prop where
  kstack : ∀ i, (k.proc i).state ≠ .unused → (k.proc i).kstack = true
  pgdir : ∀ i, (k.proc i).state ≠ .unused → (k.proc i).pgdir ≠ none
  manager : ∀ i, (k.proc i).state ≠ .unused → 0 < (k.proc i).tid → (k.proc i).manager ≠ none
  heap : k.heap.count ≤ nproc

theorem fit_boot (free : Nat) : (boot free).Fit := by
  have hslot : ∀ i, ((boot free).proc i).state ≠ .unused → i = 0 := by
    intro i hi
    by_contra hne
    simp [boot, hne, Proc.zero] at hi
  refine ⟨?_, ?_, ?_, by simp [boot, StrideHeap.empty]⟩
  · intro i hi
    rw [hslot i hi]
    rfl
  · intro i hi
    rw [hslot i hi]
    simp [boot]
  · intro i hi
    rw [hslot i hi]
    simp [boot, Proc.zero]

theorem returnShare_heap {k k' : Kernel} {cur : Slot} (h : k.returnShare cur = .ok k')
    (hheap : k.heap.count ≤ nproc) : k'.heap.count ≤ nproc := by
  unfold returnShare at h
  split at h
  · obtain ⟨popped, hpop, rfl⟩ := map_eq_ok.mp h
    have := (StrideHeap.pop_ok hpop).2.2.1
    dsimp only
    omega
  · cases Except.ok.inj h
    exact hheap

theorem Leaves.heap {k k' : Kernel} {cur : Slot} {go : Bool} (h : Leaves k k' cur go)
    (hheap : k.heap.count ≤ nproc) : k'.heap.count ≤ nproc := by
  obtain ⟨shared, hshare, hsettles⟩ := h.settled
  rw [hsettles.shares.heap]
  exact returnShare_heap hshare hheap

theorem push_count {heap heap' : StrideHeap} {x : Int} (h : heap.push x = .ok heap') :
    heap'.count ≤ nproc := by
  obtain ⟨-, hless, hcount, -⟩ := StrideHeap.push_ok h
  omega

theorem Effect.heap {k k' : Kernel} {a : Act} {out : Out} (h : Effect k a k' out)
    (hheap : k.heap.count ≤ nproc) : k'.heap.count ≤ nproc := by
  have hsame : SameShares k k' → k'.heap.count ≤ nproc := fun hshares => hshares.heap ▸ hheap
  cases h with
  | quiet hquiet _ => exact hsame hquiet.shares
  | selects mgr hselects =>
    obtain ⟨popped, -, hpush⟩ := hselects.heap
    exact push_count hpush
  | forks np hforks => exact hsame hforks.spawning.shares
  | creates np mgr hcreates => exact hsame hcreates.spawning.shares
  | execs hexecs => exact hsame hexecs.shares
  | waits p d _ hreaps => exact hsame hreaps.shares
  | joins p _ hreaps => exact hsame hreaps.shares
  | threadExits _ hdies => exact hsame hdies.shares
  | exits left hleaves hdies => exact hdies.shares.heap ▸ hleaves.heap hheap
  | returns _ hleaves => exact hleaves.heap hheap
  | begins left hleaves => exact hleaves.heap hheap
  | ends hdies => exact hsame hdies.shares
  | grants hgrants => exact push_count hgrants.heap

theorem fit_step {k k' : Kernel} {a : Act} {out : Out} (hfit : k.Fit) (henabled : k.Enabled a)
    (h : k.perform a = .ok (k', out)) : k'.Fit := by
  have heffect := perform_effect henabled h
  have hgroup : ∀ {i}, (k.proc i).state ≠ .unused → (k'.proc i).state ≠ .unused →
      (k'.proc i).pgdir ≠ none ∧ (0 < (k'.proc i).tid → (k'.proc i).manager ≠ none) := by
    intro i hbefore hafter
    have hsame := heffect.sameGroup henabled hbefore hafter
    refine ⟨hsame.pgdir (hfit.pgdir i hbefore), ?_⟩
    rw [hsame.tid, hsame.manager]
    exact hfit.manager i hbefore
  refine ⟨fun i hi => ?_, fun i hi => ?_, fun i hi => ?_, heffect.heap hfit.heap⟩
  · cases perform_fate henabled h hi with
    | kept _ hused hkin => exact hkin.kstack.trans (hfit.kstack i hused)
    | passed cur _ hused hkin =>
      rw [hkin.kstack, ← hfit.kstack i hused]
      unfold reparent
      split <;> rfl
    | forked cur _ _ hstack => exact hstack
    | created cur start _ _ hstack => exact hstack
  · cases perform_fate henabled h hi with
    | kept _ hused _ => exact (hgroup hused hi).1
    | passed cur _ hused _ => exact (hgroup hused hi).1
    | forked cur _ _ _ _ hdir => exact hdir
    | created cur start _ _ _ hdir => exact hdir
  · by_cases hfree : (k.proc i).state = .unused
    · obtain ⟨cur, -, hforks⟩ | ⟨cur, start, mgr, -, hcreates⟩ := heffect.born henabled hfree hi
      · have htid : (k'.proc i).tid = 0 := congrArg Identity.tid hforks.identity
        omega
      · have hmgr : (k'.proc i).manager = some mgr := congrArg Identity.manager hcreates.identity
        simp [hmgr]
    · exact (hgroup hfree hi).2

theorem fit_reaches {free : Nat} {k : Kernel} (h : Reaches perform Enabled (boot free) k) :
    k.Fit :=
  h.invariant Fit (fit_boot free) fun _ _ _ _ hfit henabled hstep => fit_step hfit henabled hstep

def rejectOn (k : Kernel) (c : Fin ncpu) : Kernel :=
  (k.setCpu c fun cpu => { cpu with schedTicks := cpu.schedTicks + 1 }).setCpu c
    fun cpu => { cpu with count := nextCount (k.cpu c).count - 1 }

theorem nextCount_reject (count : Int) : nextCount (nextCount count - 1) = nextCount count := by
  unfold nextCount
  split <;> split <;> omega

theorem Fit.execution {k k0 : Kernel} (h : k.Fit) {c : Fin ncpu} {p : Slot} (how : Visit)
    (hp : k.Runnable p) (hstack : (k0.proc p).kstack = (k.proc p).kstack)
    (hdir : (k0.proc p).pgdir = (k.proc p).pgdir) :
    ∃ k', k0.execution c p how = .ok (k', how) := by
  have hused : (k.proc p).state ≠ .unused := by
    rw [hp]
    decide
  have hkstack := h.kstack p hused
  have hpgdir := h.pgdir p hused
  unfold Kernel.execution
  rw [if_neg]
  · exact ⟨_, rfl⟩
  · rw [hstack, hdir, hkstack]
    simp [hpgdir]

theorem Fit.schedManager {k : Kernel} (h : k.Fit) {p : Slot} (hp : k.Runnable p) :
    ∃ mgr, k.schedManager p = .ok mgr := by
  have hused : (k.proc p).state ≠ .unused := by
    rw [hp]
    decide
  unfold Kernel.schedManager
  split
  · rename_i htid
    obtain ⟨mgr, hmgr⟩ := Option.ne_none_iff_exists'.mp (h.manager p hused htid)
    exact ⟨mgr, by rw [hmgr]; rfl⟩
  · exact ⟨p, rfl⟩

theorem Fit.advancePass {k : Kernel} (h : k.Fit) (hcount : 0 < k.heap.count) (mgr : Slot) :
    ∃ k', k.advancePass mgr = .ok k' ∧ Kin k k' ∧ ∀ i, (k'.proc i).pgdir = (k.proc i).pgdir := by
  obtain ⟨⟨x, popped⟩, hpop⟩ := StrideHeap.pop_total (by omega) h.heap
  have hpopped := (StrideHeap.pop_ok hpop).2.2.1
  have hheap := h.heap
  have hlow : -1 ≤ popped.count := by omega
  have hhigh : popped.count < nproc := by omega
  obtain ⟨pushed, hpush⟩ := StrideHeap.push_total hlow hhigh
    (i32 ((k.proc mgr).passValue + (k.proc mgr).stride))
  have hadvance : k.advancePass mgr = .ok { k.modify mgr fun q =>
      { q with passValue := i32 ((k.proc mgr).passValue + (k.proc mgr).stride) } with
      heap := pushed } := by
    unfold Kernel.advancePass
    rw [hpop]
    simp only [bind, Except.bind, hpush]
  refine ⟨_, hadvance, kin_update rfl ⟨rfl, rfl⟩, fun i => ?_⟩
  simp only [modify_proc]
  split
  · rename_i hi
    rw [hi]
  · rfl

theorem Fit.setCpu {k : Kernel} (h : k.Fit) (c : Fin ncpu) (f : Cpu → Cpu) : (k.setCpu c f).Fit :=
  ⟨h.kstack, h.pgdir, h.manager, h.heap⟩

def counted (k : Kernel) (c : Fin ncpu) : Kernel :=
  (k.setCpu c fun cpu => { cpu with schedTicks := cpu.schedTicks + 1 }).setCpu c
    fun cpu => { cpu with count := nextCount (k.cpu c).count }

theorem visit_eq {k : Kernel} {c : Fin ncpu} {p : Slot} (hp : k.Runnable p)
    (hescape : ¬ 1000 < (k.cpu c).schedTicks + 1) :
    k.visit c p =
      if nextCount (k.cpu c).count ≤ k.strideTickets then
        k.schedManager p >>= fun mgr =>
          if 0 < k.heap.count ∧ (k.proc mgr).passValue = k.heap.cells 1 then
            (k.counted c).advancePass mgr >>= fun k => k.execution c p .stride
          else .ok (k.rejectOn c, .rejected)
      else if (k.proc p).passValue ≠ -1 then .ok (k.rejectOn c, .rejected)
      else if 0 < (k.proc p).level ∧ k.higherLevel p then .ok (k.rejectOn c, .rejected)
      else (k.counted c).execution c p .mlfq := by
  have hrunnable : ¬ (k.proc p).state ≠ .runnable := not_not.mpr hp
  have hcount :
      ((k.setCpu c fun cpu => { cpu with schedTicks := cpu.schedTicks + 1 }).cpu c).count =
      (k.cpu c).count := by
    simp [Kernel.setCpu]
  unfold visit
  rw [if_neg hrunnable, if_neg hescape]
  simp only [hcount]
  rfl

theorem visit_escape {k : Kernel} (h : k.Fit) {c : Fin ncpu} {p : Slot} (hp : k.Runnable p)
    (hescape : 1000 < (k.cpu c).schedTicks + 1) : ∃ k', k.visit c p = .ok (k', .escape) := by
  have hrunnable : ¬ (k.proc p).state ≠ .runnable := not_not.mpr hp
  unfold visit
  rw [if_neg hrunnable, if_pos hescape]
  exact h.execution _ hp rfl rfl

theorem visit_picks {k : Kernel} (h : k.Fit) {c : Fin ncpu} {p : Slot} (hp : k.Runnable p)
    (hescape : ¬ 1000 < (k.cpu c).schedTicks + 1) (hpicks : k.Picks c p) :
    (∃ k', k.visit c p = .ok (k', .stride)) ∨ ∃ k', k.visit c p = .ok (k', .mlfq) := by
  rw [visit_eq hp hescape]
  rcases hpicks with ⟨hphase, hcount, mgr, hmgr, hmin⟩ | ⟨hphase, hpass, hlevel⟩
  · left
    have hfit : (k.counted c).Fit := (h.setCpu c _).setCpu c _
    obtain ⟨k1, hadvance, hkin, hdir⟩ := hfit.advancePass hcount mgr
    obtain ⟨k', hexecution⟩ := h.execution (c := c) .stride hp (hkin p).kstack (hdir p)
    refine ⟨k', ?_⟩
    rw [if_pos hphase, hmgr]
    simp only [bind, Except.bind]
    rw [if_pos ⟨hcount, hmin⟩, hadvance]
    exact hexecution
  · right
    rw [if_neg (not_le.mpr hphase), if_neg (not_not.mpr hpass), if_neg]
    · exact h.execution _ hp rfl rfl
    · rintro ⟨hpos, hhigher⟩
      rcases hlevel with hlow | hnone
      · omega
      · rw [hnone] at hhigher
        cases hhigher

theorem visit_rejects {k : Kernel} (h : k.Fit) {c : Fin ncpu} {p : Slot} (hp : k.Runnable p)
    (hescape : ¬ 1000 < (k.cpu c).schedTicks + 1) (hpicks : ¬ k.Picks c p) :
    k.visit c p = .ok (k.rejectOn c, .rejected) := by
  rw [visit_eq hp hescape]
  split
  · rename_i hphase
    obtain ⟨mgr, hmgr⟩ := h.schedManager hp
    rw [hmgr]
    simp only [bind, Except.bind]
    rw [if_neg]
    rintro ⟨hcount, hmin⟩
    exact hpicks (.inl ⟨hphase, hcount, mgr, hmgr, hmin⟩)
  · rename_i hphase
    split
    · rfl
    rename_i hpass
    split
    · rfl
    rename_i hlevel
    refine absurd (.inr ⟨not_le.mp hphase, not_not.mp hpass, ?_⟩) hpicks
    by_contra hnot
    rw [not_or, Bool.not_eq_false, not_le] at hnot
    exact hlevel hnot

theorem rejectOn_cpu (k : Kernel) (c : Fin ncpu) :
    ((k.rejectOn c).cpu c).schedTicks = (k.cpu c).schedTicks + 1 ∧
      ((k.rejectOn c).cpu c).count = nextCount (k.cpu c).count - 1 := by
  simp [rejectOn, Kernel.setCpu]

theorem rejectOn_picks (k : Kernel) (c : Fin ncpu) (p : Slot) :
    (k.rejectOn c).Picks c p ↔ k.Picks c p := by
  unfold Picks
  rw [(rejectOn_cpu k c).2, nextCount_reject]
  rfl

/-- A pass dispatches somebody if the escape is due within it, or if a visit picks one of
the runnable processes. -/
theorem passFrom_dispatches {c : Fin ncpu} (rest : List Slot) {k : Kernel} (h : k.Fit) :
    (∃ k' p, passFrom c rest k = .ok (k', some p)) ↔
      (0 < k.runnableIn rest ∧ 1000 < (k.cpu c).schedTicks + k.runnableIn rest) ∨
      ∃ p ∈ rest, k.Runnable p ∧ k.Picks c p := by
  induction rest generalizing k with
  | nil => simp [passFrom, runnableIn]
  | cons p rest ih =>
    by_cases hp : k.Runnable p
    · have hcount : k.runnableIn (p :: rest) = k.runnableIn rest + 1 := by
        simp [runnableIn, hp]
      rw [hcount]
      by_cases hescape : 1000 < (k.cpu c).schedTicks + 1
      · obtain ⟨k', hvisit⟩ := visit_escape h hp hescape
        refine iff_of_true ⟨k', p, ?_⟩ (.inl ⟨by omega, by push_cast; omega⟩)
        rw [passFrom, hvisit]
        rfl
      by_cases hpicks : k.Picks c p
      · refine iff_of_true ?_ (.inr ⟨p, List.mem_cons_self, hp, hpicks⟩)
        rcases visit_picks h hp hescape hpicks with ⟨k', hvisit⟩ | ⟨k', hvisit⟩
        · exact ⟨k', p, by rw [passFrom, hvisit]; rfl⟩
        · exact ⟨k', p, by rw [passFrom, hvisit]; rfl⟩
      · have hpass : passFrom c (p :: rest) k = passFrom c rest (k.rejectOn c) := by
          rw [passFrom, visit_rejects h hp hescape hpicks]
          rfl
        have hfit : (k.rejectOn c).Fit := (h.setCpu c _).setCpu c _
        have hsame : (k.rejectOn c).runnableIn rest = k.runnableIn rest := rfl
        rw [hpass, ih hfit, hsame, (rejectOn_cpu k c).1]
        simp only [rejectOn_picks, List.mem_cons, exists_eq_or_imp, hpicks, and_false, false_or]
        have hrunnable : ∀ q, (k.rejectOn c).Runnable q ↔ k.Runnable q := fun _ => Iff.rfl
        simp only [hrunnable]
        refine or_congr_left ⟨fun ⟨_, hlate⟩ => ⟨by omega, by push_cast; omega⟩,
          fun ⟨_, hlate⟩ => ?_⟩
        push_cast at hlate
        omega
    · have hcount : k.runnableIn (p :: rest) = k.runnableIn rest := by
        simp [runnableIn, hp]
      have hpass : passFrom c (p :: rest) k = passFrom c rest k := by
        rw [passFrom, visit, if_pos (show (k.proc p).state ≠ .runnable from hp)]
        rfl
      rw [hpass, ih h, hcount]
      simp [hp]

/-- The escape is due, or the phase that `count` selects has a runnable process: in the
stride phase one whose group holds the heap root, in the MLFQ phase one without a share. -/
def WorkAvailable (k : Kernel) (c : Fin ncpu) : Prop :=
  1000 < (k.cpu c).schedTicks + k.runnableIn slots ∨
  nextCount (k.cpu c).count ≤ k.strideTickets ∧ (∃ p, k.Runnable p ∧ k.HoldsMinimum p) ∨
  k.strideTickets < nextCount (k.cpu c).count ∧ ∃ p, k.Runnable p ∧ (k.proc p).passValue = -1

theorem exists_topLevel {k : Kernel} {p : Slot} (hp : k.Runnable p)
    (hpass : (k.proc p).passValue = -1) : ∃ q, k.Runnable q ∧ k.TopLevel q := by
  obtain ⟨q, hq, hleast⟩ := Finset.exists_min_image
    (Finset.univ.filter fun q => k.Runnable q ∧ (k.proc q).passValue = -1)
    (fun q => (k.proc q).level) ⟨p, by simp [hp, hpass]⟩
  simp only [Finset.mem_filter, Finset.mem_univ, true_and] at hq hleast
  refine ⟨q, hq.1, hq.2, .inr ?_⟩
  rw [higherLevel, List.any_eq_false]
  intro r _
  rw [decide_eq_true_eq]
  rintro ⟨hr, hnone, hless⟩
  have := hleast r ⟨hr, hnone⟩
  omega

/-- The passes that dispatch somebody: in every state the machine reaches in which a
process is RUNNABLE. -/
theorem work_conserving {free : Nat} {k : Kernel} (h : Reaches perform Enabled (boot free) k)
    (c : Fin ncpu) (hrunnable : ∃ p, k.Runnable p) :
    (∃ k' p, k.pass c = .ok (k', some p)) ↔ k.WorkAvailable c := by
  obtain ⟨p, hp⟩ := hrunnable
  have hpos : 0 < k.runnableIn slots :=
    List.countP_pos_iff.mpr ⟨p, List.mem_finRange p, decide_eq_true hp⟩
  rw [pass, passFrom_dispatches slots (fit_reaches h), WorkAvailable]
  refine or_congr (and_iff_right hpos) ⟨?_, ?_⟩
  · rintro ⟨q, -, hq, ⟨hphase, hmin⟩ | ⟨hphase, htop⟩⟩
    · exact .inl ⟨hphase, q, hq, hmin⟩
    · exact .inr ⟨hphase, q, hq, htop.1⟩
  · rintro (⟨hphase, q, hq, hmin⟩ | ⟨hphase, q, hq, hpass⟩)
    · exact ⟨q, List.mem_finRange q, hq, .inl ⟨hphase, hmin⟩⟩
    · obtain ⟨top, htop, hlevel⟩ := exists_topLevel hq hpass
      exact ⟨top, List.mem_finRange top, htop, .inr ⟨hphase, hlevel⟩⟩

/-- `init` with a share of 1 and its child at level 1: the next turn of CPU 0 is one of stride and
that of CPU 1 one of MLFQ. -/
theorem work_conserving_phases : ∃ k, Reaches perform Enabled (boot 100) k ∧
    (k.strideTickets = 1 ∧ (k.proc 1).level = 1) ∧
    (∃ k' p, k.pass 0 = .ok (k', some p)) ∧ ∃ k' p, k.pass 1 = .ok (k', some p) := by
  obtain ⟨k, hreach, htest⟩ := exists_reaches perform Enabled (boot 100)
    [.visit 1 0, .fork 0, .charge 1 1 0 0, .setCpuShare 0 1, .yield 0]
    (fun k => decide ((k.strideTickets = 1 ∧ (k.proc 1).level = 1) ∧
      nextCount (k.cpu 0).count ≤ k.strideTickets ∧ k.strideTickets < nextCount (k.cpu 1).count ∧
      (k.Runnable 0 ∧ 0 < k.heap.count ∧ k.schedManager 0 = .ok 0 ∧
        (k.proc 0).passValue = k.heap.cells 1) ∧
      k.Runnable 1 ∧ (k.proc 1).passValue = -1)) (by decide +kernel)
  obtain ⟨hstate, hstride, hmlfq, ⟨hinit, hheap, hself, hmin⟩, hchild, hpass⟩ :=
    of_decide_eq_true htest
  refine ⟨k, hreach, hstate, ?_, ?_⟩
  · exact (work_conserving hreach 0 ⟨0, hinit⟩).mpr
      (.inr (.inl ⟨hstride, 0, hinit, hheap, 0, hself, hmin⟩))
  · exact (work_conserving hreach 1 ⟨0, hinit⟩).mpr (.inr (.inr ⟨hmlfq, 1, hchild, hpass⟩))

/-- `init` forks, takes a share of 80 and sleeps: the child is RUNNABLE, but the stride
phase looks for the group of `init` only, and the pass ends without a dispatch. -/
theorem work_wasted : ∃ k, Reaches perform Enabled (boot 100) k ∧ k.Runnable 1 ∧
    ∃ k', k.pass 0 = .ok (k', none) := by
  obtain ⟨k, hreach, htest⟩ := exists_reaches perform Enabled (boot 100)
    [.visit 0 0, .fork 0, .setCpuShare 0 80, .sleepOn 0 (.other 0)]
    (fun k => decide (k.Runnable 1) && (k.pass 0).toOption.any fun r => r.2.isNone)
    (by decide +kernel)
  rw [Bool.and_eq_true, decide_eq_true_eq] at htest
  obtain ⟨hrunnable, hpass⟩ := htest
  refine ⟨k, hreach, hrunnable, ?_⟩
  cases hresult : k.pass 0 with
  | error fault =>
    rw [hresult] at hpass
    cases hpass
  | ok r =>
    obtain ⟨k', chosen⟩ := r
    rw [hresult] at hpass
    cases chosen with
    | none => exact ⟨k', rfl⟩
    | some p => cases hpass

end Xv6.Kernel

import Xv6.Share.Counts
import Xv6.Share.Pass
import Mathlib.Data.Nat.Periodic

/-! How the dispatches of one CPU divide between stride and MLFQ. `count` runs through
1, .., 100 with the dispatches that are not escapes; a rejected visit takes its step back, so
that 0 and 100 stand for the same phase. -/
namespace Xv6.Kernel

open Word Fallible Transition

section

variable {k k' : Kernel}

def turn (k : Kernel) (c : Fin ncpu) : Int := nextCount (k.cpu c).count

theorem SameCounts.turn (h : SameCounts k k') (c : Fin ncpu) : k'.turn c = k.turn c := by
  unfold Kernel.turn
  rw [h c]

def Visit.Turns (k k' : Kernel) (c : Fin ncpu) : Visit → Prop
  | .skipped | .rejected | .escape => k'.turn c = k.turn c
  | .stride => k.turn c ≤ k.strideTickets ∧ k'.turn c = nextCount (k.turn c)
  | .mlfq => k.strideTickets < k.turn c ∧ k'.turn c = nextCount (k.turn c)

theorem execution_done {c : Fin ncpu} {p : Slot} {how how' : Visit}
    (h : k.execution c p how = .ok (k', how')) :
    how' = how ∧ ∀ c', (k'.cpu c').count = (k.cpu c').count := by
  unfold execution at h
  split at h
  · cases h
  · cases Except.ok.inj h
    refine ⟨rfl, fun c' => ?_⟩
    by_cases hc : c' = c
    · subst hc
      simp [setCpu]
      rfl
    · simp [setCpu, hc]
      rfl

theorem advancePass_cpu {mgr : Slot} (h : k.advancePass mgr = .ok k') : k'.cpu = k.cpu := by
  obtain ⟨popped, -, h⟩ := bind_eq_ok.mp h
  obtain ⟨heap, -, h⟩ := bind_eq_ok.mp h
  cases Except.ok.inj h
  rfl

theorem counted_turn (k : Kernel) (c : Fin ncpu) :
    ((k.counted c).cpu c).count = k.turn c := by
  simp [counted, setCpu, turn]

theorem counted_other (k : Kernel) {c c' : Fin ncpu} (hc : c' ≠ c) :
    ((k.counted c).cpu c').count = (k.cpu c').count := by
  simp [counted, setCpu, hc]

theorem rejectOn_turn (k : Kernel) (c c' : Fin ncpu) : (k.rejectOn c).turn c' = k.turn c' := by
  by_cases hc : c' = c
  · subst hc
    unfold turn
    rw [(rejectOn_cpu k c').2, nextCount_reject]
  · simp [turn, rejectOn, setCpu, hc]

theorem visit_turns {c : Fin ncpu} {p : Slot} {how : Visit} (h : k.visit c p = .ok (k', how)) :
    how.Turns k k' c ∧ ∀ c', c' ≠ c → k'.turn c' = k.turn c' := by
  by_cases hp : k.Runnable p
  swap
  · rw [visit, if_pos (show (k.proc p).state ≠ .runnable from hp)] at h
    cases Except.ok.inj h
    exact ⟨rfl, fun c' _ => rfl⟩
  have hcounted : ∀ {k1 k2 : Kernel}, k1.cpu = (k.counted c).cpu →
      (∀ c', (k2.cpu c').count = (k1.cpu c').count) →
      k2.turn c = nextCount (k.turn c) ∧ ∀ c', c' ≠ c → k2.turn c' = k.turn c' := by
    intro k1 k2 hcpu hcounts
    refine ⟨?_, fun c' hc => ?_⟩
    · rw [turn, hcounts c, hcpu, counted_turn]
    · rw [turn, hcounts c', hcpu, counted_other k hc, turn]
  by_cases hescape : 1000 < (k.cpu c).schedTicks + 1
  · rw [visit, if_neg (not_not.mpr (show (k.proc p).state = .runnable from hp)),
      if_pos hescape] at h
    obtain ⟨rfl, hcounts⟩ := execution_done h
    have hturn : ∀ c', k'.turn c' = k.turn c' := by
      intro c'
      rw [turn, hcounts c', turn]
      by_cases hc : c' = c
      · subst hc
        simp [setCpu]
      · simp [setCpu, hc]
    exact ⟨hturn c, fun c' _ => hturn c'⟩
  rw [visit_eq hp hescape] at h
  have hreject : k.rejectOn c = k' → Visit.Turns k k' c .rejected ∧
      ∀ c', c' ≠ c → k'.turn c' = k.turn c' := by
    rintro rfl
    exact ⟨rejectOn_turn k c c, fun c' _ => rejectOn_turn k c c'⟩
  split at h
  · rename_i hphase
    obtain ⟨mgr, -, h⟩ := bind_eq_ok.mp h
    split at h
    · obtain ⟨k1, hadvance, h⟩ := bind_eq_ok.mp h
      obtain ⟨rfl, hcounts⟩ := execution_done h
      obtain ⟨hturn, hothers⟩ := hcounted (advancePass_cpu hadvance) hcounts
      exact ⟨⟨hphase, hturn⟩, hothers⟩
    · cases Except.ok.inj h
      exact hreject rfl
  · rename_i hphase
    split at h
    · cases Except.ok.inj h
      exact hreject rfl
    split at h
    · cases Except.ok.inj h
      exact hreject rfl
    · obtain ⟨rfl, hcounts⟩ := execution_done h
      obtain ⟨hturn, hothers⟩ := hcounted rfl hcounts
      exact ⟨⟨not_le.mp hphase, hturn⟩, hothers⟩

end

/-- A dispatch through the counting path: `stride_tickets` at the time, and whether it was
one of the stride phase. -/
structure Dispatch where
  tickets : Int
  stride : Bool
  deriving DecidableEq

/-- The dispatch that a step of the system is for CPU `c`, if it is one and `c` counts it. -/
def dispatch (c : Fin ncpu) : Kernel × Act × Out → Option Dispatch
  | (k, .visit c' _, .visited .stride) => if c' = c then some ⟨k.strideTickets, true⟩ else none
  | (k, .visit c' _, .visited .mlfq) => if c' = c then some ⟨k.strideTickets, false⟩ else none
  | _ => none

def dispatches (c : Fin ncpu) (trace : List (Kernel × Act × Out)) : List Dispatch :=
  trace.filterMap (dispatch c)

/-- The dispatch after `n` others goes to the stride phase if its turn is one of the first
`stride_tickets`. -/
def inShare (tickets : Int) (n : Nat) : Prop := ((n % 100 : Nat) : Int) + 1 ≤ tickets

instance (tickets : Int) : DecidablePred (inShare tickets) :=
  fun n => inferInstanceAs (Decidable (((n % 100 : Nat) : Int) + 1 ≤ tickets))

def InTurn : List Dispatch → Prop
  | [] => True
  | d :: ds => (d.stride = true ↔ inShare d.tickets ds.length) ∧ InTurn ds

def Counted (c : Fin ncpu) (trace : List (Kernel × Act × Out)) (k : Kernel) : Prop :=
  InTurn (dispatches c trace) ∧ k.turn c = (((dispatches c trace).length % 100 : Nat) : Int) + 1

theorem nextCount_mod (n : Nat) :
    nextCount (((n % 100 : Nat) : Int) + 1) = (((n + 1) % 100 : Nat) : Int) + 1 := by
  unfold nextCount
  split <;> omega

theorem counted_boot (c : Fin ncpu) (free : Nat) : Counted c [] (boot free) :=
  ⟨trivial, rfl⟩

theorem counted_step {c : Fin ncpu} {trace : List (Kernel × Act × Out)} {k k' : Kernel} {a : Act}
    {out : Out} (hcounted : Counted c trace k) (h : k.perform a = .ok (k', out)) :
    Counted c ((k, a, out) :: trace) k' := by
  obtain ⟨hinTurn, hturn⟩ := hcounted
  have hsame : dispatch c (k, a, out) = none → k'.turn c = k.turn c →
      Counted c ((k, a, out) :: trace) k' := by
    intro hnone hk
    unfold Counted dispatches
    rw [List.filterMap_cons_none hnone, hk]
    exact ⟨hinTurn, hturn⟩
  have hnew : ∀ d, dispatch c (k, a, out) = some d →
      (d.stride = true ↔ inShare d.tickets (dispatches c trace).length) →
      k'.turn c = nextCount (k.turn c) → Counted c ((k, a, out) :: trace) k' := by
    intro d hsome hphase hk
    unfold Counted dispatches
    rw [List.filterMap_cons_some hsome, hk, hturn, nextCount_mod]
    exact ⟨⟨hphase, hinTurn⟩, rfl⟩
  by_cases hvisit : ∃ c' p, a = .visit c' p
  swap
  · have hother : ∀ c' p, a ≠ .visit c' p := fun c' p ha => hvisit ⟨c', p, ha⟩
    refine hsame ?_ ((perform_counts h hother).turn c)
    cases a with
    | visit c' p => exact absurd rfl (hother c' p)
    | _ => rfl
  obtain ⟨c', p, rfl⟩ := hvisit
  obtain ⟨⟨k1, how⟩, hdone, heq⟩ := map_eq_ok.mp h
  cases heq
  obtain ⟨hown, hothers⟩ := visit_turns hdone
  by_cases hc : c' = c
  swap
  · refine hsame ?_ (hothers c (Ne.symm hc))
    cases how <;> simp [dispatch, hc]
  subst hc
  unfold inShare at hnew
  cases how with
  | skipped => exact hsame rfl hown
  | rejected => exact hsame rfl hown
  | escape => exact hsame rfl hown
  | stride =>
    refine hnew ⟨k.strideTickets, true⟩ (if_pos rfl) ?_ hown.2
    rw [← hturn]
    exact iff_of_true rfl hown.1
  | mlfq =>
    refine hnew ⟨k.strideTickets, false⟩ (if_pos rfl) ?_ hown.2
    rw [← hturn]
    exact iff_of_false Bool.false_ne_true (not_le.mpr hown.1)

theorem counted_run {c : Fin ncpu} {free : Nat} {trace : List (Kernel × Act × Out)} {k : Kernel}
    (run : Run perform Enabled (boot free) trace k) : Counted c trace k :=
  run.invariant (Counted c) (counted_boot c free)
    fun _ _ _ _ _ hcounted _ hstep => counted_step hcounted hstep

theorem InTurn.of_append {after rest : List Dispatch} (h : InTurn (after ++ rest)) :
    InTurn rest := by
  induction after with
  | nil => exact h
  | cons d ds ih => exact ih h.2

/-- The stride dispatches of a window are as many as the numbers in it that are in the
share. -/
theorem InTurn.countP {window before : List Dispatch} {s : Int} (h : InTurn (window ++ before))
    (hs : ∀ d ∈ window, d.tickets = s) :
    window.countP Dispatch.stride =
      ({n ∈ Finset.Ico before.length (before.length + window.length) | inShare s n} :
        Finset Nat).card := by
  induction window with
  | nil => simp
  | cons d ds ih =>
    have hd : d.tickets = s := hs d List.mem_cons_self
    have hrest := ih h.2 fun d' hd' => hs d' (List.mem_cons_of_mem d hd')
    have hphase : d.stride = true ↔ inShare d.tickets (ds ++ before).length := h.1
    rw [hd, List.length_append, Nat.add_comm] at hphase
    have hlast : Finset.Ico before.length (before.length + (d :: ds).length) =
        insert (before.length + ds.length)
          (Finset.Ico before.length (before.length + ds.length)) := by
      ext n
      simp only [Finset.mem_Ico, Finset.mem_insert, List.length_cons]
      omega
    rw [List.countP_cons, hrest, hlast, Finset.filter_insert]
    by_cases hstride : d.stride = true
    · rw [if_pos hstride, if_pos (hphase.mp hstride), Finset.card_insert_of_notMem (by simp)]
    · rw [if_neg hstride, if_neg fun hin => hstride (hphase.mpr hin)]
      rfl

theorem inShare_periodic (s : Int) : Function.Periodic (inShare s) 100 := by
  intro n
  unfold inShare
  rw [Nat.add_mod_right]

theorem count_inShare (s : Int) {n : Nat} (hn : n ≤ 100) :
    Nat.count (inShare s) n = min n s.toNat := by
  induction n with
  | zero => simp
  | succ n ih =>
    rw [Nat.count_succ, ih (by omega)]
    have hin : inShare s n ↔ (n : Int) + 1 ≤ s := by
      unfold inShare
      rw [Nat.mod_eq_of_lt (by omega)]
    simp only [hin]
    split <;> omega

/-- Process `p`, of MLFQ and on the highest level, can be dispatched by CPU 0 another `n`
times: the stride phase is empty or `n` turns away, and the escape is `n` visits away. -/
@[mk_iff]
structure Spins (k : Kernel) (p : Slot) (s : Int) (n : Nat) : Prop where
  idle : (k.cpu 0).proc = none
  count : 0 ≤ (k.cpu 0).count
  turns : s ≤ 0 ∨ s ≤ (k.cpu 0).count ∧ (k.cpu 0).count + n ≤ 100
  ticks : (k.cpu 0).schedTicks + n ≤ 1000
  tickets : k.strideTickets = s
  runnable : (k.proc p).state = .runnable
  mlfq : (k.proc p).passValue = -1
  level : (k.proc p).level = 0
  kstack : (k.proc p).kstack = true
  pgdir : (k.proc p).pgdir ≠ none

instance (k : Kernel) (p : Slot) (s : Int) (n : Nat) : Decidable (k.Spins p s n) :=
  decidable_of_iff' _ (spins_iff ..)

theorem modify_cpu (k : Kernel) (slot : Slot) (f : Proc → Proc) : (k.modify slot f).cpu = k.cpu :=
  rfl

theorem Spins.round {k : Kernel} {p : Slot} {s : Int} {n : Nat} (h : k.Spins p s (n + 1)) :
    ∃ k', k.visit 0 p = .ok (k', .mlfq) ∧ (k'.proc p).state = .running ∧
      (k'.yield p).Spins p s n := by
  have hcount := h.count
  have hticks := h.ticks
  have hturns := h.turns
  obtain ⟨hnext, hlater⟩ : (0 < nextCount (k.cpu 0).count ∧ s < nextCount (k.cpu 0).count) ∧
      (s ≤ 0 ∨ s ≤ nextCount (k.cpu 0).count ∧ nextCount (k.cpu 0).count + n ≤ 100) := by
    unfold nextCount
    split <;> omega
  have hphase : ¬ nextCount (k.cpu 0).count ≤ k.strideTickets := by
    rw [h.tickets]
    exact not_le.mpr hnext.2
  have hlevel : ¬ (0 < (k.proc p).level ∧ k.higherLevel p) := by
    rw [h.level]
    exact fun hpos => absurd hpos.1 (by decide)
  have hready :
      ¬ (((k.counted 0).proc p).kstack = false ∨ ((k.counted 0).proc p).pgdir = none) := by
    rintro (hstack | hdir)
    · exact absurd (h.kstack.symm.trans hstack) (by decide)
    · exact h.pgdir hdir
  have hvisit : k.visit 0 p = .ok (((k.counted 0).modify p fun q =>
      { q with state := .running }).setCpu 0 fun cpu => { cpu with proc := some p }, .mlfq) := by
    rw [visit_eq h.runnable (by omega), if_neg hphase, if_neg (not_not.mpr h.mlfq), if_neg hlevel,
      execution, if_neg hready]
  refine ⟨_, hvisit, ?_, ?_⟩
  · simp [setCpu]
  · constructor
    · simp [yield, sched, setCpu, modify_cpu]
    · simpa [yield, sched, setCpu, modify_cpu, counted] using hnext.1.le
    · simpa [yield, sched, setCpu, modify_cpu, counted] using hlater
    · have hafter : (k.cpu 0).schedTicks + 1 + n ≤ 1000 := by omega
      simpa [yield, sched, setCpu, modify_cpu, counted] using hafter
    · exact h.tickets
    · simp [yield, sched]
    · simpa [yield, sched, setCpu, counted] using h.mlfq
    · simpa [yield, sched, setCpu, counted] using h.level
    · simpa [yield, sched, setCpu, counted] using h.kstack
    · simpa [yield, sched, setCpu, counted] using h.pgdir

theorem Spins.run {free : Nat} {p : Slot} {s : Int} (n : Nat) {k : Kernel}
    {trace : List (Kernel × Act × Out)} (run : Run perform Enabled (boot free) trace k)
    (h : k.Spins p s n) : ∃ trace' k', Run perform Enabled (boot free) trace' k' ∧
      dispatches 0 trace' = List.replicate n ⟨s, false⟩ ++ dispatches 0 trace := by
  induction n generalizing k trace with
  | zero => exact ⟨trace, k, run, rfl⟩
  | succ n ih =>
    obtain ⟨k1, hvisit, hrunning, hspins⟩ := h.round
    have hdone : k.perform (.visit 0 p) = .ok (k1, .visited .mlfq) := by
      rw [perform, hvisit]
      rfl
    have hidle : k.Enabled (.visit 0 p) := h.idle
    have hyield : k1.perform (.yield p) = .ok (k1.yield p, .done) := rfl
    have henabled : k1.Enabled (.yield p) := hrunning
    obtain ⟨trace', k', run', hdispatches⟩ :=
      ih ((run.step hidle hdone).step henabled hyield) hspins
    refine ⟨trace', k', run', ?_⟩
    have hnew : dispatches 0 ((k1, .yield p, .done) :: (k, .visit 0 p, .visited .mlfq) :: trace) =
        ⟨s, false⟩ :: dispatches 0 trace := by
      rw [← h.tickets]
      rfl
    rw [hdispatches, hnew, List.replicate_succ', List.append_assoc]
    rfl

/-- Of 100 dispatches in a row under the same `stride_tickets`, exactly that many are stride
dispatches and the others are MLFQ dispatches, if and only if the number is one of 0, .., 100. -/
theorem split_exact {c : Fin ncpu} {free : Nat} {trace : List (Kernel × Act × Out)} {k : Kernel}
    {after window before : List Dispatch} {s : Int}
    (run : Run perform Enabled (boot free) trace k)
    (hwindow : dispatches c trace = after ++ window ++ before) (hlength : window.length = 100)
    (hs : ∀ d ∈ window, d.tickets = s) :
    ((window.countP fun d => d.stride : Nat) : Int) = s ∧
        ((window.countP fun d => !d.stride : Nat) : Int) = 100 - s ↔
      0 ≤ s ∧ s ≤ 100 := by
  have hinTurn : InTurn (window ++ before) := by
    have h := (counted_run (c := c) run).1
    rw [hwindow, List.append_assoc] at h
    exact h.of_append
  have hstrides : window.countP Dispatch.stride = min 100 s.toNat := by
    rw [hinTurn.countP hs, hlength,
      Nat.filter_Ico_card_eq_of_periodic _ _ _ (inShare_periodic s), count_inShare s le_rfl]
  have hothers := List.length_eq_countP_add_countP (l := window) Dispatch.stride
  simp only [Bool.not_eq_true, Bool.decide_eq_false] at hothers
  have heta : window.countP (fun d => d.stride) = window.countP Dispatch.stride := rfl
  rw [heta, hstrides]
  omega

/-- `init` has a share of 20 and its child has none. -/
theorem split_exact_shared : ∃ (trace : List (Kernel × Act × Out)) (k : Kernel)
    (window : List Dispatch), Run perform Enabled (boot 100) trace k ∧
      dispatches 0 trace = [] ++ window ++ [] ∧ window.length = 100 ∧
      (∀ d ∈ window, d.tickets = 20) ∧ ((window.countP fun d => d.stride : Nat) : Int) = 20 ∧
      ((window.countP fun d => !d.stride : Nat) : Int) = 80 := by
  obtain ⟨trace, k, run, htest⟩ := exists_run perform Enabled (boot 100)
    ([.visit 1 0, .fork 0, .setCpuShare 0 20, .yield 0, .visit 0 1] ++
      (List.replicate 20 [.visit 0 0, .yield 0]).flatten)
    (fun trace k => decide (k.Spins 1 20 80 ∧
      dispatches 0 trace = List.replicate 20 (⟨20, true⟩ : Dispatch))) (by decide +kernel)
  obtain ⟨hspins, hfirst⟩ := of_decide_eq_true htest
  obtain ⟨trace', k', run', hdispatches⟩ := hspins.run 80 run
  rw [hfirst] at hdispatches
  have hwindow : dispatches 0 trace' =
      [] ++ (List.replicate 80 ⟨20, false⟩ ++ List.replicate 20 ⟨20, true⟩) ++ [] := by
    rw [hdispatches, List.append_nil]
    rfl
  have hsame : ∀ d ∈ List.replicate 80 (⟨20, false⟩ : Dispatch) ++ List.replicate 20 ⟨20, true⟩,
      d.tickets = 20 := by
    intro d hd
    rcases List.mem_append.mp hd with hd | hd
    · rw [List.eq_of_mem_replicate hd]
    · rw [List.eq_of_mem_replicate hd]
  have hlength : (List.replicate 80 (⟨20, false⟩ : Dispatch) ++
      List.replicate 20 (⟨20, true⟩ : Dispatch)).length = 100 := by simp
  exact ⟨trace', k', _, run', hwindow, hlength, hsame,
    (split_exact run' hwindow hlength hsame).mpr ⟨by decide, by decide⟩⟩

/-- A sum of shares that overflows: every one of 100 dispatches is an MLFQ dispatch, and
`stride_tickets` is negative. -/
theorem split_overflow : ∃ (trace : List (Kernel × Act × Out)) (k : Kernel)
    (after window before : List Dispatch), Run perform Enabled (boot 100) trace k ∧
      dispatches 0 trace = after ++ window ++ before ∧ window.length = 100 ∧
      (∀ d ∈ window, d.tickets = -2147483648) ∧
      ((window.countP fun d => d.stride : Nat) : Int) ≠ -2147483648 ∧
      ((window.countP fun d => !d.stride : Nat) : Int) ≠ 100 - (-2147483648) := by
  obtain ⟨trace, k, run, hspins⟩ := exists_run perform Enabled (boot 100)
    [.visit 0 0, .fork 0, .setCpuShare 0 1, .setCpuShare 0 2147483647, .yield 0]
    (fun _ k => k.Spins 1 (-2147483648) 100) (by decide +kernel)
  obtain ⟨trace', k', run', hwindow⟩ :=
    (of_decide_eq_true hspins).run 100 run
  refine ⟨trace', k', [], List.replicate 100 ⟨-2147483648, false⟩, dispatches 0 trace, run',
    hwindow, List.length_replicate, fun d hd => ?_, ?_, ?_⟩
  · rw [List.eq_of_mem_replicate hd]
  · simp
  · simp

end Xv6.Kernel

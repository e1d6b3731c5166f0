import Xv6.Share.Range
import Xv6.Share.Wrap

/-! Service. The pass value of a process is meant to be the service it has received, in units of
its stride and counted from what the others had when it came. `service` is that number without
a bound; as long as the pass values do not run out they are equal to it, and the minimum of the
heap belongs to the process with the least. -/
namespace Xv6.Kernel

open Word Fallible Transition

def leastOf (procs : Finset Slot) (f : Slot → Int) : Int :=
  if h : procs.Nonempty then procs.inf' h f else 0

def service : List (Kernel × Act × Out) → Slot → Int
  | [], _ => 0
  | step :: trace, i =>
      match moveOf step with
      | .still => service trace i
      | .select mgr =>
          if i = mgr then service trace i + (step.1.proc mgr).stride else service trace i
      | .join p _ => if i = p then leastOf step.1.strideProcs (service trace) else service trace i

/-- A share is asked for once, and given back as a whole by a process whose pass value is at the
root of the heap; a selection finds a live manager. -/
def ShareOrderly (k : Kernel) : Act → Prop
  | .visit c p => ∀ mgr, k.Chosen c p mgr → (k.proc mgr).Live
  | .setCpuShare p percent => k.Accepts percent → (k.proc p).passValue = -1
  | .exit p => (k.proc p).passValue ≠ -1 →
      (0 < (k.proc p).pid ∧ k.ExitCompletes p) ∧ (k.proc p).passValue = k.heap.cells 1
  | .exitBegin _ | .exitEnd _ => False
  | .threadExit p _ => (k.proc p).tid ≠ 0 → (k.proc p).passValue = -1
  | _ => True

instance (k : Kernel) : (a : Act) → Decidable (k.ShareOrderly a)
  | .visit .. => inferInstanceAs (Decidable (∀ _, _))
  | .setCpuShare .. | .exit _ | .threadExit .. => inferInstanceAs (Decidable (_ → _))
  | .exitBegin _ | .exitEnd _ => inferInstanceAs (Decidable False)
  | .yield _ | .sleepOn .. | .wakeup _ | .charge .. | .kill .. | .fork _ | .exec .. | .sbrk ..
  | .wait _ | .resumeWait _ | .threadCreate .. | .threadJoin .. | .resumeJoin _ =>
      inferInstanceAs (Decidable True)

variable {k k' : Kernel} {a : Act} {out : Out} {trace : List (Kernel × Act × Out)}

theorem Chosen.answer {c : Fin ncpu} {p mgr : Slot} (h : k.Chosen c p mgr)
    (hperform : k.perform (.visit c p) = .ok (k', out)) : out = .visited .stride := by
  obtain ⟨⟨k1, how⟩, hvisit, heq⟩ := map_eq_ok.mp hperform
  cases heq
  rw [visit_eq h.runnable (by have := h.noEscape; omega), if_pos h.phase, h.manager] at hvisit
  obtain ⟨mgr', hmgr, hvisit⟩ := bind_eq_ok.mp hvisit
  cases Except.ok.inj hmgr
  rw [if_pos ⟨h.nonempty, h.minimum⟩] at hvisit
  obtain ⟨k2, -, hvisit⟩ := bind_eq_ok.mp hvisit
  rw [execution_how hvisit]

theorem ShareOrderly.allowed (h : k.ShareOrderly a) (hk : k.InRange (distance trace))
    (hstrides : k.Strides)
    (henabled : k.Enabled a) (hperform : k.perform a = .ok (k', out))
    (hfits : distance ((k, a, out) :: trace) < 2147483648) : k.ContentsAllowed a := by
  cases a with
  | visit c p =>
    refine ⟨⟨henabled, fun mgr hchosen => ?_⟩, h⟩
    cases hchosen.answer hperform
    obtain ⟨hexact, hpass, -⟩ := hk.advance hstrides hchosen hfits
    have hstride := (hstrides mgr).1
    rw [hexact]
    omega
  | setCpuShare p percent => exact ⟨⟨henabled, h⟩, trivial⟩
  | exit p => exact ⟨⟨henabled, fun hpass => (h hpass).1⟩, fun hpass => (h hpass).2⟩
  | exitBegin p => exact h.elim
  | exitEnd p => exact h.elim
  | threadExit p retval => exact ⟨⟨henabled, h⟩, trivial⟩
  | _ => exact ⟨⟨henabled, trivial⟩, trivial⟩

theorem ordered_of_move (h : Move k a k') (hordered : k.heap.Ordered) : k'.heap.Ordered := by
  cases h with
  | still heap => rwa [heap]
  | returned cur popped _ _ pop heap =>
    rw [heap]
    exact StrideHeap.ordered_pop pop hordered
  | selected c p mgr popped pass _ _ pop _ push =>
    exact StrideHeap.ordered_push push (StrideHeap.ordered_pop pop hordered)
  | granted cur percent _ grants => exact StrideHeap.ordered_push grants.heap hordered

theorem moveOf_still (h : movesShares a out = false) : moveOf (k, a, out) = .still := by
  unfold moveOf
  split
  · rename_i heq
    cases heq
    cases h
  · rename_i heq
    cases heq
    cases h
  · rfl

theorem HeapMatches.nonempty (h : k.HeapMatches) : k.strideProcs.Nonempty ↔ 0 < k.heap.count := by
  have hcard := congrArg Multiset.card h.contents_eq
  have hcount := h.count
  rw [StrideHeap.contents, ArrayHeap.card_contents, Multiset.card_map, Finset.card_val] at hcard
  rw [← Finset.card_pos]
  omega

theorem HeapMatches.root_le {i : Slot} (h : k.HeapMatches) (hordered : k.heap.Ordered)
    (hi : i ∈ k.strideProcs) : k.heap.cells 1 ≤ (k.proc i).passValue := by
  apply hordered.minimum
  rw [h.contents_eq]
  exact Multiset.mem_map_of_mem (fun i => (k.proc i).passValue) hi

theorem HeapMatches.root_eq (h : k.HeapMatches) (hcount : 0 < k.heap.count) :
    ∃ i ∈ k.strideProcs, (k.proc i).passValue = k.heap.cells 1 := by
  have hroot := StrideHeap.root_mem hcount
  rw [h.contents_eq] at hroot
  exact Multiset.mem_map.mp hroot

def Served (k : Kernel) (trace : List (Kernel × Act × Out)) : Prop :=
  ∀ i, (k.proc i).passValue ≠ -1 → (k.proc i).passValue = service trace i

theorem HeapMatches.root_least (h : k.HeapMatches) (hordered : k.heap.Ordered)
    (hserved : k.Served trace) :
    leastOf k.strideProcs (service trace) = if k.heap.count = 0 then 0 else k.heap.cells 1 := by
  have hcount := h.count
  unfold leastOf
  split
  · rename_i hprocs
    have hpositive := h.nonempty.mp hprocs
    obtain ⟨i, hi, hroot⟩ := h.root_eq hpositive
    rw [if_neg (by omega), ← hroot, hserved i (mem_strideProcs.mp hi).2]
    refine le_antisymm (Finset.inf'_le _ hi) (Finset.le_inf' hprocs _ fun j hj => ?_)
    rw [← hserved i (mem_strideProcs.mp hi).2, ← hserved j (mem_strideProcs.mp hj).2, hroot]
    exact h.root_le hordered hj
  · rename_i hprocs
    rw [h.nonempty] at hprocs
    rw [if_pos (by omega)]

theorem served_step (hserved : k.Served trace) (hk : k.InRange (distance trace))
    (hstrides : k.Strides) (hmatches : k.HeapMatches) (hordered : k.heap.Ordered)
    (hperform : k.perform a = .ok (k', out))
    (hfits : distance ((k, a, out) :: trace) < 2147483648) :
    k'.Served ((k, a, out) :: trace) := by
  intro i hpass
  rw [service]
  cases perform_restands hperform with
  | keeps h hout =>
    rw [moveOf_still hout]
    rcases h i with hsame | hfresh
    · have heq : (k'.proc i).passValue = (k.proc i).passValue := congrArg Standing.passValue hsame
      rw [heq] at hpass ⊢
      exact hserved i hpass
    · exact absurd (congrArg Standing.passValue hfresh) hpass
  | advances mgr h =>
    rw [h.chosen.moveOf]
    dsimp only
    split
    · rename_i hi
      subst hi
      obtain ⟨hexact, hnonneg, -⟩ := hk.advance hstrides h.chosen hfits
      have heq := congrArg Standing.passValue h.same
      dsimp only [Proc.standing] at heq
      rw [heq, hexact, ← hserved i (by omega)]
    · rename_i hi
      have heq : (k'.proc i).passValue = (k.proc i).passValue :=
        congrArg Standing.passValue (h.others i hi)
      rw [heq] at hpass ⊢
      exact hserved i hpass
  | @grants p percent _ h =>
    have hjoin : moveOf (k, .setCpuShare p percent, .ret 0) = .join p (1000 / percent) := rfl
    rw [hjoin]
    dsimp only
    split
    · rename_i hi
      rw [hi, h.same, hmatches.root_least hordered hserved]
      exact StrideHeap.push_root h.heap hmatches.count
    · rename_i hi
      rw [h.others i hi] at hpass ⊢
      exact hserved i hpass
  | charges p level ticks runtime =>
    have hstill : moveOf (k, .charge p level ticks runtime, .done) = .still := rfl
    rw [hstill]
    have heq : ((k.charge p level ticks runtime).proc i).passValue = (k.proc i).passValue := by
      unfold charge
      rw [modify_proc]
      split
      · rename_i hi
        rw [hi]
      · rfl
    rw [heq] at hpass ⊢
    exact hserved i hpass

/-- What a run keeps as long as its selections fit, and what an orderly one keeps then. -/
structure Lasts (trace : List (Kernel × Act × Out)) (k : Kernel) : Prop where
  strides : k.Strides
  range : distance trace < 2147483648 → k.InRange (distance trace)
  orderly : distance trace < 2147483648 → (∀ step ∈ trace, step.1.ShareOrderly step.2.1) →
    k.HeapMatches ∧ k.heap.Ordered ∧ k.Served trace

theorem lasts_boot (free : Nat) : Lasts [] (boot free) := by
  have hproc : ∀ {P : Int → Int → Int → Prop}, P 0 0 0 → P (-1) 0 0 → (boot free).EachShare P := by
    intro P hzero hinit i
    dsimp only [boot]
    by_cases hi : i = 0
    · subst hi
      exact hinit
    · rw [Function.update_of_ne hi]
      exact hzero
  refine ⟨hproc (by decide) (by decide), fun _ => ⟨fun i => ⟨le_rfl, le_rfl⟩, ?_⟩, fun _ _ => ?_⟩
  · exact hproc (.inr ⟨le_rfl, le_rfl⟩) (.inl ⟨rfl, rfl⟩)
  · refine ⟨heapMatches_boot free, fun i hlow hhigh => ?_, ?_⟩
    · simp [boot, StrideHeap.empty] at hhigh
      omega
    · exact hproc (P := fun pass _ _ => pass ≠ -1 → pass = 0) (fun _ => rfl) (fun h => absurd rfl h)

theorem lasts_step (hk : Lasts trace k) (henabled : k.Enabled a)
    (h : k.perform a = .ok (k', out)) : Lasts ((k, a, out) :: trace) k' := by
  have hmore : distance trace ≤ distance ((k, a, out) :: trace) := distance_le hk.strides
  refine ⟨strides_step hk.strides h, fun hfits => ?_, fun hfits horderly => ?_⟩
  · exact inRange_step (hk.range (by omega)) hk.strides henabled h hfits
  · have hrange := hk.range (by omega)
    obtain ⟨hmatches, hordered, hserved⟩ :=
      hk.orderly (by omega) fun step hstep => horderly step (List.mem_cons_of_mem _ hstep)
    have hallowed :=
      ShareOrderly.allowed (horderly _ List.mem_cons_self) hrange hk.strides henabled h
      hfits
    have hmove := move_of_effect henabled hallowed.1.2 hmatches.cells (perform_effect henabled h)
    exact ⟨heapMatches_step hmatches hallowed h, ordered_of_move hmove hordered,
      served_step hserved hrange hk.strides hmatches hordered h hfits⟩

theorem lasts_run {free : Nat} (run : Run perform Enabled (boot free) trace k) : Lasts trace k :=
  run.invariant Lasts (lasts_boot free)
    fun _ _ _ _ _ hk henabled hstep => lasts_step hk henabled hstep

/-- As long as the strides of the selections add up to less than 2^31, a process with a share has
a pass value of at least 0. If the run was orderly besides, the minimum of the heap belongs to the
processes that have received the least service. -/
theorem pass_values_last {free : Nat} (run : Run perform Enabled (boot free) trace k)
    (hfits : distance trace < 2147483648) :
    (∀ i, (k.proc i).portion ≠ 0 → 0 ≤ (k.proc i).passValue ∧ (k.proc i).passValue ≠ -1) ∧
    ((∀ step ∈ trace, step.1.ShareOrderly step.2.1) →
      (0 < k.heap.count → ∃ i ∈ k.strideProcs, (k.proc i).passValue = k.heap.cells 1) ∧
      ∀ i ∈ k.strideProcs, ((k.proc i).passValue = k.heap.cells 1 ↔
        ∀ j ∈ k.strideProcs, service trace i ≤ service trace j)) := by
  have hk := lasts_run run
  constructor
  · intro i hportion
    rcases (hk.range hfits).proc i with ⟨-, hzero⟩ | ⟨hnonneg, -⟩
    · exact absurd hzero hportion
    · exact ⟨hnonneg, by omega⟩
  · intro horderly
    obtain ⟨hmatches, hordered, hserved⟩ := hk.orderly hfits horderly
    refine ⟨hmatches.root_eq, fun i hi => ⟨fun hroot j hj => ?_, fun hleast => ?_⟩⟩
    · rw [← hserved i (mem_strideProcs.mp hi).2, ← hserved j (mem_strideProcs.mp hj).2, hroot]
      exact hmatches.root_le hordered hj
    · obtain ⟨j, hj, hroot⟩ := hmatches.root_eq (hmatches.nonempty.mp ⟨i, hi⟩)
      have hle := hleast j hj
      rw [← hserved i (mem_strideProcs.mp hi).2, ← hserved j (mem_strideProcs.mp hj).2] at hle
      have hge := hmatches.root_le hordered hi
      omega

/-- Shares of 10 and 20 percent. -/
theorem pass_values_last_two : ∃ trace k, Run perform Enabled (boot 200) trace k ∧
    distance trace < 2147483648 ∧ (∀ step ∈ trace, step.1.ShareOrderly step.2.1) ∧
    (k.proc 0).portion = 10 ∧ 1 ∈ k.strideProcs ∧ (k.proc 1).passValue = k.heap.cells 1 ∧
    0 ≤ (k.proc 0).passValue ∧ ∀ j ∈ k.strideProcs, service trace 1 ≤ service trace j := by
  obtain ⟨trace, k, run, htest⟩ := exists_run perform Enabled (boot 200)
    [.visit 0 0, .fork 0, .yield 0, .visit 0 1, .visit 1 0, .setCpuShare 0 10, .setCpuShare 1 20,
      .yield 0, .yield 1, .visit 0 0]
    (fun trace k => decide (distance trace < 2147483648 ∧
      (∀ step ∈ trace, step.1.ShareOrderly step.2.1) ∧ (k.proc 0).portion = 10 ∧ 1 ∈ k.strideProcs ∧
      (k.proc 1).passValue = k.heap.cells 1)) (by decide +kernel)
  obtain ⟨hfits, horderly, hportion, hshare, hroot⟩ := of_decide_eq_true htest
  obtain ⟨hrange, hleast⟩ := pass_values_last run hfits
  refine ⟨trace, k, run, hfits, horderly, hportion, hshare, hroot, (hrange 0 ?_).1, ?_⟩
  · rw [hportion]
    decide
  · exact ((hleast horderly).2 1 hshare).mp hroot

/-- After 6448900 selections the pass value of a process with a share of 3 percent is negative,
after 206364795 it is -1. -/
theorem pass_values_run_out :
    (∃ k, Reaches perform Enabled (boot 100) k ∧ (k.proc 0).portion = 3 ∧
      (k.proc 0).passValue = -2147483596) ∧
    ∃ k, Reaches perform Enabled (boot 100) k ∧ (k.proc 0).portion = 3 ∧
      (k.proc 0).passValue = -1 := by
  obtain ⟨k, ticks, turn, h, -⟩ := spins 6448900
  obtain ⟨k', ticks', turn', h', -⟩ := spins 206364795
  exact ⟨⟨k, h.reaches, h.first.2.2, h.first.1⟩, ⟨k', h'.reaches, h'.first.2.2, h'.first.1⟩⟩

end Xv6.Kernel

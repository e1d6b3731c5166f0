import Xv6.Share.Heap

/-! Conservation of the tickets of the stride scheduler. -/
namespace Xv6.Kernel

open Word Fallible Transition

/-- `percent + stride_tickets` does not overflow, and `exit` is not interrupted. -/
def TicketsKept (k : Kernel) : Act → Prop
  | .setCpuShare _ percent => k.Accepts percent → percent + k.strideTickets < 2147483648
  | .exitBegin _ | .exitEnd _ => False
  | _ => True

instance (k : Kernel) : (a : Act) → Decidable (k.TicketsKept a)
  | .setCpuShare .. => inferInstanceAs (Decidable (_ → _))
  | .exitBegin _ | .exitEnd _ => inferInstanceAs (Decidable False)
  | .visit .. | .yield _ | .sleepOn .. | .wakeup _ | .charge .. | .kill .. | .fork _ | .exec ..
  | .sbrk .. | .wait _ | .resumeWait _ | .threadCreate .. | .threadExit .. | .threadJoin ..
  | .resumeJoin _ | .exit _ => inferInstanceAs (Decidable True)

def TicketsAllowed (k : Kernel) (a : Act) : Prop := k.ShareAllowed a ∧ k.TicketsKept a

instance (k : Kernel) (a : Act) : Decidable (k.TicketsAllowed a) :=
  inferInstanceAs (Decidable (_ ∧ _))

def negative (_ portion : Int) : Nat := if portion < 0 then 1 else 0

structure TicketsConserved (k : Kernel) : Prop where
  notExiting : k.NotExiting
  cells : ∀ i, k.heap.cells i ≠ -1
  tickets : k.strideTickets = k.total fun _ portion => portion
  limit : k.strideTickets ≤ 80
  portions : k.total negative = 0

theorem ticketsConserved_boot (free : Nat) : (boot free).TicketsConserved where
  notExiting := notExiting_boot free
  cells := by simp [boot, StrideHeap.empty]
  tickets := by rw [total_boot]; rfl
  limit := by simp [boot]
  portions := total_boot negative free

theorem portion_nonneg {k : Kernel} (h : k.total negative = 0) (i : Slot) :
    0 ≤ (k.proc i).stake fun _ portion => portion := by
  have hzero : (k.proc i).stake negative = 0 :=
    Finset.sum_eq_zero_iff.mp h i (Finset.mem_univ i)
  by_cases hholds : (k.proc i).Holds
  · rw [Proc.stake_of_holds _ hholds] at hzero ⊢
    unfold negative at hzero
    split at hzero <;> omega
  · rw [Proc.stake_of_not_holds _ hholds]

theorem tickets_nonneg {k : Kernel} (h : k.total negative = 0) :
    0 ≤ k.total fun _ portion => portion :=
  Finset.sum_nonneg fun i _ => portion_nonneg h i

theorem portions_of_move {k k' : Kernel} {a : Act} (h : Move k a k')
    (hzero : k.total negative = 0) : k'.total negative = 0 := by
  cases h with
  | still _ _ total => rw [total, hzero]
  | returned cur popped _ _ _ _ _ total =>
    have htotal := total negative
    omega
  | selected c p mgr popped pass _ _ _ _ _ _ total dead =>
    by_cases hholds : (k.proc mgr).Holds
    · have htotal := total negative hholds
      unfold negative at htotal hzero ⊢
      omega
    · rw [dead negative hholds, hzero]
  | granted cur percent _ grants total =>
    rw [total, hzero, negative, if_neg (not_lt.mpr grants.positive.le)]

theorem conserved_of_move {k k' : Kernel} {a : Act} (h : Move k a k')
    (hinv : k.TicketsConserved) (hkept : k.TicketsKept a) :
    k'.strideTickets = (k'.total fun _ portion => portion) ∧ k'.strideTickets ≤ 80 := by
  have hnonneg := tickets_nonneg (portions_of_move h hinv.portions)
  have htickets := hinv.tickets
  have hlimit := hinv.limit
  cases h with
  | still _ strideTickets total =>
    rw [strideTickets, total]
    exact ⟨htickets, hlimit⟩
  | returned cur popped _ holds _ _ strideTickets total =>
    have htotal := total fun _ portion => portion
    have hportion := portion_nonneg hinv.portions cur
    rw [Proc.stake_of_holds _ holds] at hportion
    have hexact : i32 (k.strideTickets - (k.proc cur).portion) =
        k.strideTickets - (k.proc cur).portion := by
      apply i32_eq_self
      constructor <;> omega
    rw [strideTickets, hexact]
    constructor <;> omega
  | selected c p mgr popped pass _ _ _ _ _ strideTickets total dead =>
    rw [strideTickets]
    refine ⟨?_, hlimit⟩
    by_cases hholds : (k.proc mgr).Holds
    · have htotal := total (fun _ portion => portion) hholds
      omega
    · rw [dead (fun _ portion => portion) hholds]
      exact htickets
  | granted cur percent act grants total =>
    subst act
    have hsmall := hkept ⟨grants.positive, grants.admitted⟩
    have hpositive := grants.positive
    have hbefore := tickets_nonneg hinv.portions
    have hexact : i32 (k.strideTickets + percent) = k.strideTickets + percent := by
      apply i32_eq_self
      constructor <;> omega
    have hadmitted := grants.admitted
    rw [add_comm, hexact] at hadmitted
    rw [grants.strideTickets, hexact, total]
    constructor <;> omega

theorem ticketsConserved_step {k k' : Kernel} {a : Act} {out : Out} (hinv : k.TicketsConserved)
    (hallowed : k.TicketsAllowed a) (h : k.perform a = .ok (k', out)) : k'.TicketsConserved := by
  obtain ⟨⟨henabled, hshare⟩, hkept⟩ := hallowed
  have heffect := perform_effect henabled h
  have hmove := move_of_effect henabled hshare hinv.cells heffect
  have hbegin : ∀ p, a ≠ .exitBegin p := by
    rintro p rfl
    exact hkept
  obtain ⟨htickets, hlimit⟩ := conserved_of_move hmove hinv hkept
  exact ⟨notExiting_of_effect henabled hinv.notExiting hbegin heffect,
    cells_of_move hmove hinv.cells, htickets, hlimit, portions_of_move hmove hinv.portions⟩

theorem tickets_conserved (free : Nat) {finish : Kernel}
    (h : Reaches perform TicketsAllowed (boot free) finish) :
    finish.strideTickets = ∑ i ∈ finish.strideProcs, (finish.proc i).portion ∧
      0 ≤ finish.strideTickets ∧ finish.strideTickets ≤ 80 ∧
      ∀ p percent next, finish.setCpuShare p percent = .ok (next, -1) → next = finish := by
  have hinv : finish.TicketsConserved := h.invariant TicketsConserved (ticketsConserved_boot free)
    fun _ _ _ _ hk hallowed hstep => ticketsConserved_step hk hallowed hstep
  refine ⟨?_, ?_, hinv.limit, ?_⟩
  · rw [hinv.tickets]
    exact total_eq_sum _ hinv.notExiting
  · rw [hinv.tickets]
    exact tickets_nonneg hinv.portions
  · intro p percent next hcall
    obtain ⟨rfl, -⟩ | ⟨-, hret⟩ := setCpuShare_effect hcall
    · rfl
    · exact absurd hret (by decide)

theorem tickets_conserved_shared : ∃ k, Reaches perform TicketsAllowed (boot 100) k ∧
    k.strideTickets = 30 ∧ k.strideTickets = ∑ i ∈ k.strideProcs, (k.proc i).portion := by
  obtain ⟨k, hreach, htest⟩ := exists_reaches perform TicketsAllowed (boot 100)
    [.visit 0 0, .setCpuShare 0 30, .setCpuShare 0 60, .yield 0, .visit 0 0]
    (fun k => k.strideTickets = 30) (by decide +kernel)
  exact ⟨k, hreach, of_decide_eq_true htest, (tickets_conserved 100 hreach).1⟩

/-- A second accepted call overwrites the portion of the first. -/
theorem tickets_lost : ∃ k, Reaches perform Enabled (boot 100) k ∧
    k.strideTickets = 20 ∧ ∑ i ∈ k.strideProcs, (k.proc i).portion = 10 := by
  obtain ⟨k, hreach, htest⟩ := exists_reaches perform Enabled (boot 100)
    [.visit 0 0, .setCpuShare 0 10, .setCpuShare 0 10]
    (fun k => k.strideTickets = 20 ∧ ∑ i ∈ k.strideProcs, (k.proc i).portion = 10)
    (by decide +kernel)
  exact ⟨k, hreach, of_decide_eq_true htest⟩

end Xv6.Kernel

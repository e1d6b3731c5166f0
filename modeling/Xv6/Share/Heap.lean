import Xv6.Share.Move

/-! The stride heap over whole runs: its bounds, and its contents against the pass
values of the processes. -/
namespace Xv6.Kernel

open Word Fallible Transition

def ShareAllowed (k : Kernel) (a : Act) : Prop := k.Enabled a ∧ k.ShareKept a

instance (k : Kernel) (a : Act) : Decidable (k.ShareAllowed a) :=
  inferInstanceAs (Decidable (_ ∧ _))

structure HeapCounted (k : Kernel) : Prop where
  cells : ∀ i, k.heap.cells i ≠ -1
  count : k.heap.count = k.total fun _ _ => 1

theorem heapCounted_boot (free : Nat) : (boot free).HeapCounted where
  cells := by simp [boot, StrideHeap.empty]
  count := by rw [total_boot]; rfl

theorem count_of_move {k k' : Kernel} {a : Act} (h : Move k a k')
    (hcount : k.heap.count = k.total fun _ _ => 1) :
    k'.heap.count = k'.total fun _ _ => 1 := by
  cases h with
  | still heap _ total => rw [heap, total, hcount]
  | returned cur popped _ _ pop heap _ total =>
    have hpop := (StrideHeap.pop_ok pop).2.2.1
    have htotal := total fun _ _ => (1 : Int)
    rw [heap]
    omega
  | selected c p mgr popped pass _ _ pop _ push _ total dead =>
    have hpop := (StrideHeap.pop_ok pop).2.2.1
    have hpush := (StrideHeap.push_ok push).2.2.1
    by_cases hholds : (k.proc mgr).Holds
    · have htotal := total (fun _ _ => (1 : Int)) hholds
      omega
    · have htotal := dead (fun _ _ => (1 : Int)) hholds
      omega
  | granted cur percent _ grants total =>
    have hpush := (StrideHeap.push_ok grants.heap).2.2.1
    have htotal := total fun _ _ => (1 : Int)
    omega

theorem heapCounted_step {k k' : Kernel} {a : Act} {out : Out} (hinv : k.HeapCounted)
    (hallowed : k.ShareAllowed a) (h : k.perform a = .ok (k', out)) : k'.HeapCounted := by
  have hmove := move_of_effect hallowed.1 hallowed.2 hinv.cells (perform_effect hallowed.1 h)
  exact ⟨cells_of_move hmove hinv.cells, count_of_move hmove hinv.count⟩

theorem one_stake_le (p : Proc) : p.stake (fun _ _ => (1 : Int)) ≤ 1 := by
  unfold Proc.stake
  split <;> simp

theorem one_stake_nonneg (p : Proc) : 0 ≤ p.stake (fun _ _ => (1 : Int)) := by
  unfold Proc.stake
  split <;> simp

theorem total_one_nonneg (k : Kernel) : 0 ≤ k.total (fun _ _ => (1 : Int)) :=
  Finset.sum_nonneg fun i _ => one_stake_nonneg (k.proc i)

theorem total_one_le (k : Kernel) : k.total (fun _ _ => (1 : Int)) ≤ nproc := by
  have hsum := Finset.sum_le_card_nsmul Finset.univ
    (fun i => (k.proc i).stake fun _ _ => (1 : Int)) 1 fun i _ => one_stake_le (k.proc i)
  simpa [total] using hsum

theorem total_one_lt {k : Kernel} {cur : Slot} (h : ¬ (k.proc cur).Holds) :
    k.total (fun _ _ => (1 : Int)) < nproc := by
  have hsum := Finset.sum_le_card_nsmul (Finset.univ.erase cur)
    (fun i => (k.proc i).stake fun _ _ => (1 : Int)) 1 fun i _ => one_stake_le (k.proc i)
  rw [Finset.card_erase_of_mem (Finset.mem_univ cur), Finset.card_univ, Fintype.card_fin] at hsum
  unfold total
  rw [← Finset.add_sum_erase _ _ (Finset.mem_univ cur), Proc.stake_of_not_holds _ h]
  simp only [nsmul_eq_mul] at hsum
  norm_num at hsum ⊢
  omega

def HeapInBounds (k : Kernel) : Act → Prop
  | .visit c p => ∀ mgr, k.Chosen c p mgr → 0 < k.heap.count ∧ ∃ k', k.advancePass mgr = .ok k'
  | .exit p | .exitBegin p => 0 < (k.proc p).pid → (k.proc p).passValue ≠ -1 →
      0 < k.heap.count ∧ ∃ k', k.returnShare p = .ok k'
  | .setCpuShare p percent => ∃ answer, k.setCpuShare p percent = .ok answer
  | _ => True

theorem advancePass_total {k : Kernel} (mgr : Slot) (hlow : 0 < k.heap.count)
    (hhigh : k.heap.count ≤ nproc) : ∃ k', k.advancePass mgr = .ok k' := by
  obtain ⟨⟨x, heap⟩, hpop⟩ := StrideHeap.pop_total hlow.le hhigh
  have hcount := (StrideHeap.pop_ok hpop).2.2.1
  obtain ⟨heap', hpush⟩ := StrideHeap.push_total (show -1 ≤ heap.count by omega) (by omega)
    (i32 ((k.proc mgr).passValue + (k.proc mgr).stride))
  exact ⟨_, bind_eq_ok.mpr ⟨_, hpop, bind_eq_ok.mpr ⟨_, hpush, rfl⟩⟩⟩

theorem returnShare_total {k : Kernel} (cur : Slot) (hlow : 0 ≤ k.heap.count)
    (hhigh : k.heap.count ≤ nproc) : ∃ k', k.returnShare cur = .ok k' := by
  obtain ⟨popped, hpop⟩ := StrideHeap.pop_total hlow hhigh
  unfold returnShare
  split
  · rw [hpop]
    exact ⟨_, rfl⟩
  · exact ⟨_, rfl⟩

theorem setCpuShare_total {k : Kernel} (cur : Slot) (percent : Int)
    (hroom : k.Accepts percent → 0 ≤ k.heap.count ∧ k.heap.count < nproc) :
    ∃ answer, k.setCpuShare cur percent = .ok answer := by
  unfold setCpuShare
  split
  · exact ⟨_, rfl⟩
  · rename_i hpositive
    split
    · rename_i hadmitted
      obtain ⟨hlow, hhigh⟩ := hroom ⟨by omega, hadmitted⟩
      obtain ⟨heap, hpush⟩ := StrideHeap.push_total (by omega) hhigh
        (if k.heap.count = 0 then 0 else k.heap.cells 1)
      exact ⟨_, bind_eq_ok.mpr ⟨_, hpush, rfl⟩⟩
    · exact ⟨_, rfl⟩

theorem heapInBounds_of_counted {k : Kernel} {a : Act} (hinv : k.HeapCounted)
    (hallowed : k.ShareAllowed a) : k.HeapInBounds a := by
  have hlow := total_one_nonneg k
  have hhigh := total_one_le k
  rw [← hinv.count] at hlow hhigh
  have hexit : ∀ p, k.At p .user → 0 < (k.proc p).pid → (k.proc p).passValue ≠ -1 →
      0 < k.heap.count ∧ ∃ k', k.returnShare p = .ok k' := by
    intro p hat _ hpass
    have hholds : (k.proc p).Holds := ⟨hat.live, hpass, by simp [hat.2]⟩
    have hstake := stake_le_total (k := k) (fun i => one_stake_nonneg (k.proc i)) p
    rw [Proc.stake_of_holds _ hholds, ← hinv.count] at hstake
    exact ⟨by omega, returnShare_total p hlow hhigh⟩
  cases a with
  | visit c p =>
    intro mgr hchosen
    exact ⟨hchosen.nonempty, advancePass_total mgr hchosen.nonempty hhigh⟩
  | exit p => exact hexit p hallowed.1
  | exitBegin p => exact hexit p hallowed.1
  | setCpuShare p percent =>
    apply setCpuShare_total
    intro haccepts
    have hroom := total_one_lt (Proc.not_holds_of_pass (hallowed.2 haccepts))
    rw [← hinv.count] at hroom
    exact ⟨hlow, hroom⟩
  | _ => trivial

theorem heap_count_in_bounds (free : Nat) {finish : Kernel}
    (h : Reaches perform ShareAllowed (boot free) finish) :
    0 ≤ finish.heap.count ∧ finish.heap.count ≤ nproc ∧
      ∀ a, finish.ShareAllowed a → finish.HeapInBounds a := by
  have hinv : finish.HeapCounted := h.invariant HeapCounted (heapCounted_boot free)
    fun _ _ _ _ hk hallowed hstep => heapCounted_step hk hallowed hstep
  refine ⟨?_, ?_, fun a hallowed => heapInBounds_of_counted hinv hallowed⟩
  · rw [hinv.count]
    exact total_one_nonneg finish
  · rw [hinv.count]
    exact total_one_le finish

theorem heap_count_in_bounds_shared : ∃ k, Reaches perform ShareAllowed (boot 100) k ∧
    k.heap.count = 1 ∧ k.heap.count ≤ nproc := by
  obtain ⟨k, hreach, htest⟩ := exists_reaches perform ShareAllowed (boot 100)
    [.visit 0 0, .setCpuShare 0 10, .yield 0, .visit 0 0] (fun k => k.heap.count = 1)
    (by decide +kernel)
  exact ⟨k, hreach, of_decide_eq_true htest, (heap_count_in_bounds 100 hreach).2.1⟩

/-- One process that asks for one percent again and again. -/
theorem heap_overflows : ∃ k, Reaches perform Enabled (boot 100) k ∧
    k.Enabled (.setCpuShare 0 1) ∧ k.perform (.setCpuShare 0 1) = .error .heapBounds := by
  obtain ⟨k, hreach, htest⟩ := exists_reaches perform Enabled (boot 100)
    (.visit 0 0 :: List.replicate 64 (.setCpuShare 0 1))
    (fun k => k.Enabled (.setCpuShare 0 1) ∧
      faultOf perform k (.setCpuShare 0 1) = some .heapBounds) (by decide +kernel)
  obtain ⟨henabled, hfault⟩ := of_decide_eq_true htest
  exact ⟨k, hreach, henabled, faultOf_eq_some hfault⟩

def HeapKept (k : Kernel) : Act → Prop
  | .visit c p => ∀ mgr, k.Chosen c p mgr → (k.proc mgr).Live
  | .exit p => (k.proc p).passValue ≠ -1 → (k.proc p).passValue = k.heap.cells 1
  | .exitBegin _ | .exitEnd _ => False
  | _ => True

instance (k : Kernel) : (a : Act) → Decidable (k.HeapKept a)
  | .visit .. => inferInstanceAs (Decidable (∀ _, _))
  | .exit _ => inferInstanceAs (Decidable (_ → _))
  | .exitBegin _ | .exitEnd _ => inferInstanceAs (Decidable False)
  | .yield _ | .sleepOn .. | .wakeup _ | .charge .. | .kill .. | .fork _ | .exec .. | .sbrk ..
  | .wait _ | .resumeWait _ | .threadCreate .. | .threadExit .. | .threadJoin .. | .resumeJoin _
  | .setCpuShare .. => inferInstanceAs (Decidable True)

def ContentsAllowed (k : Kernel) (a : Act) : Prop := k.ShareAllowed a ∧ k.HeapKept a

instance (k : Kernel) (a : Act) : Decidable (k.ContentsAllowed a) :=
  inferInstanceAs (Decidable (_ ∧ _))

/-- The heap holds the pass values of the holders. The tickets are the sum of their
portions in 32-bit arithmetic. -/
structure HeapMatches (k : Kernel) : Prop where
  notExiting : k.NotExiting
  cells : ∀ i, k.heap.cells i ≠ -1
  count : 0 ≤ k.heap.count
  contents : k.heap.contents = k.total fun pass _ => ({pass} : Multiset Int)
  tickets : k.strideTickets = i32 (k.total fun _ portion => portion)

theorem heapMatches_boot (free : Nat) : (boot free).HeapMatches where
  notExiting := notExiting_boot free
  cells := by simp [boot, StrideHeap.empty]
  count := le_rfl
  contents := by rw [total_boot]; rfl
  tickets := by rw [total_boot]; rfl

theorem count_pos_of_mem {heap : StrideHeap} {x : Int} (h : x ∈ heap.contents) :
    0 < heap.count := by
  by_contra hcount
  have hzero : heap.count.toNat = 0 := by omega
  unfold StrideHeap.contents at h
  rw [hzero] at h
  cases h

theorem contents_of_move {k k' : Kernel} {a : Act} (h : Move k a k') (hinv : k.HeapMatches)
    (hkept : k.HeapKept a) :
    0 ≤ k'.heap.count ∧
      k'.heap.contents = k'.total fun pass _ => ({pass} : Multiset Int) := by
  cases h with
  | still heap _ total =>
    rw [heap, total]
    exact ⟨hinv.count, hinv.contents⟩
  | returned cur popped act holds pop heap _ total =>
    have hpass : (k.proc cur).passValue = k.heap.cells 1 := by
      rcases act with rfl | rfl
      · exact hkept holds.2.1
      · exact hkept.elim
    have htotal := total fun pass _ => ({pass} : Multiset Int)
    have hpositive : 0 < k.heap.count := by
      apply count_pos_of_mem (x := (k.proc cur).passValue)
      rw [hinv.contents, ← htotal]
      simp
    have hcontents := StrideHeap.contents_pop pop hpositive
    rw [hinv.contents, ← htotal, hpass, ← Multiset.singleton_add, add_comm] at hcontents
    rw [heap]
    refine ⟨?_, (add_left_cancel hcontents).symm⟩
    have := (StrideHeap.pop_ok pop).2.2.1
    omega
  | selected c p mgr popped pass act chosen pop valid push _ total _ =>
    subst act
    have hlive := hkept mgr chosen
    have hholds : (k.proc mgr).Holds := by
      refine ⟨hlive, ?_, hinv.notExiting mgr hlive⟩
      rw [chosen.minimum]
      exact hinv.cells 1
    have hcount := (StrideHeap.pop_ok pop).2.2.1
    have hnonempty := chosen.nonempty
    have htotal := total (fun pass _ => ({pass} : Multiset Int)) hholds
    have hpopped := StrideHeap.contents_pop pop chosen.nonempty
    have hpushed := StrideHeap.contents_push push (by omega)
    refine ⟨by have := (StrideHeap.push_ok push).2.2.1; omega, ?_⟩
    -- both sides become the popped heap with the advanced value
    rw [← hinv.contents, hpopped, chosen.minimum, ← Multiset.singleton_add, add_assoc,
      add_comm] at htotal
    rw [add_left_cancel htotal, hpushed, ← Multiset.singleton_add, add_comm]
  | granted cur percent _ grants total =>
    have hroot := StrideHeap.push_root grants.heap hinv.count
    have hpushed := StrideHeap.contents_push grants.heap hinv.count
    refine ⟨?_, ?_⟩
    · have hpush := (StrideHeap.push_ok grants.heap).2.2.1
      have hcount := hinv.count
      omega
    · rw [total, hpushed, ← hroot, hinv.contents, ← Multiset.singleton_add, add_comm]

theorem tickets_of_move {k k' : Kernel} {a : Act} (h : Move k a k')
    (htickets : k.strideTickets = i32 (k.total fun _ portion => portion)) :
    k'.strideTickets = i32 (k'.total fun _ portion => portion) := by
  cases h with
  | still _ strideTickets total => rw [strideTickets, total, htickets]
  | returned cur popped _ _ _ _ strideTickets total =>
    have htotal := total fun _ portion => portion
    rw [strideTickets, htickets, i32_sub_i32, ← htotal, add_sub_cancel_right]
  | selected c p mgr popped pass _ _ _ _ _ strideTickets total dead =>
    rw [strideTickets, htickets]
    by_cases hholds : (k.proc mgr).Holds
    · rw [add_right_cancel (total (fun _ portion => portion) hholds)]
    · rw [dead (fun _ portion => portion) hholds]
  | granted cur percent _ grants total =>
    rw [grants.strideTickets, htickets, i32_add_i32, total]

theorem heapMatches_step {k k' : Kernel} {a : Act} {out : Out} (hinv : k.HeapMatches)
    (hallowed : k.ContentsAllowed a) (h : k.perform a = .ok (k', out)) : k'.HeapMatches := by
  obtain ⟨⟨henabled, hshare⟩, hkept⟩ := hallowed
  have heffect := perform_effect henabled h
  have hmove := move_of_effect henabled hshare hinv.cells heffect
  have hbegin : ∀ p, a ≠ .exitBegin p := by
    rintro p rfl
    exact hkept
  obtain ⟨hcount, hcontents⟩ := contents_of_move hmove hinv hkept
  exact ⟨notExiting_of_effect henabled hinv.notExiting hbegin heffect,
    cells_of_move hmove hinv.cells, hcount, hcontents, tickets_of_move hmove hinv.tickets⟩

def strideProcs (k : Kernel) : Finset Slot :=
  Finset.univ.filter fun i => (k.proc i).Live ∧ (k.proc i).passValue ≠ -1

theorem mem_strideProcs {k : Kernel} {i : Slot} :
    i ∈ k.strideProcs ↔ (k.proc i).Live ∧ (k.proc i).passValue ≠ -1 := by
  simp [strideProcs]

theorem HeapMatches.contents_eq {k : Kernel} (h : k.HeapMatches) :
    k.heap.contents = k.strideProcs.val.map fun i => (k.proc i).passValue := by
  rw [h.contents, total_eq_sum _ h.notExiting, ← Multiset.sum_map_singleton
    (k.strideProcs.val.map fun i => (k.proc i).passValue), Multiset.map_map]
  rfl

theorem heap_contents_match (free : Nat) {finish : Kernel}
    (h : Reaches perform ContentsAllowed (boot free) finish) :
    finish.heap.contents = finish.strideProcs.val.map (fun i => (finish.proc i).passValue) ∧
      (0 < finish.heap.count →
        ∃ i ∈ finish.strideProcs, (finish.proc i).passValue = finish.heap.cells 1) ∧
      (0 < finish.strideTickets → 0 < finish.heap.count) := by
  have hinv : finish.HeapMatches := h.invariant HeapMatches (heapMatches_boot free)
    fun _ _ _ _ hk hallowed hstep => heapMatches_step hk hallowed hstep
  refine ⟨hinv.contents_eq, fun hcount => ?_, fun htickets => ?_⟩
  · have hroot := StrideHeap.root_mem hcount
    rw [hinv.contents_eq] at hroot
    obtain ⟨i, hi, hpass⟩ := Multiset.mem_map.mp hroot
    exact ⟨i, hi, hpass⟩
  · by_contra hcount
    have hempty : finish.strideProcs = ∅ := by
      have hzero : finish.heap.count.toNat = 0 := by omega
      have hcard := congrArg Multiset.card hinv.contents_eq
      rw [StrideHeap.contents, hzero] at hcard
      simpa using hcard.symm
    have hsum := hinv.tickets
    rw [total_eq_sum _ hinv.notExiting] at hsum
    change _ = i32 (∑ i ∈ finish.strideProcs, (finish.proc i).portion) at hsum
    rw [hempty, Finset.sum_empty] at hsum
    rw [hsum] at htickets
    exact absurd htickets (by decide)

theorem heap_contents_match_selected : ∃ k, Reaches perform ContentsAllowed (boot 100) k ∧
    k.heap.cells 1 = 33 ∧ ∃ i ∈ k.strideProcs, (k.proc i).passValue = k.heap.cells 1 := by
  obtain ⟨k, hreach, htest⟩ := exists_reaches perform ContentsAllowed (boot 100)
    [.visit 0 0, .setCpuShare 0 30, .yield 0, .visit 0 0]
    (fun k => k.heap.cells 1 = 33 ∧ 0 < k.strideTickets) (by decide +kernel)
  obtain ⟨hroot, htickets⟩ := of_decide_eq_true htest
  obtain ⟨-, hmatch, hnonempty⟩ := heap_contents_match 100 hreach
  exact ⟨k, hreach, hroot, hmatch (hnonempty htickets)⟩

/-- A second accepted call pushes a second value for one process. -/
theorem heap_contents_differ : ∃ k, Reaches perform Enabled (boot 100) k ∧
    k.heap.contents ≠ k.strideProcs.val.map fun i => (k.proc i).passValue := by
  obtain ⟨k, hreach, htest⟩ := exists_reaches perform Enabled (boot 100)
    [.visit 0 0, .setCpuShare 0 10, .setCpuShare 0 10]
    (fun k => k.heap.count = 2 ∧ k.strideProcs.card = 1) (by decide +kernel)
  obtain ⟨hcount, hcard⟩ := of_decide_eq_true htest
  refine ⟨k, hreach, fun heq => ?_⟩
  have hcards := congrArg Multiset.card heq
  rw [StrideHeap.contents, hcount, ArrayHeap.card_contents, Multiset.card_map, Finset.card_val,
    hcard] at hcards
  exact absurd hcards (by decide)

end Xv6.Kernel

import Xv6.Param
import Xv6.Lib.ArrayHeap

/-! The stride heap of `proc.c`: `int heap[NPROC + 1]` and `heap_count`. Index 0 is
never used on purpose, but `pop` reads and writes it when the heap is empty. -/
namespace Xv6

open ArrayHeap

structure StrideHeap where
  cells : Nat → Int
  count : Int

def StrideHeap.empty : StrideHeap := ⟨fun _ => 0, 0⟩

def StrideHeap.contents (heap : StrideHeap) : Multiset Int :=
  ArrayHeap.contents heap.cells heap.count.toNat

def StrideHeap.push (heap : StrideHeap) (x : Int) : Except Fault StrideHeap :=
  if heap.count < -1 ∨ nproc ≤ heap.count then .error .heapBounds
  else
    let child := (heap.count + 1).toNat
    .ok ⟨siftUp (Function.update heap.cells child x) child child, heap.count + 1⟩

def StrideHeap.pop (heap : StrideHeap) : Except Fault (Int × StrideHeap) :=
  if heap.count < 0 ∨ nproc < heap.count then .error .heapBounds
  else
    let last := heap.count.toNat
    let cells := ArrayHeap.swap heap.cells 1 last
    .ok (heap.cells 1, ⟨siftDown cells (last - 1) 1 last, heap.count - 1⟩)

def StrideHeap.pushTouches (heap : StrideHeap) (x : Int) : Option (List Nat) :=
  let child := (heap.count + 1).toNat
  (upTouches (Function.update heap.cells child x) child child).map (child :: ·)

def StrideHeap.popTouches (heap : StrideHeap) : Option (List Nat) :=
  let last := heap.count.toNat
  (downTouches (ArrayHeap.swap heap.cells 1 last) (last - 1) 1 last).map ([1, last] ++ ·)

namespace StrideHeap

def Ordered (heap : StrideHeap) : Prop := ArrayHeap.Ordered heap.cells heap.count.toNat

theorem push_ok {heap heap' : StrideHeap} {x : Int} (h : heap.push x = .ok heap') :
    -1 ≤ heap.count ∧ heap.count < nproc ∧ heap'.count = heap.count + 1 ∧
      heap'.cells = siftUp (Function.update heap.cells (heap.count + 1).toNat x)
        (heap.count + 1).toNat (heap.count + 1).toNat := by
  unfold push at h
  split at h
  · cases h
  · rename_i hbounds
    cases Except.ok.inj h
    exact ⟨by omega, by omega, rfl, rfl⟩

theorem pop_ok {heap heap' : StrideHeap} {x : Int} (h : heap.pop = .ok (x, heap')) :
    0 ≤ heap.count ∧ heap.count ≤ nproc ∧ heap'.count = heap.count - 1 ∧ x = heap.cells 1 ∧
      heap'.cells = siftDown (ArrayHeap.swap heap.cells 1 heap.count.toNat)
        (heap.count.toNat - 1) 1 heap.count.toNat := by
  unfold pop at h
  split at h
  · cases h
  · rename_i hbounds
    cases Except.ok.inj h
    exact ⟨by omega, by omega, rfl, rfl, rfl⟩

theorem push_total {heap : StrideHeap} (hlow : -1 ≤ heap.count) (hhigh : heap.count < nproc)
    (x : Int) : ∃ heap', heap.push x = .ok heap' := by
  unfold push
  rw [if_neg (by omega)]
  exact ⟨_, rfl⟩

theorem pop_total {heap : StrideHeap} (hlow : 0 ≤ heap.count) (hhigh : heap.count ≤ nproc) :
    ∃ popped, heap.pop = .ok popped := by
  unfold pop
  rw [if_neg (by omega)]
  exact ⟨_, rfl⟩

/-- `push` changes no cell but those it is said to touch, and looks at no other. -/
theorem push_touches {heap heap' other other' : StrideHeap} {x : Int} {touched : List Nat}
    (h : heap.push x = .ok heap') (htouched : heap.pushTouches x = some touched)
    (hother : other.push x = .ok other') (hcount : other.count = heap.count)
    (hsame : ∀ i ∈ touched, other.cells i = heap.cells i) (i : Nat) :
    other'.cells i = if i ∈ touched then heap'.cells i else other.cells i := by
  obtain ⟨-, -, -, hcells⟩ := push_ok h
  obtain ⟨-, -, -, hcells'⟩ := push_ok hother
  rw [hcount] at hcells'
  obtain ⟨rest, hrest, rfl⟩ := Option.map_eq_some_iff.mp htouched
  have hstore : Local (Function.update · (heap.count + 1).toNat x) heap.cells
      [(heap.count + 1).toNat] := by
    intro b _ i
    simp only [Function.update_apply, List.mem_singleton]
    split <;> rfl
  rw [hcells, hcells']
  exact hstore.comp (siftUp_local hrest) other.cells hsame i

theorem pop_touches {heap heap' other other' : StrideHeap} {x y : Int} {touched : List Nat}
    (h : heap.pop = .ok (x, heap')) (htouched : heap.popTouches = some touched)
    (hother : other.pop = .ok (y, other')) (hcount : other.count = heap.count)
    (hsame : ∀ i ∈ touched, other.cells i = heap.cells i) :
    y = x ∧ ∀ i, other'.cells i = if i ∈ touched then heap'.cells i else other.cells i := by
  obtain ⟨-, -, -, hx, hcells⟩ := pop_ok h
  obtain ⟨-, -, -, hy, hcells'⟩ := pop_ok hother
  rw [hcount] at hcells'
  obtain ⟨rest, hrest, rfl⟩ := Option.map_eq_some_iff.mp htouched
  refine ⟨by rw [hx, hy, hsame 1 (by simp)], fun i => ?_⟩
  rw [hcells, hcells']
  exact (local_swap heap.cells 1 heap.count.toNat).comp (siftDown_local hrest) other.cells hsame i

theorem contents_push {heap heap' : StrideHeap} {x : Int} (h : heap.push x = .ok heap')
    (hcount : 0 ≤ heap.count) : heap'.contents = x ::ₘ heap.contents := by
  obtain ⟨-, -, hcount', hcells⟩ := push_ok h
  have hnext : (heap.count + 1).toNat = heap.count.toNat + 1 := by omega
  unfold contents
  rw [hcount', hcells, hnext, contents_siftUp _ _ (by omega) le_rfl, contents_succ,
    Function.update_self]
  congr 1
  apply contents_congr
  intro i _ hi
  rw [Function.update_of_ne (by omega)]

theorem contents_pop {heap heap' : StrideHeap} {x : Int} (h : heap.pop = .ok (x, heap'))
    (hcount : 0 < heap.count) : heap.contents = heap.cells 1 ::ₘ heap'.contents := by
  obtain ⟨-, -, hcount', -, hcells⟩ := pop_ok h
  obtain ⟨n, hn⟩ : ∃ n, heap.count.toNat = n + 1 := ⟨heap.count.toNat - 1, by omega⟩
  have hn' : (heap.count - 1).toNat = n := by omega
  unfold contents
  rw [hcount', hcells, hn, hn', Nat.add_sub_cancel,
    ← contents_swap heap.cells (i := 1) (j := n + 1) (by omega) (by omega), contents_succ,
    swap_right]
  congr 1
  cases n with
  | zero => simp
  | succ n => rw [contents_siftDown _ _ le_rfl (by omega)]

theorem ordered_push {heap heap' : StrideHeap} {x : Int} (h : heap.push x = .ok heap')
    (hordered : heap.Ordered) : heap'.Ordered := by
  obtain ⟨hlow, -, hcount', hcells⟩ := push_ok h
  unfold Ordered
  rw [hcount', hcells]
  by_cases hneg : heap.count = -1
  · intro i hi hhigh
    omega
  · have hnext : (heap.count + 1).toNat = heap.count.toNat + 1 := by omega
    rw [hnext]
    apply ordered_siftUp _ (by omega) le_rfl le_rfl
    constructor
    · intro i hi hhigh hne
      rw [Function.update_of_ne hne, Function.update_of_ne (by omega)]
      exact hordered i hi (by omega)
    · intro i _ hhigh hhalf
      omega

theorem ordered_pop {heap heap' : StrideHeap} {x : Int} (h : heap.pop = .ok (x, heap'))
    (hordered : heap.Ordered) : heap'.Ordered := by
  obtain ⟨hlow, -, hcount', -, hcells⟩ := pop_ok h
  unfold Ordered
  have hless : (heap.count - 1).toNat = heap.count.toNat - 1 := by omega
  rw [hcount', hcells, hless]
  apply ordered_siftDown _ le_rfl (by omega)
  constructor
  · intro i hi hhigh haway
    rw [swap_other _ (by omega) (by omega), swap_other _ (by omega) (by omega)]
    exact hordered i hi (by omega)
  · intro i hroot
    omega

theorem all_push {P : Int → Prop} {heap heap' : StrideHeap} {x : Int}
    (h : heap.push x = .ok heap') (hall : ∀ i, P (heap.cells i)) (hx : P x) :
    ∀ i, P (heap'.cells i) := by
  rw [(push_ok h).2.2.2]
  apply all_siftUp
  intro i
  rw [Function.update_apply]
  split
  · exact hx
  · exact hall i

theorem all_pop {P : Int → Prop} {heap heap' : StrideHeap} {x : Int}
    (h : heap.pop = .ok (x, heap')) (hall : ∀ i, P (heap.cells i)) : ∀ i, P (heap'.cells i) := by
  rw [(pop_ok h).2.2.2.2]
  exact all_siftDown (all_swap hall _ _) _ _ _

theorem push_root {heap heap' : StrideHeap}
    (h : heap.push (if heap.count = 0 then 0 else heap.cells 1) = .ok heap')
    (hcount : 0 ≤ heap.count) : heap'.cells 1 = if heap.count = 0 then 0 else heap.cells 1 := by
  rw [(push_ok h).2.2.2]
  by_cases hzero : heap.count = 0
  · simp [hzero, siftUp]
  · have hchild : 1 < (heap.count + 1).toNat := by omega
    rw [if_neg hzero, siftUp_root _ _ _ hchild, Function.update_of_ne (by omega)]
    rw [Function.update_self, Function.update_of_ne (by omega)]
    exact lt_irrefl _

theorem root_mem {heap : StrideHeap} (hcount : 0 < heap.count) :
    heap.cells 1 ∈ heap.contents :=
  mem_contents le_rfl (by omega)

theorem Ordered.minimum {heap : StrideHeap} (h : heap.Ordered) :
    ∀ x ∈ heap.contents, heap.cells 1 ≤ x := by
  intro x hx
  unfold contents ArrayHeap.contents at hx
  obtain ⟨i, hi, rfl⟩ := Multiset.mem_map.mp hx
  obtain ⟨hlow, hhigh⟩ := Finset.mem_Icc.mp (Finset.mem_val.mp hi)
  exact h.root_le i hlow hhigh

theorem pushTouches_some {heap : StrideHeap} (hcount : 0 ≤ heap.count) (x : Int) :
    ∃ touched, heap.pushTouches x = some touched ∧
      ∀ i ∈ touched, 1 ≤ i ∧ (i : Int) ≤ heap.count + 1 := by
  have hchild : 1 ≤ (heap.count + 1).toNat := by omega
  obtain ⟨touched, hloop, hbounds⟩ :=
    upTouches_some (Function.update heap.cells (heap.count + 1).toNat x) hchild le_rfl
  refine ⟨(heap.count + 1).toNat :: touched, ?_, fun i hi => ?_⟩
  · unfold pushTouches
    dsimp only
    rw [hloop]
    rfl
  · rcases List.mem_cons.mp hi with rfl | hi
    · omega
    · have := hbounds i hi
      omega

theorem popTouches_some {heap : StrideHeap} (hcount : 1 ≤ heap.count) :
    ∃ touched, heap.popTouches = some ([1, heap.count.toNat] ++ touched) ∧
      ∀ i ∈ touched, 1 ≤ i ∧ (i : Int) ≤ heap.count - 1 := by
  have hlast : 0 < heap.count.toNat := by omega
  obtain ⟨touched, hloop, hbounds⟩ :=
    downTouches_some (ArrayHeap.swap heap.cells 1 heap.count.toNat) le_rfl hlast
      (show heap.count.toNat - 1 + 1 ≤ 1 + heap.count.toNat by omega)
  refine ⟨touched, ?_, fun i hi => ?_⟩
  · unfold popTouches
    dsimp only
    rw [hloop]
    rfl
  · have := hbounds i hi
    omega

/-- An ordered heap is a priority queue. -/
theorem priority_queue (heap : StrideHeap) (hordered : heap.Ordered) (hlow : 0 ≤ heap.count)
    (hhigh : heap.count ≤ nproc) :
    (∀ x, heap.count < nproc → ∃ heap' touched, heap.push x = .ok heap' ∧
      heap'.count = heap.count + 1 ∧ heap'.Ordered ∧ heap'.contents = x ::ₘ heap.contents ∧
      heap.pushTouches x = some touched ∧ ∀ i ∈ touched, 1 ≤ i ∧ (i : Int) ≤ heap'.count) ∧
    (1 ≤ heap.count → ∃ x heap' touched, heap.pop = .ok (x, heap') ∧
      heap'.count = heap.count - 1 ∧ x ∈ heap.contents ∧ (∀ y ∈ heap.contents, x ≤ y) ∧
      heap'.Ordered ∧ heap'.contents = heap.contents.erase x ∧
      heap.popTouches = some ([1, heap.count.toNat] ++ touched) ∧
      ∀ i ∈ touched, 1 ≤ i ∧ (i : Int) ≤ heap'.count) := by
  constructor
  · intro x hroom
    obtain ⟨heap', hpush⟩ := push_total (by omega) hroom x
    obtain ⟨touched, htouches, hbounds⟩ := pushTouches_some hlow x
    have hcount := (push_ok hpush).2.2.1
    refine ⟨heap', touched, hpush, hcount, ordered_push hpush hordered,
      contents_push hpush hlow, htouches, ?_⟩
    rw [hcount]
    exact hbounds
  · intro hsome
    obtain ⟨⟨x, heap'⟩, hpop⟩ := pop_total hlow hhigh
    obtain ⟨touched, htouches, hbounds⟩ := popTouches_some hsome
    obtain ⟨-, -, hcount, rfl, -⟩ := pop_ok hpop
    refine ⟨heap.cells 1, heap', touched, hpop, hcount, root_mem (by omega), hordered.minimum,
      ordered_pop hpop hordered, ?_, htouches, ?_⟩
    · rw [contents_pop hpop (by omega), Multiset.erase_cons_head]
    · rw [hcount]
      exact hbounds

/-- Three equal entries. -/
theorem priority_queue_equal : ∃ heap' touched, StrideHeap.pop ⟨fun _ => 7, 3⟩ = .ok (7, heap') ∧
    heap'.contents = StrideHeap.contents ⟨fun _ => 7, 3⟩ - {7} ∧
    StrideHeap.popTouches ⟨fun _ => 7, 3⟩ = some ([1, 3] ++ touched) := by
  obtain ⟨x, heap', touched, hpop, -, -, -, -, hcontents, htouches, -⟩ :=
    (priority_queue ⟨fun _ => 7, 3⟩ (fun _ _ _ => le_rfl) (by decide) (by decide)).2 (by decide)
  obtain ⟨-, -, -, rfl, -⟩ := pop_ok hpop
  exact ⟨heap', touched, hpop, by rw [hcontents, Multiset.sub_singleton], htouches⟩

end StrideHeap

end Xv6

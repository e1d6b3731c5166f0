import Mathlib.Algebra.Order.BigOperators.Group.Finset
import Mathlib.Algebra.BigOperators.Ring.Finset
import Xv6.Lib.Threads

/-! Sums over all threads. A step of one thread changes the sum by the difference that it
makes itself. -/
namespace Threads

variable {T Pc : Type} [Fintype T]

def total (pc : T → Pc) (weight : Pc → Nat) : Nat := ∑ t, weight (pc t)

theorem total_congr {pc pc' : T → Pc} {weight : Pc → Nat}
    (h : ∀ t, weight (pc' t) = weight (pc t)) : total pc' weight = total pc weight :=
  Finset.sum_congr rfl fun t _ => h t

theorem total_le {pc : T → Pc} {weight : Pc → Nat} {region : Pc → Bool} {k : Nat}
    (h : ∀ t, weight (pc t) ≤ k * (region (pc t)).toNat) :
    total pc weight ≤ k * count pc region := by
  have hcount : count pc region = ∑ t, (region (pc t)).toNat := by
    rw [count, Finset.card_filter]
    apply Finset.sum_congr rfl
    intro t _
    cases region (pc t) <;> rfl
  rw [hcount, Finset.mul_sum]
  exact Finset.sum_le_sum fun t _ => h t

variable [DecidableEq T]

theorem total_update (pc : T → Pc) (t : T) (a : Pc) (weight : Pc → Nat) :
    total (Function.update pc t a) weight + weight (pc t) = total pc weight + weight a := by
  have hsplit : ∀ f : T → Pc, total f weight =
      weight (f t) + ∑ u ∈ Finset.univ.erase t, weight (f u) :=
    fun f => (Finset.add_sum_erase Finset.univ (fun u => weight (f u)) (Finset.mem_univ t)).symm
  have hrest : ∑ u ∈ Finset.univ.erase t, weight (Function.update pc t a u) =
      ∑ u ∈ Finset.univ.erase t, weight (pc u) := by
    apply Finset.sum_congr rfl
    intro u hu
    rw [Function.update_of_ne (Finset.ne_of_mem_erase hu)]
  rw [hsplit, hsplit pc, hrest, Function.update_self]
  omega

end Threads

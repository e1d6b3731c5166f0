import Mathlib.Data.Finset.Card
import Mathlib.Data.Fintype.Basic

/-! Counting threads by their program counter. A step of one thread changes the count of
the threads in a region of the program by whether it enters or leaves the region. -/
namespace Threads

variable {T Pc : Type} [Fintype T]

def count (pc : T → Pc) (region : Pc → Bool) : Nat :=
  (Finset.univ.filter fun t => region (pc t) = true).card

theorem count_pos {pc : T → Pc} {region : Pc → Bool} {t : T} (h : region (pc t) = true) :
    0 < count pc region :=
  Finset.card_pos.mpr ⟨t, Finset.mem_filter.mpr ⟨Finset.mem_univ _, h⟩⟩

theorem exists_of_count_pos {pc : T → Pc} {region : Pc → Bool} (h : 0 < count pc region) :
    ∃ t, region (pc t) = true := by
  obtain ⟨t, ht⟩ := Finset.card_pos.mp h
  exact ⟨t, (Finset.mem_filter.mp ht).2⟩

theorem count_eq_zero {pc : T → Pc} {region : Pc → Bool} (h : ∀ t, region (pc t) = false) :
    count pc region = 0 := by
  rw [count, Finset.card_eq_zero, Finset.filter_eq_empty_iff]
  intro t _
  rw [h t]
  exact Bool.false_ne_true

theorem eq_of_count_le_one {pc : T → Pc} {region : Pc → Bool} (h : count pc region ≤ 1)
    {t u : T} (ht : region (pc t) = true) (hu : region (pc u) = true) : t = u :=
  Finset.card_le_one.mp h t (Finset.mem_filter.mpr ⟨Finset.mem_univ _, ht⟩) u
    (Finset.mem_filter.mpr ⟨Finset.mem_univ _, hu⟩)

theorem count_congr {pc pc' : T → Pc} {region : Pc → Bool}
    (h : ∀ t, region (pc' t) = region (pc t)) : count pc' region = count pc region := by
  unfold count
  congr 1
  apply Finset.filter_congr
  intro t _
  rw [h]

variable [DecidableEq T]

theorem count_update (pc : T → Pc) (t : T) (a : Pc) (region : Pc → Bool) :
    count (Function.update pc t a) region + (region (pc t)).toNat =
      count pc region + (region a).toNat := by
  have hsplit : ∀ f : T → Pc, count f region =
      ((Finset.univ.erase t).filter fun u => region (f u) = true).card + (region (f t)).toNat := by
    intro f
    rw [count, ← Finset.insert_erase (Finset.mem_univ t), Finset.filter_insert]
    cases hregion : region (f t) with
    | false => simp
    | true =>
      rw [if_pos rfl, Finset.card_insert_of_notMem, Finset.erase_insert (Finset.notMem_erase _ _)]
      · rfl
      · simp
  have hrest : ((Finset.univ.erase t).filter
        fun u => region (Function.update pc t a u) = true) =
      (Finset.univ.erase t).filter fun u => region (pc u) = true := by
    apply Finset.filter_congr
    intro u hu
    rw [Function.update_of_ne (Finset.ne_of_mem_erase hu)]
  rw [hsplit, hsplit pc, hrest, Function.update_self]
  omega

end Threads

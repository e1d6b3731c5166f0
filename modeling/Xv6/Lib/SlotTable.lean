import Mathlib.Data.List.Range
import Mathlib.Logic.Function.Basic

/-! Maps kept in a table of slots. A slot is empty or holds a key with its value, and new keys go
to empty slots. -/
def SlotTable (K V : Type) := Nat → Option (K × V)

namespace SlotTable

variable {K V : Type} {t : SlotTable K V} {i : Nat} {k : K} {v : V}

def Unique (t : SlotTable K V) : Prop :=
  ∀ i j k v w, t i = some (k, v) → t j = some (k, w) → i = j

def Holds (t : SlotTable K V) (k : K) : Prop := ∃ i v, t i = some (k, v)

def enter (t : SlotTable K V) (i : Nat) (k : K) (v : V) : SlotTable K V :=
  Function.update t i (some (k, v))

def clear (t : SlotTable K V) (i : Nat) : SlotTable K V := Function.update t i none

theorem enter_apply (t : SlotTable K V) (i j : Nat) (k : K) (v : V) :
    t.enter i k v j = if j = i then some (k, v) else t j :=
  Function.update_apply ..

theorem clear_apply (t : SlotTable K V) (i j : Nat) :
    t.clear i j = if j = i then none else t j :=
  Function.update_apply ..

theorem Unique.enter (h : t.Unique) (hnew : ¬ t.Holds k) : (t.enter i k v).Unique := by
  intro a b key x y ha hb
  rw [enter_apply] at ha hb
  split at ha <;> split at hb
  · omega
  · cases ha
    exact absurd ⟨b, y, hb⟩ hnew
  · cases hb
    exact absurd ⟨a, x, ha⟩ hnew
  · exact h a b key x y ha hb

theorem Unique.clear (h : t.Unique) : (t.clear i).Unique := by
  intro a b key x y ha hb
  rw [clear_apply] at ha hb
  split at ha
  · cases ha
  · split at hb
    · cases hb
    · exact h a b key x y ha hb

variable [DecidableEq K]

def find (t : SlotTable K V) (n : Nat) (k : K) : Option V :=
  (List.range n).findSome? fun i => (t i).bind fun x => if x.1 = k then some x.2 else none

def Below (t : SlotTable K V) (n : Nat) : Prop := ∀ i, t i ≠ none → i < n

theorem find_eq_some (hunique : t.Unique) {n : Nat} (hbelow : t.Below n) :
    t.find n k = some v ↔ ∃ i, t i = some (k, v) := by
  constructor
  · intro h
    obtain ⟨i, -, hi⟩ := List.exists_of_findSome?_eq_some h
    obtain ⟨⟨key, x⟩, hslot, hx⟩ := Option.bind_eq_some_iff.mp hi
    dsimp only at hx
    split at hx
    · rename_i hkey
      cases hx
      exact ⟨i, hkey ▸ hslot⟩
    · cases hx
  · rintro ⟨i, hi⟩
    cases hfind : t.find n k with
    | none =>
      have hnone := List.findSome?_eq_none_iff.mp hfind i
        (List.mem_range.mpr (hbelow i (by rw [hi]; exact Option.some_ne_none _)))
      rw [hi] at hnone
      simp at hnone
    | some w =>
      obtain ⟨j, -, hj⟩ := List.exists_of_findSome?_eq_some hfind
      obtain ⟨⟨key, x⟩, hslot, hx⟩ := Option.bind_eq_some_iff.mp hj
      dsimp only at hx
      split at hx
      · rename_i hkey
        cases hx
        subst hkey
        obtain rfl := hunique _ _ _ _ _ hi hslot
        cases hi.symm.trans hslot
        rfl
      · cases hx

theorem find_eq_none (hunique : t.Unique) {n : Nat} (hbelow : t.Below n) :
    t.find n k = none ↔ ¬ t.Holds k := by
  rw [Option.eq_none_iff_forall_ne_some]
  simp only [ne_eq, find_eq_some hunique hbelow, Holds, not_exists]
  exact forall_comm

theorem find_enter (hunique : t.Unique) (hnew : ¬ t.Holds k) (hempty : t i = none) {m n : Nat}
    (hbelow : t.Below m) (hbelow' : (t.enter i k v).Below n) (key : K) :
    (t.enter i k v).find n key = if key = k then some v else t.find m key := by
  ext w
  rw [find_eq_some (hunique.enter hnew) hbelow']
  split
  · rename_i hkey
    subst hkey
    constructor
    · rintro ⟨j, hj⟩
      rw [enter_apply] at hj
      split at hj
      · cases hj
        rfl
      · exact absurd ⟨j, w, hj⟩ hnew
    · intro hw
      cases hw
      exact ⟨i, by rw [enter_apply, if_pos rfl]⟩
  · rename_i hkey
    rw [find_eq_some hunique hbelow]
    refine exists_congr fun j => ?_
    rw [enter_apply]
    split
    · rename_i hj
      subst hj
      rw [hempty]
      refine iff_of_false (fun h => ?_) (by simp)
      cases h
      exact hkey rfl
    · rfl

theorem find_clear (hunique : t.Unique) (hfull : t i = some (k, v)) {m n : Nat}
    (hbelow : t.Below m) (hbelow' : (t.clear i).Below n) (key : K) :
    (t.clear i).find n key = if key = k then none else t.find m key := by
  ext w
  rw [find_eq_some hunique.clear hbelow']
  split
  · rename_i hkey
    subst hkey
    refine iff_of_false ?_ (by simp)
    rintro ⟨j, hj⟩
    rw [clear_apply] at hj
    split at hj
    · cases hj
    · rename_i hne
      exact hne (hunique _ _ _ _ _ hj hfull)
  · rename_i hkey
    rw [find_eq_some hunique hbelow]
    refine exists_congr fun j => ?_
    rw [clear_apply]
    split
    · rename_i hj
      subst hj
      rw [hfull]
      refine iff_of_false (by simp) fun h => ?_
      cases h
      exact hkey rfl
    · rfl

end SlotTable

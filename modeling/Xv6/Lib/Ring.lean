import Mathlib.Data.Nat.ModEq
import Mathlib.Tactic.Common

/-! Ring buffers with running counters. The counters count modulo `m` and the cells are
indexed modulo `size`, a divisor of `m`; the buffer is a queue of at most `size` elements as
long as nothing is put into a full one. -/
namespace Ring

structure Buffer (α : Type) where
  data : Nat → α
  nread : Nat
  nwrite : Nat

variable {α : Type} {size m : Nat}

def Buffer.Full (size m : Nat) (b : Buffer α) : Prop := b.nwrite = (b.nread + size) % m

instance (b : Buffer α) : Decidable (b.Full size m) := inferInstanceAs (Decidable (_ = _))

def Buffer.put (size m : Nat) (b : Buffer α) (x : α) : Buffer α :=
  { b with data := Function.update b.data (b.nwrite % size) x, nwrite := (b.nwrite + 1) % m }

def Buffer.front (size : Nat) (b : Buffer α) : α := b.data (b.nread % size)

def Buffer.drop (m : Nat) (b : Buffer α) : Buffer α := { b with nread := (b.nread + 1) % m }

/-- The buffer holds the queue `l`: `r` elements were taken in all, without the wrap-around. -/
def Buffer.Holds (size m : Nat) (b : Buffer α) (l : List α) : Prop :=
  ∃ r, b.nread = r % m ∧ b.nwrite = (r + l.length) % m ∧ l.length ≤ size ∧
    ∀ j x, l[j]? = some x → b.data ((r + j) % size) = x

variable {b : Buffer α} {l : List α}

theorem Buffer.Holds.length_le (h : b.Holds size m l) : l.length ≤ size := by
  obtain ⟨r, -, -, hlength, -⟩ := h
  exact hlength

theorem holds_nil (data : Nat → α) : (⟨data, 0, 0⟩ : Buffer α).Holds size m [] :=
  ⟨0, (Nat.zero_mod m).symm, (Nat.zero_mod m).symm, Nat.zero_le size, fun j x hx => by cases hx⟩

theorem Buffer.Holds.length_eq (h : b.Holds size m l) (hsize : size < m) :
    (b.nwrite + (m - b.nread)) % m = l.length := by
  obtain ⟨r, hread, hwrite, hlength, -⟩ := h
  have hr : r % m < m := Nat.mod_lt r (by omega)
  rw [hread, hwrite, Nat.mod_add_mod]
  have hsum : r + l.length + (m - r % m) = l.length + m * (r / m + 1) := by
    have hdiv := Nat.div_add_mod r m
    rw [Nat.mul_add, Nat.mul_one]
    omega
  rw [hsum, Nat.add_mul_mod_self_left, Nat.mod_eq_of_lt (by omega)]

theorem Buffer.Holds.empty_iff (h : b.Holds size m l) (hsize : size < m) :
    b.nread = b.nwrite ↔ l = [] := by
  have hlength := h.length_eq hsize
  obtain ⟨r, hread, hwrite, hle, -⟩ := h
  constructor
  · intro heq
    have hr : b.nread < m := by
      rw [hread]
      exact Nat.mod_lt r (by omega)
    rw [← heq, Nat.add_sub_cancel' hr.le, Nat.mod_self] at hlength
    exact List.length_eq_zero_iff.mp hlength.symm
  · rintro rfl
    rw [hread, hwrite]
    rfl

theorem Buffer.Holds.full_of_length (h : b.Holds size m l) (hlength : l.length = size) :
    b.Full size m := by
  obtain ⟨r, hread, hwrite, -, -⟩ := h
  unfold Buffer.Full
  rw [hread, hwrite, hlength, Nat.mod_add_mod]

theorem cell_ne {r i j : Nat} (hij : i < j) (hj : j < i + size) :
    (r + i) % size ≠ (r + j) % size := by
  intro heq
  have hdvd : size ∣ (r + j) - (r + i) := (Nat.modEq_iff_dvd' (by omega)).mp heq
  have hle := Nat.le_of_dvd (by omega) hdvd
  omega

theorem Buffer.Holds.put (h : b.Holds size m l) (hdvd : size ∣ m) (hfull : ¬ b.Full size m)
    (x : α) : (b.put size m x).Holds size m (l ++ [x]) := by
  have hroom : l.length ≠ size := fun hlength => hfull (h.full_of_length hlength)
  obtain ⟨r, hread, hwrite, hle, hcells⟩ := h
  have hcell : b.nwrite % size = (r + l.length) % size := by
    rw [hwrite, Nat.mod_mod_of_dvd _ hdvd]
  refine ⟨r, hread, ?_, ?_, fun j y hy => ?_⟩
  · change (b.nwrite + 1) % m = _
    rw [hwrite, Nat.mod_add_mod, List.length_append]
    rfl
  · rw [List.length_append, List.length_singleton]
    omega
  · change Function.update b.data (b.nwrite % size) x ((r + j) % size) = y
    rw [hcell]
    by_cases hj : j = l.length
    · subst hj
      rw [Function.update_self]
      simpa using hy
    · have hlt : j < l.length := by
        obtain ⟨hbound, -⟩ := List.getElem?_eq_some_iff.mp hy
        rw [List.length_append, List.length_singleton] at hbound
        omega
      rw [Function.update_of_ne (cell_ne hlt (by omega))]
      rw [List.getElem?_append_left hlt] at hy
      exact hcells j y hy

theorem Buffer.Holds.front {x : α} (h : b.Holds size m (x :: l)) (hdvd : size ∣ m) :
    b.front size = x := by
  obtain ⟨r, hread, -, -, hcells⟩ := h
  unfold Buffer.front
  rw [hread, Nat.mod_mod_of_dvd _ hdvd]
  exact hcells 0 x rfl

theorem Buffer.Holds.drop {x : α} (h : b.Holds size m (x :: l)) : (b.drop m).Holds size m l := by
  obtain ⟨r, hread, hwrite, hle, hcells⟩ := h
  rw [List.length_cons] at hwrite hle
  refine ⟨r + 1, ?_, ?_, by omega, fun j y hy => ?_⟩
  · change (b.nread + 1) % m = _
    rw [hread, Nat.mod_add_mod]
  · change b.nwrite = _
    rw [hwrite]
    congr 1
    omega
  · change b.data _ = y
    have hcell := hcells (j + 1) y hy
    rwa [← Nat.add_assoc, Nat.add_right_comm] at hcell

end Ring

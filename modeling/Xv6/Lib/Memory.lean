import Mathlib.Tactic.Common

/-! A memory of cells that are numbered from 0, and strings of cells stored in it. -/
namespace Memory

variable {α : Type} {mem : Nat → α} {addr addr' : Nat} {data data' : List α}

def store (mem : Nat → α) (addr : Nat) (data : List α) : Nat → α := fun a =>
  if h : addr ≤ a ∧ a - addr < data.length then data[a - addr] else mem a

def Holds (mem : Nat → α) (addr : Nat) (data : List α) : Prop :=
  ∀ i (h : i < data.length), mem (addr + i) = data[i]

theorem holds_store (mem : Nat → α) (addr : Nat) (data : List α) :
    Holds (store mem addr data) addr data := by
  intro i h
  unfold store
  rw [dif_pos ⟨Nat.le_add_right _ _, by omega⟩]
  congr 1
  omega

theorem store_of_outside {a : Nat} (h : a < addr ∨ addr + data.length ≤ a) :
    store mem addr data a = mem a := by
  unfold store
  rw [dif_neg]
  omega

end Memory

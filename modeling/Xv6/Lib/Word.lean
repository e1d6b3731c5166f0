import Mathlib.Tactic.Common

/-! Fixed-width C integers as unbounded ones with an explicit reduction. `u32` is
arithmetic on `unsigned int`, `u32OfInt` converts a signed sum to it, and `i32` is
the two's complement wrap of `int`, `i16` that of `short`. -/
namespace Word

def u32 (x : Nat) : Nat := x % 4294967296

def i32 (x : Int) : Int := (x + 2147483648) % 4294967296 - 2147483648

def i16 (x : Int) : Int := (x + 32768) % 65536 - 32768

def u32OfInt (x : Int) : Nat := (x % 4294967296).toNat

def IsInt (x : Int) : Prop := -2147483648 ≤ x ∧ x < 2147483648

instance (x : Int) : Decidable (IsInt x) := inferInstanceAs (Decidable (_ ∧ _))

theorem u32_lt (x : Nat) : u32 x < 4294967296 := Nat.mod_lt _ (by decide)

theorem u32_eq_self {x : Nat} (h : x < 4294967296) : u32 x = x := Nat.mod_eq_of_lt h

theorem u32OfInt_eq {x : Int} (hlow : 0 ≤ x) (hhigh : x < 4294967296) : u32OfInt x = x.toNat := by
  unfold u32OfInt
  rw [Int.emod_eq_of_lt hlow hhigh]

theorem u32OfInt_neg {x : Int} (hlow : -4294967296 ≤ x) (hhigh : x < 0) :
    u32OfInt x = (x + 4294967296).toNat := by
  unfold u32OfInt
  congr 1
  omega

theorem i32_isInt (x : Int) : IsInt (i32 x) := by
  unfold IsInt i32
  omega

theorem i32_eq_self {x : Int} (h : IsInt x) : i32 x = x := by
  unfold IsInt at h
  unfold i32
  omega

theorem i32_add_i32 (x y : Int) : i32 (i32 x + y) = i32 (x + y) := by
  unfold i32
  omega

theorem i32_sub_i32 (x y : Int) : i32 (i32 x - y) = i32 (x - y) := by
  unfold i32
  omega

end Word

import Xv6.Group.Spaces

/-! Fetching the arguments of a system call (`syscall.c`). The checks compare with the `sz` of
the calling process itself. User memory is a function on addresses; `Fetches` and `Points`
are the two range checks, in the 32-bit arithmetic of the source. -/
namespace Xv6.Args

open Word Transition

abbrev Memory := Nat → UInt8

def word (mem : Memory) (addr : Nat) : Int :=
  i32 ((mem addr).toNat + 256 * (mem (u32 (addr + 1))).toNat +
    65536 * (mem (u32 (addr + 2))).toNat + 16777216 * (mem (u32 (addr + 3))).toNat)

def Fetches (sz addr : Nat) : Prop := ¬ (sz ≤ addr ∨ sz < u32 (addr + 4))

instance (sz addr : Nat) : Decidable (Fetches sz addr) := inferInstanceAs (Decidable (¬ _))

def fetchint (mem : Memory) (sz addr : Nat) : Option Int :=
  if Fetches sz addr then some (word mem addr) else none

/-- The loop of `fetchstr` over `count` bytes from `s` on; the answer is the length, for which
`int` is wide enough while `sz` is at most `KERNBASE`. -/
def scanNul (mem : Memory) (start s : Nat) : Nat → Option Nat
  | 0 => none
  | count + 1 => if mem s = 0 then some (s - start) else scanNul mem start (s + 1) count

def fetchstr (mem : Memory) (sz addr : Nat) : Option Nat :=
  if sz ≤ addr then none else scanNul mem addr addr (sz - addr)

def argint (mem : Memory) (sz esp n : Nat) : Option Int :=
  fetchint mem sz (u32 (esp + 4 + 4 * n))

def Points (sz i : Nat) (size : Int) : Prop :=
  ¬ (size < 0 ∨ sz ≤ i ∨ sz < u32OfInt (i + size))

instance (sz i : Nat) (size : Int) : Decidable (Points sz i size) :=
  inferInstanceAs (Decidable (¬ _))

def argptr (mem : Memory) (sz esp n : Nat) (size : Int) : Option Nat :=
  match argint mem sz esp n with
  | none => none
  | some i => if Points sz (u32OfInt i) size then some (u32OfInt i) else none

def argstr (mem : Memory) (sz esp n : Nat) : Option Nat :=
  match argint mem sz esp n with
  | none => none
  | some addr => fetchstr mem sz (u32OfInt addr)

def InRange (sz addr len : Nat) : Prop := addr < sz ∧ addr + len ≤ sz

instance (sz addr len : Nat) : Decidable (InRange sz addr len) :=
  inferInstanceAs (Decidable (_ ∧ _))

theorem fetchint_isSome (mem : Memory) (sz addr : Nat) :
    (fetchint mem sz addr).isSome ↔ Fetches sz addr := by
  unfold fetchint
  split
  · rename_i h
    exact ⟨fun _ => h, fun _ => rfl⟩
  · rename_i h
    exact iff_of_false (by simp) h

theorem scanNul_isSome (mem : Memory) (start s count : Nat) :
    (scanNul mem start s count).isSome ↔ ∃ a, s ≤ a ∧ a < s + count ∧ mem a = 0 := by
  induction count generalizing s with
  | zero =>
    constructor
    · intro h
      cases h
    · rintro ⟨a, hlow, hhigh, -⟩
      omega
  | succ count ih =>
    unfold scanNul
    split
    · rename_i hnul
      exact ⟨fun _ => ⟨s, le_rfl, by omega, hnul⟩, fun _ => rfl⟩
    · rename_i hchar
      rw [ih]
      constructor
      · rintro ⟨a, hlow, hhigh, hnul⟩
        exact ⟨a, by omega, by omega, hnul⟩
      · rintro ⟨a, hlow, hhigh, hnul⟩
        have hne : a ≠ s := by
          rintro rfl
          exact hchar hnul
        exact ⟨a, by omega, by omega, hnul⟩

theorem fetchstr_isSome (mem : Memory) (sz addr : Nat) :
    (fetchstr mem sz addr).isSome ↔ ∃ a, addr ≤ a ∧ a < sz ∧ mem a = 0 := by
  unfold fetchstr
  split
  · constructor
    · intro h
      cases h
    · rintro ⟨a, hlow, hhigh, -⟩
      omega
  · rw [scanNul_isSome]
    constructor
    · rintro ⟨a, hlow, hhigh, hnul⟩
      exact ⟨a, hlow, by omega, hnul⟩
    · rintro ⟨a, hlow, hhigh, hnul⟩
      exact ⟨a, hlow, by omega, hnul⟩

theorem argptr_isSome (mem : Memory) (sz esp n : Nat) (size : Int) :
    (argptr mem sz esp n size).isSome ↔ Fetches sz (u32 (esp + 4 + 4 * n)) ∧
      Points sz (u32OfInt (word mem (u32 (esp + 4 + 4 * n)))) size := by
  unfold argptr argint fetchint
  by_cases hfetch : Fetches sz (u32 (esp + 4 + 4 * n))
  · rw [if_pos hfetch]
    simp only
    split
    · rename_i hpoints
      exact ⟨fun _ => ⟨hfetch, hpoints⟩, fun _ => rfl⟩
    · rename_i hpoints
      exact iff_of_false (by simp) fun h => hpoints h.2
  · rw [if_neg hfetch]
    exact iff_of_false (by simp) fun h => hfetch h.1

/-- A check with the size `own` accepts what one with the size `mgr` accepts, and that is
exactly what lies below `mgr`. -/
structure Agrees (own mgr : Nat) : Prop where
  fetchint : ∀ mem addr, addr < 4294967296 →
    ((fetchint mem own addr).isSome ↔ (fetchint mem mgr addr).isSome) ∧
    ((fetchint mem own addr).isSome ↔ InRange mgr addr 4)
  fetchstr : ∀ mem addr, addr < 4294967296 →
    ((fetchstr mem own addr).isSome ↔ (fetchstr mem mgr addr).isSome) ∧
    ((fetchstr mem own addr).isSome ↔ ∃ len, mem (addr + len) = 0 ∧ InRange mgr addr (len + 1))
  argptr : ∀ mem esp n size, IsInt size →
    ((argptr mem own esp n size).isSome ↔ (argptr mem mgr esp n size).isSome) ∧
    ((argptr mem own esp n size).isSome ↔ InRange mgr (u32 (esp + 4 + 4 * n)) 4 ∧ 0 ≤ size ∧
      InRange mgr (u32OfInt (word mem (u32 (esp + 4 + 4 * n)))) size.toNat)

/-- Sizes up to this one leave no room for a sum that wraps around. -/
abbrev wrapFree : Nat := 2147483649

theorem fetches_iff {sz addr : Nat} (hsz : sz ≤ wrapFree) :
    Fetches sz addr ↔ InRange sz addr 4 := by
  simp only [wrapFree] at hsz
  unfold Fetches InRange
  by_cases hlow : addr < sz
  · rw [u32_eq_self (by omega)]
    omega
  · omega

theorem points_iff {sz i : Nat} {size : Int} (hsz : sz ≤ wrapFree) (hsize : IsInt size) :
    Points sz i size ↔ 0 ≤ size ∧ InRange sz i size.toNat := by
  simp only [wrapFree] at hsz
  unfold IsInt at hsize
  unfold Points InRange
  by_cases hlow : i < sz ∧ 0 ≤ size
  · rw [u32OfInt_eq (by omega) (by omega)]
    omega
  · omega

def wordAtZero (v : Int) : Memory := fun a => UInt8.ofNat (u32OfInt v / 256 ^ a % 256)

theorem word_wordAtZero {v : Int} (h : IsInt v) : word (wordAtZero v) 0 = v := by
  unfold IsInt at h
  have hbyte : ∀ a, (wordAtZero v a).toNat = u32OfInt v / 256 ^ a % 256 := by
    intro a
    simp [wordAtZero]
  unfold word
  rw [hbyte, hbyte, hbyte, hbyte]
  have hone : u32 (0 + 1) = 1 := rfl
  have htwo : u32 (0 + 2) = 2 := rfl
  have hthree : u32 (0 + 3) = 3 := rfl
  rw [hone, htwo, hthree]
  have hsum : u32OfInt v / 256 ^ 0 % 256 + 256 * (u32OfInt v / 256 ^ 1 % 256) +
      65536 * (u32OfInt v / 256 ^ 2 % 256) + 16777216 * (u32OfInt v / 256 ^ 3 % 256) =
      u32OfInt v := by
    have hlt := u32OfInt_lt v
    omega
  unfold i32
  unfold u32OfInt at hsum ⊢
  omega

theorem Agrees.same {own mgr : Nat} (h : Agrees own mgr) (hown : own < 4294967296)
    (hmgr : mgr < 4294967296) : own = mgr := by
  -- a string of length 0 at the smaller of the two sizes
  have hstr := (h.fetchstr (fun a => if a = min own mgr then 0 else 1) (min own mgr)
    (by omega)).1
  rw [fetchstr_isSome, fetchstr_isSome] at hstr
  rcases lt_trichotomy own mgr with hlt | heq | hgt
  · obtain ⟨a, hlow, hhigh, -⟩ := hstr.mpr ⟨own, by omega, hlt, if_pos (by omega)⟩
    omega
  · exact heq
  · obtain ⟨a, hlow, hhigh, -⟩ := hstr.mp ⟨mgr, by omega, hgt, if_pos (by omega)⟩
    omega

theorem Agrees.bounded {sz : Nat} (h : Agrees sz sz) (hsz : sz < 4294967296) :
    sz ≤ wrapFree := by
  by_contra hlarge
  simp only [wrapFree] at hlarge
  -- a block that starts in the last byte and ends where the addresses do
  have hint : IsInt (i32 (sz - 1 : Nat)) := i32_isInt _
  have hword := word_wordAtZero hint
  have hptr : u32OfInt (i32 (sz - 1 : Nat)) = sz - 1 := by
    unfold u32OfInt i32
    omega
  have harg : u32 (4294967292 + 4 + 4 * 0) = 0 := rfl
  have hblock := (h.argptr (wordAtZero (i32 (sz - 1 : Nat))) 4294967292 0
    (4294967297 - sz : Nat) (by unfold IsInt; omega)).2
  rw [argptr_isSome, harg, hword, hptr] at hblock
  have hfetch : Fetches sz 0 := by
    unfold Fetches
    rw [show u32 (0 + 4) = 4 from rfl]
    omega
  have hpoints : Points sz (sz - 1) (4294967297 - sz : Nat) := by
    unfold Points
    have hsum : ((sz - 1 : Nat) : Int) + (4294967297 - sz : Nat) = 4294967296 := by omega
    rw [hsum, show u32OfInt 4294967296 = 0 from rfl]
    omega
  have hrange := (hblock.mp ⟨hfetch, hpoints⟩).2.2
  unfold InRange at hrange
  omega

theorem agrees_of_bounded {sz : Nat} (h : sz ≤ wrapFree) : Agrees sz sz where
  fetchint := by
    intro mem addr _
    rw [fetchint_isSome, fetches_iff h]
    exact ⟨Iff.rfl, Iff.rfl⟩
  fetchstr := by
    intro mem addr _
    refine ⟨Iff.rfl, ?_⟩
    rw [fetchstr_isSome]
    constructor
    · rintro ⟨a, hlow, hhigh, hnul⟩
      refine ⟨a - addr, by rwa [Nat.add_sub_cancel' hlow], ?_⟩
      unfold InRange
      omega
    · rintro ⟨len, hnul, hrange⟩
      unfold InRange at hrange
      exact ⟨addr + len, by omega, by omega, hnul⟩
  argptr := by
    intro mem esp n size hsize
    rw [argptr_isSome, fetches_iff h, points_iff h hsize]
    exact ⟨Iff.rfl, Iff.rfl⟩

end Xv6.Args

namespace Xv6.Kernel

open Transition Args

/-- The checks accept the same arguments from a member of a group as from its manager, and
these lie below the size of the manager, if and only if the two processes have one size and
it is small enough for the sums of the checks. -/
theorem checks_agree {k : Kernel} (free : Nat) (hreach : Reaches perform Enabled (boot free) k)
    (mgr : Slot) : ∀ p, k.Member mgr p → (Agrees (k.proc p).sz (k.proc mgr).sz ↔
      (k.proc p).sz = (k.proc mgr).sz ∧ (k.proc mgr).sz ≤ wrapFree) := by
  intro p _
  have hspaced := spaced_reaches hreach
  constructor
  · intro hagrees
    have hsame := hagrees.same (hspaced.sz p) (hspaced.sz mgr)
    rw [hsame] at hagrees
    exact ⟨hsame, hagrees.bounded (hspaced.sz mgr)⟩
  · rintro ⟨hsame, hbound⟩
    rw [hsame]
    exact agrees_of_bounded hbound

/-- The LWP that was created last. -/
theorem checks_agree_newest : ∃ k, Reaches perform Enabled (boot 1000) k ∧ k.Member 0 2 ∧
    (k.proc 2).Live ∧ Agrees (k.proc 2).sz (k.proc 0).sz := by
  obtain ⟨k, hreach, htest⟩ := exists_reaches perform Enabled (boot 1000)
    [.visit 0 0, .threadCreate 0 5, .threadCreate 0 5]
    (fun k => decide (k.Member 0 2 ∧ (k.proc 2).Live ∧ (k.proc 2).sz = (k.proc 0).sz ∧
      (k.proc 0).sz ≤ wrapFree)) (by decide +kernel)
  obtain ⟨hmember, hlive, hsame, hbound⟩ := of_decide_eq_true htest
  exact ⟨k, hreach, hmember, hlive, (checks_agree 1000 hreach 0 2 hmember).mpr ⟨hsame, hbound⟩⟩

/-- The LWP that was created first: its own size ends below the stack of the second, so a
pointer into that stack is refused from it and accepted from its manager. -/
theorem checks_differ : ∃ k, Reaches perform Enabled (boot 1000) k ∧ k.Member 0 1 ∧
    (k.proc 1).Live ∧ ¬ Agrees (k.proc 1).sz (k.proc 0).sz ∧
    ∀ mem, fetchint mem (k.proc 1).sz 16384 = none ∧
      (fetchint mem (k.proc 0).sz 16384).isSome := by
  obtain ⟨k, hreach, htest⟩ := exists_reaches perform Enabled (boot 1000)
    [.visit 0 0, .threadCreate 0 5, .threadCreate 0 5]
    (fun k => decide (k.Member 0 1 ∧ (k.proc 1).Live ∧ ¬ Fetches (k.proc 1).sz 16384 ∧
      Fetches (k.proc 0).sz 16384)) (by decide +kernel)
  obtain ⟨hmember, hlive, hrefused, haccepted⟩ := of_decide_eq_true htest
  refine ⟨k, hreach, hmember, hlive, fun hagrees => ?_, fun mem => ⟨if_neg hrefused, ?_⟩⟩
  · have hsame := (hagrees.fetchint (fun _ => 0) 16384 (by decide)).1
    rw [fetchint_isSome, fetchint_isSome] at hsame
    exact hrefused (hsame.mpr haccepted)
  · rw [fetchint_isSome]
    exact haccepted

end Xv6.Kernel

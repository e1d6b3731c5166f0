import Mathlib.Algebra.Order.Group.Abs
import Mathlib.Data.Finset.Basic
import Mathlib.Tactic.Linarith
import Mathlib.Tactic.Ring

/-! Stride scheduling in the abstract. Every client has a pass and a stride; a selection
takes a client with the least pass and advances it by its stride, a newcomer starts at the
least pass. As long as that is all that happens, passes stay within the largest stride of one
another, and clients are selected in inverse proportion to their strides. -/
namespace Stride

variable {ι : Type}

structure Pool (ι : Type) where
  clients : Finset ι
  pass : ι → Int
  stride : ι → Int

inductive Move (ι : Type) where
  | still
  | select (i : ι)
  | join (i : ι) (stride : Int)
  deriving DecidableEq

/-- What a move does to a pool. Nothing is said about those who are not clients. -/
def Move.Does [DecidableEq ι] (pool pool' : Pool ι) : Move ι → Prop
  | .still => pool'.clients = pool.clients ∧
      ∀ i ∈ pool.clients, pool'.pass i = pool.pass i ∧ pool'.stride i = pool.stride i
  | .select i => i ∈ pool.clients ∧ (∀ j ∈ pool.clients, pool.pass i ≤ pool.pass j) ∧
      pool'.clients = pool.clients ∧ pool'.pass i = pool.pass i + pool.stride i ∧
      (∀ j ∈ pool.clients, j ≠ i → pool'.pass j = pool.pass j) ∧
      ∀ j ∈ pool.clients, pool'.stride j = pool.stride j
  | .join i stride => i ∉ pool.clients ∧ pool'.clients = insert i pool.clients ∧
      0 ≤ stride ∧ pool'.stride i = stride ∧
      (∀ j ∈ pool.clients, pool'.pass i ≤ pool.pass j) ∧
      (pool.clients.Nonempty → ∃ j ∈ pool.clients, pool'.pass i = pool.pass j) ∧
      ∀ j ∈ pool.clients, pool'.pass j = pool.pass j ∧ pool'.stride j = pool.stride j

def Move.largest (s : Int) : Move ι → Int
  | .join _ stride => max s stride
  | _ => s

/-- No stride is larger than `s`, and no two passes are further apart. -/
structure Pool.Within (pool : Pool ι) (s : Int) : Prop where
  stride : ∀ i ∈ pool.clients, 0 ≤ pool.stride i ∧ pool.stride i ≤ s
  spread : ∀ i ∈ pool.clients, ∀ j ∈ pool.clients, pool.pass i ≤ pool.pass j + s

/-- A client that stays, with the number of its selections. -/
def Advanced (pool pool' : Pool ι) (i : ι) (n : Nat) : Prop :=
  i ∈ pool'.clients ∧ pool'.pass i = pool.pass i + n * pool.stride i ∧
    pool'.stride i = pool.stride i

variable {pool pool' : Pool ι} {m : Move ι} {s : Int}

theorem Move.le_largest (s : Int) (m : Move ι) : s ≤ m.largest s := by
  cases m with
  | still => exact le_rfl
  | select i => exact le_rfl
  | join i stride => exact le_max_left s stride

theorem Pool.Within.still (h : pool.Within s) (hclients : pool'.clients = pool.clients)
    (hsame : ∀ i ∈ pool.clients, pool'.pass i = pool.pass i ∧ pool'.stride i = pool.stride i) :
    pool'.Within s := by
  constructor
  · intro i hi
    rw [hclients] at hi
    rw [(hsame i hi).2]
    exact h.stride i hi
  · intro i hi j hj
    rw [hclients] at hi hj
    rw [(hsame i hi).1, (hsame j hj).1]
    exact h.spread i hi j hj

theorem advanced_refl {i : ι} (hi : i ∈ pool.clients) : Advanced pool pool i 0 :=
  ⟨hi, by simp, rfl⟩

theorem Pool.Within.fair {s' : Int} {i j : ι} {n l : Nat} (h : pool.Within s)
    (h' : pool'.Within s') (hs : s ≤ s') (hi : i ∈ pool.clients) (hj : j ∈ pool.clients)
    (hadvi : Advanced pool pool' i n) (hadvj : Advanced pool pool' j l) :
    |n * pool.stride i - l * pool.stride j| ≤ 2 * s' := by
  have hij := h.spread i hi j hj
  have hji := h.spread j hj i hi
  have hij' := h'.spread i hadvi.1 j hadvj.1
  have hji' := h'.spread j hadvj.1 i hadvi.1
  rw [hadvi.2.1, hadvj.2.1] at hij' hji'
  rw [abs_le]
  constructor
  · linarith
  · linarith

variable [DecidableEq ι]

/-- The selected client had the least pass and ends above it by at most `s`; so are all the
others. -/
theorem Pool.Within.select {i : ι} (h : pool.Within s) (hdoes : (Move.select i).Does pool pool') :
    pool'.Within s := by
  obtain ⟨hi, hleast, hclients, hpass, hothers, hstride⟩ := hdoes
  obtain ⟨hnonneg, hle⟩ := h.stride i hi
  constructor
  · intro j hj
    rw [hclients] at hj
    rw [hstride j hj]
    exact h.stride j hj
  · intro j hj l hl
    rw [hclients] at hj hl
    have hjlow := hleast j hj
    have hllow := hleast l hl
    have hjl := h.spread j hj l hl
    have hji := h.spread j hj i hi
    by_cases hji' : j = i
    · subst hji'
      by_cases hli : l = j
      · subst hli
        omega
      · rw [hpass, hothers l hl hli]
        omega
    · rw [hothers j hj hji']
      by_cases hli : l = i
      · subst hli
        rw [hpass]
        omega
      · rw [hothers l hl hli]
        exact hjl

theorem Pool.Within.join {i : ι} {stride : Int} (h : pool.Within s)
    (hdoes : (Move.join i stride).Does pool pool') : pool'.Within (max s stride) := by
  obtain ⟨hi, hclients, hnonneg, hstride, hleast, hmin, hothers⟩ := hdoes
  have hs : s ≤ max s stride := le_max_left s stride
  have hmax : stride ≤ max s stride := le_max_right s stride
  have hnew : ∀ j ∈ pool.clients, pool.pass j ≤ pool'.pass i + s := by
    intro j hj
    obtain ⟨l, hl, heq⟩ := hmin ⟨j, hj⟩
    rw [heq]
    exact h.spread j hj l hl
  constructor
  · intro j hj
    rw [hclients, Finset.mem_insert] at hj
    rcases hj with rfl | hj
    · rw [hstride]
      exact ⟨hnonneg, hmax⟩
    · rw [(hothers j hj).2]
      exact ⟨(h.stride j hj).1, (h.stride j hj).2.trans hs⟩
  · intro j hj l hl
    rw [hclients, Finset.mem_insert] at hj hl
    rcases hj with rfl | hj
    · rcases hl with rfl | hl
      · omega
      · have hlow := hleast l hl
        rw [(hothers l hl).1]
        omega
    · rw [(hothers j hj).1]
      rcases hl with rfl | hl
      · have hlow := hnew j hj
        omega
      · have hspread := h.spread j hj l hl
        rw [(hothers l hl).1]
        omega

theorem Pool.Within.move (h : pool.Within s) (hdoes : m.Does pool pool') :
    pool'.Within (m.largest s) := by
  cases m with
  | still => exact h.still hdoes.1 hdoes.2
  | select i => exact h.select hdoes
  | join i stride => exact h.join hdoes

theorem Advanced.move {start : Pool ι} {i : ι} {n : Nat} (h : Advanced start pool i n)
    (hdoes : m.Does pool pool') :
    Advanced start pool' i (n + if m = .select i then 1 else 0) := by
  obtain ⟨hi, hpass, hstride⟩ := h
  cases m with
  | still =>
    obtain ⟨hclients, hsame⟩ := hdoes
    obtain ⟨hpass', hstride'⟩ := hsame i hi
    refine ⟨hclients ▸ hi, ?_, hstride'.trans hstride⟩
    rw [hpass', hpass]
    simp
  | select j =>
    obtain ⟨hj, -, hclients, hadvance, hothers, hstride'⟩ := hdoes
    refine ⟨hclients ▸ hi, ?_, (hstride' i hi).trans hstride⟩
    by_cases hij : i = j
    · subst hij
      rw [hadvance, hpass, hstride, if_pos rfl]
      push_cast
      ring
    · rw [hothers i hi hij, hpass, if_neg fun heq => hij (Move.select.inj heq).symm]
      simp
  | join j stride =>
    obtain ⟨-, hclients, -, -, -, -, hothers⟩ := hdoes
    obtain ⟨hpass', hstride'⟩ := hothers i hi
    refine ⟨hclients ▸ Finset.mem_insert_of_mem hi, ?_, hstride'.trans hstride⟩
    rw [hpass', hpass]
    simp

end Stride

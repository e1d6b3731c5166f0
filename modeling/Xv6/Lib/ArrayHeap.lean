import Mathlib.Data.Multiset.MapFold
import Mathlib.Order.Interval.Finset.Nat
import Mathlib.Logic.Equiv.Basic

/-! A binary heap in an array whose first used index is 1. The two sifting loops
carry fuel; the index halves or doubles at every turn, so `child` turns upwards
and `count` turns downwards are always enough. -/
namespace ArrayHeap

variable {α : Type} [LinearOrder α]

def swap (a : Nat → α) (i j : Nat) : Nat → α :=
  fun k => if k = i then a j else if k = j then a i else a k

def siftUp (a : Nat → α) (child : Nat) : Nat → Nat → α
  | 0 => a
  | fuel + 1 =>
      if 1 < child ∧ a child < a (child / 2) then
        siftUp (swap a child (child / 2)) (child / 2) fuel
      else a

def pickChild (a : Nat → α) (count parent : Nat) : Nat :=
  if parent * 2 + 1 ≤ count then
    if a (parent * 2) < a (parent * 2 + 1) then parent * 2 else parent * 2 + 1
  else parent * 2

def siftDown (a : Nat → α) (count parent : Nat) : Nat → Nat → α
  | 0 => a
  | fuel + 1 =>
      if pickChild a count parent ≤ count ∧ a (pickChild a count parent) < a parent then
        siftDown (swap a (pickChild a count parent) parent) count
          (pickChild a count parent) fuel
      else a

/-- The indices that the loop of `siftUp` reads or writes, turn by turn; `none` when it has not
ended by the time the fuel is spent. -/
def upTouches (a : Nat → α) (child : Nat) : Nat → Option (List Nat)
  | 0 => none
  | fuel + 1 =>
      if 1 < child then
        if a child < a (child / 2) then
          (upTouches (swap a child (child / 2)) (child / 2) fuel).map ([child, child / 2] ++ ·)
        else some [child, child / 2]
      else some []

def pickTouches (count parent : Nat) : List Nat :=
  if parent * 2 + 1 ≤ count then [parent * 2, parent * 2 + 1] else []

def downTouches (a : Nat → α) (count parent : Nat) : Nat → Option (List Nat)
  | 0 => none
  | fuel + 1 =>
      let child := pickChild a count parent
      if child ≤ count then
        if a child < a parent then
          (downTouches (swap a child parent) count child fuel).map
            (pickTouches count parent ++ [child, parent] ++ ·)
        else some (pickTouches count parent ++ [child, parent])
      else some (pickTouches count parent)

def contents (a : Nat → α) (count : Nat) : Multiset α :=
  (Finset.Icc 1 count).val.map a

omit [LinearOrder α] in
@[simp] theorem contents_zero (a : Nat → α) : contents a 0 = 0 := rfl

omit [LinearOrder α] in
@[simp] theorem card_contents (a : Nat → α) (count : Nat) :
    (contents a count).card = count := by
  simp [contents]

omit [LinearOrder α] in
theorem contents_succ (a : Nat → α) (count : Nat) :
    contents a (count + 1) = a (count + 1) ::ₘ contents a count := by
  have hmem : count + 1 ∉ Finset.Icc 1 count := by simp
  have hinsert : Finset.Icc 1 (count + 1) = insert (count + 1) (Finset.Icc 1 count) := by
    ext i
    simp only [Finset.mem_Icc, Finset.mem_insert]
    omega
  unfold contents
  rw [hinsert, Finset.insert_val_of_notMem hmem, Multiset.map_cons]

omit [LinearOrder α] in
theorem contents_congr {a b : Nat → α} {count : Nat}
    (h : ∀ i, 1 ≤ i → i ≤ count → a i = b i) : contents a count = contents b count := by
  apply Multiset.map_congr rfl
  intro i hi
  obtain ⟨hlow, hhigh⟩ := Finset.mem_Icc.mp (Finset.mem_val.mp hi)
  exact h i hlow hhigh

omit [LinearOrder α] in
theorem mem_contents {a : Nat → α} {count : Nat} {i : Nat} (hlow : 1 ≤ i) (hhigh : i ≤ count) :
    a i ∈ contents a count :=
  Multiset.mem_map_of_mem a (Finset.mem_Icc.mpr ⟨hlow, hhigh⟩)

omit [LinearOrder α] in
theorem swap_eq_comp (a : Nat → α) (i j : Nat) : swap a i j = a ∘ Equiv.swap i j := by
  funext k
  simp only [swap, Function.comp, Equiv.swap_apply_def]
  split
  · rfl
  · split <;> rfl

omit [LinearOrder α] in
theorem contents_swap (a : Nat → α) {count i j : Nat} (hi : 1 ≤ i ∧ i ≤ count)
    (hj : 1 ≤ j ∧ j ≤ count) : contents (swap a i j) count = contents a count := by
  have himage : (Finset.Icc 1 count).map (Equiv.swap i j).toEmbedding = Finset.Icc 1 count := by
    apply Finset.eq_of_subset_of_card_le
    · intro k hk
      obtain ⟨m, hm, rfl⟩ := Finset.mem_map.mp hk
      simp only [Finset.mem_Icc, Equiv.coe_toEmbedding, Equiv.swap_apply_def] at hm ⊢
      split
      · exact hj
      · split
        · exact hi
        · exact hm
    · rw [Finset.card_map]
  unfold contents
  rw [swap_eq_comp, ← Multiset.map_map]
  congr 1
  exact congrArg Finset.val himage

theorem contents_siftUp (a : Nat → α) {count child : Nat} (fuel : Nat)
    (hlow : 1 ≤ child) (hhigh : child ≤ count) :
    contents (siftUp a child fuel) count = contents a count := by
  induction fuel generalizing a child with
  | zero => rfl
  | succ fuel ih =>
    unfold siftUp
    split
    · rename_i hcond
      rw [ih _ (by omega) (by omega), contents_swap a ⟨hlow, hhigh⟩ (by omega)]
    · rfl

theorem pickChild_pos (a : Nat → α) (count : Nat) {parent : Nat} (h : 1 ≤ parent) :
    1 ≤ pickChild a count parent := by
  unfold pickChild
  split
  · split <;> omega
  · omega

theorem contents_siftDown (a : Nat → α) {count parent : Nat} (fuel : Nat)
    (hlow : 1 ≤ parent) (hhigh : parent ≤ count) :
    contents (siftDown a count parent fuel) count = contents a count := by
  induction fuel generalizing a parent with
  | zero => rfl
  | succ fuel ih =>
    unfold siftDown
    split
    · rename_i hcond
      have hpick := pickChild_pos a count hlow
      rw [ih _ hpick hcond.1, contents_swap a ⟨hpick, hcond.1⟩ ⟨hlow, hhigh⟩]
    · rfl

theorem siftUp_root (a : Nat → α) {child : Nat} (fuel : Nat) (h : ¬ a child < a 1)
    (hchild : 1 < child) : siftUp a child fuel 1 = a 1 := by
  induction fuel generalizing a child with
  | zero => rfl
  | succ fuel ih =>
    unfold siftUp
    split
    · rename_i hcond
      -- the moved value reaches the root only by being smaller than it
      have hparent : 1 < child / 2 := by
        by_contra hroot
        have : child / 2 = 1 := by omega
        rw [this] at hcond
        exact h hcond.2
      have hone : swap a child (child / 2) 1 = a 1 := by
        unfold swap
        rw [if_neg (by omega), if_neg (by omega)]
      have hmoved : swap a child (child / 2) (child / 2) = a child := by
        unfold swap
        rw [if_neg (by omega), if_pos rfl]
      rw [ih _ (by rwa [hone, hmoved]) hparent, hone]
    · rfl

omit [LinearOrder α] in
theorem swap_left (a : Nat → α) (i j : Nat) : swap a i j i = a j := by
  simp [swap]

omit [LinearOrder α] in
theorem swap_right (a : Nat → α) (i j : Nat) : swap a i j j = a i := by
  unfold swap
  split
  · rename_i h; rw [h]
  · simp

omit [LinearOrder α] in
theorem swap_other (a : Nat → α) {i j k : Nat} (hi : k ≠ i) (hj : k ≠ j) :
    swap a i j k = a k := by
  simp [swap, hi, hj]

section All

variable {P : α → Prop}

omit [LinearOrder α] in
theorem all_swap {a : Nat → α} (h : ∀ i, P (a i)) (i j : Nat) : ∀ k, P (swap a i j k) := by
  intro k
  unfold swap
  split
  · exact h j
  · split
    · exact h i
    · exact h k

theorem all_siftUp {a : Nat → α} (h : ∀ i, P (a i)) (child fuel : Nat) :
    ∀ k, P (siftUp a child fuel k) := by
  induction fuel generalizing a child with
  | zero => exact h
  | succ fuel ih =>
    unfold siftUp
    split
    · exact ih (all_swap h _ _) _
    · exact h

theorem all_siftDown {a : Nat → α} (h : ∀ i, P (a i)) (count parent fuel : Nat) :
    ∀ k, P (siftDown a count parent fuel k) := by
  induction fuel generalizing a parent with
  | zero => exact h
  | succ fuel ih =>
    unfold siftDown
    split
    · exact ih (all_swap h _ _) _
    · exact h

end All

def Ordered (a : Nat → α) (count : Nat) : Prop :=
  ∀ i, 1 < i → i ≤ count → a (i / 2) ≤ a i

theorem Ordered.root_le {a : Nat → α} {count : Nat} (h : Ordered a count) (i : Nat)
    (hlow : 1 ≤ i) (hhigh : i ≤ count) : a 1 ≤ a i := by
  induction i using Nat.strongRecOn with
  | ind i ih =>
    by_cases hone : i = 1
    · rw [hone]
    · have hparent := ih (i / 2) (by omega) (by omega) (by omega)
      exact hparent.trans (h i (by omega) hhigh)

/-- Ordered but for the cell `child`, whose children are not below its parent. -/
structure UpOrdered (a : Nat → α) (count child : Nat) : Prop where
  above : ∀ i, 1 < i → i ≤ count → i ≠ child → a (i / 2) ≤ a i
  below : ∀ i, 1 < child → i ≤ count → i / 2 = child → a (child / 2) ≤ a i

theorem UpOrdered.move {a : Nat → α} {count child : Nat} (h : UpOrdered a count child)
    (hchild : 1 < child) (hcount : child ≤ count) (hless : a child < a (child / 2)) :
    UpOrdered (swap a child (child / 2)) count (child / 2) := by
  constructor
  · intro i hlow hhigh hne
    by_cases hi : i = child
    · subst hi
      rw [swap_left, swap_right]
      exact hless.le
    · rw [swap_other a hi hne]
      by_cases hc : i / 2 = child
      · rw [hc, swap_left]
        exact h.below i hchild hhigh hc
      · by_cases hp : i / 2 = child / 2
        · rw [hp, swap_right]
          have hle := h.above i hlow hhigh hi
          rw [hp] at hle
          exact hless.le.trans hle
        · rw [swap_other a hc hp]
          exact h.above i hlow hhigh hi
  · intro i hgrand hhigh hparent
    have hup := h.above (child / 2) hgrand (by omega) (by omega)
    rw [swap_other a (show child / 2 / 2 ≠ child by omega)
      (show child / 2 / 2 ≠ child / 2 by omega)]
    by_cases hi : i = child
    · rw [hi, swap_left]
      exact hup
    · rw [swap_other a hi (by omega)]
      have hle := h.above i (by omega) hhigh hi
      rw [hparent] at hle
      exact hup.trans hle

theorem ordered_siftUp {a : Nat → α} {count child fuel : Nat} (h : UpOrdered a count child)
    (hlow : 1 ≤ child) (hcount : child ≤ count) (hfuel : child ≤ fuel) :
    Ordered (siftUp a child fuel) count := by
  induction fuel generalizing a child with
  | zero => omega
  | succ fuel ih =>
    unfold siftUp
    split
    · rename_i hcond
      exact ih (h.move hcond.1 hcount hcond.2) (by omega) (by omega) (by omega)
    · rename_i hcond
      intro i hi hhigh
      by_cases hchild : i = child
      · subst hchild
        by_contra hlt
        exact hcond ⟨hi, not_le.mp hlt⟩
      · exact h.above i hi hhigh hchild

/-- Ordered but for the children of `parent`, which are not below its own parent. -/
structure DownOrdered (a : Nat → α) (count parent : Nat) : Prop where
  away : ∀ i, 1 < i → i ≤ count → i / 2 ≠ parent → a (i / 2) ≤ a i
  below : ∀ i, 1 < parent → i ≤ count → i / 2 = parent → a (parent / 2) ≤ a i

theorem pickChild_half (a : Nat → α) (count parent : Nat) :
    pickChild a count parent / 2 = parent := by
  unfold pickChild
  split
  · split <;> omega
  · omega

theorem pickChild_le (a : Nat → α) {count parent i : Nat} (hi : i ≤ count)
    (hhalf : i / 2 = parent) :
    pickChild a count parent ≤ count ∧ a (pickChild a count parent) ≤ a i := by
  have hcases : i = parent * 2 ∨ i = parent * 2 + 1 := by omega
  unfold pickChild
  split
  · split
    · rename_i hboth hless
      refine ⟨by omega, ?_⟩
      rcases hcases with rfl | rfl
      · exact le_rfl
      · exact hless.le
    · rename_i hboth hless
      refine ⟨by omega, ?_⟩
      rcases hcases with rfl | rfl
      · exact not_lt.mp hless
      · exact le_rfl
  · have heq : i = parent * 2 := by omega
    subst heq
    exact ⟨hi, le_rfl⟩

theorem DownOrdered.move {a : Nat → α} {count parent : Nat} (h : DownOrdered a count parent)
    (hlow : 1 ≤ parent) (hcount : pickChild a count parent ≤ count)
    (hless : a (pickChild a count parent) < a parent) :
    DownOrdered (swap a (pickChild a count parent) parent) count (pickChild a count parent) := by
  have hhalf := pickChild_half a count parent
  have hle : ∀ i, i ≤ count → i / 2 = parent → a (pickChild a count parent) ≤ a i :=
    fun i hi hp => (pickChild_le a hi hp).2
  generalize pickChild a count parent = child at *
  constructor
  · intro i hi hhigh hne
    by_cases hc : i = child
    · subst hc
      rw [hhalf, swap_left, swap_right]
      exact hless.le
    · by_cases hp : i = parent
      · subst hp
        rw [swap_right, swap_other a hne (by omega)]
        exact h.below child hi hcount hhalf
      · rw [swap_other a hc hp]
        by_cases hsibling : i / 2 = parent
        · rw [hsibling, swap_right]
          exact hle i hhigh hsibling
        · rw [swap_other a hne hsibling]
          exact h.away i hi hhigh hsibling
  · intro i hchild hhigh hparent
    rw [hhalf, swap_right, swap_other a (by omega) (by omega)]
    have hstep := h.away i (by omega) hhigh (by omega)
    rw [hparent] at hstep
    exact hstep

theorem ordered_siftDown {a : Nat → α} {count parent fuel : Nat} (h : DownOrdered a count parent)
    (hlow : 1 ≤ parent) (hfuel : count + 1 ≤ parent + fuel) :
    Ordered (siftDown a count parent fuel) count := by
  induction fuel generalizing a parent with
  | zero =>
    intro i hi hhigh
    exact h.away i hi hhigh (by omega)
  | succ fuel ih =>
    have hhalf := pickChild_half a count parent
    unfold siftDown
    split
    · rename_i hcond
      exact ih (h.move hlow hcond.1 hcond.2) (by omega) (by omega)
    · rename_i hcond
      intro i hi hhigh
      by_cases hp : i / 2 = parent
      · obtain ⟨hpick, hle⟩ := pickChild_le a hhigh hp
        rw [hp]
        have hnot : ¬ a (pickChild a count parent) < a parent := fun hlt => hcond ⟨hpick, hlt⟩
        exact (not_lt.mp hnot).trans hle
      · exact h.away i hi hhigh hp

theorem upTouches_some (a : Nat → α) {child fuel : Nat} (hlow : 1 ≤ child) (hfuel : child ≤ fuel) :
    ∃ touched, upTouches a child fuel = some touched ∧ ∀ i ∈ touched, 1 ≤ i ∧ i ≤ child := by
  induction fuel generalizing a child with
  | zero => omega
  | succ fuel ih =>
    unfold upTouches
    split
    · rename_i hchild
      have hturn : ∀ i ∈ [child, child / 2], 1 ≤ i ∧ i ≤ child := by
        intro i hi
        simp only [List.mem_cons, List.not_mem_nil, or_false] at hi
        omega
      split
      · obtain ⟨touched, hrest, hbounds⟩ :=
          ih (swap a child (child / 2)) (show 1 ≤ child / 2 by omega) (by omega)
        refine ⟨[child, child / 2] ++ touched, by rw [hrest]; rfl, fun i hi => ?_⟩
        rcases List.mem_append.mp hi with hi | hi
        · exact hturn i hi
        · have := hbounds i hi
          omega
      · exact ⟨_, rfl, hturn⟩
    · exact ⟨[], rfl, nofun⟩

theorem pickTouches_bounds (count : Nat) {parent : Nat} (hlow : 1 ≤ parent) :
    ∀ i ∈ pickTouches count parent, 1 ≤ i ∧ i ≤ count := by
  intro i hi
  unfold pickTouches at hi
  split at hi
  · simp only [List.mem_cons, List.not_mem_nil, or_false] at hi
    omega
  · cases hi

/-- The loop ends, and stays inside the heap. With a cell below `parent` the fuel is not spent. -/
theorem downTouches_some (a : Nat → α) {count parent fuel : Nat} (hlow : 1 ≤ parent)
    (hpos : 0 < fuel) (hfuel : count + 1 ≤ parent + fuel) :
    ∃ touched, downTouches a count parent fuel = some touched ∧
      ∀ i ∈ touched, 1 ≤ i ∧ i ≤ count := by
  induction fuel generalizing a parent with
  | zero => omega
  | succ fuel ih =>
    have hhalf := pickChild_half a count parent
    have hpick := pickTouches_bounds count hlow
    unfold downTouches
    dsimp only
    split
    · rename_i hchild
      have hturn : ∀ i ∈ pickTouches count parent ++ [pickChild a count parent, parent],
          1 ≤ i ∧ i ≤ count := by
        intro i hi
        rcases List.mem_append.mp hi with hi | hi
        · exact hpick i hi
        · simp only [List.mem_cons, List.not_mem_nil, or_false] at hi
          omega
      split
      · obtain ⟨touched, hrest, hbounds⟩ :=
          ih (swap a (pickChild a count parent) parent)
            (show 1 ≤ pickChild a count parent by omega) (by omega) (by omega)
        refine ⟨pickTouches count parent ++ [pickChild a count parent, parent] ++ touched,
          by rw [hrest]; rfl, fun i hi => ?_⟩
        rcases List.mem_append.mp hi with hi | hi
        · exact hturn i hi
        · exact hbounds i hi
      · exact ⟨_, rfl, hturn⟩
    · exact ⟨_, rfl, hpick⟩

/-- On an array that agrees with `a` on the cells `touched`, `f` does there what it does on `a`,
and it changes no other cell. -/
def Local (f : (Nat → α) → Nat → α) (a : Nat → α) (touched : List Nat) : Prop :=
  ∀ b, (∀ i ∈ touched, b i = a i) → ∀ i, f b i = if i ∈ touched then f a i else b i

section

omit [LinearOrder α]

variable {f g : (Nat → α) → Nat → α} {a : Nat → α} {l m : List Nat}

theorem local_id (a : Nat → α) (l : List Nat) : Local id a l := by
  intro b hb i
  split
  · rename_i hi
    exact hb i hi
  · rfl

theorem local_swap (a : Nat → α) (x y : Nat) : Local (swap · x y) a [x, y] := by
  intro b hb i
  have hx := hb x (by simp)
  have hy := hb y (by simp)
  by_cases hi : i ∈ [x, y]
  · simp only [if_pos hi, swap, hx, hy, hb i hi]
  · simp only [List.mem_cons, List.not_mem_nil, or_false, not_or] at hi
    simp [swap, hi.1, hi.2]

theorem Local.comp (hf : Local f a l) (hg : Local g (f a) m) :
    Local (fun b => g (f b)) a (l ++ m) := by
  intro b hb i
  have hfb := hf b fun i hi => hb i (List.mem_append_left m hi)
  have hagree : ∀ i ∈ m, f b i = f a i := by
    intro i hi
    have hself := hf a (fun _ _ => rfl) i
    rw [hfb]
    split
    · rfl
    · rename_i hl
      rw [hself, if_neg hl, hb i (List.mem_append_right l hi)]
  dsimp only
  rw [hg (f b) hagree]
  by_cases hm : i ∈ m
  · rw [if_pos hm, if_pos (List.mem_append_right l hm)]
  · rw [if_neg hm, hg (f a) (fun _ _ => rfl), if_neg hm, hfb]
    simp [hm]

theorem Local.congr (hg : Local g a l) (hfg : ∀ b, (∀ i ∈ l, b i = a i) → f b = g b) :
    Local f a l := by
  intro b hb i
  rw [hfg b hb, hfg a fun _ _ => rfl]
  exact hg b hb i

end

theorem siftUp_local {a : Nat → α} {child fuel : Nat} {touched : List Nat}
    (h : upTouches a child fuel = some touched) : Local (siftUp · child fuel) a touched := by
  induction fuel generalizing a child touched with
  | zero => cases h
  | succ fuel ih =>
    unfold upTouches at h
    split at h
    · rename_i hchild
      split at h
      · rename_i hless
        obtain ⟨rest, hrest, rfl⟩ := Option.map_eq_some_iff.mp h
        refine ((local_swap a child (child / 2)).comp (ih hrest)).congr fun b hb => ?_
        rw [siftUp, hb child (by simp), hb (child / 2) (by simp), if_pos ⟨hchild, hless⟩]
      · rename_i hless
        cases Option.some.inj h
        refine (local_id a _).congr fun b hb => ?_
        rw [siftUp, hb child (by simp), hb (child / 2) (by simp), if_neg fun hlt => hless hlt.2]
        rfl
    · rename_i hchild
      refine (local_id a _).congr fun b _ => ?_
      rw [siftUp, if_neg fun hlt => hchild hlt.1]
      rfl

theorem pickChild_congr {a b : Nat → α} {count parent : Nat}
    (hab : ∀ i ∈ pickTouches count parent, b i = a i) :
    pickChild b count parent = pickChild a count parent := by
  unfold pickChild
  split
  · rename_i hboth
    rw [pickTouches, if_pos hboth] at hab
    rw [hab _ (by simp), hab (parent * 2 + 1) (by simp)]
  · rfl

theorem siftDown_local {a : Nat → α} {count parent fuel : Nat} {touched : List Nat}
    (h : downTouches a count parent fuel = some touched) :
    Local (siftDown · count parent fuel) a touched := by
  induction fuel generalizing a parent touched with
  | zero => cases h
  | succ fuel ih =>
    unfold downTouches at h
    dsimp only at h
    generalize hpick : pickChild a count parent = child at h
    have hsame : ∀ b : Nat → α, (∀ i ∈ pickTouches count parent, b i = a i) →
        pickChild b count parent = child := fun b hb => (pickChild_congr hb).trans hpick
    split at h
    · rename_i hchild
      split at h
      · rename_i hless
        obtain ⟨rest, hrest, rfl⟩ := Option.map_eq_some_iff.mp h
        refine (((local_id a (pickTouches count parent)).comp
          (local_swap a child parent)).comp (ih hrest)).congr fun b hb => ?_
        rw [siftDown, hsame b fun i hi => hb i (by simp [hi]), hb child (by simp),
          hb parent (by simp), if_pos ⟨hchild, hless⟩]
        rfl
      · rename_i hless
        cases Option.some.inj h
        refine (local_id a _).congr fun b hb => ?_
        rw [siftDown, hsame b fun i hi => hb i (by simp [hi]), hb child (by simp),
          hb parent (by simp), if_neg fun hlt => hless hlt.2]
        rfl
    · rename_i hchild
      cases Option.some.inj h
      refine (local_id a _).congr fun b hb => ?_
      rw [siftDown, hsame b hb, if_neg fun hlt => hchild hlt.1]
      rfl

end ArrayHeap

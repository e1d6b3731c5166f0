import Mathlib.Data.Finset.Card
import Mathlib.Data.List.Induction
import Mathlib.Logic.Function.Basic
import Mathlib.Order.Basic

/-! Forests of blocks. A block holds entries that name further blocks, and 0 names none. A
place in a tree is the path of entries that leads to it from the root. -/
namespace BlockTree

section

variable (entry : Nat → Nat → Nat)

/-- Follow the entries `js` down from the block `a`; 0 if one is missing. -/
def follow : List Nat → Nat → Nat
  | [], a => a
  | j :: js, a => if a = 0 then 0 else follow js (entry a j)

@[simp] theorem follow_zero (js : List Nat) : follow entry js 0 = 0 := by
  cases js <;> simp [follow]

theorem follow_append (js ks : List Nat) (a : Nat) :
    follow entry (js ++ ks) a = follow entry ks (follow entry js a) := by
  induction js generalizing a with
  | nil => rfl
  | cons j js ih =>
    by_cases ha : a = 0
    · simp [ha]
    · simp only [List.cons_append, follow, if_neg ha, ih]

theorem follow_snoc (js : List Nat) (j a : Nat) :
    follow entry (js ++ [j]) a =
      if follow entry js a = 0 then 0 else entry (follow entry js a) j := by
  rw [follow_append]
  rfl

end

variable {entry entry' : Nat → Nat → Nat}

theorem follow_bare {b : Nat} (h : ∀ j, entry b j = 0) {js : List Nat} (hjs : js ≠ []) :
    follow entry js b = 0 := by
  cases js with
  | nil => exact absurd rfl hjs
  | cons j js => simp [follow, h]

variable {ι : Type}

/-- Trees of the given heights; a block has `width` entries. -/
structure Forest (ι : Type) where
  width : Nat
  height : ι → Nat
  root : ι → Nat
  entry : Nat → Nat → Nat

namespace Forest

variable {f f' f'' : Forest ι} {used used' used'' : Nat → Prop} {i i' : ι} {js js' : List Nat}
  {j b : Nat}

def Fits (f : Forest ι) (i : ι) (js : List Nat) : Prop :=
  js.length ≤ f.height i ∧ ∀ j ∈ js, j < f.width

theorem fits_nil (f : Forest ι) (i : ι) : f.Fits i [] := ⟨Nat.zero_le _, by simp⟩

theorem Fits.left (h : f.Fits i (js ++ js')) : f.Fits i js := by
  refine ⟨?_, fun k hk => h.2 k (List.mem_append_left _ hk)⟩
  have hlen := h.1
  rw [List.length_append] at hlen
  omega

theorem Fits.init (h : f.Fits i (js ++ [j])) : f.Fits i js := h.left

def block (f : Forest ι) (i : ι) (js : List Nat) : Nat := follow f.entry js (f.root i)

theorem block_snoc (f : Forest ι) (i : ι) (js : List Nat) (j : Nat) :
    f.block i (js ++ [j]) = if f.block i js = 0 then 0 else f.entry (f.block i js) j :=
  follow_snoc _ _ _ _

/-- No block stands at two places, and every block that stands somewhere is in use. -/
structure Sound (f : Forest ι) (used : Nat → Prop) : Prop where
  zero : used 0
  marked : ∀ i js, f.Fits i js → used (f.block i js)
  distinct : ∀ i js i' js', f.Fits i js → f.Fits i' js' → f.block i js ≠ 0 →
    f.block i js = f.block i' js' → i = i' ∧ js = js'

structure Gains (f f' : Forest ι) (i : ι) (js : List Nat) (b : Nat) : Prop where
  width : f'.width = f.width
  height : f'.height = f.height
  fits : f.Fits i js
  before : f.block i js = 0
  after : f'.block i js = b
  others : ∀ i' js', f.Fits i' js' → ¬ (i' = i ∧ js' = js) → f'.block i' js' = f.block i' js'

theorem Gains.fits_iff (h : Gains f f' i js b) : f'.Fits i' js' ↔ f.Fits i' js' := by
  unfold Fits
  rw [h.width, h.height]

def missing (f : Forest ι) (places : Finset (ι × List Nat)) : Finset (ι × List Nat) :=
  places.filter fun p => f.block p.1 p.2 = 0

theorem Gains.missing [DecidableEq ι] {places : Finset (ι × List Nat)} (h : Gains f f' i js b)
    (hb : b ≠ 0) (hfits : ∀ p ∈ places, f.Fits p.1 p.2) :
    f'.missing places = (f.missing places).erase (i, js) := by
  ext p
  simp only [Forest.missing, Finset.mem_filter, Finset.mem_erase]
  by_cases hp : p = (i, js)
  · subst hp
    simp [h.after, hb]
  · constructor
    · rintro ⟨hmem, hzero⟩
      rw [h.others p.1 p.2 (hfits p hmem) fun heq => hp (Prod.ext heq.1 heq.2)] at hzero
      exact ⟨hp, hmem, hzero⟩
    · rintro ⟨-, hmem, hzero⟩
      rw [h.others p.1 p.2 (hfits p hmem) fun heq => hp (Prod.ext heq.1 heq.2)]
      exact ⟨hmem, hzero⟩

theorem Gains.card_missing [DecidableEq ι] {places : Finset (ι × List Nat)}
    (h : Gains f f' i js b) (hb : b ≠ 0) (hfits : ∀ p ∈ places, f.Fits p.1 p.2)
    (hmem : (i, js) ∈ places) : (f'.missing places).card + 1 = (f.missing places).card := by
  rw [h.missing hb hfits]
  apply Finset.card_erase_add_one
  exact Finset.mem_filter.mpr ⟨hmem, h.before⟩

theorem Sound.gains (h : f.Sound used) (hgains : Gains f f' i js b) (hfree : ¬ used b)
    (hused : ∀ x, used' x ↔ used x ∨ x = b) : f'.Sound used' where
  zero := (hused 0).mpr (.inl h.zero)
  marked := by
    intro i' js' hfits
    rw [hgains.fits_iff] at hfits
    rw [hused]
    by_cases hplace : i' = i ∧ js' = js
    · exact .inr (by rw [hplace.1, hplace.2, hgains.after])
    · rw [hgains.others i' js' hfits hplace]
      exact .inl (h.marked i' js' hfits)
  distinct := by
    intro i1 js1 i2 js2 h1 h2 hne heq
    rw [hgains.fits_iff] at h1 h2
    by_cases hp1 : i1 = i ∧ js1 = js
    · by_cases hp2 : i2 = i ∧ js2 = js
      · exact ⟨hp1.1.trans hp2.1.symm, hp1.2.trans hp2.2.symm⟩
      · rw [hp1.1, hp1.2, hgains.after, hgains.others i2 js2 h2 hp2] at heq
        exact absurd (heq ▸ h.marked i2 js2 h2) hfree
    · by_cases hp2 : i2 = i ∧ js2 = js
      · rw [hp2.1, hp2.2, hgains.after, hgains.others i1 js1 h1 hp1] at heq
        exact absurd (heq ▸ h.marked i1 js1 h1) hfree
      · rw [hgains.others i1 js1 h1 hp1] at hne heq
        rw [hgains.others i2 js2 h2 hp2] at heq
        exact h.distinct i1 js1 i2 js2 h1 h2 hne heq

theorem Sound.plant [DecidableEq ι] (h : f.Sound used) (hempty : f.root i = 0) (hfree : ¬ used b)
    (hbare : ∀ k, entry' b k = 0) (hsame : ∀ a, a ≠ b → entry' a = f.entry a) :
    Gains f ⟨f.width, f.height, Function.update f.root i b, entry'⟩ i [] b := by
  refine ⟨rfl, rfl, f.fits_nil i, hempty, ?_, fun i' js' hfits hplace => ?_⟩
  · simp [block, follow]
  · by_cases hi : i' = i
    · subst hi
      have hjs : js' ≠ [] := fun hnil => hplace ⟨rfl, hnil⟩
      simp only [block, Function.update_self, hempty, follow_zero]
      exact follow_bare hbare hjs
    · simp only [block, Function.update_of_ne hi]
      -- the tree does not reach `b`, and other blocks keep their entries
      induction js' using List.reverseRecOn with
      | nil => rfl
      | append_singleton js k ih =>
        have hblock : follow entry' js (f.root i') = f.block i' js :=
          ih hfits.init fun heq => hi heq.1
        rw [follow_snoc, follow_snoc, hblock]
        have hne : f.block i' js ≠ b := fun heq => hfree (heq ▸ h.marked i' js hfits.init)
        rw [hsame _ hne]
        rfl

theorem Sound.attach [DecidableEq ι] (h : f.Sound used) (hfits : f.Fits i (js ++ [j]))
    (hnode : f.block i js ≠ 0) (hempty : f.entry (f.block i js) j = 0) (hfree : ¬ used b)
    (hentry : entry' (f.block i js) j = b) (hbare : ∀ k, entry' b k = 0)
    (hsame : ∀ a k, a ≠ b → ¬ (a = f.block i js ∧ k = j) → entry' a k = f.entry a k) :
    Gains f ⟨f.width, f.height, f.root, entry'⟩ i (js ++ [j]) b := by
  have hb : b ≠ 0 := fun hzero => hfree (hzero ▸ h.zero)
  -- by induction along the path: only the new place changes
  have hblock : ∀ i' js', f.Fits i' js' → follow entry' js' (f.root i') =
      if i' = i ∧ js' = js ++ [j] then b else f.block i' js' := by
    intro i' js'
    induction js' using List.reverseRecOn with
    | nil =>
      intro _
      rw [if_neg (by simp)]
      rfl
    | append_singleton js' k ih =>
      intro hfits'
      rw [follow_snoc, block_snoc, ih hfits'.init]
      by_cases hnew : i' = i ∧ js' = js ++ [j]
      · -- below the new block, which has no entries
        have hlen : ¬ (i' = i ∧ js' ++ [k] = js ++ [j]) := by
          rintro ⟨-, heq⟩
          have hlast := congrArg List.length (List.append_inj_left' heq rfl)
          rw [hnew.2, List.length_append] at hlast
          simp at hlast
        have hbefore : f.block i' js' = 0 := by
          rw [hnew.1, hnew.2, block_snoc, if_neg hnode, hempty]
        rw [if_pos hnew, if_neg hlen, if_neg hb, hbare, if_pos hbefore]
      · rw [if_neg hnew]
        by_cases hzero : f.block i' js' = 0
        · have hother : ¬ (i' = i ∧ js' ++ [k] = js ++ [j]) := by
            rintro ⟨rfl, heq⟩
            rw [List.append_inj_left' heq rfl] at hzero
            exact hnode hzero
          rw [if_pos hzero, if_neg hother, if_pos hzero]
        · rw [if_neg hzero, if_neg hzero]
          have hne : f.block i' js' ≠ b :=
            fun heq => hfree (heq ▸ h.marked i' js' hfits'.init)
          by_cases hplace : i' = i ∧ js' ++ [k] = js ++ [j]
          · obtain ⟨hjs, hk⟩ := List.append_inj' hplace.2 rfl
            rw [if_pos hplace, hplace.1, hjs, List.head_eq_of_cons_eq hk, hentry]
          · rw [if_neg hplace]
            apply hsame _ _ hne
            rintro ⟨heq, rfl⟩
            obtain ⟨rfl, rfl⟩ := h.distinct i' js' i js hfits'.init hfits.init hzero heq
            exact hplace ⟨rfl, rfl⟩
  refine ⟨rfl, rfl, hfits, ?_, ?_, fun i' js' hfits' hplace => ?_⟩
  · rw [block_snoc, if_neg hnode, hempty]
  · exact (hblock i _ hfits).trans (if_pos ⟨rfl, rfl⟩)
  · exact (hblock i' js' hfits').trans (if_neg hplace)

theorem block_congr (hsame : ∀ i js, f.Fits i js → js.length < f.height i → f.block i js ≠ 0 →
    entry' (f.block i js) = f.entry (f.block i js)) (hfits : f.Fits i js) :
    block ⟨f.width, f.height, f.root, entry'⟩ i js = f.block i js := by
  induction js using List.reverseRecOn with
  | nil => rfl
  | append_singleton js k ih =>
    rw [block_snoc, block_snoc, ih hfits.init]
    by_cases hzero : f.block i js = 0
    · rw [if_pos hzero, if_pos hzero]
    · have hlen : js.length < f.height i := by
        have hle := hfits.1
        rw [List.length_append] at hle
        exact hle
      rw [if_neg hzero, if_neg hzero]
      exact congrFun (hsame i js hfits.init hlen hzero) k

/-- `f'` is `f` with blocks added that were not in use. -/
structure Extends (f f' : Forest ι) (used used' : Nat → Prop) : Prop where
  width : f'.width = f.width
  height : f'.height = f.height
  keeps : ∀ i js, f.Fits i js → f.block i js ≠ 0 → f'.block i js = f.block i js
  fresh : ∀ i js, f.Fits i js → f'.block i js ≠ f.block i js → ¬ used (f'.block i js)
  marks : ∀ x, used' x ↔ used x ∨ ∃ i js, f.Fits i js ∧ f'.block i js = x

theorem Extends.fits_iff (h : Extends f f' used used') : f'.Fits i js ↔ f.Fits i js := by
  unfold Fits
  rw [h.width, h.height]

theorem Sound.extends_refl (h : f.Sound used) : Extends f f used used where
  width := rfl
  height := rfl
  keeps := fun _ _ _ _ => rfl
  fresh := fun _ _ _ hne => absurd rfl hne
  marks := by
    intro x
    refine ⟨.inl, ?_⟩
    rintro (hx | ⟨i, js, hfits, rfl⟩)
    · exact hx
    · exact h.marked i js hfits

theorem Extends.trans (h : Extends f f' used used') (hzero : used 0)
    (h' : Extends f' f'' used' used'') : Extends f f'' used used'' where
  width := h'.width.trans h.width
  height := h'.height.trans h.height
  keeps := by
    intro i js hfits hne
    have hstep := h.keeps i js hfits hne
    rw [h'.keeps i js (h.fits_iff.mpr hfits) (hstep ▸ hne), hstep]
  fresh := by
    intro i js hfits hne
    by_cases hfirst : f'.block i js = f.block i js
    · rw [← hfirst] at hne
      have hclear := h'.fresh i js (h.fits_iff.mpr hfits) hne
      exact fun hused => hclear ((h.marks _).mpr (.inl hused))
    · have hbefore : f.block i js = 0 := by
        by_contra hnode
        exact hfirst (h.keeps i js hfits hnode)
      rw [h'.keeps i js (h.fits_iff.mpr hfits) (hbefore ▸ hfirst)]
      exact h.fresh i js hfits hfirst
  marks := by
    intro x
    rw [h'.marks, h.marks]
    constructor
    · rintro ((hx | ⟨i, js, hfits, rfl⟩) | ⟨i, js, hfits, rfl⟩)
      · exact .inl hx
      · by_cases hnode : f'.block i js = 0
        · rw [hnode]
          exact .inl hzero
        · exact .inr ⟨i, js, hfits, h'.keeps i js (h.fits_iff.mpr hfits) hnode⟩
      · exact .inr ⟨i, js, h.fits_iff.mp hfits, rfl⟩
    · rintro (hx | ⟨i, js, hfits, rfl⟩)
      · exact .inl (.inl hx)
      · exact .inr ⟨i, js, h.fits_iff.mpr hfits, rfl⟩

theorem Sound.extends_gains (h : f.Sound used) (hgains : Gains f f' i js b) (hfree : ¬ used b)
    (hused : ∀ x, used' x ↔ used x ∨ x = b) : Extends f f' used used' where
  width := hgains.width
  height := hgains.height
  keeps := by
    intro i' js' hfits hne
    apply hgains.others i' js' hfits
    rintro ⟨rfl, rfl⟩
    exact hne hgains.before
  fresh := by
    intro i' js' hfits hne
    by_cases hplace : i' = i ∧ js' = js
    · rw [hplace.1, hplace.2, hgains.after]
      exact hfree
    · exact absurd (hgains.others i' js' hfits hplace) hne
  marks := by
    intro x
    rw [hused]
    constructor
    · rintro (hx | rfl)
      · exact .inl hx
      · exact .inr ⟨i, js, hgains.fits, hgains.after⟩
    · rintro (hx | ⟨i', js', hfits, rfl⟩)
      · exact .inl hx
      · by_cases hplace : i' = i ∧ js' = js
        · rw [hplace.1, hplace.2, hgains.after]
          exact .inr rfl
        · rw [hgains.others i' js' hfits hplace]
          exact .inl (h.marked i' js' hfits)

theorem Sound.congr (h : f.Sound used) (hwidth : f'.width = f.width)
    (hheight : f'.height = f.height)
    (hblock : ∀ i js, f.Fits i js → f'.block i js = f.block i js)
    (hused : ∀ x, used' x ↔ used x) : f'.Sound used' ∧ Extends f f' used used' := by
  have hfits : ∀ i js, f'.Fits i js ↔ f.Fits i js := by
    intro i js
    unfold Fits
    rw [hwidth, hheight]
  refine ⟨⟨(hused 0).mpr h.zero, fun i js hi => ?_, fun i js i' js' hi hi' hne heq => ?_⟩,
    hwidth, hheight, fun i js hi _ => hblock i js hi,
    fun i js hi hne => absurd (hblock i js hi) hne, fun x => ?_⟩
  · rw [hfits] at hi
    rw [hblock i js hi, hused]
    exact h.marked i js hi
  · rw [hfits] at hi hi'
    rw [hblock i js hi] at hne heq
    rw [hblock i' js' hi'] at heq
    exact h.distinct i js i' js' hi hi' hne heq
  · rw [hused]
    refine ⟨.inl, ?_⟩
    rintro (hx | ⟨i, js, hi, rfl⟩)
    · exact hx
    · rw [hblock i js hi]
      exact h.marked i js hi

variable {κ : Type} {g g' : Forest κ} {e : κ → ι}

structure Part (g : Forest κ) (f : Forest ι) (e : κ → ι) : Prop where
  injective : Function.Injective e
  width : g.width = f.width
  height : ∀ k, g.height k = f.height (e k)
  root : ∀ k, g.root k = f.root (e k)
  entry : g.entry = f.entry

theorem Part.fits_iff (h : Part g f e) {k : κ} : g.Fits k js ↔ f.Fits (e k) js := by
  unfold Fits
  rw [h.width, h.height]

theorem Part.block (h : Part g f e) (k : κ) (js : List Nat) : g.block k js = f.block (e k) js := by
  unfold Forest.block
  rw [h.root, h.entry]

theorem Sound.part (h : f.Sound used) (hpart : Part g f e) : g.Sound used where
  zero := h.zero
  marked := by
    intro k js hfits
    rw [hpart.block]
    exact h.marked _ _ (hpart.fits_iff.mp hfits)
  distinct := by
    intro k js k' js' hfits hfits' hne heq
    rw [hpart.block] at hne heq
    rw [hpart.block] at heq
    obtain ⟨hk, hjs⟩ := h.distinct _ _ _ _ (hpart.fits_iff.mp hfits) (hpart.fits_iff.mp hfits')
      hne heq
    exact ⟨hpart.injective hk, hjs⟩

theorem Sound.graft (h : f.Sound used) (hpart : Part g f e) (hpart' : Part g' f' e)
    (hsound : g'.Sound used') (hextends : Extends g g' used used') (hwidth : f'.width = f.width)
    (hheight : f'.height = f.height) (hroot : ∀ i, (∀ k, e k ≠ i) → f'.root i = f.root i)
    (hentry : ∀ a, a ≠ 0 → (∀ k js, g.Fits k js → g'.block k js ≠ a) → f'.entry a = f.entry a) :
    f'.Sound used' ∧ Extends f f' used used' := by
  have hfits : ∀ i js, f'.Fits i js ↔ f.Fits i js := by
    intro i js
    unfold Fits
    rw [hwidth, hheight]
  -- the trees outside the part share no block with it, before or after
  have hapart : ∀ i js k ks, (∀ k, e k ≠ i) → f.Fits i js → g.Fits k ks → f.block i js ≠ 0 →
      g'.block k ks ≠ f.block i js := by
    intro i js k ks hout hi hk hne heq
    by_cases hkept : g'.block k ks = g.block k ks
    · rw [hkept, hpart.block] at heq
      exact hout k (h.distinct i js _ _ hi (hpart.fits_iff.mp hk) hne heq.symm).1.symm
    · have hfresh := hextends.fresh k ks hk hkept
      rw [heq] at hfresh
      exact hfresh (h.marked i js hi)
  have hout : ∀ i js, (∀ k, e k ≠ i) → f.Fits i js → f'.block i js = f.block i js := by
    intro i js hout
    induction js using List.reverseRecOn with
    | nil =>
      intro _
      exact hroot i hout
    | append_singleton js j ih =>
      intro hi
      rw [block_snoc, block_snoc, ih hi.init]
      by_cases hzero : f.block i js = 0
      · rw [if_pos hzero, if_pos hzero]
      · rw [if_neg hzero, if_neg hzero,
          hentry _ hzero fun k ks hk => hapart i js k ks hout hi.init hk hzero]
  have hin : ∀ k js, f'.block (e k) js = g'.block k js := fun k js => (hpart'.block k js).symm
  constructor
  · refine ⟨hsound.zero, fun i js hi => ?_, fun i js i' js' hi hi' hne heq => ?_⟩
    · rw [hfits] at hi
      by_cases hi' : ∃ k, e k = i
      · obtain ⟨k, rfl⟩ := hi'
        rw [hin]
        exact hsound.marked k js (hextends.fits_iff.mpr (hpart.fits_iff.mpr hi))
      · rw [hout i js (not_exists.mp hi') hi, hextends.marks]
        exact .inl (h.marked i js hi)
    · rw [hfits] at hi hi'
      by_cases hp : ∃ k, e k = i
      · obtain ⟨k, rfl⟩ := hp
        have hk := hpart.fits_iff.mpr hi
        rw [hin] at hne heq
        by_cases hp' : ∃ k', e k' = i'
        · obtain ⟨k', rfl⟩ := hp'
          rw [hin] at heq
          obtain ⟨rfl, hjs⟩ := hsound.distinct k js k' js' (hextends.fits_iff.mpr hk)
            (hextends.fits_iff.mpr (hpart.fits_iff.mpr hi')) hne heq
          exact ⟨rfl, hjs⟩
        · have hother := not_exists.mp hp'
          rw [hout i' js' hother hi'] at heq
          exact absurd heq (hapart i' js' k js hother hi' hk (heq ▸ hne))
      · have hself := not_exists.mp hp
        rw [hout i js hself hi] at hne heq
        by_cases hp' : ∃ k', e k' = i'
        · obtain ⟨k', rfl⟩ := hp'
          rw [hin] at heq
          exact absurd heq.symm (hapart i js k' js' hself hi (hpart.fits_iff.mpr hi') hne)
        · rw [hout i' js' (not_exists.mp hp') hi'] at heq
          exact h.distinct i js i' js' hi hi' hne heq
  · refine ⟨hwidth, hheight, fun i js hi hne => ?_, fun i js hi hne => ?_, fun x => ?_⟩
    · by_cases hp : ∃ k, e k = i
      · obtain ⟨k, rfl⟩ := hp
        rw [← hpart.block] at hne ⊢
        rw [hin]
        exact hextends.keeps k js (hpart.fits_iff.mpr hi) hne
      · exact hout i js (not_exists.mp hp) hi
    · by_cases hp : ∃ k, e k = i
      · obtain ⟨k, rfl⟩ := hp
        rw [← hpart.block, hin] at hne
        rw [hin]
        exact hextends.fresh k js (hpart.fits_iff.mpr hi) hne
      · exact absurd (hout i js (not_exists.mp hp) hi) hne
    · rw [hextends.marks]
      constructor
      · rintro (hx | ⟨k, js, hk, rfl⟩)
        · exact .inl hx
        · exact .inr ⟨e k, js, hpart.fits_iff.mp hk, hin k js⟩
      · rintro (hx | ⟨i, js, hi, rfl⟩)
        · exact .inl hx
        · by_cases hp : ∃ k, e k = i
          · obtain ⟨k, rfl⟩ := hp
            exact .inr ⟨k, js, hpart.fits_iff.mpr hi, (hin k js).symm⟩
          · rw [hout i js (not_exists.mp hp) hi]
            exact .inl (h.marked i js hi)

theorem Sound.block_leaf (h : f.Sound used) (hfits : f.Fits i js) (hleaf : js.length = f.height i)
    (hwidth : f'.width = f.width) (hheight : f'.height = f.height) (hroot : f'.root = f.root)
    (hsame : ∀ a, a ≠ f.block i js → f'.entry a = f.entry a) {i' : ι} {js' : List Nat}
    (hfits' : f.Fits i' js') : f'.block i' js' = f.block i' js' := by
  have hf' : f' = ⟨f.width, f.height, f.root, f'.entry⟩ := by
    rw [← hwidth, ← hheight, ← hroot]
  rw [hf']
  refine block_congr (fun i1 js1 hfits1 hinner hne => hsame _ fun heq => ?_) hfits'
  obtain ⟨rfl, rfl⟩ := h.distinct i1 js1 i js hfits1 hfits hne heq
  exact absurd hleaf (Nat.ne_of_lt hinner)

structure Drops (f f' : Forest ι) (used used' : Nat → Prop) (gone : ι → Prop) : Prop where
  width : f'.width = f.width
  height : f'.height = f.height
  entry : f'.entry = f.entry
  dropped : ∀ i, gone i → f'.root i = 0
  kept : ∀ i, ¬ gone i → f'.root i = f.root i
  marks : ∀ x, used' x ↔ used x ∧ ¬ (x ≠ 0 ∧ ∃ i js, gone i ∧ f.Fits i js ∧ f.block i js = x)

section

variable {gone : ι → Prop}

theorem Drops.fits_iff (h : Drops f f' used used' gone) : f'.Fits i js ↔ f.Fits i js := by
  unfold Fits
  rw [h.width, h.height]

theorem Drops.block_dropped (h : Drops f f' used used' gone) (hi : gone i) (js : List Nat) :
    f'.block i js = 0 := by
  rw [block, h.dropped i hi, follow_zero]

theorem Drops.block_kept (h : Drops f f' used used' gone) (hi : ¬ gone i) (js : List Nat) :
    f'.block i js = f.block i js := by
  rw [block, block, h.kept i hi, h.entry]

theorem Sound.drops (h : f.Sound used) (hdrops : Drops f f' used used' gone) :
    f'.Sound used' := by
  have hzero : used' 0 := (hdrops.marks 0).mpr ⟨h.zero, fun hx => hx.1 rfl⟩
  refine ⟨hzero, fun i js hi => ?_, fun i js i' js' hi hi' hne heq => ?_⟩
  · rw [hdrops.fits_iff] at hi
    by_cases hg : gone i
    · rw [hdrops.block_dropped hg]
      exact hzero
    · rw [hdrops.block_kept hg, hdrops.marks]
      refine ⟨h.marked i js hi, ?_⟩
      rintro ⟨hne, i', js', hg', hi', heq⟩
      exact hg (by rw [(h.distinct i js i' js' hi hi' hne heq.symm).1]; exact hg')
  · rw [hdrops.fits_iff] at hi hi'
    have hg : ¬ gone i := fun hg => hne (hdrops.block_dropped hg js)
    have hg' : ¬ gone i' := fun hg' => hne (heq.trans (hdrops.block_dropped hg' js'))
    rw [hdrops.block_kept hg] at hne heq
    rw [hdrops.block_kept hg'] at heq
    exact h.distinct i js i' js' hi hi' hne heq

end

/-- The blocks in use are those below `low`, which the forest leaves alone, and the blocks
of the forest, each at one place. -/
structure Owns (f : Forest ι) (used : Nat → Prop) (low : Nat) : Prop where
  sound : f.Sound used
  reserved : ∀ b, b < low → used b
  above : ∀ i js, f.Fits i js → f.block i js ≠ 0 → low ≤ f.block i js
  covered : ∀ b, used b → b < low ∨ ∃ i js, f.Fits i js ∧ f.block i js = b

variable {low : Nat}

theorem Owns.extends (h : f.Owns used low) (hlow : 0 < low) (hsound : f'.Sound used')
    (hextends : Extends f f' used used') : f'.Owns used' low where
  sound := hsound
  reserved := fun b hb => (hextends.marks b).mpr (.inl (h.reserved b hb))
  above := by
    intro i js hfits hne
    rw [hextends.fits_iff] at hfits
    by_cases hkept : f'.block i js = f.block i js
    · rw [hkept] at hne ⊢
      exact h.above i js hfits hne
    · by_contra hbelow
      exact hextends.fresh i js hfits hkept (h.reserved _ (by omega))
  covered := by
    intro b hb
    rcases (hextends.marks b).mp hb with hb | ⟨i, js, hfits, heq⟩
    · rcases h.covered b hb with hbelow | ⟨i, js, hfits, rfl⟩
      · exact .inl hbelow
      · by_cases hzero : f.block i js = 0
        · rw [hzero]
          exact .inl hlow
        · exact .inr ⟨i, js, hextends.fits_iff.mpr hfits, hextends.keeps i js hfits hzero⟩
    · exact .inr ⟨i, js, hextends.fits_iff.mpr hfits, heq⟩

theorem Owns.drops {gone : ι → Prop} (h : f.Owns used low) (hlow : 0 < low)
    (hdrops : Drops f f' used used' gone) : f'.Owns used' low where
  sound := h.sound.drops hdrops
  reserved := by
    intro b hb
    refine (hdrops.marks b).mpr ⟨h.reserved b hb, ?_⟩
    rintro ⟨hne, i, js, -, hfits, rfl⟩
    exact absurd (h.above i js hfits hne) (by omega)
  above := by
    intro i js hfits hne
    rw [hdrops.fits_iff] at hfits
    have hg : ¬ gone i := fun hg => hne (hdrops.block_dropped hg js)
    rw [hdrops.block_kept hg] at hne ⊢
    exact h.above i js hfits hne
  covered := by
    intro b hb
    obtain ⟨hused, hnot⟩ := (hdrops.marks b).mp hb
    rcases h.covered b hused with hbelow | ⟨i, js, hfits, rfl⟩
    · exact .inl hbelow
    · by_cases hzero : f.block i js = 0
      · rw [hzero]
        exact .inl hlow
      · have hg : ¬ gone i := fun hg => hnot ⟨hzero, i, js, hg, hfits, rfl⟩
        exact .inr ⟨i, js, hdrops.fits_iff.mpr hfits, hdrops.block_kept hg js⟩

end Forest

end BlockTree

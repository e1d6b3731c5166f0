import Xv6.Group.Layout

/-! Stacks and heap of a process group. The two pages of an LWP, the regions on the free
list and the ranges granted by `sbrk` come from one growing size, so they stay apart only
as long as `sbrk` keeps away from the regions of the LWPs. -/
namespace Xv6

open Word Fallible Transition

/-- Byte ranges `[fst, snd)` without a common byte. -/
def Apart (r t : Nat × Nat) : Prop := r.2 ≤ t.1 ∨ t.2 ≤ r.1

theorem Apart.symm {r t : Nat × Nat} (h : Apart r t) : Apart t r := Or.symm h

instance (r t : Nat × Nat) : Decidable (Apart r t) := inferInstanceAs (Decidable (_ ∨ _))

def stackRegion (top : Nat) : Nat × Nat := (top - 2 * pgsize, top)

def freeRegion (base : Nat) : Nat × Nat := (base, base + 2 * pgsize)

def cutGrants (limit : Nat) (grants : List (Nat × Nat)) : List (Nat × Nat) :=
  grants.filterMap fun g => if g.1 < limit then some (g.1, min g.2 limit) else none

theorem mem_cutGrants {limit : Nat} {grants : List (Nat × Nat)} {r : Nat × Nat}
    (h : r ∈ cutGrants limit grants) : ∃ g ∈ grants, r.1 = g.1 ∧ r.2 = min g.2 limit := by
  obtain ⟨g, hg, heq⟩ := List.mem_filterMap.mp h
  split at heq
  · cases heq
    exact ⟨g, hg, rfl, rfl⟩
  · cases heq

theorem pairwise_cutGrants (limit : Nat) {grants : List (Nat × Nat)}
    (h : grants.Pairwise Apart) : (cutGrants limit grants).Pairwise Apart := by
  refine List.Pairwise.filterMap _ (fun g g' hapart r hr r' hr' => ?_) h
  split at hr
  · split at hr'
    · cases hr
      cases hr'
      unfold Apart at *
      dsimp only at *
      omega
    · cases hr'
  · cases hr

namespace Kernel

/-- The ranges of the heap after an `sbrk(n)` that answered 0. -/
def regrant (sz : Nat) (n : Int) (grants : List (Nat × Nat)) : List (Nat × Nat) :=
  if 0 < n then (sz, sz + n.toNat) :: grants
  else if n < 0 ∧ 0 ≤ sz + n then cutGrants (sz + n).toNat grants
  else grants

/-- The ranges that the members of the group of `mgr` were granted along a run and have
not given back. -/
def grants (mgr : Slot) : List (Kernel × Act × Out) → List (Nat × Nat)
  | [] => []
  | (k, .sbrk _ n, .ret 0) :: rest => regrant (k.proc mgr).sz n (grants mgr rest)
  | _ :: rest => grants mgr rest

def regions (k : Kernel) (mgr : Slot) : List (Nat × Nat) :=
  (slots.filter fun i => k.InGroup mgr i).map (fun i => stackRegion (k.proc i).sz) ++
    (k.proc mgr).stack.map freeRegion

/-- A process group before its first `thread_create`, with any size. -/
structure Alone (k : Kernel) (mgr : Slot) (d : DirId) : Prop where
  used : (k.proc mgr).state ≠ .unused
  tid : (k.proc mgr).tid = 0
  pgdir : (k.proc mgr).pgdir = some d
  stack : (k.proc mgr).stack = []
  below : (k.proc mgr).sz < kernbase
  tabled : (k.dir d).Tabled
  pages : ∀ q ∈ (k.dir d).pages, q * pgsize < (k.proc mgr).sz
  lwps : ∀ i, ¬ k.InGroup mgr i

structure Stacked (dir : PageDir) (d : DirId) (limit : Nat) (lwp : Layout) (b : Nat) : Prop where
  tid : lwp.tid ≠ 0
  pgdir : lwp.pgdir = some d
  top : lwp.sz = (b + 2) * pgsize
  below : b + 2 ≤ limit
  guard : b ∈ dir.pages
  page : b + 1 ∈ dir.pages

structure Vacant (dir : PageDir) (limit base b : Nat) : Prop where
  base : base = b * pgsize
  below : b + 2 ≤ limit
  guard : b ∉ dir.pages
  page : b + 1 ∉ dir.pages

/-- The layout of a group, with the ranges granted so far. -/
structure LaidOut (table : Slot → Option Layout) (dir : PageDir) (mgr : Slot) (d : DirId)
    (l : Layout) (granted : List (Nat × Nat)) : Prop where
  layout : table mgr = some l
  tid : l.tid = 0
  pgdir : l.pgdir = some d
  below : l.sz < kernbase
  tabled : dir.Tabled
  pages : ∀ q ∈ dir.pages, q < pagesOf l.sz
  lwps : ∀ i lwp, table i = some lwp → lwp.manager = some mgr →
    ∃ b, Stacked dir d (pagesOf l.sz) lwp b
  unique : ∀ i j lwp lwp', i ≠ j → table i = some lwp → table j = some lwp' →
    lwp.manager = some mgr → lwp'.manager = some mgr →
    Apart (stackRegion lwp.sz) (stackRegion lwp'.sz)
  free : ∀ base ∈ l.stack, ∃ b, Vacant dir (pagesOf l.sz) base b
  distinct : l.stack.Pairwise fun x y => Apart (freeRegion x) (freeRegion y)
  ends : ∀ g ∈ granted, g.2 ≤ l.sz
  grants : granted.Pairwise Apart
  grantsLwps : ∀ g ∈ granted, ∀ i lwp, table i = some lwp → lwp.manager = some mgr →
    Apart g (stackRegion lwp.sz)
  grantsFree : ∀ g ∈ granted, ∀ base ∈ l.stack, Apart g (freeRegion base)

theorem laidOut_of_alone {k : Kernel} {mgr : Slot} {d : DirId} (h : Alone k mgr d) :
    ∃ l, LaidOut k.layout (k.dir d) mgr d l [] := by
  have hlwps : ∀ i lwp, k.layout i = some lwp → lwp.manager ≠ some mgr := by
    intro i lwp hi hmgr
    obtain ⟨hused, -, -, -, hmanager, -⟩ := layout_eq_some hi
    exact h.lwps i ⟨hused, hmanager.trans hmgr⟩
  refine ⟨_, Proc.layout_used h.used, h.tid, h.pgdir, h.below, h.tabled, ?_, ?_, ?_, ?_, ?_,
    by simp, .nil, by simp, by simp⟩
  · intro q hq
    exact (lt_pagesOf h.below.le).mpr (h.pages q hq)
  · intro i lwp hi hmgr
    exact absurd hmgr (hlwps i lwp hi)
  · intro i j lwp lwp' _ hi _ hmgr _
    exact absurd hmgr (hlwps i lwp hi)
  · intro base hbase
    rw [h.stack] at hbase
    cases hbase
  · rw [h.stack]
    exact .nil

section

variable {table table' : Slot → Option Layout} {dir dir' : PageDir} {mgr : Slot} {d : DirId}
  {l : Layout} {granted : List (Nat × Nat)}

theorem stackRegion_eq (b : Nat) : stackRegion ((b + 2) * pgsize) = freeRegion (b * pgsize) := by
  unfold stackRegion freeRegion
  rw [Nat.add_mul, Nat.add_sub_cancel]

theorem freeRegion_apart {b c : Nat} :
    Apart (freeRegion (b * pgsize)) (freeRegion (c * pgsize)) ↔ b + 2 ≤ c ∨ c + 2 ≤ b := by
  unfold Apart freeRegion
  rw [← Nat.add_mul, ← Nat.add_mul, mul_pgsize_le, mul_pgsize_le]

theorem Stacked.apart {limit limit' base b c : Nat} {lwp : Layout}
    (h : Stacked dir d limit lwp b) (h' : Vacant dir limit' base c) :
    Apart (stackRegion lwp.sz) (freeRegion base) := by
  have hbc : b ≠ c := fun heq => h'.guard (heq ▸ h.guard)
  have hbc' : b ≠ c + 1 := fun heq => h'.page (heq ▸ h.guard)
  have hcb : b + 1 ≠ c := fun heq => h'.guard (heq ▸ h.page)
  rw [h.top, h'.base, stackRegion_eq]
  exact freeRegion_apart.mpr (by omega)

/-- The region that `thread_create` takes: base page `b`, and what the manager keeps. -/
structure Place (table : Slot → Option Layout) (dir : PageDir) (mgr : Slot) (l l' : Layout)
    (granted : List (Nat × Nat)) (b : Nat) : Prop where
  base : pgroundup l.stackBase = b * pgsize
  vacant : Vacant dir (pagesOf l'.sz) (b * pgsize) b
  size : l.sz ≤ l'.sz
  below : l'.sz < kernbase
  stack : l'.stack ⊆ l.stack
  distinct : l'.stack.Pairwise fun x y => Apart (freeRegion x) (freeRegion y)
  rest : ∀ base ∈ l'.stack, Apart (freeRegion (b * pgsize)) (freeRegion base)
  grants : ∀ g ∈ granted, Apart g (freeRegion (b * pgsize))

theorem LaidOut.place (h : LaidOut table dir mgr d l granted)
    (hroom : l.stack = [] → pgroundup l.sz + 2 * pgsize < kernbase) :
    ∃ b, Place table dir mgr l l.stackTaken granted b := by
  unfold Layout.stackTaken
  have hround := pgroundup_eq h.below.le
  have hpages := pagesOf_eq h.below.le
  cases hlist : l.stack with
  | nil =>
    have hroom := hroom hlist
    have hsz : u32 (l.sz + 2 * pgsize) = l.sz + 2 * pgsize := by
      apply u32_eq_self
      simp only [pgsize, kernbase] at *
      omega
    have hnew : l.sz + 2 * pgsize < kernbase := by
      simp only [pgsize, kernbase] at *
      omega
    have hgrown : pagesOf (l.sz + 2 * pgsize) = pagesOf l.sz + 2 := by
      rw [pagesOf_eq hnew.le, hpages]
      simp only [pgsize]
      omega
    refine ⟨pagesOf l.sz, ?_, ?_, ?_, ?_, ?_, ?_, ?_, ?_⟩
    · simp only [Layout.stackBase, hlist, hround]
    · dsimp only
      rw [hsz, hgrown]
      refine ⟨rfl, le_rfl, fun hmem => ?_, fun hmem => ?_⟩
      · exact absurd (h.pages _ hmem) (by omega)
      · exact absurd (h.pages _ hmem) (by omega)
    · dsimp only
      rw [hsz]
      omega
    · dsimp only
      rw [hsz]
      exact hnew
    · simp [hlist]
    · simp
    · simp
    · intro g hg
      have hend := h.ends g hg
      left
      simp only [freeRegion]
      rw [hpages]
      simp only [pgsize]
      omega
  | cons base rest =>
    obtain ⟨b, hvacant⟩ := h.free base (by simp [hlist])
    have hdistinct := h.distinct
    rw [hlist, List.pairwise_cons] at hdistinct
    have hbase := hvacant.base
    have hlow : b * pgsize ≤ kernbase :=
      (Nat.mul_le_mul_right pgsize ((Nat.le_add_right b 2).trans hvacant.below)).trans
        (pagesOf_le h.below.le)
    rw [hbase] at hvacant hdistinct
    refine ⟨b, ?_, hvacant, le_rfl, h.below, by simp [hlist], hdistinct.2, hdistinct.1, ?_⟩
    · simp only [Layout.stackBase, hlist, hbase]
      rw [pgroundup_eq hlow, pagesOf_mul b hlow]
    · intro g hg
      rw [← hbase]
      exact h.grantsFree g hg base (by simp [hlist])

theorem allocuvm_two {s : Space} {free b result : Nat} (htabled : dir.Tabled)
    (hguard : b ∉ dir.pages) (hpage : b + 1 ∉ dir.pages) (hbelow : (b + 2) * pgsize ≤ kernbase)
    (h : allocuvm ⟨dir, free⟩ (b * pgsize) (u32 (b * pgsize + 2 * pgsize)) = .ok (s, result)) :
    s.dir.Tabled ∧ dir.pages ⊆ s.dir.pages ∧
      (∀ q ∈ s.dir.pages, q ∈ dir.pages ∨ q = b ∨ q = b + 1) ∧
      (result ≠ 0 → result = (b + 2) * pgsize ∧ b ∈ s.dir.pages ∧ b + 1 ∈ s.dir.pages) := by
  have hlow : b * pgsize ≤ kernbase :=
    (Nat.mul_le_mul_right pgsize (Nat.le_add_right b 2)).trans hbelow
  rw [← Nat.add_mul, u32_eq_self (hbelow.trans_lt (by decide))] at h
  have hrange : ∀ q, pagesOf (b * pgsize) ≤ q ∧ q * pgsize < (b + 2) * pgsize ↔
      q = b ∨ q = b + 1 := by
    intro q
    rw [pagesOf_mul b hlow, mul_pgsize_lt]
    omega
  have hmore : ¬ (b + 2) * pgsize < b * pgsize := by
    rw [mul_pgsize_lt]
    omega
  obtain ⟨newsz, hnew⟩ : ∃ newsz, newsz = (b + 2) * pgsize := ⟨_, rfl⟩
  rw [← hnew] at h hrange hmore ⊢
  obtain ⟨htabled', halloc⟩ := allocuvm_spec htabled h
  refine ⟨htabled', ?_⟩
  cases halloc with
  | refused _ hdir =>
    rw [hdir]
    exact ⟨Finset.Subset.refl _, fun q hq => .inl hq, by simp⟩
  | smaller hless _ => exact absurd hless hmore
  | grown _ _ hpages =>
    simp only [hrange] at hpages
    refine ⟨fun q hq => (hpages q).mpr (.inl hq), fun q hq => (hpages q).mp hq, fun _ => ?_⟩
    exact ⟨rfl, (hpages b).mpr (.inr (.inl rfl)), (hpages (b + 1)).mpr (.inr (.inr rfl))⟩
  | failed _ _ hpages =>
    simp only [hrange] at hpages
    refine ⟨fun q hq => (hpages q).mpr ⟨hq, ?_⟩, fun q hq => .inl ((hpages q).mp hq).1, by simp⟩
    rintro (rfl | rfl)
    · exact hguard hq
    · exact hpage hq

theorem LaidOut.manager_ne (h : LaidOut table dir mgr d l granted) : l.manager ≠ some mgr := by
  intro hself
  obtain ⟨b, hstacked⟩ := h.lwps mgr l h.layout hself
  exact hstacked.tid h.tid

theorem Stacked.mono {limit limit' b : Nat} {lwp : Layout} (h : Stacked dir d limit lwp b)
    (hsub : b ∈ dir.pages → b + 1 ∈ dir.pages → b ∈ dir'.pages ∧ b + 1 ∈ dir'.pages)
    (hlimit : b + 2 ≤ limit') : Stacked dir' d limit' lwp b :=
  ⟨h.tid, h.pgdir, h.top, hlimit, (hsub h.guard h.page).1, (hsub h.guard h.page).2⟩

theorem LaidOut.stacks {l' : Layout} {np : Slot} {b : Nat}
    (h : LaidOut table dir mgr d l granted) (hplace : Place table dir mgr l l' granted b)
    (hl' : l'.tid = l.tid ∧ l'.pgdir = l.pgdir ∧ l'.manager = l.manager) (hnp : table np = none)
    (htabled : dir'.Tabled) (hsub : dir.pages ⊆ dir'.pages)
    (honly : ∀ q ∈ dir'.pages, q ∈ dir.pages ∨ q = b ∨ q = b + 1)
    (hmanager : table' mgr = some l') (hothers : ∀ i, i ≠ mgr → i ≠ np → table' i = table i)
    (hnew : ∀ lwp, table' np = some lwp → Stacked dir' d (pagesOf l'.sz) lwp b) :
    LaidOut table' dir' mgr d l' granted := by
  have hpagesOf : pagesOf l.sz ≤ pagesOf l'.sz := pagesOf_mono hplace.size hplace.below.le
  have hold : ∀ i lwp', i ≠ np → table' i = some lwp' → lwp'.manager = some mgr →
      table i = some lwp' := by
    intro i lwp' hinp hi hmgr
    have him : i ≠ mgr := by
      rintro rfl
      rw [hmanager] at hi
      cases hi
      exact h.manager_ne (hl'.2.2 ▸ hmgr)
    rw [← hothers i him hinp]
    exact hi
  -- the new region is apart from every region there was
  have hapart : ∀ lwp lwp' c, Stacked dir d (pagesOf l.sz) lwp' c → table' np = some lwp →
      Apart (stackRegion lwp'.sz) (stackRegion lwp.sz) := by
    intro lwp lwp' c hstacked hlwp
    rw [(hnew lwp hlwp).top, stackRegion_eq]
    exact hstacked.apart hplace.vacant
  refine ⟨hmanager, hl'.1.trans h.tid, hl'.2.1.trans h.pgdir, hplace.below, htabled, ?_, ?_, ?_,
    ?_, hplace.distinct, ?_, h.grants, ?_, ?_⟩
  · intro q hq
    have hbelow := hplace.vacant.below
    rcases honly q hq with hq | hq
    · exact (h.pages q hq).trans_le hpagesOf
    · omega
  · intro i lwp' hi hmgr
    by_cases hinp : i = np
    · subst hinp
      exact ⟨b, hnew lwp' hi⟩
    · obtain ⟨c, hstacked⟩ := h.lwps i lwp' (hold i lwp' hinp hi hmgr) hmgr
      exact ⟨c, hstacked.mono (fun hc hc' => ⟨hsub hc, hsub hc'⟩) (hstacked.below.trans hpagesOf)⟩
  · intro i j li lj hij hi hj hmi hmj
    by_cases hinp : i = np
    · subst hinp
      obtain ⟨c, hstacked⟩ := h.lwps j lj (hold j lj (Ne.symm hij) hj hmj) hmj
      exact (hapart li lj c hstacked hi).symm
    · by_cases hjnp : j = np
      · subst hjnp
        obtain ⟨c, hstacked⟩ := h.lwps i li (hold i li hinp hi hmi) hmi
        exact hapart lj li c hstacked hj
      · exact h.unique i j li lj hij (hold i li hinp hi hmi) (hold j lj hjnp hj hmj) hmi hmj
  · intro base hbase
    obtain ⟨c, hvacant⟩ := h.free base (hplace.stack hbase)
    have hrest := hplace.rest base hbase
    rw [hvacant.base, freeRegion_apart] at hrest
    refine ⟨c, hvacant.base, hvacant.below.trans hpagesOf, fun hmem => ?_, fun hmem => ?_⟩
    · rcases honly c hmem with hmem | hmem
      · exact hvacant.guard hmem
      · omega
    · rcases honly (c + 1) hmem with hmem | hmem
      · exact hvacant.page hmem
      · omega
  · intro g hg
    exact (h.ends g hg).trans hplace.size
  · intro g hg i lwp' hi hmgr
    by_cases hinp : i = np
    · subst hinp
      rw [(hnew lwp' hi).top, stackRegion_eq]
      exact hplace.grants g hg
    · exact h.grantsLwps g hg i lwp' (hold i lwp' hinp hi hmgr) hmgr
  · intro g hg base hbase
    exact h.grantsFree g hg base (hplace.stack hbase)

theorem deallocuvm_two {s : Space} {free b result : Nat} (htabled : dir.Tabled)
    (hbelow : (b + 2) * pgsize ≤ kernbase)
    (h : deallocuvm ⟨dir, free⟩ ((b + 2) * pgsize)
      (u32OfInt (((b + 2) * pgsize : Nat) - 2 * pgsize)) = .ok (s, result)) :
    s.dir.Tabled ∧ result = b * pgsize ∧
      ∀ q, q ∈ s.dir.pages ↔ q ∈ dir.pages ∧ q ≠ b ∧ q ≠ b + 1 := by
  have hless : b * pgsize < (b + 2) * pgsize := mul_pgsize_lt.mpr (by omega)
  have hrange : ∀ q, ¬ (b * pgsize < (b + 2) * pgsize ∧ b ≤ q ∧ q * pgsize < (b + 2) * pgsize) ↔
      q ≠ b ∧ q ≠ b + 1 := by
    intro q
    simp only [mul_pgsize_lt]
    omega
  have hnew : u32OfInt (((b + 2) * pgsize : Nat) - 2 * pgsize) = b * pgsize := by
    have hsub : (((b + 2) * pgsize : Nat) : Int) - 2 * pgsize = (b * pgsize : Nat) := by
      rw [Nat.add_mul]
      push_cast
      exact Int.add_sub_cancel _ _
    have hfits : b * pgsize < 4294967296 := hless.trans_le (hbelow.trans (by decide))
    rw [hsub, u32OfInt_eq (Int.natCast_nonneg _) (by exact_mod_cast hfits), Int.toNat_natCast]
  rw [hnew] at h
  have hresult := deallocuvm_result h
  obtain ⟨htabled', -, hpages⟩ := deallocuvm_spec htabled h
  refine ⟨htabled', by omega, fun q => ?_⟩
  rw [hpages, pagesOf_mul b (hless.le.trans hbelow), hrange]

theorem LaidOut.unstacks {p : Slot} {lwp : Layout} {b : Nat}
    (h : LaidOut table dir mgr d l granted) (hp : table p = some lwp)
    (hstacked : Stacked dir d (pagesOf l.sz) lwp b) (hmgr : lwp.manager = some mgr)
    (htabled : dir'.Tabled)
    (hpages : ∀ q, q ∈ dir'.pages ↔ q ∈ dir.pages ∧ q ≠ b ∧ q ≠ b + 1) (hlwp : table' p = none)
    (hmanager : table' mgr = some { l with
      stack := if b * pgsize = 0 then l.stack else b * pgsize :: l.stack })
    (hothers : ∀ i, i ≠ mgr → i ≠ p → table' i = table i) :
    LaidOut table' dir' mgr d
      { l with stack := if b * pgsize = 0 then l.stack else b * pgsize :: l.stack } granted := by
  have hold : ∀ i lwp', table' i = some lwp' → lwp'.manager = some mgr →
      table i = some lwp' ∧ i ≠ p := by
    intro i lwp' hi hmgr'
    have hip : i ≠ p := by
      rintro rfl
      rw [hlwp] at hi
      cases hi
    have him : i ≠ mgr := by
      rintro rfl
      rw [hmanager] at hi
      cases hi
      exact h.manager_ne hmgr'
    rw [← hothers i him hip]
    exact ⟨hi, hip⟩
  -- the list holds the regions it held, and the one of the LWP
  have hlist : ∀ base ∈ (if b * pgsize = 0 then l.stack else b * pgsize :: l.stack),
      base ∈ l.stack ∨ base = b * pgsize := by
    intro base hbase
    split at hbase
    · exact .inl hbase
    · rcases List.mem_cons.mp hbase with hbase | hbase
      · exact .inr hbase
      · exact .inl hbase
  have hregion : stackRegion lwp.sz = freeRegion (b * pgsize) := by
    rw [hstacked.top, stackRegion_eq]
  refine ⟨hmanager, h.tid, h.pgdir, h.below, htabled, ?_, ?_, ?_, ?_, ?_, h.ends, h.grants, ?_, ?_⟩
  · intro q hq
    exact h.pages q ((hpages q).mp hq).1
  · intro i lwp' hi hmgr'
    obtain ⟨hi, hip⟩ := hold i lwp' hi hmgr'
    obtain ⟨c, hstacked'⟩ := h.lwps i lwp' hi hmgr'
    have hapart := h.unique i p lwp' lwp hip hi hp hmgr' hmgr
    rw [hregion, hstacked'.top, stackRegion_eq, freeRegion_apart] at hapart
    refine ⟨c, hstacked'.mono (fun hc hc' => ⟨?_, ?_⟩) hstacked'.below⟩
    · exact (hpages c).mpr ⟨hc, by omega, by omega⟩
    · exact (hpages (c + 1)).mpr ⟨hc', by omega, by omega⟩
  · intro i j li lj hij hi hj hmi hmj
    exact h.unique i j li lj hij (hold i li hi hmi).1 (hold j lj hj hmj).1 hmi hmj
  · intro base hbase
    rcases hlist base hbase with hbase | rfl
    · obtain ⟨c, hvacant⟩ := h.free base hbase
      exact ⟨c, hvacant.base, hvacant.below, fun hmem => hvacant.guard ((hpages c).mp hmem).1,
        fun hmem => hvacant.page ((hpages (c + 1)).mp hmem).1⟩
    · exact ⟨b, rfl, hstacked.below, fun hmem => ((hpages b).mp hmem).2.1 rfl,
        fun hmem => ((hpages (b + 1)).mp hmem).2.2 rfl⟩
  · dsimp only
    split
    · exact h.distinct
    · refine List.pairwise_cons.mpr ⟨fun base hbase => ?_, h.distinct⟩
      obtain ⟨c, hvacant⟩ := h.free base hbase
      rw [← hregion]
      exact hstacked.apart hvacant
  · intro g hg i lwp' hi hmgr'
    exact h.grantsLwps g hg i lwp' (hold i lwp' hi hmgr').1 hmgr'
  · intro g hg base hbase
    rcases hlist base hbase with hbase | rfl
    · exact h.grantsFree g hg base hbase
    · rw [← hregion]
      exact h.grantsLwps g hg p lwp hp hmgr

structure Clear (table : Slot → Option Layout) (mgr : Slot) (l : Layout) (n : Int) : Prop where
  lwps : ∀ i lwp, table i = some lwp → lwp.manager = some mgr →
    lwp.sz ≤ l.sz ∧ (lwp.sz : Int) ≤ l.sz + n
  free : ∀ base ∈ l.stack, (freeRegion base).2 ≤ l.sz ∧ ((freeRegion base).2 : Int) ≤ l.sz + n

theorem LaidOut.resized {newsz : Nat} {granted' : List (Nat × Nat)}
    (h : LaidOut table dir mgr d l granted) (hmanager : table' mgr = some { l with sz := newsz })
    (hothers : ∀ i, i ≠ mgr → table' i = table i) (hbelow : newsz < kernbase)
    (htabled : dir'.Tabled) (hpages : ∀ q ∈ dir'.pages, q < pagesOf newsz)
    (hlwps : ∀ i lwp b, table i = some lwp → lwp.manager = some mgr →
      Stacked dir d (pagesOf l.sz) lwp b → Stacked dir' d (pagesOf newsz) lwp b)
    (hfree : ∀ base ∈ l.stack, ∀ b, Vacant dir (pagesOf l.sz) base b →
      Vacant dir' (pagesOf newsz) base b)
    (hends : ∀ g ∈ granted', g.2 ≤ newsz) (hgrants : granted'.Pairwise Apart)
    (hgrantsLwps : ∀ g ∈ granted', ∀ i lwp, table i = some lwp → lwp.manager = some mgr →
      Apart g (stackRegion lwp.sz))
    (hgrantsFree : ∀ g ∈ granted', ∀ base ∈ l.stack, Apart g (freeRegion base)) :
    LaidOut table' dir' mgr d { l with sz := newsz } granted' := by
  have hold : ∀ i lwp, table' i = some lwp → lwp.manager = some mgr → table i = some lwp := by
    intro i lwp hi hmgr
    have him : i ≠ mgr := by
      rintro rfl
      rw [hmanager] at hi
      cases hi
      exact h.manager_ne hmgr
    rw [← hothers i him]
    exact hi
  refine ⟨hmanager, h.tid, h.pgdir, hbelow, htabled, hpages, ?_, ?_, ?_, h.distinct, hends, hgrants,
    ?_, hgrantsFree⟩
  · intro i lwp hi hmgr
    have hi := hold i lwp hi hmgr
    obtain ⟨b, hstacked⟩ := h.lwps i lwp hi hmgr
    exact ⟨b, hlwps i lwp b hi hmgr hstacked⟩
  · intro i j li lj hij hi hj hmi hmj
    exact h.unique i j li lj hij (hold i li hi hmi) (hold j lj hj hmj) hmi hmj
  · intro base hbase
    obtain ⟨b, hvacant⟩ := h.free base hbase
    exact ⟨b, hfree base hbase b hvacant⟩
  · intro g hg i lwp hi hmgr
    exact hgrantsLwps g hg i lwp (hold i lwp hi hmgr) hmgr

theorem LaidOut.unmapped (h : LaidOut table dir mgr d l granted) (hmanager : table' mgr = some l)
    (hothers : ∀ i, i ≠ mgr → table' i = table i) (htabled : dir'.Tabled)
    (hsub : dir'.pages ⊆ dir.pages)
    (hkeep : ∀ i lwp, table i = some lwp → lwp.manager = some mgr → dir.pages ⊆ dir'.pages) :
    LaidOut table' dir' mgr d l granted := by
  refine h.resized hmanager hothers h.below htabled (fun q hq => h.pages q (hsub hq)) ?_ ?_
    h.ends h.grants h.grantsLwps h.grantsFree
  · intro i lwp b hi hmgr hstacked
    have hkept := hkeep i lwp hi hmgr
    exact hstacked.mono (fun hb hb' => ⟨hkept hb, hkept hb'⟩) hstacked.below
  · intro base _ b hvacant
    exact ⟨hvacant.base, hvacant.below, mt (@hsub b) hvacant.guard, mt (@hsub (b + 1)) hvacant.page⟩

theorem below_of_top {b newsz : Nat} (h : (b + 2) * pgsize ≤ newsz) (hnewsz : newsz ≤ kernbase) :
    b + 2 ≤ pagesOf newsz := by
  have hlast : (b + 1) * pgsize < newsz := (mul_pgsize_lt.mpr (by omega)).trans_le h
  exact (lt_pagesOf hnewsz).mpr hlast

theorem LaidOut.grown {newsz : Nat} (h : LaidOut table dir mgr d l granted)
    (hclear : Clear table mgr l (newsz - l.sz)) (hmore : l.sz ≤ newsz) (hbelow : newsz < kernbase)
    (hmanager : table' mgr = some { l with sz := newsz })
    (hothers : ∀ i, i ≠ mgr → table' i = table i) (htabled : dir'.Tabled)
    (hpages : ∀ q, q ∈ dir'.pages ↔
      q ∈ dir.pages ∨ pagesOf l.sz ≤ q ∧ q * pgsize < newsz) :
    LaidOut table' dir' mgr d { l with sz := newsz } ((l.sz, newsz) :: granted) := by
  have hpagesOf : pagesOf l.sz ≤ pagesOf newsz := pagesOf_mono hmore hbelow.le
  refine h.resized hmanager hothers hbelow htabled ?_ ?_ ?_ ?_ ?_ ?_ ?_
  · intro q hq
    rcases (hpages q).mp hq with hq | hq
    · exact (h.pages q hq).trans_le hpagesOf
    · exact (lt_pagesOf hbelow.le).mpr hq.2
  · intro i lwp b _ _ hstacked
    exact hstacked.mono (fun hb hb' => ⟨(hpages b).mpr (.inl hb), (hpages (b + 1)).mpr (.inl hb')⟩)
      (hstacked.below.trans hpagesOf)
  · intro base _ b hvacant
    have hlow := hvacant.below
    refine ⟨hvacant.base, hlow.trans hpagesOf, fun hmem => ?_, fun hmem => ?_⟩
    · rcases (hpages b).mp hmem with hmem | hmem
      · exact hvacant.guard hmem
      · omega
    · rcases (hpages (b + 1)).mp hmem with hmem | hmem
      · exact hvacant.page hmem
      · omega
  · intro g hg
    rcases List.mem_cons.mp hg with rfl | hg
    · exact le_rfl
    · exact (h.ends g hg).trans hmore
  · refine List.pairwise_cons.mpr ⟨fun g hg => .inr (h.ends g hg), h.grants⟩
  · intro g hg i lwp hi hmgr
    rcases List.mem_cons.mp hg with rfl | hg
    · exact .inr (hclear.lwps i lwp hi hmgr).1
    · exact h.grantsLwps g hg i lwp hi hmgr
  · intro g hg base hbase
    rcases List.mem_cons.mp hg with rfl | hg
    · exact .inr (hclear.free base hbase).1
    · exact h.grantsFree g hg base hbase

theorem LaidOut.shrunk {newsz : Nat} (h : LaidOut table dir mgr d l granted)
    (hclear : Clear table mgr l (newsz - l.sz)) (hless : newsz < l.sz)
    (hmanager : table' mgr = some { l with sz := newsz })
    (hothers : ∀ i, i ≠ mgr → table' i = table i) (htabled : dir'.Tabled)
    (hpages : ∀ q, q ∈ dir'.pages ↔
      q ∈ dir.pages ∧ ¬ (newsz < l.sz ∧ pagesOf newsz ≤ q ∧ q * pgsize < l.sz)) :
    LaidOut table' dir' mgr d { l with sz := newsz } (cutGrants newsz granted) := by
  have hbelow : newsz < kernbase := hless.trans h.below
  refine h.resized hmanager hothers hbelow htabled ?_ ?_ ?_ ?_
    (pairwise_cutGrants newsz h.grants) ?_ ?_
  · intro q hq
    obtain ⟨hq, hout⟩ := (hpages q).mp hq
    by_contra hlow
    exact hout ⟨hless, not_lt.mp hlow, (lt_pagesOf h.below.le).mp (h.pages q hq)⟩
  · intro i lwp b hi hmgr hstacked
    have htop := (hclear.lwps i lwp hi hmgr).2
    rw [hstacked.top] at htop
    have hlimit : b + 2 ≤ pagesOf newsz := below_of_top (by omega) hbelow.le
    refine hstacked.mono (fun hb hb' => ⟨(hpages b).mpr ⟨hb, ?_⟩, (hpages (b + 1)).mpr ⟨hb', ?_⟩⟩)
      hlimit
    · rintro ⟨-, hlow, -⟩
      omega
    · rintro ⟨-, hlow, -⟩
      omega
  · intro base hbase b hvacant
    have htop := (hclear.free base hbase).2
    simp only [freeRegion] at htop
    rw [hvacant.base, ← Nat.add_mul] at htop
    exact ⟨hvacant.base, below_of_top (by omega) hbelow.le,
      fun hmem => hvacant.guard ((hpages b).mp hmem).1,
      fun hmem => hvacant.page ((hpages (b + 1)).mp hmem).1⟩
  · intro g hg
    obtain ⟨g', -, -, hend⟩ := mem_cutGrants hg
    omega
  · intro g hg i lwp hi hmgr
    obtain ⟨g', hg', hstart, hend⟩ := mem_cutGrants hg
    have hapart := h.grantsLwps g' hg' i lwp hi hmgr
    unfold Apart at *
    omega
  · intro g hg base hbase
    obtain ⟨g', hg', hstart, hend⟩ := mem_cutGrants hg
    have hapart := h.grantsFree g' hg' base hbase
    unfold Apart at *
    omega

end

variable {k k' : Kernel} {mgr : Slot} {d : DirId} {l : Layout} {granted : List (Nat × Nat)}

theorem regrant_same {sz : Nat} {n : Int} (hpositive : ¬ 0 < n) (hnegative : n < 0 → sz + n < 0) :
    regrant sz n granted = granted := by
  unfold regrant
  rw [if_neg hpositive, if_neg]
  rintro ⟨hneg, hsum⟩
  have hless := hnegative hneg
  omega

theorem LaidOut.unchanged {n r : Int} {s : Space}
    (h : LaidOut k.layout (k.dir d) mgr d l granted) (hgrows : Grows k k' mgr l d n r s l.sz)
    (hs : s.dir = k.dir d) : LaidOut k'.layout (k'.dir d) mgr d l granted := by
  rw [hgrows.dir, hs]
  refine h.unmapped ?_ hgrows.others h.tabled (Finset.Subset.refl _)
    fun _ _ _ _ => Finset.Subset.refl _
  rcases hgrows.manager with ⟨-, -, -, hl⟩ | ⟨-, -, hl⟩
  · exact hl
  · exact hl

theorem LaidOut.sbrkGrows {n r : Int} {s : Space} {result : Nat}
    (h : LaidOut k.layout (k.dir d) mgr d l granted) (hn : IsInt n) (hpositive : 0 < n)
    (hclear : Clear k.layout mgr l n) (hgrows : Grows k k' mgr l d n r s result) :
    ∃ l', LaidOut k'.layout (k'.dir d) mgr d l'
      (if r = 0 then regrant l.sz n granted else granted) := by
  have hresized := hgrows.resized
  have hbelow := h.below
  unfold IsInt at hn
  have hnew : u32OfInt (l.sz + n) = l.sz + n.toNat := by
    rw [u32OfInt_eq (by omega) (by simp only [kernbase] at hbelow; omega)]
    omega
  unfold resize at hresized
  rw [if_pos hpositive, hnew] at hresized
  obtain ⟨newsz, hnewsz⟩ : ∃ newsz, newsz = l.sz + n.toNat := ⟨_, rfl⟩
  have hdiff : (newsz : Int) - l.sz = n := by omega
  rw [← hdiff] at hclear
  rw [← hnewsz] at hresized
  obtain ⟨htabled, halloc⟩ := allocuvm_spec h.tabled hresized
  -- the answer is -1 exactly when the result is 0
  have hfailed : result = 0 → r ≠ 0 ∧ k'.layout mgr = some l := by
    intro hzero
    rcases hgrows.manager with ⟨-, -, hr, hl⟩ | ⟨hnot, -, -⟩
    · exact ⟨by omega, hl⟩
    · exact absurd ⟨by omega, hzero⟩ hnot
  rw [hgrows.dir]
  cases halloc with
  | refused _ hdir =>
    obtain ⟨hr, hl⟩ := hfailed rfl
    rw [if_neg hr, hdir]
    exact ⟨l, h.unmapped hl hgrows.others h.tabled (Finset.Subset.refl _)
      fun _ _ _ _ => Finset.Subset.refl _⟩
  | smaller hless _ => omega
  | grown hmore hbelow' hpages =>
    rcases hgrows.manager with ⟨-, hzero, -, -⟩ | ⟨-, hr, hl⟩
    · omega
    · have hgrant : regrant l.sz n granted = (l.sz, result) :: granted := by
        unfold regrant
        rw [if_pos hpositive, hnewsz]
      rw [if_pos hr, hgrant]
      exact ⟨_, h.grown hclear hmore hbelow' hl hgrows.others htabled hpages⟩
  | failed _ _ hpages =>
    obtain ⟨hr, hl⟩ := hfailed rfl
    rw [if_neg hr]
    refine ⟨l, h.unmapped hl hgrows.others htabled (fun q hq => ((hpages q).mp hq).1)
      fun _ _ _ _ q hq => (hpages q).mpr ⟨hq, fun hout => ?_⟩⟩
    exact absurd (h.pages q hq) (not_lt.mpr hout.1)

theorem LaidOut.sbrkShrinks {n r : Int} {s : Space} {result : Nat}
    (h : LaidOut k.layout (k.dir d) mgr d l granted) (hn : IsInt n) (hnegative : n < 0)
    (hclear : Clear k.layout mgr l n) (hgrows : Grows k k' mgr l d n r s result) :
    ∃ l', LaidOut k'.layout (k'.dir d) mgr d l'
      (if r = 0 then regrant l.sz n granted else granted) := by
  have hresized := hgrows.resized
  have hbelow := h.below
  unfold IsInt at hn
  unfold resize at hresized
  rw [if_neg (by omega), if_pos hnegative] at hresized
  by_cases hsum : 0 ≤ l.sz + n
  · have hnew : u32OfInt (l.sz + n) = (l.sz + n).toNat :=
      u32OfInt_eq hsum (by simp only [kernbase] at hbelow; omega)
    rw [hnew] at hresized
    obtain ⟨newsz, hnewsz⟩ : ∃ newsz, newsz = (l.sz + n).toNat := ⟨_, rfl⟩
    have hdiff : (newsz : Int) - l.sz = n := by omega
    rw [← hdiff] at hclear
    rw [← hnewsz] at hresized
    have hresult := deallocuvm_result hresized
    obtain ⟨htabled, -, hpages⟩ := deallocuvm_spec h.tabled hresized
    rw [hgrows.dir]
    rcases hgrows.manager with ⟨-, hzero, hr, hl⟩ | ⟨hnot, hr, hl⟩
    · -- `sbrk(-sz)` unmaps everything and answers -1; no LWP is left by then
      rw [if_neg (by omega)]
      refine ⟨l, h.unmapped hl hgrows.others htabled (fun q hq => ((hpages q).mp hq).1)
        fun i lwp hi hmgr => ?_⟩
      obtain ⟨b, hstacked⟩ := h.lwps i lwp hi hmgr
      have htop := (hclear.lwps i lwp hi hmgr).2
      have hpos : 0 < (b + 2) * pgsize := Nat.mul_pos (by omega) (by decide)
      rw [hstacked.top] at htop
      omega
    · have hgrant : regrant l.sz n granted = cutGrants newsz granted := by
        unfold regrant
        rw [if_neg (by omega), if_pos ⟨hnegative, hsum⟩, hnewsz]
      have hless : newsz < l.sz := by omega
      have hmin : result = newsz := by omega
      rw [hmin] at hl
      rw [if_pos hr, hgrant]
      exact ⟨_, h.shrunk hclear hless hl hgrows.others htabled hpages⟩
  · have hnew : u32OfInt (l.sz + n) = (l.sz + n + 4294967296).toNat :=
      u32OfInt_neg (by omega) (by omega)
    rw [hnew] at hresized
    unfold deallocuvm at hresized
    rw [if_pos (by omega)] at hresized
    cases Except.ok.inj hresized
    rw [regrant_same (by omega) (fun _ => by omega), ite_self]
    exact ⟨l, h.unchanged hgrows rfl⟩

theorem LaidOut.grows {n r : Int} {s : Space} {result : Nat}
    (h : LaidOut k.layout (k.dir d) mgr d l granted) (hn : IsInt n)
    (hclear : n ≠ 0 → Clear k.layout mgr l n) (hgrows : Grows k k' mgr l d n r s result) :
    ∃ l', LaidOut k'.layout (k'.dir d) mgr d l'
      (if r = 0 then regrant l.sz n granted else granted) := by
  rcases lt_trichotomy n 0 with hnegative | rfl | hpositive
  · exact h.sbrkShrinks hn hnegative (hclear (by omega)) hgrows
  · have hresized := hgrows.resized
    cases Except.ok.inj hresized
    rw [regrant_same (by omega) (by omega), ite_self]
    exact ⟨l, h.unchanged hgrows rfl⟩
  · exact h.sbrkGrows hn hpositive (hclear (by omega)) hgrows

/-- Every region of the group ends within the size, before and after `sbrk(n)`. -/
def SbrkClear (k : Kernel) (mgr : Slot) (n : Int) : Prop :=
  (∀ i, k.InGroup mgr i → (k.proc i).sz ≤ (k.proc mgr).sz ∧
    ((k.proc i).sz : Int) ≤ (k.proc mgr).sz + n) ∧
  ∀ base ∈ (k.proc mgr).stack, (freeRegion base).2 ≤ (k.proc mgr).sz ∧
    ((freeRegion base).2 : Int) ≤ (k.proc mgr).sz + n

instance (k : Kernel) (mgr : Slot) (n : Int) : Decidable (k.SbrkClear mgr n) :=
  inferInstanceAs (Decidable (_ ∧ _))

def RegionKept (mgr : Slot) (k : Kernel) : Act → Prop
  | .sbrk p n => k.Member mgr p ∧ IsInt n ∧ (n ≠ 0 → k.SbrkClear mgr n)
  | .threadCreate p _ => k.Member mgr p ∧ (k.proc mgr).nexttid ≠ 0 ∧
      ((k.proc mgr).stack = [] → pgroundup (k.proc mgr).sz + 2 * pgsize < kernbase)
  | .threadExit p _ | .threadJoin p _ | .resumeJoin p => k.Member mgr p
  | .visit .. | .yield _ | .sleepOn .. | .wakeup _ | .charge .. => True
  | .kill .. | .fork _ | .exec .. | .wait _ | .resumeWait _ | .exit _ | .exitBegin _
  | .exitEnd _ | .setCpuShare .. => False

instance (mgr : Slot) (k : Kernel) : (a : Act) → Decidable (RegionKept mgr k a)
  | .sbrk .. | .threadCreate .. => inferInstanceAs (Decidable (_ ∧ _))
  | .threadExit .. | .threadJoin .. | .resumeJoin _ =>
      inferInstanceAs (Decidable (Member _ _ _))
  | .visit .. | .yield _ | .sleepOn .. | .wakeup _ | .charge .. =>
      inferInstanceAs (Decidable True)
  | .kill .. | .fork _ | .exec .. | .wait _ | .resumeWait _ | .exit _ | .exitBegin _
  | .exitEnd _ | .setCpuShare .. => inferInstanceAs (Decidable False)

def RegionAllowed (mgr : Slot) (k : Kernel) (a : Act) : Prop := k.Enabled a ∧ RegionKept mgr k a

instance (mgr : Slot) (k : Kernel) (a : Act) : Decidable (RegionAllowed mgr k a) :=
  inferInstanceAs (Decidable (_ ∧ _))

theorem SbrkClear.clear {n : Int} (h : k.SbrkClear mgr n) (hl : k.layout mgr = some l) :
    Clear k.layout mgr l n := by
  obtain ⟨-, hsz, hstack, -, -, -⟩ := layout_eq_some hl
  refine ⟨fun i lwp hi hmgr => ?_, ?_⟩
  · obtain ⟨hused, hszi, -, -, hmanager, -⟩ := layout_eq_some hi
    rw [← hszi, ← hsz]
    exact h.1 i ⟨hused, hmanager.trans hmgr⟩
  · rw [← hsz, ← hstack]
    exact h.2

theorem LaidOut.caller {p : Slot} (h : LaidOut k.layout (k.dir d) mgr d l granted)
    (hp : (k.proc p).Live) (hmember : k.Member mgr p) : Caller k mgr d p := by
  refine caller_of_member h.layout h.tid h.pgdir (fun i lwp hi hmgr => ?_) hp hmember
  obtain ⟨b, hstacked⟩ := h.lwps i lwp hi hmgr
  exact ⟨hstacked.tid, hstacked.pgdir⟩

theorem grants_sbrk (mgr : Slot) (k : Kernel) (p : Slot) (n r : Int)
    (trace : List (Kernel × Act × Out)) :
    grants mgr ((k, .sbrk p n, .ret r) :: trace) =
      if r = 0 then regrant (k.proc mgr).sz n (grants mgr trace) else grants mgr trace := by
  by_cases hr : r = 0
  · subst hr
    rfl
  · rw [if_neg hr, grants]
    intro k1 p1 n1 heq
    cases heq
    exact hr rfl

theorem LaidOut.still (h : LaidOut k.layout (k.dir d) mgr d l granted) (hstill : Still k k') :
    LaidOut k'.layout (k'.dir d) mgr d l granted := by
  rw [hstill.layout, hstill.dir]
  exact h

theorem LaidOut.creates {np : Slot} {s : Space} {result : Nat}
    (h : LaidOut k.layout (k.dir d) mgr d l granted) (hnexttid : (k.proc mgr).nexttid ≠ 0)
    (hroom : l.stack = [] → pgroundup l.sz + 2 * pgsize < kernbase)
    (hstacks : Stacks k k' mgr np l d s result) :
    LaidOut k'.layout (k'.dir d) mgr d l.stackTaken granted := by
  obtain ⟨b, hplace⟩ := h.place hroom
  have hvacant := hplace.vacant
  have hbelow : (b + 2) * pgsize ≤ kernbase :=
    (Nat.mul_le_mul_right pgsize hvacant.below).trans (pagesOf_le hplace.below.le)
  have halloc := hstacks.alloc
  rw [hplace.base] at halloc
  obtain ⟨htabled, hsub, honly, hmapped⟩ :=
    allocuvm_two h.tabled hvacant.guard hvacant.page hbelow halloc
  have hnp : k.layout np = none := by
    have hunused := findSlot_some hstacks.found
    exact Proc.layout_unused (by simpa using hunused)
  rw [← hstacks.pages] at hsub honly hmapped
  refine h.stacks hplace l.stackTaken_same hnp ?_ hsub honly hstacks.manager hstacks.others ?_
  · exact htabled.of_subset hstacks.tables (by rw [hstacks.pages])
  · intro lwp hlwp
    rcases hstacks.lwp with hnone | ⟨hresult, hsome⟩
    · rw [hnone] at hlwp
      cases hlwp
    · rw [hsome] at hlwp
      cases hlwp
      obtain ⟨htop, hguard, hpage⟩ := hmapped hresult
      exact ⟨hnexttid, rfl, htop, hvacant.below, hguard, hpage⟩

theorem LaidOut.joins {p : Slot} {lwp : Layout} {s : Space} {result : Nat}
    (h : LaidOut k.layout (k.dir d) mgr d l granted) (hp : k.layout p = some lwp)
    (hmgr : lwp.manager = some mgr) (hunstacks : Unstacks k k' mgr p l lwp d s result) :
    ∃ l', LaidOut k'.layout (k'.dir d) mgr d l' granted := by
  obtain ⟨b, hstacked⟩ := h.lwps p lwp hp hmgr
  have hbelow : (b + 2) * pgsize ≤ kernbase :=
    (Nat.mul_le_mul_right pgsize hstacked.below).trans (pagesOf_le h.below.le)
  have hdealloc := hunstacks.dealloc
  rw [hstacked.top] at hdealloc
  obtain ⟨htabled, hresult, hpages⟩ := deallocuvm_two h.tabled hbelow hdealloc
  have hmanager := hunstacks.manager
  rw [hresult] at hmanager
  rw [hunstacks.dir]
  exact ⟨_, h.unstacks hp hstacked hmgr htabled hpages hunstacks.lwp hmanager hunstacks.others⟩

theorem LaidOut.join {k0 : Kernel} {cur : Slot} {thread : Int} {out : Joined}
    (h : LaidOut k.layout (k.dir d) mgr d l granted) (hstill : Still k k0)
    (hcur : (k0.proc cur).Live) (hmember : k0.Member mgr cur)
    (hjoin : k0.threadJoin cur thread = .ok (k', out)) :
    ∃ l', LaidOut k'.layout (k'.dir d) mgr d l' granted := by
  have h0 := h.still hstill
  have hlwps : ∀ i lwp, k0.layout i = some lwp → lwp.manager = some mgr → lwp.pgdir = some d := by
    intro i lwp hi hmgr
    obtain ⟨b, hstacked⟩ := h0.lwps i lwp hi hmgr
    exact hstacked.pgdir
  obtain hstill' | ⟨-, p, lwp, s, result, hp, hmgr, -, hunstacks⟩ :=
    threadJoin_layout hcur (h0.caller hcur hmember).tid h0.layout hlwps hjoin
  · exact ⟨l, h0.still hstill'⟩
  · exact h0.joins hp hmgr hunstacks

theorem laidOut_step {trace : List (Kernel × Act × Out)} {a : Act} {out : Out}
    (h : LaidOut k.layout (k.dir d) mgr d l (grants mgr trace)) (hallowed : RegionAllowed mgr k a)
    (hstep : k.perform a = .ok (k', out)) :
    ∃ l', LaidOut k'.layout (k'.dir d) mgr d l' (grants mgr ((k, a, out) :: trace)) := by
  obtain ⟨henabled, hkept⟩ := hallowed
  cases performs hstep with
  | visit hvisit => exact ⟨l, h.still (still_visit hvisit)⟩
  | yield p =>
    have hp : (k.proc p).state = .running := henabled
    exact ⟨l, h.still (still_yield k p ⟨by simp [hp], by simp [hp]⟩)⟩
  | sleepOn p chan =>
    exact ⟨l, h.still (still_sleep k p chan (henabled.elim At.live At.live))⟩
  | wakeup chan => exact ⟨l, h.still (still_wakeup1 k _)⟩
  | charge p level ticks runtime => exact ⟨l, h.still (still_modify k p _ rfl)⟩
  | sbrk hgrow =>
    obtain ⟨hmember, hn, hclear⟩ := hkept
    have hcaller := h.caller (At.live henabled) hmember
    rw [grants_sbrk, (layout_eq_some h.layout).2.1]
    obtain ⟨hstill, rfl⟩ | ⟨s, result, hgrows⟩ :=
      growproc_layout hcaller.manager hcaller.pgdir h.layout hgrow
    · exact ⟨l, h.still hstill⟩
    · exact h.grows hn (fun hne => (hclear hne).clear h.layout) hgrows
  | threadCreate hcreate =>
    obtain ⟨hmember, hnexttid, hroom⟩ := hkept
    have hcaller := h.caller (At.live henabled) hmember
    obtain ⟨-, hsz, hstack, -⟩ := layout_eq_some h.layout
    rw [hsz, hstack] at hroom
    obtain hstill | ⟨np, s, result, hstacks⟩ :=
      threadCreate_layout (At.live henabled) hcaller.manager h.layout h.pgdir hcreate
    · exact ⟨l, h.still hstill⟩
    · exact ⟨_, h.creates hnexttid hroom hstacks⟩
  | threadExit hexit => exact ⟨l, h.still (still_threadExit (At.live henabled) hexit)⟩
  | threadJoin hjoin => exact h.join (.refl k) (At.live henabled) hkept hjoin
  | @resumeJoin p _ _ hjoin =>
    have hmember : k.Member mgr p := hkept
    refine h.join (still_modify k p _ rfl) ?_ ?_ hjoin
    · simp [Proc.Live, henabled.1]
    · simpa [Member] using hmember
  | _ => exact hkept.elim

theorem LaidOut.no_remap {a : Act} (h : LaidOut k.layout (k.dir d) mgr d l granted)
    (hallowed : RegionAllowed mgr k a) : k.perform a ≠ .error .remap := by
  obtain ⟨henabled, hkept⟩ := hallowed
  intro hremap
  cases a with
  | visit c p => exact visit_no_remap k c p (map_eq_error.mp hremap)
  | sbrk p n =>
    have hcaller := h.caller (At.live henabled) hkept.1
    obtain ⟨-, halloc⟩ :=
      growproc_remap hcaller.manager hcaller.pgdir h.layout (map_eq_error.mp hremap)
    obtain ⟨q, hq, hlow, -⟩ := allocuvm_remap halloc
    exact absurd (h.pages q hq) (not_lt.mpr hlow)
  | threadCreate p start =>
    obtain ⟨hmember, -, hroom⟩ := hkept
    have hcaller := h.caller (At.live henabled) hmember
    obtain ⟨-, hsz, hstack, -⟩ := layout_eq_some h.layout
    rw [hsz, hstack] at hroom
    obtain ⟨b, hplace⟩ := h.place hroom
    have hvacant := hplace.vacant
    have hbelow : (b + 2) * pgsize ≤ kernbase :=
      (Nat.mul_le_mul_right pgsize hvacant.below).trans (pagesOf_le hplace.below.le)
    have halloc := threadCreate_remap (At.live henabled) hcaller.manager h.layout h.pgdir
      (map_eq_error.mp hremap)
    rw [hplace.base, ← Nat.add_mul, u32_eq_self (hbelow.trans_lt (by decide))] at halloc
    obtain ⟨q, hq, hlow, hhigh⟩ := allocuvm_remap halloc
    rw [pagesOf_mul b ((mul_pgsize_le.mpr (Nat.le_add_right b 2)).trans hbelow)] at hlow
    rw [mul_pgsize_lt] at hhigh
    have hcases : q = b ∨ q = b + 1 := by
      clear hbelow
      omega
    rcases hcases with rfl | rfl
    · exact hvacant.guard hq
    · exact hvacant.page hq
  | threadExit p retval => exact threadExit_no_remap k p retval (map_eq_error.mp hremap)
  | threadJoin p thread => exact threadJoin_no_remap k p thread (map_eq_error.mp hremap)
  | resumeJoin p => exact threadJoin_no_remap _ p _ (map_eq_error.mp hremap)
  | _ => first | exact hkept.elim | cases hremap

theorem LaidOut.pairwise (h : LaidOut k.layout (k.dir d) mgr d l granted) :
    (k.regions mgr ++ granted).Pairwise Apart := by
  have hstack := (layout_eq_some h.layout).2.2.1
  have hlwp : ∀ i, k.InGroup mgr i → ∃ lwp, k.layout i = some lwp ∧ lwp.manager = some mgr ∧
      lwp.sz = (k.proc i).sz :=
    fun i hi => ⟨_, Proc.layout_used hi.1, hi.2, rfl⟩
  unfold regions
  refine List.pairwise_append.mpr ⟨List.pairwise_append.mpr ⟨?_, ?_, ?_⟩, h.grants, ?_⟩
  · have hnodup := (List.nodup_finRange nproc).filter fun i => k.InGroup mgr i
    refine List.pairwise_map.mpr (List.Pairwise.imp_of_mem (fun {i j} hi hj hij => ?_) hnodup)
    obtain ⟨lwp, hlayout, hmgr, hsz⟩ := hlwp i (of_decide_eq_true (List.mem_filter.mp hi).2)
    obtain ⟨lwp', hlayout', hmgr', hsz'⟩ := hlwp j (of_decide_eq_true (List.mem_filter.mp hj).2)
    rw [← hsz, ← hsz']
    exact h.unique i j lwp lwp' hij hlayout hlayout' hmgr hmgr'
  · rw [hstack]
    exact List.pairwise_map.mpr h.distinct
  · intro r hr t ht
    obtain ⟨i, hi, rfl⟩ := List.mem_map.mp hr
    obtain ⟨base, hbase, rfl⟩ := List.mem_map.mp ht
    rw [hstack] at hbase
    obtain ⟨lwp, hlayout, hmgr, hsz⟩ := hlwp i (of_decide_eq_true (List.mem_filter.mp hi).2)
    obtain ⟨b, hstacked⟩ := h.lwps i lwp hlayout hmgr
    obtain ⟨c, hvacant⟩ := h.free base hbase
    rw [← hsz]
    exact hstacked.apart hvacant
  · intro r hr g hg
    rcases List.mem_append.mp hr with hr | hr
    · obtain ⟨i, hi, rfl⟩ := List.mem_map.mp hr
      obtain ⟨lwp, hlayout, hmgr, hsz⟩ := hlwp i (of_decide_eq_true (List.mem_filter.mp hi).2)
      rw [← hsz]
      exact (h.grantsLwps g hg i lwp hlayout hmgr).symm
    · obtain ⟨base, hbase, rfl⟩ := List.mem_map.mp hr
      rw [hstack] at hbase
      exact (h.grantsFree g hg base hbase).symm

theorem laidOut_run {start finish : Kernel} {mgr : Slot} {d : DirId}
    {trace : List (Kernel × Act × Out)} (hstart : Alone start mgr d)
    (run : Run perform (RegionAllowed mgr) start trace finish) :
    ∃ l, LaidOut finish.layout (finish.dir d) mgr d l (grants mgr trace) :=
  run.invariant (fun trace k => ∃ l, LaidOut k.layout (k.dir d) mgr d l (grants mgr trace))
    (laidOut_of_alone hstart)
    fun _ _ _ _ _ ⟨_, hk⟩ hallowed hstep => laidOut_step hk hallowed hstep

theorem stack_regions_disjoint {start : Kernel} {mgr : Slot} {d : DirId}
    (hstart : Alone start mgr d) {trace : List (Kernel × Act × Out)} {finish : Kernel}
    (run : Run perform (RegionAllowed mgr) start trace finish) :
    (finish.regions mgr ++ grants mgr trace).Pairwise Apart ∧
    (∀ i, finish.InGroup mgr i → (finish.proc i).pgdir = some d ∧
      2 * pgsize ≤ (finish.proc i).sz ∧
      ((finish.proc i).sz - 2 * pgsize) / pgsize ∈ (finish.dir d).pages ∧
      ((finish.proc i).sz - pgsize) / pgsize ∈ (finish.dir d).pages) ∧
    ∀ a, RegionAllowed mgr finish a → finish.perform a ≠ .error .remap := by
  obtain ⟨l, hinv⟩ := laidOut_run hstart run
  refine ⟨hinv.pairwise, fun i hi => ?_, fun a hallowed => hinv.no_remap hallowed⟩
  obtain ⟨b, hstacked⟩ := hinv.lwps i _ (Proc.layout_used hi.1) hi.2
  have htop : (finish.proc i).sz = (b + 2) * pgsize := hstacked.top
  have hguard : (b + 2) * pgsize - 2 * pgsize = b * pgsize := by
    rw [Nat.add_mul, Nat.add_sub_cancel]
  have hpage : (b + 2) * pgsize - pgsize = (b + 1) * pgsize := by
    rw [Nat.succ_mul, Nat.add_sub_cancel]
  rw [htop, hguard, hpage, Nat.mul_div_cancel _ (by decide), Nat.mul_div_cancel _ (by decide)]
  exact ⟨hstacked.pgdir, mul_pgsize_le.mpr (Nat.le_add_left 2 b), hstacked.guard, hstacked.page⟩

theorem alone_boot (free : Nat) : Alone (boot free) 0 0 where
  used := by simp [boot]
  tid := rfl
  pgdir := rfl
  stack := rfl
  below := show pgsize < kernbase by decide
  tabled := by
    intro q hq
    cases Finset.mem_singleton.mp hq
    exact Finset.mem_singleton_self 0
  pages := by
    intro q hq
    cases Finset.mem_singleton.mp hq
    exact show 0 * pgsize < pgsize by decide
  lwps := by
    rintro i ⟨hused, hmanager⟩
    by_cases hi : i = 0
    · subst hi
      cases hmanager
    · simp [boot, hi, Proc.zero] at hused

/-- A stack in use, one given back, and a grant above them. -/
theorem stack_regions_disjoint_joined : ∃ trace k,
    Run perform (RegionAllowed 0) (boot 100) trace k ∧
    k.regions 0 ++ grants 0 trace = [(12288, 20480), (4096, 12288), (20480, 20580)] ∧
    (k.regions 0 ++ grants 0 trace).Pairwise Apart := by
  obtain ⟨trace, k, run, htest⟩ := exists_run perform (RegionAllowed 0) (boot 100)
    [.visit 0 0, .threadCreate 0 5, .threadCreate 0 5, .sbrk 0 100, .yield 0, .visit 0 1,
      .threadExit 1 7, .visit 0 0, .threadJoin 0 1]
    (fun trace k =>
      k.regions 0 ++ grants 0 trace = [(12288, 20480), (4096, 12288), (20480, 20580)])
    (by decide +kernel)
  exact ⟨trace, k, run, of_decide_eq_true htest,
    (stack_regions_disjoint (alone_boot 100) run).1⟩

/-- An odd size puts the heap into the stack of an LWP; a shrink unmaps it; and a stack
that was given back is mapped twice after a shrink and a growth. -/
theorem stack_regions_overlap :
    (∃ trace k, Run perform Enabled (boot 100) trace k ∧
      ¬ (k.regions 0 ++ grants 0 trace).Pairwise Apart) ∧
    (∃ k, Reaches perform Enabled (boot 100) k ∧ k.InGroup 0 1 ∧
      ((k.proc 1).sz - pgsize) / pgsize ∉ (k.dir 0).pages) ∧
    ∃ k, Reaches perform Enabled (boot 100) k ∧ k.Enabled (.threadCreate 0 5) ∧
      k.perform (.threadCreate 0 5) = .error .remap := by
  refine ⟨?_, ?_, ?_⟩
  · obtain ⟨trace, k, run, htest⟩ := exists_run perform Enabled (boot 100)
      [.visit 0 0, .sbrk 0 1, .threadCreate 0 5, .sbrk 0 100]
      (fun trace k => ¬ (k.regions 0 ++ grants 0 trace).Pairwise Apart) (by decide +kernel)
    exact ⟨trace, k, run, of_decide_eq_true htest⟩
  · obtain ⟨k, hreach, htest⟩ := exists_reaches perform Enabled (boot 100)
      [.visit 0 0, .threadCreate 0 5, .sbrk 0 (-8192)]
      (fun k => k.InGroup 0 1 ∧ ((k.proc 1).sz - pgsize) / pgsize ∉ (k.dir 0).pages)
      (by decide +kernel)
    exact ⟨k, hreach, of_decide_eq_true htest⟩
  · obtain ⟨k, hreach, htest⟩ := exists_reaches perform Enabled (boot 100)
      [.visit 0 0, .threadCreate 0 5, .yield 0, .visit 0 1, .threadExit 1 7, .visit 0 0,
        .threadJoin 0 1, .sbrk 0 (-8192), .sbrk 0 8192]
      (fun k => k.Enabled (.threadCreate 0 5) ∧
        faultOf perform k (.threadCreate 0 5) = some .remap) (by decide +kernel)
    obtain ⟨henabled, hfault⟩ := of_decide_eq_true htest
    exact ⟨k, hreach, henabled, faultOf_eq_some hfault⟩

end Kernel

end Xv6

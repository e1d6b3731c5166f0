import Xv6.Group.Spaces

/-! What `growproc` promises: the size it was asked for and the pages that go with it, or
nothing at all. A size of 0 is also its sign of failure, and the sum of size and request is
taken modulo 2^32. -/
namespace Xv6

open Word Fallible Transition

theorem framesNeeded_end (dir : PageDir) {page stop : Nat} (h : stop ≤ page) :
    framesNeeded dir page stop = 0 := by
  unfold framesNeeded
  rw [Finset.Ico_eq_empty (by omega)]
  simp
  omega

theorem allocLoop_done {s s' : Space} {page newsz fuel : Nat} (hbelow : newsz ≤ kernbase)
    (hfuel : newsz / pgsize + 1 ≤ page + fuel)
    (h : allocLoop s page newsz fuel = .ok (s', true)) :
    framesNeeded s.dir page (pagesOf newsz) ≤ s.free := by
  have hend : ∀ {page}, ¬ page * pgsize < newsz → pagesOf newsz ≤ page :=
    fun hpage => not_lt.mp (mt (lt_pagesOf hbelow).mp hpage)
  simp only [pgsize] at hfuel
  induction fuel generalizing s page with
  | zero =>
    rw [framesNeeded_end s.dir (hend (by simp only [pgsize]; omega))]
    exact Nat.zero_le _
  | succ fuel ih =>
    unfold allocLoop at h
    split at h
    · rename_i hpage
      have hstop : page < pagesOf newsz := (lt_pagesOf hbelow).mpr hpage
      split at h
      · cases h
      · rename_i s1 halloc
        have hdir := kalloc_dir halloc
        have hfree : s.free = s1.free + 1 := by
          unfold kalloc at halloc
          split at halloc
          · cases halloc
          · cases halloc
            dsimp only
            omega
        split at h
        · cases h
        · cases h
        · rename_i s2 hmap
          obtain ⟨-, -, htables⟩ := mappages_ok hmap
          have hused := mappages_free hmap
          rw [hdir] at htables hused
          have hstep := framesNeeded_step s.dir s2.dir hstop htables
          have hrest := ih (by omega) h
          omega
    · rename_i hpage
      rw [framesNeeded_end s.dir (hend hpage)]
      exact Nat.zero_le _

def Space.Suffices (s : Space) (oldsz newsz : Nat) : Prop :=
  framesNeeded s.dir (pagesOf oldsz) (pagesOf newsz) ≤ s.free

instance (s : Space) (oldsz newsz : Nat) : Decidable (s.Suffices oldsz newsz) :=
  inferInstanceAs (Decidable (_ ≤ _))

theorem allocuvm_grown {s s' : Space} {oldsz newsz r : Nat} (htabled : s.dir.Tabled)
    (hless : oldsz < newsz) (hbelow : newsz < kernbase)
    (h : allocuvm s oldsz newsz = .ok (s', r)) :
    (s.Suffices oldsz newsz ∧ r = newsz ∧ ∀ q, q ∈ s'.dir.pages ↔
        q ∈ s.dir.pages ∨ pagesOf oldsz ≤ q ∧ q * pgsize < newsz) ∨
      (¬ s.Suffices oldsz newsz ∧ r = 0 ∧ ∀ q, q ∈ s'.dir.pages ↔
        q ∈ s.dir.pages ∧ ¬ (pagesOf oldsz ≤ q ∧ q * pgsize < newsz)) := by
  cases (allocuvm_spec htabled h).2 with
  | refused hlarge => omega
  | smaller hmore => omega
  | grown _ _ hpages =>
    refine .inl ⟨?_, rfl, hpages⟩
    unfold allocuvm at h
    rw [if_neg (by omega), if_neg (by omega)] at h
    split at h
    · cases h
    · rename_i hloop
      exact allocLoop_done hbelow.le (Nat.le_add_left _ _) hloop
    · obtain ⟨result, -, heq⟩ := map_eq_ok.mp h
      have hzero := congrArg Prod.snd heq
      simp only at hzero
      omega
  | failed _ _ hpages =>
    refine .inr ⟨fun hframes => ?_, rfl, hpages⟩
    have hgrown := (allocuvm_fits hless.le hbelow hframes h).1
    omega

/-- What `growproc` should have done to an address space of size `sz`, when `result` came
back from `resize`: a new size with its pages, or nothing. -/
structure Met (dir dir' : PageDir) (sz result : Nat) (n : Int) : Prop where
  size : ¬ (n ≠ 0 ∧ result = 0) → (result : Int) = sz + n
  grown : ¬ (n ≠ 0 ∧ result = 0) → ∀ a : Nat, sz ≤ a → (a : Int) < sz + n →
    a / pgsize ∈ dir'.pages
  shrunk : ¬ (n ≠ 0 ∧ result = 0) → ∀ q : Nat, sz + n ≤ q * pgsize → q * pgsize < sz →
    q ∉ dir'.pages
  failed : n ≠ 0 ∧ result = 0 → dir'.pages = dir.pages

/-- When a request of `n` bytes for a space of size `sz` is met or refused as a whole. -/
structure Resizable (s : Space) (sz : Nat) (n : Int) : Prop where
  sum : 0 < n → sz + n < 4294967296
  covered : 0 < n → sz + n < kernbase → s.Suffices sz (sz + n.toNat) → sz % pgsize ≠ 0 →
    sz / pgsize ∈ s.dir.pages
  clear : 0 < n → sz + n < kernbase → ¬ s.Suffices sz (sz + n.toNat) →
    ∀ q ∈ s.dir.pages, pagesOf sz ≤ q → ¬ q * pgsize < sz + n.toNat
  positive : n < 0 → sz ≠ 0 → 0 ≤ sz + n
  unmapped : n < 0 → sz + n = 0 → ∀ q ∈ s.dir.pages, ¬ q * pgsize < sz

theorem wrapped_exact {s s' : Space} {sz result : Nat} {n : Int} (hn : IsInt n)
    (hsz : sz < 4294967296) (hsum : 4294967296 ≤ sz + n)
    (h : allocuvm s sz (u32OfInt (sz + n)) = .ok (s', result)) :
    ¬ Met s.dir s'.dir sz result n := by
  unfold IsInt at hn
  have hnew : u32OfInt (sz + n) = (sz + n - 4294967296).toNat := by
    unfold u32OfInt
    omega
  rw [hnew] at h
  unfold allocuvm at h
  rw [if_neg (by simp only [kernbase]; omega), if_pos (by omega)] at h
  cases Except.ok.inj h
  intro hmet
  have hsize := hmet.size (by omega)
  omega

theorem grown_exact {s s' : Space} {sz result : Nat} {n : Int} (htabled : s.dir.Tabled)
    (hn : 0 < n) (hbelow : sz + n < kernbase)
    (h : allocuvm s sz (sz + n.toNat) = .ok (s', result)) :
    Met s.dir s'.dir sz result n ↔ Resizable s sz n := by
  have hold : sz ≤ kernbase := by omega
  have hbelow' : sz + n.toNat < kernbase := by omega
  obtain ⟨hframes, rfl, hpages⟩ | ⟨hframes, rfl, hpages⟩ :=
    allocuvm_grown htabled (by omega) hbelow' h
  · have hdone : ¬ (n ≠ 0 ∧ sz + n.toNat = 0) := by omega
    constructor
    · intro hmet
      refine ⟨fun _ => by simp only [kernbase] at hbelow; omega, fun _ _ _ hpart => ?_,
        fun _ _ hshort => absurd hframes hshort, fun hneg => by omega, fun hneg => by omega⟩
      have hmapped := hmet.grown hdone sz le_rfl (by omega)
      rcases (hpages _).mp hmapped with hmem | ⟨hlow, -⟩
      · exact hmem
      · have hin := (lt_pagesOf (q := sz / pgsize) hold).mpr (by simp only [pgsize] at *; omega)
        omega
    · intro hresizable
      refine ⟨fun _ => by omega, fun _ a hlow hhigh => (hpages _).mpr ?_,
        fun _ q hlow hhigh => by omega, fun hfail => absurd hfail hdone⟩
      by_cases hpage : pagesOf sz ≤ a / pgsize
      · refine .inr ⟨hpage, ?_⟩
        have hle := Nat.div_mul_le_self a pgsize
        omega
      · -- `a` lies in the page that the old size ends in
        have hin := (lt_pagesOf hold).mp (not_le.mp hpage)
        have hsame : a / pgsize = sz / pgsize := by
          simp only [pgsize] at *
          omega
        rw [hsame]
        refine .inl (hresizable.covered hn hbelow hframes ?_)
        simp only [pgsize] at *
        omega
  · constructor
    · intro hmet
      refine ⟨fun _ => by simp only [kernbase] at hbelow; omega,
        fun _ _ henough => absurd henough hframes, fun _ _ _ q hq hlow hhigh => ?_,
        fun hneg => by omega, fun hneg => by omega⟩
      rw [← hmet.failed ⟨by omega, rfl⟩, hpages] at hq
      exact hq.2 ⟨hlow, hhigh⟩
    · intro hresizable
      have hfail : n ≠ 0 ∧ 0 = 0 := ⟨by omega, rfl⟩
      refine ⟨fun h => absurd hfail h, fun h => absurd hfail h, fun h => absurd hfail h,
        fun _ => ?_⟩
      ext q
      rw [hpages]
      constructor
      · exact fun hq => hq.1
      · exact fun hq => ⟨hq, fun hrange =>
          hresizable.clear hn hbelow hframes q hq hrange.1 hrange.2⟩

theorem pagesOf_le_of_le {sz q : Nat} (h : sz ≤ q * pgsize) : pagesOf sz ≤ q := by
  have hle : u32 (sz + (pgsize - 1)) ≤ sz + (pgsize - 1) := Nat.mod_le _ _
  unfold pagesOf pgroundup
  simp only [pgsize] at *
  omega

theorem shrunk_exact {s s' : Space} {sz result : Nat} {n : Int} (htabled : s.dir.Tabled)
    (hint : IsInt n) (hn : n < 0) (hsz : sz < 4294967296)
    (h : deallocuvm s sz (u32OfInt (sz + n)) = .ok (s', result)) :
    Met s.dir s'.dir sz result n ↔ Resizable s sz n := by
  unfold IsInt at hint
  have hresult := deallocuvm_result h
  obtain ⟨-, -, hpages⟩ := deallocuvm_spec htabled h
  rcases lt_trichotomy ((sz : Int) + n) 0 with hneg | hzero | hpos
  · -- more than there is: the new size wraps around above the old one
    rw [u32OfInt_neg (by omega) hneg] at hresult hpages
    have hsame : s'.dir.pages = s.dir.pages := by
      ext q
      rw [hpages]
      exact ⟨fun hq => hq.1, fun hq => ⟨hq, fun hrange => by omega⟩⟩
    constructor
    · intro hmet
      refine ⟨fun hn => by omega, fun hn => by omega, fun hn => by omega, fun _ hne => ?_,
        fun _ hzero => by omega⟩
      have hsize := hmet.size (by omega)
      omega
    · intro hresizable
      have hnone : sz = 0 := by
        by_contra hne
        have hle := hresizable.positive hn hne
        omega
      exact ⟨fun hdone => by omega, fun hdone => by omega, fun hdone => by omega, fun _ => hsame⟩
  · rw [hzero] at hresult hpages
    have hnone : pagesOf (u32OfInt 0) = 0 := by decide
    have hnew : u32OfInt 0 = 0 := by decide
    rw [hnew] at hresult
    rw [hnone, hnew] at hpages
    have hfail : n ≠ 0 ∧ result = 0 := ⟨by omega, by omega⟩
    constructor
    · intro hmet
      refine ⟨fun hn => by omega, fun hn => by omega, fun hn => by omega, fun _ _ => by omega,
        fun _ _ q hq hlow => ?_⟩
      rw [← hmet.failed hfail, hpages] at hq
      exact hq.2 ⟨by omega, Nat.zero_le _, hlow⟩
    · intro hresizable
      refine ⟨fun h => absurd hfail h, fun h => absurd hfail h, fun h => absurd hfail h,
        fun _ => ?_⟩
      ext q
      rw [hpages]
      exact ⟨fun hq => hq.1, fun hq => ⟨hq, fun hrange =>
        hresizable.unmapped hn hzero q hq hrange.2.2⟩⟩
  · rw [u32OfInt_eq (by omega) (by omega)] at hresult hpages
    have hdone : ¬ (n ≠ 0 ∧ result = 0) := by omega
    constructor
    · intro _
      exact ⟨fun hn => by omega, fun hn => by omega, fun hn => by omega, fun _ _ => by omega,
        fun _ _ => by omega⟩
    · intro _
      refine ⟨fun _ => by omega, fun _ a hlow hhigh => by omega, fun _ q hlow hhigh hq => ?_,
        fun hfail => absurd hfail hdone⟩
      exact ((hpages q).mp hq).2 ⟨by omega, pagesOf_le_of_le (by omega), hhigh⟩

theorem resize_exact {s s' : Space} {sz result : Nat} {n : Int} (htabled : s.dir.Tabled)
    (hint : IsInt n) (hsz : sz < 4294967296) (h : Kernel.resize s sz n = .ok (s', result)) :
    Met s.dir s'.dir sz result n ↔ Resizable s sz n := by
  unfold Kernel.resize at h
  split at h
  · rename_i hn
    by_cases hsum : (sz : Int) + n < 4294967296
    · rw [u32OfInt_eq (by omega) hsum, Int.toNat_add (by omega) hn.le, Int.toNat_natCast] at h
      by_cases hbelow : (sz : Int) + n < kernbase
      · exact grown_exact htabled hn hbelow h
      · unfold allocuvm at h
        rw [if_pos (by omega)] at h
        cases Except.ok.inj h
        have hfail : n ≠ 0 ∧ 0 = 0 := ⟨by omega, rfl⟩
        constructor
        · intro _
          exact ⟨fun _ => hsum, fun _ h => absurd h hbelow, fun _ h => absurd h hbelow,
            fun hneg => by omega, fun hneg => by omega⟩
        · intro _
          exact ⟨fun h => absurd hfail h, fun h => absurd hfail h, fun h => absurd hfail h,
            fun _ => rfl⟩
    · refine iff_of_false (wrapped_exact hint hsz (by omega) h) fun hresizable => ?_
      have hlt := hresizable.sum hn
      omega
  split at h
  · rename_i hn
    exact shrunk_exact htabled hint hn hsz h
  · cases Except.ok.inj h
    constructor
    · intro _
      exact ⟨fun hn => by omega, fun hn => by omega, fun hn => by omega, fun hn => by omega,
        fun hn => by omega⟩
    · intro _
      exact ⟨fun _ => by omega, fun _ a hlow hhigh => by omega, fun _ q hlow hhigh => by omega,
        fun hfail => by omega⟩

namespace Kernel

/-- The answer 0 stands for the exact new size and its pages, -1 for no change. -/
structure ExactGrowth (k k' : Kernel) (mgr : Slot) (d : DirId) (n r : Int) : Prop where
  size : r = 0 → ((k'.proc mgr).sz : Int) = (k.proc mgr).sz + n
  grown : r = 0 → ∀ a : Nat, (k.proc mgr).sz ≤ a → (a : Int) < (k.proc mgr).sz + n →
    a / pgsize ∈ (k'.dir d).pages
  shrunk : r = 0 → ∀ q : Nat, (k.proc mgr).sz + n ≤ q * pgsize → q * pgsize < (k.proc mgr).sz →
    q ∉ (k'.dir d).pages
  failed : r = -1 → (k'.proc mgr).sz = (k.proc mgr).sz ∧ (k'.dir d).pages = (k.dir d).pages

section

variable {k k' : Kernel} {cur : Slot} {n r : Int}

theorem growproc_cases {mgr : Slot} {d : DirId} (hmgr : k.manager? cur = .ok (some mgr))
    (hd : (k.proc cur).pgdir = some d) (h : k.growproc cur n = .ok (k', r)) :
    ∃ s result, resize (k.space d) (k.proc mgr).sz n = .ok (s, result) ∧
      (k'.dir d).pages = s.dir.pages ∧
      ((n ≠ 0 ∧ result = 0) ∧ r = -1 ∧ (k'.proc mgr).sz = (k.proc mgr).sz ∨
        ¬ (n ≠ 0 ∧ result = 0) ∧ r = 0 ∧ (k'.proc mgr).sz = result) := by
  obtain ⟨mgr', hmgr', h⟩ := bind_eq_ok.mp h
  cases hmgr.symm.trans hmgr'
  obtain ⟨d', hd', h⟩ := bind_eq_ok.mp h
  cases hd.symm.trans (deref_eq_ok hd')
  obtain ⟨⟨s, result⟩, hresize, h⟩ := bind_eq_ok.mp h
  refine ⟨s, result, hresize, ?_⟩
  dsimp only at h
  split at h
  · rename_i hfail
    cases Except.ok.inj h
    exact ⟨by simp [setSpace], .inl ⟨hfail, rfl, rfl⟩⟩
  · rename_i hdone
    cases Except.ok.inj h
    exact ⟨by simp [setSpace, modify], .inr ⟨hdone, rfl, by simp⟩⟩

/-- A `growproc` that returns is exact and atomic if and only if the request neither wraps
around nor takes away the whole space, and the pages below and above the old size are as the
size says. -/
theorem growproc_exact (free : Nat) (hreach : Reaches perform Enabled (boot free) k)
    (hint : IsInt n) (h : k.growproc cur n = .ok (k', r)) :
    (∀ mgr d, k.manager? cur = .ok (some mgr) → (k.proc cur).pgdir = some d →
      ExactGrowth k k' mgr d n r) ↔
    ∀ mgr d, k.manager? cur = .ok (some mgr) → (k.proc cur).pgdir = some d →
      Resizable (k.space d) (k.proc mgr).sz n := by
  have hspaced := spaced_reaches hreach
  refine forall_congr' fun mgr => forall_congr' fun d => ?_
  refine imp_congr_right fun hmgr => imp_congr_right fun hd => ?_
  obtain ⟨s, result, hresize, hpages, hend⟩ := growproc_cases hmgr hd h
  rw [← resize_exact (hspaced.tabled d) hint (hspaced.sz mgr) hresize]
  rcases hend with ⟨hfail, rfl, hsame⟩ | ⟨hdone, rfl, hnew⟩
  · constructor
    · intro hexact
      refine ⟨fun h => absurd hfail h, fun h => absurd hfail h, fun h => absurd hfail h,
        fun _ => ?_⟩
      rw [← hpages, (hexact.failed rfl).2]
      rfl
    · intro hmet
      refine ⟨fun h => by omega, fun h => by omega, fun h => by omega, fun _ => ⟨hsame, ?_⟩⟩
      rw [hpages, hmet.failed hfail]
      rfl
  · constructor
    · intro hexact
      refine ⟨fun _ => ?_, fun _ a hlow hhigh => ?_, fun _ q hlow hhigh => ?_,
        fun hfail => absurd hfail hdone⟩
      · rw [← hnew]
        exact hexact.size rfl
      · rw [← hpages]
        exact hexact.grown rfl a hlow hhigh
      · rw [← hpages]
        exact hexact.shrunk rfl q hlow hhigh
    · intro hmet
      refine ⟨fun _ => ?_, fun _ a hlow hhigh => ?_, fun _ q hlow hhigh => ?_,
        fun h => by omega⟩
      · rw [hnew]
        exact hmet.size hdone
      · rw [hpages]
        exact hmet.grown hdone a hlow hhigh
      · rw [hpages]
        exact hmet.shrunk hdone q hlow hhigh

end

/-- `init` takes two more pages. -/
theorem growproc_exact_init : ∃ k k', Reaches perform Enabled (boot 1000) k ∧
    k.perform (.sbrk 0 8192) = .ok (k', .ret 0) ∧ k.manager? 0 = .ok (some 0) ∧
    (k.proc 0).pgdir = some 0 ∧ ExactGrowth k k' 0 0 8192 0 := by
  obtain ⟨k, hreach, htest⟩ := exists_reaches perform Enabled (boot 1000) [.visit 0 0]
    (fun k => decide ((k.proc 0).tid = 0 ∧ (k.proc 0).pgdir = some 0 ∧ (k.proc 0).sz = 4096 ∧
      (k.space 0).Suffices 4096 12288) &&
      succeeds perform k (.sbrk 0 8192) fun _ out => decide (out = .ret 0)) (by decide +kernel)
  obtain ⟨hstate, hgrow⟩ := Bool.and_eq_true_iff.mp htest
  obtain ⟨htid, hdir, hsz, hframes⟩ := of_decide_eq_true hstate
  obtain ⟨k', out, hstep, hout⟩ := exists_of_succeeds hgrow
  cases of_decide_eq_true hout
  have hmgr : k.manager? 0 = .ok (some 0) := by simp [manager?, htid]
  obtain ⟨⟨k1, r⟩, hdone, heq⟩ := map_eq_ok.mp hstep
  cases heq
  refine ⟨k, k1, hreach, hstep, hmgr, hdir, ?_⟩
  refine (growproc_exact 1000 hreach (by decide) hdone).mpr ?_ 0 0 hmgr hdir
  intro mgr d hmgr' hdir'
  cases hmgr.symm.trans hmgr'
  cases hdir.symm.trans hdir'
  rw [hsz]
  exact ⟨by decide, fun _ _ _ hpart => absurd (by decide) hpart,
    fun _ _ hshort => absurd hframes hshort, by decide, fun hneg => absurd hneg (by decide)⟩

/-- `sbrk` by all of the size fails and unmaps the space; `sbrk` by more than that succeeds
and changes nothing. -/
theorem growproc_inexact :
    (∃ k k', Reaches perform Enabled (boot 1000) k ∧
      k.perform (.sbrk 0 (-4096)) = .ok (k', .ret (-1)) ∧ k.manager? 0 = .ok (some 0) ∧
      (k.proc 0).pgdir = some 0 ∧ 0 ∈ (k.dir 0).pages ∧ 0 ∉ (k'.dir 0).pages ∧
      ¬ ExactGrowth k k' 0 0 (-4096) (-1)) ∧
    ∃ k k', Reaches perform Enabled (boot 1000) k ∧
      k.perform (.sbrk 0 (-8192)) = .ok (k', .ret 0) ∧ k.manager? 0 = .ok (some 0) ∧
      (k.proc 0).pgdir = some 0 ∧ (k.proc 0).sz = 4096 ∧ (k'.proc 0).sz = 4096 ∧
      ¬ ExactGrowth k k' 0 0 (-8192) 0 := by
  constructor
  · obtain ⟨k, hreach, htest⟩ := exists_reaches perform Enabled (boot 1000) [.visit 0 0]
      (fun k => decide ((k.proc 0).tid = 0 ∧ (k.proc 0).pgdir = some 0 ∧ 0 ∈ (k.dir 0).pages) &&
        succeeds perform k (.sbrk 0 (-4096)) fun k' out =>
          decide (out = .ret (-1) ∧ 0 ∉ (k'.dir 0).pages)) (by decide +kernel)
    obtain ⟨hstate, hgrow⟩ := Bool.and_eq_true_iff.mp htest
    obtain ⟨htid, hdir, hmapped⟩ := of_decide_eq_true hstate
    obtain ⟨k', out, hstep, hout⟩ := exists_of_succeeds hgrow
    obtain ⟨rfl, hunmapped⟩ := of_decide_eq_true hout
    refine ⟨k, k', hreach, hstep, by simp [manager?, htid], hdir, hmapped, hunmapped, ?_⟩
    intro hexact
    rw [(hexact.failed rfl).2] at hunmapped
    exact hunmapped hmapped
  · obtain ⟨k, hreach, htest⟩ := exists_reaches perform Enabled (boot 1000) [.visit 0 0]
      (fun k => decide ((k.proc 0).tid = 0 ∧ (k.proc 0).pgdir = some 0 ∧ (k.proc 0).sz = 4096) &&
        succeeds perform k (.sbrk 0 (-8192)) fun k' out =>
          decide (out = .ret 0 ∧ (k'.proc 0).sz = 4096)) (by decide +kernel)
    obtain ⟨hstate, hgrow⟩ := Bool.and_eq_true_iff.mp htest
    obtain ⟨htid, hdir, hsz⟩ := of_decide_eq_true hstate
    obtain ⟨k', out, hstep, hout⟩ := exists_of_succeeds hgrow
    obtain ⟨rfl, hsz'⟩ := of_decide_eq_true hout
    refine ⟨k, k', hreach, hstep, by simp [manager?, htid], hdir, hsz, hsz', ?_⟩
    intro hexact
    have hsize := hexact.size rfl
    omega

end Kernel

end Xv6

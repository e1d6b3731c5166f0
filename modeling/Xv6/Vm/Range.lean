import Xv6.Vm.PageDir
import Xv6.Lib.Fallible
import Mathlib.Order.Interval.Finset.Nat
import Mathlib.Order.Interval.Finset.SuccPred
import Mathlib.Data.Nat.SuccPred

/-! What the allocation loops of `vm.c` do to the set of mapped pages. -/
namespace Xv6

open Word Fallible

def PageDir.Tabled (dir : PageDir) : Prop := ∀ q ∈ dir.pages, q / nptentries ∈ dir.tables

theorem tabled_empty : PageDir.empty.Tabled := by
  intro q hq
  exact absurd hq (Finset.notMem_empty q)

def pagesOf (sz : Nat) : Nat := pgroundup sz / pgsize

theorem pagesOf_eq {sz : Nat} (h : sz ≤ kernbase) : pagesOf sz = (sz + 4095) / 4096 := by
  unfold pagesOf pgroundup
  rw [u32_eq_self (by simp only [kernbase, pgsize] at *; omega)]
  simp only [pgsize]
  omega

theorem pgroundup_eq {sz : Nat} (h : sz ≤ kernbase) : pgroundup sz = pagesOf sz * pgsize := by
  rw [pagesOf_eq h]
  unfold pgroundup
  rw [u32_eq_self (by simp only [kernbase, pgsize] at *; omega)]
  rfl

theorem lt_pagesOf {sz q : Nat} (h : sz ≤ kernbase) : q < pagesOf sz ↔ q * pgsize < sz := by
  rw [pagesOf_eq h]
  simp only [pgsize]
  omega

theorem mul_pgsize_lt {q c : Nat} : q * pgsize < c * pgsize ↔ q < c :=
  Nat.mul_lt_mul_right (show 0 < pgsize by decide)

theorem mul_pgsize_le {q c : Nat} : q * pgsize ≤ c * pgsize ↔ q ≤ c :=
  Nat.mul_le_mul_right_iff (show 0 < pgsize by decide)

theorem pagesOf_mono {m n : Nat} (h : m ≤ n) (hn : n ≤ kernbase) : pagesOf m ≤ pagesOf n := by
  rw [pagesOf_eq hn, pagesOf_eq (h.trans hn)]
  omega

theorem pagesOf_mul (b : Nat) (h : b * pgsize ≤ kernbase) : pagesOf (b * pgsize) = b := by
  rw [pagesOf_eq h]
  simp only [pgsize]
  omega

theorem pagesOf_le {sz : Nat} (h : sz ≤ kernbase) : pagesOf sz * pgsize ≤ kernbase := by
  rw [pagesOf_eq h]
  simp only [pgsize, kernbase] at *
  omega

theorem deallocLoop_spec {s s' : Space} {page oldsz fuel : Nat} (htabled : s.dir.Tabled)
    (hfuel : oldsz / pgsize + 1 ≤ page + fuel) (h : deallocLoop s page oldsz fuel = .ok s') :
    s'.dir.tables = s.dir.tables ∧
      ∀ q, q ∈ s'.dir.pages ↔ q ∈ s.dir.pages ∧ ¬ (page ≤ q ∧ q * pgsize < oldsz) := by
  simp only [pgsize] at hfuel ⊢
  induction fuel generalizing s page with
  | zero =>
    cases Except.ok.inj h
    refine ⟨rfl, fun q => ?_⟩
    have hout : ¬ (page ≤ q ∧ q * 4096 < oldsz) := by omega
    simp [hout]
  | succ fuel ih =>
    unfold deallocLoop at h
    simp only [pgsize] at h
    split at h
    · rename_i hpage
      split at h
      · cases h
      · split at h
        · -- a missing table holds none of the skipped pages
          rename_i htable
          obtain ⟨htables, hpages⟩ := ih htabled (by simp only [nptentries] at *; omega) h
          refine ⟨htables, fun q => ?_⟩
          rw [hpages]
          refine and_congr_right fun hq => not_congr ?_
          have hne : q / nptentries ≠ page / nptentries := by
            intro heq
            exact htable (heq ▸ htabled q hq)
          simp only [nptentries] at *
          omega
        · split at h
          · have herased : PageDir.Tabled { s.dir with pages := s.dir.pages.erase page } :=
              fun q hq => htabled q (Finset.mem_of_mem_erase hq)
            obtain ⟨htables, hpages⟩ := ih herased (by omega) h
            refine ⟨htables, fun q => ?_⟩
            rw [hpages, Finset.mem_erase]
            constructor
            · rintro ⟨⟨hne, hq⟩, hout⟩
              exact ⟨hq, by omega⟩
            · rintro ⟨hq, hout⟩
              refine ⟨⟨?_, hq⟩, by omega⟩
              rintro rfl
              omega
          · rename_i hmem
            obtain ⟨htables, hpages⟩ := ih htabled (by omega) h
            refine ⟨htables, fun q => ?_⟩
            rw [hpages]
            refine and_congr_right fun hq => not_congr ?_
            have hne : q ≠ page := by
              rintro rfl
              exact hmem hq
            omega
    · cases Except.ok.inj h
      refine ⟨rfl, fun q => ?_⟩
      have hout : ¬ (page ≤ q ∧ q * 4096 < oldsz) := by omega
      simp [hout]

theorem PageDir.Tabled.of_subset {dir dir' : PageDir} (h : dir.Tabled)
    (htables : dir'.tables = dir.tables)
    (hpages : dir'.pages ⊆ dir.pages) : dir'.Tabled := by
  intro q hq
  rw [htables]
  exact h q (hpages hq)

theorem deallocuvm_spec {s s' : Space} {oldsz newsz r : Nat} (htabled : s.dir.Tabled)
    (h : deallocuvm s oldsz newsz = .ok (s', r)) :
    s'.dir.Tabled ∧ s'.dir.tables = s.dir.tables ∧
      ∀ q, q ∈ s'.dir.pages ↔ q ∈ s.dir.pages ∧ ¬ (newsz < oldsz ∧ pagesOf newsz ≤ q ∧
        q * pgsize < oldsz) := by
  unfold deallocuvm at h
  split at h
  · rename_i hle
    cases Except.ok.inj h
    have hnot : ¬ newsz < oldsz := by omega
    simp [hnot, htabled]
  · rename_i hlt
    obtain ⟨s1, hloop, heq⟩ := map_eq_ok.mp h
    cases heq
    obtain ⟨htables, hpages⟩ := deallocLoop_spec htabled (Nat.le_add_left _ _) hloop
    have hless : newsz < oldsz := by omega
    refine ⟨PageDir.Tabled.of_subset htabled htables fun q hq => ((hpages q).mp hq).1, htables, ?_⟩
    intro q
    rw [hpages]
    simp [hless, pagesOf]

theorem mappages_ok {s s' : Space} {page : Nat} {user : Bool}
    (h : mappages s page user = .ok (some s')) :
    page ∉ s.dir.pages ∧ s'.dir.pages = insert page s.dir.pages ∧
      s'.dir.tables = insert (page / nptentries) s.dir.tables := by
  unfold mappages walkpgdir at h
  split at h
  · cases h
  · rename_i s1 hwalk
    split at h
    · cases h
    · rename_i hmem
      cases Except.ok.inj h
      split at hwalk
      · rename_i htable
        cases hwalk
        exact ⟨hmem, rfl, (Finset.insert_eq_of_mem htable).symm⟩
      · unfold kalloc at hwalk
        split at hwalk
        · cases hwalk
        · cases hwalk
          exact ⟨hmem, rfl, rfl⟩

theorem mappages_error {s : Space} {page : Nat} {user : Bool} {fault : Fault}
    (h : mappages s page user = .error fault) : fault = .remap ∧ page ∈ s.dir.pages := by
  unfold mappages walkpgdir at h
  split at h
  · cases h
  · rename_i s1 hwalk
    split at h
    · rename_i hmem
      cases h
      refine ⟨rfl, ?_⟩
      split at hwalk
      · cases hwalk
        exact hmem
      · unfold kalloc at hwalk
        split at hwalk
        · cases hwalk
        · cases hwalk
          exact hmem
    · cases h

theorem kalloc_dir {s s' : Space} (h : kalloc s = some s') : s'.dir = s.dir := by
  unfold kalloc at h
  split at h
  · cases h
  · cases h
    rfl

theorem allocLoop_spec {s s' : Space} {page newsz fuel : Nat} {done : Bool}
    (htabled : s.dir.Tabled) (hfuel : newsz / pgsize + 1 ≤ page + fuel)
    (h : allocLoop s page newsz fuel = .ok (s', done)) :
    s'.dir.Tabled ∧ s.dir.pages ⊆ s'.dir.pages ∧
      (∀ q ∈ s'.dir.pages, q ∈ s.dir.pages ∨ page ≤ q ∧ q * pgsize < newsz) ∧
      (done = true → ∀ q, page ≤ q → q * pgsize < newsz → q ∈ s'.dir.pages) := by
  simp only [pgsize] at hfuel ⊢
  induction fuel generalizing s page with
  | zero =>
    cases Except.ok.inj h
    refine ⟨htabled, Finset.Subset.refl _, fun q hq => .inl hq, fun _ q hlow hhigh => ?_⟩
    omega
  | succ fuel ih =>
    unfold allocLoop at h
    simp only [pgsize] at h
    split at h
    · rename_i hpage
      split at h
      · cases Except.ok.inj h
        exact ⟨htabled, Finset.Subset.refl _, fun q hq => .inl hq, by simp⟩
      · rename_i s1 halloc
        have hdir := kalloc_dir halloc
        split at h
        · cases h
        · cases Except.ok.inj h
          simp only [kfree, hdir]
          exact ⟨htabled, Finset.Subset.refl _, fun q hq => .inl hq, by simp⟩
        · rename_i s2 hmap
          obtain ⟨-, hpages, htables⟩ := mappages_ok hmap
          rw [hdir] at hpages htables
          have htabled2 : s2.dir.Tabled := by
            intro q hq
            rw [htables]
            rw [hpages] at hq
            rcases Finset.mem_insert.mp hq with rfl | hq
            · exact Finset.mem_insert_self _ _
            · exact Finset.mem_insert_of_mem (htabled q hq)
          obtain ⟨htabled', hsub, honly, hall⟩ := ih htabled2 (by omega) h
          refine ⟨htabled', ?_, ?_, ?_⟩
          · intro q hq
            apply hsub
            rw [hpages]
            exact Finset.mem_insert_of_mem hq
          · intro q hq
            rcases honly q hq with hq2 | hrange
            · rw [hpages] at hq2
              rcases Finset.mem_insert.mp hq2 with rfl | hq2
              · exact .inr ⟨le_rfl, hpage⟩
              · exact .inl hq2
            · exact .inr ⟨by omega, hrange.2⟩
          · intro hdone q hlow hhigh
            by_cases heq : q = page
            · apply hsub
              rw [hpages, heq]
              exact Finset.mem_insert_self _ _
            · exact hall hdone q (by omega) hhigh
    · cases Except.ok.inj h
      refine ⟨htabled, Finset.Subset.refl _, fun q hq => .inl hq, fun _ q hlow hhigh => ?_⟩
      omega

theorem allocLoop_error {s : Space} {page newsz fuel : Nat} {fault : Fault}
    (h : allocLoop s page newsz fuel = .error fault) :
    fault = .remap ∧ ∃ q ∈ s.dir.pages, page ≤ q ∧ q * pgsize < newsz := by
  induction fuel generalizing s page with
  | zero => cases h
  | succ fuel ih =>
    unfold allocLoop at h
    split at h
    · rename_i hpage
      split at h
      · cases h
      · rename_i s1 halloc
        have hdir := kalloc_dir halloc
        split at h
        · rename_i fault' hmap
          cases h
          obtain ⟨hremap, hmem⟩ := mappages_error hmap
          exact ⟨hremap, page, hdir ▸ hmem, le_rfl, hpage⟩
        · cases h
        · rename_i s2 hmap
          obtain ⟨-, hpages, -⟩ := mappages_ok hmap
          rw [hdir] at hpages
          obtain ⟨hremap, q, hq, hlow, hhigh⟩ := ih h
          rw [hpages] at hq
          refine ⟨hremap, q, ?_, by omega, hhigh⟩
          rcases Finset.mem_insert.mp hq with rfl | hq
          · omega
          · exact hq
    · cases h

inductive Allocates (s : Space) (oldsz newsz : Nat) (s' : Space) : Nat → Prop where
  | refused (large : kernbase ≤ newsz) (dir : s'.dir = s.dir) : Allocates s oldsz newsz s' 0
  | smaller (less : newsz < oldsz) (dir : s'.dir = s.dir) : Allocates s oldsz newsz s' oldsz
  | grown (more : oldsz ≤ newsz) (below : newsz < kernbase)
      (pages : ∀ q, q ∈ s'.dir.pages ↔
        q ∈ s.dir.pages ∨ pagesOf oldsz ≤ q ∧ q * pgsize < newsz) :
      Allocates s oldsz newsz s' newsz
  | failed (more : oldsz ≤ newsz) (below : newsz < kernbase)
      (pages : ∀ q, q ∈ s'.dir.pages ↔
        q ∈ s.dir.pages ∧ ¬ (pagesOf oldsz ≤ q ∧ q * pgsize < newsz)) :
      Allocates s oldsz newsz s' 0

theorem allocuvm_spec {s s' : Space} {oldsz newsz r : Nat} (htabled : s.dir.Tabled)
    (h : allocuvm s oldsz newsz = .ok (s', r)) :
    s'.dir.Tabled ∧ Allocates s oldsz newsz s' r := by
  unfold allocuvm at h
  split at h
  · rename_i hlarge
    cases Except.ok.inj h
    exact ⟨htabled, .refused hlarge rfl⟩
  · rename_i hbelow
    split at h
    · rename_i hless
      cases Except.ok.inj h
      exact ⟨htabled, .smaller hless rfl⟩
    · rename_i hmore
      split at h
      · cases h
      · rename_i s1 hloop
        cases Except.ok.inj h
        obtain ⟨htabled', hsub, honly, hall⟩ :=
          allocLoop_spec htabled (Nat.le_add_left _ _) hloop
        refine ⟨htabled', .grown (by omega) (by omega) fun q => ⟨honly q, ?_⟩⟩
        rintro (hq | ⟨hlow, hhigh⟩)
        · exact hsub hq
        · exact hall rfl q hlow hhigh
      · rename_i s1 hloop
        obtain ⟨⟨s2, r2⟩, hdealloc, heq⟩ := map_eq_ok.mp h
        cases heq
        obtain ⟨htabled1, hsub, honly, -⟩ := allocLoop_spec htabled (Nat.le_add_left _ _) hloop
        obtain ⟨htabled', -, hpages⟩ := deallocuvm_spec htabled1 hdealloc
        refine ⟨htabled', .failed (by omega) (by omega) fun q => ?_⟩
        have hless : ∀ q, pagesOf oldsz ≤ q ∧ q * pgsize < newsz → oldsz < newsz := by
          rintro q ⟨hlow, hhigh⟩
          have hout := mt (lt_pagesOf (show oldsz ≤ kernbase by omega)).mpr (not_lt.mpr hlow)
          omega
        -- the loop maps no page outside the range that is then unmapped
        rw [hpages]
        constructor
        · rintro ⟨hq, hout⟩
          rcases honly q hq with hold | ⟨hlow, hhigh⟩
          · exact ⟨hold, fun hin => hout ⟨hless q hin, hin⟩⟩
          · exact absurd ⟨hless q ⟨hlow, hhigh⟩, hlow, hhigh⟩ hout
        · rintro ⟨hq, hout⟩
          exact ⟨hsub hq, fun hin => hout hin.2⟩

theorem deallocLoop_error {s : Space} {page oldsz fuel : Nat} {fault : Fault}
    (h : deallocLoop s page oldsz fuel = .error fault) : fault = .kernelPage := by
  induction fuel generalizing s page with
  | zero => cases h
  | succ fuel ih =>
    unfold deallocLoop at h
    split at h
    · split at h
      · cases h
        rfl
      · split at h
        · exact ih h
        · split at h
          · exact ih h
          · exact ih h
    · cases h

theorem deallocuvm_error {s : Space} {oldsz newsz : Nat} {fault : Fault}
    (h : deallocuvm s oldsz newsz = .error fault) : fault = .kernelPage := by
  unfold deallocuvm at h
  split at h
  · cases h
  · exact deallocLoop_error (map_eq_error.mp h)

theorem allocuvm_remap {s : Space} {oldsz newsz : Nat}
    (h : allocuvm s oldsz newsz = .error .remap) :
    ∃ q ∈ s.dir.pages, pagesOf oldsz ≤ q ∧ q * pgsize < newsz := by
  unfold allocuvm at h
  split at h
  · cases h
  · split at h
    · cases h
    · split at h
      · rename_i hloop
        exact (allocLoop_error hloop).2
      · cases h
      · cases deallocuvm_error (map_eq_error.mp h)

theorem clearpteu_pages {s s' : Space} {page : Nat} (h : clearpteu s page = .ok s') :
    s'.dir.pages = s.dir.pages ∧ s'.dir.tables = s.dir.tables := by
  unfold clearpteu at h
  split at h
  · cases h
  · split at h
    · cases Except.ok.inj h
      exact ⟨rfl, rfl⟩
    · cases Except.ok.inj h
      exact ⟨rfl, rfl⟩

theorem clearpteu_guards {s s' : Space} {page : Nat} (h : clearpteu s page = .ok s') :
    s'.dir.guards ⊆ insert page s.dir.guards := by
  unfold clearpteu at h
  split at h
  · cases h
  · split at h
    · cases Except.ok.inj h
      exact Finset.Subset.refl _
    · cases Except.ok.inj h
      exact Finset.subset_insert _ _

theorem clearpteu_error {s : Space} {page : Nat} {fault : Fault}
    (h : clearpteu s page = .error fault) : fault = .clearpteu := by
  unfold clearpteu at h
  split at h
  · cases h
    rfl
  · split at h
    · cases h
    · cases h

theorem copyoutLoop_error {dir : PageDir} {page count : Nat} {fault : Fault}
    (h : copyoutLoop dir page count = .error fault) : fault = .nullPointer := by
  induction count generalizing page with
  | zero => cases h
  | succ count ih =>
    unfold copyoutLoop at h
    split at h
    · cases h
      rfl
    · split at h
      · exact ih h
      · cases h

/-- Frames that mapping the pages `[page, stop)` takes: one for each page and one for
each page table that is not there yet. -/
def framesNeeded (dir : PageDir) (page stop : Nat) : Nat :=
  stop - page + ((Finset.Ico page stop).image (· / nptentries) \ dir.tables).card

theorem framesNeeded_step (dir dir' : PageDir) {page stop : Nat} (hpage : page < stop)
    (htables : dir'.tables = insert (page / nptentries) dir.tables) :
    framesNeeded dir page stop = framesNeeded dir' (page + 1) stop + 1 +
      if page / nptentries ∈ dir.tables then 0 else 1 := by
  have hico : (Finset.Ico page stop).image (· / nptentries) =
      insert (page / nptentries) ((Finset.Ico (page + 1) stop).image (· / nptentries)) := by
    have hinsert : Finset.Ico page stop = insert page (Finset.Ico (page + 1) stop) :=
      (Finset.insert_Ico_succ_left_eq_Ico hpage).symm
    rw [hinsert, Finset.image_insert]
  unfold framesNeeded
  rw [hico, htables]
  split
  · rename_i hmem
    rw [Finset.insert_sdiff_of_mem _ hmem, Finset.insert_eq_of_mem hmem]
    omega
  · rename_i hmem
    have hsplit : insert (page / nptentries) ((Finset.Ico (page + 1) stop).image (· / nptentries))
        \ dir.tables = insert (page / nptentries)
          ((Finset.Ico (page + 1) stop).image (· / nptentries) \
            insert (page / nptentries) dir.tables) := by
      grind
    rw [hsplit, Finset.card_insert_of_notMem (by simp)]
    omega

theorem mappages_free {s s' : Space} {page : Nat} {user : Bool}
    (h : mappages s page user = .ok (some s')) :
    s.free = s'.free + if page / nptentries ∈ s.dir.tables then 0 else 1 := by
  unfold mappages walkpgdir at h
  split at h
  · cases h
  · rename_i s1 hwalk
    split at h
    · cases h
    · cases Except.ok.inj h
      split at hwalk
      · cases hwalk
        simp_all
      · rename_i htable
        rw [if_neg htable]
        unfold kalloc at hwalk
        split at hwalk
        · cases hwalk
        · cases hwalk
          dsimp only
          omega

theorem mappages_none {s : Space} {page : Nat} {user : Bool}
    (h : mappages s page user = .ok none) : s.free = 0 ∧ page / nptentries ∉ s.dir.tables := by
  unfold mappages walkpgdir at h
  split at h
  · rename_i hwalk
    split at hwalk
    · cases hwalk
    · rename_i htable
      refine ⟨?_, htable⟩
      unfold kalloc at hwalk
      split at hwalk
      · assumption
      · cases hwalk
  · split at h
    · cases h
    · cases h

theorem allocLoop_frames {s s' : Space} {page newsz fuel : Nat} (hbelow : newsz ≤ kernbase)
    (h : allocLoop s page newsz fuel = .ok (s', false)) :
    s.free < framesNeeded s.dir page (pagesOf newsz) := by
  induction fuel generalizing s page with
  | zero => cases h
  | succ fuel ih =>
    unfold allocLoop at h
    split at h
    · rename_i hpage
      have hstop : page < pagesOf newsz := (lt_pagesOf hbelow).mpr hpage
      have hneeded := framesNeeded_step s.dir
        { s.dir with tables := insert (page / nptentries) s.dir.tables } hstop rfl
      split at h
      · rename_i hempty
        have hfree : s.free = 0 := by
          unfold kalloc at hempty
          split at hempty
          · assumption
          · cases hempty
        omega
      · rename_i s1 halloc
        have hdir := kalloc_dir halloc
        have hfree : s.free = s1.free + 1 := by
          unfold kalloc at halloc
          split at halloc
          · cases halloc
          · cases halloc
            dsimp only
            omega
        split at h
        · cases h
        · rename_i hmap
          obtain ⟨hnone, htable⟩ := mappages_none hmap
          rw [hdir] at htable
          rw [if_neg htable] at hneeded
          omega
        · rename_i s2 hmap
          obtain ⟨-, -, htables⟩ := mappages_ok hmap
          have hused := mappages_free hmap
          rw [hdir] at htables hused
          have hstep := framesNeeded_step s.dir s2.dir hstop htables
          have hrest := ih h
          omega
    · cases h

theorem allocuvm_frames {s s' : Space} {oldsz newsz : Nat} (hmore : oldsz ≤ newsz)
    (hpositive : 0 < newsz) (hbelow : newsz < kernbase)
    (hframes : framesNeeded s.dir (pagesOf oldsz) (pagesOf newsz) ≤ s.free)
    (h : allocuvm s oldsz newsz = .ok (s', 0)) : False := by
  unfold allocuvm at h
  rw [if_neg (by omega), if_neg (by omega)] at h
  split at h
  · cases h
  · cases Except.ok.inj h
    omega
  · rename_i hloop
    have hless := allocLoop_frames (by omega) hloop
    exact absurd hframes (not_le.mpr hless)

theorem mappages_guards {s s' : Space} {page : Nat} (h : mappages s page true = .ok (some s')) :
    s'.dir.guards = s.dir.guards.erase page := by
  unfold mappages walkpgdir at h
  split at h
  · cases h
  · rename_i s1 hwalk
    split at h
    · cases h
    · cases Except.ok.inj h
      split at hwalk
      · cases hwalk
        rfl
      · obtain ⟨s2, halloc, hs2⟩ := Option.map_eq_some_iff.mp hwalk
        rw [← hs2, ← kalloc_dir halloc]
        rfl

theorem allocLoop_user {s s' : Space} {page newsz fuel : Nat}
    (hfuel : newsz / pgsize + 1 ≤ page + fuel)
    (h : allocLoop s page newsz fuel = .ok (s', true)) :
    s.dir.pages ⊆ s'.dir.pages ∧ s'.dir.guards ⊆ s.dir.guards ∧
      ∀ q, page ≤ q → q * pgsize < newsz → q ∈ s'.dir.pages ∧ q ∉ s'.dir.guards := by
  simp only [pgsize] at hfuel ⊢
  induction fuel generalizing s page with
  | zero =>
    cases Except.ok.inj h
    refine ⟨Finset.Subset.refl _, Finset.Subset.refl _, fun q hlow hhigh => ?_⟩
    omega
  | succ fuel ih =>
    unfold allocLoop at h
    simp only [pgsize] at h
    split at h
    · split at h
      · cases h
      · rename_i s1 halloc
        have hdir := kalloc_dir halloc
        split at h
        · cases h
        · cases h
        · rename_i s2 hmap
          obtain ⟨-, hpages, -⟩ := mappages_ok hmap
          have hguards := mappages_guards hmap
          rw [hdir] at hpages hguards
          obtain ⟨hsub, hless, hall⟩ := ih (by omega) h
          rw [hpages] at hsub
          rw [hguards] at hless
          refine ⟨fun q hq => hsub (Finset.mem_insert_of_mem hq),
            hless.trans (Finset.erase_subset _ _), fun q hlow hhigh => ?_⟩
          by_cases heq : q = page
          · subst heq
            exact ⟨hsub (Finset.mem_insert_self _ _),
              fun hmem => Finset.notMem_erase q _ (hless hmem)⟩
          · exact hall q (by omega) hhigh
    · cases Except.ok.inj h
      refine ⟨Finset.Subset.refl _, Finset.Subset.refl _, fun q hlow hhigh => ?_⟩
      omega

theorem allocuvm_fits {s s' : Space} {oldsz newsz r : Nat} (hmore : oldsz ≤ newsz)
    (hbelow : newsz < kernbase)
    (hframes : framesNeeded s.dir (pagesOf oldsz) (pagesOf newsz) ≤ s.free)
    (h : allocuvm s oldsz newsz = .ok (s', r)) :
    r = newsz ∧ ∀ q, pagesOf oldsz ≤ q → q * pgsize < newsz →
      q ∈ s'.dir.pages ∧ q ∉ s'.dir.guards := by
  unfold allocuvm at h
  rw [if_neg (by omega), if_neg (by omega)] at h
  split at h
  · cases h
  · rename_i s1 hloop
    cases Except.ok.inj h
    exact ⟨rfl, (allocLoop_user (Nat.le_add_left _ _) hloop).2.2⟩
  · rename_i hloop
    have hless := allocLoop_frames (by omega) hloop
    exact absurd hframes (not_le.mpr hless)

theorem deallocLoop_total (s : Space) (page fuel : Nat) {oldsz : Nat} (hold : oldsz ≤ kernbase) :
    ∃ s', deallocLoop s page oldsz fuel = .ok s' := by
  induction fuel generalizing s page with
  | zero => exact ⟨s, rfl⟩
  | succ fuel ih =>
    unfold deallocLoop
    split
    · rename_i hpage
      rw [if_neg (by simp only [pgsize, kernbase, KernelMapped, kernpage] at *; omega)]
      split
      · exact ih _ _
      split
      · exact ih _ _
      · exact ih _ _
    · exact ⟨s, rfl⟩

theorem deallocuvm_total (s : Space) (newsz : Nat) {oldsz : Nat} (hold : oldsz ≤ kernbase) :
    ∃ r, deallocuvm s oldsz newsz = .ok r := by
  unfold deallocuvm
  split
  · exact ⟨_, rfl⟩
  · obtain ⟨s', hloop⟩ := deallocLoop_total s (pgroundup newsz / pgsize) (oldsz / pgsize + 1) hold
    rw [hloop]
    exact ⟨_, rfl⟩

theorem freevm_total (s : Space) : ∃ left, freevm s = .ok left := by
  obtain ⟨r, hr⟩ := deallocuvm_total s 0 (le_refl kernbase)
  unfold freevm
  rw [hr]
  exact ⟨_, rfl⟩

end Xv6

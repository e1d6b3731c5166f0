import Xv6.Group.Layout

/-! The pages that `fork` copies. `copyuvm` stops the kernel at a page of `[0, sz)` that
is not mapped, so it relies on every operation of the group to leave no hole below the
size of the manager. -/
namespace Xv6

open Word Fallible Transition

structure PageDir.Full (dir : PageDir) (sz : Nat) : Prop where
  tabled : dir.Tabled
  below : sz ≤ kernbase
  pages : ∀ q, q * pgsize < sz → q ∈ dir.pages

theorem PageDir.Full.keep {dir dir' : PageDir} {sz : Nat} (h : dir.Full sz)
    (htabled : dir'.Tabled)
    (hkeep : ∀ q, q * pgsize < sz → q ∈ dir.pages → q ∈ dir'.pages) : dir'.Full sz :=
  ⟨htabled, h.below, fun q hq => hkeep q hq (h.pages q hq)⟩

theorem full_empty : PageDir.empty.Full 0 :=
  ⟨tabled_empty, Nat.zero_le _, fun _ hq => absurd hq (Nat.not_lt_zero _)⟩

theorem PageDir.Full.pgroundup {dir : PageDir} {sz : Nat} (h : dir.Full sz) :
    dir.Full (pgroundup sz) := by
  rw [pgroundup_eq h.below]
  refine ⟨h.tabled, pagesOf_le h.below, fun q hq => ?_⟩
  exact h.pages q ((lt_pagesOf h.below).mp (mul_pgsize_lt.mp hq))

theorem full_allocuvm {s s' : Space} {oldsz newsz r : Nat} (h : s.dir.Full oldsz)
    (halloc : allocuvm s oldsz newsz = .ok (s', r)) (hr : r ≠ 0) : s'.dir.Full r := by
  obtain ⟨htabled, halloc⟩ := allocuvm_spec h.tabled halloc
  cases halloc with
  | refused => exact absurd rfl hr
  | smaller _ hdir =>
    rw [hdir]
    exact h
  | grown _ hbelow hpages =>
    refine ⟨htabled, hbelow.le, fun q hq => (hpages q).mpr ?_⟩
    by_cases hlow : q < pagesOf oldsz
    · exact .inl (h.pages q ((lt_pagesOf h.below).mp hlow))
    · exact .inr ⟨not_lt.mp hlow, hq⟩
  | failed => exact absurd rfl hr

theorem full_allocuvm_above {s s' : Space} {oldsz newsz sz r : Nat} (h : s.dir.Full sz)
    (hsz : sz ≤ oldsz) (hold : oldsz ≤ kernbase) (halloc : allocuvm s oldsz newsz = .ok (s', r)) :
    s'.dir.Full sz := by
  obtain ⟨htabled, halloc⟩ := allocuvm_spec h.tabled halloc
  refine h.keep htabled fun q hq hmem => ?_
  cases halloc with
  | refused _ hdir =>
    rw [hdir]
    exact hmem
  | smaller _ hdir =>
    rw [hdir]
    exact hmem
  | grown _ _ hpages => exact (hpages q).mpr (.inl hmem)
  | failed _ _ hpages =>
    refine (hpages q).mpr ⟨hmem, fun hrange => ?_⟩
    have hlow := (lt_pagesOf hold).mpr (hq.trans_le hsz)
    omega

theorem allocuvm_result {s s' : Space} {oldsz newsz r : Nat} (htabled : s.dir.Tabled)
    (halloc : allocuvm s oldsz newsz = .ok (s', r)) (hr : r ≠ 0) :
    newsz < oldsz ∧ r = oldsz ∨ r = newsz ∧ newsz < kernbase := by
  cases (allocuvm_spec htabled halloc).2 with
  | refused => exact absurd rfl hr
  | smaller hless _ => exact .inl ⟨hless, rfl⟩
  | grown _ hbelow _ => exact .inr ⟨rfl, hbelow⟩
  | failed => exact absurd rfl hr

theorem full_deallocuvm {s s' : Space} {oldsz newsz sz r : Nat} (h : s.dir.Full sz)
    (hsz : sz ≤ newsz) (hnew : newsz ≤ kernbase)
    (hdealloc : deallocuvm s oldsz newsz = .ok (s', r)) :
    s'.dir.Full sz := by
  obtain ⟨htabled, -, hpages⟩ := deallocuvm_spec h.tabled hdealloc
  refine h.keep htabled fun q hq hmem => (hpages q).mpr ⟨hmem, fun hrange => ?_⟩
  have hlow := (lt_pagesOf hnew).mpr (hq.trans_le hsz)
  omega

theorem PageDir.Full.mono {dir : PageDir} {sz sz' : Nat} (h : dir.Full sz) (hsz : sz' ≤ sz) :
    dir.Full sz' :=
  ⟨h.tabled, hsz.trans h.below, fun q hq => h.pages q (hq.trans_le hsz)⟩

theorem PageDir.Full.of_pages {dir dir' : PageDir} {sz : Nat} (h : dir.Full sz)
    (hpages : dir'.pages = dir.pages) (htables : dir'.tables = dir.tables) : dir'.Full sz := by
  refine h.keep (h.tabled.of_subset htables hpages.subset) fun q _ hq => ?_
  rw [hpages]
  exact hq

theorem full_clearpteu {s s' : Space} {page sz : Nat} (h : s.dir.Full sz)
    (hclear : clearpteu s page = .ok s') : s'.dir.Full sz := by
  obtain ⟨hpages, htables⟩ := clearpteu_pages hclear
  exact h.of_pages hpages htables

theorem full_loadSegment {file : ElfFile} {s s' : Space} {sz sz' : Nat} {ph : Option ProgHdr}
    (h : s.dir.Full sz) (hload : loadSegment file s sz ph = .ok (s', some sz')) :
    s'.dir.Full sz' := by
  unfold loadSegment at hload
  split at hload
  · cases hload
  · split at hload
    · cases Except.ok.inj hload
      exact h
    · split at hload
      · cases hload
      · split at hload
        · cases hload
        · obtain ⟨⟨s1, result⟩, halloc, hload⟩ := bind_eq_ok.mp hload
          dsimp only at hload
          split at hload
          · cases hload
          · rename_i hresult
            split at hload
            · cases hload
            · obtain ⟨loaded, -, hload⟩ := bind_eq_ok.mp hload
              split at hload
              · cases Except.ok.inj hload
                exact full_allocuvm h halloc hresult
              · cases hload

theorem full_loadSegments {file : ElfFile} {phs : List (Option ProgHdr)} {s s' : Space}
    {sz sz' : Nat} (h : s.dir.Full sz) (hload : loadSegments file phs s sz = .ok (s', some sz')) :
    s'.dir.Full sz' := by
  induction phs generalizing s sz with
  | nil =>
    cases Except.ok.inj hload
    exact h
  | cons ph rest ih =>
    obtain ⟨⟨s1, next⟩, hone, hload⟩ := bind_eq_ok.mp hload
    cases next with
    | none => cases hload
    | some sz1 => exact ih (full_loadSegment h hone) hload

theorem full_buildImage {file : ElfFile} {argv : List Nat} {fresh s : Space} {sz sp : Nat}
    (h : fresh.dir.Full 0) (hbuild : buildImage file argv fresh = .ok (s, some (sz, sp))) :
    s.dir.Full sz := by
  obtain ⟨⟨s1, size⟩, hload, hbuild⟩ := bind_eq_ok.mp hbuild
  cases size with
  | none => cases hbuild
  | some size =>
    have hloaded := (full_loadSegments h hload).pgroundup
    obtain ⟨⟨s2, top⟩, halloc, hbuild⟩ := bind_eq_ok.mp hbuild
    dsimp only at hbuild
    split at hbuild
    · cases hbuild
    · rename_i htop
      have hstack := full_allocuvm hloaded halloc htop
      obtain ⟨s3, hclear, hbuild⟩ := bind_eq_ok.mp hbuild
      obtain ⟨pushed, -, hbuild⟩ := bind_eq_ok.mp hbuild
      split at hbuild
      · cases hbuild
      · obtain ⟨copied, -, hbuild⟩ := bind_eq_ok.mp hbuild
        split at hbuild
        · cases Except.ok.inj hbuild
          exact full_clearpteu hstack hclear
        · cases hbuild

theorem PageDir.Full.present {dir : PageDir} {sz page : Nat} (h : dir.Full sz)
    (hpage : page * pgsize < sz) : dir.HasEntry page ∧ dir.Present page := by
  have hkern : page < kernpage := by
    have hbelow := hpage.trans_le h.below
    simp only [pgsize, kernbase, kernpage] at *
    omega
  have hmem := h.pages page hpage
  exact ⟨.inl ⟨hkern, h.tabled page hmem⟩, .inl ⟨hkern, hmem⟩⟩

theorem copyLoop_error {parent : PageDir} {child : Space} {page sz fuel : Nat} {fault : Fault}
    (h : parent.Full sz) (hcopy : copyLoop parent child page sz fuel = .error fault) :
    fault = .remap := by
  induction fuel generalizing child page with
  | zero => cases hcopy
  | succ fuel ih =>
    unfold copyLoop at hcopy
    split at hcopy
    · rename_i hpage
      obtain ⟨hentry, hpresent⟩ := h.present hpage
      rw [if_neg (not_not.mpr hentry), if_neg (not_not.mpr hpresent)] at hcopy
      split at hcopy
      · cases hcopy
      · split at hcopy
        · cases hcopy
          rfl
        · split at hcopy
          · rename_i hmap
            cases hcopy
            exact (mappages_error hmap).1
          · cases hcopy
          · exact ih hcopy
    · cases hcopy

theorem copyuvm_error {parent : PageDir} {free sz : Nat} {fault : Fault} (h : parent.Full sz)
    (hcopy : copyuvm parent free sz = .error fault) : fault = .remap ∨ fault = .kernelPage := by
  unfold copyuvm at hcopy
  split at hcopy
  · cases hcopy
  · split at hcopy
    · rename_i hloop
      cases hcopy
      exact .inl (copyLoop_error h hloop)
    · cases hcopy
    · exact .inr (deallocuvm_error (map_eq_error.mp (map_eq_error.mp hcopy)))

namespace Kernel

def CopyPanic (fault : Fault) : Prop := fault = .copyuvmPte ∨ fault = .copyuvmPage

theorem fork_no_panic {k : Kernel} {cur mgr : Slot} {d : DirId} {l : Layout} {fault : Fault}
    (hcur : (k.proc cur).Live) (hcaller : Caller k mgr d cur) (hl : k.layout mgr = some l)
    (hfull : (k.dir d).Full l.sz) (h : k.fork cur = .error fault) : ¬ CopyPanic fault := by
  obtain ⟨hused, hsz, -⟩ := layout_eq_some hl
  unfold fork at h
  split at h
  · cases h
  · rename_i k0 np halloc
    have taken := taken_of_allocproc halloc
    rcases bind_eq_error.mp h with hmanager | ⟨mgr?, hmanager, h⟩
    · rw [manager?_error hmanager]
      simp [CopyPanic]
    · rw [taken.manager? hcur] at hmanager
      cases mgr? with
      | none => cases h
      | some m =>
        cases hcaller.manager m hmanager
        have hnp : ∀ i, (k.proc i).state ≠ .unused → k0.proc i = k.proc i := by
          intro i hi
          apply taken.others
          rintro rfl
          exact hi taken.spawning.before
        rcases bind_eq_error.mp h with hd | ⟨d', hd, h⟩
        · rw [deref_eq_error hd]
          simp [CopyPanic]
        · rw [hnp cur hcur.1, hcaller.pgdir] at hd
          cases Except.ok.inj hd
          rcases bind_eq_error.mp h with hcopy | ⟨⟨pages, left⟩, -, h⟩
          · rw [hnp mgr hused, hsz, taken.dir] at hcopy
            rcases copyuvm_error hfull hcopy with rfl | rfl <;> simp [CopyPanic]
          · cases pages with
            | none => cases h
            | some pages =>
              rcases bind_eq_error.mp h with hdup | ⟨k1, -, h⟩
              · rcases dupFiles_error hdup with rfl | rfl <;> simp [CopyPanic]
              · cases h

theorem still_cleanupLwp (k : Kernel) (mgr : Slot) (lwp : Option Slot) :
    Still k (k.cleanupLwp mgr lwp) := by
  refine still_of_layout rfl fun i => ?_
  simp only [cleanupLwp]
  split
  · exact Proc.layout_wake _ _
  · rfl

theorem commitImage_layout {k k' : Kernel} {cur : Slot} {s : Space} {entry sz sp : Nat} {r : Int}
    {l : Layout} (hl : k.layout cur = some l)
    (h : k.commitImage cur s entry sz sp = .ok (k', r)) :
    k'.dir k.nextdir = s.dir ∧
      k'.layout = Function.update k.layout cur
        (some { l with sz := sz, pgdir := some k.nextdir }) := by
  obtain ⟨hused, -, hstack, htid, hmanager, -⟩ := layout_eq_some hl
  have hlayout : ((k.addDir s.dir s.free).modify cur fun p => { p with
      pgdir := some k.nextdir, sz := sz, tf := { p.tf with eip := entry, esp := sp } }).layout =
      Function.update k.layout cur (some { l with sz := sz, pgdir := some k.nextdir }) := by
    rw [layout_modify, Proc.layout_used (by exact hused)]
    simp only [addDir, hstack, htid, hmanager]
    rfl
  unfold commitImage at h
  dsimp only at h
  split at h
  · split at h
    · obtain ⟨left, -, h⟩ := bind_eq_ok.mp h
      cases Except.ok.inj h
      exact ⟨by simp [addDir, modify], hlayout⟩
    · cases h
  · cases Except.ok.inj h
    exact ⟨by simp [addDir, modify], hlayout⟩

theorem exec_layout {k k' : Kernel} {mgr : Slot} {l : Layout} {file : Option ElfFile}
    {argv : List Nat} {r : Int} (hl : k.layout mgr = some l) (htid : l.tid = 0)
    (h : k.exec mgr file argv = .ok (k', r)) :
    Still k k' ∨ ∃ sz, (k'.dir k.nextdir).Full sz ∧
      k'.layout mgr = some { l with sz := sz, pgdir := some k.nextdir } ∧
      ∀ i, i ≠ mgr → k'.layout i = k.layout i := by
  have htid' : (k.proc mgr).tid = 0 := (layout_eq_some hl).2.2.2.1.trans htid
  unfold exec at h
  split at h
  · rename_i file fresh hsetup
    have hfresh : fresh.dir.Full 0 := by
      unfold setupkvm at hsetup
      split at hsetup
      · cases hsetup
      · cases hsetup
        exact full_empty
    obtain ⟨⟨s, image⟩, hbuild, h⟩ := bind_eq_ok.mp h
    cases image with
    | none =>
      obtain ⟨left, -, heq⟩ := map_eq_ok.mp h
      cases heq
      exact .inl ⟨rfl, rfl⟩
    | some image =>
      obtain ⟨sz, sp⟩ := image
      have hfull := full_buildImage hfresh hbuild
      dsimp only at h
      rw [htid', if_neg (by omega), if_pos rfl] at h
      have hstill := still_cleanupLwp k mgr none
      rw [← hstill.layout] at hl
      obtain ⟨hdir, hlayout⟩ := commitImage_layout hl h
      rw [hstill.layout] at hlayout
      refine .inr ⟨sz, ?_, ?_, fun i hi => ?_⟩
      · exact hdir ▸ hfull
      · rw [hlayout, Function.update_self]
        rfl
      · rw [hlayout, Function.update_of_ne hi]
  · cases Except.ok.inj h
    exact .inl (.refl _)

structure Formed (k : Kernel) (mgr : Slot) (d : DirId) : Prop where
  used : (k.proc mgr).state ≠ .unused
  tid : (k.proc mgr).tid = 0
  pgdir : (k.proc mgr).pgdir = some d
  stack : (k.proc mgr).stack = []
  full : (k.dir d).Full (k.proc mgr).sz
  lwps : ∀ i, ¬ k.InGroup mgr i

/-- A group without holes below the size of its manager. -/
structure Whole (k : Kernel) (mgr : Slot) (l : Layout) (d : DirId) : Prop where
  layout : k.layout mgr = some l
  tid : l.tid = 0
  pgdir : l.pgdir = some d
  full : (k.dir d).Full l.sz
  free : ∀ base ∈ l.stack, base ≤ kernbase
  lwps : ∀ i lwp, k.layout i = some lwp → lwp.manager = some mgr →
    lwp.tid ≠ 0 ∧ lwp.pgdir = some d ∧ lwp.sz ≤ kernbase

theorem whole_of_formed {k : Kernel} {mgr : Slot} {d : DirId} (h : Formed k mgr d) :
    ∃ l, Whole k mgr l d := by
  refine ⟨_, Proc.layout_used h.used, h.tid, h.pgdir, h.full, ?_, fun i lwp hi hmgr => ?_⟩
  · rw [h.stack]
    simp
  · obtain ⟨hused, -, -, -, hmanager, -⟩ := layout_eq_some hi
    exact absurd ⟨hused, hmanager.trans hmgr⟩ (h.lwps i)

def groupDir (k : Kernel) (mgr : Slot) : PageDir :=
  ((k.proc mgr).pgdir.map k.dir).getD .empty

/-- A new stack needs two pages below `KERNBASE` and the frames for it, one of them for the
kernel stack; a recycled one must lie above the size. -/
def StackClear (k : Kernel) (mgr : Slot) : Prop :=
  ((k.proc mgr).stack = [] → 0 < k.free → (k.findSlot fun _ p => p.state = .unused) ≠ none →
    pgroundup (k.proc mgr).sz + 2 * pgsize < kernbase ∧
    1 + framesNeeded (k.groupDir mgr) (pagesOf (k.proc mgr).sz) (pagesOf (k.proc mgr).sz + 2) ≤
      k.free) ∧
  ∀ base ∈ (k.proc mgr).stack.head?, (k.proc mgr).sz ≤ base

instance (k : Kernel) (mgr : Slot) : Decidable (k.StackClear mgr) :=
  inferInstanceAs (Decidable (_ ∧ _))

def JoinClear (k : Kernel) (mgr : Slot) (thread : Int) : Prop :=
  ∀ i, (k.proc i).state = .zombie → (k.proc i).manager = some mgr → (k.proc i).tid = thread →
    (k.proc mgr).sz + 2 * pgsize ≤ (k.proc i).sz

instance (k : Kernel) (mgr : Slot) (thread : Int) : Decidable (k.JoinClear mgr thread) :=
  inferInstanceAs (Decidable (∀ _, _))

def WholeKept (mgr : Slot) (k : Kernel) : Act → Prop
  | .exec p _ _ => p = mgr ∧ ∀ i, ¬ k.InGroup mgr i
  | .sbrk p n => k.Member mgr p ∧ IsInt n ∧ (n < 0 → (k.proc mgr).sz + n ≠ 0)
  | .threadCreate p _ => k.Member mgr p ∧ (k.proc mgr).nexttid ≠ 0 ∧ k.StackClear mgr
  | .threadExit p _ => k.Member mgr p
  | .threadJoin p thread => k.Member mgr p ∧ k.JoinClear mgr thread
  | .resumeJoin p => k.Member mgr p ∧ k.JoinClear mgr ((k.joining p).getD 0)
  | .visit .. | .yield _ | .sleepOn .. | .wakeup _ | .charge .. => True
  | .kill .. | .fork _ | .wait _ | .resumeWait _ | .exit _ | .exitBegin _ | .exitEnd _
  | .setCpuShare .. => False

instance (mgr : Slot) (k : Kernel) : (a : Act) → Decidable (WholeKept mgr k a)
  | .exec .. | .sbrk .. | .threadCreate .. | .threadJoin .. | .resumeJoin _ =>
      inferInstanceAs (Decidable (_ ∧ _))
  | .threadExit .. => inferInstanceAs (Decidable (Member _ _ _))
  | .visit .. | .yield _ | .sleepOn .. | .wakeup _ | .charge .. =>
      inferInstanceAs (Decidable True)
  | .kill .. | .fork _ | .wait _ | .resumeWait _ | .exit _ | .exitBegin _ | .exitEnd _
  | .setCpuShare .. => inferInstanceAs (Decidable False)

def WholeAllowed (mgr : Slot) (k : Kernel) (a : Act) : Prop := k.Enabled a ∧ WholeKept mgr k a

instance (mgr : Slot) (k : Kernel) (a : Act) : Decidable (WholeAllowed mgr k a) :=
  inferInstanceAs (Decidable (_ ∧ _))

variable {k k' : Kernel} {mgr : Slot} {l : Layout} {d : DirId}

theorem Whole.caller {p : Slot} (h : Whole k mgr l d) (hp : (k.proc p).Live)
    (hmember : k.Member mgr p) : Caller k mgr d p :=
  caller_of_member h.layout h.tid h.pgdir
    (fun i lwp hi hmgr => ⟨(h.lwps i lwp hi hmgr).1, (h.lwps i lwp hi hmgr).2.1⟩) hp hmember

theorem Whole.manager_ne (h : Whole k mgr l d) : l.manager ≠ some mgr :=
  fun hself => (h.lwps mgr l h.layout hself).1 h.tid

theorem Whole.still (h : Whole k mgr l d) (hstill : Still k k') : Whole k' mgr l d := by
  obtain ⟨hl, htid, hpgdir, hfull, hfree, hlwps⟩ := h
  rw [← hstill.layout] at hl hlwps
  rw [← hstill.dir] at hfull
  exact ⟨hl, htid, hpgdir, hfull, hfree, hlwps⟩

/-- A step that changes the manager and, for the other slots, at most clears one or enters
an LWP. -/
theorem Whole.changed {l' : Layout} (h : Whole k mgr l d) (hl' : k'.layout mgr = some l')
    (htid : l'.tid = l.tid) (hmanager : l'.manager = l.manager) (hpgdir : l'.pgdir = some d)
    (hfull : (k'.dir d).Full l'.sz) (hfree : ∀ base ∈ l'.stack, base ≤ kernbase)
    (hothers : ∀ i lwp, i ≠ mgr → k'.layout i = some lwp → lwp.manager = some mgr →
      k.layout i = some lwp ∨ lwp.tid ≠ 0 ∧ lwp.pgdir = some d ∧ lwp.sz ≤ kernbase) :
    Whole k' mgr l' d := by
  refine ⟨hl', htid.trans h.tid, hpgdir, hfull, hfree, fun i lwp hi hmgr => ?_⟩
  by_cases him : i = mgr
  · subst him
    rw [hl'] at hi
    cases hi
    exact absurd (hmanager ▸ hmgr) h.manager_ne
  · rcases hothers i lwp him hi hmgr with hi | hnew
    · exact h.lwps i lwp hi hmgr
    · exact hnew

theorem Whole.grows {n r : Int} {s : Space} {result : Nat} (h : Whole k mgr l d) (hn : IsInt n)
    (hclear : n < 0 → l.sz + n ≠ 0) (hgrows : Grows k k' mgr l d n r s result) :
    ∃ l', Whole k' mgr l' d := by
  have hresized := hgrows.resized
  have hbelow := h.full.below
  have hfull : (k.space d).dir.Full l.sz := h.full
  unfold IsInt at hn
  -- the size stays after a failure and is the result otherwise
  have hstep : (n ≠ 0 ∧ result = 0 → s.dir.Full l.sz) →
      (¬ (n ≠ 0 ∧ result = 0) → s.dir.Full result) → ∃ l', Whole k' mgr l' d := by
    intro hold hnew
    have hothers : ∀ i lwp, i ≠ mgr → k'.layout i = some lwp → lwp.manager = some mgr →
        k.layout i = some lwp ∨ lwp.tid ≠ 0 ∧ lwp.pgdir = some d ∧ lwp.sz ≤ kernbase := by
      intro i lwp him hi _
      rw [hgrows.others i him] at hi
      exact .inl hi
    rcases hgrows.manager with ⟨hn, hzero, -, hl⟩ | ⟨hgood, -, hl⟩
    · exact ⟨l, h.changed hl rfl rfl h.pgdir (hgrows.dir ▸ hold ⟨hn, hzero⟩) h.free hothers⟩
    · exact ⟨_, h.changed hl rfl rfl h.pgdir (hgrows.dir ▸ hnew hgood) h.free hothers⟩
  unfold resize at hresized
  split at hresized
  · exact hstep (fun _ => full_allocuvm_above hfull le_rfl hbelow hresized)
      (fun hgood => full_allocuvm hfull hresized fun hzero => hgood ⟨by omega, hzero⟩)
  · split at hresized
    · rename_i hnegative
      have hsum := hclear hnegative
      have hresult := deallocuvm_result hresized
      simp only [kernbase] at hbelow
      by_cases hpositive : 0 ≤ l.sz + n
      · rw [u32OfInt_eq hpositive (by omega)] at hresized hresult
        have hmin : result = (l.sz + n).toNat := by omega
        refine hstep (fun hzero => by omega) fun _ => ?_
        rw [hmin]
        exact full_deallocuvm (hfull.mono (by omega)) le_rfl (by simp only [kernbase]; omega)
          hresized
      · -- the sum wraps around, and `deallocuvm` has nothing to do
        rw [u32OfInt_neg (by omega) (by omega)] at hresized hresult
        unfold deallocuvm at hresized
        rw [if_pos (by omega)] at hresized
        cases Except.ok.inj hresized
        exact hstep (fun _ => hfull) (fun _ => hfull)
    · cases Except.ok.inj hresized
      exact hstep (fun _ => hfull) (fun _ => hfull)

theorem Whole.full_stacks {np : Slot} {s : Space} {result : Nat} (h : Whole k mgr l d)
    (hclear : k.StackClear mgr) (hstacks : Stacks k k' mgr np l d s result) :
    s.dir.Full l.stackTaken.sz ∧ result ≤ kernbase := by
  obtain ⟨hused, hsz, hstack, -, -, hpgdir⟩ := layout_eq_some h.layout
  have hgroup : k.groupDir mgr = k.dir d := by
    unfold groupDir
    rw [hpgdir, h.pgdir]
    rfl
  obtain ⟨hfresh, hrecycled⟩ := hclear
  rw [hsz, hstack, hgroup] at hfresh
  rw [hsz, hstack] at hrecycled
  have halloc := hstacks.alloc
  have hbelow := h.full.below
  have hfull : Space.dir ⟨k.dir d, k.free - 1⟩ |>.Full l.sz := h.full
  unfold Layout.stackBase at halloc
  unfold Layout.stackTaken
  cases hlist : l.stack with
  | nil =>
    rw [hlist] at halloc
    obtain ⟨hroom, hframes⟩ := hfresh hlist hstacks.free (by simp [hstacks.found])
    rw [pgroundup_eq hbelow] at hroom halloc
    have hround := pagesOf_eq hbelow
    rw [← Nat.add_mul] at hroom halloc
    rw [u32_eq_self (hroom.trans (by decide))] at halloc
    have hmore : pagesOf l.sz * pgsize ≤ (pagesOf l.sz + 2) * pgsize :=
      mul_pgsize_le.mpr (Nat.le_add_right _ 2)
    have hresult : result ≠ 0 := by
      rintro rfl
      refine allocuvm_frames hmore (Nat.mul_pos (by omega) (by decide)) hroom ?_ halloc
      rw [pagesOf_mul _ (hmore.trans hroom.le), pagesOf_mul _ hroom.le]
      dsimp only
      omega
    have hgrown :=
      full_allocuvm (by rw [← pgroundup_eq hbelow]; exact hfull.pgroundup) halloc hresult
    have htop : result = (pagesOf l.sz + 2) * pgsize := by
      rcases allocuvm_result hfull.tabled halloc hresult with ⟨hless, -⟩ | ⟨heq, -⟩
      · exact absurd hmore (not_le.mpr hless)
      · exact heq
    have hcovers : l.sz ≤ pagesOf l.sz * pgsize := by
      rw [hround]
      simp only [pgsize]
      omega
    refine ⟨hgrown.mono ((Nat.mod_le _ _).trans ?_), hgrown.below⟩
    rw [htop, Nat.add_mul]
    exact Nat.add_le_add_right hcovers _
  | cons base rest =>
    rw [hlist] at halloc
    have hbase := h.free base (by simp [hlist])
    have hlow := hrecycled base (by simp [hlist])
    have hrounded : base ≤ pgroundup base ∧ pgroundup base ≤ kernbase := by
      rw [pgroundup_eq hbase]
      refine ⟨?_, pagesOf_le hbase⟩
      rw [pagesOf_eq hbase]
      simp only [pgsize]
      omega
    refine ⟨full_allocuvm_above hfull (hlow.trans hrounded.1) hrounded.2 halloc, ?_⟩
    by_cases hresult : result = 0
    · rw [hresult]
      exact Nat.zero_le _
    · rcases allocuvm_result hfull.tabled halloc hresult with ⟨-, heq⟩ | ⟨heq, hless⟩
      · rw [heq]
        exact hrounded.2
      · rw [heq]
        exact hless.le

theorem Whole.creates {np : Slot} {s : Space} {result : Nat} (h : Whole k mgr l d)
    (hnexttid : (k.proc mgr).nexttid ≠ 0) (hclear : k.StackClear mgr)
    (hstacks : Stacks k k' mgr np l d s result) : Whole k' mgr l.stackTaken d := by
  obtain ⟨hfull, hresult⟩ := h.full_stacks hclear hstacks
  obtain ⟨htid, hpgdir, hmanager⟩ := l.stackTaken_same
  refine h.changed hstacks.manager htid hmanager (hpgdir.trans h.pgdir)
    (hfull.of_pages hstacks.pages hstacks.tables) (fun base hbase => ?_) ?_
  · apply h.free base
    unfold Layout.stackTaken at hbase
    split at hbase
    · exact hbase
    · rename_i hlist
      rw [hlist]
      exact List.mem_cons_of_mem _ hbase
  · intro i lwp him hi _
    by_cases hinp : i = np
    · subst hinp
      rcases hstacks.lwp with hnone | ⟨-, hsome⟩
      · rw [hnone] at hi
        cases hi
      · rw [hsome] at hi
        cases hi
        exact .inr ⟨hnexttid, rfl, hresult⟩
    · rw [hstacks.others i him hinp] at hi
      exact .inl hi

theorem Whole.joins {p : Slot} {lwp : Layout} {s : Space} {result : Nat} (h : Whole k mgr l d)
    (hp : k.layout p = some lwp) (hmgr : lwp.manager = some mgr)
    (hclear : l.sz + 2 * pgsize ≤ lwp.sz) (hunstacks : Unstacks k k' mgr p l lwp d s result) :
    ∃ l', Whole k' mgr l' d := by
  obtain ⟨-, -, hbelow⟩ := h.lwps p lwp hp hmgr
  have hdealloc := hunstacks.dealloc
  simp only [pgsize, kernbase] at hbelow hclear
  rw [u32OfInt_eq (by simp only [pgsize]; omega) (by simp only [pgsize]; omega)] at hdealloc
  have hresult := deallocuvm_result hdealloc
  have hfull := full_deallocuvm (s := ⟨k.dir d, k.free + 1⟩) h.full
    (by simp only [pgsize]; omega) (by simp only [pgsize, kernbase]; omega) hdealloc
  refine ⟨_, h.changed hunstacks.manager rfl rfl h.pgdir (hunstacks.dir ▸ hfull) ?_ ?_⟩
  · intro base hbase
    dsimp only at hbase
    split at hbase
    · exact h.free base hbase
    · rcases List.mem_cons.mp hbase with rfl | hbase
      · simp only [kernbase]
        omega
      · exact h.free base hbase
  · intro i lwp' him hi _
    by_cases hip : i = p
    · subst hip
      rw [hunstacks.lwp] at hi
      cases hi
    · rw [hunstacks.others i him hip] at hi
      exact .inl hi

theorem Whole.join {k0 : Kernel} {cur : Slot} {thread : Int} {out : Joined}
    (h : Whole k mgr l d) (hstill : Still k k0) (hcur : (k0.proc cur).Live)
    (hmember : k0.Member mgr cur) (hclear : k0.JoinClear mgr thread)
    (hjoin : k0.threadJoin cur thread = .ok (k', out)) : ∃ l', Whole k' mgr l' d := by
  have h0 := h.still hstill
  obtain hstill' | ⟨-, p, lwp, s, result, hp, hmgr, htid, hunstacks⟩ :=
    threadJoin_layout hcur (h0.caller hcur hmember).tid h0.layout
      (fun i lwp hi hmgr => (h0.lwps i lwp hi hmgr).2.1) hjoin
  · exact ⟨l, h0.still hstill'⟩
  · obtain ⟨-, hszp, -, htidp, hmanagerp, -⟩ := layout_eq_some hp
    have habove := hclear p hunstacks.before (hmanagerp.trans hmgr) (htidp.trans htid)
    rw [hszp, (layout_eq_some h0.layout).2.1] at habove
    exact h0.joins hp hmgr habove hunstacks

theorem Whole.execs {file : Option ElfFile} {argv : List Nat} {r : Int} (h : Whole k mgr l d)
    (hlwps : ∀ i, ¬ k.InGroup mgr i) (hexec : k.exec mgr file argv = .ok (k', r)) :
    ∃ l' d', Whole k' mgr l' d' := by
  obtain hstill | ⟨sz, hfull, hl, hothers⟩ := exec_layout h.layout h.tid hexec
  · exact ⟨l, d, h.still hstill⟩
  · refine ⟨_, k.nextdir, hl, h.tid, rfl, hfull, h.free, fun i lwp hi hmgr => ?_⟩
    by_cases him : i = mgr
    · subst him
      rw [hl] at hi
      cases hi
      exact absurd hmgr h.manager_ne
    · rw [hothers i him] at hi
      obtain ⟨hused, -, -, -, hmanager, -⟩ := layout_eq_some hi
      exact absurd ⟨hused, hmanager.trans hmgr⟩ (hlwps i)

theorem JoinClear.awake {thread : Int} (h : k.JoinClear mgr thread) (p : Slot) :
    (k.awake p).JoinClear mgr thread := by
  have hsame : ∀ i, (k.awake p).proc i = { k.proc i with chan := ((k.awake p).proc i).chan } := by
    intro i
    by_cases hi : i = p
    · subst hi
      simp [Kernel.awake]
    · simp [Kernel.awake, hi]
  intro i
  rw [hsame i, hsame mgr]
  exact h i

theorem whole_step {a : Act} {out : Out} (h : Whole k mgr l d) (hallowed : WholeAllowed mgr k a)
    (hstep : k.perform a = .ok (k', out)) : ∃ l' d', Whole k' mgr l' d' := by
  obtain ⟨henabled, hkept⟩ := hallowed
  have hstill : Still k k' → ∃ l' d', Whole k' mgr l' d' := fun hstill => ⟨l, d, h.still hstill⟩
  cases performs hstep with
  | visit hvisit => exact hstill (still_visit hvisit)
  | yield p =>
    have hp : (k.proc p).state = .running := henabled
    exact hstill (still_yield k p ⟨by simp [hp], by simp [hp]⟩)
  | sleepOn p chan => exact hstill (still_sleep k p chan (henabled.elim At.live At.live))
  | wakeup chan => exact hstill (still_wakeup1 k _)
  | charge p level ticks runtime => exact hstill (still_modify k p _ rfl)
  | exec hexec =>
    obtain ⟨rfl, hlwps⟩ := hkept
    exact h.execs hlwps hexec
  | sbrk hgrow =>
    obtain ⟨hmember, hn, hclear⟩ := hkept
    have hcaller := h.caller (At.live henabled) hmember
    rw [(layout_eq_some h.layout).2.1] at hclear
    obtain ⟨hsame, -⟩ | ⟨s, result, hgrows⟩ :=
      growproc_layout hcaller.manager hcaller.pgdir h.layout hgrow
    · exact hstill hsame
    · obtain ⟨l', h'⟩ := h.grows hn hclear hgrows
      exact ⟨l', d, h'⟩
  | threadCreate hcreate =>
    obtain ⟨hmember, hnexttid, hclear⟩ := hkept
    have hcaller := h.caller (At.live henabled) hmember
    obtain hsame | ⟨np, s, result, hstacks⟩ :=
      threadCreate_layout (At.live henabled) hcaller.manager h.layout h.pgdir hcreate
    · exact hstill hsame
    · exact ⟨_, d, h.creates hnexttid hclear hstacks⟩
  | threadExit hexit => exact hstill (still_threadExit (At.live henabled) hexit)
  | threadJoin hjoin =>
    obtain ⟨l', h'⟩ := h.join (.refl k) (At.live henabled) hkept.1 hkept.2 hjoin
    exact ⟨l', d, h'⟩
  | @resumeJoin p _ _ hjoin =>
    obtain ⟨hmember, hclear⟩ := hkept
    obtain ⟨l', h'⟩ := h.join (still_modify k p _ rfl) (by simp [Proc.Live, henabled.1])
      (by simpa [Member] using hmember) (hclear.awake p) hjoin
    exact ⟨l', d, h'⟩
  | _ => exact hkept.elim

theorem group_space_whole {start : Kernel} {mgr : Slot} {d : DirId} (hstart : Formed start mgr d)
    {finish : Kernel} (reaches : Reaches perform (WholeAllowed mgr) start finish) :
    (∃ d', (finish.proc mgr).pgdir = some d' ∧
      (∀ i, finish.InGroup mgr i → (finish.proc i).pgdir = some d') ∧
      ∀ q, q * pgsize < (finish.proc mgr).sz → (finish.dir d').Present q) ∧
    ∀ p fault, finish.Enabled (.fork p) → finish.Member mgr p →
      finish.perform (.fork p) = .error fault → ¬ CopyPanic fault := by
  have hinv : ∃ l d', Whole finish mgr l d' :=
    reaches.invariant (fun k => ∃ l d', Whole k mgr l d')
      (by
        obtain ⟨l, h⟩ := whole_of_formed hstart
        exact ⟨l, d, h⟩)
      fun _ _ _ _ ⟨_, _, hk⟩ hallowed hstep => whole_step hk hallowed hstep
  obtain ⟨l, d', h⟩ := hinv
  obtain ⟨-, hsz, -, -, -, hpgdir⟩ := layout_eq_some h.layout
  refine ⟨⟨d', hpgdir.trans h.pgdir, fun i hi => ?_, fun q hq => ?_⟩, ?_⟩
  · exact (h.lwps i _ (Proc.layout_used hi.1) hi.2).2.1
  · rw [hsz] at hq
    exact (h.full.present hq).2
  · intro p fault henabled hmember hfork
    have hp := At.live henabled
    exact fork_no_panic hp (h.caller hp hmember) h.layout h.full (map_eq_error.mp hfork)

theorem formed_boot (free : Nat) : Formed (boot free) 0 0 where
  used := by simp [boot]
  tid := rfl
  pgdir := rfl
  stack := rfl
  full := by
    refine ⟨?_, show pgsize ≤ kernbase by decide, fun q hq => ?_⟩
    · intro q hq
      cases Finset.mem_singleton.mp hq
      exact Finset.mem_singleton_self 0
    · have hzero : q = 0 := by
        have hless : q * pgsize < 1 * pgsize := hq
        have := mul_pgsize_lt.mp hless
        omega
      rw [hzero]
      exact Finset.mem_singleton_self 0
  lwps := by
    rintro i ⟨hused, hmanager⟩
    by_cases hi : i = 0
    · subst hi
      cases hmanager
    · simp [boot, hi, Proc.zero] at hused

/-- An LWP that forks after its manager grew the heap. -/
theorem group_space_whole_lwp : ∃ k, Reaches perform (WholeAllowed 0) (boot 400) k ∧
    (∃ next, k.perform (.fork 1) = .ok (next, .ret 3)) ∧
    ∀ fault, k.perform (.fork 1) = .error fault → ¬ CopyPanic fault := by
  obtain ⟨k, hreach, htest⟩ := exists_reaches perform (WholeAllowed 0) (boot 400)
    [.visit 0 0, .threadCreate 0 5, .sbrk 0 100, .yield 0, .visit 0 1]
    (fun k => k.Enabled (.fork 1) ∧ k.Member 0 1 ∧
      succeeds perform k (.fork 1) (fun _ out => out = .ret 3)) (by decide +kernel)
  obtain ⟨henabled, hmember, hfork⟩ := of_decide_eq_true htest
  obtain ⟨next, out, hperform, hout⟩ := exists_of_succeeds hfork
  cases of_decide_eq_true hout
  exact ⟨k, hreach, ⟨next, hperform⟩, fun fault =>
    (group_space_whole (formed_boot 400) hreach).2 1 fault henabled hmember⟩

/-- A join leaves a hole below the size of the manager, and the next `fork` panics; so does
a `thread_create` that runs out of frames. -/
theorem group_space_hole :
    (∃ k, Reaches perform Enabled (boot 400) k ∧ k.Enabled (.fork 0) ∧
      k.perform (.fork 0) = .error .copyuvmPage) ∧
    ∃ k, Reaches perform Enabled (boot 2) k ∧ k.Enabled (.fork 0) ∧ (k.proc 0).pgdir = some 0 ∧
      ∃ q, q * pgsize < (k.proc 0).sz ∧ ¬ (k.dir 0).Present q := by
  refine ⟨?_, ?_⟩
  · obtain ⟨k, hreach, htest⟩ := exists_reaches perform Enabled (boot 400)
      [.visit 0 0, .threadCreate 0 5, .yield 0, .visit 0 1, .threadExit 1 7, .visit 0 0,
        .threadJoin 0 1]
      (fun k => k.Enabled (.fork 0) ∧ faultOf perform k (.fork 0) = some .copyuvmPage)
      (by decide +kernel)
    obtain ⟨henabled, hfault⟩ := of_decide_eq_true htest
    exact ⟨k, hreach, henabled, faultOf_eq_some hfault⟩
  · obtain ⟨k, hreach, htest⟩ := exists_reaches perform Enabled (boot 2)
      [.visit 0 0, .threadCreate 0 5]
      (fun k => k.Enabled (.fork 0) ∧ (k.proc 0).pgdir = some 0 ∧
        1 * pgsize < (k.proc 0).sz ∧ ¬ (k.dir 0).Present 1) (by decide +kernel)
    obtain ⟨henabled, hpgdir, hbelow, hhole⟩ := of_decide_eq_true htest
    exact ⟨k, hreach, henabled, hpgdir, 1, hbelow, hhole⟩

end Kernel

end Xv6

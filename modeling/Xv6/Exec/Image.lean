import Xv6.Exec.Strings
import Xv6.Vm.Range

/-! The image that `exec` builds before it pushes the arguments. Its pages run from 0 up without a
hole, and every page and page table takes a frame of its own. So the program headers and the
number of free frames tell whether the image can be built, and where its stack ends. -/
namespace Xv6

open Word Fallible

def frames (n : Nat) : Nat := n + (n + 1023) / 1024

theorem frames_mono {m n : Nat} (h : m ≤ n) : frames m ≤ frames n := by
  unfold frames
  omega

/-- The first `n` pages are mapped, none is a guard, and with their tables and the free frames
they make `total`. -/
structure Flat (s : Space) (total n : Nat) : Prop where
  pages : s.dir.pages = Finset.range n
  tables : s.dir.tables = Finset.range ((n + 1023) / 1024)
  guards : s.dir.guards = ∅
  free : s.free + frames n = total

theorem flat_setupkvm {free : Nat} {fresh : Space} (h : setupkvm free = some fresh) :
    kvmFrames ≤ free ∧ Flat fresh (free - kvmFrames) 0 := by
  unfold setupkvm at h
  split at h
  · cases h
  · rename_i hfree
    cases Option.some.inj h
    exact ⟨by omega, rfl, rfl, rfl, rfl⟩

section Flat

variable {s s1 : Space} {total n : Nat}

theorem Flat.hasEntry (h : Flat s total n) {q : Nat} (hq : q < n) (hkern : q < kernpage) :
    s.dir.HasEntry q := by
  refine .inl ⟨hkern, ?_⟩
  rw [h.tables, Finset.mem_range]
  simp only [nptentries]
  omega

theorem Flat.mappages (h : Flat s total n) (hkalloc : kalloc s = some s1) :
    (frames (n + 1) ≤ total → ∃ s2, mappages s1 n true = .ok (some s2) ∧ Flat s2 total (n + 1)) ∧
      (total < frames (n + 1) → mappages s1 n true = .ok none) := by
  obtain ⟨hfree, rfl⟩ : s.free ≠ 0 ∧ s1 = { s with free := s.free - 1 } := by
    unfold kalloc at hkalloc
    split at hkalloc
    · cases hkalloc
    · rename_i hfree
      exact ⟨hfree, (Option.some.inj hkalloc).symm⟩
  have htotal := h.free
  have hnew : n ∉ s.dir.pages := by
    rw [h.pages]
    exact Finset.notMem_range_self
  have hpages : insert n s.dir.pages = Finset.range (n + 1) := by
    rw [h.pages, Finset.range_add_one]
  have hguards : s.dir.guards.erase n = ∅ := by
    rw [h.guards]
    rfl
  unfold Xv6.mappages walkpgdir
  dsimp only
  by_cases htable : n / nptentries ∈ s.dir.tables
  · have hsame : (n + 1 + 1023) / 1024 = (n + 1023) / 1024 := by
      rw [h.tables, Finset.mem_range] at htable
      simp only [nptentries] at htable
      omega
    rw [if_pos htable]
    dsimp only
    rw [if_neg hnew]
    unfold frames at *
    refine ⟨fun _ => ⟨_, rfl, hpages, ?_, hguards, ?_⟩, fun hless => ?_⟩
    · dsimp only
      rw [hsame]
      exact h.tables
    · unfold frames
      dsimp only
      omega
    · omega
  · have hmore : (n + 1 + 1023) / 1024 = n / 1024 + 1 ∧ (n + 1023) / 1024 = n / 1024 := by
      rw [h.tables, Finset.mem_range] at htable
      simp only [nptentries] at htable
      omega
    rw [if_neg htable]
    unfold kalloc
    dsimp only
    unfold frames at *
    by_cases hone : s.free - 1 = 0
    · rw [if_pos hone]
      refine ⟨fun hroom => ?_, fun _ => rfl⟩
      omega
    · rw [if_neg hone]
      simp only [Option.map_some]
      rw [if_neg hnew]
      refine ⟨fun _ => ⟨_, rfl, hpages, ?_, hguards, ?_⟩, fun hless => ?_⟩
      · dsimp only
        rw [h.tables, hmore.1, hmore.2, Finset.range_add_one]
      · unfold frames
        dsimp only
        omega
      · omega

theorem kalloc_none (h : kalloc s = none) : s.free = 0 := by
  unfold kalloc at h
  split at h
  · assumption
  · cases h

def Fills (total n : Nat) (x : Except Fault (Space × Bool)) : Prop :=
  (frames n ≤ total → ∃ s, x = .ok (s, true) ∧ Flat s total n) ∧
    (total < frames n → ∃ s, x = .ok (s, false))

theorem Flat.fills (h : Flat s total n) : Fills total n (.ok (s, true)) := by
  have htotal := h.free
  refine ⟨fun _ => ⟨s, rfl, h⟩, fun hless => ?_⟩
  omega

theorem Flat.allocLoop {newsz fuel : Nat} (h : Flat s total n) (hnew : newsz ≤ kernbase)
    (hn : n ≤ pagesOf newsz) (hfuel : newsz / pgsize + 1 ≤ n + fuel) :
    Fills total (pagesOf newsz) (allocLoop s n newsz fuel) := by
  have hlast : pagesOf newsz ≤ newsz / pgsize + 1 := by
    rw [pagesOf_eq hnew]
    simp only [pgsize]
    omega
  induction fuel generalizing s n with
  | zero =>
    obtain rfl : n = pagesOf newsz := by omega
    exact h.fills
  | succ fuel ih =>
    unfold Xv6.allocLoop
    split
    · rename_i hpage
      have hmore : n + 1 ≤ pagesOf newsz := (lt_pagesOf hnew).mpr hpage
      have hneeded := frames_mono hmore
      split
      · rename_i hempty
        have hfree := kalloc_none hempty
        have htotal := h.free
        have hone : frames n < frames (n + 1) := by
          unfold frames
          omega
        refine ⟨fun hroom => ?_, fun _ => ⟨s, rfl⟩⟩
        omega
      · rename_i s1 hkalloc
        obtain ⟨hfits, hlacks⟩ := h.mappages hkalloc
        by_cases hroom : frames (n + 1) ≤ total
        · obtain ⟨s2, hmap, hflat⟩ := hfits hroom
          rw [hmap]
          exact ih hflat hmore (by omega)
        · rw [hlacks (by omega)]
          refine ⟨fun hall => ?_, fun _ => ⟨_, rfl⟩⟩
          omega
    · rename_i hpage
      obtain rfl : n = pagesOf newsz := by
        rw [← lt_pagesOf hnew] at hpage
        omega
      exact h.fills

theorem Flat.allocuvm {sz : Nat} (h : Flat s total (pagesOf sz)) (hsz : sz ≤ kernbase)
    (newsz : Nat) :
    ∃ s' r, allocuvm s sz newsz = .ok (s', r) ∧
      (r ≠ 0 ↔ newsz < kernbase ∧ 0 < max sz newsz ∧ frames (pagesOf newsz) ≤ total) ∧
      (r ≠ 0 → r = max sz newsz ∧ r ≤ kernbase ∧ Flat s' total (pagesOf r)) := by
  have htotal := h.free
  unfold Xv6.allocuvm
  split
  · refine ⟨s, 0, rfl, ⟨fun hne => absurd rfl hne, fun hfits => ?_⟩, fun hne => absurd rfl hne⟩
    omega
  rename_i hbelow
  split
  · rename_i hless
    have hfewer := frames_mono (pagesOf_mono hless.le hsz)
    refine ⟨s, sz, rfl, ⟨fun _ => ?_, fun _ => by omega⟩, fun _ => ⟨by omega, hsz, h⟩⟩
    exact ⟨by omega, by omega, by omega⟩
  · rename_i hmore
    have hmax : max sz newsz = newsz := by omega
    obtain ⟨hfits, hlacks⟩ := h.allocLoop (show newsz ≤ kernbase by omega)
      (pagesOf_mono (by omega) (by omega)) (Nat.le_add_left _ _)
    rw [show pgroundup sz / pgsize = pagesOf sz from rfl, hmax]
    by_cases hroom : frames (pagesOf newsz) ≤ total
    · obtain ⟨s', hloop, hflat⟩ := hfits hroom
      rw [hloop]
      refine ⟨s', newsz, rfl, ⟨fun hne => ⟨by omega, by omega, hroom⟩, fun hpos => by omega⟩,
        fun _ => ⟨rfl, by omega, hflat⟩⟩
    · obtain ⟨s1, hloop⟩ := hlacks (by omega)
      obtain ⟨r, hdealloc⟩ := deallocuvm_total s1 sz (show newsz ≤ kernbase by omega)
      rw [hloop]
      dsimp only
      rw [hdealloc]
      refine ⟨r.1, 0, rfl, ⟨fun hne => absurd rfl hne, fun hfits => absurd hfits.2.2 hroom⟩,
        fun hne => absurd rfl hne⟩

def ElfFile.Reads (file : ElfFile) (off sz : Nat) : Prop :=
  ∀ i, i < sz → i % pgsize = 0 → file.readi (u32 (off + i)) (min (sz - i) pgsize) = true

theorem Flat.loaduvm {sz addr filesz i fuel : Nat} (h : Flat s total (pagesOf sz))
    (file : ElfFile) (off : Nat) (hsz : sz ≤ kernbase) (hend : addr + filesz ≤ sz)
    (haddr : addr % pgsize = 0) (hi : i % pgsize = 0) (hfuel : filesz < i + fuel * pgsize) :
    ∃ loaded, loaduvm s.dir file addr off filesz i fuel = .ok loaded ∧
      (loaded = true ↔ ∀ j, i ≤ j → j < filesz → j % pgsize = 0 →
        file.readi (u32 (off + j)) (min (filesz - j) pgsize) = true) := by
  induction fuel generalizing i with
  | zero =>
    refine ⟨true, rfl, fun _ j hlow hhigh => ?_, fun _ => rfl⟩
    omega
  | succ fuel ih =>
    unfold Xv6.loaduvm
    split
    · rename_i hless
      have hword : u32 (addr + i) = addr + i :=
        u32_eq_self (by simp only [kernbase] at hsz; omega)
      have hpage : (addr + i) / pgsize < pagesOf sz := by
        rw [lt_pagesOf hsz]
        simp only [pgsize] at *
        omega
      have hentry : s.dir.HasEntry (u32 (addr + i) / pgsize) := by
        rw [hword]
        refine h.hasEntry hpage ?_
        simp only [pgsize, kernpage, kernbase] at *
        omega
      rw [if_neg (not_not.mpr hentry)]
      split
      · rename_i hread
        obtain ⟨loaded, hrest, hiff⟩ := ih (i := i + pgsize)
          (by rw [Nat.add_mod_right]; exact hi) (by rw [Nat.succ_mul] at hfuel; omega)
        refine ⟨loaded, hrest, hiff.trans ⟨fun hall j hlow hhigh hj => ?_, fun hall j hlow =>
          hall j (by omega)⟩⟩
        by_cases hj' : j = i
        · rw [hj']
          exact hread
        · refine hall j ?_ hhigh hj
          simp only [pgsize] at *
          omega
      · rename_i hread
        refine ⟨false, rfl, iff_of_false Bool.false_ne_true fun hall => ?_⟩
        exact hread (hall i le_rfl hless hi)
    · refine ⟨true, rfl, fun _ j hlow hhigh => ?_, fun _ => rfl⟩
      omega

end Flat

def ProgHdr.stop (ph : ProgHdr) : Nat := ph.vaddr + ph.memsz

structure ProgHdr.Loadable (file : ElfFile) (ph : ProgHdr) : Prop where
  sizes : ph.filesz ≤ ph.memsz
  below : ph.stop < kernbase
  aligned : ph.vaddr % pgsize = 0
  reads : file.Reads ph.off ph.filesz

def ProgHdr.Words (ph : ProgHdr) : Prop :=
  ph.type < 4294967296 ∧ ph.off < 4294967296 ∧ ph.vaddr < 4294967296 ∧
    ph.filesz < 4294967296 ∧ ph.memsz < 4294967296

def segments (phs : List (Option ProgHdr)) : List ProgHdr :=
  phs.filterMap fun ph => ph.filter fun ph => ph.type = 1

def extent (phs : List ProgHdr) (sz : Nat) : Nat := phs.foldl (fun sz ph => max sz ph.stop) sz

/-- Every header can be read and every segment loaded. `allocuvm` answers 0 for an image that is
still empty, which counts as a failure. -/
structure Loads (file : ElfFile) (phs : List (Option ProgHdr)) (sz : Nat) : Prop where
  headers : none ∉ phs
  segments : ∀ ph ∈ segments phs, ph.Loadable file
  first : sz = 0 → ∀ ph ∈ (Xv6.segments phs).head?, 0 < ph.stop

theorem le_extent (phs : List ProgHdr) (sz : Nat) : sz ≤ extent phs sz := by
  induction phs generalizing sz with
  | nil => exact le_rfl
  | cons ph rest ih => exact (le_max_left sz ph.stop).trans (ih _)

theorem extent_le {phs : List ProgHdr} {sz bound : Nat} (hsz : sz ≤ bound)
    (h : ∀ ph ∈ phs, ph.stop ≤ bound) : extent phs sz ≤ bound := by
  induction phs generalizing sz with
  | nil => exact hsz
  | cons ph rest ih =>
    exact ih (max_le hsz (h ph List.mem_cons_self)) fun ph' hph' =>
      h ph' (List.mem_cons_of_mem ph hph')

theorem segments_load {ph : ProgHdr} (htype : ph.type = 1) (rest : List (Option ProgHdr)) :
    segments (some ph :: rest) = ph :: segments rest := by
  simp [segments, Option.filter, htype]

theorem segments_skip {ph : ProgHdr} (htype : ph.type ≠ 1) (rest : List (Option ProgHdr)) :
    segments (some ph :: rest) = segments rest := by
  simp [segments, Option.filter, htype]

theorem none_notMem_cons {ph : ProgHdr} {rest : List (Option ProgHdr)} :
    none ∉ some ph :: rest ↔ none ∉ rest := by
  simp

theorem loads_load {file : ElfFile} {ph : ProgHdr} {rest : List (Option ProgHdr)} {sz : Nat}
    (htype : ph.type = 1) : Loads file (some ph :: rest) sz ↔
      ph.Loadable file ∧ 0 < max sz ph.stop ∧ Loads file rest (max sz ph.stop) := by
  have hsegments := segments_load htype rest
  constructor
  · intro h
    have hall := h.segments
    have hfirst := h.first
    rw [hsegments] at hall hfirst
    have hpos : 0 < max sz ph.stop := by
      by_cases hsz : sz = 0
      · exact (hfirst hsz ph rfl).trans_le (le_max_right _ _)
      · exact (Nat.pos_of_ne_zero hsz).trans_le (le_max_left _ _)
    refine ⟨hall ph List.mem_cons_self, hpos, none_notMem_cons.mp h.headers,
      fun ph' hph' => hall ph' (List.mem_cons_of_mem ph hph'), fun hzero => ?_⟩
    omega
  · rintro ⟨hloadable, hpos, h⟩
    refine ⟨none_notMem_cons.mpr h.headers, ?_, ?_⟩
    · rw [hsegments]
      intro ph' hph'
      rcases List.mem_cons.mp hph' with rfl | hph'
      · exact hloadable
      · exact h.segments ph' hph'
    · rw [hsegments]
      intro hzero ph' hph'
      cases hph'
      omega

theorem loads_skip {file : ElfFile} {ph : ProgHdr} {rest : List (Option ProgHdr)} {sz : Nat}
    (htype : ph.type ≠ 1) : Loads file (some ph :: rest) sz ↔ Loads file rest sz := by
  have hsegments := segments_skip htype rest
  constructor
  · rintro ⟨hheaders, hall, hfirst⟩
    rw [hsegments] at hall hfirst
    exact ⟨none_notMem_cons.mp hheaders, hall, hfirst⟩
  · rintro ⟨hheaders, hall, hfirst⟩
    rw [← hsegments] at hall hfirst
    exact ⟨none_notMem_cons.mpr hheaders, hall, hfirst⟩

inductive Builds (ok : Prop) (good : Space → Nat → Prop) : Except Fault (Space × Option Nat) → Prop
  | fails {s : Space} (h : ¬ ok) : Builds ok good (.ok (s, none))
  | builds {s : Space} {sz : Nat} (h : ok) (hgood : good s sz) : Builds ok good (.ok (s, some sz))

theorem Builds.imp {ok ok' : Prop} {good : Space → Nat → Prop}
    {x : Except Fault (Space × Option Nat)} (h : Builds ok good x) (hok : ok ↔ ok') :
    Builds ok' good x := by
  cases h with
  | fails h => exact .fails (mt hok.mpr h)
  | builds h hgood => exact .builds (hok.mp h) hgood

section Segments

variable {file : ElfFile} {s : Space} {total sz : Nat} {ph : ProgHdr}

theorem Flat.loadSegment (file : ElfFile) (h : Flat s total (pagesOf sz)) (hsz : sz ≤ kernbase)
    (hwords : ph.Words) (htype : ph.type = 1) :
    Builds (ph.Loadable file ∧ 0 < max sz ph.stop ∧ frames (pagesOf ph.stop) ≤ total)
      (fun s' sz' => sz' = max sz ph.stop ∧ sz' ≤ kernbase ∧ Flat s' total (pagesOf sz'))
      (loadSegment file s sz (some ph)) := by
  obtain ⟨-, -, hvaddr, -, hmemsz⟩ := hwords
  unfold Xv6.loadSegment
  dsimp only
  rw [if_neg (not_not.mpr htype)]
  split
  · rename_i hsizes
    exact .fails fun hall => absurd hall.1.sizes (not_le.mpr hsizes)
  rename_i hsizes
  split
  · rename_i hwraps
    refine .fails fun hall => ?_
    have hbelow := hall.1.below
    unfold ProgHdr.stop at hbelow
    rw [u32_eq_self (by simp only [kernbase] at hbelow; omega)] at hwraps
    omega
  rename_i hwraps
  have hstop : u32 (ph.vaddr + ph.memsz) = ph.stop := by
    unfold u32 ProgHdr.stop at *
    omega
  rw [hstop]
  obtain ⟨s1, result, halloc, hresult, hgrown⟩ := h.allocuvm hsz ph.stop
  rw [halloc]
  change Builds _ _ (if result = 0 then Except.ok (s1, none)
    else if ph.vaddr % pgsize ≠ 0 then .ok (s1, none)
    else (Xv6.loaduvm s1.dir file ph.vaddr ph.off ph.filesz 0 (ph.filesz / pgsize + 1)) >>=
      fun loaded => if loaded then .ok (s1, some result) else .ok (s1, none))
  split
  · rename_i hzero
    exact .fails fun hall => hresult.mpr ⟨hall.1.below, hall.2⟩ hzero
  rename_i hnonzero
  obtain ⟨hsize, hlow, hflat⟩ := hgrown hnonzero
  split
  · rename_i haligned
    exact .fails fun hall => haligned hall.1.aligned
  rename_i haligned
  have hinside : ph.vaddr + ph.filesz ≤ result := by
    unfold ProgHdr.stop at hsize
    omega
  obtain ⟨loaded, hload, hreads⟩ := hflat.loaduvm file ph.off hlow hinside
    (not_not.mp haligned) (Nat.zero_mod pgsize)
    (show ph.filesz < 0 + (ph.filesz / pgsize + 1) * pgsize by simp only [pgsize]; omega)
  rw [hload]
  cases loaded with
  | false =>
    exact .fails fun hall =>
      Bool.false_ne_true (hreads.mpr fun j _ hj => hall.1.reads j hj)
  | true =>
    have hloadable : ph.Loadable file :=
      ⟨by omega, (hresult.mp hnonzero).1, not_not.mp haligned,
        fun j hj => hreads.mp rfl j (Nat.zero_le _) hj⟩
    exact .builds ⟨hloadable, (hresult.mp hnonzero).2⟩ ⟨hsize, hlow, hflat⟩

theorem Flat.loadSegments {phs : List (Option ProgHdr)} (file : ElfFile)
    (h : Flat s total (pagesOf sz)) (hsz : sz ≤ kernbase)
    (hwords : ∀ ph, some ph ∈ phs → ph.Words) :
    Builds (Loads file phs sz ∧ frames (pagesOf (extent (segments phs) sz)) ≤ total)
      (fun s' sz' => sz' = extent (segments phs) sz ∧ sz' ≤ kernbase ∧
        Flat s' total (pagesOf sz'))
      (loadSegments file phs s sz) := by
  induction phs generalizing s sz with
  | nil =>
    have htotal := h.free
    refine .builds ⟨⟨List.not_mem_nil, fun ph hph => ?_, fun _ ph hph => ?_⟩, ?_⟩ ⟨rfl, hsz, h⟩
    · cases hph
    · cases hph
    · change frames (pagesOf sz) ≤ total
      omega
  | cons ph rest ih =>
    have hrest : ∀ ph, some ph ∈ rest → ph.Words :=
      fun ph hph => hwords ph (List.mem_cons_of_mem _ hph)
    unfold Xv6.loadSegments
    cases ph with
    | none => exact .fails fun hall => hall.1.headers List.mem_cons_self
    | some ph =>
      by_cases htype : ph.type = 1
      · have hone := h.loadSegment file hsz (hwords ph List.mem_cons_self) htype
        rw [segments_load htype, loads_load htype]
        generalize Xv6.loadSegment file s sz (some ph) = loaded at hone
        cases hone with
        | fails hfails =>
          refine .fails fun hall => hfails ⟨hall.1.1, hall.1.2.1, ?_⟩
          -- the frames of the whole image are at least those of its first segment
          have hbound : extent (segments rest) (max sz ph.stop) ≤ kernbase :=
            extent_le (max_le hsz hall.1.1.below.le) fun ph' hph' =>
              (hall.1.2.2.segments ph' hph').below.le
          have hstop : ph.stop ≤ extent (segments rest) (max sz ph.stop) :=
            (le_max_right sz ph.stop).trans (le_extent _ _)
          exact (frames_mono (pagesOf_mono hstop hbound)).trans hall.2
        | builds hok hgood =>
          obtain ⟨hsize, hlow, hflat⟩ := hgood
          subst hsize
          have hrec := ih hflat hlow hrest
          refine Builds.imp hrec ?_
          exact ⟨fun hall => ⟨⟨hok.1, hok.2.1, hall.1⟩, hall.2⟩, fun hall => ⟨hall.1.2.2, hall.2⟩⟩
      · have hskip : Xv6.loadSegment file s sz (some ph) = .ok (s, some sz) := if_pos htype
        rw [hskip, segments_skip htype, loads_skip htype]
        exact ih h hsz hrest

end Segments

/-- The image of `file` can be built with `free` frames, and its stack ends at `top`. -/
structure ElfFile.Fits (file : ElfFile) (free top : Nat) : Prop where
  loads : Loads file file.phdrs 0
  ends : top = (pagesOf (extent (segments file.phdrs) 0) + 2) * pgsize
  below : top < kernbase
  frames : kvmFrames + frames (top / pgsize) ≤ free

structure UserStack (dir : PageDir) (top : Nat) : Prop where
  pages : dir.pages = Finset.range (top / pgsize)
  tables : dir.tables = Finset.range ((top / pgsize + 1023) / 1024)
  guards : dir.guards = {top / pgsize - 2}
  aligned : top % pgsize = 0
  low : 2 * pgsize ≤ top
  below : top < kernbase

theorem pages_div (n : Nat) : n * pgsize / pgsize = n := Nat.mul_div_cancel n (by decide)

theorem Flat.clearpteu {s : Space} {total n : Nat} (h : Flat s total (n + 2))
    (hbelow : (n + 2) * pgsize < kernbase) :
    ∃ s', clearpteu s (u32OfInt (((n + 2) * pgsize : Nat) - 2 * pgsize) / pgsize) = .ok s' ∧
      UserStack s'.dir ((n + 2) * pgsize) := by
  have hkern : n < kernpage := by
    simp only [kernpage, kernbase, pgsize] at *
    omega
  have hpage : u32OfInt (((n + 2) * pgsize : Nat) - 2 * pgsize) / pgsize = n := by
    rw [u32OfInt_eq (by simp only [pgsize]; omega)
      (by simp only [kernbase, pgsize] at *; omega)]
    simp only [pgsize]
    omega
  have hmem : n ∈ s.dir.pages := by
    rw [h.pages, Finset.mem_range]
    omega
  rw [hpage]
  unfold Xv6.clearpteu
  rw [if_neg (not_not.mpr (h.hasEntry (by omega) hkern)), if_pos ⟨hkern, hmem⟩]
  refine ⟨_, rfl, ?_, ?_, ?_, Nat.mul_mod_left _ _, Nat.mul_le_mul_right _ (by omega), hbelow⟩
  · rw [pages_div]
    exact h.pages
  · rw [pages_div]
    exact h.tables
  · dsimp only
    rw [pages_div, h.guards]
    rfl

theorem Flat.addStack {s : Space} {total sz : Nat} (h : Flat s total (pagesOf sz))
    (hsz : sz ≤ kernbase) :
    Builds ((pagesOf sz + 2) * pgsize < kernbase ∧ frames (pagesOf sz + 2) ≤ total)
      (fun s' top => top = (pagesOf sz + 2) * pgsize ∧ UserStack s'.dir top) (addStack s sz) := by
  have hbase := pgroundup_eq hsz
  have hroom := pagesOf_le hsz
  generalize pagesOf sz = n at h hbase hroom
  have htop : u32 (n * pgsize + 2 * pgsize) = (n + 2) * pgsize := by
    rw [u32_eq_self (by simp only [kernbase, pgsize] at *; omega), Nat.add_mul]
  rw [← pagesOf_mul n hroom] at h
  obtain ⟨s1, top, halloc, hresult, hstack⟩ := h.allocuvm hroom ((n + 2) * pgsize)
  have hpages (hbelow : (n + 2) * pgsize < kernbase) : pagesOf ((n + 2) * pgsize) = n + 2 :=
    pagesOf_mul _ hbelow.le
  have hmax : max (n * pgsize) ((n + 2) * pgsize) = (n + 2) * pgsize :=
    max_eq_right (Nat.mul_le_mul_right _ (by omega))
  unfold Xv6.addStack
  dsimp only
  rw [hbase, htop, halloc]
  change Builds _ _ (if top = 0 then Except.ok (s1, none)
    else Xv6.clearpteu s1 (u32OfInt (top - 2 * pgsize) / pgsize) >>= fun s => .ok (s, some top))
  split
  · rename_i hzero
    refine .fails fun hall => hresult.mpr ⟨hall.1, ?_, ?_⟩ hzero
    · rw [hmax]
      simp only [pgsize]
      omega
    · rw [hpages hall.1]
      exact hall.2
  · rename_i hnonzero
    obtain ⟨hbelow, -, hframes⟩ := hresult.mp hnonzero
    obtain ⟨rfl, -, hflat⟩ := hstack hnonzero
    rw [hmax, hpages hbelow] at hflat
    rw [hpages hbelow] at hframes
    obtain ⟨s2, hclear, hstacked⟩ := hflat.clearpteu hbelow
    rw [hmax, hclear]
    exact .builds ⟨hbelow, hframes⟩ ⟨rfl, hstacked⟩

theorem stackImage_builds {file : ElfFile} {free : Nat} {fresh : Space}
    (hwords : ∀ ph, some ph ∈ file.phdrs → ph.Words) (hfresh : setupkvm free = some fresh) :
    Builds (∃ top, file.Fits free top)
      (fun s top => file.Fits free top ∧ UserStack s.dir top) (stackImage file fresh) := by
  obtain ⟨hkvm, hflat⟩ := flat_setupkvm hfresh
  have hempty : Flat fresh (free - kvmFrames) (pagesOf 0) := hflat
  have hload := hempty.loadSegments file (Nat.zero_le _) hwords
  unfold stackImage
  generalize loadSegments file file.phdrs fresh 0 = loaded at hload
  cases hload with
  | fails hfails =>
    refine .fails fun ⟨top, hfits⟩ => hfails ⟨hfits.loads, ?_⟩
    have hframes := hfits.frames
    rw [hfits.ends, pages_div] at hframes
    have hmono := frames_mono (Nat.le_add_right (pagesOf (extent (segments file.phdrs) 0)) 2)
    omega
  | @builds s sz hok hgood =>
    obtain ⟨hsize, hlow, hgrown⟩ := hgood
    have hstack := hgrown.addStack hlow
    dsimp only [bind, Except.bind]
    generalize addStack s sz = stacked at hstack
    cases hstack with
    | fails hfails =>
      refine .fails fun ⟨top, hfits⟩ => hfails ?_
      have hends := hfits.ends
      have hframes := hfits.frames
      rw [← hsize] at hends
      rw [hends, pages_div] at hframes
      exact ⟨hends ▸ hfits.below, by omega⟩
    | builds hroom hgood =>
      obtain ⟨rfl, hstacked⟩ := hgood
      have hfits : file.Fits free ((pagesOf sz + 2) * pgsize) := by
        refine ⟨hok.1, by rw [hsize], hroom.1, ?_⟩
        rw [pages_div]
        omega
      exact .builds ⟨_, hfits⟩ ⟨hfits, hstacked⟩

end Xv6

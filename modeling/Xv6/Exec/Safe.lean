import Xv6.Exec.Arguments
import Xv6.Sys.Args
import Xv6.Share.Pass

/-! `exec` on any file and any strings that `fetchstr` lets through. Every way to fail leaves the
caller as it was and every way to succeed leaves the arguments on the new stack, but for a string
so long that the stack pointer strays from the image. -/
namespace Xv6

open Word Fallible Transition

/-- `s` is the string that `fetchstr` finds at `addr`, with a length that is not negative. -/
structure Args.Passes (user : Args.Memory) (sz addr : Nat) (s : List UInt8) : Prop where
  length : Args.fetchstr user sz addr = some s.length
  nonneg : 0 ≤ i32 s.length
  bytes : Memory.Holds user addr s

theorem Args.scanNul_lt {mem : Args.Memory} {start s count len : Nat} (hstart : start ≤ s)
    (h : Args.scanNul mem start s count = some len) : start + len < s + count := by
  induction count generalizing s with
  | zero => cases h
  | succ count ih =>
    unfold Args.scanNul at h
    split at h
    · cases Option.some.inj h
      omega
    · have hrest := ih (by omega) h
      omega

theorem Args.Passes.length_lt {user : Args.Memory} {sz addr : Nat} {s : List UInt8}
    (h : Args.Passes user sz addr s) (hsz : sz < 4294967296) : s.length < 2147483648 := by
  have hlength := h.length
  have hnonneg := h.nonneg
  unfold Args.fetchstr at hlength
  split at hlength
  · cases hlength
  · have hlt := Args.scanNul_lt le_rfl hlength
    unfold i32 at hnonneg
    omega

theorem ElfFile.Fits.unique {file : ElfFile} {free top top' : Nat} (h : file.Fits free top)
    (h' : file.Fits free top') : top = top' :=
  h.ends.trans h'.ends.symm

inductive Images (file : ElfFile) (free : Nat) (argv : List (List UInt8)) :
    Except Fault (Space × (Nat → UInt8) × Option (Nat × Nat)) → Prop
  | strays {top : Nat} (hfits : file.Fits free top)
      (h : SomeStrays (top - pgsize) top 0 (argv.map List.length)) :
      Images file free argv (.error .nullPointer)
  | refused (h : ∀ top, file.Fits free top →
      ¬ SomeStrays (top - pgsize) top 0 (argv.map List.length)) (s : Space) (mem : Nat → UInt8) :
      Images file free argv (.ok (s, mem, none))
  | built (h : ∀ top, file.Fits free top →
      ¬ SomeStrays (top - pgsize) top 0 (argv.map List.length)) {s : Space} {mem : Nat → UInt8}
      {top sp : Nat} {ptrs : List Nat} (hstack : UserStack s.dir top)
      (hargs : Delivered mem top sp argv ptrs) :
      Images file free argv (.ok (s, mem, some (top, sp)))

theorem imageStrings_images {file : ElfFile} {free : Nat} {argv : List (List UInt8)}
    {fresh : Space} (hwords : ∀ ph, some ph ∈ file.phdrs → ph.Words)
    (hlens : ∀ s ∈ argv, s.length < 2147483648) (hfresh : setupkvm free = some fresh)
    (loaded : Nat → UInt8) : Images file free argv (imageStrings file argv loaded fresh) := by
  have hbuilds := stackImage_builds hwords hfresh
  unfold imageStrings
  generalize stackImage file fresh = image at hbuilds
  cases hbuilds with
  | fails hnone => exact .refused (fun top hfits => absurd ⟨top, hfits⟩ hnone) _ _
  | @builds s top _ hgood =>
    obtain ⟨hfits, hstack⟩ := hgood
    have hpush := hstack.pushAll loaded hlens
    dsimp only [bind, Except.bind]
    generalize pushAll s.dir argv loaded top = pushed at hpush
    cases hpush with
    | strays hstrays => exact .strays hfits hstrays
    | refused hnone mem => exact .refused (fun _ hfits' => hfits.unique hfits' ▸ hnone) _ _
    | delivered hnone hargs =>
      exact .built (fun _ hfits' => hfits.unique hfits' ▸ hnone) hstack hargs

namespace Kernel

/-- `exec` fails and only the number of free frames may differ, or the new image is in place with
the arguments on its stack. -/
inductive ExecSafe (k : Kernel) (cur : Slot) (argv : List (List UInt8)) :
    Except Fault (Kernel × Int × (Nat → UInt8)) → Prop
  | failed (left : Nat) (mem : Nat → UInt8) :
      ExecSafe k cur argv (.ok ({ k with free := left }, -1, mem))
  | done {k' : Kernel} {mem : Nat → UInt8} {d : DirId} {ptrs : List Nat}
      (hpgdir : (k'.proc cur).pgdir = some d) (hstack : UserStack (k'.dir d) (k'.proc cur).sz)
      (hargs : Delivered mem (k'.proc cur).sz (k'.proc cur).tf.esp argv ptrs) :
      ExecSafe k cur argv (.ok (k', 0, mem))

section

variable {k : Kernel} {cur : Slot} {argv : List (List UInt8)}

theorem ExecSafe.freed (s : Space) (mem : Nat → UInt8) :
    ExecSafe k cur argv
      ((freevm s).map fun left => ({ k with free := left }, -1, mem)) := by
  obtain ⟨left, hleft⟩ := freevm_total s
  rw [hleft]
  exact .failed left mem

theorem ExecSafe.committed {k0 : Kernel} {s : Space} {mem : Nat → UInt8} {top sp : Nat}
    {ptrs : List Nat} (entry : Nat) (hpgdir : (k.proc cur).pgdir ≠ none)
    (hstack : UserStack s.dir top) (hargs : Delivered mem top sp argv ptrs) :
    ExecSafe k0 cur argv
      ((k.commitImage cur s entry top sp).map fun r => (r.1, r.2, mem)) := by
  have hdone : ∀ k' : Kernel, (k'.proc cur).pgdir = some k.nextdir → (k'.proc cur).sz = top →
      (k'.proc cur).tf.esp = sp → k'.dir k.nextdir = s.dir →
      ExecSafe k0 cur argv (.ok (k', 0, mem)) := by
    rintro k' hpgdir' rfl rfl hdir
    exact .done hpgdir' (hdir ▸ hstack) hargs
  unfold commitImage
  dsimp only
  split
  · obtain ⟨d, hd⟩ := Option.ne_none_iff_exists'.mp hpgdir
    rw [hd]
    dsimp only
    obtain ⟨left, hleft⟩ := freevm_total
      (((k.addDir s.dir s.free).modify cur fun p =>
        { p with pgdir := some k.nextdir, sz := top, tf := { p.tf with eip := entry, esp := sp } }
        ).space d)
    rw [hleft]
    exact hdone _ (by simp) (by simp) (by simp) (Function.update_self ..)
  · exact hdone _ (by simp) (by simp) (by simp) (Function.update_self ..)

theorem cleanupLwp_pgdir (k : Kernel) (mgr : Slot) (lwp : Option Slot) (p : Slot) :
    ((k.cleanupLwp mgr lwp).proc p).pgdir = (k.proc p).pgdir := by
  simp only [cleanupLwp]
  split
  · rfl
  · rfl

theorem execStrings_outcome (hfit : k.Fit) (hcur : k.At cur .user) (file : Option ElfFile)
    (hwords : ∀ f ∈ file, ∀ ph, some ph ∈ f.phdrs → ph.Words)
    (hlens : ∀ s ∈ argv, s.length < 2147483648) (loaded : Nat → UInt8) :
    (k.execStrings cur file argv loaded = .error .nullPointer ∧
      ∃ f ∈ file, ∃ top, f.Fits k.free top ∧
        SomeStrays (top - pgsize) top 0 (argv.map List.length)) ∨
    (ExecSafe k cur argv (k.execStrings cur file argv loaded) ∧
      ∀ f ∈ file, ∀ top, f.Fits k.free top →
        ¬ SomeStrays (top - pgsize) top 0 (argv.map List.length)) := by
  have hlive : (k.proc cur).state ≠ .unused := by
    rw [hcur.1]
    decide
  cases file with
  | none => exact .inr ⟨.failed k.free loaded, fun f hf => by cases hf⟩
  | some file =>
    cases hfresh : setupkvm k.free with
    | none =>
      refine .inr ⟨?_, fun f hf top hfits => ?_⟩
      · unfold execStrings
        rw [hfresh]
        exact .failed k.free loaded
      · have hframes := hfits.frames
        unfold setupkvm at hfresh
        split at hfresh
        · omega
        · cases hfresh
    | some fresh =>
      have himages := imageStrings_images (hwords file rfl) hlens hfresh loaded
      unfold execStrings
      rw [hfresh]
      dsimp only
      generalize imageStrings file argv loaded fresh = image at himages
      cases himages with
      | strays hfits hstrays => exact .inl ⟨rfl, file, rfl, _, hfits, hstrays⟩
      | refused hnone s mem =>
        refine .inr ⟨ExecSafe.freed s mem, fun f hf top => ?_⟩
        cases hf
        exact hnone top
      | @built hnone s mem top sp ptrs hstack hargs =>
        refine .inr ⟨?_, fun f hf top => ?_⟩
        · dsimp only [bind, Except.bind]
          split
          · rename_i htid
            obtain ⟨mgr, hmgr⟩ := Option.ne_none_iff_exists'.mp (hfit.manager cur hlive htid)
            rw [hmgr]
            refine ExecSafe.committed file.entry ?_ hstack hargs
            rw [cleanupLwp_pgdir]
            exact hfit.pgdir cur hlive
          split
          · refine ExecSafe.committed file.entry ?_ hstack hargs
            rw [cleanupLwp_pgdir]
            exact hfit.pgdir cur hlive
          · exact ExecSafe.freed s mem
        · cases hf
          exact hnone top

end

/-- `exec` fails without a trace or delivers the arguments, whatever the file holds and whatever
strings `fetchstr` has let through, if and only if no string strays from the stack of the image
that the file describes. -/
theorem exec_safe {free : Nat} {k : Kernel} (hreach : Reaches perform Enabled (boot free) k)
    {cur : Slot} (hcur : k.At cur .user) (file : Option ElfFile)
    (hwords : ∀ f ∈ file, ∀ ph, some ph ∈ f.phdrs → ph.Words) (user : Args.Memory)
    (argv : List (List UInt8))
    (hargv : ∀ s ∈ argv, ∃ addr, Args.Passes user (k.proc cur).sz addr s)
    (loaded : Nat → UInt8) :
    ExecSafe k cur argv (k.execStrings cur file argv loaded) ↔
      ∀ f ∈ file, ∀ top, f.Fits k.free top →
        ¬ SomeStrays (top - pgsize) top 0 (argv.map List.length) := by
  have hlens : ∀ s ∈ argv, s.length < 2147483648 := by
    intro s hs
    obtain ⟨addr, hpasses⟩ := hargv s hs
    exact hpasses.length_lt ((spaced_reaches hreach).sz cur)
  rcases execStrings_outcome (fit_reaches hreach) hcur file hwords hlens loaded with
    ⟨hfault, f, hf, top, hfits, hstrays⟩ | ⟨hsafe, hnone⟩
  · rw [hfault]
    exact iff_of_false nofun fun hnone => hnone f hf top hfits hstrays
  · exact iff_of_true hsafe hnone

def smallProgram : ElfFile := ⟨0, [some ⟨1, 4096, 0, 100, 200⟩], fun _ _ => true⟩

def onesTo (len : Nat) : Args.Memory := fun a => if a = len then 0 else 1

theorem passes_onesTo {len sz : Nat} (hsz : len < sz) (hlen : len < 2147483648) :
    Args.Passes (onesTo len) sz 0 (List.replicate len 1) := by
  have hscan : ∀ s count, s ≤ len → len < s + count →
      Args.scanNul (onesTo len) 0 s count = some len := by
    intro s count
    induction count generalizing s with
    | zero => omega
    | succ count ih =>
      intro hs hcount
      unfold Args.scanNul onesTo
      by_cases hhere : s = len
      · rw [if_pos (if_pos hhere), hhere, Nat.sub_zero]
      · rw [if_neg (by rw [if_neg hhere]; decide)]
        exact ih (s + 1) (by omega) (by omega)
  refine ⟨?_, ?_, fun i hi => ?_⟩
  · rw [List.length_replicate]
    unfold Args.fetchstr
    rw [if_neg (by omega)]
    exact hscan 0 (sz - 0) (by omega) (by omega)
  · rw [List.length_replicate]
    unfold i32
    omega
  · rw [List.length_replicate] at hi
    rw [List.getElem_replicate, Nat.zero_add]
    exact if_neg (by omega)

theorem exec_safe_small : ∃ k, Reaches perform Enabled (boot 1000) k ∧ k.At 0 .user ∧
    (k.execStrings 0 (some smallProgram) [[1, 1, 1]] fun _ => 0).map (fun r => r.2.1) = .ok 0 ∧
    ExecSafe k 0 [[1, 1, 1]]
      (k.execStrings 0 (some smallProgram) [[1, 1, 1]] fun _ => 0) := by
  obtain ⟨k, hreach, htest⟩ := exists_reaches perform Enabled (boot 1000) [.visit 0 0]
    (fun k => decide (k.At 0 .user ∧ 3 < (k.proc 0).sz ∧
      (k.execStrings 0 (some smallProgram) [[1, 1, 1]] fun _ => 0).map (fun r => r.2.1) =
        .ok 0)) (by decide +kernel)
  obtain ⟨hcur, hsz, hresult⟩ := of_decide_eq_true htest
  refine ⟨k, hreach, hcur, hresult, (exec_safe hreach hcur _ ?_ (onesTo 3) _ ?_ _).mpr ?_⟩
  · rintro f hf ph hph
    cases hf
    cases List.mem_singleton.mp hph
    exact ⟨by decide, by decide, by decide, by decide, by decide⟩
  · intro s hs
    cases List.mem_singleton.mp hs
    exact ⟨0, passes_onesTo hsz (by omega)⟩
  · rintro f - top - ⟨i, len, -, hlen, -, hstrays⟩
    cases i with
    | zero =>
      obtain rfl : 3 = len := Option.some.inj hlen
      unfold Strays at hstrays
      omega
    | succ i => cases hlen

theorem growproc_page {k : Kernel} {cur : Slot} {d : DirId} {n : Nat} (hcur : k.At cur .user)
    (htid : (k.proc cur).tid = 0) (hpgdir : (k.proc cur).pgdir = some d)
    (hsz : (k.proc cur).sz = pgsize) (hdir : k.dir d = ⟨{0}, {0}, ∅⟩) (hn : 0 < n)
    (hbelow : pgsize + n < kernbase) (hfree : frames (pagesOf (pgsize + n)) ≤ k.free + 2) :
    ∃ k', k.growproc cur n = .ok (k', 0) ∧ k'.At cur .user ∧ (k'.proc cur).sz = pgsize + n ∧
      k'.free + frames (pagesOf (pgsize + n)) = k.free + 2 := by
  have hflat : Flat (k.space d) (k.free + 2) (pagesOf pgsize) := by
    have hspace : (k.space d).dir = ⟨{0}, {0}, ∅⟩ := hdir
    refine ⟨?_, ?_, ?_, rfl⟩
    · rw [hspace]
      rfl
    · rw [hspace]
      rfl
    · rw [hspace]
  obtain ⟨s, result, halloc, hresult, hgrown⟩ := hflat.allocuvm (by decide) (pgsize + n)
  have hnonzero := hresult.mpr ⟨hbelow, by omega, hfree⟩
  obtain ⟨hsize, -, hflat'⟩ := hgrown hnonzero
  rw [max_eq_right (Nat.le_add_right _ _)] at hsize
  subst hsize
  have hresize : resize (k.space d) (k.proc cur).sz n = .ok (s, pgsize + n) := by
    unfold resize
    have hsum : ((pgsize : Int) + n).toNat = pgsize + n := by omega
    rw [if_pos (by omega), hsz, u32OfInt_eq (by omega) (by simp only [kernbase] at hbelow; omega),
      hsum]
    exact halloc
  have hmanager : k.manager? cur = .ok (some cur) := by
    unfold manager?
    rw [htid]
    rfl
  refine ⟨(k.setSpace d s).modify cur fun p => { p with sz := pgsize + n }, ?_, ?_, ?_, ?_⟩
  · simp only [growproc, hmanager, hpgdir, deref, hresize, bind, Except.bind]
    rw [if_neg (by omega)]
  · simpa [At, setSpace] using hcur
  · simp
  · exact hflat'.free

def emptyProgram : ElfFile := ⟨0, [], fun _ _ => false⟩

theorem fits_emptyProgram {free : Nat} (h : 68 ≤ free) : emptyProgram.Fits free 8192 := by
  refine ⟨⟨List.not_mem_nil, fun ph hph => ?_, fun _ ph hph => ?_⟩, rfl, by decide, h⟩
  · cases hph
  · cases hph

/-- A string of 33562624 bytes, 8 KB more than 32 MB. The stack ends at 8192, so the string would
start at `0xfdfffffc`, just under the devices. -/
theorem exec_strays : ∃ k, Reaches perform Enabled (boot 20000) k ∧ k.At 0 .user ∧
    ∃ s : List UInt8, s.length = 33562624 ∧
      Args.Passes (onesTo s.length) (k.proc 0).sz 0 s ∧ ∀ loaded,
        k.execStrings 0 (some emptyProgram) [s] loaded = .error .nullPointer ∧
        ¬ ExecSafe k 0 [s] (k.execStrings 0 (some emptyProgram) [s] loaded) := by
  obtain ⟨k1, hreach1, htest⟩ := exists_reaches perform Enabled (boot 20000) [.visit 0 0]
    (fun k => decide (k.At 0 .user ∧ (k.proc 0).tid = 0 ∧ (k.proc 0).pgdir = some 0 ∧
      (k.proc 0).sz = pgsize ∧ k.dir 0 = ⟨{0}, {0}, ∅⟩ ∧ k.free = 20000)) (by decide +kernel)
  obtain ⟨hcur1, htid, hpgdir, hsz1, hdir, hfree1⟩ := of_decide_eq_true htest
  obtain ⟨n, hn⟩ : ∃ n, n = 33562624 := ⟨_, rfl⟩
  have hpages : frames (pagesOf (pgsize + n)) = 8204 := by
    subst hn
    decide
  have hbelow : pgsize + n < kernbase := by
    simp only [pgsize, kernbase]
    omega
  obtain ⟨k, hgrow, hcur, hsz, hfree⟩ :=
    growproc_page hcur1 htid hpgdir hsz1 hdir (show 0 < n by omega) hbelow (by omega)
  have hstep : k1.perform (.sbrk 0 n) = .ok (k, .ret 0) := by
    simp only [perform, hgrow, Except.map]
  have hreach := hreach1.step (show k1.Enabled (.sbrk 0 n) from hcur1) hstep
  have hlength : (List.replicate n (1 : UInt8)).length = n := List.length_replicate
  have hlens : ∀ s ∈ [List.replicate n (1 : UInt8)], s.length < 2147483648 := by
    intro s hs
    rw [List.mem_singleton.mp hs, hlength]
    omega
  have hstrays : SomeStrays (8192 - pgsize) 8192 0 [n] := by
    refine ⟨0, n, by decide, rfl, ?_, ?_⟩
    · rw [List.take_zero, List.map_nil, List.sum_nil]
      decide
    · rw [List.take_zero, List.map_nil, List.sum_nil]
      unfold Strays
      omega
  refine ⟨k, hreach, hcur, List.replicate n 1, hlength.trans hn, ?_, fun loaded => ?_⟩
  · rw [hlength]
    exact passes_onesTo (by rw [hsz]; exact Nat.lt_add_of_pos_left (by decide)) (by omega)
  · rcases execStrings_outcome (fit_reaches hreach) hcur (some emptyProgram)
      (fun f hf ph hph => by cases hf; cases hph) hlens loaded with ⟨hfault, -⟩ | ⟨-, hnone⟩
    · refine ⟨hfault, ?_⟩
      rw [hfault]
      exact nofun
    · have hfits : emptyProgram.Fits k.free 8192 := fits_emptyProgram (by omega)
      refine absurd ?_ (hnone emptyProgram rfl 8192 hfits)
      rw [List.map_singleton, hlength]
      exact hstrays

end Kernel

end Xv6

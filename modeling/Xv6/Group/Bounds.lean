import Xv6.Group.Layout

/-! Where a push on a free list of stacks can leave `stack[NPROC]`. Only the reaping of an LWP
pushes one; no other function of the kernel ends with that fault. -/
namespace Xv6.Kernel

open Fallible

/-- No push of the computation is outside `stack[NPROC]`. -/
abbrev InBounds {α : Type} (x : Except Fault α) : Prop := Avoids .stackBounds x

theorem inBounds_deref {α : Type} (pointer : Option α) : InBounds (deref pointer) := by
  intro h
  cases deref_eq_error h

theorem inBounds_deallocuvm (s : Space) (oldsz newsz : Nat) :
    InBounds (deallocuvm s oldsz newsz) := by
  intro h
  cases deallocuvm_error h

theorem inBounds_allocuvm (s : Space) (oldsz newsz : Nat) : InBounds (allocuvm s oldsz newsz) := by
  intro h
  unfold allocuvm at h
  split at h
  · cases h
  split at h
  · cases h
  split at h
  · rename_i hloop
    cases h
    cases (allocLoop_error hloop).1
  · cases h
  · exact inBounds_deallocuvm _ _ _ (map_eq_error.mp h)

theorem inBounds_freevm (s : Space) : InBounds (freevm s) :=
  (inBounds_deallocuvm s kernbase 0).map

theorem inBounds_clearpteu (s : Space) (page : Nat) : InBounds (clearpteu s page) := by
  intro h
  cases clearpteu_error h

theorem inBounds_copyout (dir : PageDir) (va len : Nat) : InBounds (copyout dir va len) := by
  intro h
  cases copyoutLoop_error h

theorem inBounds_copyLoop (parent : PageDir) (child : Space) (page sz fuel : Nat) :
    InBounds (copyLoop parent child page sz fuel) := by
  induction fuel generalizing child page with
  | zero => exact avoids_ok _
  | succ fuel ih =>
    unfold copyLoop
    split
    · split
      · exact avoids_error (by decide)
      split
      · exact avoids_error (by decide)
      split
      · exact avoids_ok _
      split
      · exact avoids_error (by decide)
      split
      · rename_i hmap
        obtain ⟨rfl, -⟩ := mappages_error hmap
        exact avoids_error (by decide)
      · exact avoids_ok _
      · exact ih _ _
    · exact avoids_ok _

theorem inBounds_copyuvm (parent : PageDir) (free sz : Nat) :
    InBounds (copyuvm parent free sz) := by
  unfold copyuvm
  split
  · exact avoids_ok _
  split
  · rename_i hloop
    intro h
    cases h
    exact inBounds_copyLoop _ _ _ _ _ hloop
  · exact avoids_ok _
  · exact (inBounds_freevm _).map

theorem inBounds_manager? (k : Kernel) (cur : Slot) : InBounds (k.manager? cur) := by
  intro h
  cases manager?_error h

theorem inBounds_dupFiles (k : Kernel) (src dst : Slot) : InBounds (k.dupFiles src dst) := by
  intro h
  rcases dupFiles_error h with hfault | hfault
  · cases hfault
  · cases hfault

theorem inBounds_closeFiles (k : Kernel) (slot : Slot) : InBounds (k.closeFiles slot) := by
  intro h
  rcases closeFiles_error h with hfault | hfault
  · cases hfault
  · cases hfault

theorem inBounds_fork (k : Kernel) (cur : Slot) : InBounds (k.fork cur) := by
  unfold fork
  split
  · exact avoids_ok _
  · refine (inBounds_manager? _ _).bind fun mgr? _ => ?_
    cases mgr? with
    | none => exact avoids_ok _
    | some mgr =>
      refine (inBounds_deref _).bind fun d _ => (inBounds_copyuvm _ _ _).bind fun copied _ => ?_
      obtain ⟨pages, left⟩ := copied
      cases pages with
      | none => exact avoids_ok _
      | some pages => exact (inBounds_dupFiles _ _ _).bind fun k1 _ => avoids_ok _

theorem inBounds_loaduvm (dir : PageDir) (file : ElfFile) (addr offset sz i fuel : Nat) :
    InBounds (loaduvm dir file addr offset sz i fuel) := by
  induction fuel generalizing i with
  | zero => exact avoids_ok _
  | succ fuel ih =>
    unfold loaduvm
    split
    · split
      · exact avoids_error (by decide)
      split
      · exact ih _
      · exact avoids_ok _
    · exact avoids_ok _

theorem inBounds_loadSegment (file : ElfFile) (s : Space) (sz : Nat) (ph : Option ProgHdr) :
    InBounds (loadSegment file s sz ph) := by
  unfold loadSegment
  split
  · exact avoids_ok _
  split
  · exact avoids_ok _
  split
  · exact avoids_ok _
  split
  · exact avoids_ok _
  · refine (inBounds_allocuvm _ _ _).bind fun r _ => ?_
    dsimp only
    split
    · exact avoids_ok _
    split
    · exact avoids_ok _
    · refine (inBounds_loaduvm _ _ _ _ _ _ _).bind fun loaded _ => ?_
      split
      · exact avoids_ok _
      · exact avoids_ok _

theorem inBounds_loadSegments (file : ElfFile) (phs : List (Option ProgHdr)) (s : Space)
    (sz : Nat) : InBounds (loadSegments file phs s sz) := by
  induction phs generalizing s sz with
  | nil => exact avoids_ok _
  | cons ph rest ih =>
    refine (inBounds_loadSegment file s sz ph).bind fun r _ => ?_
    obtain ⟨s1, size⟩ := r
    cases size with
    | none => exact avoids_ok _
    | some size => exact ih _ _

theorem inBounds_pushArgs (dir : PageDir) (argv : List Nat) (argc sp : Nat) :
    InBounds (pushArgs dir argv argc sp) := by
  induction argv generalizing argc sp with
  | nil => exact avoids_ok _
  | cons len rest ih =>
    unfold pushArgs
    split
    · exact avoids_ok _
    · refine (inBounds_copyout _ _ _).bind fun copied _ => ?_
      split
      · exact ih _ _
      · exact avoids_ok _

theorem inBounds_buildImage (file : ElfFile) (argv : List Nat) (fresh : Space) :
    InBounds (buildImage file argv fresh) := by
  refine (inBounds_loadSegments _ _ _ _).bind fun r _ => ?_
  obtain ⟨s, size⟩ := r
  cases size with
  | none => exact avoids_ok _
  | some size =>
    refine (inBounds_allocuvm _ _ _).bind fun r _ => ?_
    dsimp only
    split
    · exact avoids_ok _
    · refine (inBounds_clearpteu _ _).bind fun s1 _ => ?_
      refine (inBounds_pushArgs _ _ _ _).bind fun pushed _ => ?_
      cases pushed with
      | none => exact avoids_ok _
      | some sp =>
        refine (inBounds_copyout _ _ _).bind fun copied _ => ?_
        split
        · exact avoids_ok _
        · exact avoids_ok _

theorem inBounds_commitImage (k : Kernel) (cur : Slot) (s : Space) (entry sz sp : Nat) :
    InBounds (k.commitImage cur s entry sz sp) := by
  unfold commitImage
  dsimp only
  split
  · split
    · exact (inBounds_freevm _).bind fun left _ => avoids_ok _
    · exact avoids_error (by decide)
  · exact avoids_ok _

theorem inBounds_exec (k : Kernel) (cur : Slot) (file : Option ElfFile) (argv : List Nat) :
    InBounds (k.exec cur file argv) := by
  unfold exec
  split
  · refine (inBounds_buildImage _ _ _).bind fun r _ => ?_
    obtain ⟨s, image⟩ := r
    cases image with
    | none => exact (inBounds_freevm _).map
    | some image =>
      dsimp only
      split
      · exact (inBounds_deref _).bind fun mgr _ => inBounds_commitImage _ _ _ _ _ _
      split
      · exact inBounds_commitImage _ _ _ _ _ _
      · exact (inBounds_freevm _).map
  · exact avoids_ok _

theorem inBounds_growproc (k : Kernel) (cur : Slot) (n : Int) :
    InBounds (k.growproc cur n) := by
  refine (inBounds_manager? _ _).bind fun mgr? _ => ?_
  cases mgr? with
  | none => exact avoids_ok _
  | some mgr =>
    refine (inBounds_deref _).bind fun d _ => ?_
    refine Avoids.bind ?_ fun r _ => ?_
    · unfold resize
      split
      · exact inBounds_allocuvm _ _ _
      split
      · exact inBounds_deallocuvm _ _ _
      · exact avoids_ok _
    · dsimp only
      split
      · exact avoids_ok _
      · exact avoids_ok _

theorem inBounds_wait (k : Kernel) (cur : Slot) : InBounds (k.wait cur) := by
  unfold wait
  split
  · split
    · exact (inBounds_freevm _).bind fun left _ => avoids_ok _
    · exact avoids_error (by decide)
  split
  · exact avoids_ok _
  · exact avoids_ok _

theorem inBounds_threadCreate (k : Kernel) (cur : Slot) (start : Nat) :
    InBounds (k.threadCreate cur start) := by
  unfold threadCreate
  split
  · exact avoids_ok _
  · refine (inBounds_manager? _ _).bind fun mgr? _ => ?_
    cases mgr? with
    | none => exact avoids_ok _
    | some mgr =>
      refine (inBounds_dupFiles _ _ _).bind fun k1 _ => ?_
      refine Avoids.bind ?_ fun r _ => ?_
      · refine (inBounds_deref _).bind fun d _ => (inBounds_allocuvm _ _ _).bind fun r _ => ?_
        dsimp only
        split
        · exact avoids_ok _
        · exact (inBounds_clearpteu _ _).bind fun s _ =>
            (inBounds_copyout _ _ _).bind fun copied _ => avoids_ok _
      · obtain ⟨k2, ok⟩ := r
        cases ok with
        | false => exact avoids_ok _
        | true => exact avoids_ok _

theorem inBounds_threadExit (k : Kernel) (cur : Slot) (retval : Nat) :
    InBounds (k.threadExit cur retval) := by
  unfold threadExit
  split
  · exact avoids_error (by decide)
  split
  · exact avoids_ok _
  · exact (inBounds_closeFiles _ _).bind fun k1 _ => avoids_ok _

theorem inBounds_push (heap : StrideHeap) (x : Int) : InBounds (heap.push x) := by
  unfold StrideHeap.push
  split
  · exact avoids_error (by decide)
  · exact avoids_ok _

theorem inBounds_pop (heap : StrideHeap) : InBounds heap.pop := by
  unfold StrideHeap.pop
  split
  · exact avoids_error (by decide)
  · exact avoids_ok _

theorem inBounds_execution (k : Kernel) (c : Fin ncpu) (p : Slot) (how : Visit) :
    InBounds (k.execution c p how) := by
  unfold execution
  split
  · exact avoids_error (by decide)
  · exact avoids_ok _

theorem inBounds_visit (k : Kernel) (c : Fin ncpu) (p : Slot) : InBounds (k.visit c p) := by
  unfold visit
  split
  · exact avoids_ok _
  split
  · exact inBounds_execution _ _ _ _
  dsimp only
  split
  · refine Avoids.bind ?_ fun mgr _ => ?_
    · unfold schedManager
      split
      · exact inBounds_deref _
      · exact avoids_ok _
    · split
      · refine Avoids.bind ?_ fun k1 _ => inBounds_execution _ _ _ _
        exact (inBounds_pop _).bind fun r _ => (inBounds_push _ _).bind fun heap _ => avoids_ok _
      · exact avoids_ok _
  split
  · exact avoids_ok _
  split
  · exact avoids_ok _
  · exact inBounds_execution _ _ _ _

theorem inBounds_setCpuShare (k : Kernel) (cur : Slot) (percent : Int) :
    InBounds (k.setCpuShare cur percent) := by
  unfold setCpuShare
  split
  · exact avoids_ok _
  split
  · exact (inBounds_push _ _).bind fun heap _ => avoids_ok _
  · exact avoids_ok _

theorem inBounds_exitEnd (k : Kernel) (cur : Slot) : InBounds (k.exitEnd cur) := by
  refine (inBounds_closeFiles _ _).bind fun k1 _ => Avoids.bind ?_ fun k2 _ => avoids_ok _
  unfold notify
  split
  · exact avoids_ok _
  · exact (inBounds_deref _).map

end Xv6.Kernel

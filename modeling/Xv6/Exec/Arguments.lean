import Xv6.Exec.Image
import Mathlib.Data.List.Forall2

/-! What `exec` leaves on the stack of the new image. A string that fits lands on the stack page
and one that does not runs into the guard page. A string longer than the stack pointer takes the
unsigned difference round to the top of the address space. There the kernel is mapped, except for
the addresses between the direct map and the devices, which have no page table. -/
namespace Xv6

open Word Fallible

theorem copyoutLoop_stops {dir : PageDir} {page count : Nat} (stop : Nat)
    (hlow : page ≤ stop) (hhigh : stop < page + count)
    (huser : ∀ q, page ≤ q → q < stop → dir.HasEntry q ∧ dir.User q)
    (hentry : dir.HasEntry stop) (hstop : ¬ dir.User stop) :
    copyoutLoop dir page count = .ok false := by
  induction count generalizing page with
  | zero => omega
  | succ count ih =>
    unfold copyoutLoop
    by_cases hhere : page = stop
    · subst hhere
      rw [if_neg (not_not.mpr hentry), if_neg hstop]
    · obtain ⟨hentry', huser'⟩ := huser page le_rfl (by omega)
      rw [if_neg (not_not.mpr hentry'), if_pos huser']
      exact ih (by omega) (by omega) fun q hq => huser q (by omega)

theorem copyoutBytes_false {dir : PageDir} {va : Nat} {buf : List UInt8} (mem : Nat → UInt8)
    (h : copyout dir va buf.length = .ok false) :
    ∃ mem', copyoutBytes dir mem va buf = .ok (mem', false) := by
  obtain ⟨⟨mem', copied⟩, hcopy, rfl⟩ := (h ▸ copyoutBytes_agree dir mem va buf).eq_ok
  exact ⟨mem', hcopy⟩

theorem copyoutBytes_error {dir : PageDir} {va : Nat} {buf : List UInt8} (mem : Nat → UInt8)
    {fault : Fault} (h : copyout dir va buf.length = .error fault) :
    copyoutBytes dir mem va buf = .error fault :=
  (h ▸ copyoutBytes_agree dir mem va buf).eq_error

/-- Above `KERNBASE` no directory lets user code in, and all have the entries of the kernel. -/
theorem copyout_kernel (dir : PageDir) {va len : Nat} (hva : kernbase ≤ va) (hlen : 0 < len) :
    copyout dir va len =
      if KernelMapped (va / pgsize) then .ok false else .error .nullPointer := by
  have hpage : ¬ va / pgsize < kernpage := by
    simp only [kernpage, kernbase, pgsize] at *
    omega
  obtain ⟨count, hcount⟩ :
      ∃ count, (va % pgsize + len + (pgsize - 1)) / pgsize = count + 1 := by
    refine Nat.exists_eq_succ_of_ne_zero ?_
    simp only [pgsize]
    omega
  unfold copyout
  rw [hcount, copyoutLoop]
  by_cases hmapped : KernelMapped (va / pgsize)
  · rw [if_pos hmapped, if_neg (not_not.mpr (.inr hmapped)), if_neg fun huser => hpage huser.1]
  · have hnone : ¬ dir.HasEntry (va / pgsize) := by
      rintro (⟨hlow, -⟩ | hkernel)
      · exact hpage hlow
      · exact hmapped hkernel
    rw [if_neg hmapped, if_pos hnone]

section UserStack

variable {dir : PageDir} {top va : Nat} {mem : Nat → UInt8} {buf : List UInt8}

theorem UserStack.hasEntry (h : UserStack dir top) {q : Nat} (hq : q < top / pgsize) :
    dir.HasEntry q := by
  have hbelow := h.below
  refine .inl ⟨?_, ?_⟩
  · simp only [kernpage, kernbase, pgsize] at *
    omega
  · rw [h.tables, Finset.mem_range]
    simp only [nptentries]
    omega

theorem UserStack.user_iff (h : UserStack dir top) {q : Nat} :
    dir.User q ↔ q < top / pgsize ∧ q ≠ top / pgsize - 2 := by
  have hbelow := h.below
  unfold PageDir.User
  rw [h.pages, h.guards, Finset.mem_range, Finset.mem_singleton]
  constructor
  · rintro ⟨-, hpage, hguard⟩
    exact ⟨hpage, hguard⟩
  · rintro ⟨hpage, hguard⟩
    refine ⟨?_, hpage, hguard⟩
    simp only [kernpage, kernbase, pgsize] at *
    omega

theorem UserStack.copyout_fits (h : UserStack dir top) (hlow : top - pgsize ≤ va)
    (hhigh : va + buf.length ≤ top) (hbuf : buf ≠ []) :
    copyoutBytes dir mem va buf = .ok (Memory.store mem va buf, true) := by
  have hpos := List.length_pos_iff.mpr hbuf
  have haligned := h.aligned
  have htwo := h.low
  have hpage : va / pgsize < top / pgsize ∧ va / pgsize ≠ top / pgsize - 2 := by
    simp only [pgsize] at *
    omega
  have hcount : (va % pgsize + buf.length + (pgsize - 1)) / pgsize = 1 := by
    simp only [pgsize] at *
    omega
  have hwhole : buf.length ≤ pgsize - (va - pgrounddown va) := by
    unfold pgrounddown
    simp only [pgsize] at *
    omega
  unfold copyoutBytes
  rw [hcount, copyoutData]
  dsimp only
  rw [if_neg (not_not.mpr (h.hasEntry hpage.1)), if_pos (h.user_iff.mpr hpage),
    min_eq_right hwhole, List.take_length]
  rfl

theorem UserStack.copyout_guard (h : UserStack dir top) (mem : Nat → UInt8) (buf : List UInt8)
    (hlow : va < top - pgsize) (hhigh : top - 2 * pgsize < va + buf.length) :
    ∃ mem', copyoutBytes dir mem va buf = .ok (mem', false) := by
  have haligned := h.aligned
  have htwo := h.low
  refine copyoutBytes_false mem (copyoutLoop_stops (top / pgsize - 2) ?_ ?_ ?_ ?_ ?_)
  · simp only [pgsize] at *
    omega
  · simp only [pgsize] at *
    omega
  · intro q _ hq
    exact ⟨h.hasEntry (by omega), h.user_iff.mpr ⟨by omega, by omega⟩⟩
  · refine h.hasEntry ?_
    simp only [pgsize] at *
    omega
  · intro huser
    exact (h.user_iff.mp huser).2 rfl

end UserStack

def slotSize (len : Nat) : Nat := (len + 4) / 4 * 4

/-- A string of `len` bytes under `sp` starts at an address that has no page table: the
difference wraps around and ends under the devices, but not in the direct map. -/
def Strays (sp len : Nat) : Prop := sp + 33554432 < len + 1 ∧ len + 1 ≤ sp + 1912602624

def SomeStrays (base sp argc : Nat) (lens : List Nat) : Prop :=
  ∃ i len, argc + i < maxarg ∧ lens[i]? = some len ∧
    base + ((lens.take i).map slotSize).sum ≤ sp ∧
    Strays (sp - ((lens.take i).map slotSize).sum) len

def Stands (mem : Nat → UInt8) (low high : Nat) (s : List UInt8) (p : Nat) : Prop :=
  low ≤ p ∧ p + (s ++ [0]).length ≤ high ∧ Memory.Holds mem p (s ++ [0])

theorem someStrays_cons {base sp : Nat} (argc len : Nat) (rest : List Nat) (hsp : base ≤ sp) :
    SomeStrays base sp argc (len :: rest) ↔ argc < maxarg ∧ (Strays sp len ∨
      base + slotSize len ≤ sp ∧ SomeStrays base (sp - slotSize len) (argc + 1) rest) := by
  constructor
  · rintro ⟨i, len', hargc, hlen', hfits, hstrays⟩
    cases i with
    | zero =>
      cases Option.some.inj hlen'
      exact ⟨hargc, .inl hstrays⟩
    | succ i =>
      rw [List.take_succ_cons, List.map_cons, List.sum_cons] at hfits hstrays
      refine ⟨by omega, .inr ⟨by omega, i, len', by omega, hlen', by omega, ?_⟩⟩
      rw [Nat.sub_sub]
      exact hstrays
  · rintro ⟨hargc, hstrays | ⟨hfits, i, len', hargc', hlen', hrest, hstrays⟩⟩
    · exact ⟨0, len, hargc, rfl, hsp, hstrays⟩
    · refine ⟨i + 1, len', by omega, hlen', ?_, ?_⟩
      · rw [List.take_succ_cons, List.map_cons, List.sum_cons]
        omega
      · rw [List.take_succ_cons, List.map_cons, List.sum_cons, ← Nat.sub_sub]
        exact hstrays

section Push

variable {dir : PageDir} {top sp : Nat} {mem : Nat → UInt8} {s : List UInt8}

theorem UserStack.push_fits (h : UserStack dir top) (mem : Nat → UInt8) (haligned : sp % 4 = 0)
    (hsp : sp ≤ top) (hfits : top - pgsize + slotSize s.length ≤ sp) :
    u32OfInt (sp - (s.length + 1)) / 4 * 4 = sp - slotSize s.length ∧
      copyoutBytes dir mem (sp - slotSize s.length) (s ++ [0]) =
        .ok (Memory.store mem (sp - slotSize s.length) (s ++ [0]), true) := by
  have hbelow := h.below
  constructor
  · unfold slotSize at *
    simp only [kernbase] at hbelow
    rw [u32OfInt_eq (by omega) (by omega)]
    omega
  · refine h.copyout_fits (by omega) ?_ (List.append_ne_nil_of_right_ne_nil _ (by simp))
    rw [List.length_append, List.length_singleton]
    unfold slotSize at *
    omega

theorem UserStack.push_lacks (h : UserStack dir top) (mem : Nat → UInt8) (haligned : sp % 4 = 0)
    (hlow : top - pgsize ≤ sp) (hsp : sp ≤ top) (hlen : s.length < 2147483648)
    (hlacks : sp < top - pgsize + slotSize s.length) :
    (Strays sp s.length →
      copyoutBytes dir mem (u32OfInt (sp - (s.length + 1)) / 4 * 4) (s ++ [0]) =
        .error .nullPointer) ∧
    (¬ Strays sp s.length → ∃ mem',
      copyoutBytes dir mem (u32OfInt (sp - (s.length + 1)) / 4 * 4) (s ++ [0]) =
        .ok (mem', false)) := by
  have hbelow := h.below
  have htwo := h.low
  have hlength : (s ++ [0]).length = s.length + 1 := by
    rw [List.length_append, List.length_singleton]
  simp only [kernbase, pgsize] at hbelow htwo hlow hlacks
  by_cases hwraps : sp < s.length + 1
  · -- above KERNBASE, where the answer depends on the address alone
    have hva : u32OfInt (sp - (s.length + 1)) = sp + 4294967296 - (s.length + 1) := by
      rw [u32OfInt_neg (by omega) (by omega)]
      omega
    have hkernel : kernbase ≤ u32OfInt (sp - (s.length + 1)) / 4 * 4 := by
      rw [hva]
      simp only [kernbase]
      omega
    have hmapped : KernelMapped (u32OfInt (sp - (s.length + 1)) / 4 * 4 / pgsize) ↔
        ¬ Strays sp s.length := by
      rw [hva]
      unfold KernelMapped Strays
      simp only [kernpage, pgsize]
      omega
    have hcopy := copyout_kernel dir hkernel (show 0 < (s ++ [0]).length by omega)
    constructor
    · intro hstrays
      rw [if_neg (not_not.mpr hstrays ∘ hmapped.mp)] at hcopy
      exact copyoutBytes_error mem hcopy
    · intro hstays
      rw [if_pos (hmapped.mpr hstays)] at hcopy
      exact copyoutBytes_false mem hcopy
  · refine ⟨fun hstrays => ?_, fun _ => ?_⟩
    · unfold Strays at hstrays
      omega
    · rw [u32OfInt_eq (by omega) (by omega)]
      unfold slotSize at hlacks
      refine h.copyout_guard mem _ ?_ ?_
      · simp only [pgsize]
        omega
      · rw [hlength]
        simp only [pgsize]
        omega

end Push

inductive Pushes (top sp : Nat) (mem : Nat → UInt8) (ptrs : List Nat) (argv : List (List UInt8)) :
    Except Fault ((Nat → UInt8) × Option (List Nat × Nat)) → Prop
  | strays (h : SomeStrays (top - pgsize) sp ptrs.length (argv.map List.length)) :
      Pushes top sp mem ptrs argv (.error .nullPointer)
  | refused (h : ¬ SomeStrays (top - pgsize) sp ptrs.length (argv.map List.length))
      (mem' : Nat → UInt8) : Pushes top sp mem ptrs argv (.ok (mem', none))
  | pushed (h : ¬ SomeStrays (top - pgsize) sp ptrs.length (argv.map List.length))
      {mem' : Nat → UInt8} {new : List Nat} {sp' : Nat} (hlow : top - pgsize ≤ sp')
      (hhigh : sp' ≤ sp) (haligned : sp' % 4 = 0) (hroom : ptrs.length + argv.length ≤ maxarg)
      (hkept : ∀ a, sp ≤ a → mem' a = mem a)
      (hstands : List.Forall₂ (Stands mem' sp' sp) argv new) :
      Pushes top sp mem ptrs argv (.ok (mem', some (ptrs ++ new, sp')))

theorem Stands.mono {mem mem' : Nat → UInt8} {low low' high high' p : Nat} {s : List UInt8}
    (h : Stands mem low high s p) (hlow : low' ≤ low) (hhigh : high ≤ high')
    (hkept : ∀ a, low ≤ a → mem' a = mem a) : Stands mem' low' high' s p := by
  obtain ⟨hp, hend, hholds⟩ := h
  refine ⟨hlow.trans hp, hend.trans hhigh, fun i hi => ?_⟩
  rw [hkept _ (by omega)]
  exact hholds i hi

theorem le_slotSize (len : Nat) : len + 1 ≤ slotSize len ∧ slotSize len % 4 = 0 := by
  unfold slotSize
  omega

theorem Pushes.cons {top sp : Nat} {mem : Nat → UInt8} {ptrs : List Nat} {s : List UInt8}
    {rest : List (List UInt8)} {x : Except Fault ((Nat → UInt8) × Option (List Nat × Nat))}
    (hlow : top - pgsize ≤ sp) (hfew : ptrs.length < maxarg)
    (hfits : top - pgsize + slotSize s.length ≤ sp)
    (hrest : Pushes top (sp - slotSize s.length)
      (Memory.store mem (sp - slotSize s.length) (s ++ [0])) (ptrs ++ [sp - slotSize s.length])
      rest x) : Pushes top sp mem ptrs (s :: rest) x := by
  obtain ⟨hslot, -⟩ := le_slotSize s.length
  have hiff : SomeStrays (top - pgsize) sp ptrs.length ((s :: rest).map List.length) ↔
      SomeStrays (top - pgsize) (sp - slotSize s.length)
        (ptrs ++ [sp - slotSize s.length]).length (rest.map List.length) := by
    rw [List.length_append, List.length_singleton, List.map_cons, someStrays_cons _ _ _ hlow]
    refine ⟨?_, fun hrest => ⟨hfew, .inr ⟨hfits, hrest⟩⟩⟩
    rintro ⟨-, hstrays | ⟨-, hrest⟩⟩
    · unfold Strays at hstrays
      omega
    · exact hrest
  have hnew : Stands (Memory.store mem (sp - slotSize s.length) (s ++ [0]))
      (sp - slotSize s.length) sp s (sp - slotSize s.length) := by
    refine ⟨le_rfl, ?_, Memory.holds_store _ _ _⟩
    rw [List.length_append, List.length_singleton]
    omega
  cases hrest with
  | strays hstrays => exact .strays (hiff.mpr hstrays)
  | refused hnone mem' => exact .refused (mt hiff.mp hnone) mem'
  | pushed hnone hlow' hhigh haligned hroom hkept hstands =>
    rw [List.append_assoc, List.singleton_append]
    refine .pushed (mt hiff.mp hnone) hlow' (by omega) haligned ?_ ?_ (.cons ?_ ?_)
    · rw [List.length_append, List.length_singleton] at hroom
      rw [List.length_cons]
      omega
    · intro a ha
      rw [hkept a (by omega)]
      exact Memory.store_of_outside (.inr (hnew.2.1.trans ha))
    · exact hnew.mono hhigh le_rfl hkept
    · exact hstands.imp fun s p hp => hp.mono le_rfl (Nat.sub_le _ _) fun _ _ => rfl

theorem UserStack.pushStrings {dir : PageDir} {top : Nat} (h : UserStack dir top)
    (mem : Nat → UInt8) (argv : List (List UInt8)) (ptrs : List Nat) (sp : Nat)
    (hlow : top - pgsize ≤ sp) (hsp : sp ≤ top) (haligned : sp % 4 = 0)
    (hlens : ∀ s ∈ argv, s.length < 2147483648) (hroom : ptrs.length ≤ maxarg) :
    Pushes top sp mem ptrs argv (pushStrings dir argv ptrs mem sp) := by
  induction argv generalizing mem ptrs sp with
  | nil =>
    have hnone : ¬ SomeStrays (top - pgsize) sp ptrs.length [] := by
      rintro ⟨i, len, -, hlen, -⟩
      cases hlen
    have hpushed : Pushes top sp mem ptrs [] (.ok (mem, some (ptrs ++ [], sp))) :=
      .pushed hnone hlow le_rfl haligned hroom (fun _ _ => rfl) .nil
    rw [List.append_nil] at hpushed
    exact hpushed
  | cons s rest ih =>
    have hcons := someStrays_cons ptrs.length s.length (rest.map List.length) hlow
    unfold Xv6.pushStrings
    split
    · rename_i hmany
      exact .refused (fun hstrays => absurd (hcons.mp hstrays).1 (not_lt.mpr hmany)) mem
    rename_i hfew
    dsimp only
    by_cases hfits : top - pgsize + slotSize s.length ≤ sp
    · obtain ⟨hva, hcopy⟩ := h.push_fits mem haligned hsp hfits
      have hslot := le_slotSize s.length
      rw [hva, hcopy]
      refine .cons hlow (not_le.mp hfew) hfits (ih _ _ _ ?_ ?_ ?_ ?_ ?_)
      · omega
      · omega
      · omega
      · exact fun s' hs' => hlens s' (List.mem_cons_of_mem s hs')
      · rw [List.length_append, List.length_singleton]
        omega
    · obtain ⟨hfault, hbad⟩ :=
        h.push_lacks mem haligned hlow hsp (hlens s List.mem_cons_self) (not_le.mp hfits)
      by_cases hstrays : Strays sp s.length
      · rw [hfault hstrays]
        exact .strays (hcons.mpr ⟨not_le.mp hfew, .inl hstrays⟩)
      · obtain ⟨mem', hcopy⟩ := hbad hstrays
        rw [hcopy]
        refine .refused (fun hsome => ?_) mem'
        rcases (hcons.mp hsome).2 with hfirst | ⟨hroomy, -⟩
        · exact hstrays hfirst
        · exact hfits hroomy

/-- What the new program finds at `sp`: a return address, `argc` and `argv`, then the array that
`argv` points to, with a null pointer at its end. The strings stand above, up to `top`. -/
structure Delivered (mem : Nat → UInt8) (top sp : Nat) (argv : List (List UInt8))
    (ptrs : List Nat) : Prop where
  low : top - pgsize ≤ sp
  frame : Memory.Holds mem sp
    (([4294967295, argv.length, sp + 12] ++ ptrs ++ [0]).flatMap wordBytes)
  strings : List.Forall₂ (Stands mem (sp + (argv.length + 4) * 4) top) argv ptrs

inductive Delivers (top : Nat) (argv : List (List UInt8)) :
    Except Fault ((Nat → UInt8) × Option Nat) → Prop
  | strays (h : SomeStrays (top - pgsize) top 0 (argv.map List.length)) :
      Delivers top argv (.error .nullPointer)
  | refused (h : ¬ SomeStrays (top - pgsize) top 0 (argv.map List.length)) (mem : Nat → UInt8) :
      Delivers top argv (.ok (mem, none))
  | delivered (h : ¬ SomeStrays (top - pgsize) top 0 (argv.map List.length))
      {mem : Nat → UInt8} {sp : Nat} {ptrs : List Nat} (hall : Delivered mem top sp argv ptrs) :
      Delivers top argv (.ok (mem, some sp))

theorem UserStack.pushFrame {dir : PageDir} {top sp : Nat} (h : UserStack dir top)
    (mem : Nat → UInt8) {ptrs : List Nat} (hlow : top - pgsize ≤ sp) (hsp : sp ≤ top)
    (hroom : ptrs.length ≤ maxarg) :
    (∃ mem', pushFrame dir ptrs mem sp = .ok (mem', none)) ∨
    ∃ sp', sp' + (ptrs.length + 4) * 4 = sp ∧ top - pgsize ≤ sp' ∧
      pushFrame dir ptrs mem sp = .ok (Memory.store mem sp'
        (([4294967295, ptrs.length, sp' + 12] ++ ptrs ++ [0]).flatMap wordBytes), some sp') := by
  have htwo := h.low
  have hbelow := h.below
  obtain ⟨sp', hsp'⟩ : ∃ sp', sp' + (ptrs.length + 4) * 4 = sp := by
    refine ⟨sp - (ptrs.length + 4) * 4, Nat.sub_add_cancel ?_⟩
    simp only [pgsize, maxarg] at *
    omega
  have hlength : ((ustack ptrs sp).flatMap wordBytes).length = (ptrs.length + 4) * 4 := by
    rw [length_wordBytes, length_ustack]
    omega
  have hva : u32OfInt (sp - ((3 + ptrs.length + 1) * 4 : Nat)) = sp' := by
    simp only [kernbase] at hbelow
    rw [u32OfInt_eq (by omega) (by omega)]
    omega
  have hargv : u32OfInt (sp - (ptrs.length + 1) * 4) = sp' + 12 := by
    simp only [kernbase] at hbelow
    rw [u32OfInt_eq (by omega) (by omega)]
    omega
  unfold Xv6.pushFrame
  dsimp only
  rw [hva]
  by_cases hfits : top - pgsize ≤ sp'
  · refine .inr ⟨sp', hsp', hfits, ?_⟩
    have hne : (ustack ptrs sp).flatMap wordBytes ≠ [] := by
      rw [← List.length_pos_iff, hlength]
      omega
    rw [h.copyout_fits hfits (by omega) hne]
    unfold ustack
    rw [hargv]
    rfl
  · obtain ⟨mem', hcopy⟩ := h.copyout_guard mem ((ustack ptrs sp).flatMap wordBytes)
      (not_le.mp hfits) (by rw [hlength, hsp']; simp only [pgsize] at *; omega)
    rw [hcopy]
    exact .inl ⟨mem', rfl⟩

theorem pushAll_eq {dir : PageDir} {argv : List (List UInt8)} {mem mem' : Nat → UInt8}
    {top sp : Nat} {ptrs : List Nat}
    (h : pushStrings dir argv [] mem top = .ok (mem', some (ptrs, sp))) :
    pushAll dir argv mem top = pushFrame dir ptrs mem' sp := by
  simp only [pushAll, h, bind, Except.bind]

theorem UserStack.pushAll {dir : PageDir} {top : Nat} (h : UserStack dir top) (mem : Nat → UInt8)
    {argv : List (List UInt8)} (hlens : ∀ s ∈ argv, s.length < 2147483648) :
    Delivers top argv (pushAll dir argv mem top) := by
  have hword : top % 4 = 0 := by
    have haligned := h.aligned
    simp only [pgsize] at haligned
    omega
  have hpush := h.pushStrings mem argv [] top (Nat.sub_le _ _) le_rfl hword hlens (Nat.zero_le _)
  generalize hpushed : Xv6.pushStrings dir argv [] mem top = pushed at hpush
  cases hpush with
  | strays hstrays =>
    unfold Xv6.pushAll
    rw [hpushed]
    exact .strays hstrays
  | refused hnone mem' =>
    unfold Xv6.pushAll
    rw [hpushed]
    exact .refused hnone mem'
  | @pushed hnone mem' ptrs sp hlow hhigh haligned hroom hkept hstands =>
    have hargc := hstands.length_eq
    rw [List.length_nil, Nat.zero_add, hargc] at hroom
    rw [pushAll_eq hpushed, List.nil_append]
    rcases h.pushFrame mem' hlow hhigh hroom with ⟨mem'', hframe⟩ | ⟨sp', hsp', hlow', hframe⟩
    · rw [hframe]
      exact .refused hnone mem''
    · rw [hframe]
      have hdelivered : Delivered (Memory.store mem' sp'
          (([4294967295, ptrs.length, sp' + 12] ++ ptrs ++ [0]).flatMap wordBytes)) top sp' argv
          ptrs := by
        refine ⟨hlow', ?_, ?_⟩
        · rw [hargc]
          exact Memory.holds_store _ _ _
        · rw [hargc, hsp']
          refine hstands.imp fun s p hp => hp.mono le_rfl le_rfl fun a ha => ?_
          refine Memory.store_of_outside (.inr ?_)
          rw [length_wordBytes]
          simp only [List.length_append, List.length_cons, List.length_nil]
          omega
      exact .delivered hnone hdelivered

end Xv6

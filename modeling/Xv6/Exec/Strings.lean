import Xv6.Proc.Exec
import Xv6.Lib.Memory
import Xv6.Lib.Fallible

/-! `exec` with the bytes it copies. `mem` is the user memory of the new image, which starts as
the program segments have left it. Without the bytes this is `Kernel.exec` for the lengths of the
strings. -/
namespace Xv6

open Word Fallible

/-- The loop of `copyout`, once for each page that the bytes touch. -/
def copyoutData (dir : PageDir) (mem : Nat → UInt8) (va : Nat) (buf : List UInt8) :
    Nat → Except Fault ((Nat → UInt8) × Bool)
  | 0 => .ok (mem, true)
  | count + 1 =>
      let va0 := pgrounddown va
      if ¬ dir.HasEntry (va / pgsize) then .error .nullPointer
      else if dir.User (va / pgsize) then
        let n := min (pgsize - (va - va0)) buf.length
        copyoutData dir (Memory.store mem va (buf.take n)) (u32 (va0 + pgsize)) (buf.drop n) count
      else .ok (mem, false)

def copyoutBytes (dir : PageDir) (mem : Nat → UInt8) (va : Nat) (buf : List UInt8) :
    Except Fault ((Nat → UInt8) × Bool) :=
  copyoutData dir mem va buf ((va % pgsize + buf.length + (pgsize - 1)) / pgsize)

/-- Push the argument strings, each with its NUL. `ptrs` are the addresses of those before. -/
def pushStrings (dir : PageDir) :
    List (List UInt8) → List Nat → (Nat → UInt8) → Nat →
      Except Fault ((Nat → UInt8) × Option (List Nat × Nat))
  | [], ptrs, mem, sp => .ok (mem, some (ptrs, sp))
  | s :: rest, ptrs, mem, sp =>
      if maxarg ≤ ptrs.length then .ok (mem, none)
      else do
        let sp := u32OfInt (sp - (s.length + 1)) / 4 * 4
        let (mem, copied) ← copyoutBytes dir mem sp (s ++ [0])
        if copied then pushStrings dir rest (ptrs ++ [sp]) mem sp
        else .ok (mem, none)

def wordBytes (w : Nat) : List UInt8 :=
  [.ofNat w, .ofNat (w / 256), .ofNat (w / 65536), .ofNat (w / 16777216)]

def ustack (ptrs : List Nat) (sp : Nat) : List Nat :=
  [4294967295, ptrs.length, u32OfInt (sp - (ptrs.length + 1) * 4)] ++ ptrs ++ [0]

/-- Two more pages at the end of the image, the first of them out of reach for user code. The
answer is the end of the stack; `none` is `goto bad`. -/
def addStack (s : Space) (sz : Nat) : Except Fault (Space × Option Nat) := do
  let base := pgroundup sz
  let (s, top) ← allocuvm s base (u32 (base + 2 * pgsize))
  if top = 0 then .ok (s, none)
  else
    let s ← clearpteu s (u32OfInt (top - 2 * pgsize) / pgsize)
    .ok (s, some top)

def stackImage (file : ElfFile) (fresh : Space) : Except Fault (Space × Option Nat) := do
  match ← loadSegments file file.phdrs fresh 0 with
  | (s, none) => .ok (s, none)
  | (s, some sz) => addStack s sz

def pushFrame (dir : PageDir) (ptrs : List Nat) (mem : Nat → UInt8) (sp : Nat) :
    Except Fault ((Nat → UInt8) × Option Nat) := do
  let frame := (3 + ptrs.length + 1) * 4
  let (mem, copied) ← copyoutBytes dir mem (u32OfInt (sp - frame))
    ((ustack ptrs sp).flatMap wordBytes)
  .ok (mem, if copied then some (u32OfInt (sp - frame)) else none)

def pushAll (dir : PageDir) (argv : List (List UInt8)) (mem : Nat → UInt8) (top : Nat) :
    Except Fault ((Nat → UInt8) × Option Nat) := do
  match ← pushStrings dir argv [] mem top with
  | (mem, none) => .ok (mem, none)
  | (mem, some (ptrs, sp)) => pushFrame dir ptrs mem sp

def imageStrings (file : ElfFile) (argv : List (List UInt8)) (loaded : Nat → UInt8)
    (fresh : Space) : Except Fault (Space × (Nat → UInt8) × Option (Nat × Nat)) := do
  match ← stackImage file fresh with
  | (s, none) => .ok (s, loaded, none)
  | (s, some top) =>
      let (mem, sp) ← pushAll s.dir argv loaded top
      .ok (s, mem, sp.map fun sp => (top, sp))

namespace Kernel

def execStrings (k : Kernel) (cur : Slot) (file : Option ElfFile) (argv : List (List UInt8))
    (loaded : Nat → UInt8) : Except Fault (Kernel × Int × (Nat → UInt8)) :=
  match file, setupkvm k.free with
  | some file, some fresh => do
      match ← imageStrings file argv loaded fresh with
      | (s, mem, none) => (freevm s).map fun left => ({ k with free := left }, -1, mem)
      | (s, mem, some (sz, sp)) =>
          if 0 < (k.proc cur).tid then
            let mgr ← deref (k.proc cur).manager
            ((k.cleanupLwp mgr (some cur)).commitImage cur s file.entry sz sp).map
              fun r => (r.1, r.2, mem)
          else if (k.proc cur).tid = 0 then
            ((k.cleanupLwp cur none).commitImage cur s file.entry sz sp).map
              fun r => (r.1, r.2, mem)
          else (freevm s).map fun left => ({ k with free := left }, -1, mem)
  | _, _ => .ok (k, -1, loaded)

end Kernel

section Forget

variable (dir : PageDir)

theorem copyoutData_agree (mem : Nat → UInt8) (va : Nat) (buf : List UInt8) (count : Nat) :
    Agree (fun r copied => r.2 = copied) (copyoutData dir mem va buf count)
      (copyoutLoop dir (va / pgsize) count) := by
  induction count generalizing mem va buf with
  | zero => exact .ok rfl
  | succ count ih =>
    unfold copyoutData copyoutLoop
    dsimp only
    split
    · exact .error _
    split
    · rename_i huser
      have hnext : u32 (pgrounddown va + pgsize) / pgsize = va / pgsize + 1 := by
        have hbelow := huser.1
        unfold pgrounddown
        simp only [pgsize, kernpage] at *
        rw [u32_eq_self (by omega)]
        omega
      rw [← hnext]
      exact ih _ _ _
    · exact .ok rfl

theorem copyoutBytes_agree (mem : Nat → UInt8) (va : Nat) (buf : List UInt8) :
    Agree (fun r copied => r.2 = copied) (copyoutBytes dir mem va buf)
      (copyout dir va buf.length) :=
  copyoutData_agree dir mem va buf _

def SamePushed (argc : Nat) (r : (Nat → UInt8) × Option (List Nat × Nat)) (sp : Option Nat) :
    Prop :=
  sp = r.2.map Prod.snd ∧ ∀ ptrs sp, r.2 = some (ptrs, sp) → ptrs.length = argc

theorem pushStrings_agree (mem : Nat → UInt8) (argv : List (List UInt8)) (ptrs : List Nat)
    (sp : Nat) :
    Agree (SamePushed (ptrs.length + argv.length)) (pushStrings dir argv ptrs mem sp)
      (pushArgs dir (argv.map List.length) ptrs.length sp) := by
  induction argv generalizing ptrs mem sp with
  | nil =>
    refine .ok ⟨rfl, fun ptrs' sp' h => ?_⟩
    cases h
    rfl
  | cons s rest ih =>
    unfold pushStrings
    rw [List.map_cons, pushArgs]
    split
    · exact .ok ⟨rfl, nofun⟩
    · dsimp only
      generalize u32OfInt (sp - (s.length + 1)) / 4 * 4 = sp'
      have hcopy := copyoutBytes_agree dir mem sp' (s ++ [0])
      rw [List.length_append, List.length_singleton] at hcopy
      refine hcopy.bind ?_
      rintro ⟨mem', copied⟩ _ rfl
      cases copied with
      | false => exact .ok ⟨rfl, nofun⟩
      | true =>
        have hrest := ih mem' (ptrs ++ [sp']) sp'
        rw [List.length_append, List.length_singleton, Nat.add_assoc, Nat.add_comm 1] at hrest
        exact hrest

theorem length_wordBytes (words : List Nat) :
    (words.flatMap wordBytes).length = words.length * 4 := by
  induction words with
  | nil => rfl
  | cons w rest ih =>
    rw [List.flatMap_cons, List.length_append, ih, List.length_cons]
    simp only [wordBytes, List.length_cons, List.length_nil]
    omega

theorem length_ustack (ptrs : List Nat) (sp : Nat) :
    (ustack ptrs sp).length = 3 + ptrs.length + 1 := by
  simp only [ustack, List.length_append, List.length_cons, List.length_nil]

theorem imageStrings_agree (file : ElfFile) (argv : List (List UInt8)) (loaded : Nat → UInt8)
    (fresh : Space) :
    Agree (fun r image => image = (r.1, r.2.2)) (imageStrings file argv loaded fresh)
      (buildImage file (argv.map List.length) fresh) := by
  unfold imageStrings stackImage buildImage
  rw [bind_assoc]
  refine (agree_self _).bind ?_
  rintro ⟨s, sz⟩ _ rfl
  cases sz with
  | none => exact .ok rfl
  | some sz =>
    dsimp only
    unfold addStack
    rw [bind_assoc]
    refine (agree_self _).bind ?_
    rintro ⟨s, top⟩ _ rfl
    dsimp only
    split
    · exact .ok rfl
    · rw [bind_assoc]
      refine (agree_self _).bind ?_
      rintro s _ rfl
      change Agree _ (pushAll s.dir argv loaded top >>= _) _
      unfold pushAll
      rw [bind_assoc]
      refine (pushStrings_agree s.dir loaded argv [] top).bind ?_
      rintro ⟨mem, pushed⟩ sp ⟨hsp, hlength⟩
      cases pushed with
      | none =>
        cases hsp
        exact .ok rfl
      | some pushed =>
        obtain ⟨ptrs, sp'⟩ := pushed
        cases hsp
        have hptrs : (argv.map List.length).length = ptrs.length := by
          rw [hlength ptrs sp' rfl, List.length_nil, Nat.zero_add, List.length_map]
        dsimp only
        unfold pushFrame
        rw [bind_assoc, hptrs]
        have hcopy := copyoutBytes_agree s.dir mem
          (u32OfInt (sp' - ((3 + ptrs.length + 1) * 4 : Nat))) ((ustack ptrs sp').flatMap wordBytes)
        rw [length_wordBytes, length_ustack] at hcopy
        refine hcopy.bind ?_
        rintro ⟨mem', copied⟩ _ rfl
        cases copied with
        | false => exact .ok rfl
        | true => exact .ok rfl

/-- Without the bytes, `exec` for the lengths of the strings. -/
theorem execStrings_agree (k : Kernel) (cur : Slot) (file : Option ElfFile)
    (argv : List (List UInt8)) (loaded : Nat → UInt8) :
    Agree (fun r r' => r' = (r.1, r.2.1)) (k.execStrings cur file argv loaded)
      (k.exec cur file (argv.map List.length)) := by
  have hfail : ∀ (s : Space) (mem : Nat → UInt8),
      Agree (fun r r' => r' = (r.1, r.2.1))
        ((freevm s).map fun left => (({ k with free := left } : Kernel), (-1 : Int), mem))
        ((freevm s).map fun left => ({ k with free := left }, -1)) := by
    intro s mem
    refine (agree_self _).map ?_
    rintro left _ rfl
    rfl
  have hcommit : ∀ (k : Kernel) (s : Space) (entry sz sp : Nat) (mem : Nat → UInt8),
      Agree (fun r r' => r' = (r.1, r.2.1))
        ((k.commitImage cur s entry sz sp).map fun r => (r.1, r.2, mem))
        (k.commitImage cur s entry sz sp) := by
    intro k s entry sz sp mem
    cases k.commitImage cur s entry sz sp with
    | ok r => exact .ok rfl
    | error fault => exact .error fault
  unfold Kernel.execStrings Kernel.exec
  cases file with
  | none => exact .ok rfl
  | some file =>
    cases setupkvm k.free with
    | none => exact .ok rfl
    | some fresh =>
      refine (imageStrings_agree file argv loaded fresh).bind ?_
      rintro ⟨s, mem, image⟩ _ rfl
      cases image with
      | none => exact hfail s mem
      | some image =>
        dsimp only
        split
        · refine (agree_self _).bind ?_
          rintro mgr _ rfl
          exact hcommit _ _ _ _ _ _
        split
        · exact hcommit _ _ _ _ _ _
        · exact hfail s mem

end Forget

end Xv6

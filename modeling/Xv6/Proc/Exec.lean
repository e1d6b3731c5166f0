import Xv6.Proc.Thread

/-! `exec.c`. Of the file the kernel uses the program headers it reads and whether
each later read delivers all bytes; of the arguments, their lengths. A directory
under construction is private to the call until it is committed. -/
namespace Xv6

open Word

structure ProgHdr where
  type : Nat
  off : Nat
  vaddr : Nat
  filesz : Nat
  memsz : Nat
  deriving DecidableEq, Repr

/-- A file that passed the test of its ELF header. A program header is `none` when
`readi` comes up short; `readi off n` tells whether `n` bytes can be read at `off`. -/
structure ElfFile where
  entry : Nat
  phdrs : List (Option ProgHdr)
  readi : Nat → Nat → Bool

def loaduvm (dir : PageDir) (file : ElfFile) (addr offset sz i : Nat) :
    Nat → Except Fault Bool
  | 0 => .ok true
  | fuel + 1 =>
      if i < sz then
        if ¬ dir.HasEntry (u32 (addr + i) / pgsize) then .error .loaduvm
        else if file.readi (u32 (offset + i)) (min (sz - i) pgsize) then
          loaduvm dir file addr offset sz (i + pgsize) fuel
        else .ok false
      else .ok true

/-- One turn of the program header loop; `none` is `goto bad`, with the space as it
is by then. -/
def loadSegment (file : ElfFile) (space : Space) (sz : Nat) :
    Option ProgHdr → Except Fault (Space × Option Nat)
  | none => .ok (space, none)
  | some ph =>
      if ph.type ≠ 1 then .ok (space, some sz)
      else if ph.memsz < ph.filesz then .ok (space, none)
      else if u32 (ph.vaddr + ph.memsz) < ph.vaddr then .ok (space, none)
      else do
        let (s, result) ← allocuvm space sz (u32 (ph.vaddr + ph.memsz))
        if result = 0 then .ok (s, none)
        else if ph.vaddr % pgsize ≠ 0 then .ok (s, none)
        else if ← loaduvm s.dir file ph.vaddr ph.off ph.filesz 0 (ph.filesz / pgsize + 1) then
          .ok (s, some result)
        else .ok (s, none)

def loadSegments (file : ElfFile) :
    List (Option ProgHdr) → Space → Nat → Except Fault (Space × Option Nat)
  | [], space, sz => .ok (space, some sz)
  | ph :: rest, space, sz => do
      match ← loadSegment file space sz ph with
      | (s, some sz) => loadSegments file rest s sz
      | (s, none) => .ok (s, none)

def pushArgs (dir : PageDir) : List Nat → Nat → Nat → Except Fault (Option Nat)
  | [], _, sp => .ok (some sp)
  | len :: rest, argc, sp =>
      if maxarg ≤ argc then .ok none
      else do
        let sp := u32OfInt (sp - (len + 1)) / 4 * 4
        if ← copyout dir sp (len + 1) then pushArgs dir rest (argc + 1) sp
        else .ok none

/-- The new image: its size and stack pointer, or `none` for `goto bad`. -/
def buildImage (file : ElfFile) (argv : List Nat) (fresh : Space) :
    Except Fault (Space × Option (Nat × Nat)) := do
  match ← loadSegments file file.phdrs fresh 0 with
  | (s, none) => .ok (s, none)
  | (s, some sz) =>
      let base := pgroundup sz
      let (s, top) ← allocuvm s base (u32 (base + 2 * pgsize))
      if top = 0 then .ok (s, none)
      else
        let s ← clearpteu s (u32OfInt (top - 2 * pgsize) / pgsize)
        match ← pushArgs s.dir argv 0 top with
        | none => .ok (s, none)
        | some sp =>
            let frame := (3 + argv.length + 1) * 4
            let sp := u32OfInt (sp - frame)
            if ← copyout s.dir sp frame then .ok (s, some (top, sp)) else .ok (s, none)

namespace Kernel

/-- Commit to the new image. The old directory is freed unless the caller is an LWP. -/
def commitImage (k : Kernel) (cur : Slot) (s : Space) (entry sz sp : Nat) :
    Except Fault (Kernel × Int) := do
  let tid := (k.proc cur).tid
  let old := (k.proc cur).pgdir
  let new := k.nextdir
  let k := (k.addDir s.dir s.free).modify cur fun p =>
    { p with pgdir := some new, sz := sz, tf := { p.tf with eip := entry, esp := sp } }
  if tid = 0 then
    let some d := old | .error .freevm
    let left ← freevm (k.space d)
    .ok ({ k with free := left, freed := insert d k.freed }, 0)
  else .ok (k, 0)

def exec (k : Kernel) (cur : Slot) (file : Option ElfFile) (argv : List Nat) :
    Except Fault (Kernel × Int) :=
  match file, setupkvm k.free with
  | some file, some fresh => do
      match ← buildImage file argv fresh with
      | (s, none) => (freevm s).map fun left => ({ k with free := left }, -1)
      | (s, some (sz, sp)) =>
          if 0 < (k.proc cur).tid then
            let mgr ← deref (k.proc cur).manager
            (k.cleanupLwp mgr (some cur)).commitImage cur s file.entry sz sp
          else if (k.proc cur).tid = 0 then
            (k.cleanupLwp cur none).commitImage cur s file.entry sz sp
          else (freevm s).map fun left => ({ k with free := left }, -1)
  | _, _ => .ok (k, -1)

end Kernel

end Xv6

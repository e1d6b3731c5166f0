import Xv6.Lib.Word

/-! Constants of `param.h`, `mmu.h` and `memlayout.h`, and the ways the kernel
stops: its panics, and the accesses that C leaves undefined. `kernpage` is the
page number of `KERNBASE`; `setupkvm` takes `kvmFrames` frames, one for the
directory, 56 for the page tables of the direct map and 8 for the devices. -/
namespace Xv6

open Word

abbrev nproc : Nat := 64
abbrev ncpu : Nat := 8
abbrev nofile : Nat := 16
abbrev maxarg : Nat := 32
abbrev pgsize : Nat := 4096
abbrev nptentries : Nat := 1024
abbrev kernbase : Nat := 2147483648
abbrev kernpage : Nat := 524288
abbrev kvmFrames : Nat := 65

/-- `kernelPage` is `deallocuvm` reaching a page of the kernel: `panic("kfree")`
for the I/O space, the kernel image and the devices, a corrupted allocator for the
rest. `heapBounds`, `stackBounds` and `tableBounds` are indices outside `heap[NPROC + 1]`,
`stack[NPROC]`, and `quantum[3]` or `allotment[2]`; the others are the panics of that
name. -/
inductive Fault where
  | remap | copyuvmPte | copyuvmPage | kernelPage | clearpteu | freevm | loaduvm
  | switchuvm | initExiting | filedup | fileclose
  | nullPointer | heapBounds | stackBounds | tableBounds
  deriving DecidableEq, Repr

def deref (pointer : Option α) : Except Fault α :=
  match pointer with
  | some target => .ok target
  | none => .error .nullPointer

theorem deref_eq_ok {pointer : Option α} {target : α} (h : deref pointer = .ok target) :
    pointer = some target := by
  cases pointer with
  | none => cases h
  | some value => exact congrArg some (Except.ok.inj h)

theorem deref_eq_error {pointer : Option α} {fault : Fault} (h : deref pointer = .error fault) :
    fault = .nullPointer := by
  cases pointer with
  | none =>
    cases h
    rfl
  | some value => cases h

def pgroundup (sz : Nat) : Nat := u32 (sz + (pgsize - 1)) / pgsize * pgsize

def pgrounddown (a : Nat) : Nat := a / pgsize * pgsize

end Xv6

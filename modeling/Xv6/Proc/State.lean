import Xv6.Vm.PageDir
import Xv6.Proc.Heap

/-! The process table and what else `proc.c` keeps. A slot of the table stands for
a `struct proc *`, and `Option Slot` for one that may be null. Page directories
have identities of their own, handed out by `setupkvm` and never reused, so that
a directory that was freed stays recognisable; `freed` collects these. -/
namespace Xv6

open Word

abbrev Slot := Fin nproc
abbrev DirId := Nat
abbrev FileId := Nat
abbrev InodeId := Nat

inductive ProcState where
  | unused | embryo | sleeping | runnable | running | zombie
  deriving DecidableEq, Repr

/-- A sleep channel: the address of a process, or of another kernel object. -/
inductive Chan where
  | proc (slot : Slot)
  | other (address : Nat)
  deriving DecidableEq, Repr

/-- Where the kernel context of a process resumes: back in user code, in the loop
of `wait` or `thread_join`, or in `exit` between its two locked sections. -/
inductive Context where
  | user | wait | join (thread : Int) | exit
  deriving DecidableEq, Repr

structure TrapFrame where
  eip : Nat
  esp : Nat
  eax : Nat
  deriving DecidableEq, Repr

structure Proc where
  sz : Nat
  pgdir : Option DirId
  kstack : Bool
  state : ProcState
  pid : Int
  parent : Option Slot
  tf : TrapFrame
  context : Context
  chan : Option Chan
  killed : Bool
  ofile : Fin nofile → Option FileId
  cwd : Option InodeId
  level : Int
  ticks : Int
  runtime : Int
  passValue : Int
  stride : Int
  portion : Int
  tid : Int
  manager : Option Slot
  nexttid : Int
  stack : List Nat
  retval : Nat

def Proc.zero : Proc where
  sz := 0
  pgdir := none
  kstack := false
  state := .unused
  pid := 0
  parent := none
  tf := ⟨0, 0, 0⟩
  context := .user
  chan := none
  killed := false
  ofile := fun _ => none
  cwd := none
  level := 0
  ticks := 0
  runtime := 0
  passValue := 0
  stride := 0
  portion := 0
  tid := 0
  manager := none
  nexttid := 0
  stack := []
  retval := 0

def Proc.Live (p : Proc) : Prop := p.state ≠ .unused ∧ p.state ≠ .zombie

instance (p : Proc) : Decidable p.Live := inferInstanceAs (Decidable (_ ∧ _))

structure Cpu where
  proc : Option Slot
  schedTicks : Int
  count : Int

structure Kernel where
  proc : Slot → Proc
  heap : StrideHeap
  strideTickets : Int
  nextpid : Int
  initproc : Slot
  cpu : Fin ncpu → Cpu
  free : Nat
  dir : DirId → PageDir
  freed : Finset DirId
  nextdir : DirId
  fileRef : FileId → Nat
  inodeRef : InodeId → Nat

namespace Kernel

def modify (k : Kernel) (slot : Slot) (f : Proc → Proc) : Kernel :=
  { k with proc := Function.update k.proc slot (f (k.proc slot)) }

@[simp] theorem modify_proc_same (k : Kernel) (slot : Slot) (f : Proc → Proc) :
    (k.modify slot f).proc slot = f (k.proc slot) := by
  simp [modify]

@[simp] theorem modify_proc_ne (k : Kernel) {slot other : Slot} (f : Proc → Proc)
    (h : other ≠ slot) : (k.modify slot f).proc other = k.proc other := by
  simp [modify, h]

theorem modify_proc (k : Kernel) (slot other : Slot) (f : Proc → Proc) :
    (k.modify slot f).proc other = if other = slot then f (k.proc slot) else k.proc other := by
  by_cases h : other = slot
  · subst h; simp
  · simp [h]

def space (k : Kernel) (d : DirId) : Space := ⟨k.dir d, k.free⟩

def setSpace (k : Kernel) (d : DirId) (s : Space) : Kernel :=
  { k with dir := Function.update k.dir d s.dir, free := s.free }

def setFree (k : Kernel) (free : Nat) : Kernel := { k with free := free }

def addDir (k : Kernel) (pages : PageDir) (free : Nat) : Kernel :=
  { k with dir := Function.update k.dir k.nextdir pages, free := free, nextdir := k.nextdir + 1 }

def slots : List Slot := List.finRange nproc

def findSlot (k : Kernel) (test : Slot → Proc → Bool) : Option Slot :=
  slots.find? fun slot => test slot (k.proc slot)

theorem findSlot_some {k : Kernel} {test : Slot → Proc → Bool} {slot : Slot}
    (h : k.findSlot test = some slot) : test slot (k.proc slot) = true := by
  have := List.find?_some h
  simpa using this

theorem findSlot_none {k : Kernel} {test : Slot → Proc → Bool} (h : k.findSlot test = none)
    (slot : Slot) : test slot (k.proc slot) = false := by
  have := List.find?_eq_none.mp h slot (List.mem_finRange slot)
  simpa using this

/-- Give up the CPU: `sched` switches back to the scheduler of the CPU that runs
the process. -/
def sched (k : Kernel) (slot : Slot) : Kernel :=
  { k with cpu := fun c =>
      if (k.cpu c).proc = some slot then { k.cpu c with proc := none } else k.cpu c }

/-- The machine after `userinit`: one runnable process with one page. -/
def boot (free : Nat) : Kernel where
  proc := Function.update (fun _ => Proc.zero) 0
    { Proc.zero with
      sz := pgsize, pgdir := some 0, kstack := true, state := .runnable, pid := 1,
      tf := ⟨0, pgsize, 0⟩, cwd := some 1, passValue := -1, nexttid := 1 }
  heap := .empty
  strideTickets := 0
  nextpid := 2
  initproc := 0
  cpu := fun _ => ⟨none, 0, 0⟩
  free := free
  dir := Function.update (fun _ => .empty) 0 ⟨{0}, {0}, ∅⟩
  freed := ∅
  nextdir := 1
  fileRef := fun _ => 0
  inodeRef := fun inode => if inode = 1 then 1 else 0

end Kernel

end Xv6

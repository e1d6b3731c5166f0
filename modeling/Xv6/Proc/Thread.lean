import Xv6.Proc.Lifecycle

/-! The LWP calls of `proc.c`. An LWP shares the page directory of its manager and
owns two pages of it, a guard page below a stack page, ending at its own `sz`. -/
namespace Xv6.Kernel

open Word

structure Created where
  ret : Int
  thread : Option Int
  deriving DecidableEq, Repr

def linkLwp (k : Kernel) (mgr np : Slot) : Kernel :=
  let tid := (k.proc mgr).nexttid
  let k := k.modify np fun p => { p with manager := some mgr }
  let k := k.modify mgr fun p => { p with nexttid := i32 (tid + 1) }
  k.modify np fun p =>
    { p with tid := tid, tf := (k.proc mgr).tf, pgdir := (k.proc mgr).pgdir }

/-- The start address of the stack pages: from the free list, else the size of the
manager, which grows by two pages whether or not these can be mapped. -/
def takeStack (k : Kernel) (mgr : Slot) : Kernel × Nat :=
  match (k.proc mgr).stack with
  | [] =>
      (k.modify mgr fun p => { p with sz := u32 (p.sz + 2 * pgsize) }, (k.proc mgr).sz)
  | base :: rest => (k.modify mgr fun p => { p with stack := rest }, base)

/-- Map guard and stack page from `base` up. The answer is false when `allocuvm` or
`copyout` fails. -/
def mapStack (k : Kernel) (np : Slot) (base : Nat) : Except Fault (Kernel × Bool) := do
  let d ← deref (k.proc np).pgdir
  let (s, result) ← allocuvm (k.space d) (pgroundup base) (u32 (pgroundup base + 2 * pgsize))
  let k := (k.setSpace d s).modify np fun p => { p with sz := result }
  if result = 0 then .ok (k, false)
  else
    let s ← clearpteu s (u32OfInt (result - 2 * pgsize) / pgsize)
    let k := k.setSpace d s
    let copied ← copyout s.dir (u32OfInt (result - 2 * 4)) (2 * 4)
    .ok (k, copied)

def threadCreate (k : Kernel) (cur : Slot) (startRoutine : Nat) :
    Except Fault (Kernel × Created) :=
  match k.allocproc with
  | (k, none) => .ok (k, ⟨-1, none⟩)
  | (k, some np) => do
      let some mgr ← k.manager? cur | .ok (k.abandon np, ⟨-1, none⟩)
      let k := k.linkLwp mgr np
      let k ← k.dupFiles mgr np
      let tid := (k.proc np).tid
      let (k, base) := k.takeStack mgr
      match ← k.mapStack np base with
      | (k, false) => .ok (k.abandon np, ⟨-1, some tid⟩)
      | (k, true) =>
          .ok (k.modify np fun p =>
            { p with state := .runnable,
                     tf := { p.tf with esp := u32OfInt (p.sz - 2 * 4), eip := startRoutine } },
            ⟨0, some tid⟩)

def threadExit (k : Kernel) (cur : Slot) (retval : Nat) : Except Fault (Kernel × Answer) :=
  if cur = k.initproc then .error .initExiting
  else if (k.proc cur).tid = 0 then .ok (k, .returned 0)
  else do
    let k ← k.closeFiles cur
    let k := k.modify cur fun p => { p with retval := retval }
    let k := k.wakeup1 ((k.proc cur).manager.map .proc)
    .ok ((k.modify cur fun p => { p with state := .zombie }).sched cur, .gone)

/-- What one turn of the loop of `thread_join` answers: the value stored in
`*retval`, or -1, or a sleep. -/
inductive Joined where
  | delivered (retval : Nat)
  | failed
  | slept
  deriving DecidableEq, Repr

def threadJoin (k : Kernel) (cur : Slot) (thread : Int) : Except Fault (Kernel × Joined) :=
  if (k.proc cur).tid ≠ 0 then .ok (k, .failed)
  else
    match k.findSlot fun _ p =>
        p.manager = some cur ∧ p.tid = thread ∧ p.state = .zombie with
    | some p => do
        let (k', pushed) ← k.reap cur p
        let k' := k'.modify cur fun q => { q with context := .user }
        .ok (k', if pushed then .delivered (k.proc p).retval else .failed)
    | none =>
        if (k.findSlot fun _ p => p.manager = some cur ∧ p.tid = thread) = none ∨
            (k.proc cur).killed then
          .ok (k.modify cur fun q => { q with context := .user }, .failed)
        else
          .ok ((k.modify cur fun q => { q with context := .join thread }).sleep cur (.proc cur),
            .slept)

/-- Every LWP of `mgr` but `lwp` that is not a zombie is marked killed and woken. -/
def cleanupLwp (k : Kernel) (mgr : Slot) (lwp : Option Slot) : Kernel :=
  { k with proc := fun slot =>
      if lwp ≠ some slot ∧ (k.proc slot).manager = some mgr ∧ (k.proc slot).state ≠ .zombie then
        { k.proc slot with
          killed := true
          state := if (k.proc slot).state = .sleeping then .runnable else (k.proc slot).state }
      else k.proc slot }

end Xv6.Kernel

import Xv6.Proc.Table

/-! `fork`, `exit`, `wait` and `growproc` of `proc.c`. -/
namespace Xv6.Kernel

open Word

/-- What `wait` and `exit` answer, and how a blocking call ends in a sleep. -/
inductive Answer where
  | returned (value : Int)
  | slept
  | gone
  deriving DecidableEq, Repr

/-- The process whose `sz` counts for the caller: `none` for a negative `tid`. -/
def manager? (k : Kernel) (cur : Slot) : Except Fault (Option Slot) :=
  if 0 < (k.proc cur).tid then (deref (k.proc cur).manager).map some
  else if (k.proc cur).tid = 0 then .ok (some cur)
  else .ok none

def resize (s : Space) (sz : Nat) (n : Int) : Except Fault (Space × Nat) :=
  if 0 < n then allocuvm s sz (u32OfInt (sz + n))
  else if n < 0 then deallocuvm s sz (u32OfInt (sz + n))
  else .ok (s, sz)

def growproc (k : Kernel) (cur : Slot) (n : Int) : Except Fault (Kernel × Int) := do
  let some mgr ← k.manager? cur | .ok (k, -1)
  let d ← deref (k.proc cur).pgdir
  let (s, result) ← resize (k.space d) (k.proc mgr).sz n
  if n ≠ 0 ∧ result = 0 then .ok (k.setSpace d s, -1)
  else .ok ((k.setSpace d s).modify mgr fun p => { p with sz := result }, 0)

def fork (k : Kernel) (cur : Slot) : Except Fault (Kernel × Int) :=
  match k.allocproc with
  | (k, none) => .ok (k, -1)
  | (k, some np) => do
      let some mgr ← k.manager? cur | .ok (k.abandon np, -1)
      let d ← deref (k.proc cur).pgdir
      let sz := (k.proc mgr).sz
      match ← copyuvm (k.dir d) k.free sz with
      | (none, left) =>
          let k := (k.setFree left).modify np fun p => { p with pgdir := none }
          .ok (k.abandon np, -1)
      | (some pages, left) =>
          let tf := (k.proc cur).tf
          let k := (k.addDir pages left).modify np fun p =>
            { p with pgdir := some k.nextdir, sz := sz, parent := some cur,
                     tf := { tf with eax := 0 } }
          let k ← k.dupFiles cur np
          .ok (k.modify np fun p => { p with state := .runnable }, (k.proc np).pid)

/-- The fields that `exit` and `thread_join` clear in an LWP they reap. -/
def reapFields (p : Proc) : Proc :=
  { p with
    kstack := false, pid := 0, parent := none, killed := false, state := .unused,
    level := 0, ticks := 0, runtime := 0, passValue := -1, stride := 0, portion := 0,
    tid := 0, manager := none, nexttid := 1, stack := [] }

/-- Reap a zombie LWP: clear its slot, unmap its two pages and push their address on
the free list of `mgr`. The second component is false when `deallocuvm` returned 0,
which leaves the list and `nexttid` alone. -/
def reap (k : Kernel) (mgr p : Slot) : Except Fault (Kernel × Bool) := do
  let k := (k.setFree (k.free + 1)).modify p reapFields
  let d ← deref (k.proc p).pgdir
  let sz := (k.proc p).sz
  let (s, result) ← deallocuvm (k.space d) sz (u32OfInt (sz - 2 * pgsize))
  let k := k.setSpace d s
  if result = 0 then .ok (k, false)
  else if nproc ≤ (k.proc mgr).stack.length then .error .stackBounds
  else .ok (k.modify mgr fun q =>
    { q with stack := result :: q.stack, nexttid := i32 (q.nexttid - 1) }, true)

def sweepOne (k : Kernel) (mgr : Slot) (lwp : Option Slot) (p : Slot) :
    Except Fault (Kernel × Bool) :=
  if (k.proc p).manager ≠ some mgr ∨ lwp = some p then .ok (k, true)
  else if (k.proc p).state ≠ .zombie then
    .ok (k.modify p fun q =>
      { q with killed := true, state := if q.state = .sleeping then .runnable else q.state }, true)
  else k.reap mgr p

def sweep (mgr : Slot) (lwp : Option Slot) : List Slot → Kernel → Except Fault (Kernel × Bool)
  | [], k => .ok (k, true)
  | p :: rest, k => do
      match ← k.sweepOne mgr lwp p with
      | (k, true) => sweep mgr lwp rest k
      | (k, false) => .ok (k, false)

/-- `exit` of a process under stride scheduling pops the heap and returns its portion. -/
def returnShare (k : Kernel) (cur : Slot) : Except Fault Kernel :=
  if 0 < (k.proc cur).pid ∧ (k.proc cur).passValue ≠ -1 then
    k.heap.pop.map fun popped =>
      { k with
        heap := popped.2
        strideTickets := i32 (k.strideTickets - (k.proc cur).portion) }
  else .ok k

/-- `exit` as far as the release of `ptable.lock` after the sweep. False is an early
`return`, after which the caller goes on running. -/
def exitBegin (k : Kernel) (cur : Slot) : Except Fault (Kernel × Bool) := do
  if cur = k.initproc then .error .initExiting
  else
    let k ← k.returnShare cur
    if 0 < (k.proc cur).tid then
      let mgr ← deref (k.proc cur).manager
      sweep mgr (some cur) slots k
    else if (k.proc cur).tid = 0 then sweep cur none slots k
    else .ok (k, false)

def reparent (old new : Slot) (p : Proc) : Proc :=
  if p.parent = some old then { p with parent := some new } else p

/-- Abandoned children go to `init`, which is woken for each zombie among them. -/
def passChildren (k : Kernel) (cur : Slot) : Kernel :=
  let passed := { k with proc := fun slot => reparent cur k.initproc (k.proc slot) }
  if slots.any fun slot => (k.proc slot).parent = some cur ∧ (k.proc slot).state = .zombie then
    passed.wakeup1 (some (.proc k.initproc))
  else passed

/-- Wake the parent, or kill and wake the manager. A negative `tid` has returned before
it gets here. -/
def notify (k : Kernel) (cur : Slot) : Except Fault Kernel :=
  if (k.proc cur).tid = 0 then .ok (k.wakeup1 ((k.proc cur).parent.map .proc))
  else (deref (k.proc cur).manager).map fun mgr =>
    (k.modify mgr fun p => { p with killed := true }).wakeup1 (some (.proc mgr))

/-- `exit` after the sweep: close the files and become a zombie. -/
def exitEnd (k : Kernel) (cur : Slot) : Except Fault Kernel := do
  let k ← k.closeFiles cur
  let k ← k.notify cur
  .ok (((k.passChildren cur).modify cur fun p => { p with state := .zombie }).sched cur)

def exit (k : Kernel) (cur : Slot) : Except Fault (Kernel × Answer) := do
  match ← k.exitBegin cur with
  | (k, true) => (k.exitEnd cur).map fun k => (k, .gone)
  | (k, false) => .ok (k, .returned 0)

def waitFields (p : Proc) : Proc :=
  { p with kstack := false, pid := 0, parent := none, killed := false, state := .unused }

def wait (k : Kernel) (cur : Slot) : Except Fault (Kernel × Answer) :=
  match k.findSlot fun _ p => p.parent = some cur ∧ p.state = .zombie with
  | some p => do
      let pid := (k.proc p).pid
      let some d := (k.proc p).pgdir | .error .freevm
      let left ← freevm (k.space d)
      let k := { k with free := left + 1, freed := insert d k.freed }
      .ok ((k.modify p waitFields).modify cur fun q => { q with context := .user },
        .returned pid)
  | none =>
      if (k.findSlot fun _ p => p.parent = some cur) = none ∨ (k.proc cur).killed then
        .ok (k.modify cur fun q => { q with context := .user }, .returned (-1))
      else
        .ok ((k.modify cur fun q => { q with context := .wait }).sleep cur (.proc cur), .slept)

end Xv6.Kernel

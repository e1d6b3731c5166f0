import Xv6.Proc.Exec

/-! The scheduler and `set_cpu_share`. One visit is one turn of the loop over the
process table in `scheduler`, up to the switch to the chosen process. -/
namespace Xv6.Kernel

open Word

/-- How a visit ended: not runnable, rejected, or dispatched through the escape
after 1000 visits, by stride or by MLFQ. -/
inductive Visit where
  | skipped | rejected | escape | stride | mlfq
  deriving DecidableEq, Repr

/-- The manager as the scheduler computes it: a non-positive `tid` is its own. -/
def schedManager (k : Kernel) (p : Slot) : Except Fault Slot :=
  if 0 < (k.proc p).tid then deref (k.proc p).manager else .ok p

def setCpu (k : Kernel) (c : Fin ncpu) (f : Cpu → Cpu) : Kernel :=
  { k with cpu := Function.update k.cpu c (f (k.cpu c)) }

def execution (k : Kernel) (c : Fin ncpu) (p : Slot) (how : Visit) :
    Except Fault (Kernel × Visit) :=
  if (k.proc p).kstack = false ∨ (k.proc p).pgdir = none then .error .switchuvm
  else
    .ok ((k.modify p fun q => { q with state := .running }).setCpu c
      fun cpu => { cpu with proc := some p }, how)

/-- Pop the minimum and push the advanced pass value of `mgr`. -/
def advancePass (k : Kernel) (mgr : Slot) : Except Fault Kernel := do
  let (_, heap) ← k.heap.pop
  let pass := i32 ((k.proc mgr).passValue + (k.proc mgr).stride)
  let heap ← heap.push pass
  .ok { k.modify mgr fun q => { q with passValue := pass } with heap := heap }

def higherLevel (k : Kernel) (p : Slot) : Bool :=
  slots.any fun q => (k.proc q).state = .runnable ∧ (k.proc q).passValue = -1 ∧
    (k.proc q).level < (k.proc p).level

def nextCount (count : Int) : Int := if 100 < count + 1 then 1 else count + 1

def visit (k : Kernel) (c : Fin ncpu) (p : Slot) : Except Fault (Kernel × Visit) :=
  if (k.proc p).state ≠ .runnable then .ok (k, .skipped)
  else if 1000 < (k.cpu c).schedTicks + 1 then
    (k.setCpu c fun cpu => { cpu with schedTicks := 1 }).execution c p .escape
  else do
    let k := k.setCpu c fun cpu => { cpu with schedTicks := cpu.schedTicks + 1 }
    let count := nextCount (k.cpu c).count
    let reject := k.setCpu c fun cpu => { cpu with count := count - 1 }
    let k := k.setCpu c fun cpu => { cpu with count := count }
    if count ≤ k.strideTickets then
      let mgr ← k.schedManager p
      if 0 < k.heap.count ∧ (k.proc mgr).passValue = k.heap.cells 1 then
        let k ← k.advancePass mgr
        k.execution c p .stride
      else .ok (reject, .rejected)
    else if (k.proc p).passValue ≠ -1 then .ok (reject, .rejected)
    else if 0 < (k.proc p).level ∧ k.higherLevel p then .ok (reject, .rejected)
    else k.execution c p .mlfq

def enterHeap (k : Kernel) : Except Fault StrideHeap :=
  k.heap.push (if k.heap.count = 0 then 0 else k.heap.cells 1)

def setCpuShare (k : Kernel) (cur : Slot) (percent : Int) : Except Fault (Kernel × Int) :=
  if percent ≤ 0 then .ok (k, -1)
  else if i32 (percent + k.strideTickets) ≤ 80 then do
    let tickets := i32 (k.strideTickets + percent)
    let heap ← k.enterHeap
    .ok ({ k.modify cur fun p =>
        { p with passValue := heap.cells 1, stride := 1000 / percent, portion := percent } with
      heap := heap, strideTickets := tickets }, 0)
  else .ok (k, -1)

end Xv6.Kernel

import Xv6.Proc.Scheduler
import Xv6.Lib.Transition

/-! The kernel as a machine. An action is one visit of a scheduler, one system call
of a running process up to the point where it returns or sleeps, or the resumption
of such a call. `exit` can be taken whole, or as its two locked sections with other
actions between them. A call that was under way when its process was marked killed
still completes, so no action tests `killed` beyond what its function does.

Every other action is one step. In the source `set_cpu_share`, the pop of the heap at the top
of `exit`, and `thread_create` and `fork` between `allocproc` and their last lines take no
lock and can be interrupted, so what is proved here is about runs in which nothing else
happens inside them. `Cond_signal` sets a process RUNNABLE without `ptable.lock` as well. -/
namespace Xv6

open Transition

/-- `charge` stands for the bookkeeping of `trap`, `sys_yield` and `priority_boost`:
it may set level, ticks and runtime of a slot to anything. `sleepOn` and `wakeup`
stand for the sleeps and wakeups of the other subsystems. -/
inductive Act where
  | visit (c : Fin ncpu) (p : Slot)
  | yield (p : Slot)
  | sleepOn (p : Slot) (chan : Chan)
  | wakeup (chan : Chan)
  | charge (p : Slot) (level ticks runtime : Int)
  | kill (p : Slot) (pid : Int)
  | fork (p : Slot)
  | exec (p : Slot) (file : Option ElfFile) (argv : List Nat)
  | sbrk (p : Slot) (n : Int)
  | wait (p : Slot)
  | resumeWait (p : Slot)
  | threadCreate (p : Slot) (startRoutine : Nat)
  | threadExit (p : Slot) (retval : Nat)
  | threadJoin (p : Slot) (thread : Int)
  | resumeJoin (p : Slot)
  | exit (p : Slot)
  | exitBegin (p : Slot)
  | exitEnd (p : Slot)
  | setCpuShare (p : Slot) (percent : Int)

inductive Out where
  | done
  | ret (value : Int)
  | visited (how : Kernel.Visit)
  | answer (a : Kernel.Answer)
  | created (c : Kernel.Created)
  | joined (j : Kernel.Joined)
  deriving DecidableEq

def Out.Uneventful : Out → Prop
  | .joined (.delivered _) | .visited .stride | .answer .gone => False
  | .created c => c.ret = -1
  | _ => True

namespace Kernel

def At (k : Kernel) (p : Slot) (context : Context) : Prop :=
  (k.proc p).state = .running ∧ (k.proc p).context = context

instance (k : Kernel) (p : Slot) (context : Context) : Decidable (k.At p context) :=
  inferInstanceAs (Decidable (_ ∧ _))

def joining (k : Kernel) (p : Slot) : Option Int :=
  match (k.proc p).context with
  | .join thread => some thread
  | _ => none

def Enabled (k : Kernel) : Act → Prop
  | .visit c _ => (k.cpu c).proc = none
  | .yield p => (k.proc p).state = .running
  | .sleepOn p _ => k.At p .user ∨ k.At p .exit
  | .wakeup _ | .charge .. => True
  | .kill p _ | .fork p | .exec p _ _ | .sbrk p _ | .wait p | .threadCreate p _
  | .threadExit p _ | .threadJoin p _ | .exit p | .exitBegin p | .setCpuShare p _ =>
      k.At p .user
  | .resumeWait p => k.At p .wait
  | .resumeJoin p => (k.proc p).state = .running ∧ (k.joining p).isSome
  | .exitEnd p => k.At p .exit

instance (k : Kernel) : (a : Act) → Decidable (k.Enabled a)
  | .visit .. | .yield _ => inferInstanceAs (Decidable (_ = _))
  | .sleepOn .. => inferInstanceAs (Decidable (_ ∨ _))
  | .wakeup _ | .charge .. => inferInstanceAs (Decidable True)
  | .kill .. | .fork _ | .exec .. | .sbrk .. | .wait _ | .threadCreate .. | .threadExit ..
  | .threadJoin .. | .exit _ | .exitBegin _ | .setCpuShare .. | .resumeWait _ | .exitEnd _ =>
      inferInstanceAs (Decidable (At _ _ _))
  | .resumeJoin _ => inferInstanceAs (Decidable (_ ∧ _))

/-- `sleep` has returned: the channel is cleared before the loop goes on. -/
def awake (k : Kernel) (p : Slot) : Kernel := k.modify p fun q => { q with chan := none }

def charge (k : Kernel) (p : Slot) (level ticks runtime : Int) : Kernel :=
  k.modify p fun q => { q with level := level, ticks := ticks, runtime := runtime }

def perform (k : Kernel) : Act → Except Fault (Kernel × Out)
  | .visit c p => (k.visit c p).map fun r => (r.1, .visited r.2)
  | .yield p => .ok (k.yield p, .done)
  | .sleepOn p chan => .ok (k.sleep p chan, .done)
  | .wakeup chan => .ok (k.wakeup1 (some chan), .done)
  | .charge p level ticks runtime => .ok (k.charge p level ticks runtime, .done)
  | .kill _ pid => .ok ((k.kill pid).1, .ret (k.kill pid).2)
  | .fork p => (k.fork p).map fun r => (r.1, .ret r.2)
  | .exec p file argv => (k.exec p file argv).map fun r => (r.1, .ret r.2)
  | .sbrk p n => (k.growproc p n).map fun r => (r.1, .ret r.2)
  | .wait p => (k.wait p).map fun r => (r.1, .answer r.2)
  | .resumeWait p => ((k.awake p).wait p).map fun r => (r.1, .answer r.2)
  | .threadCreate p start => (k.threadCreate p start).map fun r => (r.1, .created r.2)
  | .threadExit p retval => (k.threadExit p retval).map fun r => (r.1, .answer r.2)
  | .threadJoin p thread => (k.threadJoin p thread).map fun r => (r.1, .joined r.2)
  | .resumeJoin p =>
      ((k.awake p).threadJoin p ((k.joining p).getD 0)).map fun r => (r.1, .joined r.2)
  | .exit p => (k.exit p).map fun r => (r.1, .answer r.2)
  | .exitBegin p => (k.exitBegin p).map fun r =>
      if r.2 then (r.1.modify p fun q => { q with context := .exit }, .done)
      else (r.1, .answer (.returned 0))
  | .exitEnd p => (k.exitEnd p).map fun k => (k, .answer .gone)
  | .setCpuShare p percent => (k.setCpuShare p percent).map fun r => (r.1, .ret r.2)

end Kernel

end Xv6

import Xv6.Proc.State
import Xv6.Lib.Fallible
import Xv6.Lib.Transition

/-! The clock: what a timer interrupt (`trap.c`), `sys_yield` and `priority_boost` do to the
counters of a process. A timer interrupt may give up the CPU in its middle, and charges the
process after that. -/
namespace Xv6

open Word Fallible Transition

def allotment : List Int := [20, 40]

def quantum : List Int := [5, 10, 20]

def tableEntry (table : List Int) (i : Int) : Except Fault Int :=
  if i < 0 then .error .tableBounds
  else
    match table[i.toNat]? with
    | some x => .ok x
    | none => .error .tableBounds

namespace Proc

def charge (p : Proc) : Proc :=
  { p with ticks := i32 (p.ticks + 1), runtime := i32 (p.runtime + 1) }

def usedUp (p : Proc) : Except Fault Bool :=
  if p.level < 2 then (tableEntry allotment p.level).map fun a => a ≤ p.runtime else .ok false

def clearTicks (p : Proc) : Proc := { p with ticks := 0 }

def demote (p : Proc) : Proc := { p with level := i32 (p.level + 1), runtime := 0 }

/-- A timer interrupt of a process that is no LWP, up to the `yield()`; is it called? -/
def timer (p : Proc) : Except Fault (Proc × Bool) :=
  if p.passValue ≠ -1 then
    if 5 ≤ p.ticks then .ok ({ p with ticks := 0, runtime := 0 }, true) else .ok (p, false)
  else do
    let q ← tableEntry quantum p.level
    if q ≤ p.ticks then
      let p := p.clearTicks
      if ← p.usedUp then return (p.demote, true) else return (p, true)
    else return (p, false)

def sysYield (p : Proc) : Except Fault Proc := do
  let p := p.charge
  if ← p.usedUp then return p.demote.clearTicks else return p

def boost (p : Proc) : Proc := { p with level := 0, ticks := 0, runtime := 0 }

end Proc

/-- A process without LWPs, and whether it is inside the `yield()` of a timer interrupt, which
has yet to charge it. -/
structure Timed where
  proc : Proc
  inTrap : Bool

namespace Timed

/-- `select` is a choice of the scheduler, which may move the pass value. -/
inductive Event where
  | timer
  | resume
  | sysYield
  | boost
  | select (pass : Int)
  deriving DecidableEq

structure Reply where
  yielded : Bool
  demoted : Bool
  deriving DecidableEq

def step : Machine Timed Event Reply Fault := fun s event =>
  match event with
  | .timer => do
      let (p, yields) ← s.proc.timer
      if yields then return (⟨p, true⟩, ⟨true, s.proc.level < p.level⟩)
      else return (⟨p.charge, false⟩, ⟨false, false⟩)
  | .resume => .ok (⟨s.proc.charge, false⟩, ⟨false, false⟩)
  | .sysYield => do
      let p ← s.proc.sysYield
      return (⟨p, false⟩, ⟨true, s.proc.level < p.level⟩)
  | .boost => .ok (⟨s.proc.boost, s.inTrap⟩, ⟨false, false⟩)
  | .select pass => .ok (⟨{ s.proc with passValue := pass }, s.inTrap⟩, ⟨false, false⟩)

/-- In the `yield()` of a timer interrupt the process does not run, and a choice of the scheduler
does not change the mode. A system call runs with interrupts on: here `sys_yield` is taken without
a timer interrupt inside it. -/
def Allowed (s : Timed) : Event → Prop
  | .timer | .sysYield => s.inTrap = false
  | .resume => s.inTrap = true
  | .boost => True
  | .select pass => pass = -1 ↔ s.proc.passValue = -1

instance (s : Timed) : (event : Event) → Decidable (s.Allowed event)
  | .timer | .sysYield => inferInstanceAs (Decidable (s.inTrap = false))
  | .resume => inferInstanceAs (Decidable (s.inTrap = true))
  | .boost => inferInstanceAs (Decidable True)
  | .select pass => inferInstanceAs (Decidable (pass = -1 ↔ s.proc.passValue = -1))

end Timed

def Proc.Fresh (p : Proc) : Prop :=
  p.level = 0 ∧ p.ticks = 0 ∧ p.runtime = 0 ∧ p.passValue = -1

end Xv6

import Xv6.Lib.Fallible
import Xv6.Lib.Ring
import Xv6.Lib.Transition
import Xv6.Lib.Weights

/-! One pipe and the threads that use it. A call holds `p->lock` from the moment it enters or
was woken until it sleeps or returns, and such a section is one step; between sections
anything may happen. The last `fileclose` of an end and its `pipeclose` are two steps. -/
namespace Xv6.Pipes

open Fallible Ring Transition

def pipesize : Nat := 512

def uintMod : Nat := 4294967296

structure Pipe extends Buffer UInt8 where
  readopen : Bool
  writeopen : Bool

inductive End where
  | read | write
  deriving DecidableEq

def Pipe.isOpen (p : Pipe) : End → Bool
  | .read => p.readopen
  | .write => p.writeopen

/-- Where a thread is: in no call on the pipe, in the `sleep` of `pipewrite` before byte `i`
of `n` or of `piperead`, or in `fileclose` before the `pipeclose` of an end. A sleeper that
was woken has still to take the lock. -/
inductive Pc where
  | user
  | writing (i : Nat) (n : Int) (asleep : Bool)
  | reading (n : Int) (asleep : Bool)
  | closing (e : End)
  deriving DecidableEq

def Pc.woken : Pc → Bool
  | .writing _ _ asleep | .reading _ asleep => !asleep
  | .user | .closing _ => false

def Pc.isClosing : Pc → Bool
  | .closing _ => true
  | .user | .writing .. | .reading .. => false

structure Thread where
  pc : Pc
  killed : Bool
  /-- The descriptors of the thread for each end. -/
  fds : End → Nat

/-- The pipe, its two open files with their reference counts, and the threads. -/
structure State (T : Type) where
  pipe : Pipe
  freed : Bool
  ref : End → Nat
  thread : T → Thread

inductive Fault where
  | freed | filedup | fileclose
  deriving DecidableEq

/-- `addr` is what the buffer of the caller holds while the section runs. -/
inductive Act (T : Type) where
  | pipewrite (t : T) (n : Int) (addr : Nat → UInt8)
  | piperead (t : T) (n : Int)
  | resume (t : T) (addr : Nat → UInt8)
  | kill (t : T)
  | filedup (t u : T) (e : End)
  | fileclose (t : T) (e : End)
  | pipeclose (t : T)

/-- What a section returns, if it ends its call, and the bytes it stored or delivered. -/
structure Out where
  ret : Option Int
  stored : List UInt8
  delivered : List UInt8
  deriving DecidableEq

def Out.silent : Out := ⟨none, [], []⟩

def Pipe.Full (p : Pipe) : Prop := p.toBuffer.Full pipesize uintMod

instance (p : Pipe) : Decidable p.Full :=
  inferInstanceAs (Decidable (p.toBuffer.Full pipesize uintMod))

def Pipe.put (p : Pipe) (x : UInt8) : Pipe :=
  { p with toBuffer := p.toBuffer.put pipesize uintMod x }

def Pipe.drop (p : Pipe) : Pipe := { p with toBuffer := p.toBuffer.drop uintMod }

def Pipe.Holds (p : Pipe) (l : List UInt8) : Prop := p.toBuffer.Holds pipesize uintMod l

/-- The loop of `pipewrite` with `left` bytes to go, from byte `i`: the pipe, the bytes stored,
and the byte before which the pipe was full. -/
def writeLoop (addr : Nat → UInt8) : Nat → Nat → Pipe → Pipe × List UInt8 × Option Nat
  | 0, _, p => (p, [], none)
  | left + 1, i, p =>
      if p.Full then (p, [], some i)
      else
        let r := writeLoop addr left (i + 1) (p.put (addr i))
        (r.1, addr i :: r.2.1, r.2.2)

def readLoop : Nat → Pipe → Pipe × List UInt8
  | 0, p => (p, [])
  | left + 1, p =>
      if p.nread = p.nwrite then (p, [])
      else
        let r := readLoop left p.drop
        (r.1, p.front pipesize :: r.2)

def Pc.wakeReader : Pc → Pc
  | .reading n _ => .reading n false
  | pc => pc

def Pc.wakeWriter : Pc → Pc
  | .writing i n _ => .writing i n false
  | pc => pc

variable {T : Type}

/-- A section that touches the pipe: a fault if its page was given back. -/
def State.onPipe (s : State T) (r : State T × Out) : Except Fault (State T × Out) :=
  if s.freed then .error .freed else .ok r

theorem onPipe_ok {s : State T} {r r' : State T × Out} (h : s.onPipe r = .ok r') : r' = r := by
  unfold State.onPipe at h
  split at h
  · cases h
  · exact (Except.ok.inj h).symm

def Passes (l : List UInt8) (r : State T × Out) : Prop :=
  ∃ l', r.1.pipe.Holds l' ∧ l ++ r.2.stored = r.2.delivered ++ l'

theorem passes_same {s' : State T} {out : Out} {l : List UInt8} (h : s'.pipe.Holds l)
    (hstored : out.stored = [])
    (hdelivered : out.delivered = []) :
    Passes l (s', out) := by
  refine ⟨l, h, ?_⟩
  change l ++ out.stored = out.delivered ++ l
  rw [hstored, hdelivered, List.append_nil, List.nil_append]

section

variable [DecidableEq T]

namespace State

def modify (s : State T) (t : T) (f : Thread → Thread) : State T :=
  { s with thread := Function.update s.thread t (f (s.thread t)) }

def setPc (s : State T) (t : T) (pc : Pc) : State T := s.modify t fun th => { th with pc := pc }

def wakeReaders (s : State T) : State T :=
  { s with thread := fun u => { s.thread u with pc := (s.thread u).pc.wakeReader } }

def wakeWriters (s : State T) : State T :=
  { s with thread := fun u => { s.thread u with pc := (s.thread u).pc.wakeWriter } }

/-- `pipewrite` from byte `i`, until it returns or sleeps. -/
def writeFrom (s : State T) (t : T) (addr : Nat → UInt8) (i : Nat) (n : Int) : State T × Out :=
  let r := writeLoop addr (n.toNat - i) i s.pipe
  let s := { s with pipe := r.1 }
  match r.2.2 with
  | none => (s.wakeReaders.setPc t .user, ⟨some n, r.2.1, []⟩)
  | some i =>
      if s.pipe.readopen = false ∨ (s.thread t).killed then
        (s.setPc t .user, ⟨some (-1), r.2.1, []⟩)
      else (s.wakeReaders.setPc t (.writing i n true), ⟨none, r.2.1, []⟩)

def readFrom (s : State T) (t : T) (n : Int) : State T × Out :=
  if s.pipe.nread = s.pipe.nwrite ∧ s.pipe.writeopen then
    if (s.thread t).killed then (s.setPc t .user, ⟨some (-1), [], []⟩)
    else (s.setPc t (.reading n true), .silent)
  else
    let r := readLoop n.toNat s.pipe
    (({ s with pipe := r.1 }).wakeWriters.setPc t .user, ⟨some r.2.length, [], r.2⟩)

def kill (s : State T) (t : T) : State T :=
  s.modify t fun th => { th with killed := true, pc := th.pc.wakeReader.wakeWriter }

def setFds (s : State T) (t : T) (e : End) (ref fds : Nat) : State T :=
  { s.modify t fun th => { th with fds := Function.update th.fds e fds } with
    ref := Function.update s.ref e ref }

/-- A descriptor of `t` copied to `u`: `dup`, or one turn of the loop of `fork` and
`thread_create`. -/
def filedup (s : State T) (u : T) (e : End) : Except Fault (State T) :=
  if s.ref e < 1 then .error .filedup
  else .ok (s.setFds u e (s.ref e + 1) ((s.thread u).fds e + 1))

/-- `fileclose` up to the point where it calls `pipeclose`. -/
def fileclose (s : State T) (t : T) (e : End) : Except Fault (State T) :=
  if s.ref e < 1 then .error .fileclose
  else
    let s' := s.setFds t e (s.ref e - 1) ((s.thread t).fds e - 1)
    .ok (if 0 < s'.ref e then s' else s'.setPc t (.closing e))

def close (s : State T) : End → State T
  | .read => ({ s with pipe := { s.pipe with readopen := false } }).wakeWriters
  | .write => ({ s with pipe := { s.pipe with writeopen := false } }).wakeReaders

def pipeclose (s : State T) (t : T) (e : End) : State T :=
  let s := s.close e
  let s :=
    if s.pipe.readopen = false ∧ s.pipe.writeopen = false then { s with freed := true } else s
  s.setPc t .user

def Enabled (s : State T) : Act T → Prop
  | .pipewrite t _ _ => (s.thread t).pc = .user ∧ 0 < (s.thread t).fds .write
  | .piperead t _ => (s.thread t).pc = .user ∧ 0 < (s.thread t).fds .read
  | .resume t _ => (s.thread t).pc.woken = true
  | .kill _ => True
  | .filedup t u e => (s.thread t).pc = .user ∧ 0 < (s.thread t).fds e ∧ (s.thread u).pc = .user
  | .fileclose t e => (s.thread t).pc = .user ∧ 0 < (s.thread t).fds e
  | .pipeclose t => (s.thread t).pc.isClosing = true

instance (s : State T) : (a : Act T) → Decidable (s.Enabled a)
  | .pipewrite .. | .piperead .. | .filedup .. | .fileclose .. =>
      inferInstanceAs (Decidable (_ ∧ _))
  | .resume .. | .pipeclose _ => inferInstanceAs (Decidable (_ = _))
  | .kill _ => inferInstanceAs (Decidable True)

def perform (s : State T) : Act T → Except Fault (State T × Out)
  | .pipewrite t n addr => s.onPipe (s.writeFrom t addr 0 n)
  | .piperead t n => s.onPipe (s.readFrom t n)
  | .resume t addr =>
      match (s.thread t).pc with
      | .writing i n _ => s.onPipe (s.writeFrom t addr i n)
      | .reading n _ => s.onPipe (s.readFrom t n)
      | _ => .ok (s, .silent)
  | .kill t => .ok (s.kill t, .silent)
  | .filedup _ u e => (s.filedup u e).map fun s => (s, .silent)
  | .fileclose t e => (s.fileclose t e).map fun s => (s, .silent)
  | .pipeclose t =>
      match (s.thread t).pc with
      | .closing e => s.onPipe (s.pipeclose t e, .silent)
      | _ => .ok (s, .silent)

end State

/-- A pipe as `pipealloc` leaves it, in a page with any contents, and its first owner with
one descriptor for each end. -/
def pipealloc (data : Nat → UInt8) (owner : T) : State T where
  pipe := ⟨⟨data, 0, 0⟩, true, true⟩
  freed := false
  ref := fun _ => 1
  thread := fun t => ⟨.user, false, fun _ => if t = owner then 1 else 0⟩

theorem pipesize_dvd : pipesize ∣ uintMod := by decide

theorem pipesize_lt : pipesize < uintMod := by decide

theorem writeLoop_holds (addr : Nat → UInt8) (left i : Nat) {p : Pipe} {l : List UInt8}
    (h : p.Holds l) :
    (writeLoop addr left i p).1.Holds (l ++ (writeLoop addr left i p).2.1) := by
  induction left generalizing i p l with
  | zero => simpa [writeLoop] using h
  | succ left ih =>
    unfold writeLoop
    split
    · simpa using h
    · rename_i hfull
      have hput : (p.put (addr i)).Holds (l ++ [addr i]) := Buffer.Holds.put h pipesize_dvd hfull _
      have hrest := ih (i + 1) hput
      rw [List.append_assoc] at hrest
      exact hrest

theorem readLoop_holds (left : Nat) {p : Pipe} {l : List UInt8} (h : p.Holds l) :
    ∃ rest, l = (readLoop left p).2 ++ rest ∧ (readLoop left p).1.Holds rest := by
  induction left generalizing p l with
  | zero => exact ⟨l, rfl, h⟩
  | succ left ih =>
    unfold readLoop
    split
    · exact ⟨l, rfl, h⟩
    · rename_i hne
      cases l with
      | nil => exact absurd ((Buffer.Holds.empty_iff h pipesize_lt).mpr rfl) hne
      | cons x l =>
        obtain ⟨rest, heq, hrest⟩ := ih (p := p.drop) (Buffer.Holds.drop h)
        refine ⟨rest, ?_, hrest⟩
        rw [Buffer.Holds.front h pipesize_dvd, List.cons_append, ← heq]

section

variable {s s' : State T} {out : Out} {l : List UInt8}

theorem writeFrom_passes (h : s.pipe.Holds l) (t : T) (addr : Nat → UInt8) (i : Nat) (n : Int) :
    Passes l (s.writeFrom t addr i n) := by
  have hloop := writeLoop_holds addr (n.toNat - i) i h
  unfold State.writeFrom
  dsimp only
  split
  · exact ⟨_, hloop, rfl⟩
  · split
    · exact ⟨_, hloop, rfl⟩
    · exact ⟨_, hloop, rfl⟩

theorem readFrom_passes (h : s.pipe.Holds l) (t : T) (n : Int) : Passes l (s.readFrom t n) := by
  unfold State.readFrom
  split
  · split
    · exact passes_same h rfl rfl
    · exact passes_same h rfl rfl
  · obtain ⟨rest, heq, hrest⟩ := readLoop_holds n.toNat h
    exact ⟨rest, hrest, (List.append_nil l).trans heq⟩

theorem filedup_pipe {u : T} {e : End} (h : s.filedup u e = .ok s') : s'.pipe = s.pipe := by
  unfold State.filedup at h
  split at h
  · cases h
  · cases Except.ok.inj h
    rfl

theorem fileclose_pipe {t : T} {e : End} (h : s.fileclose t e = .ok s') : s'.pipe = s.pipe := by
  unfold State.fileclose at h
  split at h
  · cases h
  · dsimp only at h
    split at h
    · cases Except.ok.inj h
      rfl
    · cases Except.ok.inj h
      rfl

theorem pipeclose_buffer (s : State T) (t : T) (e : End) :
    (s.pipeclose t e).pipe.toBuffer = s.pipe.toBuffer := by
  unfold State.pipeclose
  cases e with
  | read =>
    dsimp only
    split
    · rfl
    · rfl
  | write =>
    dsimp only
    split
    · rfl
    · rfl

theorem perform_passes {a : Act T} (h : s.pipe.Holds l) (hstep : s.perform a = .ok (s', out)) :
    Passes l (s', out) := by
  cases a with
  | pipewrite t n addr =>
    rw [onPipe_ok hstep]
    exact writeFrom_passes h t addr 0 n
  | piperead t n =>
    rw [onPipe_ok hstep]
    exact readFrom_passes h t n
  | resume t addr =>
    simp only [State.perform] at hstep
    split at hstep
    · rw [onPipe_ok hstep]
      exact writeFrom_passes h t addr _ _
    · rw [onPipe_ok hstep]
      exact readFrom_passes h t _
    · cases Except.ok.inj hstep
      exact passes_same h rfl rfl
  | kill t =>
    cases Except.ok.inj hstep
    exact passes_same h rfl rfl
  | filedup t u e =>
    obtain ⟨s1, hdup, heq⟩ := map_eq_ok.mp hstep
    cases heq
    refine passes_same ?_ rfl rfl
    rw [filedup_pipe hdup]
    exact h
  | fileclose t e =>
    obtain ⟨s1, hclose, heq⟩ := map_eq_ok.mp hstep
    cases heq
    refine passes_same ?_ rfl rfl
    rw [fileclose_pipe hclose]
    exact h
  | pipeclose t =>
    simp only [State.perform] at hstep
    split at hstep
    · rename_i e _
      cases onPipe_ok hstep
      refine passes_same ?_ rfl rfl
      unfold Pipe.Holds
      rw [pipeclose_buffer s t e]
      exact h
    · cases Except.ok.inj hstep
      exact passes_same h rfl rfl

end

def storedBy : List (State T × Act T × Out) → List UInt8
  | [] => []
  | step :: before => storedBy before ++ step.2.2.stored

def deliveredBy : List (State T × Act T × Out) → List UInt8
  | [] => []
  | step :: before => deliveredBy before ++ step.2.2.delivered

def Conveys (trace : List (State T × Act T × Out)) (s : State T) : Prop :=
  ∃ l, s.pipe.Holds l ∧ storedBy trace = deliveredBy trace ++ l

theorem conveys_run {data : Nat → UInt8} {owner : T} {trace : List (State T × Act T × Out)}
    {s : State T} (run : Run State.perform State.Enabled (pipealloc data owner) trace s) :
    Conveys trace s := by
  have hstart : Conveys [] (pipealloc data owner) := ⟨[], holds_nil data, rfl⟩
  refine run.invariant Conveys hstart ?_
  rintro trace s a s' out ⟨l, hholds, hstored⟩ - hstep
  obtain ⟨l', hholds', hqueue⟩ := perform_passes hholds hstep
  refine ⟨l', hholds', ?_⟩
  change storedBy trace ++ out.stored = deliveredBy trace ++ out.delivered ++ l'
  rw [hstored, List.append_assoc, List.append_assoc, hqueue]

end

end Xv6.Pipes

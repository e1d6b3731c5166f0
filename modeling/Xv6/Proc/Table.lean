import Xv6.Proc.State

/-! Operations of `proc.c` on single slots: allocation, sleep and wakeup, `kill`,
and the reference counts that `fork`, `thread_create` and the exits move. -/
namespace Xv6.Kernel

open Word

def allocFields (pid : Int) (p : Proc) : Proc :=
  { p with
    state := .embryo, pid := pid, level := 0, ticks := 0, runtime := 0,
    passValue := -1, stride := 0, portion := 0, tid := 0, nexttid := 1, stack := [] }

/-- The slot is given back when there is no frame for the kernel stack. -/
def allocproc (k : Kernel) : Kernel × Option Slot :=
  match k.findSlot fun _ p => p.state = .unused with
  | none => (k, none)
  | some np =>
      let k := { k.modify np (allocFields k.nextpid) with nextpid := i32 (k.nextpid + 1) }
      if k.free = 0 then
        (k.modify np fun p => { p with kstack := false, state := .unused }, none)
      else
        ((k.setFree (k.free - 1)).modify np fun p => { p with kstack := true, context := .user },
          some np)

def abandon (k : Kernel) (np : Slot) : Kernel :=
  (k.setFree (k.free + 1)).modify np fun p => { p with kstack := false, state := .unused }

def wakeup1 (k : Kernel) (chan : Option Chan) : Kernel :=
  { k with proc := fun slot =>
      if (k.proc slot).state = .sleeping ∧ (k.proc slot).chan = chan then
        { k.proc slot with state := .runnable }
      else k.proc slot }

def sleep (k : Kernel) (slot : Slot) (chan : Chan) : Kernel :=
  (k.modify slot fun p => { p with chan := some chan, state := .sleeping }).sched slot

def yield (k : Kernel) (slot : Slot) : Kernel :=
  (k.modify slot fun p => { p with state := .runnable }).sched slot

def kill (k : Kernel) (pid : Int) : Kernel × Int :=
  match k.findSlot fun _ p => p.pid = pid with
  | none => (k, -1)
  | some slot =>
      (k.modify slot fun p =>
        { p with killed := true, state := if p.state = .sleeping then .runnable else p.state }, 0)

def setFileRef (k : Kernel) (f : FileId) (n : Nat) : Kernel :=
  { k with fileRef := Function.update k.fileRef f n }

def setInodeRef (k : Kernel) (inode : InodeId) (n : Nat) : Kernel :=
  { k with inodeRef := Function.update k.inodeRef inode n }

def filedup (k : Kernel) (f : FileId) : Except Fault Kernel :=
  if k.fileRef f < 1 then .error .filedup else .ok (k.setFileRef f (k.fileRef f + 1))

def fileclose (k : Kernel) (f : FileId) : Except Fault Kernel :=
  if k.fileRef f < 1 then .error .fileclose else .ok (k.setFileRef f (k.fileRef f - 1))

def idup (k : Kernel) (cwd : Option InodeId) : Except Fault Kernel :=
  (deref cwd).map fun inode => k.setInodeRef inode (k.inodeRef inode + 1)

def iput (k : Kernel) (cwd : Option InodeId) : Except Fault Kernel :=
  (deref cwd).map fun inode => k.setInodeRef inode (k.inodeRef inode - 1)

def dupFile (src dst : Slot) (k : Kernel) (fd : Fin nofile) : Except Fault Kernel :=
  match (k.proc src).ofile fd with
  | none => .ok k
  | some f => (k.filedup f).map fun k =>
      k.modify dst fun p => { p with ofile := Function.update p.ofile fd (some f) }

def dupFiles (k : Kernel) (src dst : Slot) : Except Fault Kernel := do
  let k ← (List.finRange nofile).foldlM (dupFile src dst) k
  let k ← k.idup (k.proc src).cwd
  .ok (k.modify dst fun p => { p with cwd := (k.proc src).cwd })

def closeFile (slot : Slot) (k : Kernel) (fd : Fin nofile) : Except Fault Kernel :=
  match (k.proc slot).ofile fd with
  | none => .ok k
  | some f => (k.fileclose f).map fun k =>
      k.modify slot fun p => { p with ofile := Function.update p.ofile fd none }

def closeFiles (k : Kernel) (slot : Slot) : Except Fault Kernel := do
  let k ← (List.finRange nofile).foldlM (closeFile slot) k
  let k ← k.iput (k.proc slot).cwd
  .ok (k.modify slot fun p => { p with cwd := none })

end Xv6.Kernel

import Xv6.Lib.DList
import Xv6.Lib.Fallible
import Xv6.Lib.Threads
import Xv6.Lib.Transition

/-! The buffer cache of `bio.c` and the processes that use it, on the device ROOTDEV. A step is
what a call does between two points where it may wait: `bget` under `bcache.lock`,
`acquiresleep`, the rest of `bread`, `brelse` up to `releasesleep`, and its section under
`bcache.lock`. `commit` and `install_trans` are sequences of `bread`, copying, `bwrite` and
`brelse` of one process. -/
namespace Xv6.Bio

open DList Fallible Transition

abbrev nbuf : Nat := 30

def rootdev : Nat := 1

/-- `struct buf` without its links; `holder` is `lock.pid` while `lock.locked`. -/
structure Buf (T D : Type) where
  valid : Bool
  dirty : Bool
  dev : Nat
  blockno : Nat
  holder : Option T
  refcnt : Nat
  data : D

/-- Where a process is: outside of the cache, in `acquiresleep` with the buffer that `bget`
chose, in `bread` with the buffer locked, or in `brelse` behind `releasesleep`. -/
inductive Pc where
  | idle
  | waiting (b : Fin nbuf)
  | locked (b : Fin nbuf)
  | releasing (b : Fin nbuf)
  deriving DecidableEq

/-- `bcache`, the disk and the processes; `touched` marks the buffers that were modified and
neither logged nor written since. -/
structure State (T D : Type) where
  buf : Fin nbuf → Buf T D
  links : Links (Fin nbuf)
  disk : Nat → D
  pc : T → Pc
  touched : Fin nbuf → Bool

inductive Fault where
  | noBuffers | bwrite | brelse | nothingToDo
  deriving DecidableEq

inductive Act (T D : Type) where
  | bread (t : T) (blockno : Nat)
  | acquiresleep (t : T)
  | load (t : T)
  | modify (t : T) (b : Fin nbuf) (data : D)
  | logWrite (t : T) (b : Fin nbuf)
  | bwrite (t : T) (b : Fin nbuf)
  | brelse (t : T) (b : Fin nbuf)
  | unref (t : T)

inductive Out (D : Type) where
  | silent
  | returned (blockno : Nat) (data : D)
  | released (blockno : Nat) (data : D)
  deriving DecidableEq

variable {T D : Type}

def Pc.target : Pc → Option (Fin nbuf)
  | .idle => none
  | .waiting b | .locked b | .releasing b => some b

def Buf.caches (x : Buf T D) (dev blockno : Nat) : Bool := x.dev = dev ∧ x.blockno = blockno

def Buf.unused (x : Buf T D) : Bool := x.refcnt = 0 ∧ x.dirty = false

def binit (disk : Nat → D) (zero : D) : State T D where
  buf := fun _ => ⟨false, false, 0, 0, none, 0, zero⟩
  links := (List.finRange nbuf).foldl Links.pushFront ⟨fun _ => none, fun _ => none⟩
  disk := disk
  pc := fun _ => .idle
  touched := fun _ => false

variable [DecidableEq T]

namespace State

def setBuf (s : State T D) (b : Fin nbuf) (x : Buf T D) : State T D :=
  { s with buf := Function.update s.buf b x }

def setPc (s : State T D) (t : T) (pc : Pc) : State T D :=
  { s with pc := Function.update s.pc t pc }

def touch (s : State T D) (b : Fin nbuf) (touched : Bool) : State T D :=
  { s with touched := Function.update s.touched b touched }

def findCached (s : State T D) (dev blockno : Nat) : Option (Fin nbuf) :=
  findFrom s.links.next (fun b => (s.buf b).caches dev blockno) (nbuf + 1) (s.links.next none)

def findUnused (s : State T D) : Option (Fin nbuf) :=
  findFrom s.links.prev (fun b => (s.buf b).unused) (nbuf + 1) (s.links.prev none)

/-- `bget` up to `acquiresleep`. -/
def bget (s : State T D) (t : T) (dev blockno : Nat) : Except Fault (State T D) :=
  match s.findCached dev blockno with
  | some b =>
      .ok ((s.setBuf b { s.buf b with refcnt := (s.buf b).refcnt + 1 }).setPc t (.waiting b))
  | none =>
      match s.findUnused with
      | some b =>
          .ok ((s.setBuf b
            { s.buf b with dev, blockno, valid := false, dirty := false, refcnt := 1 }
            ).setPc t (.waiting b))
      | none => .error .noBuffers

def iderw (s : State T D) (b : Fin nbuf) : Except Fault (State T D) :=
  let x := s.buf b
  if x.valid ∧ x.dirty = false then .error .nothingToDo
  else if x.dirty then
    .ok { s.setBuf b { x with valid := true, dirty := false } with
      disk := Function.update s.disk x.blockno x.data }
  else .ok (s.setBuf b { x with valid := true, data := s.disk x.blockno })

/-- The rest of `bread`, with the buffer locked. -/
def load (s : State T D) (t : T) (b : Fin nbuf) : Except Fault (State T D × Out D) :=
  (if (s.buf b).valid then .ok s else s.iderw b).map fun s =>
    (s.setPc t .idle, .returned (s.buf b).blockno (s.buf b).data)

def bwrite (s : State T D) (t : T) (b : Fin nbuf) : Except Fault (State T D) :=
  if (s.buf b).holder ≠ some t then .error .bwrite
  else ((s.setBuf b { s.buf b with dirty := true }).touch b false).iderw b

/-- `brelse` up to `releasesleep`. -/
def brelse (s : State T D) (t : T) (b : Fin nbuf) : Except Fault (State T D) :=
  if (s.buf b).holder ≠ some t then .error .brelse
  else .ok ((s.setBuf b { s.buf b with holder := none }).setPc t (.releasing b))

/-- The section of `brelse` under `bcache.lock`. -/
def unref (s : State T D) (t : T) (b : Fin nbuf) : State T D :=
  let s := (s.setBuf b { s.buf b with refcnt := (s.buf b).refcnt - 1 }).setPc t .idle
  if (s.buf b).refcnt = 0 then { s with links := (s.links.unlink b).pushFront b } else s

/-- A process uses only the buffers it has from `bread`, and logs or writes what it modified
before it releases it. -/
def Enabled (s : State T D) : Act T D → Prop
  | .bread t _ => s.pc t = .idle
  | .acquiresleep t => ∃ b, s.pc t = .waiting b ∧ (s.buf b).holder = none
  | .load t => ∃ b, s.pc t = .locked b
  | .modify t b _ | .logWrite t b | .bwrite t b => s.pc t = .idle ∧ (s.buf b).holder = some t
  | .brelse t b => s.pc t = .idle ∧ (s.buf b).holder = some t ∧ s.touched b = false
  | .unref t => ∃ b, s.pc t = .releasing b

instance (s : State T D) : (a : Act T D) → Decidable (s.Enabled a)
  | .bread .. => inferInstanceAs (Decidable (_ = _))
  | .acquiresleep _ | .load _ | .unref _ => inferInstanceAs (Decidable (∃ _, _))
  | .modify .. | .logWrite .. | .bwrite .. | .brelse .. => inferInstanceAs (Decidable (_ ∧ _))

def perform (s : State T D) : Act T D → Except Fault (State T D × Out D)
  | .bread t blockno => (s.bget t rootdev blockno).map fun s => (s, .silent)
  | .acquiresleep t =>
      match s.pc t with
      | .waiting b =>
          .ok ((s.setBuf b { s.buf b with holder := some t }).setPc t (.locked b), .silent)
      | _ => .ok (s, .silent)
  | .load t =>
      match s.pc t with
      | .locked b => s.load t b
      | _ => .ok (s, .silent)
  | .modify _ b data => .ok ((s.setBuf b { s.buf b with data }).touch b true, .silent)
  | .logWrite _ b => .ok ((s.setBuf b { s.buf b with dirty := true }).touch b false, .silent)
  | .bwrite t b => (s.bwrite t b).map fun s => (s, .silent)
  | .brelse t b =>
      (s.brelse t b).map fun s' => (s', .released (s.buf b).blockno (s.buf b).data)
  | .unref t =>
      match s.pc t with
      | .releasing b => .ok (s.unref t b, .silent)
      | _ => .ok (s, .silent)

end State

end Xv6.Bio

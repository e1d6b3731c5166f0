import Xv6.Lib.Word
import Xv6.Lib.Fallible
import Mathlib.Data.Fintype.Basic
import Mathlib.Data.Fintype.Pi

/-! The disk of `fs.h` and the block layer of `fs.c`. The inode blocks and the bitmap
are kept decoded, every other block as its bytes; `data` is what `bread` returns, so the
buffer cache and the log stand between this state and the platters. `logged` is the log
header: the blocks that the current transaction has passed to `log_write`. -/
namespace Xv6

open Word Fallible

abbrev bsize : Nat := 512
abbrev ndirect : Nat := 10
abbrev nindirect : Nat := 128
abbrev n2indirect : Nat := 16384
abbrev n3indirect : Nat := 2097152
abbrev maxfile : Nat := 2113674
abbrev naddrs : Nat := 13
abbrev ninode : Nat := 50
abbrev dirsiz : Nat := 14
abbrev direntSize : Nat := 16
abbrev rootino : Nat := 1
abbrev maxopblocks : Nat := 10
abbrev logsize : Nat := 30

abbrev ipb : Nat := 8
abbrev bpb : Nat := 4096

/-- The superblock that `mkfs` writes. `inodeArea` inodes fit between `inodestart` and
`bmapstart`, more than the `ninodes` that `ialloc` looks at. -/
abbrev fssize : Nat := 40000
abbrev ninodes : Nat := 200
abbrev inodestart : Nat := 32
abbrev bmapstart : Nat := 58
abbrev nmeta : Nat := 68
abbrev inodeArea : Nat := 208

theorem naddrs_ne_zero : naddrs ≠ 0 := by decide

instance instNeZeroNaddrs : @NeZero Nat Zero.ofOfNat0 naddrs := ⟨naddrs_ne_zero⟩

theorem direct_lt {bn : Nat} (h : bn < ndirect) : bn < naddrs := Nat.lt_trans h (by decide)

def iblock (inum : Nat) : Nat := inum / ipb + inodestart

def bblock (b : Nat) : Nat := b / bpb + bmapstart

/-- The panics of `fs.c`, `sysfile.c` and `file.c`, and `log_write`'s of a transaction that is
`tooBig`; `inodeArea` is the use of an inode number
whose block lies behind the inode blocks, so that the kernel would take another block for it. -/
inductive Panic where
  | outOfBlocks | freeingFree | noInodes | noCacheEntry | ilock | ilockNoType | bmapRange
  | dirlookupNotDir | dirlookupRead | dirlinkRead | dirlink | isdirempty
  | unlinkNlink | unlinkWritei | createDots | createDirlink | shortFilewrite | shortPwrite
  | inodeArea | tooBig
  deriving DecidableEq, Repr

abbrev Block := Nat → UInt8

namespace Block

def zero : Block := fun _ => 0

def word (block : Block) (j : Nat) : Nat :=
  (block (4 * j)).toNat + 256 * (block (4 * j + 1)).toNat + 65536 * (block (4 * j + 2)).toNat +
    16777216 * (block (4 * j + 3)).toNat

def setWord (block : Block) (j w : Nat) : Block :=
  fun i => if i / 4 = j then UInt8.ofNat (w / 256 ^ (i % 4)) else block i

def slice (block : Block) (start m : Nat) : List UInt8 :=
  (List.range m).map fun i => block (start + i)

def overwrite (block : Block) (start : Nat) (bytes : List UInt8) : Block :=
  fun i => if start ≤ i ∧ i < start + bytes.length then bytes.getD (i - start) 0 else block i

@[simp] theorem word_zero (j : Nat) : zero.word j = 0 := rfl

theorem word_setWord_same (block : Block) (j : Nat) {w : Nat} (hw : w < 4294967296) :
    (block.setWord j w).word j = w := by
  have h0 : 4 * j / 4 = j := by omega
  have h1 : (4 * j + 1) / 4 = j := by omega
  have h2 : (4 * j + 2) / 4 = j := by omega
  have h3 : (4 * j + 3) / 4 = j := by omega
  have m0 : 4 * j % 4 = 0 := by omega
  have m1 : (4 * j + 1) % 4 = 1 := by omega
  have m2 : (4 * j + 2) % 4 = 2 := by omega
  have m3 : (4 * j + 3) % 4 = 3 := by omega
  simp only [word, setWord, h0, h1, h2, h3, m0, m1, m2, m3, if_true, UInt8.toNat_ofNat']
  omega

theorem word_setWord_other (block : Block) {j k : Nat} (w : Nat) (h : k ≠ j) :
    (block.setWord j w).word k = block.word k := by
  have h0 : 4 * k / 4 ≠ j := by omega
  have h1 : (4 * k + 1) / 4 ≠ j := by omega
  have h2 : (4 * k + 2) / 4 ≠ j := by omega
  have h3 : (4 * k + 3) / 4 ≠ j := by omega
  simp only [word, setWord, if_neg h0, if_neg h1, if_neg h2, if_neg h3]

end Block

inductive FileType where
  | free | dir | file | dev
  deriving DecidableEq, Repr

structure Dinode where
  type : FileType
  major : Int
  minor : Int
  nlink : Int
  size : Nat
  addrs : Fin naddrs → Nat
  deriving DecidableEq

def Dinode.zero : Dinode := ⟨.free, 0, 0, 0, 0, fun _ => 0⟩

/-- An entry of the inode cache; `din` are the fields copied from disk. -/
structure Inode where
  inum : Nat
  ref : Nat
  valid : Bool
  din : Dinode

abbrev Iref := Fin ninode

structure Fs where
  bitmap : Nat → Bool
  dinode : Nat → Dinode
  data : Nat → Block
  icache : Iref → Inode
  logged : List Nat

namespace Fs

/-- The blocks that go into the header: the log has room for one less than its own blocks. -/
abbrev logRoom : Nat := logsize - 1

/-- A block that is already in the header is absorbed. With a full header `log_write` panics,
whatever the block: here the header then gets longer than `logRoom`, and `checkLog` sees it. -/
def logWrite (fs : Fs) (b : Nat) : Fs :=
  if b ∈ fs.logged ∧ fs.logged.length < logRoom then fs
  else { fs with logged := fs.logged ++ [b] }

/-- What a call inside a transaction comes to, with the panic of `log_write`. -/
def checkLog {α : Type} (r : Except Panic (Fs × α)) : Except Panic (Fs × α) := do
  let (fs, a) ← r
  if logRoom < fs.logged.length then .error .tooBig else return (fs, a)

theorem checkLog_eq_ok {α : Type} {r : Except Panic (Fs × α)} {fs : Fs} {a : α} :
    checkLog r = .ok (fs, a) ↔ r = .ok (fs, a) ∧ fs.logged.length ≤ logRoom := by
  unfold checkLog
  constructor
  · intro hok
    obtain ⟨⟨fs1, a1⟩, hr, hok⟩ := bind_eq_ok.mp hok
    dsimp only at hok
    split at hok
    · cases hok
    · rename_i hfull
      cases Except.ok.inj hok
      exact ⟨hr, Nat.le_of_not_lt hfull⟩
  · rintro ⟨rfl, hfits⟩
    exact if_neg (Nat.not_lt.mpr hfits)

theorem checkLog_of_ok {α : Type} {r : Except Panic (Fs × α)} {fs : Fs} {a : α}
    (h : r = .ok (fs, a)) : checkLog r = .error .tooBig ∨ checkLog r = .ok (fs, a) := by
  subst h
  by_cases hfull : logRoom < fs.logged.length
  · exact .inl (if_pos hfull)
  · exact .inr (if_neg hfull)

/-- The operation before is committed, and no other one is on its way. -/
def beginOp (fs : Fs) : Fs := { fs with logged := [] }

def bzero (fs : Fs) (bno : Nat) : Fs :=
  logWrite { fs with data := Function.update fs.data bno Block.zero } bno

def firstClear (bitmap : Nat → Bool) : Nat → Nat → Option Nat
  | 0, _ => none
  | fuel + 1, b => if bitmap b then firstClear bitmap fuel (b + 1) else some b

def balloc (fs : Fs) : Except Panic (Fs × Nat) :=
  match firstClear fs.bitmap fssize 0 with
  | none => .error .outOfBlocks
  | some b =>
      let fs := logWrite { fs with bitmap := Function.update fs.bitmap b true } (bblock b)
      .ok (fs.bzero b, b)

def bfree (fs : Fs) (b : Nat) : Except Panic Fs :=
  if fs.bitmap b then
    .ok (logWrite { fs with bitmap := Function.update fs.bitmap b false } (bblock b))
  else .error .freeingFree

end Fs

end Xv6

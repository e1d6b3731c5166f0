import Xv6.Fs.Disk

/-! The inode layer of `fs.c`: the inode cache, the block map, truncation and the reading
and writing of contents. Each function runs alone, so the locks of the source are not
part of the state; what `ilock` does besides locking is. -/
namespace Xv6

open Word

/-- What `readi` and `writei` answer: -1, the answer of a device driver, or their own. -/
inductive Io (α : Type) where
  | fail
  | device
  | done (value : α)
  deriving DecidableEq

namespace Fs

def setInode (fs : Fs) (ip : Iref) (inode : Inode) : Fs :=
  { fs with icache := Function.update fs.icache ip inode }

def din (fs : Fs) (ip : Iref) : Dinode := (fs.icache ip).din

def setDin (fs : Fs) (ip : Iref) (d : Dinode) : Fs :=
  fs.setInode ip { fs.icache ip with din := d }

def setAddr (fs : Fs) (ip : Iref) (slot : Fin naddrs) (b : Nat) : Fs :=
  fs.setDin ip { fs.din ip with addrs := Function.update (fs.din ip).addrs slot b }

def iget (fs : Fs) (inum : Nat) : Except Panic (Fs × Iref) :=
  match (List.finRange ninode).find? fun ip =>
      0 < (fs.icache ip).ref && (fs.icache ip).inum == inum with
  | some ip => .ok (fs.setInode ip { fs.icache ip with ref := (fs.icache ip).ref + 1 }, ip)
  | none =>
      match (List.finRange ninode).find? fun ip => (fs.icache ip).ref == 0 with
      | none => .error .noCacheEntry
      | some ip => .ok (fs.setInode ip { fs.icache ip with inum, ref := 1, valid := false }, ip)

def idup (fs : Fs) (ip : Iref) : Fs :=
  fs.setInode ip { fs.icache ip with ref := (fs.icache ip).ref + 1 }

def firstFree (dinode : Nat → Dinode) : Nat → Nat → Option Nat
  | 0, _ => none
  | fuel + 1, inum =>
      if (dinode inum).type = .free then some inum else firstFree dinode fuel (inum + 1)

def ialloc (fs : Fs) (type : FileType) : Except Panic (Fs × Iref) :=
  match firstFree fs.dinode (ninodes - 1) 1 with
  | none => .error .noInodes
  | some inum =>
      iget (logWrite { fs with dinode := Function.update fs.dinode inum { Dinode.zero with type } }
        (iblock inum)) inum

def iupdate (fs : Fs) (ip : Iref) : Fs :=
  let inum := (fs.icache ip).inum
  logWrite { fs with dinode := Function.update fs.dinode inum (fs.din ip) } (iblock inum)

def ilock (fs : Fs) (ip : Iref) : Except Panic Fs :=
  let inode := fs.icache ip
  if inode.ref < 1 then .error .ilock
  else if inode.valid then .ok fs
  else if inodeArea ≤ inode.inum then .error .inodeArea
  else if (fs.dinode inode.inum).type = .free then .error .ilockNoType
  else .ok (fs.setInode ip { inode with valid := true, din := fs.dinode inode.inum })

/-- `if((addr = ip->addrs[slot]) == 0) ip->addrs[slot] = addr = balloc(ip->dev)`. -/
def slotAddr (fs : Fs) (ip : Iref) (slot : Fin naddrs) : Except Panic (Fs × Nat) :=
  let addr := (fs.din ip).addrs slot
  if addr = 0 then do
    let (fs, addr) ← fs.balloc
    return (fs.setAddr ip slot addr, addr)
  else .ok (fs, addr)

/-- The same for entry `j` of the indirection block `bno`, which is then logged. -/
def entryAddr (fs : Fs) (bno j : Nat) : Except Panic (Fs × Nat) :=
  let addr := (fs.data bno).word j
  if addr = 0 then do
    let (fs, addr) ← fs.balloc
    let block := (fs.data bno).setWord j addr
    return (logWrite { fs with data := Function.update fs.data bno block } bno, addr)
  else .ok (fs, addr)

def bmap (fs : Fs) (ip : Iref) (bn : Nat) : Except Panic (Fs × Nat) :=
  if h : bn < ndirect then
    fs.slotAddr ip ⟨bn, direct_lt h⟩
  else
    let bn := bn - ndirect
    if bn < nindirect then do
      let (fs, addr) ← fs.slotAddr ip 10
      fs.entryAddr addr bn
    else
      let bn := bn - nindirect
      if bn < n2indirect then do
        let (fs, addr) ← fs.slotAddr ip 11
        let (fs, addr) ← fs.entryAddr addr (bn / nindirect)
        fs.entryAddr addr (bn % nindirect)
      else
        let bn := bn - n2indirect
        if bn < n3indirect then do
          let (fs, addr) ← fs.slotAddr ip 12
          let (fs, addr) ← fs.entryAddr addr (bn / n2indirect)
          let (fs, addr) ← fs.entryAddr addr (bn % n2indirect / nindirect)
          fs.entryAddr addr (bn % n2indirect % nindirect)
        else .error .bmapRange

/-- The loop nests of `itrunc` below an indirection block of the given depth, which is
freed last. Depth 0 is a data block. -/
def freeTree : Nat → Fs → Nat → Except Panic Fs
  | 0, fs, addr => fs.bfree addr
  | depth + 1, fs, addr => do
      let fs ← (List.range nindirect).foldlM (fun fs j =>
        let entry := (fs.data addr).word j
        if entry = 0 then .ok fs else freeTree depth fs entry) fs
      fs.bfree addr

def truncSlot (ip : Iref) (fs : Fs) (slot : Fin naddrs) (depth : Nat) : Except Panic Fs :=
  let addr := (fs.din ip).addrs slot
  if addr = 0 then .ok fs
  else do
    let fs ← freeTree depth fs addr
    return fs.setAddr ip slot 0

def itrunc (fs : Fs) (ip : Iref) : Except Panic Fs := do
  let fs ← [0, 1, 2, 3, 4, 5, 6, 7, 8, 9].foldlM (fun fs slot => truncSlot ip fs slot 0) fs
  let fs ← truncSlot ip fs 10 1
  let fs ← truncSlot ip fs 11 2
  let fs ← truncSlot ip fs 12 3
  return (fs.setDin ip { fs.din ip with size := 0 }).iupdate ip

def iput (fs : Fs) (ip : Iref) : Except Panic Fs := do
  let inode := fs.icache ip
  let fs ←
    if inode.valid ∧ inode.din.nlink = 0 ∧ inode.ref = 1 then do
      let fs ← fs.itrunc ip
      let fs := (fs.setDin ip { fs.din ip with type := .free }).iupdate ip
      pure (fs.setInode ip { fs.icache ip with valid := false })
    else .ok fs
  return fs.setInode ip { fs.icache ip with ref := (fs.icache ip).ref - 1 }

def HasDriver (major : Int) : Prop := major = 1

instance (major : Int) : Decidable (HasDriver major) := inferInstanceAs (Decidable (_ = _))

def readLoop (ip : Iref) : Nat → Fs → Nat → Nat → Except Panic (Fs × List UInt8)
  | 0, fs, _, _ => .ok (fs, [])
  | fuel + 1, fs, off, n =>
      if n = 0 then .ok (fs, [])
      else do
        let (fs, addr) ← fs.bmap ip (off / bsize)
        let m := min n (bsize - off % bsize)
        let (fs', rest) ← readLoop ip fuel fs (off + m) (n - m)
        return (fs', (fs.data addr).slice (off % bsize) m ++ rest)

def readi (fs : Fs) (ip : Iref) (off n : Nat) : Except Panic (Fs × Io (List UInt8)) :=
  let d := fs.din ip
  if d.type = .dev then .ok (fs, if HasDriver d.major then .device else .fail)
  else if d.size < off ∨ u32 (off + n) < off then .ok (fs, .fail)
  else do
    let n := if d.size < off + n then d.size - off else n
    let (fs, bytes) ← readLoop ip n fs off n
    return (fs, .done bytes)

def writeLoop (ip : Iref) : Nat → Fs → Nat → List UInt8 → Except Panic Fs
  | 0, fs, _, _ => .ok fs
  | fuel + 1, fs, off, src =>
      if src.length = 0 then .ok fs
      else do
        let (fs, addr) ← fs.bmap ip (off / bsize)
        let m := min src.length (bsize - off % bsize)
        let block := (fs.data addr).overwrite (off % bsize) (src.take m)
        let fs := logWrite { fs with data := Function.update fs.data addr block } addr
        writeLoop ip fuel fs (off + m) (src.drop m)

def writei (fs : Fs) (ip : Iref) (src : List UInt8) (off : Nat) : Except Panic (Fs × Io Nat) :=
  let d := fs.din ip
  let n := src.length
  if d.type = .dev then .ok (fs, if HasDriver d.major then .device else .fail)
  else if d.size < off ∨ u32 (off + n) < off then .ok (fs, .fail)
  else if maxfile * bsize < off + n then .ok (fs, .fail)
  else do
    let fs ← writeLoop ip n fs off src
    if 0 < n ∧ (fs.din ip).size < off + n then
      return ((fs.setDin ip { fs.din ip with size := off + n }).iupdate ip, .done n)
    else return (fs, .done n)

end Fs

end Xv6

import Xv6.Fs.Dir

/-! The file system calls that run in one transaction: `sys_link`, `sys_unlink` and
`create` of `sysfile.c`, and a chunk of `filewrite` or `pwrite`. The fetching of the
arguments and the file table are left out; paths and inodes are given. -/
namespace Xv6

open Word

namespace Fs

def nlink (fs : Fs) (ip : Iref) : Int := (fs.din ip).nlink

def addLink (fs : Fs) (ip : Iref) (delta : Int) : Fs :=
  (fs.setDin ip { fs.din ip with nlink := i16 (fs.nlink ip + delta) }).iupdate ip

/-- The exit `bad` of `sys_link`, which takes the new link back. -/
def linkBad (fs : Fs) (ip : Iref) : Except Panic (Fs × Int) := do
  let fs ← fs.ilock ip
  return (← (fs.addLink ip (-1)).iput ip, -1)

def link (fs : Fs) (cwd : Iref) (old new : Name) : Except Panic (Fs × Int) := do
  let (fs, found) ← fs.namex cwd old false
  match found with
  | none => return (fs, -1)
  | some (ip, _) =>
      let fs ← fs.ilock ip
      if (fs.din ip).type = .dir then return (← fs.iput ip, -1)
      else
        let fs := fs.addLink ip 1
        let (fs, parent) ← fs.namex cwd new true
        match parent with
        | none => fs.linkBad ip
        | some (dp, name) =>
            let fs ← fs.ilock dp
            let (fs, linked) ← fs.dirlink dp name (fs.icache ip).inum
            let fs ← fs.iput dp
            if linked < 0 then fs.linkBad ip
            else return (← fs.iput ip, 0)

def emptyFrom (dp : Iref) : Nat → Fs → Nat → Except Panic (Fs × Bool)
  | 0, fs, _ => .ok (fs, true)
  | fuel + 1, fs, off =>
      if (fs.din dp).size ≤ off then .ok (fs, true)
      else do
        let (fs, de) ← fs.readDirent dp off .isdirempty
        if de.inum ≠ 0 then return (fs, false)
        else emptyFrom dp fuel fs (off + direntSize)

def isdirempty (fs : Fs) (dp : Iref) : Except Panic (Fs × Bool) :=
  emptyFrom dp ((fs.din dp).size / direntSize + 1) fs (2 * direntSize)

/-- `sys_unlink` once the entry at `off` of `dp` is found to name `ip`. -/
def unlinkEntry (fs : Fs) (dp : Iref) (off : Nat) (ip : Iref) : Except Panic (Fs × Int) := do
  let fs ← fs.ilock ip
  if fs.nlink ip < 1 then .error .unlinkNlink
  else
    let (fs, empty) ← if (fs.din ip).type = .dir then fs.isdirempty ip else .ok (fs, true)
    if empty then
      let fs ← fs.writeDirent dp (List.replicate direntSize 0) off .unlinkWritei
      let fs := if (fs.din ip).type = .dir then fs.addLink dp (-1) else fs
      let fs ← fs.iput dp
      return (← (fs.addLink ip (-1)).iput ip, 0)
    else
      let fs ← fs.iput ip
      return (← fs.iput dp, -1)

def unlink (fs : Fs) (cwd : Iref) (path : Name) : Except Panic (Fs × Int) := do
  let (fs, parent) ← fs.namex cwd path true
  match parent with
  | none => return (fs, -1)
  | some (dp, name) =>
      let fs ← fs.ilock dp
      if namecmp name dot ∨ namecmp name dotdot then return (← fs.iput dp, -1)
      else
        let (fs, found) ← fs.dirlookup dp name
        match found with
        | none => return (← fs.iput dp, -1)
        | some (off, ip) => fs.unlinkEntry dp off ip

def createDots (fs : Fs) (dp ip : Iref) : Except Panic Fs := do
  let fs := fs.addLink dp 1
  let (fs, linked) ← fs.dirlink ip dot (fs.icache ip).inum
  if linked < 0 then .error .createDots
  else
    let (fs, linked) ← fs.dirlink ip dotdot (fs.icache dp).inum
    if linked < 0 then .error .createDots else return fs

/-- `create` once the name is found to be new. -/
def createNew (fs : Fs) (dp : Iref) (name : Name) (type : FileType) (major minor : Int) :
    Except Panic (Fs × Option Iref) := do
  let (fs, ip) ← fs.ialloc type
  let fs ← fs.ilock ip
  let fs := (fs.setDin ip { fs.din ip with major, minor, nlink := 1 }).iupdate ip
  let fs ← if type = .dir then fs.createDots dp ip else .ok fs
  let (fs, linked) ← fs.dirlink dp name (fs.icache ip).inum
  if linked < 0 then .error .createDirlink
  else return (← fs.iput dp, some ip)

def create (fs : Fs) (cwd : Iref) (path : Name) (type : FileType) (major minor : Int) :
    Except Panic (Fs × Option Iref) := do
  let (fs, parent) ← fs.namex cwd path true
  match parent with
  | none => return (fs, none)
  | some (dp, name) =>
      let fs ← fs.ilock dp
      let (fs, found) ← fs.dirlookup dp name
      match found with
      | some (_, ip) =>
          let fs ← fs.iput dp
          let fs ← fs.ilock ip
          if type = .file ∧ (fs.din ip).type = .file then return (fs, some ip)
          else return (← fs.iput ip, none)
      | none => fs.createNew dp name type major minor

/-- The bytes that `filewrite` and `pwrite` write in one transaction at most. -/
abbrev chunkMax : Nat := (maxopblocks - 1 - 1 - 2) / 2 * 512

def writeChunk (fs : Fs) (ip : Iref) (src : List UInt8) (off : Nat) :
    Except Panic (Fs × Io Nat) := do
  let fs ← fs.beginOp.ilock ip
  checkLog (fs.writei ip src off)

end Fs

end Xv6

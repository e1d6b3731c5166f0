import Xv6.Fs.Inode

/-! Directories and path names (`fs.c`), and the system calls on names (`sysfile.c`).
A C string is the list of its bytes up to the terminator; `name[DIRSIZ]` keeps at most
`dirsiz` of them. The device number is left out: there is one file system. -/
namespace Xv6

abbrev Name := List UInt8

structure Dirent where
  inum : Nat
  name : Name
  deriving DecidableEq

def strncmp : Nat → Name → Name → Bool
  | 0, _, _ => true
  | n + 1, s, t =>
      if s.headD 0 ≠ 0 ∧ s.headD 0 = t.headD 0 then strncmp n s.tail t.tail
      else s.headD 0 == t.headD 0

def strncpy (n : Nat) (t : Name) : Name :=
  let copied := (t.takeWhile (· ≠ 0)).take n
  copied ++ List.replicate (n - copied.length) 0

def namecmp (s t : Name) : Bool := strncmp dirsiz s t

namespace Dirent

def encode (de : Dirent) : List UInt8 :=
  UInt8.ofNat de.inum :: UInt8.ofNat (de.inum / 256) :: strncpy dirsiz de.name

def decode (bytes : List UInt8) : Dirent :=
  ⟨(bytes.getD 0 0).toNat + 256 * (bytes.getD 1 0).toNat, bytes.drop 2⟩

end Dirent

def slash : UInt8 := 47
def dot : Name := [46]
def dotdot : Name := [46, 46]

def skipelem (path : Name) : Option (Name × Name) :=
  let path := path.dropWhile (· = slash)
  if path = [] then none
  else some ((path.takeWhile (· ≠ slash)).take dirsiz,
    (path.dropWhile (· ≠ slash)).dropWhile (· = slash))

/-- The elements that repeated calls of `skipelem` give; each takes a byte at least. -/
def pathElems : Nat → Name → List Name
  | 0, _ => []
  | fuel + 1, path =>
      match skipelem path with
      | none => []
      | some (name, rest) => name :: pathElems fuel rest

namespace Fs

/-- `readi(dp, &de, off, sizeof(de)) != sizeof(de)` is the given panic. -/
def readDirent (fs : Fs) (dp : Iref) (off : Nat) (short : Panic) : Except Panic (Fs × Dirent) := do
  let (fs, answer) ← fs.readi dp off direntSize
  match answer with
  | .done bytes =>
      if bytes.length = direntSize then return (fs, Dirent.decode bytes) else .error short
  | _ => .error short

/-- The entry that `dirlookup` stops at: its offset and its inode number. -/
def lookupLoop (dp : Iref) (name : Name) : Nat → Fs → Nat → Except Panic (Fs × Option (Nat × Nat))
  | 0, fs, _ => .ok (fs, none)
  | fuel + 1, fs, off =>
      if (fs.din dp).size ≤ off then .ok (fs, none)
      else do
        let (fs, de) ← fs.readDirent dp off .dirlookupRead
        if de.inum ≠ 0 ∧ namecmp name de.name then return (fs, some (off, de.inum))
        else lookupLoop dp name fuel fs (off + direntSize)

def dirlookup (fs : Fs) (dp : Iref) (name : Name) : Except Panic (Fs × Option (Nat × Iref)) :=
  if (fs.din dp).type ≠ .dir then .error .dirlookupNotDir
  else do
    let (fs, found) ← lookupLoop dp name ((fs.din dp).size / direntSize + 1) fs 0
    match found with
    | none => return (fs, none)
    | some (off, inum) =>
        let (fs, ip) ← fs.iget inum
        return (fs, some (off, ip))

def emptyLoop (dp : Iref) : Nat → Fs → Nat → Except Panic (Fs × Nat)
  | 0, fs, off => .ok (fs, off)
  | fuel + 1, fs, off =>
      if (fs.din dp).size ≤ off then .ok (fs, off)
      else do
        let (fs, de) ← fs.readDirent dp off .dirlinkRead
        if de.inum = 0 then return (fs, off)
        else emptyLoop dp fuel fs (off + direntSize)

/-- `writei(dp, &de, off, sizeof(de)) != sizeof(de)` is the given panic. -/
def writeDirent (fs : Fs) (dp : Iref) (de : List UInt8) (off : Nat) (short : Panic) :
    Except Panic Fs := do
  let (fs, answer) ← fs.writei dp de off
  if answer = .done direntSize then return fs else .error short

def dirlink (fs : Fs) (dp : Iref) (name : Name) (inum : Nat) : Except Panic (Fs × Int) := do
  let (fs, present) ← fs.dirlookup dp name
  match present with
  | some (_, ip) => return (← fs.iput ip, -1)
  | none =>
      let (fs, off) ← emptyLoop dp ((fs.din dp).size / direntSize + 1) fs 0
      return (← fs.writeDirent dp (Dirent.encode ⟨inum, name⟩) off .dirlink, 0)

/-- The loop of `namex` from `ip` on. With `parent` it stops one element early and
answers that element too. -/
def walk (parent : Bool) : List Name → Fs → Iref → Except Panic (Fs × Option (Iref × Name))
  | [], fs, ip => if parent then return (← fs.iput ip, none) else return (fs, some (ip, []))
  | name :: rest, fs, ip => do
      let fs ← fs.ilock ip
      if (fs.din ip).type ≠ .dir then return (← fs.iput ip, none)
      else if parent ∧ rest = [] then return (fs, some (ip, name))
      else
        let (fs, next) ← fs.dirlookup ip name
        let fs ← fs.iput ip
        match next with
        | none => return (fs, none)
        | some (_, next) => walk parent rest fs next

def namex (fs : Fs) (cwd : Iref) (path : Name) (parent : Bool) :
    Except Panic (Fs × Option (Iref × Name)) := do
  let (fs, ip) ← if path.head? = some slash then fs.iget rootino else .ok (fs.idup cwd, cwd)
  walk parent (pathElems path.length path) fs ip

end Fs

end Xv6

import Xv6.Fs.Dir

/-! `mkfs.c`: the image that it writes for a list of host files, and the state of the
kernel that has just mounted it. The image starts as zeroes. -/
namespace Xv6

/-- The assertions of `mkfs`, and two writes that it does not notice and goes on after: an index
outside `indirect[NINDIRECT]`, and an inode behind the inode blocks, which the bitmap then
overwrites. The image stops at both, so that it stands for `mkfs` with at most 206 host files. -/
inductive MkfsFault where
  | slash | maxfile | bitmapFull | indirectBounds | inodeArea
  deriving DecidableEq, Repr

structure Image where
  dinode : Nat → Dinode
  data : Nat → Block
  freeinode : Nat
  freeblock : Nat

namespace Image

def zeroes : Image := ⟨fun _ => Dinode.zero, fun _ => Block.zero, 1, nmeta⟩

def winode (img : Image) (inum : Nat) (d : Dinode) : Image :=
  { img with dinode := Function.update img.dinode inum d }

def wsect (img : Image) (sec : Nat) (block : Block) : Image :=
  { img with data := Function.update img.data sec block }

def ialloc (img : Image) (type : FileType) : Except MkfsFault (Image × Nat) :=
  let inum := img.freeinode
  if inodeArea ≤ inum then .error .inodeArea
  else .ok ({ img.winode inum { Dinode.zero with type, nlink := 1 } with freeinode := inum + 1 },
    inum)

def blockFor (img : Image) (d : Dinode) (fbn : Nat) : Except MkfsFault (Image × Dinode × Nat) :=
  if maxfile ≤ fbn then .error .maxfile
  else if h : fbn < ndirect then
    let slot : Fin naddrs := ⟨fbn, direct_lt h⟩
    if d.addrs slot = 0 then
      .ok ({ img with freeblock := img.freeblock + 1 },
        { d with addrs := Function.update d.addrs slot img.freeblock }, img.freeblock)
    else .ok (img, d, d.addrs slot)
  else
    let (img, d) :=
      if d.addrs 10 = 0 then
        ({ img with freeblock := img.freeblock + 1 },
          { d with addrs := Function.update d.addrs 10 img.freeblock })
      else (img, d)
    if nindirect ≤ fbn - ndirect then .error .indirectBounds
    else
      let indirect := img.data (d.addrs 10)
      if indirect.word (fbn - ndirect) = 0 then
        let img' := img.wsect (d.addrs 10) (indirect.setWord (fbn - ndirect) img.freeblock)
        .ok ({ img' with freeblock := img.freeblock + 1 }, d, img.freeblock)
      else .ok (img, d, indirect.word (fbn - ndirect))

/-- The loop of `iappend` on the copy `d` of the inode; every turn takes a byte. -/
def appendLoop : Nat → Image → Dinode → Nat → List UInt8 → Except MkfsFault (Image × Dinode × Nat)
  | 0, img, d, off, _ => .ok (img, d, off)
  | fuel + 1, img, d, off, p =>
      if p.length = 0 then .ok (img, d, off)
      else do
        let fbn := off / bsize
        let (img, d, x) ← img.blockFor d fbn
        let n1 := min p.length ((fbn + 1) * bsize - off)
        let block := (img.data x).overwrite (off - fbn * bsize) (p.take n1)
        appendLoop fuel (img.wsect x block) d (off + n1) (p.drop n1)

def iappend (img : Image) (inum : Nat) (p : List UInt8) : Except MkfsFault Image := do
  let d := img.dinode inum
  let (img, d, off) ← appendLoop p.length img d d.size p
  return img.winode inum { d with size := off }

/-- `while((cc = read(fd, buf, sizeof(buf))) > 0) iappend(inum, buf, cc)`. -/
def appendFile (inum : Nat) : Nat → Image → List UInt8 → Except MkfsFault Image
  | 0, img, _ => .ok img
  | fuel + 1, img, bytes =>
      if bytes = [] then .ok img
      else do
        let img ← img.iappend inum (bytes.take bsize)
        appendFile inum fuel img (bytes.drop bsize)

def addFile (img : Image) (file : Name × List UInt8) : Except MkfsFault Image :=
  if slash ∈ file.1 then .error .slash
  else do
    let name := if file.1.head? = some 95 then file.1.tail else file.1
    let (img, inum) ← img.ialloc .file
    let img ← img.iappend rootino (Dirent.encode ⟨inum, name⟩)
    appendFile inum file.2.length img file.2

/-- `fix size of root inode dir`: at least one byte is added. -/
def fixRoot (img : Image) : Image :=
  let d := img.dinode rootino
  img.winode rootino { d with size := (d.size / bsize + 1) * bsize }

/-- The kernel at `iinit`, with the bitmap that `balloc(freeblock)` writes. -/
def mount (img : Image) : Fs where
  bitmap b := decide (b < img.freeblock)
  dinode := img.dinode
  data := img.data
  icache _ := ⟨0, 0, false, Dinode.zero⟩
  logged := []

end Image

open Image in
def mkfs (files : List (Name × List UInt8)) : Except MkfsFault Fs := do
  let (img, root) ← zeroes.ialloc .dir
  let img ← img.iappend root (Dirent.encode ⟨root, dot⟩)
  let img ← img.iappend root (Dirent.encode ⟨root, dotdot⟩)
  let img ← files.foldlM addFile img
  let img := img.fixRoot
  if img.freeblock < bpb then return img.mount else .error .bitmapFull

end Xv6

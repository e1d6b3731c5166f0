import Xv6.Fs.Call

/-! The panic of `sys_unlink` about the link count does not come from the functions that it
calls. -/
namespace Xv6

open Fallible

namespace Fs

variable (fs : Fs) (ip dp : Iref)

theorem balloc_avoids : Avoids .unlinkNlink fs.balloc := by
  unfold balloc
  split
  · exact avoids_error (by decide)
  · exact avoids_ok _

theorem bfree_avoids (b : Nat) : Avoids .unlinkNlink (fs.bfree b) := by
  unfold bfree
  split
  · exact avoids_ok _
  · exact avoids_error (by decide)

theorem slotAddr_avoids (slot : Fin naddrs) : Avoids .unlinkNlink (fs.slotAddr ip slot) := by
  unfold slotAddr
  dsimp only
  split
  · exact fs.balloc_avoids.bind fun _ _ => avoids_ok _
  · exact avoids_ok _

theorem entryAddr_avoids (bno j : Nat) : Avoids .unlinkNlink (fs.entryAddr bno j) := by
  unfold entryAddr
  dsimp only
  split
  · exact fs.balloc_avoids.bind fun _ _ => avoids_ok _
  · exact avoids_ok _

theorem bmap_avoids (bn : Nat) : Avoids .unlinkNlink (fs.bmap ip bn) := by
  unfold bmap
  split
  · exact fs.slotAddr_avoids ip _
  · dsimp only
    split
    · exact (fs.slotAddr_avoids ip _).bind fun r _ => r.1.entryAddr_avoids _ _
    · split
      · refine (fs.slotAddr_avoids ip _).bind fun r _ => ?_
        exact (r.1.entryAddr_avoids _ _).bind fun r _ => r.1.entryAddr_avoids _ _
      · split
        · refine (fs.slotAddr_avoids ip _).bind fun r _ => ?_
          refine (r.1.entryAddr_avoids _ _).bind fun r _ => ?_
          exact (r.1.entryAddr_avoids _ _).bind fun r _ => r.1.entryAddr_avoids _ _
        · exact avoids_error (by decide)

theorem freeTree_avoids (depth addr : Nat) : Avoids .unlinkNlink (freeTree depth fs addr) := by
  induction depth generalizing fs addr with
  | zero => exact fs.bfree_avoids addr
  | succ depth ih =>
    refine (avoids_foldlM (fun fs j => ?_) _ _).bind fun fs _ => fs.bfree_avoids addr
    dsimp only
    split
    · exact avoids_ok _
    · exact ih fs _

theorem truncSlot_avoids (slot : Fin naddrs) (depth : Nat) :
    Avoids .unlinkNlink (truncSlot ip fs slot depth) := by
  unfold truncSlot
  dsimp only
  split
  · exact avoids_ok _
  · exact (fs.freeTree_avoids depth _).bind fun _ _ => avoids_ok _

theorem itrunc_avoids : Avoids .unlinkNlink (fs.itrunc ip) := by
  refine (avoids_foldlM (fun fs slot => fs.truncSlot_avoids ip slot 0) _ _).bind fun fs _ => ?_
  refine (fs.truncSlot_avoids ip 10 1).bind fun fs _ => ?_
  refine (fs.truncSlot_avoids ip 11 2).bind fun fs _ => ?_
  exact (fs.truncSlot_avoids ip 12 3).bind fun _ _ => avoids_ok _

theorem iput_avoids : Avoids .unlinkNlink (fs.iput ip) := by
  unfold iput
  dsimp only
  split
  · exact (fs.itrunc_avoids ip).bind fun _ _ => avoids_ok _
  · exact avoids_ok _

theorem iget_avoids (inum : Nat) : Avoids .unlinkNlink (fs.iget inum) := by
  unfold iget
  split
  · exact avoids_ok _
  · split
    · exact avoids_error (by decide)
    · exact avoids_ok _

theorem ilock_avoids : Avoids .unlinkNlink (fs.ilock ip) := by
  unfold ilock
  dsimp only
  split
  · exact avoids_error (by decide)
  · split
    · exact avoids_ok _
    · split
      · exact avoids_error (by decide)
      · split
        · exact avoids_error (by decide)
        · exact avoids_ok _

theorem readLoop_avoids (fuel off n : Nat) : Avoids .unlinkNlink (readLoop ip fuel fs off n) := by
  induction fuel generalizing fs off n with
  | zero => exact avoids_ok _
  | succ fuel ih =>
    unfold readLoop
    split
    · exact avoids_ok _
    · refine (fs.bmap_avoids ip _).bind fun r _ => ?_
      exact (ih r.1 _ _).bind fun _ _ => avoids_ok _

theorem readi_avoids (off n : Nat) : Avoids .unlinkNlink (fs.readi ip off n) := by
  unfold readi
  dsimp only
  split
  · exact avoids_ok _
  · split
    · exact avoids_ok _
    · exact (fs.readLoop_avoids ip _ _ _).bind fun _ _ => avoids_ok _

theorem readDirent_avoids (off : Nat) {short : Panic} (h : short ≠ .unlinkNlink) :
    Avoids .unlinkNlink (fs.readDirent dp off short) := by
  refine (fs.readi_avoids dp off direntSize).bind fun r _ => ?_
  dsimp only
  split
  · split
    · exact avoids_ok _
    · exact avoids_error h
  · exact avoids_error h

theorem writeLoop_avoids (fuel off : Nat) (src : List UInt8) :
    Avoids .unlinkNlink (writeLoop ip fuel fs off src) := by
  induction fuel generalizing fs off src with
  | zero => exact avoids_ok _
  | succ fuel ih =>
    unfold writeLoop
    split
    · exact avoids_ok _
    · exact (fs.bmap_avoids ip _).bind fun r _ => ih _ _ _

theorem writei_avoids (src : List UInt8) (off : Nat) :
    Avoids .unlinkNlink (fs.writei ip src off) := by
  unfold writei
  dsimp only
  split
  · exact avoids_ok _
  · split
    · exact avoids_ok _
    · split
      · exact avoids_ok _
      · refine (fs.writeLoop_avoids ip _ _ _).bind fun _ _ => ?_
        split <;> exact avoids_ok _

theorem writeDirent_avoids (de : List UInt8) (off : Nat) {short : Panic}
    (h : short ≠ .unlinkNlink) : Avoids .unlinkNlink (fs.writeDirent dp de off short) := by
  refine (fs.writei_avoids dp de off).bind fun r _ => ?_
  dsimp only
  split
  · exact avoids_ok _
  · exact avoids_error h

theorem lookupLoop_avoids (name : Name) (fuel off : Nat) :
    Avoids .unlinkNlink (lookupLoop dp name fuel fs off) := by
  induction fuel generalizing fs off with
  | zero => exact avoids_ok _
  | succ fuel ih =>
    unfold lookupLoop
    split
    · exact avoids_ok _
    · refine (fs.readDirent_avoids dp off (by decide)).bind fun r _ => ?_
      dsimp only
      split
      · exact avoids_ok _
      · exact ih r.1 _

theorem dirlookup_avoids (name : Name) : Avoids .unlinkNlink (fs.dirlookup dp name) := by
  unfold dirlookup
  split
  · exact avoids_error (by decide)
  · refine (fs.lookupLoop_avoids dp name _ _).bind fun r _ => ?_
    dsimp only
    split
    · exact avoids_ok _
    · exact (r.1.iget_avoids _).bind fun _ _ => avoids_ok _

theorem walk_avoids (parent : Bool) (names : List Name) :
    Avoids .unlinkNlink (walk parent names fs ip) := by
  induction names generalizing fs ip with
  | nil =>
    unfold walk
    split
    · exact (fs.iput_avoids ip).bind fun _ _ => avoids_ok _
    · exact avoids_ok _
  | cons name names ih =>
    refine (fs.ilock_avoids ip).bind fun fs _ => ?_
    split
    · exact (fs.iput_avoids ip).bind fun _ _ => avoids_ok _
    · split
      · exact avoids_ok _
      · refine (fs.dirlookup_avoids ip name).bind fun r _ => ?_
        refine (r.1.iput_avoids ip).bind fun fs _ => ?_
        split
        · exact avoids_ok _
        · exact ih fs _

theorem namex_avoids (cwd : Iref) (path : Name) (parent : Bool) :
    Avoids .unlinkNlink (fs.namex cwd path parent) := by
  unfold namex
  dsimp only
  split
  · exact (fs.iget_avoids rootino).bind fun r _ => r.1.walk_avoids r.2 parent _
  · exact (fs.idup cwd).walk_avoids cwd parent _

theorem emptyFrom_avoids (fuel off : Nat) : Avoids .unlinkNlink (emptyFrom dp fuel fs off) := by
  induction fuel generalizing fs off with
  | zero => exact avoids_ok _
  | succ fuel ih =>
    unfold emptyFrom
    split
    · exact avoids_ok _
    · refine (fs.readDirent_avoids dp off (by decide)).bind fun r _ => ?_
      dsimp only
      split
      · exact avoids_ok _
      · exact ih r.1 _

end Fs

end Xv6

import Xv6.Fs.LinkCreate
import Xv6.Fs.Layout

/-! The link counts of the image that `mkfs` writes. The root is its only directory, and each
host file has a name there. -/
namespace Xv6

open Word BlockTree Fallible LinkGraph

namespace Image

variable {img img' : Image} {inum n : Nat} {due : Nat → Int} {file : Name × List UInt8}

theorem mount_byteOf (img : Image) (inum i : Nat) :
    img.mount.byteOf inum i = byteOf img.dinode img.data inum i := rfl

theorem Good.iappend_alters {p : List UInt8} (h : img.Good) (halloc : Allocated img.dinode inum)
    (hok : img.iappend inum p = .ok img') (hbound : img'.freeblock ≤ bpb) :
    Fs.Alters img.mount img'.mount inum := by
  have hframe := iappend_frame hok
  refine ⟨fun i hi => ⟨hframe.others i hi, fun j _ => ?_⟩, hframe.type, hframe.nlink⟩
  rw [mount_byteOf, mount_byteOf, h.byteOf_iappend halloc hok hbound, if_neg fun hall => hi hall.1]

theorem Good.iappend_writes {de : Dirent} (h : img.Good) (halloc : Allocated img.dinode inum)
    (hsize : (img.dinode inum).size = direntSize * n) (hsmall : de.inum < 65536)
    (hok : img.iappend inum de.encode = .ok img') (hbound : img'.freeblock ≤ bpb) :
    Fs.Writes img.mount img'.mount inum n ⟨de.inum, strncpy dirsiz de.name⟩ := by
  have hframe := iappend_frame hok
  have hbyte := h.byteOf_iappend halloc hok hbound
  rw [hsize, Dirent.length_encode] at hbyte
  refine ⟨h.iappend_alters halloc hok hbound, ?_, ?_, fun k hk hin => ?_⟩
  · have hlen := hframe.size
    rw [Dirent.length_encode] at hlen
    change (img'.dinode inum).size = max (img.dinode inum).size _
    omega
  · rw [← decode_encode hsmall, Fs.dirent]
    congr 1
    apply List.ext_getElem
    · rw [List.length_map, List.length_range, Dirent.length_encode]
    · intro j hj hj'
      rw [List.length_map, List.length_range] at hj
      rw [List.getElem_map, List.getElem_range, mount_byteOf, hbyte,
        if_pos ⟨rfl, by omega, by omega⟩, Nat.add_sub_cancel_left, List.getD_eq_getElem _ _ hj']
  · unfold Fs.dirent
    congr 1
    apply List.map_congr_left
    intro j hj
    have hj := List.mem_range.mp hj
    have hin : direntSize * k + direntSize ≤ (img.dinode inum).size := hin
    rw [mount_byteOf, mount_byteOf, hbyte, if_neg]
    simp only [direntSize] at *
    omega

def Blank (img : Image) : Prop :=
  ∀ i, (img.dinode rootino).size ≤ i → byteOf img.dinode img.data rootino i = 0

theorem Good.blank_iappend {p : List UInt8} (h : img.Good) (halloc : Allocated img.dinode inum)
    (hblank : img.Blank) (hok : img.iappend inum p = .ok img') (hbound : img'.freeblock ≤ bpb) :
    img'.Blank := by
  have hframe := iappend_frame hok
  intro i hi
  rw [h.byteOf_iappend halloc hok hbound]
  by_cases hroot : rootino = inum
  · rw [← hroot] at hframe ⊢
    rw [hframe.size] at hi
    rw [if_neg (by omega)]
    exact hblank i (by omega)
  · rw [if_neg fun hall => hroot hall.1]
    rw [hframe.others _ hroot] at hi
    exact hblank i hi

theorem Good.appendFile_alters {fuel : Nat} {bytes : List UInt8} (h : img.Good)
    (halloc : Allocated img.dinode inum) (hblank : img.Blank)
    (hok : Image.appendFile inum fuel img bytes = .ok img') (hbound : img'.freeblock ≤ bpb) :
    Fs.Alters img.mount img'.mount inum ∧ img'.Blank := by
  induction fuel generalizing img bytes with
  | zero =>
    cases Except.ok.inj hok
    exact ⟨.refl _ _, hblank⟩
  | succ fuel ih =>
    unfold Image.appendFile at hok
    split at hok
    · cases Except.ok.inj hok
      exact ⟨.refl _ _, hblank⟩
    · obtain ⟨img1, hfirst, hrest⟩ := bind_eq_ok.mp hok
      obtain ⟨m, hframe⟩ := appendFile_frame hrest
      have hbound1 := hframe.freeblock.trans hbound
      obtain ⟨halters, hblank'⟩ := ih (h.iappend halloc hfirst hbound1)
        ((iappend_frame hfirst).allocated halloc) (h.blank_iappend halloc hblank hfirst hbound1)
        hrest
      exact ⟨(h.iappend_alters halloc hfirst hbound1).trans halters, hblank'⟩

structure Named (img : Image) (n : Nat) : Prop extends Rooted img n where
  exact : img.mount.Exact
  blank : img.Blank

theorem Named.attached (h : img.Named n) : img.mount.Attached rootino := by
  rw [← Fs.parent_ne_none, h.exact.shaped.top]
  exact Option.some_ne_none rootino

theorem Good.ialloc_makes {type : FileType} (h : img.Good)
    (hok : img.ialloc type = .ok (img', inum)) :
    Fs.Makes img.mount img'.mount inum { Dinode.zero with type, nlink := 1 } ∧
      img'.data = img.data := by
  obtain ⟨-, hinum, -, -, -, hdinode⟩ := h.ialloc hok
  have hdata : img'.data = img.data := by
    unfold Image.ialloc at hok
    dsimp only at hok
    split at hok
    · cases hok
    · cases Except.ok.inj hok
      rfl
  refine ⟨⟨h.spare inum hinum.ge, fun i hi => Fs.sameFile_of_eq ?_ hdata, ?_⟩, hdata⟩
  · change img'.dinode i = img.dinode i
    rw [hdinode, Function.update_of_ne hi]
  · change img'.dinode inum = _
    rw [hdinode, Function.update_self]

theorem Rooted.blank_ialloc {type : FileType} (h : img.Rooted n) (hblank : img.Blank)
    (hok : img.ialloc type = .ok (img', inum)) : img'.Blank := by
  obtain ⟨-, hroot, -⟩ := h.ialloc hok
  intro i hi
  rw [hroot] at hi
  have hsame : img'.mount.byteOf rootino = img.mount.byteOf rootino :=
    Fs.byteOf_congr hroot (h.toGood.ialloc_makes hok).2
  exact (congrFun hsame i).trans (hblank i hi)

theorem Named.addFile (h : img.Named n) (hdot : namecmp (entryName file.1) dot = false)
    (hdotdot : namecmp (entryName file.1) dotdot = false) (hok : img.addFile file = .ok img')
    (hbound : img'.freeblock ≤ bpb) : img'.Named (n + 1) := by
  have hrooted := h.toRooted.addFile hok hbound
  obtain ⟨img1, img2, inum, halloc, hentry, hfile⟩ := addFile_steps hok
  obtain ⟨hgood1, hinum, hnext, harea, -, hdinode⟩ := h.toGood.ialloc halloc
  obtain ⟨hne, hroot, hrooted1⟩ := h.toRooted.ialloc halloc
  obtain ⟨hmakes, -⟩ := h.toGood.ialloc_makes halloc
  obtain ⟨m, hframe⟩ := appendFile_frame hfile
  have hbound2 := hframe.freeblock.trans hbound
  have hlater := h.next
  have hnz : inum ≠ 0 := by omega
  have hrootAlloc := hrooted1.root
  have hsize := hrooted1.entries
  have hsmall : inum < 65536 := by
    simp only [inodeArea] at harea
    omega
  -- the new inode has a link and no name yet
  have hlinked1 := hmakes.linked h.exact hnz harea (by decide) (by decide) rfl
  have hattached1 : img1.mount.Attached rootino :=
    (hmakes.others _ hne).attached.mpr h.attached
  have hleaf1 : ¬ img1.mount.IsDir inum := fun hdir => by
    have htype := hdir.2
    rw [hmakes.dinode] at htype
    cases htype
  have hblank1 := h.toRooted.blank_ialloc h.blank halloc
  -- the name
  have hwrites := hgood1.iappend_writes hrootAlloc hsize hsmall hentry hbound2
  have htwo : 2 ≤ n := by
    have hin := (hlinked1.dirs.proper _ hattached1.1).dotdot.1.1
    have hin : direntSize * 1 + direntSize ≤ (img1.dinode rootino).size := hin
    simp only [direntSize] at *
    omega
  have hfree : ¬ img1.mount.Uses rootino n := fun huses => by
    have hin : direntSize * n + direntSize ≤ (img1.dinode rootino).size := huses.1
    simp only [direntSize] at *
    omega
  have hlinked2 : img2.mount.Exact := by
    refine (hwrites.enter (.inr hsize) hlinked1 hattached1 htwo hfree ?_ hnz hleaf1).congr
      fun m => ?_
    · dsimp only
      rw [namecmp_stored, namecmp_stored]
      exact ⟨hdot, hdotdot⟩
    · rw [Fs.OneMore]
      dsimp only
      omega
  have hblank2 := hgood1.blank_iappend hrootAlloc hblank1 hentry hbound2
  -- the bytes
  have halloc1 : Allocated img1.dinode inum := by
    refine ⟨harea, ?_⟩
    rw [hdinode, Function.update_self]
    decide
  obtain ⟨halters, hblank⟩ := (hgood1.iappend hrootAlloc hentry hbound2).appendFile_alters
    ((iappend_frame hentry).allocated halloc1) hblank2 hfile hbound
  exact ⟨hrooted, halters.linked ((hwrites.isDir inum).not.mpr hleaf1) hlinked2, hblank⟩

theorem Named.addFiles {files : List (Name × List UInt8)} (h : img.Named n)
    (hnames : ∀ file ∈ files, namecmp (entryName file.1) dot = false ∧
      namecmp (entryName file.1) dotdot = false)
    (hok : files.foldlM Image.addFile img = .ok img') (hbound : img'.freeblock ≤ bpb) :
    img'.Named (n + files.length) := by
  induction files generalizing img n with
  | nil =>
    cases Except.ok.inj hok
    exact h
  | cons file files ih =>
    rw [List.foldlM_cons] at hok
    obtain ⟨img1, hfirst, hrest⟩ := bind_eq_ok.mp hok
    obtain ⟨hdot, hdotdot⟩ := hnames file List.mem_cons_self
    have hnamed := ih (h.addFile hdot hdotdot hfirst ((addFiles_le hrest).trans hbound))
      (fun f hf => hnames f (List.mem_cons_of_mem file hf)) hrest
    rw [List.length_cons]
    rwa [Nat.add_assoc, Nat.add_comm 1] at hnamed

end Image

namespace Fs

variable {fs fs' : Fs} {due : Nat → Int}

theorem exact_lone (hroot : fs.IsDir rootino) (hnlink : (fs.dinode rootino).nlink = 1)
    (hother : ∀ i, i ≠ rootino → (fs.dinode i).type = .free)
    (hsize : (fs.dinode rootino).size = direntSize * 2)
    (hdot : fs.dirent rootino 0 = ⟨rootino, strncpy dirsiz dot⟩)
    (hdotdot : fs.dirent rootino 1 = ⟨rootino, strncpy dirsiz dotdot⟩) : fs.Exact := by
  have hisdir : ∀ d, fs.IsDir d → d = rootino := fun d hdir => by
    by_contra hd
    have htype := hdir.2
    rw [hother d hd] at htype
    cases htype
  have hattached : fs.Attached rootino := ⟨hroot, by rw [hnlink]; decide⟩
  have huses : ∀ e, fs.Uses rootino e → e < 2 := fun e he => by
    have hin := he.1
    rw [hsize] at hin
    simp only [direntSize] at hin
    omega
  have hgraph : fs.graph = lone rootino := by
    apply graph_eq
    · intro i
      simp only [lone]
      split
      · rename_i hi
        rw [hi, links_of_allocated hroot.allocated, hnlink]
      · rename_i hi
        exact links_of_free (hother i hi)
    · intro d e
      refine if_neg fun hall => ?_
      have hd := hisdir d hall.1.1
      subst hd
      have hlt := huses e hall.2.2
      have hge := hall.2.1
      dsimp only at hge
      omega
    · intro d
      simp only [lone]
      split
      · rename_i hd
        rw [hd, parent_of_attached hattached, hdotdot]
      · rename_i hd
        exact if_neg fun hall => hd (hisdir d hall.1)
  refine ⟨?_, ?_, fun d hdir => ?_, hother 0 (by decide), fun i halloc => ?_⟩
  · rw [hgraph]
    exact counted_lone rootino
  · rw [hgraph]
    exact shaped_lone rootino
  · rw [hisdir d hdir]
    refine ⟨⟨⟨?_, ?_⟩, ?_⟩, ⟨⟨?_, ?_⟩, ?_⟩, fun e he hin => ?_,
      fun hzero => absurd hzero hattached.2⟩
    · rw [hsize]
      decide
    · rw [hdot]
      decide
    · rw [hdot]
      decide
    · rw [hsize]
      decide
    · rw [hdotdot]
      decide
    · rw [hdotdot]
      decide
    · have := huses e hin
      omega
  · have hi : i = rootino := by
      by_contra hi
      exact halloc.2 (hother i hi)
    rw [hi, hnlink]
    decide

theorem Alters.linked_uses {n : Nat} (h : Alters fs fs' n)
    (huses : ∀ e, fs'.Uses n e ↔ fs.Uses n e) (hdirent : ∀ e, fs'.dirent n e = fs.dirent n e)
    (hlinked : fs.Linked due) : fs'.Linked due := by
  have hgraph : fs'.graph = fs.graph := by
    apply graph_eq
    · exact h.links
    · intro d e
      by_cases hd : d = n
      · subst hd
        refine if_congr (and_congr (h.attached d) (and_congr_right fun _ => huses e)) ?_ rfl
        rw [hdirent]
      · exact ((h.others d hd).node (hlinked.dirs.proper d)).entry e
    · intro d
      by_cases hd : d = n
      · subst hd
        refine if_congr (h.attached d) ?_ rfl
        rw [hdirent]
      · exact ((h.others d hd).node (hlinked.dirs.proper d)).parent
  refine ⟨hgraph ▸ hlinked.counted, hgraph ▸ hlinked.shaped, h.dirs hlinked.dirs fun hdir => ?_⟩
  obtain ⟨hdot, hdotdot, hnames, hremoved⟩ := hlinked.dirs.proper n hdir
  refine ⟨?_, ?_, fun e he hin => ?_, fun hzero e he hin => ?_⟩
  · rw [huses, hdirent]
    exact hdot
  · rw [huses, hdirent]
    exact hdotdot
  · rw [hdirent]
    exact hnames e he ((huses e).mp hin)
  · rw [h.nlink] at hzero
    exact hremoved hzero e he ((huses e).mp hin)

end Fs

namespace Image

variable {img img' : Image} {n : Nat}

theorem rooted_blank {root : Nat} (hroot : zeroes.ialloc .dir = .ok (img, root)) : img.Blank := by
  obtain ⟨-, -, -, -, -, hdinode⟩ := good_zeroes.ialloc hroot
  have haddrs : ∀ inum slot, (img.dinode inum).addrs slot = 0 := by
    intro inum slot
    rw [hdinode]
    by_cases hi : inum = root
    · rw [hi, Function.update_self]
      rfl
    · rw [Function.update_of_ne hi]
      rfl
  intro i _
  have hzero : ∀ p js, (volumeOf img.dinode img.data).block p js = 0 := by
    intro p js
    have hroot : (volumeOf img.dinode img.data).root p = 0 := by
      simp only [volumeOf]
      split
      · exact haddrs p.1 p.2
      · rfl
    rw [Forest.block, hroot, follow_zero]
  unfold byteOf
  cases place (i / bsize) with
  | none => rfl
  | some p => exact if_pos (hzero _ _)

theorem named_dots {img0 img1 : Image} {root : Nat} (hroot : zeroes.ialloc .dir = .ok (img0, root))
    (hdot : img0.iappend root (Dirent.encode ⟨root, dot⟩) = .ok img1)
    (hdotdot : img1.iappend root (Dirent.encode ⟨root, dotdot⟩) = .ok img)
    (hbound : img.freeblock ≤ bpb) : img.Named 2 := by
  have hblank := rooted_blank hroot
  obtain ⟨h0, rfl⟩ := rooted_new hroot
  obtain ⟨-, -, -, -, -, hdinode⟩ := good_zeroes.ialloc hroot
  have hbound1 := (iappend_frame hdotdot).freeblock.trans hbound
  have h1 := h0.entry hdot hbound1
  have h2 := h1.entry hdotdot hbound
  have hwrites1 := h0.toGood.iappend_writes h0.root h0.entries (by decide) hdot hbound1
  have hwrites2 := h1.toGood.iappend_writes h1.root h1.entries (by decide) hdotdot hbound
  have hself : img0.dinode rootino = { Dinode.zero with type := .dir, nlink := 1 } := by
    rw [hdinode, Function.update_self]
  refine ⟨h2, Fs.exact_lone ⟨h2.root.1, ?_⟩ ?_ (fun i hi => ?_) h2.entries ?_ hwrites2.here, ?_⟩
  · rw [hwrites2.type, hwrites1.type]
    exact congrArg Dinode.type hself
  · rw [hwrites2.nlink, hwrites1.nlink]
    exact congrArg Dinode.nlink hself
  · rw [(hwrites2.others i hi).dinode, (hwrites1.others i hi).dinode]
    change (img0.dinode i).type = .free
    rw [hdinode, Function.update_of_ne hi]
    rfl
  · rw [hwrites2.there 0 (by decide) (by rw [hwrites1.size]; exact le_max_right _ _), hwrites1.here]
  · exact h1.toGood.blank_iappend h1.root
      (h0.toGood.blank_iappend h0.root hblank hdot hbound1) hdotdot hbound

theorem fixRoot_byteOf (img : Image) : img.fixRoot.mount.byteOf = img.mount.byteOf := by
  have hsize := byteOf_size img.dinode img.data rootino
    (((img.dinode rootino).size / bsize + 1) * bsize) (img.dinode rootino)
  rw [Function.update_eq_self] at hsize
  exact hsize

theorem fixRoot_root (img : Image) : img.fixRoot.mount.dinode rootino = { img.dinode rootino with
    size := ((img.dinode rootino).size / bsize + 1) * bsize } :=
  Function.update_self rootino _ img.dinode

theorem fixRoot_alters (img : Image) : Fs.Alters img.mount img.fixRoot.mount rootino := by
  refine ⟨fun i hi => ⟨Function.update_of_ne hi .., fun j _ => by rw [fixRoot_byteOf]⟩, ?_, ?_⟩
  · rw [fixRoot_root]
    rfl
  · rw [fixRoot_root]
    rfl

theorem fixRoot_dirent (img : Image) (e : Nat) :
    img.fixRoot.mount.dirent rootino e = img.mount.dirent rootino e := by
  unfold Fs.dirent
  rw [fixRoot_byteOf]

theorem Rooted.fixRoot_uses (h : img.Rooted n) (hblank : img.Blank) (e : Nat) :
    img.fixRoot.mount.Uses rootino e ↔ img.mount.Uses rootino e := by
  have hsize : (img.fixRoot.mount.dinode rootino).size =
      ((img.dinode rootino).size / bsize + 1) * bsize := by rw [fixRoot_root]
  have hentries := h.entries
  unfold Fs.Uses
  rw [fixRoot_dirent, hsize]
  refine ⟨fun ⟨_, hne⟩ => ⟨?_, hne⟩, fun ⟨hin, hne⟩ => ⟨?_, hne⟩⟩
  · -- an entry behind the end is made of zeroes
    by_contra hend
    have hend : ¬ direntSize * e + direntSize ≤ (img.dinode rootino).size := hend
    have hpast : (img.dinode rootino).size ≤ direntSize * e := by
      simp only [direntSize] at *
      omega
    apply hne
    unfold Fs.dirent
    have hzero : (List.range direntSize).map
        (fun i => img.mount.byteOf rootino (direntSize * e + i)) =
        List.replicate direntSize 0 := by
      apply List.ext_getElem
      · simp
      · intro i _ _
        rw [List.getElem_map, List.getElem_range, List.getElem_replicate]
        exact hblank _ (by omega)
    rw [hzero]
    exact Fs.decode_zeroes
  · have hin : direntSize * e + direntSize ≤ (img.dinode rootino).size := hin
    simp only [bsize] at *
    omega

theorem Named.fixRoot (h : img.Named n) : img.fixRoot.mount.Exact :=
  (fixRoot_alters img).linked_uses (h.toRooted.fixRoot_uses h.blank) (fixRoot_dirent img) h.exact

end Image

theorem exact_mkfs {files : List (Name × List UInt8)} {fs : Fs}
    (hnames : ∀ file ∈ files, namecmp (Image.entryName file.1) dot = false ∧
      namecmp (Image.entryName file.1) dotdot = false) (hok : mkfs files = .ok fs) : fs.Exact := by
  obtain ⟨img, root, img1, img2, img3, hroot, hdot, hdotdot, hadd, hbound, rfl⟩ := mkfs_steps hok
  have hdots := Image.named_dots hroot hdot hdotdot ((Image.addFiles_le hadd).trans hbound)
  exact (hdots.addFiles hnames hadd hbound).fixRoot

end Xv6

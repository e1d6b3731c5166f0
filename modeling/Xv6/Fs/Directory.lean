import Xv6.Fs.DirMap
import Xv6.Fs.LinkImage

/-! Directories along every run. The calls on a directory get through where there is room for
what they need, and they are the operations of a finite map. -/
namespace Xv6

open Word BlockTree Transition Fallible

namespace Fs

variable {fs fs' : Fs} {ip dp : Iref} {held : List Iref} {d e inum : Nat} {name : Name}

section

variable (h : fs.Calm) (hloaded : fs.Loaded dp) (hdir : (fs.din dp).type = .dir)
include h hloaded hdir

theorem Calm.readDirent_ok (hin : direntSize * e + direntSize ≤ (fs.din dp).size)
    (short : Panic) : fs.readDirent dp (direntSize * e) short =
      .ok (fs, fs.dirent (fs.icache dp).inum e) := by
  obtain ⟨halloc, hsynced⟩ := h.loaded dp hloaded
  have hsized : (fs.din dp).size ≤ maxfile * bsize := hsynced ▸ h.sized _ halloc
  obtain ⟨a, hread⟩ := (h.mapped_file hloaded).readi_ok hsized (direntSize * e) direntSize
  obtain ⟨-, rfl⟩ := readi_spec (h.sound hloaded) hread
  have hwrap : u32 (direntSize * e + direntSize) = direntSize * e + direntSize := by
    apply Nat.mod_eq_of_lt
    simp only [maxfile, bsize] at hsized
    omega
  have hbytes : (fs.file dp).readi (direntSize * e) direntSize =
      .done ((fs.file dp).bytes (direntSize * e) direntSize) := by
    have htype : (fs.file dp).type = (fs.din dp).type := rfl
    have hsize : (fs.file dp).size = (fs.din dp).size := rfl
    unfold FileState.readi
    rw [htype, hdir, hsize, if_neg (by decide), hwrap, if_neg (by omega), if_neg (by omega)]
  unfold Fs.readDirent
  rw [hread, hbytes]
  dsimp only [bind, Except.bind]
  rw [if_pos (FileState.length_bytes ..), ← h.dirent_eq hloaded]
  rfl

theorem Calm.scans_ok {α : Type} {short : Panic} {stop : Dirent → Prop} [DecidablePred stop]
    {hit : Nat → Dirent → α} {miss : Nat → α} {loop : Nat → Fs → Nat → Except Panic (Fs × α)}
    (hscans : Scans dp short stop hit miss loop) (hwhole : direntSize ∣ (fs.din dp).size)
    (fuel e : Nat) : ∃ a, loop fuel fs (direntSize * e) = .ok (fs, a) := by
  induction fuel generalizing e with
  | zero => exact ⟨_, hscans.zero fs _⟩
  | succ fuel ih =>
    rw [hscans.succ]
    split
    · exact ⟨_, rfl⟩
    · have hin : direntSize * e + direntSize ≤ (fs.din dp).size := by
        simp only [direntSize] at *
        omega
      rw [h.readDirent_ok hloaded hdir hin]
      dsimp only [bind, Except.bind]
      split
      · exact ⟨_, rfl⟩
      · rw [← Nat.mul_succ]
        exact ih (e + 1)

end

def Cachable (fs : Fs) (i : Nat) : Prop :=
  ∃ ip, (fs.icache ip).ref = 0 ∨ (fs.icache ip).inum = i

theorem iget_ok (h : fs.Cachable inum) : ∃ fs' ip, fs.iget inum = .ok (fs', ip) := by
  obtain ⟨ip, hip⟩ := h
  unfold Fs.iget
  split
  · exact ⟨_, _, rfl⟩
  · rename_i hnone
    split
    · rename_i hfull
      have hfull := List.find?_eq_none.mp hfull ip (List.mem_finRange ip)
      have hnone := List.find?_eq_none.mp hnone ip (List.mem_finRange ip)
      simp only [beq_iff_eq, Bool.and_eq_true, decide_eq_true_eq] at hfull hnone
      exact absurd ⟨by omega, hip.resolve_left hfull⟩ hnone
    · exact ⟨_, _, rfl⟩

def HasRoom (fs : Fs) (dp : Iref) : Prop :=
  (∃ e, direntSize * e + direntSize ≤ (fs.din dp).size ∧
    (fs.dirent (fs.icache dp).inum e).inum = 0) ∨
  (fs.din dp).size + direntSize ≤ maxfile * bsize ∧
    ((fs.tree dp).missing (span (fs.din dp).size direntSize)).card ≤ fs.freeBlocks

theorem Mapped.missing_span {off n : Nat} (h : fs.Mapped ip (off + n)) :
    (fs.tree ip).missing (span off n) = ∅ := by
  apply Finset.filter_eq_empty_iff.mpr
  rintro ⟨slot, js⟩ hmem hzero
  obtain ⟨bn, hbn, hmem⟩ := Finset.mem_biUnion.mp hmem
  have hhigh := (Finset.mem_Ico.mp hbn).2
  cases hplace : place bn with
  | none =>
    rw [path, hplace] at hmem
    cases hmem
  | some p =>
    rw [path_eq hplace] at hmem
    obtain ⟨rfl, ks, hks⟩ := mem_nodes.mp hmem
    have hmapped := h bn p hplace (by simp only [bsize] at *; omega)
    dsimp only at hks hzero
    rw [← hks, Forest.block, follow_append] at hmapped
    rw [Forest.block] at hzero
    rw [hzero, follow_zero] at hmapped
    exact hmapped rfl

theorem Calm.writeDirent_ok {bytes : List UInt8} (h : fs.Calm) (hloaded : fs.Loaded dp)
    (hdir : (fs.din dp).type = .dir) (hlen : bytes.length = direntSize)
    (hoff : direntSize * e ≤ (fs.din dp).size)
    (hmax : direntSize * e + direntSize ≤ maxfile * bsize)
    (hroom : ((fs.tree dp).missing (span (direntSize * e) direntSize)).card ≤ fs.freeBlocks)
    (short : Panic) : ∃ fs', fs.writeDirent dp bytes (direntSize * e) short = .ok fs' := by
  obtain ⟨fs', hwrite, -⟩ := writei_ok (h.sound hloaded) (by rw [hdir]; decide) hoff
    (by rw [hlen]; exact hmax) (room_span hroom)
    fun bn hlow hhigh => path_subset_span hlow (hlen ▸ hhigh)
  refine ⟨fs', ?_⟩
  unfold Fs.writeDirent
  rw [hwrite, hlen]
  rfl

section

variable (h : fs.Holding held) (hloaded : fs.Loaded dp) (hdir : (fs.din dp).type = .dir)
  (htidy : fs.Tidy)
include h hloaded hdir htidy

theorem Holding.dirlookup_ok
    (hcache : ∀ i, fs.resolve (fs.icache dp).inum name = some i → fs.Cachable i) :
    ∃ fs' found, fs.dirlookup dp name = .ok (fs', found) := by
  obtain ⟨halloc, hsynced⟩ := h.loaded dp hloaded
  have hisdir : fs.IsDir (fs.icache dp).inum := ⟨halloc.1, hsynced ▸ hdir⟩
  have hwhole : direntSize ∣ (fs.din dp).size := hsynced ▸ htidy.whole _ hisdir
  obtain ⟨a, hloop⟩ := h.toCalm.scans_ok hloaded hdir (scans_lookupLoop dp name) hwhole
    ((fs.din dp).size / direntSize + 1) 0
  obtain ⟨k, -, -, hends⟩ :=
    (scans_lookupLoop dp name).ends h.toCalm hloaded (by omega) hloop
  unfold Fs.dirlookup
  rw [if_neg (not_not.mpr hdir)]
  rw [Nat.mul_zero] at hloop
  rcases hends with ⟨hin, hstop, rfl⟩ | ⟨-, rfl⟩
  · rw [hsynced] at hin
    have hresolve := (resolve_eq_some (htidy.unique _ hisdir)).mpr
      ⟨k, ⟨hin, hstop.1⟩, hstop.2, rfl⟩
    obtain ⟨fs', ip, hget⟩ := iget_ok (hcache _ hresolve)
    rw [hloop]
    dsimp only [bind, Except.bind]
    rw [hget]
    exact ⟨_, _, rfl⟩
  · rw [hloop]
    exact ⟨_, _, rfl⟩

theorem Holding.dirlink_ok (inum : Nat)
    (hcache : ∀ i, fs.resolve (fs.icache dp).inum name = some i → fs.Cachable i)
    (hroom : fs.resolve (fs.icache dp).inum name = none → fs.HasRoom dp) :
    ∃ fs' r, fs.dirlink dp name inum = .ok (fs', r) := by
  obtain ⟨fs1, found, hlookup⟩ := h.dirlookup_ok hloaded hdir htidy hcache
  have hresolve := h.dirlookup_resolve hloaded htidy hlookup
  unfold Fs.dirlink
  rw [hlookup]
  dsimp only [bind, Except.bind]
  cases found with
  | some found =>
    obtain ⟨fs2, hput, -⟩ := iput_spare (dirlookup_spare h.toCalm hloaded hlookup).1
    dsimp only
    rw [hput]
    exact ⟨_, _, rfl⟩
  | none =>
    obtain ⟨-, -, rfl, -⟩ := h.dirlookup_eq hloaded hlookup
    obtain ⟨halloc, hsynced⟩ := h.loaded dp hloaded
    have hsized : (fs1.din dp).size ≤ maxfile * bsize := hsynced ▸ h.sized _ halloc
    have hwhole : direntSize ∣ (fs1.din dp).size :=
      hsynced ▸ htidy.whole _ ⟨halloc.1, hsynced ▸ hdir⟩
    obtain ⟨off, hempty⟩ := h.toCalm.scans_ok hloaded hdir (scans_emptyLoop dp) hwhole
      ((fs1.din dp).size / direntSize + 1) 0
    obtain ⟨k, -, hbefore, hends⟩ :=
      (scans_emptyLoop dp).ends h.toCalm hloaded (by omega) hempty
    rw [Nat.mul_zero] at hempty
    dsimp only
    rw [hempty]
    dsimp only
    have hwrite : off = direntSize * k ∧ direntSize * k ≤ (fs1.din dp).size ∧
        direntSize * k + direntSize ≤ maxfile * bsize ∧
        ((fs1.tree dp).missing (span (direntSize * k) direntSize)).card ≤ fs1.freeBlocks := by
      rcases hends with ⟨hin, -, rfl⟩ | ⟨hend, rfl⟩
      · have hmapped : fs1.Mapped dp (direntSize * k + direntSize) := fun bn p hplace hbn =>
          h.toCalm.mapped_file hloaded bn p hplace (hbn.trans_le hin)
        refine ⟨rfl, by omega, hin.trans hsized, ?_⟩
        rw [hmapped.missing_span]
        exact Nat.zero_le _
      · -- no entry is empty, so that the directory must grow
        have hsize : (fs1.din dp).size = direntSize * k := by
          by_cases hk : k = 0
          · simp only [direntSize] at *
            omega
          · have hlast := (hbefore (k - 1) (Nat.zero_le _) (by omega)).2
            simp only [direntSize] at *
            omega
        rcases hroom hresolve.symm with ⟨e, hin, hzero⟩ | ⟨hmax, hfree⟩
        · refine absurd hzero (hbefore e (Nat.zero_le e) ?_).1
          simp only [direntSize] at *
          omega
        · rw [hsize] at hmax hfree
          exact ⟨rfl, hsize.ge, hmax, hfree⟩
    obtain ⟨rfl, hoff, hmax, hfree⟩ := hwrite
    obtain ⟨fs2, hwrite⟩ := h.toCalm.writeDirent_ok hloaded hdir
      (Dirent.length_encode ⟨inum, name⟩) hoff hmax hfree .dirlink
    rw [hwrite]
    exact ⟨_, _, rfl⟩

theorem Holding.dirunlink_ok (hdp : dp ∈ held)
    (hcache : ∀ i, fs.resolve (fs.icache dp).inum name = some i → fs.Cachable i) :
    ∃ fs' r, fs.dirunlink dp name = .ok (fs', r) := by
  obtain ⟨fs1, found, hlookup⟩ := h.dirlookup_ok hloaded hdir htidy hcache
  obtain ⟨-, hpasses, hfound⟩ := h.dirlookup_eq hloaded hlookup
  unfold Fs.dirunlink
  rw [hlookup]
  dsimp only [bind, Except.bind]
  cases found with
  | none => exact ⟨_, _, rfl⟩
  | some found =>
    obtain ⟨off, ip⟩ := found
    obtain ⟨e, rfl, hin, -⟩ := hfound
    obtain ⟨h1, hkeeps⟩ := h.dirlookup hloaded hlookup
    obtain ⟨hspare, hdinode, -⟩ := dirlookup_spare h.toCalm hloaded hlookup
    have hloaded1 := hkeeps dp hdp hloaded
    obtain ⟨halloc, hsynced⟩ := h1.loaded dp hloaded1
    have hdin : fs1.din dp = fs.din dp := by
      rw [hsynced, hdinode, hpasses.inums dp hdp, (h.loaded dp hloaded).2]
    have hsized : (fs1.din dp).size ≤ maxfile * bsize := hsynced ▸ h1.sized _ halloc
    rw [← hdin] at hin hdir
    have hmapped : fs1.Mapped dp (direntSize * e + direntSize) := fun bn p hplace hbn =>
      h1.toCalm.mapped_file hloaded1 bn p hplace (hbn.trans_le hin)
    obtain ⟨fs2, hwrite⟩ := h1.toCalm.writeDirent_ok hloaded1 hdir (List.length_replicate ..)
      (by omega) (hin.trans hsized) (by rw [hmapped.missing_span]; exact Nat.zero_le _)
      .unlinkWritei
    obtain ⟨-, hentry⟩ := h1.toCalm.writeDirent_writes hloaded1 (List.length_replicate ..) hwrite
    obtain ⟨fs3, hput, -⟩ := iput_spare (hentry.spare hspare)
    dsimp only
    rw [hwrite]
    dsimp only
    rw [hput]
    exact ⟨_, _, rfl⟩

end

end Fs

namespace Image

variable {img img' : Image} {names : List Name} {file : Name × List UInt8}

/-- The image between two files, with the names that are in the root directory. -/
structure Listed (img : Image) (names : List Name) : Prop extends
    Rooted img names.length where
  distinct : img.mount.Tidy
  rest : img.Blank
  listed : ∀ e, img.mount.Uses rootino e →
    ∃ name ∈ names, namecmp name (img.mount.dirent rootino e).name = true

theorem Listed.enter {de : Dirent} (h : img.Listed names) (hsmall : de.inum < 65536)
    (hde : de.inum ≠ 0) (hnew : ∀ name ∈ names, namecmp name de.name = false)
    (hok : img.iappend rootino de.encode = .ok img') (hbound : img'.freeblock ≤ bpb) :
    img'.Listed (names ++ [de.name]) := by
  have hwrites := h.toGood.iappend_writes h.root h.entries hsmall hok hbound
  have hroom : direntSize * names.length + direntSize ≤ (img.mount.dinode rootino).size ∨
      (img.mount.dinode rootino).size = direntSize * names.length := .inr h.entries
  have hrooted := h.toRooted.entry hok hbound
  rw [← List.length_singleton (a := de.name), ← List.length_append] at hrooted
  refine ⟨hrooted, ?_, h.toGood.blank_iappend h.root h.rest hok hbound, fun e huses => ?_⟩
  · refine h.distinct.alters hwrites.toAlters (fun hdir => ?_)
      fun hdir => hwrites.whole (h.distinct.whole _ hdir)
    rw [hwrites.slots_enter hroom hde, strncpy_strncpy]
    refine (h.distinct.unique _ hdir).enter fun hholds => ?_
    obtain ⟨e, huses, hname⟩ := Fs.holds_iff.mp hholds
    obtain ⟨name, hmem, hname'⟩ := h.listed e huses
    have hsame := namecmp_trans hname' (namecmp_symm hname)
    rw [hnew name hmem] at hsame
    cases hsame
  · by_cases he : e = names.length
    · subst he
      refine ⟨de.name, List.mem_append_right _ List.mem_cons_self, ?_⟩
      rw [hwrites.here, namecmp_iff, strncpy_strncpy]
    · rw [hwrites.uses_there hroom he] at huses
      obtain ⟨name, hmem, hname⟩ := h.listed e huses
      rw [hwrites.there e he huses.1]
      exact ⟨name, List.mem_append_left _ hmem, hname⟩

theorem Listed.of_same (h : img.Listed names) (hrooted : img'.Rooted names.length)
    (htidy : img'.mount.Tidy) (hrest : img'.Blank)
    (hsame : Fs.SameFile img.mount img'.mount rootino) : img'.Listed names := by
  refine ⟨hrooted, htidy, hrest, fun e huses => ?_⟩
  rw [hsame.uses] at huses
  rw [hsame.dirent huses.1]
  exact h.listed e huses

theorem Listed.addFile (h : img.Listed names)
    (hnew : ∀ name ∈ names, namecmp name (entryName file.1) = false)
    (hok : img.addFile file = .ok img') (hbound : img'.freeblock ≤ bpb) :
    img'.Listed (names ++ [entryName file.1]) := by
  have hrooted := h.toRooted.addFile hok hbound
  rw [← List.length_singleton (a := entryName file.1), ← List.length_append] at hrooted
  obtain ⟨img1, img2, inum, halloc, hentry, hfile⟩ := addFile_steps hok
  obtain ⟨-, hinum, -, harea, -, hdinode⟩ := h.toGood.ialloc halloc
  obtain ⟨hne, -, hrooted1⟩ := h.toRooted.ialloc halloc
  obtain ⟨hmakes, -⟩ := h.toGood.ialloc_makes halloc
  obtain ⟨m, hframe⟩ := appendFile_frame hfile
  have hbound2 := hframe.freeblock.trans hbound
  have hlater := h.next
  have hnz : inum ≠ 0 := by omega
  have hsmall : inum < 65536 := by
    simp only [inodeArea] at harea
    omega
  have hlisted1 := h.of_same hrooted1 (Fs.kept_tidy.makes hmakes rfl h.distinct)
    (h.toRooted.blank_ialloc h.rest halloc) (hmakes.others _ hne)
  have hlisted2 := hlisted1.enter hsmall hnz hnew hentry hbound2
  have hleaf : ¬ img2.mount.IsDir inum := fun hdir => by
    have htype := hdir.2
    have hframe2 := (iappend_frame hentry).others inum hne.symm
    have htype : (img2.dinode inum).type = .dir := htype
    rw [hframe2, hdinode, Function.update_self] at htype
    cases htype
  have halloc1 : Allocated img1.dinode inum := by
    refine ⟨harea, ?_⟩
    rw [hdinode, Function.update_self]
    decide
  obtain ⟨halters, hblank⟩ := hlisted2.toGood.appendFile_alters
    ((iappend_frame hentry).allocated halloc1) hlisted2.rest hfile hbound
  exact hlisted2.of_same hrooted (Fs.kept_tidy.alters halters hleaf hlisted2.distinct) hblank
    (halters.others _ hne)

theorem Listed.addFiles {files : List (Name × List UInt8)} (h : img.Listed names)
    (hnames : (names ++ files.map fun file => entryName file.1).Pairwise
      fun s t => namecmp s t = false)
    (hok : files.foldlM Image.addFile img = .ok img') (hbound : img'.freeblock ≤ bpb) :
    ∃ names', img'.Listed names' := by
  induction files generalizing img names with
  | nil =>
    cases Except.ok.inj hok
    exact ⟨names, h⟩
  | cons file files ih =>
    rw [List.foldlM_cons] at hok
    obtain ⟨img1, hfirst, hrest⟩ := bind_eq_ok.mp hok
    have hnew : ∀ name ∈ names, namecmp name (entryName file.1) = false := fun name hmem =>
      (List.pairwise_append.mp hnames).2.2 name hmem _ List.mem_cons_self
    rw [List.map_cons, List.append_cons] at hnames
    exact ih (h.addFile hnew hfirst ((addFiles_le hrest).trans hbound)) hnames hrest

theorem listed_new {root : Nat} (hok : zeroes.ialloc .dir = .ok (img, root)) : img.Listed [] := by
  obtain ⟨hrooted, rfl⟩ := rooted_new hok
  obtain ⟨hmakes, -⟩ := good_zeroes.ialloc_makes hok
  have hzeroes : zeroes.mount.Tidy := by
    refine ⟨fun d hdir => ?_, fun d hdir => ?_⟩
    · cases hdir.2
    · cases hdir.2
  refine ⟨hrooted, Fs.kept_tidy.makes hmakes rfl hzeroes, rooted_blank hok, fun e huses => ?_⟩
  have hin : direntSize * e + direntSize ≤ (img.dinode rootino).size := huses.1
  rw [hrooted.entries] at hin
  simp only [direntSize] at hin
  omega

theorem Listed.fixRoot (h : img.Listed names) : img.fixRoot.mount.Tidy := by
  refine h.distinct.alters (fixRoot_alters img) (fun hdir => ?_) fun _ => ?_
  · rw [Fs.slots_congr (h.toRooted.fixRoot_uses h.rest) fun e _ => fixRoot_dirent img e]
    exact h.distinct.unique _ hdir
  · rw [fixRoot_root]
    exact Dvd.dvd.mul_left (by decide) _

end Image

def rootNames (files : List (Name × List UInt8)) : List Name :=
  [dot, dotdot] ++ files.map fun file => Image.entryName file.1

theorem tidy_mkfs {files : List (Name × List UInt8)} {fs : Fs}
    (hnames : (rootNames files).Pairwise fun s t => namecmp s t = false)
    (hok : mkfs files = .ok fs) : fs.Tidy := by
  obtain ⟨img, root, img1, img2, img3, hroot, hdot, hdotdot, hadd, hbound3, rfl⟩ := mkfs_steps hok
  have hbound2 := (Image.addFiles_le hadd).trans hbound3
  have hbound1 := (Image.iappend_frame hdotdot).freeblock.trans hbound2
  have h0 := Image.listed_new hroot
  obtain ⟨-, rfl⟩ := Image.rooted_new hroot
  have h1 := h0.enter (by decide) (by decide) (by simp) hdot hbound1
  have h2 := h1.enter (by decide) (by decide) (by decide) hdotdot hbound2
  obtain ⟨names, hlisted⟩ := h2.addFiles hnames hadd hbound3
  exact hlisted.fixRoot

namespace Fs

variable {fs fs' : Fs} {dp : Iref}

inductive DirOp where
  | call (op : Op)
  | dirlink (dp : Iref) (name : Name) (inum : Nat)
  | dirunlink (dp : Iref) (name : Name)

def KeepsDirs (fs : Fs) : Op → Prop
  | .writei ip _ _ => (fs.din ip).type ≠ .dir
  | _ => True

instance (fs : Fs) : (op : Op) → Decidable (fs.KeepsDirs op)
  | .writei ip _ _ => inferInstanceAs (Decidable ((fs.din ip).type ≠ .dir))
  | .iget _ | .idup _ | .ilock _ | .ialloc _ | .bmap _ _ | .readi _ _ _ | .iput _
  | .create _ _ _ _ _ | .link _ _ _ | .unlink _ _ => inferInstanceAs (Decidable True)

def DirEnabled (fs : Fs) : DirOp → Prop
  | .call op => fs.Enabled op ∧ fs.Inside op ∧ fs.KeepsDirs op
  | .dirlink dp _ inum => fs.Loaded dp ∧ 0 < inum ∧ inum < ninodes
  | .dirunlink dp _ => fs.Loaded dp

instance (fs : Fs) : (op : DirOp) → Decidable (fs.DirEnabled op)
  | .call op => inferInstanceAs (Decidable (fs.Enabled op ∧ fs.Inside op ∧ fs.KeepsDirs op))
  | .dirlink dp _ inum => inferInstanceAs (Decidable (fs.Loaded dp ∧ 0 < inum ∧ inum < ninodes))
  | .dirunlink dp _ => inferInstanceAs (Decidable (fs.Loaded dp))

def dirMachine : Machine Fs DirOp Unit Panic := fun fs op =>
  match op with
  | .call op => machine fs op
  | .dirlink dp name inum => (fs.dirlink dp name inum).map fun r => (r.1, ())
  | .dirunlink dp name => (fs.dirunlink dp name).map fun r => (r.1, ())

theorem Holding.dirunlink_kept {held : List Iref} {name : Name} {r : Int} (h : fs.Holding held)
    (hloaded : fs.Loaded dp) (hdp : dp ∈ held) (htidy : fs.Tidy)
    (hok : fs.dirunlink dp name = .ok (fs', r)) : fs'.Calm ∧ fs'.Tidy := by
  obtain ⟨⟨fs1, found⟩, hlookup, hok⟩ := bind_eq_ok.mp hok
  obtain ⟨h1, hkeeps⟩ := h.dirlookup hloaded hlookup
  obtain ⟨-, hpasses, hfound⟩ := h.dirlookup_eq hloaded hlookup
  have htidy1 := kept_tidy.passes hpasses htidy
  cases found with
  | none =>
    cases Except.ok.inj hok
    exact ⟨h1.toCalm, htidy1⟩
  | some found =>
    obtain ⟨off, ip⟩ := found
    obtain ⟨e, rfl, hin, hused, -⟩ := hfound
    obtain ⟨fs2, hwrite, hok⟩ := bind_eq_ok.mp hok
    obtain ⟨fs3, hput, hok⟩ := bind_eq_ok.mp hok
    cases Except.ok.inj hok
    have hloaded1 := hkeeps dp hdp hloaded
    rw [(h.loaded dp hloaded).2] at hin
    have huses := hpasses.uses hdp h1.toCalm hloaded1 ⟨hin, hused⟩
    obtain ⟨h2, -⟩ := h1.writeDirent hloaded1 hwrite
    obtain ⟨hwrites, -⟩ := h1.toCalm.writeDirent_writes hloaded1 (by decide) hwrite
    have htidy2 := kept_tidy.clears huses hwrites decode_zeroes htidy1
    exact ⟨(h2.iput hput).1.toCalm, (kept_tidy.iput h2 htidy2 hput).2⟩

theorem tidy_step {op : DirOp} {out : Unit} (h : fs.Calm) (htidy : fs.Tidy)
    (henabled : fs.DirEnabled op) (hstep : dirMachine fs op = .ok (fs', out)) :
    fs'.Calm ∧ fs'.Tidy := by
  cases op with
  | call op =>
    obtain ⟨henabled, hinside, hkeeps⟩ := henabled
    refine ⟨calm_step h henabled hinside hstep,
      kept_tidy.step h henabled hinside (fun ip src off hop => ?_) htidy hstep⟩
    subst hop
    exact hkeeps
  | dirlink dp name inum =>
    obtain ⟨hloaded, -, hinum⟩ := henabled
    obtain ⟨⟨fs1, r⟩, hop, heq⟩ := map_eq_ok.mp hstep
    cases heq
    have hheld := h.holding_cwd hloaded.1
    exact ⟨(hheld.dirlink hloaded List.mem_cons_self hop).1.toCalm,
      kept_tidy.dirlink hheld hloaded (hinum.trans (by decide)) htidy hop⟩
  | dirunlink dp name =>
    obtain ⟨⟨fs1, r⟩, hop, heq⟩ := map_eq_ok.mp hstep
    cases heq
    exact (h.holding_cwd henabled.1).dirunlink_kept henabled List.mem_cons_self htidy hop

/-- The calls on the directory that `dp` refers to are those of a finite map. -/
structure IsMap (fs : Fs) (dp : Iref) : Prop where
  lookup : ∀ {name fs' found}, fs.dirlookup dp name = .ok (fs', found) →
    found.map (fun x => (fs'.icache x.2).inum) = fs.resolve (fs.icache dp).inum name
  lookup_ok : ∀ {name}, (∀ i, fs.resolve (fs.icache dp).inum name = some i → fs.Cachable i) →
    ∃ fs' found, fs.dirlookup dp name = .ok (fs', found)
  /-- A name that is there is refused, and nothing changes. -/
  refused : ∀ {name inum fs' r}, 0 < inum → inum < ninodes →
    fs.resolve (fs.icache dp).inum name ≠ none → fs.dirlink dp name inum = .ok (fs', r) →
    r = -1 ∧ ∀ d key, fs'.resolve d key = fs.resolve d key
  /-- A new name is bound, and no other name changes. An entry that is free is used again. -/
  bound : ∀ {name inum fs' r}, 0 < inum → inum < ninodes →
    fs.resolve (fs.icache dp).inum name = none → fs.dirlink dp name inum = .ok (fs', r) →
    r = 0 ∧ (∀ d key, fs'.resolve d key = if d = (fs.icache dp).inum ∧ namecmp key name = true
      then some inum else fs.resolve d key) ∧
    ∀ e, direntSize * e + direntSize ≤ (fs.din dp).size →
      (fs.dirent (fs.icache dp).inum e).inum = 0 →
      (fs'.dinode (fs.icache dp).inum).size = (fs.din dp).size
  link_ok : ∀ {name inum}, 0 < inum → inum < ninodes →
    (∀ i, fs.resolve (fs.icache dp).inum name = some i → fs.Cachable i) →
    (fs.resolve (fs.icache dp).inum name = none → fs.HasRoom dp) →
    ∃ fs' r, fs.dirlink dp name inum = .ok (fs', r)
  /-- Clearing the entry that was found takes that name away only. -/
  removed : ∀ {name fs' r}, fs.dirunlink dp name = .ok (fs', r) →
    (r = -1 ↔ fs.resolve (fs.icache dp).inum name = none) ∧
    ∀ d key, fs'.resolve d key = if d = (fs.icache dp).inum ∧ namecmp key name = true
      then none else fs.resolve d key
  unlink_ok : ∀ {name}, (∀ i, fs.resolve (fs.icache dp).inum name = some i → fs.Cachable i) →
    ∃ fs' r, fs.dirunlink dp name = .ok (fs', r)

theorem resolve_namecmp (fs : Fs) (d : Nat) {key name : Name} (h : namecmp key name = true) :
    fs.resolve d key = fs.resolve d name := by
  rw [resolve, resolve, (namecmp_iff _ _).mp h]

theorem resolve_update {d : Nat} {name : Name} {new : Option Nat}
    (hhere : ∀ key, fs'.resolve d key = if namecmp key name then new else fs.resolve d key)
    (hthere : ∀ n, n ≠ d → SameFile fs fs' n) (n : Nat) (key : Name) :
    fs'.resolve n key = if n = d ∧ namecmp key name = true then new else fs.resolve n key := by
  by_cases hn : n = d
  · subst hn
    rw [hhere]
    exact if_congr (and_iff_right rfl).symm rfl rfl
  · rw [if_neg fun hall => hn hall.1, (hthere n hn).sameDir.resolve]

theorem Calm.isMap (h : fs.Calm) (htidy : fs.Tidy) (hloaded : fs.Loaded dp)
    (hdir : (fs.din dp).type = .dir) : fs.IsMap dp where
  lookup hok := (h.holding_cwd hloaded.1).dirlookup_resolve hloaded htidy hok
  lookup_ok hcache := (h.holding_cwd hloaded.1).dirlookup_ok hloaded hdir htidy hcache
  refused := by
    intro name inum fs' r hpos hinum hthere hok
    rcases (h.holding_cwd hloaded.1).dirlink_resolve hloaded htidy hpos
      (hinum.trans (by decide)) hok with ⟨hr, -, hdinode, hdata⟩ | ⟨-, hnone, -⟩
    · exact ⟨hr, fun d key =>
        (sameFile_of_eq (congrFun hdinode d) hdata).sameDir.resolve key⟩
    · exact absurd hnone hthere
  bound := by
    intro name inum fs' r hpos hinum hnone hok
    rcases (h.holding_cwd hloaded.1).dirlink_resolve hloaded htidy hpos
      (hinum.trans (by decide)) hok with ⟨-, hthere, -⟩ | ⟨hr, -, hhere, hothers, k, henters⟩
    · exact absurd hnone hthere
    · refine ⟨hr, resolve_update hhere hothers, fun e hin hzero => ?_⟩
      -- the first free entry is not behind `e`
      have hk : k ≤ e := by
        by_contra hlt
        exact (henters.taken e (by omega)).1 hzero
      rw [henters.writes.size, ← (h.loaded dp hloaded).2]
      simp only [direntSize] at *
      omega
  link_ok _ _ hcache hroom :=
    (h.holding_cwd hloaded.1).dirlink_ok hloaded hdir htidy _ hcache hroom
  removed := by
    intro name fs' r hok
    rcases (h.holding_cwd hloaded.1).dirunlink_resolve hloaded htidy List.mem_cons_self hok
      with ⟨hr, hnone, rfl⟩ | ⟨hr, hthere, hhere, hothers⟩
    · refine ⟨iff_of_true hr hnone, fun d key => ?_⟩
      split
      · rename_i hall
        rw [hall.1, resolve_namecmp _ _ hall.2, hnone]
      · rfl
    · exact ⟨iff_of_false (by omega) hthere, resolve_update hhere hothers⟩
  unlink_ok hcache :=
    (h.holding_cwd hloaded.1).dirunlink_ok hloaded hdir htidy List.mem_cons_self hcache

/-- If the names in the root directory of an image differ and it does not end with a full block,
every directory is a map at all times. -/
theorem directory_map {files : List (Name × List UInt8)} {start finish : Fs}
    (hfiles : (files.length + 2) % 32 ≠ 0)
    (hnames : (rootNames files).Pairwise fun s t => namecmp s t = false)
    (hmkfs : mkfs files = .ok start) (hreaches : Reaches dirMachine DirEnabled start finish) :
    (∀ d e e', finish.IsDir d → finish.Uses d e → finish.Uses d e' →
      namecmp (finish.dirent d e).name (finish.dirent d e').name = true → e = e') ∧
    ∀ dp, finish.Loaded dp → (finish.din dp).type = .dir → finish.IsMap dp := by
  have hinv : finish.Calm ∧ finish.Tidy := by
    refine hreaches.invariant (fun fs => fs.Calm ∧ fs.Tidy)
      ⟨calm_mkfs hfiles hmkfs, tidy_mkfs hnames hmkfs⟩ ?_
    rintro fs op fs' out ⟨hcalm, htidy⟩ henabled hstep
    exact tidy_step hcalm htidy henabled hstep
  obtain ⟨hcalm, htidy⟩ := hinv
  refine ⟨fun d e e' hdir huses huses' hname => ?_, fun dp => hcalm.isMap htidy⟩
  have hslot := slots_of_uses huses'
  rw [← (namecmp_iff _ _).mp hname] at hslot
  exact htidy.unique d hdir e e' _ _ _ (slots_of_uses huses) hslot

theorem exists_dir_run (files : List (Name × List UInt8)) (ops : List DirOp) (test : Fs → Bool)
    (h : (match mkfs files with
      | .ok start => (replay dirMachine DirEnabled ops [] start).any (fun r => test r.2)
      | .error _ => false) = true) :
    ∃ start finish, mkfs files = .ok start ∧ Reaches dirMachine DirEnabled start finish ∧
      test finish = true := by
  split at h
  · rename_i start hmkfs
    obtain ⟨finish, hreaches, htest⟩ := exists_reaches dirMachine _ start ops test h
    exact ⟨start, finish, hmkfs, hreaches, htest⟩
  · cases h

/-- The entry of `a` is free, and then that of `c`. -/
theorem directory_map_reused : ∃ start finish, mkfs [([97], [1, 2, 3])] = .ok start ∧
    Reaches dirMachine DirEnabled start finish ∧
    (finish.resolve rootino [97] = none ∧ finish.resolve rootino [98] = some 7 ∧
      finish.resolve rootino [99] = some 9 ∧ finish.Uses rootino 2) ∧
    finish.IsMap 0 := by
  obtain ⟨start, finish, hmkfs, hreaches, htest⟩ := exists_dir_run [([97], [1, 2, 3])]
    [.call (.iget rootino), .call (.ilock 0), .dirlink 0 [98] 7, .dirunlink 0 [97],
      .dirlink 0 [99] 9, .dirlink 0 [99] 7]
    (fun fs => decide ((fs.resolve rootino [97] = none ∧ fs.resolve rootino [98] = some 7 ∧
      fs.resolve rootino [99] = some 9 ∧ fs.Uses rootino 2) ∧
      fs.Loaded 0 ∧ (fs.din 0).type = .dir)) (by decide +kernel)
  obtain ⟨hresolve, hloaded, hdir⟩ := of_decide_eq_true htest
  exact ⟨start, finish, hmkfs, hreaches, hresolve,
    (directory_map (by decide) (by decide) hmkfs hreaches).2 0 hloaded hdir⟩

def enterAndLook (fs : Fs) (dp : Iref) (name : Name) (inum : Nat) :
    Except Panic (Int × Option Nat) := do
  let d := (fs.icache dp).inum
  let (fs, r) ← fs.dirlink dp name inum
  let fs ← fs.iput dp
  let (fs, dp) ← fs.iget d
  let fs ← fs.ilock dp
  let (_, found) ← fs.dirlookup dp name
  return (r, found.map Prod.fst)

/-- With 30 files the root has a hole, and an entry that is put there is lost with the last
reference to the root. Two host files may have one name in the image. -/
theorem entry_lost :
    (∃ start fs, mkfs ((List.range 30).map fun i => ([UInt8.ofNat (97 + i)], [])) = .ok start ∧
      Reaches dirMachine DirEnabled start fs ∧ fs.Loaded 0 ∧
      (fs.enterAndLook 0 [48] 1).toOption = some (0, none)) ∧
    ∃ start fs, mkfs [([97], []), ([95, 97], [])] = .ok start ∧
      Reaches dirMachine DirEnabled start fs ∧ fs.IsDir rootino ∧ fs.Uses rootino 2 ∧
      fs.Uses rootino 3 ∧
      namecmp (fs.dirent rootino 2).name (fs.dirent rootino 3).name = true := by
  constructor
  · obtain ⟨start, finish, hmkfs, hreaches, htest⟩ :=
      exists_dir_run ((List.range 30).map fun i => ([UInt8.ofNat (97 + i)], []))
        [.call (.iget rootino), .call (.ilock 0)]
        (fun fs => decide (fs.Loaded 0 ∧ (fs.enterAndLook 0 [48] 1).toOption = some (0, none)))
        (by decide +kernel)
    exact ⟨start, finish, hmkfs, hreaches, of_decide_eq_true htest⟩
  · obtain ⟨start, finish, hmkfs, hreaches, htest⟩ :=
      exists_dir_run [([97], []), ([95, 97], [])] []
        (fun fs => decide (fs.IsDir rootino ∧ fs.Uses rootino 2 ∧ fs.Uses rootino 3 ∧
          namecmp (fs.dirent rootino 2).name (fs.dirent rootino 3).name = true))
        (by decide +kernel)
    exact ⟨start, finish, hmkfs, hreaches, of_decide_eq_true htest⟩

end Fs

end Xv6

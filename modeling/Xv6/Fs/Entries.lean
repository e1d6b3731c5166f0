import Xv6.Fs.Names
import Xv6.Fs.Image

/-! What a directory holds. The bytes of an inode are read from its blocks on the disk; an
operation on one file leaves those of the others alone. -/
namespace Xv6

open Word BlockTree Fallible

theorem strncpy_succ (n : Nat) (t : Name) : strncpy (n + 1) t =
    if t.headD 0 = 0 then List.replicate (n + 1) 0 else t.headD 0 :: strncpy n t.tail := by
  cases t with
  | nil => simp [strncpy]
  | cons c t =>
    by_cases hc : c = 0
    · simp [strncpy, hc]
    · simp [strncpy, hc]

theorem strncmp_iff (n : Nat) (s t : Name) :
    strncmp n s t = true ↔ strncpy n s = strncpy n t := by
  induction n generalizing s t with
  | zero => simp [strncmp, strncpy]
  | succ n ih =>
    rw [strncpy_succ, strncpy_succ, strncmp]
    by_cases hs : s.headD 0 = 0
    · rw [if_neg fun h => h.1 hs, if_pos hs, hs, beq_iff_eq]
      split
      · rename_i ht
        exact iff_of_true ht.symm rfl
      · rename_i ht
        refine iff_of_false (Ne.symm ht) fun h => ?_
        exact ht (List.cons.inj h).1.symm
    · by_cases heq : s.headD 0 = t.headD 0
      · rw [if_pos ⟨hs, heq⟩, if_neg hs, if_neg (heq ▸ hs), ih, heq]
        exact ⟨fun h => by rw [h], fun h => (List.cons.inj h).2⟩
      · rw [if_neg fun h => heq h.2, if_neg hs]
        refine iff_of_false (by simpa using heq) fun h => ?_
        split at h
        · rename_i ht
          exact heq (((List.cons.inj h).1).trans ht.symm)
        · exact heq (List.cons.inj h).1

theorem strncpy_strncpy (n : Nat) (t : Name) : strncpy n (strncpy n t) = strncpy n t := by
  induction n generalizing t with
  | zero => simp [strncpy]
  | succ n ih =>
    rw [strncpy_succ n t]
    split
    · exact (strncpy_succ n _).trans (if_pos rfl)
    · rename_i ht
      refine (strncpy_succ n _).trans ((if_neg ht).trans ?_)
      exact congrArg _ (ih t.tail)

theorem namecmp_iff (s t : Name) : namecmp s t = true ↔ strncpy dirsiz s = strncpy dirsiz t :=
  strncmp_iff dirsiz s t

theorem namecmp_trans {s t u : Name} (h : namecmp s t = true) (h' : namecmp t u = true) :
    namecmp s u = true := by
  rw [namecmp_iff] at *
  exact h.trans h'

theorem namecmp_symm {s t : Name} (h : namecmp s t = true) : namecmp t s = true := by
  rw [namecmp_iff] at *
  exact h.symm

theorem namecmp_stored (s t : Name) : namecmp (strncpy dirsiz s) t = namecmp s t := by
  rw [Bool.eq_iff_iff, namecmp_iff, namecmp_iff, strncpy_strncpy]

theorem decode_encode {inum : Nat} (hinum : inum < 65536) (name : Name) :
    Dirent.decode (Dirent.encode ⟨inum, name⟩) = ⟨inum, strncpy dirsiz name⟩ := by
  unfold Dirent.decode Dirent.encode
  congr 1
  simp only [List.getD_cons_zero, List.getD_cons_succ, UInt8.toNat_ofNat']
  omega

namespace FileState

variable {f f' : FileState} {src : List UInt8} {off : Nat}

theorem writei_done {n : Nat} (h : f.writei src off = (f', .done n)) :
    off ≤ f.size ∧ f' = { f.write src off with
      size :=
        if 0 < src.length ∧ f.size < off + src.length then off + src.length else f.size } := by
  unfold writei at h
  dsimp only at h
  split at h
  · split at h <;> cases h
  · split at h
    · cases h
    · rename_i hrange
      split at h
      · cases h
      · cases h
        exact ⟨by omega, rfl⟩

theorem bytes_write_same (f : FileState) (src : List UInt8) (off size : Nat) :
    FileState.bytes { f.write src off with size := size } off src.length = src := by
  apply List.ext_getElem (length_bytes _ _ _)
  intro i _ hi
  simp only [bytes, write, List.getElem_map, List.getElem_range]
  rw [if_pos (by omega), Nat.add_sub_cancel_left, List.getD_eq_getElem _ _ hi]

theorem bytes_write_other {off' n : Nat} (f : FileState) (size : Nat)
    (h : off' + n ≤ off ∨ off + src.length ≤ off') :
    FileState.bytes { f.write src off with size := size } off' n = f.bytes off' n := by
  apply List.map_congr_left
  intro i hi
  have hi := List.mem_range.mp hi
  exact if_neg (by omega)

end FileState

namespace Fs

variable {fs fs' fs'' : Fs} {ip dp : Iref} {inum : Nat}

def byteOf (fs : Fs) (inum i : Nat) : UInt8 :=
  (place (i / bsize)).elim 0 fun p =>
    if fs.volume.block (inum, p.1) p.2 = 0 then 0
    else fs.data (fs.volume.block (inum, p.1) p.2) (i % bsize)

def dirent (fs : Fs) (inum e : Nat) : Dirent :=
  Dirent.decode ((List.range direntSize).map fun i => fs.byteOf inum (direntSize * e + i))

theorem Calm.byteOf_eq (h : fs.Calm) (hloaded : fs.Loaded ip) :
    fs.byteOf (fs.icache ip).inum = (fs.file ip).byte := by
  funext i
  simp only [byteOf, file, byteAt, (h.part hloaded).block]

theorem Calm.dirent_eq (h : fs.Calm) (hloaded : fs.Loaded ip) (e : Nat) :
    fs.dirent (fs.icache ip).inum e =
      Dirent.decode ((fs.file ip).bytes (direntSize * e) direntSize) := by
  unfold dirent FileState.bytes
  rw [h.byteOf_eq hloaded]

structure SameFile (fs fs' : Fs) (inum : Nat) : Prop where
  dinode : fs'.dinode inum = fs.dinode inum
  byte : ∀ i, i < (fs.dinode inum).size → fs'.byteOf inum i = fs.byteOf inum i

theorem SameFile.refl (fs : Fs) (inum : Nat) : SameFile fs fs inum := ⟨rfl, fun _ _ => rfl⟩

theorem SameFile.trans (h : SameFile fs fs' inum) (h' : SameFile fs' fs'' inum) :
    SameFile fs fs'' inum := by
  refine ⟨h'.dinode.trans h.dinode, fun i hi => ?_⟩
  rw [h'.byte i (by rw [h.dinode]; exact hi), h.byte i hi]

theorem SameFile.dirent (h : SameFile fs fs' inum) {e : Nat}
    (he : direntSize * e + direntSize ≤ (fs.dinode inum).size) :
    fs'.dirent inum e = fs.dirent inum e := by
  unfold Fs.dirent
  congr 1
  apply List.map_congr_left
  intro i hi
  have hi := List.mem_range.mp hi
  exact h.byte _ (by omega)

theorem byteOf_congr (hdinode : fs'.dinode inum = fs.dinode inum) (hdata : fs'.data = fs.data) :
    fs'.byteOf inum = fs.byteOf inum := by
  have hblock : ∀ slot js, fs'.volume.block (inum, slot) js = fs.volume.block (inum, slot) js := by
    intro slot js
    unfold Forest.block volume
    rw [root_congr hdinode slot, hdata]
    rfl
  funext i
  unfold byteOf
  simp only [hblock, hdata]

theorem sameFile_of_eq (hdinode : fs'.dinode inum = fs.dinode inum) (hdata : fs'.data = fs.data) :
    SameFile fs fs' inum :=
  ⟨hdinode, fun i _ => by rw [byteOf_congr hdinode hdata]⟩

theorem Calm.stores_other (h : fs.Calm) (hloaded : fs.Loaded ip) (hstores : Stores fs fs' ip)
    (hne : inum ≠ (fs.icache ip).inum) : SameFile fs fs' inum := by
  have hdinode := hstores.other hne
  obtain ⟨hsound, hextends⟩ := h.stores_extends hloaded hstores
  refine ⟨hdinode, fun i hi => ?_⟩
  unfold byteOf
  cases hplace : place (i / bsize) with
  | none => rfl
  | some p =>
    simp only [Option.elim]
    have hfits : fs.volume.Fits (inum, p.1) p.2 := place_in_volume hplace
    by_cases halloc : Allocated fs.dinode inum
    · have hmapped : fs.volume.block (inum, p.1) p.2 ≠ 0 :=
        h.mapped inum halloc _ p hplace (by simp only [bsize]; omega)
      have hkept := hextends.keeps _ _ hfits hmapped
      rw [hkept, if_neg hmapped, if_neg hmapped, hstores.data _ hmapped]
      -- the blocks of the file that is stored are others
      intro slot js hslot heq
      have hpart' : (fs'.tree ip).Part fs'.volume fun slot => ((fs.icache ip).inum, slot) :=
        hstores.entry.inum ▸ part_of_synced
          (hstores.allocated (h.loaded ip hloaded).1 (h.loaded ip hloaded).2) hstores.synced
      rw [hpart'.block, ← hkept] at heq
      have hsame := hsound.distinct _ _ _ _ (place_in_volume hplace) (hpart'.fits_iff.mp hslot)
        (hkept ▸ hmapped) heq.symm
      exact hne (congrArg Prod.fst hsame.1)
    · have hnone : ∀ g : Fs, ¬ Allocated g.dinode inum → g.volume.block (inum, p.1) p.2 = 0 := by
        intro g hg
        have hroot : g.volume.root (inum, p.1) = 0 := if_neg hg
        rw [Forest.block, hroot, follow_zero]
      rw [hnone fs halloc, hnone fs' ((allocated_congr hdinode).not.mpr halloc)]
      rfl

variable {held held' : List Iref}

/-- References come and go: the files stay as they are, but for those that are freed, and the
references in `held` stay what they are. -/
structure Passes (fs fs' : Fs) (held : List Iref) : Prop where
  files : ∀ inum, fs'.dinode inum = fs.dinode inum ∧ fs'.byteOf inum = fs.byteOf inum ∨
    Allocated fs.dinode inum ∧ (fs.dinode inum).nlink = 0 ∧ (fs'.dinode inum).type = .free
  inums : ∀ i ∈ held, (fs'.icache i).inum = (fs.icache i).inum

theorem Passes.refl (fs : Fs) (held : List Iref) : Passes fs fs held :=
  ⟨fun _ => .inl ⟨rfl, rfl⟩, fun _ _ => rfl⟩

theorem Passes.trans (h : Passes fs fs' held) (h' : Passes fs' fs'' held) :
    Passes fs fs'' held := by
  refine ⟨fun inum => ?_, fun i hi => (h'.inums i hi).trans (h.inums i hi)⟩
  rcases h.files inum with ⟨hdinode, hbyte⟩ | ⟨halloc, hnlink, hfree⟩
  · rcases h'.files inum with ⟨hdinode', hbyte'⟩ | ⟨halloc', hnlink', hfree'⟩
    · exact .inl ⟨hdinode'.trans hdinode, hbyte'.trans hbyte⟩
    · rw [allocated_congr hdinode] at halloc'
      rw [hdinode] at hnlink'
      exact .inr ⟨halloc', hnlink', hfree'⟩
  · rcases h'.files inum with ⟨hdinode', -⟩ | ⟨halloc', -, -⟩
    · rw [← hdinode'] at hfree
      exact .inr ⟨halloc, hnlink, hfree⟩
    · exact absurd hfree halloc'.2

theorem Passes.mono (h : Passes fs fs' held) (hsub : held' ⊆ held) : Passes fs fs' held' :=
  ⟨h.files, fun i hi => h.inums i (hsub hi)⟩

theorem passes_setInode {e : Inode} (held : List Iref)
    (hinum : ip ∈ held → e.inum = (fs.icache ip).inum) : Passes fs (fs.setInode ip e) held := by
  refine ⟨fun inum => .inl ⟨rfl, rfl⟩, fun i hi => ?_⟩
  by_cases hip : i = ip
  · subst hip
    rw [setInode_self, hinum hi]
  · rw [setInode_of_ne fs hip]

theorem passes_idup (fs : Fs) (ip : Iref) (held : List Iref) : Passes fs (fs.idup ip) held :=
  passes_setInode held fun _ => rfl

theorem Holding.iget_passes (h : fs.Holding held) (hok : fs.iget inum = .ok (fs', ip)) :
    Passes fs fs' held ∧ (fs'.icache ip).inum = inum := by
  unfold Fs.iget at hok
  split at hok
  · rename_i i hfound
    cases Except.ok.inj hok
    have hthere := List.find?_some hfound
    simp only [Bool.and_eq_true, decide_eq_true_eq, beq_iff_eq] at hthere
    refine ⟨passes_setInode held fun _ => rfl, ?_⟩
    rw [setInode_self]
    exact hthere.2
  · split at hok
    · cases hok
    · rename_i i hfound
      cases Except.ok.inj hok
      have hzero : (fs.icache ip).ref = 0 := by simpa using List.find?_some hfound
      refine ⟨passes_setInode held fun hi => ?_, by rw [setInode_self]⟩
      have := h.ref_pos hi
      omega

theorem ilock_cases (hok : fs.ilock ip = .ok fs') :
    fs' = fs ∨ ∃ e, e.inum = (fs.icache ip).inum ∧ fs' = fs.setInode ip e := by
  unfold Fs.ilock at hok
  dsimp only at hok
  split at hok
  · cases hok
  · split at hok
    · exact .inl (Except.ok.inj hok).symm
    · split at hok
      · cases hok
      · split at hok
        · cases hok
        · refine .inr ⟨_, ?_, (Except.ok.inj hok).symm⟩
          rfl

theorem ilock_disk (hok : fs.ilock ip = .ok fs') :
    fs'.dinode = fs.dinode ∧ fs'.data = fs.data := by
  rcases ilock_cases hok with rfl | ⟨e, -, rfl⟩
  · exact ⟨rfl, rfl⟩
  · exact ⟨rfl, rfl⟩

theorem ilock_passes (held : List Iref) (hok : fs.ilock ip = .ok fs') : Passes fs fs' held := by
  rcases ilock_cases hok with rfl | ⟨e, hinum, rfl⟩
  · exact .refl _ _
  · exact passes_setInode held fun _ => hinum

theorem Holding.iput_passes (h : fs.Holding (ip :: held)) (hok : fs.iput ip = .ok fs') :
    Passes fs fs' held := by
  rcases iput_cases hok with rfl |
    ⟨hone, hvalid, hnlink, d, e, hfree, -, hdata, hdinode, hicache, -⟩
  · exact passes_setInode held fun _ => rfl
  · obtain ⟨halloc, hsynced⟩ := h.loaded ip ⟨by omega, hvalid⟩
    refine ⟨fun inum => ?_, fun i hi => ?_⟩
    · by_cases hinum : inum = (fs.icache ip).inum
      · subst hinum
        rw [← hsynced]
        refine .inr ⟨halloc, hnlink, ?_⟩
        rw [hdinode, Function.update_self]
        exact hfree
      · have hsame : fs'.dinode inum = fs.dinode inum := by
          rw [hdinode, Function.update_of_ne hinum]
        exact .inl ⟨hsame, byteOf_congr hsame hdata⟩
    · have hne : i ≠ ip := by
        rintro rfl
        have hrefs := h.refs i
        have hpos := List.count_pos_iff.mpr hi
        rw [List.count_cons_self] at hrefs
        omega
      rw [hicache, Function.update_of_ne hne]

theorem Calm.readDirent_eq {e : Nat} {short : Panic} {de : Dirent} (h : fs.Calm)
    (hloaded : fs.Loaded dp) (hok : fs.readDirent dp (direntSize * e) short = .ok (fs', de)) :
    fs' = fs ∧ de = fs.dirent (fs.icache dp).inum e ∧
      direntSize * e + direntSize ≤ (fs.din dp).size := by
  have hsame := h.readDirent hloaded hok
  obtain ⟨⟨fs1, answer⟩, hread, hrest⟩ := bind_eq_ok.mp hok
  obtain ⟨-, rfl⟩ := readi_spec (h.sound hloaded) hread
  dsimp only at hrest
  split at hrest
  · rename_i bytes hbytes
    split at hrest
    · rename_i hlen
      cases Except.ok.inj hrest
      unfold FileState.readi at hbytes
      split at hbytes
      · split at hbytes <;> cases hbytes
      · split at hbytes
        · cases hbytes
        · rename_i hrange
          have hbytes := Io.done.inj hbytes
          have hsize : (fs.file dp).size = (fs.din dp).size := rfl
          rw [hsize] at hbytes hrange
          split at hbytes
          · rw [← hbytes, FileState.length_bytes] at hlen
            simp only [direntSize] at *
            omega
          · refine ⟨hsame, ?_, by omega⟩
            rw [h.dirent_eq hloaded, hbytes]
    · cases hrest
  · cases hrest

theorem Scans.ends {α : Type} {short : Panic} {stop : Dirent → Prop} [DecidablePred stop]
    {hit : Nat → Dirent → α} {miss : Nat → α} {loop : Nat → Fs → Nat → Except Panic (Fs × α)}
    {fuel e : Nat} {a : α} (hscans : Scans dp short stop hit miss loop) (h : fs.Calm)
    (hloaded : fs.Loaded dp) (hfuel : (fs.din dp).size / direntSize < fuel + e)
    (hok : loop fuel fs (direntSize * e) = .ok (fs', a)) :
    ∃ k, e ≤ k ∧ (∀ j, e ≤ j → j < k → ¬ stop (fs.dirent (fs.icache dp).inum j) ∧
        direntSize * j + direntSize ≤ (fs.din dp).size) ∧
      (direntSize * k + direntSize ≤ (fs.din dp).size ∧ stop (fs.dirent (fs.icache dp).inum k) ∧
          a = hit (direntSize * k) (fs.dirent (fs.icache dp).inum k) ∨
        (fs.din dp).size ≤ direntSize * k ∧ a = miss (direntSize * k)) := by
  induction fuel generalizing e with
  | zero =>
    rw [hscans.zero] at hok
    cases Except.ok.inj hok
    refine ⟨e, le_rfl, fun j hj hlt => by omega, .inr ⟨?_, rfl⟩⟩
    simp only [direntSize] at *
    omega
  | succ fuel ih =>
    rw [hscans.succ] at hok
    split at hok
    · rename_i hend
      cases Except.ok.inj hok
      exact ⟨e, le_rfl, fun j hj hlt => by omega, .inr ⟨hend, rfl⟩⟩
    · obtain ⟨⟨fs1, de⟩, hread, hrest⟩ := bind_eq_ok.mp hok
      obtain ⟨rfl, rfl, hin⟩ := h.readDirent_eq hloaded hread
      dsimp only at hrest
      split at hrest
      · rename_i hstop
        cases Except.ok.inj hrest
        exact ⟨e, le_rfl, fun j hj hlt => by omega, .inl ⟨hin, hstop, rfl⟩⟩
      · rename_i hgoes
        rw [← Nat.mul_succ] at hrest
        obtain ⟨k, hk, hbefore, hends⟩ := ih (by omega) hrest
        refine ⟨k, by omega, fun j hj hlt => ?_, hends⟩
        by_cases hje : j = e
        · subst hje
          exact ⟨hgoes, hin⟩
        · exact hbefore j (by omega) hlt

theorem Holding.dirlookup_eq {name : Name} {found : Option (Nat × Iref)} (h : fs.Holding held)
    (hloaded : fs.Loaded dp) (hok : fs.dirlookup dp name = .ok (fs', found)) :
    (fs.din dp).type = .dir ∧ Passes fs fs' held ∧ match found with
      | none => fs' = fs ∧ ∀ e, direntSize * e < (fs.din dp).size →
          (fs.dirent (fs.icache dp).inum e).inum ≠ 0 →
          namecmp name (fs.dirent (fs.icache dp).inum e).name = false
      | some (off, ip) => ∃ e, off = direntSize * e ∧
          direntSize * e + direntSize ≤ (fs.din dp).size ∧
          (fs.dirent (fs.icache dp).inum e).inum ≠ 0 ∧
          namecmp name (fs.dirent (fs.icache dp).inum e).name = true ∧
          (fs'.icache ip).inum = (fs.dirent (fs.icache dp).inum e).inum := by
  unfold Fs.dirlookup at hok
  split at hok
  · cases hok
  · rename_i hdir
    refine ⟨not_not.mp hdir, ?_⟩
    obtain ⟨⟨fs1, r⟩, hloop, hrest⟩ := bind_eq_ok.mp hok
    obtain rfl := (scans_lookupLoop dp name).same h.toCalm hloaded hloop
    obtain ⟨k, -, hbefore, hends⟩ :=
      (scans_lookupLoop dp name).ends h.toCalm hloaded (e := 0) (by omega) hloop
    dsimp only at hrest
    rcases hends with ⟨hin, hstop, rfl⟩ | ⟨hend, rfl⟩
    · obtain ⟨⟨fs2, ip⟩, hget, hrest⟩ := bind_eq_ok.mp hrest
      cases Except.ok.inj hrest
      obtain ⟨hpasses, hinum⟩ := h.iget_passes hget
      exact ⟨hpasses, k, rfl, hin, hstop.1, hstop.2, hinum⟩
    · cases Except.ok.inj hrest
      refine ⟨.refl _ _, rfl, fun e he hne => ?_⟩
      have hlt : e < k := by
        simp only [direntSize] at *
        omega
      have hnot := (hbefore e (Nat.zero_le e) hlt).1
      rw [not_and] at hnot
      exact Bool.eq_false_of_not_eq_true (hnot hne)

theorem writei_nlink {off : Nat} {src : List UInt8} {a : Io Nat} (h : fs.Sound ip)
    (hok : fs.writei ip src off = .ok (fs', a)) : (fs'.din ip).nlink = (fs.din ip).nlink := by
  obtain ⟨rfl, -⟩ | ⟨fs1, -, -, hloop, -, rfl⟩ := writei_steps hok
  · rfl
  · obtain ⟨addrs, haddrs⟩ := (writeLoop_spec h le_rfl hloop).1.same
    have hsame : (fs1.din ip).nlink = (fs.din ip).nlink := by rw [din, haddrs]
    split
    · rw [store_din]
      exact hsame
    · exact hsame

structure Alters (fs fs' : Fs) (n : Nat) : Prop where
  others : ∀ inum, inum ≠ n → SameFile fs fs' inum
  type : (fs'.dinode n).type = (fs.dinode n).type
  nlink : (fs'.dinode n).nlink = (fs.dinode n).nlink

theorem Alters.refl (fs : Fs) (n : Nat) : Alters fs fs n :=
  ⟨fun inum _ => .refl fs inum, rfl, rfl⟩

theorem Alters.trans {n : Nat} (h : Alters fs fs' n) (h' : Alters fs' fs'' n) :
    Alters fs fs'' n :=
  ⟨fun inum hne => (h.others inum hne).trans (h'.others inum hne), h'.type.trans h.type,
    h'.nlink.trans h.nlink⟩

theorem Calm.writei_alters {off : Nat} {src : List UInt8} {a : Io Nat} (h : fs.Calm)
    (hloaded : fs.Loaded ip) (hok : fs.writei ip src off = .ok (fs', a)) :
    Alters fs fs' (fs.icache ip).inum := by
  have hstores := h.writei hloaded hok
  have hsynced := (h.loaded ip hloaded).2
  have hsynced' := hstores.synced
  rw [hstores.entry.inum] at hsynced'
  refine ⟨fun inum hne => h.stores_other hloaded hstores hne, ?_, ?_⟩
  · rw [← hsynced', ← hsynced, hstores.type]
  · rw [← hsynced', ← hsynced, writei_nlink (h.sound hloaded) hok]

structure Writes (fs fs' : Fs) (d e : Nat) (de : Dirent) : Prop extends Alters fs fs' d where
  size : (fs'.dinode d).size = max (fs.dinode d).size (direntSize * e + direntSize)
  here : fs'.dirent d e = de
  there : ∀ k, k ≠ e → direntSize * k + direntSize ≤ (fs.dinode d).size →
    fs'.dirent d k = fs.dirent d k

theorem Calm.writeDirent_writes {bytes : List UInt8} {e : Nat} {short : Panic} (h : fs.Calm)
    (hloaded : fs.Loaded dp) (hlen : bytes.length = direntSize)
    (hok : fs.writeDirent dp bytes (direntSize * e) short = .ok fs') :
    Writes fs fs' (fs.icache dp).inum e (Dirent.decode bytes) ∧ SameEntry fs fs' dp := by
  obtain ⟨⟨fs1, answer⟩, hwrite, hok⟩ := bind_eq_ok.mp hok
  dsimp only at hok
  split at hok
  · rename_i hanswer
    cases Except.ok.inj hok
    have hstores := h.writei hloaded hwrite
    have hcalm := h.stores hloaded hstores
    have hinum := hstores.entry.inum
    have hloaded' : fs'.Loaded dp := by
      rw [Loaded, hstores.entry.ref, hstores.entry.valid]
      exact hloaded
    have hsynced := (h.loaded dp hloaded).2
    have hsynced' := (hcalm.loaded dp hloaded').2
    rw [hinum] at hsynced'
    obtain ⟨-, -, hfile⟩ := writei_spec (h.sound hloaded) hwrite
    rw [hanswer] at hfile
    obtain ⟨hoff, hfile⟩ := FileState.writei_done hfile
    rw [hlen] at hfile
    refine ⟨⟨h.writei_alters hloaded hwrite, ?_, ?_, ?_⟩, hstores.entry⟩
    · have hsize : (fs'.file dp).size = (fs'.din dp).size := rfl
      rw [← hsynced', ← hsynced, ← hsize, hfile]
      have hsize' : (fs.file dp).size = (fs.din dp).size := rfl
      dsimp only
      rw [hsize'] at hoff ⊢
      split <;> omega
    · have hdirent := hcalm.dirent_eq hloaded' e
      rw [hinum, hfile] at hdirent
      have hbytes := FileState.bytes_write_same (fs.file dp) bytes (direntSize * e)
      rw [hlen] at hbytes
      rw [hdirent, hbytes]
    · intro k hk hin
      have hdirent := hcalm.dirent_eq hloaded' k
      rw [hinum, hfile] at hdirent
      rw [hdirent, h.dirent_eq hloaded, FileState.bytes_write_other]
      rw [hlen]
      simp only [direntSize] at *
      omega
  · cases hok

theorem Holding.walk_passes {parent : Bool} {names : List Name} {found : Option (Iref × Name)}
    (h : fs.Holding (ip :: held)) (hok : Fs.walk parent names fs ip = .ok (fs', found)) :
    Passes fs fs' held := by
  induction names generalizing fs ip with
  | nil =>
    unfold Fs.walk at hok
    split at hok
    · obtain ⟨fs1, hput, hok⟩ := bind_eq_ok.mp hok
      cases Except.ok.inj hok
      exact h.iput_passes hput
    · cases Except.ok.inj hok
      exact .refl _ _
  | cons name rest ih =>
    obtain ⟨fs1, hlock, hok⟩ := bind_eq_ok.mp hok
    obtain ⟨h1, -, hloaded⟩ := h.ilock hlock
    have hpasses1 := ilock_passes held hlock
    split at hok
    · obtain ⟨fs2, hput, hok⟩ := bind_eq_ok.mp hok
      cases Except.ok.inj hok
      exact hpasses1.trans (h1.iput_passes hput)
    · split at hok
      · cases Except.ok.inj hok
        exact hpasses1
      · obtain ⟨⟨fs2, next⟩, hlookup, hok⟩ := bind_eq_ok.mp hok
        obtain ⟨fs3, hput, hok⟩ := bind_eq_ok.mp hok
        obtain ⟨-, hpasses2, -⟩ := h1.dirlookup_eq hloaded hlookup
        obtain ⟨h2, -⟩ := h1.dirlookup hloaded hlookup
        have h2 := h2.perm List.perm_middle
        obtain ⟨h3, -⟩ := h2.iput hput
        have hpasses := (hpasses1.trans (hpasses2.mono (List.subset_cons_self ip held))).trans
          ((h2.iput_passes hput).mono (List.subset_append_right _ held))
        cases next with
        | none =>
          cases Except.ok.inj hok
          exact hpasses
        | some next => exact hpasses.trans (ih h3 hok)

theorem Holding.namex_passes {cwd : Iref} {path : Name} {parent : Bool}
    {found : Option (Iref × Name)} (h : fs.Holding held) (hcwd : cwd ∈ held)
    (hok : fs.namex cwd path parent = .ok (fs', found)) : Passes fs fs' held := by
  unfold Fs.namex at hok
  dsimp only at hok
  split at hok
  · obtain ⟨⟨fs1, ip⟩, hget, hok⟩ := bind_eq_ok.mp hok
    obtain ⟨h1, -⟩ := h.iget hget
    exact (h.iget_passes hget).1.trans (h1.walk_passes hok)
  · obtain ⟨h1, -⟩ := h.idup (h.ref_pos hcwd)
    exact (passes_idup fs cwd held).trans (h1.walk_passes hok)

structure Enters (fs fs' : Fs) (dp : Iref) (name : Name) (inum e : Nat) : Prop where
  writes : Writes fs fs' (fs.icache dp).inum e ⟨inum, strncpy dirsiz name⟩
  entry : SameEntry fs fs' dp
  unknown : ∀ k, direntSize * k < (fs.din dp).size →
    (fs.dirent (fs.icache dp).inum k).inum ≠ 0 →
    namecmp name (fs.dirent (fs.icache dp).inum k).name = false
  taken : ∀ k, k < e → (fs.dirent (fs.icache dp).inum k).inum ≠ 0 ∧
    direntSize * k + direntSize ≤ (fs.din dp).size
  room : direntSize * e + direntSize ≤ (fs.din dp).size ∧
      (fs.dirent (fs.icache dp).inum e).inum = 0 ∨ (fs.din dp).size = direntSize * e

theorem Holding.dirlink_eq {name : Name} {r : Int} (h : fs.Holding held) (hloaded : fs.Loaded dp)
    (hinum : inum < 65536) (hok : fs.dirlink dp name inum = .ok (fs', r)) :
    (fs.din dp).type = .dir ∧
      (r = -1 ∧ Passes fs fs' held ∨ r = 0 ∧ ∃ e, Enters fs fs' dp name inum e) := by
  obtain ⟨⟨fs1, present⟩, hlookup, hrest⟩ := bind_eq_ok.mp hok
  obtain ⟨hdir, hpasses, hfound⟩ := h.dirlookup_eq hloaded hlookup
  refine ⟨hdir, ?_⟩
  cases present with
  | some found =>
    obtain ⟨fs2, hput, hrest⟩ := bind_eq_ok.mp hrest
    cases Except.ok.inj hrest
    obtain ⟨h1, -⟩ := h.dirlookup hloaded hlookup
    exact .inl ⟨rfl, hpasses.trans (h1.iput_passes hput)⟩
  | none =>
    obtain ⟨rfl, hunknown⟩ := hfound
    obtain ⟨⟨fs2, off⟩, hempty, hend⟩ := bind_eq_ok.mp hrest
    obtain rfl := (scans_emptyLoop dp).same h.toCalm hloaded hempty
    obtain ⟨k, -, hbefore, hends⟩ :=
      (scans_emptyLoop dp).ends h.toCalm hloaded (e := 0) (by omega) hempty
    obtain ⟨fs3, hwrite, hend⟩ := bind_eq_ok.mp hend
    cases Except.ok.inj hend
    have htaken : ∀ j, j < k → (fs2.dirent (fs2.icache dp).inum j).inum ≠ 0 ∧
        direntSize * j + direntSize ≤ (fs2.din dp).size :=
      fun j hj => hbefore j (Nat.zero_le j) hj
    have hroom : off = direntSize * k ∧ (direntSize * k + direntSize ≤ (fs2.din dp).size ∧
        (fs2.dirent (fs2.icache dp).inum k).inum = 0 ∨ (fs2.din dp).size = direntSize * k) := by
      rcases hends with ⟨hin, hstop, rfl⟩ | ⟨hend, rfl⟩
      · exact ⟨rfl, .inl ⟨hin, hstop⟩⟩
      · refine ⟨rfl, .inr ?_⟩
        by_cases hk : k = 0
        · simp only [direntSize] at *
          omega
        · have hlast := (htaken (k - 1) (by omega)).2
          simp only [direntSize] at *
          omega
    obtain ⟨rfl, hroom⟩ := hroom
    obtain ⟨hwrites, hentry⟩ :=
      h.toCalm.writeDirent_writes hloaded (Dirent.length_encode _) hwrite
    rw [decode_encode hinum] at hwrites
    exact .inr ⟨rfl, k, hwrites, hentry, hunknown, htaken, hroom⟩

theorem Calm.isdirempty_eq {empty : Bool} (h : fs.Calm) (hloaded : fs.Loaded dp)
    (hok : fs.isdirempty dp = .ok (fs', empty)) : fs' = fs ∧ (empty = true →
      ∀ e, 2 ≤ e → direntSize * e < (fs.din dp).size →
        (fs.dirent (fs.icache dp).inum e).inum = 0) := by
  refine ⟨(scans_emptyFrom dp).same h hloaded hok, fun htrue e he hin => ?_⟩
  unfold isdirempty at hok
  rw [Nat.mul_comm 2] at hok
  obtain ⟨k, -, hbefore, hends⟩ :=
    (scans_emptyFrom dp).ends h hloaded (by omega) hok
  rcases hends with ⟨-, -, rfl⟩ | ⟨hend, -⟩
  · cases htrue
  · refine not_not.mp (hbefore e he ?_).1
    simp only [direntSize] at *
    omega

end Fs

end Xv6

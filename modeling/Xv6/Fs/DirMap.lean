import Xv6.Lib.SlotTable
import Xv6.Fs.Ownership
import Xv6.Fs.Write

/-! A directory as a map from names to inode numbers. Names count up to `dirsiz` bytes, as they
are stored. -/
namespace Xv6

open Word BlockTree Fallible

namespace Fs

variable {fs fs' : Fs} {ip dp : Iref} {held : List Iref} {d e inum : Nat} {name : Name}

def slots (fs : Fs) (d : Nat) : SlotTable Name Nat := fun e =>
  if fs.Uses d e then some (strncpy dirsiz (fs.dirent d e).name, (fs.dirent d e).inum) else none

def resolve (fs : Fs) (d : Nat) (name : Name) : Option Nat :=
  (fs.slots d).find ((fs.dinode d).size / direntSize) (strncpy dirsiz name)

/-- The names in a directory differ, and there is no piece of an entry. -/
structure Tidy (fs : Fs) : Prop where
  unique : ∀ d, fs.IsDir d → (fs.slots d).Unique
  whole : ∀ d, fs.IsDir d → direntSize ∣ (fs.dinode d).size

theorem slots_of_uses (h : fs.Uses d e) :
    fs.slots d e = some (strncpy dirsiz (fs.dirent d e).name, (fs.dirent d e).inum) := if_pos h

theorem slots_eq_some {key : Name} {i : Nat} : fs.slots d e = some (key, i) ↔
    fs.Uses d e ∧ strncpy dirsiz (fs.dirent d e).name = key ∧ (fs.dirent d e).inum = i := by
  unfold slots
  split
  · rename_i huses
    rw [Option.some.injEq, Prod.mk.injEq]
    exact (and_iff_right huses).symm
  · rename_i huses
    exact iff_of_false (by simp) fun h => huses h.1

theorem slots_below (fs : Fs) (d : Nat) :
    (fs.slots d).Below ((fs.dinode d).size / direntSize) := by
  intro e he
  have huses : fs.Uses d e := by
    by_contra hnot
    exact he (if_neg hnot)
  have hin := huses.1
  simp only [direntSize] at *
  omega

theorem holds_iff : (fs.slots d).Holds (strncpy dirsiz name) ↔
    ∃ e, fs.Uses d e ∧ namecmp name (fs.dirent d e).name = true := by
  simp only [SlotTable.Holds, slots_eq_some, namecmp_iff]
  constructor
  · rintro ⟨e, i, huses, hname, -⟩
    exact ⟨e, huses, hname.symm⟩
  · rintro ⟨e, huses, hname⟩
    exact ⟨e, _, huses, hname.symm, rfl⟩

section Resolve

variable (hunique : (fs.slots d).Unique)
include hunique

theorem resolve_eq_some {i : Nat} : fs.resolve d name = some i ↔ ∃ e, fs.Uses d e ∧
    namecmp name (fs.dirent d e).name = true ∧ (fs.dirent d e).inum = i := by
  rw [resolve, SlotTable.find_eq_some hunique (fs.slots_below d)]
  simp only [slots_eq_some, namecmp_iff, eq_comm (b := strncpy dirsiz name)]

theorem resolve_eq_none : fs.resolve d name = none ↔
    ∀ e, fs.Uses d e → namecmp name (fs.dirent d e).name = false := by
  rw [resolve, SlotTable.find_eq_none hunique (fs.slots_below d), holds_iff]
  simp only [not_exists, not_and, Bool.not_eq_true]

end Resolve

theorem slots_congr (huses : ∀ e, fs'.Uses d e ↔ fs.Uses d e)
    (hdirent : ∀ e, fs.Uses d e → fs'.dirent d e = fs.dirent d e) : fs'.slots d = fs.slots d := by
  funext e
  unfold slots
  by_cases h : fs.Uses d e
  · rw [if_pos h, if_pos ((huses e).mpr h), hdirent e h]
  · rw [if_neg h, if_neg ((huses e).not.mpr h)]

structure SameDir (fs fs' : Fs) (d : Nat) : Prop where
  slots : fs'.slots d = fs.slots d
  size : (fs'.dinode d).size = (fs.dinode d).size

theorem SameDir.resolve (h : SameDir fs fs' d) (name : Name) :
    fs'.resolve d name = fs.resolve d name := by
  rw [Fs.resolve, Fs.resolve, h.slots, h.size]

theorem SameFile.sameDir (h : SameFile fs fs' d) : SameDir fs fs' d :=
  ⟨slots_congr h.uses fun _ huses => h.dirent huses.1, by rw [h.dinode]⟩

theorem Tidy.of_same (h : fs.Tidy)
    (hsame : ∀ d, fs'.IsDir d → fs.IsDir d ∧ SameDir fs fs' d) : fs'.Tidy where
  unique := by
    intro d hdir
    obtain ⟨hdir, hsame⟩ := hsame d hdir
    rw [hsame.slots]
    exact h.unique d hdir
  whole := by
    intro d hdir
    obtain ⟨hdir, hsame⟩ := hsame d hdir
    rw [hsame.size]
    exact h.whole d hdir

theorem Tidy.alters (h : fs.Tidy) (halters : Alters fs fs' d)
    (hunique : fs.IsDir d → (fs'.slots d).Unique)
    (hwhole : fs.IsDir d → direntSize ∣ (fs'.dinode d).size) : fs'.Tidy := by
  refine ⟨fun n hdir => ?_, fun n hdir => ?_⟩
  · rw [halters.isDir] at hdir
    by_cases hn : n = d
    · subst hn
      exact hunique hdir
    · rw [(halters.others n hn).sameDir.slots]
      exact h.unique n hdir
  · rw [halters.isDir] at hdir
    by_cases hn : n = d
    · subst hn
      exact hwhole hdir
    · rw [(halters.others n hn).dinode]
      exact h.whole n hdir

theorem Passes.sameDir (h : Passes fs fs' held) (hdir : fs'.IsDir d) :
    fs.IsDir d ∧ SameDir fs fs' d := by
  rcases h.files d with ⟨hdinode, hbyte⟩ | ⟨-, -, hfree⟩
  · have hsame : SameFile fs fs' d := ⟨hdinode, fun i _ => by rw [hbyte]⟩
    exact ⟨hsame.isDir.mp hdir, hsame.sameDir⟩
  · rw [hdir.2] at hfree
    cases hfree

theorem Calm.store_sameDir {new : Dinode} (h : fs.Calm) (hloaded : fs.Loaded ip)
    (htype : new.type = (fs.din ip).type) (hsize : new.size = (fs.din ip).size)
    (haddrs : new.addrs = (fs.din ip).addrs) (d : Nat) :
    (((fs.setDin ip new).iupdate ip).IsDir d ↔ fs.IsDir d) ∧
      SameDir fs ((fs.setDin ip new).iupdate ip) d := by
  obtain ⟨-, hdata, -, hdinode⟩ := store_same fs ip new
  have hsynced := (h.loaded ip hloaded).2
  rw [hsynced] at htype hsize haddrs
  have hbyte := byteOf_store htype haddrs hdata hdinode
  generalize (fs.setDin ip new).iupdate ip = fs' at *
  have hfields : (fs'.dinode d).type = (fs.dinode d).type ∧
      (fs'.dinode d).size = (fs.dinode d).size := by
    rw [hdinode]
    by_cases hd : d = (fs.icache ip).inum
    · subst hd
      rw [Function.update_self]
      exact ⟨htype, hsize⟩
    · rw [Function.update_of_ne hd]
      exact ⟨rfl, rfl⟩
  have hdirent : ∀ e, fs'.dirent d e = fs.dirent d e := by
    intro e
    unfold Fs.dirent
    rw [hbyte]
  refine ⟨?_, slots_congr (fun e => ?_) (fun e _ => hdirent e), hfields.2⟩
  · rw [IsDir, IsDir, hfields.1]
  · rw [Uses, Uses, hfields.2, hdirent]

theorem Writes.whole {de : Dirent} (h : Writes fs fs' d e de)
    (hwhole : direntSize ∣ (fs.dinode d).size) :
    direntSize ∣ (fs'.dinode d).size := by
  rw [h.size]
  simp only [direntSize] at *
  omega

section Writes

variable {de : Dirent} (h : Writes fs fs' d e de)
  (hroom : direntSize * e + direntSize ≤ (fs.dinode d).size ∨
    (fs.dinode d).size = direntSize * e)
include h hroom

theorem Writes.slots_enter (hde : de.inum ≠ 0) :
    fs'.slots d = (fs.slots d).enter e (strncpy dirsiz de.name) de.inum := by
  funext k
  rw [SlotTable.enter_apply]
  split
  · rename_i hk
    subst hk
    rw [slots_of_uses (h.uses_here.mpr hde), h.here]
  · rename_i hk
    unfold slots
    by_cases huses : fs.Uses d k
    · rw [if_pos huses, if_pos ((h.uses_there hroom hk).mpr huses), h.there k hk huses.1]
    · rw [if_neg huses, if_neg ((h.uses_there hroom hk).not.mpr huses)]

theorem Writes.slots_clear (hde : de.inum = 0) : fs'.slots d = (fs.slots d).clear e := by
  funext k
  rw [SlotTable.clear_apply]
  split
  · rename_i hk
    subst hk
    exact if_neg fun huses => h.uses_here.mp huses hde
  · rename_i hk
    unfold slots
    by_cases huses : fs.Uses d k
    · rw [if_pos huses, if_pos ((h.uses_there hroom hk).mpr huses), h.there k hk huses.1]
    · rw [if_neg huses, if_neg ((h.uses_there hroom hk).not.mpr huses)]

end Writes

theorem Enters.new (h : Enters fs fs' dp name inum e) (hcalm : fs.Calm)
    (hloaded : fs.Loaded dp) :
    ¬ (fs.slots (fs.icache dp).inum).Holds (strncpy dirsiz name) := by
  rw [holds_iff]
  rintro ⟨k, huses, hname⟩
  have hin := huses.1
  rw [← (hcalm.loaded dp hloaded).2] at hin
  rw [h.unknown k (by simp only [direntSize] at *; omega) huses.2] at hname
  cases hname

theorem kept_tidy : Kept Tidy where
  passes h htidy := htidy.of_same fun _ => h.sameDir
  store hcalm hloaded htype hsize haddrs htidy := htidy.of_same fun d hdir =>
    have hsame := hcalm.store_sameDir hloaded htype hsize haddrs d
    ⟨hsame.1.mp hdir, hsame.2⟩
  enters := by
    intro fs fs' dp name inum e hcalm hloaded h htidy
    obtain ⟨-, hroom⟩ := h.spot hcalm hloaded
    refine htidy.alters h.writes.toAlters (fun hdir => ?_)
      fun hdir => h.writes.whole (htidy.whole _ hdir)
    by_cases hinum : inum = 0
    · rw [h.writes.slots_clear hroom hinum]
      exact (htidy.unique _ hdir).clear
    · rw [h.writes.slots_enter hroom hinum, strncpy_strncpy]
      exact (htidy.unique _ hdir).enter (h.new hcalm hloaded)
  clears := by
    intro fs fs' dp e de huses h hzero htidy
    refine htidy.alters h.toAlters (fun hdir => ?_)
      fun hdir => h.whole (htidy.whole _ hdir)
    rw [h.slots_clear (.inl huses.1) hzero]
    exact (htidy.unique _ hdir).clear
  makes := by
    intro fs fs' n new h hsize htidy
    have hempty : ∀ d, fs'.IsDir d → d ≠ n → fs.IsDir d ∧ SameDir fs fs' d := fun d hdir hd =>
      ⟨(h.others d hd).isDir.mp hdir, (h.others d hd).sameDir⟩
    refine ⟨fun d hdir => ?_, fun d hdir => ?_⟩
    · by_cases hd : d = n
      · intro i j k v w hi
        have hin := (slots_eq_some.mp hi).1.1
        rw [hd, h.dinode, hsize] at hin
        simp only [direntSize] at hin
        omega
      · obtain ⟨hdir, hsame⟩ := hempty d hdir hd
        rw [hsame.slots]
        exact htidy.unique d hdir
    · by_cases hd : d = n
      · rw [hd, h.dinode, hsize]
        exact dvd_zero _
      · obtain ⟨hdir, hsame⟩ := hempty d hdir hd
        rw [hsame.size]
        exact htidy.whole d hdir
  alters h hleaf htidy := htidy.alters h (fun hdir => absurd hdir hleaf)
    fun hdir => absurd hdir hleaf

/-! References that `dirlookup` has made go without a change to the disk. -/

theorem iget_spare (hok : fs.iget inum = .ok (fs', ip)) :
    ¬ ((fs'.icache ip).valid = true ∧ (fs'.icache ip).ref = 1) ∧ fs'.dinode = fs.dinode ∧
      fs'.data = fs.data := by
  unfold Fs.iget at hok
  split at hok
  · rename_i i hfound
    cases Except.ok.inj hok
    have hthere := List.find?_some hfound
    simp only [Bool.and_eq_true, decide_eq_true_eq] at hthere
    refine ⟨fun hone => ?_, rfl, rfl⟩
    rw [setInode_self] at hone
    dsimp only at hone
    omega
  · split at hok
    · cases hok
    · cases Except.ok.inj hok
      refine ⟨fun hone => ?_, rfl, rfl⟩
      rw [setInode_self] at hone
      cases hone.1

theorem iput_spare (h : ¬ ((fs.icache ip).valid = true ∧ (fs.icache ip).ref = 1)) :
    ∃ fs', fs.iput ip = .ok fs' ∧ fs'.dinode = fs.dinode ∧ fs'.data = fs.data := by
  refine ⟨fs.setInode ip { fs.icache ip with ref := (fs.icache ip).ref - 1 }, ?_, rfl, rfl⟩
  unfold Fs.iput
  dsimp only
  rw [if_neg fun hall => h ⟨hall.1, hall.2.2⟩]
  rfl

theorem SameEntry.spare (h : SameEntry fs fs' dp)
    (hspare : ¬ ((fs.icache ip).valid = true ∧ (fs.icache ip).ref = 1)) :
    ¬ ((fs'.icache ip).valid = true ∧ (fs'.icache ip).ref = 1) := by
  by_cases hip : ip = dp
  · rw [hip] at hspare ⊢
    rw [h.valid, h.ref]
    exact hspare
  · rw [h.others ip hip]
    exact hspare

theorem dirlookup_spare {off : Nat} (hcalm : fs.Calm) (hloaded : fs.Loaded dp)
    (hok : fs.dirlookup dp name = .ok (fs', some (off, ip))) :
    ¬ ((fs'.icache ip).valid = true ∧ (fs'.icache ip).ref = 1) ∧ fs'.dinode = fs.dinode ∧
      fs'.data = fs.data := by
  unfold Fs.dirlookup at hok
  split at hok
  · cases hok
  · obtain ⟨⟨fs1, r⟩, hloop, hrest⟩ := bind_eq_ok.mp hok
    obtain rfl := (scans_lookupLoop dp name).same hcalm hloaded hloop
    dsimp only at hrest
    split at hrest
    · cases hrest
    · obtain ⟨⟨fs2, ip⟩, hget, hrest⟩ := bind_eq_ok.mp hrest
      cases Except.ok.inj hrest
      exact iget_spare hget

def dirunlink (fs : Fs) (dp : Iref) (name : Name) : Except Panic (Fs × Int) := do
  let (fs, found) ← fs.dirlookup dp name
  match found with
  | none => return (fs, -1)
  | some (off, ip) =>
      let fs ← fs.writeDirent dp (List.replicate direntSize 0) off .unlinkWritei
      return (← fs.iput ip, 0)

section

variable (h : fs.Holding held) (hloaded : fs.Loaded dp) (htidy : fs.Tidy)
include h hloaded htidy

theorem Holding.dirlookup_resolve {found : Option (Nat × Iref)}
    (hok : fs.dirlookup dp name = .ok (fs', found)) :
    found.map (fun x => (fs'.icache x.2).inum) = fs.resolve (fs.icache dp).inum name := by
  obtain ⟨hdir, -, hfound⟩ := h.dirlookup_eq hloaded hok
  obtain ⟨halloc, hsynced⟩ := h.loaded dp hloaded
  rw [hsynced] at hdir hfound
  have hunique := htidy.unique _ ⟨halloc.1, hdir⟩
  symm
  cases found with
  | none =>
    refine (resolve_eq_none hunique).mpr fun e huses => hfound.2 e ?_ huses.2
    have hin := huses.1
    simp only [direntSize] at *
    omega
  | some found =>
    obtain ⟨e, -, hin, hused, hname, hinum⟩ := hfound
    exact (resolve_eq_some hunique).mpr ⟨e, ⟨hin, hused⟩, hname, hinum.symm⟩

theorem Holding.dirlink_resolve {r : Int} (hpos : 0 < inum) (hinum : inum < 65536)
    (hok : fs.dirlink dp name inum = .ok (fs', r)) :
    r = -1 ∧ fs.resolve (fs.icache dp).inum name ≠ none ∧ fs'.dinode = fs.dinode ∧
        fs'.data = fs.data ∨
      r = 0 ∧ fs.resolve (fs.icache dp).inum name = none ∧
        (∀ key, fs'.resolve (fs.icache dp).inum key =
          if namecmp key name then some inum else fs.resolve (fs.icache dp).inum key) ∧
        (∀ n, n ≠ (fs.icache dp).inum → SameFile fs fs' n) ∧
        ∃ e, Enters fs fs' dp name inum e := by
  obtain ⟨hdir, hcases⟩ := h.dirlink_eq hloaded hinum hok
  obtain ⟨halloc, hsynced⟩ := h.loaded dp hloaded
  rw [hsynced] at hdir
  have hunique := htidy.unique _ ⟨halloc.1, hdir⟩
  obtain ⟨⟨fs1, present⟩, hlookup, hrest⟩ := bind_eq_ok.mp hok
  have hresolve := h.dirlookup_resolve hloaded htidy hlookup
  cases present with
  | some found =>
    obtain ⟨fs2, hput, hrest⟩ := bind_eq_ok.mp hrest
    cases Except.ok.inj hrest
    obtain ⟨hspare, hdinode1, hdata1⟩ := dirlookup_spare h.toCalm hloaded hlookup
    obtain ⟨fs3, hput', hdinode, hdata⟩ := iput_spare hspare
    cases Except.ok.inj (hput.symm.trans hput')
    refine .inl ⟨rfl, ?_, hdinode.trans hdinode1, hdata.trans hdata1⟩
    rw [← hresolve]
    exact Option.some_ne_none _
  | none =>
    obtain ⟨⟨fs2, off⟩, hempty, hend⟩ := bind_eq_ok.mp hrest
    obtain ⟨fs3, hwrite, hend⟩ := bind_eq_ok.mp hend
    cases Except.ok.inj hend
    rcases hcases with ⟨hr, -⟩ | ⟨-, e, henters⟩
    · cases hr
    · obtain ⟨hfree, hroom⟩ := henters.spot h.toCalm hloaded
      have hslots := henters.writes.slots_enter hroom hpos.ne'
      have hbelow := fs'.slots_below (fs.icache dp).inum
      refine .inr ⟨rfl, hresolve.symm, fun key => ?_, henters.writes.others, e, henters⟩
      rw [hslots, strncpy_strncpy] at hbelow
      rw [resolve, hslots, strncpy_strncpy, SlotTable.find_enter hunique
        (henters.new h.toCalm hloaded) (if_neg hfree) (fs.slots_below _) hbelow]
      exact if_congr (namecmp_iff _ _).symm rfl rfl

theorem Holding.dirunlink_resolve {r : Int} (hdp : dp ∈ held)
    (hok : fs.dirunlink dp name = .ok (fs', r)) :
    r = -1 ∧ fs.resolve (fs.icache dp).inum name = none ∧ fs' = fs ∨
      r = 0 ∧ fs.resolve (fs.icache dp).inum name ≠ none ∧
        (∀ key, fs'.resolve (fs.icache dp).inum key =
          if namecmp key name then none else fs.resolve (fs.icache dp).inum key) ∧
        ∀ n, n ≠ (fs.icache dp).inum → SameFile fs fs' n := by
  obtain ⟨⟨fs1, found⟩, hlookup, hok⟩ := bind_eq_ok.mp hok
  have hresolve := h.dirlookup_resolve hloaded htidy hlookup
  obtain ⟨hdir, hpasses, hfound⟩ := h.dirlookup_eq hloaded hlookup
  cases found with
  | none =>
    cases Except.ok.inj hok
    exact .inl ⟨rfl, hresolve.symm, hfound.1⟩
  | some found =>
    obtain ⟨off, ip⟩ := found
    obtain ⟨fs2, hwrite, hok⟩ := bind_eq_ok.mp hok
    obtain ⟨fs3, hput, hok⟩ := bind_eq_ok.mp hok
    cases Except.ok.inj hok
    obtain ⟨h1, hkeeps⟩ := h.dirlookup hloaded hlookup
    obtain ⟨e, rfl, hin, hused, hname, -⟩ := hfound
    obtain ⟨hspare, hdinode, hdata⟩ := dirlookup_spare h.toCalm hloaded hlookup
    have hloaded1 := hkeeps dp hdp hloaded
    have hsame : ∀ n, SameFile fs fs1 n := fun n =>
      sameFile_of_eq (congrFun hdinode n) hdata
    obtain ⟨halloc, hsynced⟩ := h.loaded dp hloaded
    rw [hsynced] at hdir hin
    have hunique := htidy.unique _ ⟨halloc.1, hdir⟩
    have huses : fs.Uses (fs.icache dp).inum e := ⟨hin, hused⟩
    obtain ⟨hwrites, hentry⟩ := h1.toCalm.writeDirent_writes hloaded1 (by decide) hwrite
    rw [hpasses.inums dp hdp] at hwrites
    -- the entry that is written is the one that was found
    have hslots := hwrites.slots_clear (.inl ((hsame _).uses e |>.mpr huses).1) decode_zeroes
    rw [(hsame _).sameDir.slots] at hslots
    obtain ⟨fs3, hput', hdinode3, hdata3⟩ := iput_spare (hentry.spare hspare)
    cases Except.ok.inj (hput.symm.trans hput')
    have hlast : ∀ n, SameFile fs2 fs' n := fun n =>
      sameFile_of_eq (congrFun hdinode3 n) hdata3
    refine .inr ⟨rfl, ?_, fun key => ?_, fun n hn =>
      ((hsame n).trans (hwrites.others n hn)).trans (hlast n)⟩
    · rw [← hresolve]
      exact Option.some_ne_none _
    · have hbelow := fs2.slots_below (fs.icache dp).inum
      rw [hslots] at hbelow
      rw [(hlast _).sameDir.resolve, resolve, hslots,
        SlotTable.find_clear hunique (slots_of_uses huses) (fs.slots_below _) hbelow]
      refine if_congr ?_ rfl rfl
      rw [namecmp_iff, (namecmp_iff _ _).mp hname]

end

end Fs

end Xv6

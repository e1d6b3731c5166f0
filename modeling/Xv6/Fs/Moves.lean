import Xv6.Fs.LinkCreate

/-! What the calls on names are made of. A property of the disk that outlasts each of the
pieces outlasts the calls, and so every run. -/
namespace Xv6

open Fallible

namespace Fs

variable {fs fs' : Fs} {ip dp cwd : Iref} {held : List Iref} {d e inum : Nat} {name : Name}

/-- `inv` outlasts the coming and going of references, a change of fields other than the type,
the size and the block map, a new name, a cleared entry, a new inode, and a write to a file that
is no directory. -/
structure Kept (inv : Fs → Prop) : Prop where
  passes : ∀ {fs fs' held}, Passes fs fs' held → inv fs → inv fs'
  store : ∀ {fs ip d}, fs.Calm → fs.Loaded ip → d.type = (fs.din ip).type →
    d.size = (fs.din ip).size → d.addrs = (fs.din ip).addrs → inv fs →
    inv ((fs.setDin ip d).iupdate ip)
  enters : ∀ {fs fs' dp name inum e}, fs.Calm → fs.Loaded dp →
    Enters fs fs' dp name inum e → inv fs → inv fs'
  clears : ∀ {fs fs' dp e de}, fs.Uses (fs.icache dp).inum e →
    Writes fs fs' (fs.icache dp).inum e de → de.inum = 0 → inv fs → inv fs'
  makes : ∀ {fs fs' n new}, Makes fs fs' n new → new.size = 0 → inv fs → inv fs'
  alters : ∀ {fs fs' n}, Alters fs fs' n → ¬ fs.IsDir n → inv fs → inv fs'

theorem Holding.inum_small (h : fs.Holding held) (hloaded : fs.Loaded ip) :
    (fs.icache ip).inum < 65536 := by
  have harea := (h.loaded ip hloaded).1.1
  simp only [inodeArea] at harea
  omega

theorem Passes.uses (h : Passes fs fs' held) (hdp : dp ∈ held) (hcalm : fs'.Calm)
    (hloaded : fs'.Loaded dp) (huses : fs.Uses (fs.icache dp).inum e) :
    fs'.Uses (fs'.icache dp).inum e := by
  have halloc := (hcalm.loaded dp hloaded).1
  rw [h.inums dp hdp] at halloc ⊢
  obtain ⟨hdinode, hbyte⟩ := h.same halloc
  have hsame : SameFile fs fs' (fs.icache dp).inum := ⟨hdinode, fun i _ => by rw [hbyte]⟩
  exact (hsame.uses e).mpr huses

namespace Kept

variable {inv : Fs → Prop} (hkept : Kept inv)
include hkept

theorem dirlink {r : Int} (h : fs.Holding held) (hloaded : fs.Loaded dp) (hinum : inum < 65536)
    (hinv : inv fs) (hok : fs.dirlink dp name inum = .ok (fs', r)) : inv fs' := by
  obtain ⟨-, ⟨-, hpasses⟩ | ⟨-, e, henters⟩⟩ := h.dirlink_eq hloaded hinum hok
  · exact hkept.passes hpasses hinv
  · exact hkept.enters h.toCalm hloaded henters hinv

theorem addLink (h : fs.Calm) (hloaded : fs.Loaded ip) (hinv : inv fs) (delta : Int) :
    inv (fs.addLink ip delta) :=
  hkept.store h hloaded rfl rfl rfl hinv

theorem iput (h : fs.Holding (ip :: held)) (hinv : inv fs) (hok : fs.iput ip = .ok fs') :
    fs'.Holding held ∧ inv fs' :=
  ⟨(h.iput hok).1, hkept.passes (h.iput_passes hok) hinv⟩

theorem linkBad {r : Int} (h : fs.Holding (ip :: held)) (hinv : inv fs)
    (hok : fs.linkBad ip = .ok (fs', r)) : fs'.Holding held ∧ inv fs' := by
  obtain ⟨fs1, hlock, hok⟩ := bind_eq_ok.mp hok
  obtain ⟨fs2, hput, hok⟩ := bind_eq_ok.mp hok
  cases Except.ok.inj hok
  obtain ⟨h1, -, hloaded⟩ := h.ilock hlock
  have hinv1 := hkept.passes (ilock_passes held hlock) hinv
  exact hkept.iput (h1.addLink hloaded (-1)).1 (hkept.addLink h1.toCalm hloaded hinv1 (-1)) hput

theorem link {old new : Name} {r : Int} (h : fs.Holding held) (hcwd : cwd ∈ held) (hinv : inv fs)
    (hok : fs.link cwd old new = .ok (fs', r)) : fs'.Holding held ∧ inv fs' := by
  obtain ⟨⟨fs1, found⟩, hold, hok⟩ := bind_eq_ok.mp hok
  obtain ⟨h1, -⟩ := h.namex hcwd hold
  have hinv1 := hkept.passes (h.namex_passes hcwd hold) hinv
  cases found with
  | none =>
    cases Except.ok.inj hok
    exact ⟨h1, hinv1⟩
  | some found =>
    obtain ⟨ip, last⟩ := found
    obtain ⟨fs2, hlock, hok⟩ := bind_eq_ok.mp hok
    obtain ⟨h2, -, hloaded⟩ := h1.ilock hlock
    have hinv2 := hkept.passes (ilock_passes held hlock) hinv1
    split at hok
    · obtain ⟨fs3, hput, hok⟩ := bind_eq_ok.mp hok
      cases Except.ok.inj hok
      exact hkept.iput h2 hinv2 hput
    · obtain ⟨⟨fs3, parent⟩, hnew, hok⟩ := bind_eq_ok.mp hok
      obtain ⟨h2', hkeeps2⟩ := h2.addLink hloaded 1
      have hmem : cwd ∈ ip :: held := List.mem_cons_of_mem ip hcwd
      obtain ⟨h3, hkeeps3⟩ := h2'.namex hmem hnew
      have hloaded3 := hkeeps3 ip List.mem_cons_self (hkeeps2 ip List.mem_cons_self hloaded)
      have hinv3 := hkept.passes (h2'.namex_passes hmem hnew)
        (hkept.addLink h2.toCalm hloaded hinv2 1)
      cases parent with
      | none => exact hkept.linkBad h3 hinv3 hok
      | some parent =>
        obtain ⟨dp, name⟩ := parent
        obtain ⟨fs4, hlockp, hok⟩ := bind_eq_ok.mp hok
        obtain ⟨⟨fs5, linked⟩, hlink, hok⟩ := bind_eq_ok.mp hok
        obtain ⟨fs6, hputp, hok⟩ := bind_eq_ok.mp hok
        obtain ⟨h4, hkeeps4, hloadedp⟩ := h3.ilock hlockp
        have hinv4 := hkept.passes (ilock_passes held hlockp) hinv3
        have hloaded4 := hkeeps4 ip (List.mem_cons_of_mem dp List.mem_cons_self) hloaded3
        obtain ⟨h5, -⟩ := h4.dirlink hloadedp List.mem_cons_self hlink
        have hinv5 := hkept.dirlink h4 hloadedp (h4.inum_small hloaded4) hinv4 hlink
        obtain ⟨h6, hinv6⟩ := hkept.iput h5 hinv5 hputp
        split at hok
        · exact hkept.linkBad h6 hinv6 hok
        · obtain ⟨fs7, hput, hok⟩ := bind_eq_ok.mp hok
          cases Except.ok.inj hok
          exact hkept.iput h6 hinv6 hput

theorem unlinkEntry {r : Int} (h : fs.Holding (ip :: dp :: held)) (hloadedp : fs.Loaded dp)
    (huses : fs.Uses (fs.icache dp).inum e) (hinv : inv fs)
    (hok : fs.unlinkEntry dp (direntSize * e) ip = .ok (fs', r)) :
    fs'.Holding held ∧ inv fs' := by
  obtain ⟨fs1, hlock, hcases⟩ := h.unlinkEntry_cases hok
  obtain ⟨h1, hkeeps1, hloaded⟩ := h.ilock hlock
  have hdp : dp ∈ ip :: dp :: held := List.mem_cons_of_mem ip List.mem_cons_self
  have hloadedp := hkeeps1 dp hdp hloadedp
  have hpasses := ilock_passes (ip :: dp :: held) hlock
  have huses := hpasses.uses hdp h1.toCalm hloadedp huses
  have hinv1 := hkept.passes hpasses hinv
  obtain ⟨fs2, fs3, -, hwrite, hputp, hput⟩ | ⟨fs2, hput, hputp⟩ := hcases
  · obtain ⟨h2, hkeeps2⟩ := h1.writeDirent hloadedp hwrite
    obtain ⟨hwrites, -⟩ := h1.toCalm.writeDirent_writes hloadedp (by decide) hwrite
    have hinv2 := hkept.clears huses hwrites decode_zeroes hinv1
    have hloadedp2 := hkeeps2 dp hdp hloadedp
    have hlinks : (if (fs2.din ip).type = .dir then fs2.addLink dp (-1) else fs2).Holding
        (ip :: dp :: held) ∧ Keeps fs2
        (if (fs2.din ip).type = .dir then fs2.addLink dp (-1) else fs2) (ip :: dp :: held) ∧
        inv (if (fs2.din ip).type = .dir then fs2.addLink dp (-1) else fs2) := by
      split
      · exact ⟨(h2.addLink hloadedp2 (-1)).1, (h2.addLink hloadedp2 (-1)).2,
          hkept.addLink h2.toCalm hloadedp2 hinv2 (-1)⟩
      · exact ⟨h2, .refl _ _, hinv2⟩
    obtain ⟨h3, hkeeps3, hinv3⟩ := hlinks
    obtain ⟨h4, hkeeps4⟩ := (h3.perm (.swap dp ip held)).iput hputp
    have hinv4 := (hkept.iput (h3.perm (.swap dp ip held)) hinv3 hputp).2
    have hloaded4 := hkeeps4 ip List.mem_cons_self
      (hkeeps3 ip List.mem_cons_self (hkeeps2 ip List.mem_cons_self hloaded))
    exact hkept.iput (h4.addLink hloaded4 (-1)).1
      (hkept.addLink h4.toCalm hloaded4 hinv4 (-1)) hput
  · obtain ⟨h2, hinv2⟩ := hkept.iput h1 hinv1 hput
    exact hkept.iput h2 hinv2 hputp

theorem unlink {path : Name} {r : Int} (h : fs.Holding held) (hcwd : cwd ∈ held) (hinv : inv fs)
    (hok : fs.unlink cwd path = .ok (fs', r)) : fs'.Holding held ∧ inv fs' := by
  obtain ⟨⟨fs1, parent⟩, hparent, hok⟩ := bind_eq_ok.mp hok
  obtain ⟨h1, -⟩ := h.namex hcwd hparent
  have hinv1 := hkept.passes (h.namex_passes hcwd hparent) hinv
  cases parent with
  | none =>
    cases Except.ok.inj hok
    exact ⟨h1, hinv1⟩
  | some parent =>
    obtain ⟨dp, name⟩ := parent
    obtain ⟨fs2, hlock, hok⟩ := bind_eq_ok.mp hok
    obtain ⟨h2, -, hloadedp⟩ := h1.ilock hlock
    have hinv2 := hkept.passes (ilock_passes held hlock) hinv1
    split at hok
    · obtain ⟨fs3, hput, hok⟩ := bind_eq_ok.mp hok
      cases Except.ok.inj hok
      exact hkept.iput h2 hinv2 hput
    · obtain ⟨⟨fs3, found⟩, hlookup, hok⟩ := bind_eq_ok.mp hok
      obtain ⟨h3, hkeeps3⟩ := h2.dirlookup hloadedp hlookup
      have hloadedp3 := hkeeps3 dp List.mem_cons_self hloadedp
      obtain ⟨-, hpasses, hfound⟩ := h2.dirlookup_eq hloadedp hlookup
      have hinv3 := hkept.passes hpasses hinv2
      cases found with
      | none =>
        obtain ⟨fs4, hput, hok⟩ := bind_eq_ok.mp hok
        cases Except.ok.inj hok
        exact hkept.iput h3 hinv3 hput
      | some found =>
        obtain ⟨off, ip⟩ := found
        obtain ⟨e, rfl, hin, hused, -, -⟩ := hfound
        rw [(h2.loaded dp hloadedp).2] at hin
        exact hkept.unlinkEntry h3 hloadedp3
          (hpasses.uses List.mem_cons_self h3.toCalm hloadedp3 ⟨hin, hused⟩) hinv3 hok

theorem createDots (h : fs.Holding held) (hip : ip ∈ held) (hdp : dp ∈ held)
    (hloaded : fs.Loaded ip) (hloadedp : fs.Loaded dp) (hinv : inv fs)
    (hok : fs.createDots dp ip = .ok fs') : inv fs' := by
  obtain ⟨h1, hkeeps1⟩ := h.addLink hloadedp 1
  have hinv1 := hkept.addLink h.toCalm hloadedp hinv 1
  have hloaded1 := hkeeps1 ip hip hloaded
  obtain ⟨⟨fs2, linked⟩, hdot, hok⟩ := bind_eq_ok.mp hok
  obtain ⟨h2, hkeeps2⟩ := h1.dirlink hloaded1 hip hdot
  have hinv2 := hkept.dirlink h1 hloaded1 (h1.inum_small hloaded1) hinv1 hdot
  dsimp only at hok
  split at hok
  · cases hok
  · obtain ⟨⟨fs3, linked'⟩, hdotdot, hok⟩ := bind_eq_ok.mp hok
    have hloadedp2 := hkeeps2 dp hdp (hkeeps1 dp hdp hloadedp)
    have hinv3 := hkept.dirlink h2 (hkeeps2 ip hip hloaded1) (h2.inum_small hloadedp2) hinv2
      hdotdot
    dsimp only at hok
    split at hok
    · cases hok
    · cases Except.ok.inj hok
      exact hinv3

theorem ialloc {type : FileType} (h : fs.Holding held) (hinv : inv fs)
    (hok : fs.ialloc type = .ok (fs', ip)) : inv fs' := by
  obtain ⟨hfree, -, -, hdinode, hdata, -⟩ := h.ialloc_fresh hok
  refine hkept.makes (n := (fs'.icache ip).inum) ⟨hfree, fun i hi => ?_, rfl⟩ ?_ hinv
  · exact sameFile_of_eq (by rw [hdinode, Function.update_of_ne hi]) hdata
  · rw [hdinode, Function.update_self]
    rfl

theorem createNew {type : FileType} {major minor : Int} {r : Option Iref}
    (h : fs.Holding (dp :: held)) (hloadedp : fs.Loaded dp) (hinv : inv fs)
    (hok : fs.createNew dp name type major minor = .ok (fs', r)) :
    fs'.Holding (r.toList ++ held) ∧ inv fs' := by
  obtain ⟨⟨fs1, ip⟩, halloc, hok⟩ := bind_eq_ok.mp hok
  obtain ⟨fs2, hlock, hok⟩ := bind_eq_ok.mp hok
  obtain ⟨h1, hkeeps1⟩ := h.ialloc halloc
  have hinv1 := hkept.ialloc h hinv halloc
  obtain ⟨h2, hkeeps2, hloaded⟩ := h1.ilock hlock
  have hinv2 := hkept.passes (ilock_passes held hlock) hinv1
  have hdp : dp ∈ ip :: dp :: held := List.mem_cons_of_mem ip List.mem_cons_self
  have hloadedp2 := hkeeps2 dp hdp (hkeeps1 dp List.mem_cons_self hloadedp)
  obtain ⟨h3, hkeeps3⟩ := h2.stores hloaded (h2.toCalm.store
    (d := { fs2.din ip with major := major, minor := minor, nlink := 1 }) hloaded rfl rfl rfl)
  have hinv3 := hkept.store (d := { fs2.din ip with major := major, minor := minor, nlink := 1 })
    h2.toCalm hloaded rfl rfl rfl hinv2
  have hloadedp3 := hkeeps3 dp hdp hloadedp2
  have hloaded3 := hkeeps3 ip List.mem_cons_self hloaded
  dsimp only at hok
  generalize (fs2.setDin ip { fs2.din ip with
    major := major, minor := minor, nlink := 1 }).iupdate ip = fs3 at *
  have hrest : ∃ fs4 : Fs, fs4.Holding (ip :: dp :: held) ∧ fs4.Loaded dp ∧ fs4.Loaded ip ∧
      inv fs4 ∧ (do
      let result ← fs4.dirlink dp name (fs4.icache ip).inum
      if result.2 < 0 then .error .createDirlink
      else return (← result.1.iput dp, some ip)) = .ok (fs', r) := by
    split at hok
    · obtain ⟨fs4, hdots, hok⟩ := bind_eq_ok.mp hok
      obtain ⟨h4, hkeeps4⟩ := h3.createDots List.mem_cons_self hloaded3 hloadedp3 hdots
      exact ⟨fs4, h4, hkeeps4 dp hdp hloadedp3, hkeeps4 ip List.mem_cons_self hloaded3,
        hkept.createDots h3 List.mem_cons_self hdp hloaded3 hloadedp3 hinv3 hdots, hok⟩
    · exact ⟨fs3, h3, hloadedp3, hloaded3, hinv3, hok⟩
  obtain ⟨fs4, h4, hloadedp4, hloaded4, hinv4, hrest⟩ := hrest
  obtain ⟨⟨fs5, linked⟩, hlink, hrest⟩ := bind_eq_ok.mp hrest
  obtain ⟨h5, -⟩ := h4.dirlink hloadedp4 hdp hlink
  have hinv5 := hkept.dirlink h4 hloadedp4 (h4.inum_small hloaded4) hinv4 hlink
  dsimp only at hrest
  split at hrest
  · cases hrest
  · obtain ⟨fs6, hput, hrest⟩ := bind_eq_ok.mp hrest
    cases Except.ok.inj hrest
    exact hkept.iput (h5.perm (.swap dp ip held)) hinv5 hput

theorem create {path : Name} {type : FileType} {major minor : Int} {r : Option Iref}
    (h : fs.Holding held) (hcwd : cwd ∈ held) (hinv : inv fs)
    (hok : fs.create cwd path type major minor = .ok (fs', r)) :
    fs'.Holding (r.toList ++ held) ∧ inv fs' := by
  obtain ⟨⟨fs1, parent⟩, hparent, hok⟩ := bind_eq_ok.mp hok
  obtain ⟨h1, -⟩ := h.namex hcwd hparent
  have hinv1 := hkept.passes (h.namex_passes hcwd hparent) hinv
  cases parent with
  | none =>
    cases Except.ok.inj hok
    exact ⟨h1, hinv1⟩
  | some parent =>
    obtain ⟨dp, name⟩ := parent
    obtain ⟨fs2, hlock, hok⟩ := bind_eq_ok.mp hok
    obtain ⟨h2, -, hloadedp⟩ := h1.ilock hlock
    have hinv2 := hkept.passes (ilock_passes held hlock) hinv1
    obtain ⟨⟨fs3, found⟩, hlookup, hok⟩ := bind_eq_ok.mp hok
    obtain ⟨h3, hkeeps3⟩ := h2.dirlookup hloadedp hlookup
    have hinv3 := hkept.passes (h2.dirlookup_eq hloadedp hlookup).2.1 hinv2
    cases found with
    | none => exact hkept.createNew h3 (hkeeps3 dp List.mem_cons_self hloadedp) hinv3 hok
    | some found =>
      obtain ⟨off, ip⟩ := found
      obtain ⟨fs4, hputp, hok⟩ := bind_eq_ok.mp hok
      obtain ⟨fs5, hlock', hok⟩ := bind_eq_ok.mp hok
      obtain ⟨h4, hinv4⟩ := hkept.iput (h3.perm (.swap dp ip held)) hinv3 hputp
      obtain ⟨h5, -, -⟩ := h4.ilock hlock'
      have hinv5 := hkept.passes (ilock_passes held hlock') hinv4
      split at hok
      · cases Except.ok.inj hok
        exact ⟨h5, hinv5⟩
      · obtain ⟨fs6, hput, hok⟩ := bind_eq_ok.mp hok
        cases Except.ok.inj hok
        exact hkept.iput h5 hinv5 hput

end Kept

theorem kept_true : Kept fun _ => True := by
  constructor <;> intros <;> trivial

end Fs

end Xv6

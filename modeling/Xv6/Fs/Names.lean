import Xv6.Fs.Call
import Xv6.Fs.Cache

/-! The operations on names keep the file system calm, and give back the references they
take. Directories have no holes, so that searching one changes nothing. -/
namespace Xv6

open Word Fallible

namespace Fs

variable {fs fs' : Fs} {ip dp cwd : Iref} {held : List Iref}

theorem Calm.readDirent {off : Nat} {short : Panic} {de : Dirent} (h : fs.Calm)
    (hloaded : fs.Loaded dp) (hok : fs.readDirent dp off short = .ok (fs', de)) : fs' = fs := by
  obtain ⟨⟨fs1, answer⟩, hread, hrest⟩ := bind_eq_ok.mp hok
  obtain rfl := (h.mapped_file hloaded).readi hread
  dsimp only at hrest
  split at hrest
  · split at hrest
    · cases Except.ok.inj hrest
      rfl
    · cases hrest
  · cases hrest

structure Scans {α : Type} (dp : Iref) (short : Panic) (stop : Dirent → Prop) [DecidablePred stop]
    (hit : Nat → Dirent → α) (miss : Nat → α) (loop : Nat → Fs → Nat → Except Panic (Fs × α)) :
    Prop where
  zero : ∀ fs off, loop 0 fs off = .ok (fs, miss off)
  succ : ∀ fuel fs off, loop (fuel + 1) fs off =
    if (fs.din dp).size ≤ off then .ok (fs, miss off)
    else do
      let (fs, de) ← fs.readDirent dp off short
      if stop de then return (fs, hit off de) else loop fuel fs (off + direntSize)

theorem scans_lookupLoop (dp : Iref) (name : Name) :
    Scans dp .dirlookupRead (fun de => de.inum ≠ 0 ∧ namecmp name de.name)
      (fun off de => some (off, de.inum)) (fun _ => none) (lookupLoop dp name) :=
  ⟨fun _ _ => rfl, fun _ _ _ => rfl⟩

theorem scans_emptyLoop (dp : Iref) :
    Scans dp .dirlinkRead (fun de => de.inum = 0) (fun off _ => off) id (emptyLoop dp) :=
  ⟨fun _ _ => rfl, fun _ _ _ => rfl⟩

theorem scans_emptyFrom (dp : Iref) :
    Scans dp .isdirempty (fun de => de.inum ≠ 0) (fun _ _ => false) (fun _ => true)
      (emptyFrom dp) :=
  ⟨fun _ _ => rfl, fun _ _ _ => rfl⟩

theorem Scans.same {α : Type} {short : Panic} {stop : Dirent → Prop} [DecidablePred stop]
    {hit : Nat → Dirent → α} {miss : Nat → α} {loop : Nat → Fs → Nat → Except Panic (Fs × α)}
    {fuel off : Nat} {a : α} (hscans : Scans dp short stop hit miss loop) (h : fs.Calm)
    (hloaded : fs.Loaded dp) (hok : loop fuel fs off = .ok (fs', a)) : fs' = fs := by
  induction fuel generalizing off with
  | zero =>
    rw [hscans.zero] at hok
    cases Except.ok.inj hok
    rfl
  | succ fuel ih =>
    rw [hscans.succ] at hok
    split at hok
    · cases Except.ok.inj hok
      rfl
    · obtain ⟨⟨fs1, de⟩, hread, hrest⟩ := bind_eq_ok.mp hok
      obtain rfl := h.readDirent hloaded hread
      dsimp only at hrest
      split at hrest
      · cases Except.ok.inj hrest
        rfl
      · exact ih hrest

theorem Holding.dirlookup {name : Name} {found : Option (Nat × Iref)} (h : fs.Holding held)
    (hloaded : fs.Loaded dp) (hok : fs.dirlookup dp name = .ok (fs', found)) :
    fs'.Holding ((found.map Prod.snd).toList ++ held) ∧ Keeps fs fs' held := by
  unfold Fs.dirlookup at hok
  split at hok
  · cases hok
  · obtain ⟨⟨fs1, r⟩, hloop, hrest⟩ := bind_eq_ok.mp hok
    obtain rfl := (scans_lookupLoop dp name).same h.toCalm hloaded hloop
    dsimp only at hrest
    split at hrest
    · cases Except.ok.inj hrest
      exact ⟨h, .refl _ _⟩
    · obtain ⟨⟨fs2, ip⟩, hget, hrest⟩ := bind_eq_ok.mp hrest
      cases Except.ok.inj hrest
      exact h.iget hget

theorem Holding.writeDirent {de : List UInt8} {off : Nat} {short : Panic} (h : fs.Holding held)
    (hloaded : fs.Loaded dp) (hok : fs.writeDirent dp de off short = .ok fs') :
    fs'.Holding held ∧ Keeps fs fs' held := by
  obtain ⟨⟨fs1, answer⟩, hwrite, hok⟩ := bind_eq_ok.mp hok
  dsimp only at hok
  split at hok
  · cases Except.ok.inj hok
    exact h.stores hloaded (h.toCalm.writei hloaded hwrite)
  · cases hok

theorem Holding.dirlink {name : Name} {inum : Nat} {r : Int} (h : fs.Holding held)
    (hloaded : fs.Loaded dp) (hdp : dp ∈ held) (hok : fs.dirlink dp name inum = .ok (fs', r)) :
    fs'.Holding held ∧ Keeps fs fs' held := by
  obtain ⟨⟨fs1, present⟩, hlookup, hok⟩ := bind_eq_ok.mp hok
  obtain ⟨h1, hkeeps⟩ := h.dirlookup hloaded hlookup
  have hloaded1 := hkeeps dp hdp hloaded
  cases present with
  | some found =>
    obtain ⟨fs2, hput, hok⟩ := bind_eq_ok.mp hok
    cases Except.ok.inj hok
    obtain ⟨h2, hkeeps'⟩ := h1.iput hput
    exact ⟨h2, hkeeps.trans hkeeps'⟩
  | none =>
    obtain ⟨⟨fs2, off⟩, hempty, hrest⟩ := bind_eq_ok.mp hok
    obtain rfl := (scans_emptyLoop dp).same h1.toCalm hloaded1 hempty
    obtain ⟨fs3, hwrite, hrest⟩ := bind_eq_ok.mp hrest
    cases Except.ok.inj hrest
    obtain ⟨h3, hkeeps'⟩ := h1.writeDirent hloaded1 hwrite
    exact ⟨h3, hkeeps.trans hkeeps'⟩

theorem Holding.walk {parent : Bool} {names : List Name} {found : Option (Iref × Name)}
    (h : fs.Holding (ip :: held)) (hok : walk parent names fs ip = .ok (fs', found)) :
    fs'.Holding ((found.map Prod.fst).toList ++ held) ∧ Keeps fs fs' held := by
  induction names generalizing fs ip with
  | nil =>
    unfold Fs.walk at hok
    split at hok
    · obtain ⟨fs1, hput, hok⟩ := bind_eq_ok.mp hok
      cases Except.ok.inj hok
      exact h.iput hput
    · cases Except.ok.inj hok
      exact ⟨h, .refl _ _⟩
  | cons name rest ih =>
    obtain ⟨fs1, hlock, hok⟩ := bind_eq_ok.mp hok
    obtain ⟨h1, hkeeps1, hloaded⟩ := h.ilock hlock
    have hkeeps1 := hkeeps1.mono (List.subset_cons_self ip held)
    split at hok
    · obtain ⟨fs2, hput, hok⟩ := bind_eq_ok.mp hok
      cases Except.ok.inj hok
      obtain ⟨h2, hkeeps2⟩ := h1.iput hput
      exact ⟨h2, hkeeps1.trans hkeeps2⟩
    · split at hok
      · cases Except.ok.inj hok
        exact ⟨h1, hkeeps1⟩
      · obtain ⟨⟨fs2, next⟩, hlookup, hok⟩ := bind_eq_ok.mp hok
        obtain ⟨fs3, hput, hok⟩ := bind_eq_ok.mp hok
        obtain ⟨h2, hkeeps2⟩ := h1.dirlookup hloaded hlookup
        obtain ⟨h3, hkeeps3⟩ := (h2.perm List.perm_middle).iput hput
        have hkeeps := (hkeeps1.trans (hkeeps2.mono (List.subset_cons_self ip held))).trans
          (hkeeps3.mono (List.subset_append_right _ held))
        cases next with
        | none =>
          cases Except.ok.inj hok
          exact ⟨h3, hkeeps⟩
        | some next =>
          obtain ⟨h4, hkeeps4⟩ := ih h3 hok
          exact ⟨h4, hkeeps.trans hkeeps4⟩

theorem Holding.namex {path : Name} {parent : Bool} {found : Option (Iref × Name)}
    (h : fs.Holding held) (hcwd : cwd ∈ held)
    (hok : fs.namex cwd path parent = .ok (fs', found)) :
    fs'.Holding ((found.map Prod.fst).toList ++ held) ∧ Keeps fs fs' held := by
  unfold Fs.namex at hok
  dsimp only at hok
  split at hok
  · obtain ⟨⟨fs1, ip⟩, hget, hok⟩ := bind_eq_ok.mp hok
    obtain ⟨h1, hkeeps1⟩ := h.iget hget
    obtain ⟨h2, hkeeps2⟩ := h1.walk hok
    exact ⟨h2, hkeeps1.trans hkeeps2⟩
  · obtain ⟨h1, hkeeps1⟩ := h.idup (h.ref_pos hcwd)
    obtain ⟨h2, hkeeps2⟩ := h1.walk hok
    exact ⟨h2, hkeeps1.trans hkeeps2⟩

theorem Holding.addLink (h : fs.Holding held) (hloaded : fs.Loaded ip) (delta : Int) :
    (fs.addLink ip delta).Holding held ∧ Keeps fs (fs.addLink ip delta) held :=
  h.stores hloaded (h.toCalm.store hloaded rfl rfl rfl)

theorem Holding.createDots (h : fs.Holding held) (hip : ip ∈ held) (hloaded : fs.Loaded ip)
    (hloadedp : fs.Loaded dp) (hok : fs.createDots dp ip = .ok fs') :
    fs'.Holding held ∧ Keeps fs fs' held := by
  obtain ⟨h1, hkeeps1⟩ := h.addLink hloadedp 1
  obtain ⟨⟨fs2, linked⟩, hdot, hok⟩ := bind_eq_ok.mp hok
  obtain ⟨h2, hkeeps2⟩ := h1.dirlink (hkeeps1 ip hip hloaded) hip hdot
  dsimp only at hok
  split at hok
  · cases hok
  · obtain ⟨⟨fs3, linked'⟩, hdotdot, hok⟩ := bind_eq_ok.mp hok
    obtain ⟨h3, hkeeps3⟩ := h2.dirlink (hkeeps2 ip hip (hkeeps1 ip hip hloaded)) hip hdotdot
    dsimp only at hok
    split at hok
    · cases hok
    · cases Except.ok.inj hok
      exact ⟨h3, (hkeeps1.trans hkeeps2).trans hkeeps3⟩

end Fs

end Xv6

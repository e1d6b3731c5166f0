import Xv6.Fs.Links

/-! The calls on names keep the link counts exact. A call may be off by one in between; the
graph is compared before and after. -/
namespace Xv6

open Word BlockTree Fallible LinkGraph

namespace Fs

variable {fs fs' : Fs} {ip dp cwd : Iref} {d e n inum : Nat} {due : Nat → Int}
  {held : List Iref} {name : Name}

theorem Passes.same (h : Passes fs fs' held) (halloc : Allocated fs'.dinode inum) :
    fs'.dinode inum = fs.dinode inum ∧ fs'.byteOf inum = fs.byteOf inum := by
  rcases h.files inum with hsame | ⟨-, -, hfree⟩
  · exact hsame
  · exact absurd hfree halloc.2

theorem Passes.kept (h : Passes fs fs' held) (hnlink : (fs.dinode inum).nlink ≠ 0) :
    fs'.dinode inum = fs.dinode inum := by
  rcases h.files inum with hsame | ⟨-, hzero, -⟩
  · exact hsame.1
  · exact absurd hzero hnlink

theorem Passes.isDir (h : Passes fs fs' held) (hdir : fs'.IsDir d) : fs.IsDir d := by
  rw [IsDir, ← (h.same hdir.allocated).1]
  exact hdir

theorem Linked.congr {due' : Nat → Int} (h : fs.Linked due) (hdue : ∀ m, due' m = due m) :
    fs.Linked due' :=
  ⟨h.counted.congr hdue, h.shaped, h.dirs⟩

theorem Linked.nlink_nonneg (h : fs.Linked due) (hdue : 0 ≤ due inum)
    (halloc : Allocated fs.dinode inum) : 0 ≤ (fs.dinode inum).nlink := by
  rw [← links_of_allocated halloc, h.counted.counts]
  omega

theorem i16_eq {n : Int} (hlow : -32768 ≤ n) (hhigh : n ≤ 32767) : i16 n = n := by
  unfold i16
  omega

theorem Proper.new_name (h : fs.Proper d)
    (hunknown : ∀ k, direntSize * k < (fs.dinode d).size → (fs.dirent d k).inum ≠ 0 →
      namecmp name (fs.dirent d k).name = false) :
    namecmp name Xv6.dot = false ∧ namecmp name Xv6.dotdot = false := by
  have hdiffers : ∀ k, fs.Uses d k → ∀ t,
      namecmp (fs.dirent d k).name t = true → namecmp name t = false := by
    intro k huses t ht
    apply Bool.eq_false_of_not_eq_true
    intro hname
    have hin := huses.1
    have hmatch := hunknown k (by simp only [direntSize] at *; omega) huses.2
    rw [namecmp_trans hname (namecmp_symm ht)] at hmatch
    cases hmatch
  exact ⟨hdiffers 0 h.dot.1 _ h.dot.2, hdiffers 1 h.dotdot.1 _ h.dotdot.2⟩

theorem Enters.spot (h : Enters fs fs' dp name inum e) (hcalm : fs.Calm)
    (hloaded : fs.Loaded dp) : ¬ fs.Uses (fs.icache dp).inum e ∧
      (direntSize * e + direntSize ≤ (fs.dinode (fs.icache dp).inum).size ∨
        (fs.dinode (fs.icache dp).inum).size = direntSize * e) := by
  have hroom := h.room
  rw [(hcalm.loaded dp hloaded).2] at hroom
  refine ⟨fun huses => ?_, hroom.imp And.left id⟩
  rcases hroom with ⟨-, hzero⟩ | hend
  · exact huses.2 hzero
  · have hin := huses.1
    simp only [direntSize] at *
    omega

theorem Enters.place (h : Enters fs fs' dp name inum e) (hcalm : fs.Calm)
    (hloaded : fs.Loaded dp) (hproper : fs.Proper (fs.icache dp).inum) :
    2 ≤ e ∧ ¬ fs.Uses (fs.icache dp).inum e ∧
      (direntSize * e + direntSize ≤ (fs.dinode (fs.icache dp).inum).size ∨
        (fs.dinode (fs.icache dp).inum).size = direntSize * e) ∧
      namecmp name dot = false ∧ namecmp name dotdot = false := by
  obtain ⟨hfree, hroom⟩ := h.spot hcalm hloaded
  have hunknown := h.unknown
  rw [(hcalm.loaded dp hloaded).2] at hunknown
  refine ⟨?_, hfree, hroom, hproper.new_name hunknown⟩
  have hzero : e ≠ 0 := by
    rintro rfl
    exact hfree hproper.dot.1
  have hone : e ≠ 1 := by
    rintro rfl
    exact hfree hproper.dotdot.1
  omega

theorem Enters.graph (h : Enters fs fs' dp name inum e) (hcalm : fs.Calm)
    (hloaded : fs.Loaded dp) (hdirs : fs.Dirs) (hattached : fs.Attached (fs.icache dp).inum)
    (hinum : inum ≠ 0) : fs'.graph = fs.graph.setEntry ((fs.icache dp).inum, e) (some inum) ∧
      fs'.Dirs ∧ fs.graph.entry ((fs.icache dp).inum, e) = none := by
  obtain ⟨he, hfree, hroom, hdot, hdotdot⟩ :=
    h.place hcalm hloaded (hdirs.proper _ hattached.1)
  refine ⟨?_, ?_, entry_eq_none hfree⟩
  · rw [h.writes.graph hroom hdirs hattached he, if_neg hinum]
  · refine h.writes.dirs hroom hdirs he (fun _ => ?_) fun hzero => absurd hzero hattached.2
    rw [namecmp_stored, namecmp_stored]
    exact ⟨hdot, hdotdot⟩

theorem Linked.enter (hlinked : fs.Linked due) (h : Enters fs fs' dp name inum e)
    (hcalm : fs.Calm) (hloaded : fs.Loaded dp) (hattached : fs.Attached (fs.icache dp).inum)
    (hinum : inum ≠ 0) (hleaf : ¬ fs.IsDir inum) :
    fs'.Linked fun m => due m - if inum = m then 1 else 0 := by
  obtain ⟨he, hfree, hroom, hdot, hdotdot⟩ :=
    h.place hcalm hloaded (hlinked.dirs.proper _ hattached.1)
  refine h.writes.enter hroom hlinked hattached he hfree ?_ hinum hleaf
  rw [namecmp_stored, namecmp_stored]
  exact ⟨hdot, hdotdot⟩

def Exact (fs : Fs) : Prop := fs.Linked fun _ => 0

/-- The directory that a name would be made in has not been removed, or has the name. -/
def parentKept (fs : Fs) (cwd : Iref) (path : Name) : Bool :=
  match fs.namex cwd path true with
  | .ok (fs, some (dp, name)) =>
      match fs.ilock dp with
      | .ok fs => fs.nlink dp ≠ 0 || namecmp name dot || namecmp name dotdot
      | .error _ => true
  | _ => true

theorem Calm.attached_of_kept (h : fs.Calm) (hloaded : fs.Loaded dp) (hdirs : fs.Dirs)
    (hdir : (fs.din dp).type = .dir)
    (hkept : (fs.nlink dp ≠ 0 || namecmp name dot || namecmp name dotdot) = true)
    (hunknown : ∀ k, direntSize * k < (fs.din dp).size →
      (fs.dirent (fs.icache dp).inum k).inum ≠ 0 →
      namecmp name (fs.dirent (fs.icache dp).inum k).name = false) :
    fs.Attached (fs.icache dp).inum := by
  obtain ⟨halloc, hsynced⟩ := h.loaded dp hloaded
  have hisdir : fs.IsDir (fs.icache dp).inum := ⟨halloc.1, hsynced ▸ hdir⟩
  rw [hsynced] at hunknown
  obtain ⟨hdot, hdotdot⟩ := (hdirs.proper _ hisdir).new_name hunknown
  rw [hdot, hdotdot, Bool.or_false, Bool.or_false] at hkept
  refine ⟨hisdir, ?_⟩
  rw [← hsynced]
  exact of_decide_eq_true hkept

def linkFits (fs : Fs) (cwd : Iref) (old new : Name) : Bool :=
  match fs.namex cwd old false with
  | .ok (fs, some (ip, _)) =>
      match fs.ilock ip with
      | .ok fs => decide (fs.nlink ip < 32767) && (fs.addLink ip 1).parentKept cwd new
      | .error _ => true
  | _ => true

def OneMore (n m : Nat) : Int := if n = m then 1 else 0

theorem Holding.linkBad_exact {r : Int} (h : fs.Holding (ip :: held))
    (hlinked : fs.Linked (OneMore (fs.icache ip).inum)) (hleaf : ¬ fs.IsDir (fs.icache ip).inum)
    (hok : fs.linkBad ip = .ok (fs', r)) : fs'.Exact := by
  obtain ⟨fs1, hlock, hok⟩ := bind_eq_ok.mp hok
  obtain ⟨fs2, hput, hok⟩ := bind_eq_ok.mp hok
  cases Except.ok.inj hok
  obtain ⟨h1, -, hloaded⟩ := h.ilock hlock
  have hpasses := ilock_passes (ip :: held) hlock
  have hinum := hpasses.inums ip List.mem_cons_self
  have hlinked1 := hpasses.linked hlinked
  obtain ⟨halloc, hsynced⟩ := h1.loaded ip hloaded
  have hleaf1 : ¬ fs1.IsDir (fs1.icache ip).inum := fun hdir => hleaf (hinum ▸ hpasses.isDir hdir)
  obtain ⟨hrelinks, -⟩ := h1.toCalm.addLink_relinks hloaded (-1)
  have hnonneg : 0 ≤ OneMore (fs.icache ip).inum (fs1.icache ip).inum := by
    unfold OneMore
    split <;> decide
  have hlow := hlinked1.nlink_nonneg hnonneg halloc
  have hhigh := hlinked1.dirs.short _ halloc
  have hnlink : fs1.nlink ip = (fs1.dinode (fs1.icache ip).inum).nlink := by
    rw [nlink, hsynced]
  have hcount : i16 (fs1.nlink ip + -1) = (fs1.dinode (fs1.icache ip).inum).nlink - 1 := by
    rw [hnlink, i16_eq (by omega) (by omega)]
    omega
  rw [hcount] at hrelinks
  have hlinked2 := hrelinks.linked hlinked1 halloc (by omega) fun hdir => absurd hdir hleaf1
  obtain ⟨h2, -⟩ := h1.addLink hloaded (-1)
  refine (h2.iput_passes hput).linked (hlinked2.congr fun m => ?_)
  rw [OneMore, hinum]
  split <;> omega

theorem Holding.link_exact {old new : Name} {r : Int} (h : fs.Holding held) (hcwd : cwd ∈ held)
    (hexact : fs.Exact) (hfits : fs.linkFits cwd old new = true)
    (hok : fs.link cwd old new = .ok (fs', r)) : fs'.Exact := by
  obtain ⟨⟨fs1, found⟩, hold, hok⟩ := bind_eq_ok.mp hok
  obtain ⟨h1, -⟩ := h.namex hcwd hold
  have hexact1 := (h.namex_passes hcwd hold).linked hexact
  unfold linkFits at hfits
  rw [hold] at hfits
  cases found with
  | none =>
    cases Except.ok.inj hok
    exact hexact1
  | some found =>
    obtain ⟨ip, last⟩ := found
    obtain ⟨fs2, hlock, hok⟩ := bind_eq_ok.mp hok
    obtain ⟨h2, -, hloaded⟩ := h1.ilock hlock
    have hexact2 := (ilock_passes (ip :: held) hlock).linked hexact1
    dsimp only at hfits
    rw [hlock] at hfits
    obtain ⟨hroom, hkept⟩ := Bool.and_eq_true_iff.mp hfits
    have hroom := of_decide_eq_true hroom
    split at hok
    · obtain ⟨fs3, hput, hok⟩ := bind_eq_ok.mp hok
      cases Except.ok.inj hok
      exact (h2.iput_passes hput).linked hexact2
    · rename_i htype
      obtain ⟨halloc, hsynced⟩ := h2.loaded ip hloaded
      have hleaf2 : ¬ fs2.IsDir (fs2.icache ip).inum := fun hdir => htype (hsynced ▸ hdir.2)
      obtain ⟨hrelinks, hentry⟩ := h2.toCalm.addLink_relinks hloaded 1
      have hlow := hexact2.nlink_nonneg le_rfl halloc
      have hnlink : fs2.nlink ip = (fs2.dinode (fs2.icache ip).inum).nlink := by
        rw [nlink, hsynced]
      rw [hnlink, i16_eq (by omega) (by omega)] at hrelinks
      have hlinked3 : (fs2.addLink ip 1).Linked (OneMore (fs2.icache ip).inum) := by
        refine (hrelinks.linked hexact2 halloc (by omega)
          fun hdir => absurd hdir hleaf2).congr fun m => ?_
        rw [OneMore]
        split <;> omega
      have hleaf3 : ¬ (fs2.addLink ip 1).IsDir (fs2.icache ip).inum :=
        (hrelinks.isDir _).not.mpr hleaf2
      obtain ⟨h3, -⟩ := h2.addLink hloaded 1
      have hinum3 := hentry.inum
      generalize fs2.addLink ip 1 = fs3 at *
      obtain ⟨⟨fs4, parent⟩, hnew, hok⟩ := bind_eq_ok.mp hok
      obtain ⟨h4, -⟩ := h3.namex (List.mem_cons_of_mem ip hcwd) hnew
      have hpasses4 := h3.namex_passes (List.mem_cons_of_mem ip hcwd) hnew
      have hinum4 := (hpasses4.inums ip List.mem_cons_self).trans hinum3
      have hlinked4 := hpasses4.linked hlinked3
      have hleaf4 : ¬ fs4.IsDir (fs2.icache ip).inum := fun hdir => hleaf3 (hpasses4.isDir hdir)
      unfold parentKept at hkept
      rw [hnew] at hkept
      cases parent with
      | none =>
        rw [← hinum4] at hlinked4 hleaf4
        exact h4.linkBad_exact hlinked4 hleaf4 hok
      | some parent =>
        obtain ⟨dp, name⟩ := parent
        obtain ⟨fs5, hlockp, hok⟩ := bind_eq_ok.mp hok
        obtain ⟨⟨fs6, linked⟩, hlink, hok⟩ := bind_eq_ok.mp hok
        obtain ⟨fs7, hputp, hok⟩ := bind_eq_ok.mp hok
        obtain ⟨h5, -, hloadedp⟩ := h4.ilock hlockp
        obtain ⟨h6, -⟩ := h5.dirlink hloadedp List.mem_cons_self hlink
        obtain ⟨h7, -⟩ := h6.iput hputp
        dsimp only at hkept
        rw [hlockp] at hkept
        have hpasses5 := ilock_passes (dp :: ip :: held) hlockp
        have hinum5 := (hpasses5.inums ip (by simp)).trans hinum4
        have hlinked5 := hpasses5.linked hlinked4
        have hleaf5 : ¬ fs5.IsDir (fs2.icache ip).inum :=
          fun hdir => hleaf4 (hpasses5.isDir hdir)
        have hpasses7 := h6.iput_passes hputp
        rw [hinum5] at hlink
        obtain ⟨hdir, hlinked6⟩ := h5.dirlink_eq hloadedp
          (by have := halloc.1; simp only [inodeArea] at this; omega) hlink
        rcases hlinked6 with ⟨rfl, hpasses6⟩ | ⟨rfl, e, henters⟩
        · rw [if_pos (by decide)] at hok
          have hinum7 : (fs7.icache ip).inum = (fs2.icache ip).inum :=
            ((hpasses7.inums ip List.mem_cons_self).trans
              (hpasses6.inums ip (by simp))).trans hinum5
          refine h7.linkBad_exact ?_ ?_ hok
          · rw [hinum7]
            exact hpasses7.linked (hpasses6.linked hlinked5)
          · rw [hinum7]
            exact fun hdir => hleaf5 (hpasses6.isDir (hpasses7.isDir hdir))
        · rw [if_neg (by decide)] at hok
          obtain ⟨fs8, hput, hok⟩ := bind_eq_ok.mp hok
          cases Except.ok.inj hok
          have hattached := h5.toCalm.attached_of_kept hloadedp hlinked5.dirs hdir hkept
            henters.unknown
          have hne : (fs2.icache ip).inum ≠ 0 := fun hzero =>
            halloc.2 (by rw [hzero]; exact hexact2.dirs.zeroth)
          have hexact6 : fs6.Exact := by
            refine (hlinked5.enter henters h5.toCalm hloadedp hattached hne hleaf5).congr
              fun m => ?_
            rw [OneMore]
            omega
          exact (h7.iput_passes hput).linked (hpasses7.linked hexact6)

structure Names (fs : Fs) (dp : Iref) (e : Nat) (ip : Iref) : Prop where
  attached : fs.Attached (fs.icache dp).inum
  later : 2 ≤ e
  uses : fs.Uses (fs.icache dp).inum e
  target : (fs.dirent (fs.icache dp).inum e).inum = (fs.icache ip).inum

theorem Names.entry (h : fs.Names dp e ip) :
    fs.graph.entry ((fs.icache dp).inum, e) = some (fs.icache ip).inum := by
  rw [entry_of_uses h.attached h.later h.uses, h.target]

theorem Passes.names (h : Passes fs fs' held) (hdp : dp ∈ held) (hip : ip ∈ held)
    (hnames : fs.Names dp e ip) : fs'.Names dp e ip := by
  have hdinum := h.inums dp hdp
  have hinum := h.inums ip hip
  have hkept := h.kept hnames.attached.2
  have halloc : Allocated fs'.dinode (fs.icache dp).inum := by
    rw [allocated_congr hkept]
    exact hnames.attached.1.allocated
  obtain ⟨hdinode, hbyte⟩ := h.same halloc
  have hsame : SameFile fs fs' (fs.icache dp).inum := ⟨hdinode, fun i _ => by rw [hbyte]⟩
  refine ⟨?_, hnames.later, ?_, ?_⟩
  · rw [hdinum, hsame.attached]
    exact hnames.attached
  · rw [hdinum, hsame.uses]
    exact hnames.uses
  · rw [hdinum, hinum, hsame.dirent hnames.uses.1]
    exact hnames.target

theorem Linked.nlink_pos (h : fs.Linked due) (hnames : fs.Names dp e ip)
    (hdue : due (fs.icache ip).inum = 0) (halloc : Allocated fs.dinode (fs.icache ip).inum) :
    1 ≤ (fs.dinode (fs.icache ip).inum).nlink := by
  have hlinks := h.counted.links_named hnames.entry
  rw [links_of_allocated halloc, hdue] at hlinks
  omega

theorem Linked.erase {de : Dirent} (hlinked : fs.Linked due) (hnames : fs.Names dp e ip)
    (h : Writes fs fs' (fs.icache dp).inum e de) (hzero : de.inum = 0)
    (hleaf : ¬ fs.IsDir (fs.icache ip).inum) :
    fs'.Linked fun m => due m + if (fs.icache ip).inum = m then 1 else 0 := by
  have hroom := Or.inl (b := (fs.dinode (fs.icache dp).inum).size = direntSize * e) hnames.uses.1
  have hgraph := h.graph hroom hlinked.dirs hnames.attached hnames.later
  rw [if_pos hzero] at hgraph
  refine ⟨?_, ?_, h.dirs hroom hlinked.dirs hnames.later (fun hne => absurd hzero hne)
    fun _ => hzero⟩
  · rw [hgraph]
    refine (hlinked.counted.setEntry _ none).congr fun m => ?_
    rw [hnames.entry, if_neg (Option.some_ne_none m).symm]
    simp only [Option.some.injEq]
    omega
  · rw [hgraph]
    exact hlinked.shaped.unlink hnames.entry (if_neg fun hattached => hleaf hattached.1)

theorem Holding.unlinkFile_exact {de : Dirent} {fs1 fs2 : Fs} (h : fs.Holding (ip :: dp :: held))
    (hloaded : fs.Loaded ip) (hexact : fs.Exact) (hnames : fs.Names dp e ip)
    (hleaf : ¬ fs.IsDir (fs.icache ip).inum) (hwrites : Writes fs fs1 (fs.icache dp).inum e de)
    (hzero : de.inum = 0) (hinum1 : (fs1.icache ip).inum = (fs.icache ip).inum)
    (h1 : fs1.Holding (ip :: dp :: held)) (hputp : fs1.iput dp = .ok fs2)
    (hloaded2 : fs2.Loaded ip) (hput : (fs2.addLink ip (-1)).iput ip = .ok fs') : fs'.Exact := by
  have h1 := h1.perm (.swap dp ip held)
  have hpasses := h1.iput_passes hputp
  obtain ⟨h2, -⟩ := h1.iput hputp
  have hinum2 := (hpasses.inums ip List.mem_cons_self).trans hinum1
  have hlinked1 := hexact.erase hnames hwrites hzero hleaf
  have hlinked2 := hpasses.linked hlinked1
  obtain ⟨halloc2, hsynced2⟩ := h2.loaded ip hloaded2
  have hleaf2 : ¬ fs2.IsDir (fs2.icache ip).inum := by
    rw [hinum2]
    exact fun hdir => hleaf ((hwrites.isDir _).mp (hpasses.isDir hdir))
  have hpos : 1 ≤ (fs2.dinode (fs2.icache ip).inum).nlink := by
    have hpos := hexact.nlink_pos hnames rfl (h.loaded ip hloaded).1
    rw [(hpasses.same halloc2).1, hinum2]
    by_cases heq : (fs.icache ip).inum = (fs.icache dp).inum
    · rw [heq, hwrites.nlink, ← heq]
      exact hpos
    · rw [(hwrites.others _ heq).dinode]
      exact hpos
  have hhigh := hlinked2.dirs.short _ halloc2
  obtain ⟨hrelinks, -⟩ := h2.toCalm.addLink_relinks hloaded2 (-1)
  have hcount : i16 (fs2.nlink ip + -1) = (fs2.dinode (fs2.icache ip).inum).nlink - 1 := by
    rw [nlink, hsynced2, i16_eq (by omega) (by omega)]
    omega
  rw [hcount] at hrelinks
  have hlinked3 := hrelinks.linked hlinked2 halloc2 (by omega) fun hdir => absurd hdir hleaf2
  obtain ⟨h3, -⟩ := h2.addLink hloaded2 (-1)
  refine (h3.iput_passes hput).linked (hlinked3.congr fun m => ?_)
  rw [hinum2]
  split <;> omega

theorem Holding.unlinkDir_exact {de : Dirent} {fs1 fs2 : Fs} (h : fs.Holding (ip :: dp :: held))
    (hloaded : fs.Loaded ip) (hexact : fs.Exact) (hnames : fs.Names dp e ip)
    (hdir : fs.IsDir (fs.icache ip).inum) (hempty : ∀ k, 2 ≤ k → ¬ fs.Uses (fs.icache ip).inum k)
    (hwrites : Writes fs fs1 (fs.icache dp).inum e de)
    (hzero : de.inum = 0) (hinum1 : (fs1.icache ip).inum = (fs.icache ip).inum)
    (hinump : (fs1.icache dp).inum = (fs.icache dp).inum)
    (h1 : fs1.Holding (ip :: dp :: held)) (hloadedp1 : fs1.Loaded dp)
    (hputp : (fs1.addLink dp (-1)).iput dp = .ok fs2)
    (hloaded2 : fs2.Loaded ip) (hput : (fs2.addLink ip (-1)).iput ip = .ok fs') : fs'.Exact := by
  have hpos := hexact.nlink_pos hnames rfl (h.loaded ip hloaded).1
  have hattached : fs.Attached (fs.icache ip).inum := ⟨hdir, by omega⟩
  have hentries : ∀ k, fs.graph.entry ((fs.icache ip).inum, k) = none :=
    fun k => if_neg fun hall => hempty k hall.2.1 hall.2.2
  have hparent : fs.graph.parent (fs.icache ip).inum = some (fs.icache dp).inum :=
    hexact.shaped.above _ _ hnames.entry (parent_ne_none.mpr hattached)
  have hne : (fs.icache ip).inum ≠ (fs.icache dp).inum := fun heq =>
    hempty e hnames.later (heq ▸ hnames.uses)
  have hroot : (fs.icache ip).inum ≠ rootino := fun heq =>
    hexact.shaped.rootless _ (heq ▸ hnames.entry)
  -- the counts that the call starts with
  have hone := hexact.counted.links_empty hexact.shaped hnames.entry
    (parent_ne_none.mpr hattached) hentries
  have htwo := hexact.counted.links_parent hexact.shaped hparent hroot
    (parent_ne_none.mpr hnames.attached)
  rw [links_of_allocated hdir.allocated] at hone
  rw [links_of_allocated hnames.attached.1.allocated] at htwo
  have hshort := hexact.dirs.short _ hnames.attached.1.allocated
  -- the entry is cleared
  have hroom := Or.inl (b := (fs.dinode (fs.icache dp).inum).size = direntSize * e) hnames.uses.1
  have hgraph1 := hwrites.graph hroom hexact.dirs hnames.attached hnames.later
  rw [if_pos hzero] at hgraph1
  have hdirs1 := hwrites.dirs hroom hexact.dirs hnames.later (fun hne => absurd hzero hne)
    fun _ => hzero
  -- the parent loses the link from the `..`
  obtain ⟨hallocp, hsyncedp⟩ := h1.loaded dp hloadedp1
  obtain ⟨hrelinksp, hentryp⟩ := h1.toCalm.addLink_relinks hloadedp1 (-1)
  have hcountp : i16 (fs1.nlink dp + -1) = (fs1.dinode (fs1.icache dp).inum).nlink - 1 := by
    rw [nlink, hsyncedp, hinump, hwrites.nlink, i16_eq (by omega) (by omega)]
    omega
  rw [hcountp, hinump] at hrelinksp
  rw [hinump] at hallocp
  have hnlinkp := hwrites.nlink
  have hgraph2 := hrelinksp.graph hdirs1 hallocp fun _ => ⟨by omega, by omega⟩
  have hdirs2 := hrelinksp.dirs hdirs1 (by omega) fun _ hv => by omega
  obtain ⟨h2, -⟩ := h1.addLink hloadedp1 (-1)
  have hinum2 : ((fs1.addLink dp (-1)).icache ip).inum = (fs.icache ip).inum := by
    by_cases heq : ip = dp
    · rw [heq, hentryp.inum, ← heq, hinum1]
    · rw [hentryp.others ip heq, hinum1]
  have hsame := (hwrites.others _ hne).trans (hrelinksp.others _ hne)
  generalize fs1.addLink dp (-1) = fs3 at *
  have h2 := h2.perm (.swap dp ip held)
  have hpasses := h2.iput_passes hputp
  obtain ⟨hgraph3, hdirs3⟩ := hpasses.graph hdirs2
  obtain ⟨h4, -⟩ := h2.iput hputp
  have hinum4 := (hpasses.inums ip List.mem_cons_self).trans hinum2
  -- the directory itself loses its last link
  obtain ⟨halloc4, hsynced4⟩ := h4.loaded ip hloaded2
  rw [hinum4] at halloc4 hsynced4
  obtain ⟨hdinode4, hbyte4⟩ := hpasses.same halloc4
  have hsame4 : SameFile fs fs2 (fs.icache ip).inum :=
    hsame.trans ⟨hdinode4, fun i _ => by rw [hbyte4]⟩
  obtain ⟨hrelinks, -⟩ := h4.toCalm.addLink_relinks hloaded2 (-1)
  have hcount : i16 (fs2.nlink ip + -1) = 0 := by
    rw [nlink, hsynced4, hsame4.dinode, hone]
    decide
  rw [hcount, hinum4] at hrelinks
  have hempty4 : ∀ k, 2 ≤ k → ¬ fs2.Uses (fs.icache ip).inum k :=
    fun k hk => (hsame4.uses k).not.mpr (hempty k hk)
  have hgraph5 := hrelinks.graph_removed hdirs3 (hsame4.attached.mpr hattached) rfl hempty4
  have hgraph : (fs2.addLink ip (-1)).graph =
      fs.graph.rmdir ((fs.icache dp).inum, e) (fs.icache ip).inum := by
    rw [hgraph5, hgraph3, hgraph2, hgraph1, hsame4.dinode, hone, hnlinkp, LinkGraph.rmdir]
    congr 2
    congr 1
    omega
  obtain ⟨h5, -⟩ := h4.addLink hloaded2 (-1)
  refine (h5.iput_passes hput).linked ⟨?_, ?_, ?_⟩
  · rw [hgraph]
    exact hexact.counted.rmdir hnames.entry hparent
  · rw [hgraph]
    exact hexact.shaped.rmdir hnames.entry hentries
  · exact hrelinks.dirs hdirs3 (by decide) fun _ _ => hempty4

theorem decode_zeroes : (Dirent.decode (List.replicate direntSize 0)).inum = 0 := by decide

/-- The entry is cleared, for a directory only if it is empty, or both inodes are let go. -/
theorem Holding.unlinkEntry_cases {off : Nat} {r : Int} (h : fs.Holding (ip :: held))
    (hok : fs.unlinkEntry dp off ip = .ok (fs', r)) : ∃ fs1, fs.ilock ip = .ok fs1 ∧
      ((∃ fs2 fs3, (fs1.IsDir (fs1.icache ip).inum →
          ∀ k, 2 ≤ k → ¬ fs1.Uses (fs1.icache ip).inum k) ∧
        fs1.writeDirent dp (List.replicate direntSize 0) off .unlinkWritei = .ok fs2 ∧
        (if (fs2.din ip).type = .dir then fs2.addLink dp (-1) else fs2).iput dp = .ok fs3 ∧
        (fs3.addLink ip (-1)).iput ip = .ok fs') ∨
      ∃ fs2, fs1.iput ip = .ok fs2 ∧ fs2.iput dp = .ok fs') := by
  obtain ⟨fs1, hlock, hok⟩ := bind_eq_ok.mp hok
  obtain ⟨h1, -, hloaded⟩ := h.ilock hlock
  obtain ⟨-, hsynced⟩ := h1.loaded ip hloaded
  refine ⟨fs1, hlock, ?_⟩
  split at hok
  · cases hok
  · have hrest : ∃ empty : Bool, (empty = true → fs1.IsDir (fs1.icache ip).inum →
        ∀ k, 2 ≤ k → ¬ fs1.Uses (fs1.icache ip).inum k) ∧ (if empty then do
        let fs ← fs1.writeDirent dp (List.replicate direntSize 0) off .unlinkWritei
        let fs := if (fs.din ip).type = .dir then fs.addLink dp (-1) else fs
        let fs ← fs.iput dp
        return (← (fs.addLink ip (-1)).iput ip, 0)
      else do
        let fs ← fs1.iput ip
        return (← fs.iput dp, -1)) = .ok (fs', r) := by
      split at hok
      · obtain ⟨⟨fs2, empty⟩, hempty, hrest⟩ := bind_eq_ok.mp hok
        obtain ⟨rfl, hnone⟩ := h1.toCalm.isdirempty_eq hloaded hempty
        refine ⟨empty, fun htrue _ k hk huses => huses.2 (hnone htrue k hk ?_), hrest⟩
        have hin := huses.1
        rw [hsynced]
        simp only [direntSize] at *
        omega
      · rename_i htype
        exact ⟨true, fun _ hdir => absurd (hsynced ▸ hdir.2) htype, hok⟩
    obtain ⟨empty, hnone, hrest⟩ := hrest
    split at hrest
    · rename_i htrue
      obtain ⟨fs2, hwrite, hrest⟩ := bind_eq_ok.mp hrest
      obtain ⟨fs3, hputp, hrest⟩ := bind_eq_ok.mp hrest
      obtain ⟨fs4, hput, hrest⟩ := bind_eq_ok.mp hrest
      cases Except.ok.inj hrest
      exact .inl ⟨fs2, fs3, hnone htrue, hwrite, hputp, hput⟩
    · obtain ⟨fs2, hput, hrest⟩ := bind_eq_ok.mp hrest
      obtain ⟨fs3, hputp, hrest⟩ := bind_eq_ok.mp hrest
      cases Except.ok.inj hrest
      exact .inr ⟨fs2, hput, hputp⟩

theorem Holding.unlinkEntry_exact {r : Int} (h : fs.Holding (ip :: dp :: held))
    (hloadedp : fs.Loaded dp) (hexact : fs.Exact) (hnames : fs.Names dp e ip)
    (hok : fs.unlinkEntry dp (direntSize * e) ip = .ok (fs', r)) : fs'.Exact := by
  obtain ⟨fs1, hlock, hcases⟩ := h.unlinkEntry_cases hok
  obtain ⟨h1, hkeeps1, hloaded⟩ := h.ilock hlock
  have hdp : dp ∈ ip :: dp :: held := List.mem_cons_of_mem ip List.mem_cons_self
  have hloadedp := hkeeps1 dp hdp hloadedp
  have hpasses1 := ilock_passes (ip :: dp :: held) hlock
  have hexact1 := hpasses1.linked hexact
  have hnames1 := hpasses1.names hdp List.mem_cons_self hnames
  obtain ⟨fs2, fs3, hempty, hwrite, hputp, hput⟩ | ⟨fs2, hput, hputp⟩ := hcases
  · obtain ⟨h2, hkeeps2⟩ := h1.writeDirent hloadedp hwrite
    obtain ⟨hwrites, hentry⟩ := h1.toCalm.writeDirent_writes hloadedp (by decide) hwrite
    have hloadedp2 := hkeeps2 dp hdp hloadedp
    have hloaded2 := hkeeps2 ip List.mem_cons_self hloaded
    have hinum2 : (fs2.icache ip).inum = (fs1.icache ip).inum := by
      by_cases heq : ip = dp
      · rw [heq, hentry.inum]
      · rw [hentry.others ip heq]
    obtain ⟨-, hsynced2⟩ := h2.loaded ip hloaded2
    have htype : (fs2.din ip).type = .dir ↔ fs1.IsDir (fs1.icache ip).inum := by
      rw [← hwrites.isDir, hsynced2, hinum2]
      exact ⟨fun htype => ⟨(h1.loaded ip hloaded).1.1, htype⟩, fun hdir => hdir.2⟩
    split at hputp
    · rename_i hdir
      have hdir := htype.mp hdir
      obtain ⟨h3, hkeeps3⟩ := h2.addLink hloadedp2 (-1)
      obtain ⟨-, hkeeps4⟩ := (h3.perm (.swap dp ip held)).iput hputp
      exact h1.unlinkDir_exact hloaded hexact1 hnames1 hdir (hempty hdir) hwrites decode_zeroes
        hinum2 hentry.inum h2 hloadedp2 hputp
        (hkeeps4 ip List.mem_cons_self (hkeeps3 ip List.mem_cons_self hloaded2)) hput
    · rename_i hleaf
      obtain ⟨-, hkeeps3⟩ := (h2.perm (.swap dp ip held)).iput hputp
      exact h1.unlinkFile_exact hloaded hexact1 hnames1 (htype.not.mp hleaf) hwrites
        decode_zeroes hinum2 h2 hputp (hkeeps3 ip List.mem_cons_self hloaded2) hput
  · obtain ⟨h2, -⟩ := h1.iput hput
    exact (h2.iput_passes hputp).linked ((h1.iput_passes hput).linked hexact1)

theorem Holding.dirlookup_names {off : Nat} (h : fs.Holding (dp :: held)) (hloaded : fs.Loaded dp)
    (hexact : fs.Exact) (hdot : ¬ (namecmp name dot ∨ namecmp name dotdot))
    (hok : fs.dirlookup dp name = .ok (fs', some (off, ip))) :
    ∃ e, off = direntSize * e ∧ fs'.Names dp e ip := by
  obtain ⟨hdir, hpasses, e, rfl, hin, hne, hname, hinum⟩ := h.dirlookup_eq hloaded hok
  obtain ⟨halloc, hsynced⟩ := h.loaded dp hloaded
  have hisdir : fs.IsDir (fs.icache dp).inum := ⟨halloc.1, hsynced ▸ hdir⟩
  have hproper := hexact.dirs.proper _ hisdir
  have huses : fs.Uses (fs.icache dp).inum e := ⟨hsynced ▸ hin, hne⟩
  have hlater : 2 ≤ e := by
    have hzero : e ≠ 0 := by
      rintro rfl
      exact hdot (.inl (namecmp_trans hname hproper.dot.2))
    have hone : e ≠ 1 := by
      rintro rfl
      exact hdot (.inr (namecmp_trans hname hproper.dotdot.2))
    omega
  have hattached : fs.Attached (fs.icache dp).inum :=
    ⟨hisdir, fun hzero => hproper.removed hzero e hlater huses⟩
  refine ⟨e, rfl, ?_⟩
  have hdinum := hpasses.inums dp List.mem_cons_self
  have halloc' : Allocated fs'.dinode (fs.icache dp).inum := by
    rw [allocated_congr (hpasses.kept hattached.2)]
    exact halloc
  obtain ⟨hdinode, hbyte⟩ := hpasses.same halloc'
  have hsame : SameFile fs fs' (fs.icache dp).inum := ⟨hdinode, fun i _ => by rw [hbyte]⟩
  refine ⟨?_, hlater, ?_, ?_⟩
  · rw [hdinum]
    exact hsame.attached.mpr hattached
  · rw [hdinum]
    exact (hsame.uses e).mpr huses
  · rw [hdinum, hsame.dirent huses.1]
    exact hinum.symm

theorem Holding.unlink_exact {path : Name} {r : Int} (h : fs.Holding held) (hcwd : cwd ∈ held)
    (hexact : fs.Exact) (hok : fs.unlink cwd path = .ok (fs', r)) : fs'.Exact := by
  obtain ⟨⟨fs1, parent⟩, hparent, hok⟩ := bind_eq_ok.mp hok
  obtain ⟨h1, -⟩ := h.namex hcwd hparent
  have hexact1 := (h.namex_passes hcwd hparent).linked hexact
  cases parent with
  | none =>
    cases Except.ok.inj hok
    exact hexact1
  | some parent =>
    obtain ⟨dp, name⟩ := parent
    obtain ⟨fs2, hlock, hok⟩ := bind_eq_ok.mp hok
    obtain ⟨h2, -, hloadedp⟩ := h1.ilock hlock
    have hexact2 := (ilock_passes held hlock).linked hexact1
    split at hok
    · obtain ⟨fs3, hput, hok⟩ := bind_eq_ok.mp hok
      cases Except.ok.inj hok
      exact (h2.iput_passes hput).linked hexact2
    · rename_i hdot
      obtain ⟨⟨fs3, found⟩, hlookup, hok⟩ := bind_eq_ok.mp hok
      obtain ⟨h3, hkeeps3⟩ := h2.dirlookup hloadedp hlookup
      have hexact3 := (h2.dirlookup_eq hloadedp hlookup).2.1.linked hexact2
      cases found with
      | none =>
        obtain ⟨fs4, hput, hok⟩ := bind_eq_ok.mp hok
        cases Except.ok.inj hok
        exact (h3.iput_passes hput).linked hexact3
      | some found =>
        obtain ⟨off, ip⟩ := found
        obtain ⟨e, rfl, hnames⟩ := h2.dirlookup_names hloadedp hexact2 hdot hlookup
        exact h3.unlinkEntry_exact (hkeeps3 dp List.mem_cons_self hloadedp) hexact3 hnames hok

end Fs

end Xv6

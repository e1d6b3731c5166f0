import Xv6.Fs.LinkCalls

/-! `create` keeps the link counts exact. The new inode is in the graph once it has a count,
and for a directory once its `.` and `..` are written. -/
namespace Xv6

open Word BlockTree Fallible LinkGraph

namespace Fs

variable {fs fs' : Fs} {ip dp cwd : Iref} {d e n inum : Nat} {due : Nat → Int}
  {held : List Iref} {name : Name}

theorem firstFree_range {dinode : Nat → Dinode} {fuel start inum : Nat}
    (h : firstFree dinode fuel start = some inum) : start ≤ inum ∧ inum < start + fuel := by
  induction fuel generalizing start with
  | zero => cases h
  | succ fuel ih =>
    unfold firstFree at h
    split at h
    · cases h
      omega
    · have hrange := ih h
      omega

theorem Holding.ialloc_fresh {type : FileType} (h : fs.Holding held)
    (hok : fs.ialloc type = .ok (fs', ip)) :
    (fs.dinode (fs'.icache ip).inum).type = .free ∧ (fs'.icache ip).inum ≠ 0 ∧
      (fs'.icache ip).inum < inodeArea ∧
      fs'.dinode = Function.update fs.dinode (fs'.icache ip).inum { Dinode.zero with type } ∧
      fs'.data = fs.data ∧ ∀ i ∈ held, (fs'.icache i).inum = (fs.icache i).inum := by
  unfold Fs.ialloc at hok
  split at hok
  · cases hok
  · rename_i inum hfree
    have hrange := firstFree_range hfree
    generalize hfs1 : logWrite { fs with
      dinode := Function.update fs.dinode inum { Dinode.zero with type } } (iblock inum) = fs1
      at hok
    have hicache : fs1.icache = fs.icache := by rw [← hfs1, logWrite_icache]
    have hdinode : fs1.dinode = Function.update fs.dinode inum { Dinode.zero with type } := by
      rw [← hfs1, logWrite_dinode]
    have hdata : fs1.data = fs.data := by rw [← hfs1, logWrite_data]
    have hcalm : fs1.Calm := by
      apply h.toCalm.ialloc (firstFree_spec hfree) _ hdata hicache hdinode
      rw [← hfs1, logWrite_bitmap]
    have hholding : fs1.Holding held := ⟨hcalm, by rw [hicache]; exact h.refs⟩
    obtain ⟨hpasses, hinum⟩ := hholding.iget_passes hok
    have hdisk : fs'.dinode = fs1.dinode ∧ fs'.data = fs1.data := by
      rcases iget_cases hok with ⟨rfl, -⟩ | ⟨rfl, -⟩
      · exact ⟨rfl, rfl⟩
      · exact ⟨rfl, rfl⟩
    rw [hinum]
    refine ⟨firstFree_spec hfree, by omega, ?_, hdisk.1.trans hdinode, hdisk.2.trans hdata,
      fun i hi => ?_⟩
    · simp only [ninodes, inodeArea] at *
      omega
    · rw [hpasses.inums i hi, hicache]

structure Makes (fs fs' : Fs) (n : Nat) (new : Dinode) : Prop where
  free : (fs.dinode n).type = .free
  others : ∀ inum, inum ≠ n → SameFile fs fs' inum
  dinode : fs'.dinode n = new

theorem Exact.unnamed (h : fs.Exact) (hfree : (fs.dinode n).type = .free) :
    (∀ x, fs.graph.entry x ≠ some n) ∧ fs.graph.parent n = none ∧ fs.graph.links n = 0 := by
  have hcount := h.counted.counts n
  rw [links_of_free hfree] at hcount
  refine ⟨fun x hx => ?_, if_neg fun hattached => ?_, links_of_free hfree⟩
  · have hpos := tally_pos h.counted.entries hx
    omega
  · rw [hattached.1.2] at hfree
    cases hfree

theorem Makes.linked {new : Dinode} (h : Makes fs fs' n new) (hexact : fs.Exact)
    (hne : n ≠ 0) (harea : n < inodeArea) (hfile : new.type ≠ .free) (hleaf : new.type ≠ .dir)
    (hnlink : new.nlink = 1) : fs'.Linked (OneMore n) := by
  obtain ⟨-, hparent, hlinks⟩ := hexact.unnamed h.free
  have halloc : Allocated fs'.dinode n := ⟨harea, by rw [h.dinode]; exact hfile⟩
  have hnot : ¬ fs'.IsDir n := fun hdir => hleaf (by rw [← h.dinode]; exact hdir.2)
  have hnot' : ¬ fs.IsDir n := fun hdir => by
    have hfree := h.free
    rw [hdir.2] at hfree
    cases hfree
  have hgraph : fs'.graph = fs.graph.relink n 1 := by
    apply graph_eq
    · intro inum
      rw [relink_apply]
      split
      · rename_i heq
        rw [heq, links_of_allocated halloc, h.dinode, hnlink, hlinks]
        rfl
      · rename_i heq
        exact ((h.others inum heq).node (hexact.dirs.proper inum)).links
    · intro d e
      change _ = fs.graph.entry (d, e)
      by_cases heq : d = n
      · rw [heq]
        exact (if_neg fun hall => hnot hall.1.1).trans (if_neg fun hall => hnot' hall.1.1).symm
      · exact ((h.others d heq).node (hexact.dirs.proper d)).entry e
    · intro d
      change _ = fs.graph.parent d
      by_cases heq : d = n
      · rw [heq]
        exact (if_neg fun hall => hnot hall.1).trans hparent.symm
      · exact ((h.others d heq).node (hexact.dirs.proper d)).parent
  refine ⟨?_, ?_, fun d hdir => ?_, ?_, fun inum halloc => ?_⟩
  · rw [hgraph]
    refine (hexact.counted.relink n 1).congr fun m => ?_
    rw [OneMore]
    omega
  · rw [hgraph]
    exact hexact.shaped.relink n 1
  · have heq : d ≠ n := by
      rintro rfl
      exact hnot hdir
    have hsame := h.others d heq
    exact hsame.proper (hexact.dirs.proper d (hsame.isDir.mp hdir))
  · rw [(h.others 0 (Ne.symm hne)).dinode]
    exact hexact.dirs.zeroth
  · by_cases heq : inum = n
    · rw [heq, h.dinode, hnlink]
      decide
    · have hsame := (h.others inum heq).dinode
      rw [hsame]
      exact hexact.dirs.short inum ((allocated_congr hsame).mp halloc)

theorem Exact.room (h : fs.Exact) (hattached : fs.Attached d) : (fs.dinode d).nlink < 32767 := by
  have hlinks := h.counted.links_le h.shaped (parent_ne_none.mpr hattached)
  have hchildren : tally fs.graph.parent d ≤ inodeArea := by
    have hsub : {m | fs.graph.parent m = some d} ⊆ ↑(Finset.range inodeArea) := by
      intro m hm
      have hm : fs.graph.parent m = some d := hm
      rw [Finset.mem_coe, Finset.mem_range]
      have hattached : fs.Attached m := by
        rw [← parent_ne_none, hm]
        exact Option.some_ne_none d
      exact hattached.1.1
    have hle := Set.ncard_le_ncard hsub (Finset.finite_toSet _)
    rw [Set.ncard_coe_finset, Finset.card_range] at hle
    exact hle
  rw [links_of_allocated hattached.1.allocated] at hlinks
  simp only [inodeArea] at hchildren
  omega

/-- A directory that has its first two entries, and a link for its parent. -/
structure Dotted (fs fs' : Fs) (d n : Nat) : Prop where
  free : (fs.dinode n).type = .free
  others : ∀ inum, inum ≠ n → inum ≠ d → SameFile fs fs' inum
  parent : Recounts fs fs' d ((fs.dinode d).nlink + 1)
  type : (fs'.dinode n).type = .dir
  nlink : (fs'.dinode n).nlink = 1
  size : (fs'.dinode n).size = 2 * direntSize
  dot : fs'.dirent n 0 = ⟨n, strncpy dirsiz dot⟩
  dotdot : fs'.dirent n 1 = ⟨d, strncpy dirsiz dotdot⟩

theorem Dotted.proper (h : Dotted fs fs' d n) (hne : n ≠ 0) (hd : d ≠ 0) : fs'.Proper n := by
  have hin : ∀ e, fs'.Uses n e → e < 2 := by
    intro e huses
    have hin := huses.1
    rw [h.size] at hin
    simp only [direntSize] at hin
    omega
  refine ⟨⟨⟨?_, ?_⟩, ?_⟩, ⟨⟨?_, ?_⟩, ?_⟩, fun e he huses => ?_, fun hzero => ?_⟩
  · rw [h.size]
    decide
  · rw [h.dot]
    exact hne
  · rw [h.dot, namecmp_stored]
    decide
  · rw [h.size]
    decide
  · rw [h.dotdot]
    exact hd
  · rw [h.dotdot, namecmp_stored]
    decide
  · have := hin e huses
    omega
  · rw [h.nlink] at hzero
    cases hzero

theorem Dotted.graph (h : Dotted fs fs' d n) (hne : n ≠ 0) (harea : n < inodeArea)
    (hexact : fs.Exact) (hattached : fs.Attached d) :
    fs'.graph = ((fs.graph.relink n 1).relink d 1).setParent n (some d) ∧ fs'.Dirs := by
  obtain ⟨-, hparent, hlinks⟩ := hexact.unnamed h.free
  have hdn : d ≠ n := by
    rintro rfl
    have hfree := h.free
    rw [hattached.1.2] at hfree
    cases hfree
  have hd : d ≠ 0 := by
    rintro rfl
    have hzeroth := hexact.dirs.zeroth
    rw [hattached.1.2] at hzeroth
    cases hzeroth
  have hnlink := hattached.2
  have hlow := hexact.nlink_nonneg le_rfl hattached.1.allocated
  have hkept : fs'.Attached d ↔ fs.Attached d := h.parent.attached hnlink (by omega)
  have hdir : fs'.IsDir n := ⟨harea, h.type⟩
  have hnew : fs'.Attached n := ⟨hdir, by rw [h.nlink]; decide⟩
  have hproper := h.proper hne hd
  have hnot : ¬ fs.IsDir n := fun hdir => by
    have hfree := h.free
    rw [hdir.2] at hfree
    cases hfree
  constructor
  · apply graph_eq
    · intro inum
      change _ = ((fs.graph.relink n 1).relink d 1).links inum
      rw [relink_apply, relink_apply, relink_apply, if_neg hdn]
      by_cases hi : inum = d
      · rw [if_pos hi, hi, links_of_allocated (h.parent.allocated.mpr hattached.1.allocated),
          h.parent.dinode, links_of_allocated hattached.1.allocated]
      · rw [if_neg hi]
        by_cases hn : inum = n
        · rw [if_pos hn, hn, links_of_allocated hdir.allocated, h.nlink, hlinks]
          rfl
        · rw [if_neg hn]
          exact ((h.others inum hn hi).node (hexact.dirs.proper inum)).links
    · intro x e
      change _ = fs.graph.entry (x, e)
      by_cases hi : x = d
      · rw [hi, h.parent.entry hkept]
      · by_cases hn : x = n
        · rw [hn]
          refine (if_neg fun hall => ?_).trans (if_neg fun hall => hnot hall.1.1).symm
          have hin := hall.2.2.1
          have hlater := hall.2.1
          simp only at hin hlater
          rw [h.size] at hin
          simp only [direntSize] at hin
          omega
        · exact ((h.others x hn hi).node (hexact.dirs.proper x)).entry e
    · intro x
      rw [setParent_apply]
      by_cases hn : x = n
      · rw [if_pos hn, hn, parent_of_attached hnew, h.dotdot]
      · rw [if_neg hn]
        by_cases hi : x = d
        · rw [hi]
          exact h.parent.parent (hexact.dirs.proper d hattached.1) hkept
        · exact ((h.others x hn hi).node (hexact.dirs.proper x)).parent
  · refine ⟨fun x hx => ?_, ?_, fun inum halloc => ?_⟩
    · by_cases hi : x = d
      · rw [hi]
        exact h.parent.proper (hexact.dirs.proper d hattached.1) fun hzero => by omega
      · by_cases hn : x = n
        · rw [hn]
          exact hproper
        · have hsame := h.others x hn hi
          exact hsame.proper (hexact.dirs.proper x (hsame.isDir.mp hx))
    · rw [(h.others 0 (Ne.symm hne) (Ne.symm hd)).dinode]
      exact hexact.dirs.zeroth
    · by_cases hi : inum = d
      · have hroom := hexact.room hattached
        rw [hi, h.parent.dinode]
        dsimp only
        omega
      · by_cases hn : inum = n
        · rw [hn, h.nlink]
          decide
        · have hsame := (h.others inum hn hi).dinode
          rw [hsame]
          exact hexact.dirs.short inum ((allocated_congr hsame).mp halloc)

theorem Enters.append {k : Nat} (h : Enters fs fs' ip name inum e)
    (hsize : (fs.din ip).size = direntSize * k)
    (hfull : ∀ j, j < k → (fs.dirent (fs.icache ip).inum j).inum ≠ 0) : e = k := by
  rcases h.room with ⟨hin, hzero⟩ | hend
  · rw [hsize] at hin
    simp only [direntSize] at hin
    exact absurd hzero (hfull e (by omega))
  · rw [hsize] at hend
    simp only [direntSize] at hend
    omega

theorem Holding.createDots_dotted {fs0 : Fs} {new : Dinode} (h : fs.Holding held)
    (hip : ip ∈ held) (hloaded : fs.Loaded ip) (hloadedp : fs.Loaded dp)
    (hmakes : Makes fs0 fs (fs.icache ip).inum new) (htype : new.type = .dir)
    (hnlink : new.nlink = 1) (hsize : new.size = 0) (hnz : (fs.icache ip).inum ≠ 0)
    (hexact : fs0.Exact) (hattached : fs0.Attached (fs.icache dp).inum)
    (hok : fs.createDots dp ip = .ok fs') :
    Dotted fs0 fs' (fs.icache dp).inum (fs.icache ip).inum ∧
      ∀ i, (fs'.icache i).inum = (fs.icache i).inum := by
  have hdn : (fs.icache dp).inum ≠ (fs.icache ip).inum := by
    intro heq
    have hfree := hmakes.free
    rw [← heq, hattached.1.2] at hfree
    cases hfree
  have hne : ip ≠ dp := fun heq => hdn (by rw [heq])
  obtain ⟨halloc, hsynced⟩ := h.loaded ip hloaded
  obtain ⟨hallocp, hsyncedp⟩ := h.loaded dp hloadedp
  -- the link for `..`
  obtain ⟨hrelinks, hentry⟩ := h.toCalm.addLink_relinks hloadedp 1
  have hsamep := hmakes.others _ hdn
  have hcount : i16 (fs.nlink dp + 1) = (fs0.dinode (fs.icache dp).inum).nlink + 1 := by
    have hlow := hexact.nlink_nonneg le_rfl hattached.1.allocated
    have hhigh := hexact.room hattached
    rw [nlink, hsyncedp, hsamep.dinode, i16_eq (by omega) (by omega)]
  rw [hcount] at hrelinks
  obtain ⟨h1, hkeeps1⟩ := h.addLink hloadedp 1
  have hinum1 : ∀ i, ((fs.addLink dp 1).icache i).inum = (fs.icache i).inum := by
    intro i
    by_cases hi : i = dp
    · rw [hi, hentry.inum]
    · rw [hentry.others i hi]
  have hloaded1 := hkeeps1 ip hip hloaded
  unfold Fs.createDots at hok
  generalize fs.addLink dp 1 = fs1 at *
  dsimp only at hok
  rw [hinum1] at hok
  -- `.`
  obtain ⟨⟨fs2, linked⟩, hdot, hok⟩ := bind_eq_ok.mp hok
  obtain ⟨h2, hkeeps2⟩ := h1.dirlink hloaded1 hip hdot
  have hsmall : (fs.icache ip).inum < 65536 := by
    have := halloc.1
    simp only [inodeArea] at this
    omega
  obtain ⟨-, hlinked⟩ := h1.dirlink_eq hloaded1 hsmall hdot
  dsimp only at hok
  rcases hlinked with ⟨rfl, -⟩ | ⟨rfl, e, henters⟩
  · cases hok
  · rw [if_neg (by decide)] at hok
    have hsize1 : (fs1.din ip).size = direntSize * 0 := by
      rw [(h1.loaded ip hloaded1).2, hinum1, (hrelinks.others _ (Ne.symm hdn)).dinode,
        hmakes.dinode, hsize]
      rfl
    obtain rfl := henters.append hsize1 fun j hj => absurd hj (Nat.not_lt_zero j)
    have hwrites := henters.writes
    rw [hinum1] at hwrites
    have hinum2 : ∀ i, (fs2.icache i).inum = (fs.icache i).inum := by
      intro i
      by_cases hi : i = ip
      · rw [hi, henters.entry.inum, hinum1]
      · rw [henters.entry.others i hi, hinum1]
    have hloaded2 := hkeeps2 ip hip hloaded1
    rw [hinum2] at hok
    -- `..`
    obtain ⟨⟨fs3, linked⟩, hdotdot, hok⟩ := bind_eq_ok.mp hok
    have hsmallp : (fs.icache dp).inum < 65536 := by
      have := hallocp.1
      simp only [inodeArea] at this
      omega
    obtain ⟨-, hlinked⟩ := h2.dirlink_eq hloaded2 hsmallp hdotdot
    dsimp only at hok
    rcases hlinked with ⟨rfl, -⟩ | ⟨rfl, e, henters'⟩
    · cases hok
    · rw [if_neg (by decide)] at hok
      cases Except.ok.inj hok
      have hnew : fs1.dinode (fs.icache ip).inum = new := by
        rw [(hrelinks.others _ (Ne.symm hdn)).dinode, hmakes.dinode]
      have hsize2 : (fs2.dinode (fs.icache ip).inum).size = direntSize * 1 := by
        rw [hwrites.size, hnew, hsize]
        decide
      have hsize2' : (fs2.din ip).size = direntSize * 1 := by
        rw [(h2.loaded ip hloaded2).2, hinum2, hsize2]
      have hfull : ∀ j, j < 1 → (fs2.dirent (fs2.icache ip).inum j).inum ≠ 0 := by
        intro j hj
        obtain rfl : j = 0 := by omega
        rw [hinum2, hwrites.here]
        exact hnz
      obtain rfl := henters'.append hsize2' hfull
      have hwrites' := henters'.writes
      rw [hinum2] at hwrites'
      have hother : ∀ inum, inum ≠ (fs.icache ip).inum → SameFile fs1 fs' inum := fun inum hi =>
        (hwrites.others inum hi).trans (hwrites'.others inum hi)
      refine ⟨⟨hmakes.free, fun inum hi hd => ?_, ⟨?_, fun k hk => ?_⟩, ?_, ?_, ?_, ?_, ?_⟩,
        fun i => ?_⟩
      · exact ((hmakes.others inum hi).trans (hrelinks.others inum hd)).trans (hother inum hi)
      · rw [(hother _ hdn).dinode, hrelinks.dinode, hsamep.dinode]
      · have hk1 : direntSize * k + direntSize ≤ (fs.dinode (fs.icache dp).inum).size := by
          rw [hsamep.dinode]
          exact hk
        have hk2 : direntSize * k + direntSize ≤ (fs1.dinode (fs.icache dp).inum).size := by
          rw [hrelinks.dinode]
          exact hk1
        rw [(hother _ hdn).dirent hk2, hrelinks.dirent k hk1, hsamep.dirent hk]
      · rw [hwrites'.type, hwrites.type, hnew, htype]
      · rw [hwrites'.nlink, hwrites.nlink, hnew, hnlink]
      · rw [hwrites'.size, hsize2]
        decide
      · rw [hwrites'.there 0 (by decide) (by rw [hsize2]; decide), hwrites.here]
      · exact hwrites'.here
      · by_cases hi : i = ip
        · rw [hi, henters'.entry.inum, hinum2]
        · rw [henters'.entry.others i hi, hinum2]

def createName (fs : Fs) (dp : Iref) (name : Name) (ip : Iref) :
    Except Panic (Fs × Option Iref) := do
  let (fs, linked) ← fs.dirlink dp name (fs.icache ip).inum
  if linked < 0 then .error .createDirlink
  else return (← fs.iput dp, some ip)

theorem Holding.createName_cases {r : Option Iref} (h : fs.Holding (ip :: dp :: held))
    (hloadedp : fs.Loaded dp) (hsmall : (fs.icache ip).inum < 65536)
    (hok : fs.createName dp name ip = .ok (fs', r)) :
    ∃ fs1 e, Enters fs fs1 dp name (fs.icache ip).inum e ∧ Passes fs1 fs' (ip :: held) := by
  obtain ⟨⟨fs1, linked⟩, hlink, hok⟩ := bind_eq_ok.mp hok
  have hdp : dp ∈ ip :: dp :: held := List.mem_cons_of_mem ip List.mem_cons_self
  obtain ⟨h1, -⟩ := h.dirlink hloadedp hdp hlink
  obtain ⟨-, hlinked⟩ := h.dirlink_eq hloadedp hsmall hlink
  dsimp only at hok
  rcases hlinked with ⟨rfl, -⟩ | ⟨rfl, e, henters⟩
  · cases hok
  · rw [if_neg (by decide)] at hok
    obtain ⟨fs2, hput, hok⟩ := bind_eq_ok.mp hok
    cases Except.ok.inj hok
    exact ⟨fs1, e, henters, (h1.perm (.swap dp ip held)).iput_passes hput⟩

theorem Dotted.exact {fs1 fs2 : Fs} {new : Nat} (h : Dotted fs fs1 (fs1.icache dp).inum new)
    (hne : new ≠ 0) (harea : new < inodeArea) (hexact : fs.Exact)
    (hattached : fs.Attached (fs1.icache dp).inum) (hcalm : fs1.Calm) (hloadedp : fs1.Loaded dp)
    (henters : Enters fs1 fs2 dp name new e) : fs2.Exact := by
  obtain ⟨hunnamed, hparent, -⟩ := hexact.unnamed h.free
  obtain ⟨hgraph1, hdirs1⟩ := h.graph hne harea hexact hattached
  have hlow := hexact.nlink_nonneg le_rfl hattached.1.allocated
  have hnlink := hattached.2
  have hattached1 : fs1.Attached (fs1.icache dp).inum :=
    (h.parent.attached hnlink (by omega)).mpr hattached
  obtain ⟨hgraph2, hdirs2, hempty⟩ := henters.graph hcalm hloadedp hdirs1 hattached1 hne
  have hgraph : fs2.graph = fs.graph.mkdir ((fs1.icache dp).inum, e) new := by
    rw [hgraph2, hgraph1]
    rfl
  rw [hgraph1] at hempty
  have hempty : fs.graph.entry ((fs1.icache dp).inum, e) = none := hempty
  refine ⟨?_, ?_, hdirs2⟩
  · rw [hgraph]
    exact hexact.counted.mkdir hempty hparent
  · rw [hgraph]
    exact hexact.shaped.mkdir (parent_ne_none.mpr hattached) hempty hparent hunnamed

theorem Holding.createNew_exact {type : FileType} {major minor : Int} {r : Option Iref}
    (h : fs.Holding (dp :: held)) (hloadedp : fs.Loaded dp) (hexact : fs.Exact)
    (hattached : fs.Attached (fs.icache dp).inum)
    (hok : fs.createNew dp name type major minor = .ok (fs', r)) : fs'.Exact := by
  obtain ⟨⟨fs1, ip⟩, halloc, hok⟩ := bind_eq_ok.mp hok
  obtain ⟨fs2, hlock, hok⟩ := bind_eq_ok.mp hok
  obtain ⟨h1, hkeeps1⟩ := h.ialloc halloc
  obtain ⟨h2, hkeeps2, hloaded⟩ := h1.ilock hlock
  obtain ⟨hfree, hnz, harea, hdinode1, hdata1, hinums1⟩ := h.ialloc_fresh halloc
  obtain ⟨hdinode2, hdata2⟩ := ilock_disk hlock
  have hinum2 := (ilock_passes (ip :: dp :: held) hlock).inums
  have hdp : dp ∈ ip :: dp :: held := List.mem_cons_of_mem ip List.mem_cons_self
  have hloadedp2 := hkeeps2 dp hdp (hkeeps1 dp List.mem_cons_self hloadedp)
  have hn := hinum2 ip List.mem_cons_self
  have hd := (hinum2 dp hdp).trans (hinums1 dp List.mem_cons_self)
  rw [← hn] at hfree hnz harea hdinode1
  -- the inode gets its count
  obtain ⟨-, hsynced⟩ := h2.loaded ip hloaded
  have hdin : fs2.din ip = { Dinode.zero with type } := by
    rw [hsynced, hdinode2, hdinode1, Function.update_self]
  obtain ⟨h3, hkeeps3⟩ := h2.stores hloaded (h2.toCalm.store
    (d := { fs2.din ip with major := major, minor := minor, nlink := 1 }) hloaded rfl rfl rfl)
  obtain ⟨-, hdata3, -, hdinode3⟩ := store_same fs2 ip
    { fs2.din ip with major := major, minor := minor, nlink := 1 }
  have hentry3 := store_sameEntry fs2 ip
    { fs2.din ip with major := major, minor := minor, nlink := 1 }
  have hloaded3 := hkeeps3 ip List.mem_cons_self hloaded
  have hloadedp3 := hkeeps3 dp hdp hloadedp2
  dsimp only at hok
  generalize (fs2.setDin ip { fs2.din ip with
    major := major, minor := minor, nlink := 1 }).iupdate ip = fs3 at *
  have hn3 := hentry3.inum
  have hd3 : (fs3.icache dp).inum = (fs.icache dp).inum := by
    by_cases heq : dp = ip
    · rw [heq, hentry3.inum, ← heq, hd]
    · rw [hentry3.others dp heq, hd]
  have hmakes : Makes fs fs3 (fs3.icache ip).inum
      { Dinode.zero with type, major := major, minor := minor, nlink := 1 } := by
    rw [hn3]
    refine ⟨hfree, fun inum hne => sameFile_of_eq ?_ ?_, ?_⟩
    · rw [hdinode3, Function.update_of_ne hne, hdinode2, hdinode1, Function.update_of_ne hne]
    · rw [hdata3, hdata2, hdata1]
    · rw [hdinode3, Function.update_self, hdin]
  rw [← hn3] at hnz harea
  have hsmall : (fs3.icache ip).inum < 65536 := by
    simp only [inodeArea] at harea
    omega
  have hattached3 : fs.Attached (fs3.icache dp).inum := by
    rw [hd3]
    exact hattached
  by_cases htype : type = .dir
  · rw [if_pos htype] at hok
    obtain ⟨fs4, hdots, hok⟩ := bind_eq_ok.mp hok
    obtain ⟨h4, hkeeps4⟩ := h3.createDots List.mem_cons_self hloaded3 hloadedp3 hdots
    obtain ⟨hdotted, hinum4⟩ := h3.createDots_dotted List.mem_cons_self hloaded3 hloadedp3 hmakes
      htype rfl rfl hnz hexact hattached3 hdots
    rw [← hinum4 ip] at hdotted hnz harea hsmall
    rw [← hinum4 dp] at hdotted hattached3
    have hloadedp4 := hkeeps4 dp hdp hloadedp3
    obtain ⟨fs5, e, henters, hpasses⟩ := h4.createName_cases hloadedp4 hsmall hok
    exact hpasses.linked
      (hdotted.exact hnz harea hexact hattached3 h4.toCalm hloadedp4 henters)
  · rw [if_neg htype] at hok
    obtain ⟨fs4, hsame, hok⟩ := bind_eq_ok.mp hok
    cases Except.ok.inj hsame
    obtain ⟨halloc3, -⟩ := h3.loaded ip hloaded3
    have hfile : type ≠ .free := by
      have hfile := halloc3.2
      rw [hmakes.dinode] at hfile
      exact hfile
    have hlinked := hmakes.linked hexact hnz harea hfile htype rfl
    have hsamep : SameFile fs fs3 (fs3.icache dp).inum := by
      apply hmakes.others
      intro heq
      have hfree := hmakes.free
      rw [← heq, hattached3.1.2] at hfree
      cases hfree
    have hleaf : ¬ fs3.IsDir (fs3.icache ip).inum := fun hdir => by
      have hdir := hdir.2
      rw [hmakes.dinode] at hdir
      exact htype hdir
    obtain ⟨fs5, e, henters, hpasses⟩ := h3.createName_cases hloadedp3 hsmall hok
    refine hpasses.linked ((hlinked.enter henters h3.toCalm hloadedp3
      (hsamep.attached.mpr hattached3) hnz hleaf).congr fun m => ?_)
    rw [OneMore]
    omega

theorem Holding.create_exact {path : Name} {type : FileType} {major minor : Int} {r : Option Iref}
    (h : fs.Holding held) (hcwd : cwd ∈ held) (hexact : fs.Exact)
    (hkept : fs.parentKept cwd path = true)
    (hok : fs.create cwd path type major minor = .ok (fs', r)) : fs'.Exact := by
  obtain ⟨⟨fs1, parent⟩, hparent, hok⟩ := bind_eq_ok.mp hok
  obtain ⟨h1, -⟩ := h.namex hcwd hparent
  have hexact1 := (h.namex_passes hcwd hparent).linked hexact
  unfold parentKept at hkept
  rw [hparent] at hkept
  cases parent with
  | none =>
    cases Except.ok.inj hok
    exact hexact1
  | some parent =>
    obtain ⟨dp, name⟩ := parent
    obtain ⟨fs2, hlock, hok⟩ := bind_eq_ok.mp hok
    obtain ⟨h2, -, hloadedp⟩ := h1.ilock hlock
    have hexact2 := (ilock_passes held hlock).linked hexact1
    dsimp only at hkept
    rw [hlock] at hkept
    obtain ⟨⟨fs3, found⟩, hlookup, hrest⟩ := bind_eq_ok.mp hok
    obtain ⟨h3, -⟩ := h2.dirlookup hloadedp hlookup
    obtain ⟨hdir, hpasses3, hfound⟩ := h2.dirlookup_eq hloadedp hlookup
    cases found with
    | none =>
      obtain ⟨hsame, hunknown⟩ := hfound
      subst hsame
      have hattached := h3.toCalm.attached_of_kept hloadedp hexact2.dirs hdir hkept hunknown
      exact h3.createNew_exact hloadedp hexact2 hattached hrest
    | some found =>
      obtain ⟨off, ip⟩ := found
      obtain ⟨fs4, hputp, hrest⟩ := bind_eq_ok.mp hrest
      obtain ⟨fs5, hlock', hrest⟩ := bind_eq_ok.mp hrest
      have h3 := h3.perm (.swap dp ip held)
      obtain ⟨h4, -⟩ := h3.iput hputp
      obtain ⟨h5, -, -⟩ := h4.ilock hlock'
      have hexact5 := (ilock_passes held hlock').linked
        ((h3.iput_passes hputp).linked (hpasses3.linked hexact2))
      split at hrest
      · cases Except.ok.inj hrest
        exact hexact5
      · obtain ⟨fs6, hput, hrest⟩ := bind_eq_ok.mp hrest
        cases Except.ok.inj hrest
        exact (h5.iput_passes hput).linked hexact5

end Fs

end Xv6

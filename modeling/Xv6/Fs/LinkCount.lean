import Xv6.Fs.LinkImage
import Xv6.Fs.Faults

/-! Link counts along every run: the count of an inode is the number of entries that name it. -/
namespace Xv6

open BlockTree Transition Fallible LinkGraph

namespace Fs

variable {fs fs' : Fs} {cwd dp ip : Iref} {held : List Iref} {inum e : Nat}

def live (fs : Fs) : List (Nat × Nat) :=
  ((List.range inodeArea).filter fun d => fs.Attached d).flatMap fun d =>
    ((List.range ((fs.dinode d).size / direntSize)).filter fun e => fs.Uses d e).map fun e => (d, e)

/-- How many of them name `inum`. Entries `.` do not count. -/
def names (fs : Fs) (inum : Nat) : Nat :=
  fs.live.countP fun x =>
    (fs.dirent x.1 x.2).inum = inum ∧ namecmp (fs.dirent x.1 x.2).name dot = false

/-- The count of an inode in use is the number of its names, and a free inode has none. -/
def LinksExact (fs : Fs) : Prop :=
  ∀ inum, inum < inodeArea →
    if (fs.inode inum).type = .free then fs.names inum = 0
    else (fs.inode inum).nlink = fs.names inum

theorem mem_live {x : Nat × Nat} : x ∈ fs.live ↔ fs.Attached x.1 ∧ fs.Uses x.1 x.2 := by
  obtain ⟨d, e⟩ := x
  simp only [live, List.mem_flatMap, List.mem_filter, List.mem_range, List.mem_map,
    decide_eq_true_eq, Prod.mk.injEq]
  constructor
  · rintro ⟨_, ⟨-, hattached⟩, _, ⟨-, huses⟩, rfl, rfl⟩
    exact ⟨hattached, huses⟩
  · rintro ⟨hattached, huses⟩
    have hin := huses.1
    refine ⟨d, ⟨hattached.1.1, hattached⟩, e, ⟨?_, huses⟩, rfl, rfl⟩
    simp only [direntSize] at *
    omega

theorem nodup_live (fs : Fs) : fs.live.Nodup := by
  refine List.nodup_flatMap.mpr ⟨fun d _ => ?_, ?_⟩
  · refine (List.nodup_range.filter _).map fun e e' heq => (Prod.mk.inj heq).2
  · refine (List.nodup_range.filter _).imp fun {d d'} hne x hx hx' => ?_
    obtain ⟨e, -, rfl⟩ := List.mem_map.mp hx
    obtain ⟨e', -, heq⟩ := List.mem_map.mp hx'
    exact hne (Prod.mk.inj heq).1.symm

theorem names_eq_ncard (fs : Fs) (inum : Nat) :
    fs.names inum = {x | x ∈ fs.live ∧ (fs.dirent x.1 x.2).inum = inum ∧
      namecmp (fs.dirent x.1 x.2).name dot = false}.ncard := by
  rw [names, List.countP_eq_length_filter,
    ← List.toFinset_card_of_nodup (fs.nodup_live.filter _), ← Set.ncard_coe_finset]
  congr 1
  ext x
  simp

theorem Exact.names_eq (h : fs.Exact) (inum : Nat) :
    fs.names inum = tally fs.graph.entry inum + tally fs.graph.parent inum := by
  have hsplit : {x | x ∈ fs.live ∧ (fs.dirent x.1 x.2).inum = inum ∧
      namecmp (fs.dirent x.1 x.2).name dot = false} = {x | fs.graph.entry x = some inum} ∪
      Set.image (fun d => (d, 1)) {d | fs.graph.parent d = some inum} := by
    ext ⟨d, e⟩
    constructor
    · rintro ⟨hlive, htarget, hdot⟩
      obtain ⟨hattached, huses⟩ := mem_live.mp hlive
      rcases Nat.lt_or_ge e 2 with he | he
      · have he0 : e ≠ 0 := by
          rintro rfl
          have hname := (h.dirs.proper d hattached.1).dot.2
          dsimp only at hdot
          rw [hdot] at hname
          cases hname
        obtain rfl : e = 1 := by omega
        exact .inr ⟨d, (parent_of_attached hattached).trans (congrArg some htarget), rfl⟩
      · exact .inl ((entry_of_uses hattached he huses).trans (congrArg some htarget))
    · rintro (hentry | ⟨_, hparent, heq⟩)
      · obtain ⟨hattached, he, huses, htarget⟩ := uses_of_entry hentry
        exact ⟨mem_live.mpr ⟨hattached, huses⟩, htarget,
          ((h.dirs.proper d hattached.1).names e he huses).1⟩
      · obtain ⟨rfl, rfl⟩ := Prod.mk.inj heq
        have hattached := parent_ne_none.mp (ne_of_eq_of_ne hparent (Option.some_ne_none inum))
        obtain ⟨huses, hname⟩ := (h.dirs.proper _ hattached.1).dotdot
        refine ⟨mem_live.mpr ⟨hattached, huses⟩, ?_, ?_⟩
        · exact Option.some.inj ((parent_of_attached hattached).symm.trans hparent)
        · apply Bool.eq_false_of_not_eq_true
          intro hdot
          have hsame := namecmp_trans (namecmp_symm hname) hdot
          revert hsame
          decide
  have hdisjoint : Disjoint {x | fs.graph.entry x = some inum}
      (Set.image (fun d => (d, 1)) {d | fs.graph.parent d = some inum}) := by
    refine Set.disjoint_left.mpr fun x hentry himage => ?_
    obtain ⟨d, -, rfl⟩ := himage
    have hlater := (uses_of_entry hentry).2.1
    dsimp only at hlater
    omega
  rw [names_eq_ncard, hsplit, Set.ncard_union_eq hdisjoint (h.counted.entries.at inum)
    ((h.counted.parents.at inum).image _),
    Set.ncard_image_of_injective _ fun d d' heq => (Prod.mk.inj heq).1]
  rfl

theorem Exact.linksExact (h : fs.Exact) (hcalm : fs.Calm) : fs.LinksExact := by
  intro inum harea
  have hcount := h.counted.counts inum
  rw [hcalm.inode_eq, h.names_eq]
  split
  · rename_i hfree
    rw [links_of_free hfree] at hcount
    omega
  · rename_i hused
    rw [links_of_allocated ⟨harea, hused⟩] at hcount
    omega

/-- What the callers of the kernel keep to: inodes come from `create`, a directory is not
written as a file is, `sys_link` finds room in the count, and a removed directory gets no new
name. -/
def Regular (fs : Fs) : Op → Prop
  | .ialloc _ => False
  | .writei ip _ _ => (fs.din ip).type ≠ .dir
  | .create cwd path _ _ _ => fs.parentKept cwd path = true
  | .link cwd old new => fs.linkFits cwd old new = true
  | _ => True

instance (fs : Fs) : (op : Op) → Decidable (fs.Regular op)
  | .ialloc _ => inferInstanceAs (Decidable False)
  | .writei ip _ _ => inferInstanceAs (Decidable ((fs.din ip).type ≠ .dir))
  | .create cwd path _ _ _ => inferInstanceAs (Decidable (fs.parentKept cwd path = true))
  | .link cwd old new => inferInstanceAs (Decidable (fs.linkFits cwd old new = true))
  | .iget _ | .idup _ | .ilock _ | .bmap _ _ | .readi _ _ _ | .iput _ | .unlink _ _ =>
      inferInstanceAs (Decidable True)

theorem exact_step {op : Op} {out : Unit} (h : fs.Calm) (hexact : fs.Exact)
    (henabled : fs.Enabled op) (hinside : fs.Inside op) (hregular : fs.Regular op)
    (hstep : machine fs op = .ok (fs', out)) : fs'.Exact := by
  cases op with
  | iget inum =>
    obtain ⟨⟨fs1, ip⟩, hop, heq⟩ := map_eq_ok.mp hstep
    cases heq
    exact (h.holding_nil.iget_passes hop).1.linked hexact
  | idup ip =>
    cases Except.ok.inj hstep
    exact (passes_idup fs ip []).linked hexact
  | ilock ip =>
    obtain ⟨fs1, hop, heq⟩ := map_eq_ok.mp hstep
    cases heq
    exact (ilock_passes [] hop).linked hexact
  | ialloc type => exact hregular.elim
  | bmap ip bn =>
    obtain ⟨⟨fs1, a⟩, hop, heq⟩ := map_eq_ok.mp hstep
    cases heq
    obtain ⟨rfl, -⟩ := (h.mapped_file henabled).bmap hinside hop
    exact hexact
  | readi ip off n =>
    obtain ⟨⟨fs1, a⟩, hop, heq⟩ := map_eq_ok.mp hstep
    cases heq
    obtain rfl := (h.mapped_file henabled).readi hop
    exact hexact
  | writei ip src off =>
    obtain ⟨⟨fs1, a⟩, hop, heq⟩ := map_eq_ok.mp hstep
    cases heq
    have hsynced := (h.loaded ip henabled).2
    exact (h.writei_alters henabled hop).linked (fun hdir => hregular (hsynced ▸ hdir.2)) hexact
  | iput ip =>
    obtain ⟨fs1, hop, heq⟩ := map_eq_ok.mp hstep
    cases heq
    exact ((h.holding_cwd henabled).iput_passes hop).linked hexact
  | create cwd path type major minor =>
    obtain ⟨⟨fs1, r⟩, hop, heq⟩ := map_eq_ok.mp hstep
    cases heq
    exact (h.holding_cwd henabled).create_exact List.mem_cons_self hexact hregular hop
  | link cwd old new =>
    obtain ⟨⟨fs1, r⟩, hop, heq⟩ := map_eq_ok.mp hstep
    cases heq
    exact (h.holding_cwd henabled).link_exact List.mem_cons_self hexact hregular hop
  | unlink cwd path =>
    obtain ⟨⟨fs1, r⟩, hop, heq⟩ := map_eq_ok.mp hstep
    cases heq
    exact (h.holding_cwd henabled).unlink_exact List.mem_cons_self hexact hop

theorem Holding.unlinkEntry_avoids (h : fs.Holding (ip :: dp :: held)) (hexact : fs.Exact)
    (hnames : fs.Names dp e ip) :
    Avoids .unlinkNlink (fs.unlinkEntry dp (direntSize * e) ip) := by
  refine (fs.ilock_avoids ip).bind fun fs1 hlock => ?_
  obtain ⟨h1, -, hloaded⟩ := h.ilock hlock
  have hpasses := ilock_passes (ip :: dp :: held) hlock
  have hnames1 := hpasses.names (List.mem_cons_of_mem ip List.mem_cons_self) List.mem_cons_self
    hnames
  obtain ⟨halloc, hsynced⟩ := h1.loaded ip hloaded
  have hpos := (hpasses.linked hexact).nlink_pos hnames1 rfl halloc
  have hnlink : ¬ fs1.nlink ip < 1 := by
    rw [nlink, hsynced]
    omega
  rw [if_neg hnlink]
  have hrest : ∀ (fs : Fs) (empty : Bool), Avoids .unlinkNlink (if empty then do
      let fs ← fs.writeDirent dp (List.replicate direntSize 0) (direntSize * e) .unlinkWritei
      let fs := if (fs.din ip).type = .dir then fs.addLink dp (-1) else fs
      let fs ← fs.iput dp
      return (← (fs.addLink ip (-1)).iput ip, 0)
    else do
      let fs ← fs.iput ip
      return (← fs.iput dp, -1) : Except Panic (Fs × Int)) := by
    intro fs empty
    split
    · refine (fs.writeDirent_avoids dp _ _ (by decide)).bind fun fs _ => ?_
      refine (iput_avoids _ dp).bind fun fs _ => ?_
      exact (iput_avoids _ ip).bind fun _ _ => avoids_ok _
    · refine (fs.iput_avoids ip).bind fun fs _ => ?_
      exact (fs.iput_avoids dp).bind fun _ _ => avoids_ok _
  split
  · exact (fs1.emptyFrom_avoids ip _ _).bind fun r _ => hrest r.1 r.2
  · exact hrest fs1 true

theorem Holding.unlink_avoids (h : fs.Holding held) (hcwd : cwd ∈ held) (hexact : fs.Exact)
    (path : Name) : Avoids .unlinkNlink (fs.unlink cwd path) := by
  refine (fs.namex_avoids cwd path true).bind fun ⟨fs1, parent⟩ hparent => ?_
  obtain ⟨h1, -⟩ := h.namex hcwd hparent
  have hexact1 := (h.namex_passes hcwd hparent).linked hexact
  cases parent with
  | none => exact avoids_ok _
  | some parent =>
    obtain ⟨dp, name⟩ := parent
    refine (fs1.ilock_avoids dp).bind fun fs2 hlock => ?_
    obtain ⟨h2, -, hloadedp⟩ := h1.ilock hlock
    have hexact2 := (ilock_passes held hlock).linked hexact1
    split
    · exact (fs2.iput_avoids dp).bind fun _ _ => avoids_ok _
    · rename_i hdot
      refine (fs2.dirlookup_avoids dp name).bind fun ⟨fs3, found⟩ hlookup => ?_
      obtain ⟨h3, -⟩ := h2.dirlookup hloadedp hlookup
      have hexact3 := (h2.dirlookup_eq hloadedp hlookup).2.1.linked hexact2
      cases found with
      | none => exact (fs3.iput_avoids dp).bind fun _ _ => avoids_ok _
      | some found =>
        obtain ⟨off, ip⟩ := found
        obtain ⟨e, rfl, hnames⟩ := h2.dirlookup_names hloadedp hexact2 hdot hlookup
        exact h3.unlinkEntry_avoids hexact3 hnames

/-- From an image, the link counts are exact after every call, and `sys_unlink` does not find
a count below 1. -/
theorem links_exact {files : List (Name × List UInt8)} {start finish : Fs}
    (hfiles : (files.length + 2) % 32 ≠ 0)
    (hnames : ∀ file ∈ files, namecmp (Image.entryName file.1) dot = false ∧
      namecmp (Image.entryName file.1) dotdot = false) (hmkfs : mkfs files = .ok start)
    (hreaches : Reaches machine (fun fs op => fs.Enabled op ∧ fs.Inside op ∧ fs.Regular op)
      start finish) :
    finish.LinksExact ∧ ∀ cwd path, 0 < (finish.icache cwd).ref →
      finish.unlink cwd path ≠ .error .unlinkNlink := by
  have hinv : finish.Calm ∧ finish.Exact := by
    refine hreaches.invariant (fun fs => fs.Calm ∧ fs.Exact)
      ⟨calm_mkfs hfiles hmkfs, exact_mkfs hnames hmkfs⟩ ?_
    rintro fs op fs' out ⟨hcalm, hexact⟩ ⟨henabled, hinside, hregular⟩ hstep
    exact ⟨calm_step hcalm henabled hinside hstep,
      exact_step hcalm hexact henabled hinside hregular hstep⟩
  obtain ⟨hcalm, hexact⟩ := hinv
  exact ⟨hexact.linksExact hcalm, fun cwd path hcwd =>
    (hcalm.holding_cwd hcwd).unlink_avoids List.mem_cons_self hexact path⟩

/-- A directory with a file of two names in it, one of them taken away again. -/
theorem links_exact_nested : ∃ start finish, mkfs [([97], [1, 2, 3])] = .ok start ∧
    Reaches machine (fun fs op => fs.Enabled op ∧ fs.Inside op ∧ fs.Regular op) start finish ∧
    ((finish.inode rootino).nlink = 2 ∧ finish.names rootino = 2) ∧
    finish.LinksExact ∧ ∀ cwd path, 0 < (finish.icache cwd).ref →
      finish.unlink cwd path ≠ .error .unlinkNlink := by
  obtain ⟨start, finish, hmkfs, hreaches, htest⟩ :=
    exists_run_from_mkfs (fun fs op => fs.Enabled op ∧ fs.Inside op ∧ fs.Regular op)
      [([97], [1, 2, 3])]
      [.iget rootino, .create 0 [100] .dir 0 0, .create 0 [100, 47, 98] .file 0 0,
        .link 0 [100, 47, 98] [99], .link 0 [97] [99], .unlink 0 [100], .unlink 0 [100, 47, 98]]
      (fun fs => decide ((fs.inode rootino).nlink = 2 ∧ fs.names rootino = 2)) (by decide +kernel)
  exact ⟨start, finish, hmkfs, hreaches, of_decide_eq_true htest,
    links_exact (by decide) (by decide) hmkfs hreaches⟩

/-- The root has its own `..` for a link: without it no entry names the root, whose count
is 1. -/
theorem root_named_by_itself : ∃ start finish, mkfs [] = .ok start ∧
    Reaches machine (fun fs op => fs.Enabled op ∧ fs.Inside op ∧ fs.Regular op) start finish ∧
    (finish.inode rootino).type = .dir ∧ (finish.inode rootino).nlink = 1 ∧
    finish.live.countP (fun x => (finish.dirent x.1 x.2).inum = rootino ∧
      namecmp (finish.dirent x.1 x.2).name dot = false ∧
      ¬ (x.1 = rootino ∧ namecmp (finish.dirent x.1 x.2).name dotdot = true)) = 0 := by
  obtain ⟨start, finish, hmkfs, hreaches, htest⟩ :=
    exists_run_from_mkfs (fun fs op => fs.Enabled op ∧ fs.Inside op ∧ fs.Regular op) []
      [.iget rootino, .create 0 [98] .file 0 0]
      (fun fs => decide ((fs.inode rootino).type = .dir ∧ (fs.inode rootino).nlink = 1 ∧
        fs.live.countP (fun x => (fs.dirent x.1 x.2).inum = rootino ∧
          namecmp (fs.dirent x.1 x.2).name dot = false ∧
          ¬ (x.1 = rootino ∧ namecmp (fs.dirent x.1 x.2).name dotdot = true)) = 0))
      (by decide +kernel)
  exact ⟨start, finish, hmkfs, hreaches, of_decide_eq_true htest⟩

end Fs

end Xv6

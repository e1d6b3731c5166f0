import Xv6.Fs.Entries
import Xv6.Lib.LinkGraph

/-! The directory tree as a graph with link counts. The entries `.` are left out, and so are
all entries of a directory that has been removed and is still in use. -/
namespace Xv6

open Word BlockTree Fallible LinkGraph

namespace Fs

variable {fs fs' fs'' : Fs} {ip dp : Iref} {d e inum : Nat} {due : Nat → Int}
  {held : List Iref}

def IsDir (fs : Fs) (d : Nat) : Prop := d < inodeArea ∧ (fs.dinode d).type = .dir

def Attached (fs : Fs) (d : Nat) : Prop := fs.IsDir d ∧ (fs.dinode d).nlink ≠ 0

instance (fs : Fs) (d : Nat) : Decidable (fs.IsDir d) := inferInstanceAs (Decidable (_ ∧ _))

instance (fs : Fs) (d : Nat) : Decidable (fs.Attached d) := inferInstanceAs (Decidable (_ ∧ _))

def Uses (fs : Fs) (d e : Nat) : Prop :=
  direntSize * e + direntSize ≤ (fs.dinode d).size ∧ (fs.dirent d e).inum ≠ 0

instance (fs : Fs) (d e : Nat) : Decidable (fs.Uses d e) := inferInstanceAs (Decidable (_ ∧ _))

/-- `.` is the first entry of a directory and `..` the second. -/
def graph (fs : Fs) : LinkGraph Nat where
  links inum := if Allocated fs.dinode inum then (fs.dinode inum).nlink else 0
  entry x := if fs.Attached x.1 ∧ 2 ≤ x.2 ∧ fs.Uses x.1 x.2 then some (fs.dirent x.1 x.2).inum
    else none
  parent d := if fs.Attached d then some (fs.dirent d 1).inum else none

/-- A directory starts with `.` and `..`, and has no entries besides once it is removed. -/
structure Proper (fs : Fs) (d : Nat) : Prop where
  dot : fs.Uses d 0 ∧ namecmp (fs.dirent d 0).name dot = true
  dotdot : fs.Uses d 1 ∧ namecmp (fs.dirent d 1).name dotdot = true
  names : ∀ e, 2 ≤ e → fs.Uses d e → namecmp (fs.dirent d e).name Xv6.dot = false ∧
    namecmp (fs.dirent d e).name Xv6.dotdot = false
  removed : (fs.dinode d).nlink = 0 → ∀ e, 2 ≤ e → ¬ fs.Uses d e

/-- Inode 0 is not used, and a count is a `short`. -/
structure Dirs (fs : Fs) : Prop where
  proper : ∀ d, fs.IsDir d → fs.Proper d
  zeroth : (fs.dinode 0).type = .free
  short : ∀ inum, Allocated fs.dinode inum → (fs.dinode inum).nlink ≤ 32767

/-- The count of an inode exceeds its links by `due`. -/
structure Linked (fs : Fs) (due : Nat → Int) : Prop where
  counted : fs.graph.Counted due
  shaped : fs.graph.Shaped rootino
  dirs : fs.Dirs

theorem IsDir.allocated (h : fs.IsDir d) : Allocated fs.dinode d :=
  ⟨h.1, by rw [h.2]; decide⟩

theorem parent_ne_none : fs.graph.parent d ≠ none ↔ fs.Attached d := by
  simp only [graph]
  split
  · rename_i h
    exact iff_of_true (Option.some_ne_none _) h
  · rename_i h
    exact iff_of_false (fun hne => hne rfl) h

theorem parent_of_attached (h : fs.Attached d) : fs.graph.parent d = some (fs.dirent d 1).inum :=
  if_pos h

theorem entry_of_uses (h : fs.Attached d) (he : 2 ≤ e) (huses : fs.Uses d e) :
    fs.graph.entry (d, e) = some (fs.dirent d e).inum := if_pos ⟨h, he, huses⟩

theorem entry_eq_none (h : ¬ fs.Uses d e) : fs.graph.entry (d, e) = none :=
  if_neg fun hall => h hall.2.2

theorem uses_of_entry {x : Nat × Nat} (h : fs.graph.entry x = some inum) :
    fs.Attached x.1 ∧ 2 ≤ x.2 ∧ fs.Uses x.1 x.2 ∧ (fs.dirent x.1 x.2).inum = inum := by
  simp only [graph] at h
  split at h
  · rename_i hall
    exact ⟨hall.1, hall.2.1, hall.2.2, Option.some.inj h⟩
  · cases h

theorem links_of_allocated (h : Allocated fs.dinode inum) :
    fs.graph.links inum = (fs.dinode inum).nlink := if_pos h

theorem links_of_free (h : (fs.dinode inum).type = .free) : fs.graph.links inum = 0 :=
  if_neg fun halloc => halloc.2 h

structure SameNode (fs fs' : Fs) (d : Nat) : Prop where
  links : fs'.graph.links d = fs.graph.links d
  entry : ∀ e, fs'.graph.entry (d, e) = fs.graph.entry (d, e)
  parent : fs'.graph.parent d = fs.graph.parent d

theorem graph_eq {g : LinkGraph Nat} (hlinks : ∀ inum, fs'.graph.links inum = g.links inum)
    (hentry : ∀ d e, fs'.graph.entry (d, e) = g.entry (d, e))
    (hparent : ∀ d, fs'.graph.parent d = g.parent d) : fs'.graph = g := by
  have hentries : fs'.graph.entry = g.entry := funext fun x => hentry x.1 x.2
  have hlinks' : fs'.graph.links = g.links := funext hlinks
  have hparents : fs'.graph.parent = g.parent := funext hparent
  cases g
  cases hg : fs'.graph
  simp_all

theorem SameFile.uses (h : SameFile fs fs' d) (e : Nat) : fs'.Uses d e ↔ fs.Uses d e := by
  unfold Uses
  rw [h.dinode]
  refine and_congr_right fun hin => ?_
  rw [h.dirent hin]

theorem SameFile.proper (h : SameFile fs fs' d) (hproper : fs.Proper d) : fs'.Proper d := by
  have hname : ∀ e, fs.Uses d e → fs'.dirent d e = fs.dirent d e := fun e huses => h.dirent huses.1
  refine ⟨⟨(h.uses 0).mpr hproper.dot.1, ?_⟩, ⟨(h.uses 1).mpr hproper.dotdot.1, ?_⟩,
    fun e he huses => ?_, fun hremoved e he huses => ?_⟩
  · rw [hname 0 hproper.dot.1]
    exact hproper.dot.2
  · rw [hname 1 hproper.dotdot.1]
    exact hproper.dotdot.2
  · rw [h.uses] at huses
    rw [hname e huses]
    exact hproper.names e he huses
  · rw [h.uses] at huses
    rw [h.dinode] at hremoved
    exact hproper.removed hremoved e he huses

theorem SameFile.isDir (h : SameFile fs fs' d) : fs'.IsDir d ↔ fs.IsDir d := by
  rw [IsDir, IsDir, h.dinode]

theorem SameFile.attached (h : SameFile fs fs' d) : fs'.Attached d ↔ fs.Attached d := by
  rw [Attached, Attached, h.isDir, h.dinode]

theorem SameFile.node (h : SameFile fs fs' d) (hproper : fs.IsDir d → fs.Proper d) :
    SameNode fs fs' d where
  links := if_congr (allocated_congr h.dinode) (by rw [h.dinode]) rfl
  entry := by
    intro e
    by_cases hall : fs.Attached d ∧ 2 ≤ e ∧ fs.Uses d e
    · rw [entry_of_uses hall.1 hall.2.1 hall.2.2, entry_of_uses (h.attached.mpr hall.1) hall.2.1
        ((h.uses e).mpr hall.2.2), h.dirent hall.2.2.1]
    · have hall' : ¬ (fs'.Attached d ∧ 2 ≤ e ∧ fs'.Uses d e) := by
        rw [h.attached, h.uses]
        exact hall
      exact (if_neg hall').trans (if_neg hall).symm
  parent := by
    by_cases hattached : fs.Attached d
    · rw [parent_of_attached hattached, parent_of_attached (h.attached.mpr hattached),
        h.dirent (hproper hattached.1).dotdot.1.1]
    · exact (if_neg (h.attached.not.mpr hattached)).trans (if_neg hattached).symm

theorem Passes.graph (h : Passes fs fs' held) (hdirs : fs.Dirs) :
    fs'.graph = fs.graph ∧ fs'.Dirs := by
  have hnode : ∀ d, SameNode fs fs' d ∧ (fs'.IsDir d → fs'.Proper d) := by
    intro d
    rcases h.files d with ⟨hdinode, hbyte⟩ | ⟨halloc, hnlink, hfree⟩
    · have hsame : SameFile fs fs' d := ⟨hdinode, fun i _ => by rw [hbyte]⟩
      exact ⟨hsame.node (hdirs.proper d),
        fun hdir => hsame.proper (hdirs.proper d (hsame.isDir.mp hdir))⟩
    · have hnot : ¬ fs.Attached d := fun hattached => hattached.2 hnlink
      have hnot' : ¬ fs'.IsDir d := fun hdir => by
        rw [hdir.2] at hfree
        cases hfree
      refine ⟨⟨?_, fun e => ?_, ?_⟩, fun hdir => absurd hdir hnot'⟩
      · rw [links_of_free hfree, links_of_allocated halloc, hnlink]
      · exact (if_neg fun hall => hnot' hall.1.1).trans (if_neg fun hall => hnot hall.1).symm
      · exact (if_neg fun hall => hnot' hall.1).trans (if_neg hnot).symm
  refine ⟨graph_eq (fun d => (hnode d).1.links) (fun d => (hnode d).1.entry)
    fun d => (hnode d).1.parent, fun d => (hnode d).2, ?_, fun inum halloc => ?_⟩
  · rcases h.files 0 with ⟨hdinode, -⟩ | ⟨-, -, hfree⟩
    · rw [hdinode]
      exact hdirs.zeroth
    · exact hfree
  · rcases h.files inum with ⟨hdinode, -⟩ | ⟨-, -, hfree⟩
    · rw [allocated_congr hdinode] at halloc
      rw [hdinode]
      exact hdirs.short inum halloc
    · exact absurd hfree halloc.2

theorem Passes.linked (h : Passes fs fs' held) (hlinked : fs.Linked due) : fs'.Linked due := by
  obtain ⟨hgraph, hdirs⟩ := h.graph hlinked.dirs
  exact ⟨hgraph ▸ hlinked.counted, hgraph ▸ hlinked.shaped, hdirs⟩

structure Recounts (fs fs' : Fs) (n : Nat) (v : Int) : Prop where
  dinode : fs'.dinode n = { fs.dinode n with nlink := v }
  dirent : ∀ e, direntSize * e + direntSize ≤ (fs.dinode n).size →
    fs'.dirent n e = fs.dirent n e

structure Relinks (fs fs' : Fs) (n : Nat) (v : Int) : Prop extends Recounts fs fs' n v where
  others : ∀ inum, inum ≠ n → SameFile fs fs' inum

theorem byteOf_store {d : Dinode} (htype : d.type = (fs.dinode inum).type)
    (haddrs : d.addrs = (fs.dinode inum).addrs) (hdata : fs'.data = fs.data)
    (hdinode : fs'.dinode = Function.update fs.dinode inum d) : fs'.byteOf = fs.byteOf := by
  have hvolume : fs'.volume = fs.volume := by
    rw [volume, volume, hdata]
    apply volume_congr
    · intro i
      rw [hdinode]
      by_cases hi : i = inum
      · rw [hi, Function.update_self, htype]
      · rw [Function.update_of_ne hi]
    · intro i
      rw [hdinode]
      by_cases hi : i = inum
      · rw [hi, Function.update_self, haddrs]
      · rw [Function.update_of_ne hi]
  funext inum i
  unfold byteOf
  rw [hvolume, hdata]

theorem relinks_of_store {d : Dinode} (h : fs.Calm) (hloaded : fs.Loaded ip)
    (hd : d = { fs.din ip with nlink := d.nlink }) :
    Relinks fs ((fs.setDin ip d).iupdate ip) (fs.icache ip).inum d.nlink ∧
      SameEntry fs ((fs.setDin ip d).iupdate ip) ip := by
  obtain ⟨-, hdata, -, hdinode⟩ := store_same fs ip d
  have hsynced := (h.loaded ip hloaded).2
  have hbyte : ((fs.setDin ip d).iupdate ip).byteOf = fs.byteOf :=
    byteOf_store (by rw [hd, ← hsynced]) (by rw [hd, ← hsynced]) hdata hdinode
  refine ⟨⟨⟨?_, fun e _ => ?_⟩, fun inum hne => ⟨?_, fun i _ => by rw [hbyte]⟩⟩,
    store_sameEntry fs ip d⟩
  · rw [hdinode, Function.update_self, ← hsynced, ← hd]
  · unfold Fs.dirent
    rw [hbyte]
  · rw [hdinode, Function.update_of_ne hne]

theorem Calm.addLink_relinks (h : fs.Calm) (hloaded : fs.Loaded ip) (delta : Int) :
    Relinks fs (fs.addLink ip delta) (fs.icache ip).inum (i16 (fs.nlink ip + delta)) ∧
      SameEntry fs (fs.addLink ip delta) ip :=
  relinks_of_store h hloaded rfl

section Recounts

variable {n : Nat} {v : Int} (h : Recounts fs fs' n v)
include h

theorem Recounts.isDir : fs'.IsDir n ↔ fs.IsDir n := by
  rw [IsDir, IsDir, h.dinode]

theorem Recounts.allocated : Allocated fs'.dinode n ↔ Allocated fs.dinode n := by
  rw [Allocated, Allocated, h.dinode]

theorem Recounts.uses (e : Nat) : fs'.Uses n e ↔ fs.Uses n e := by
  rw [Uses, Uses, h.dinode]
  refine and_congr_right fun hin => ?_
  rw [h.dirent e hin]

theorem Recounts.proper (hproper : fs.Proper n)
    (hremoved : v = 0 → ∀ e, 2 ≤ e → ¬ fs.Uses n e) : fs'.Proper n where
  dot := by
    rw [h.uses, h.dirent 0 hproper.dot.1.1]
    exact hproper.dot
  dotdot := by
    rw [h.uses, h.dirent 1 hproper.dotdot.1.1]
    exact hproper.dotdot
  names := by
    intro e he huses
    rw [h.uses] at huses
    rw [h.dirent e huses.1]
    exact hproper.names e he huses
  removed := by
    intro hzero e he huses
    rw [h.dinode] at hzero
    rw [h.uses] at huses
    exact hremoved hzero e he huses

theorem Recounts.entry (hattached : fs'.Attached n ↔ fs.Attached n) (e : Nat) :
    fs'.graph.entry (n, e) = fs.graph.entry (n, e) := by
  by_cases hall : fs.Attached n ∧ 2 ≤ e ∧ fs.Uses n e
  · rw [entry_of_uses hall.1 hall.2.1 hall.2.2, entry_of_uses (hattached.mpr hall.1) hall.2.1
      ((h.uses e).mpr hall.2.2), h.dirent e hall.2.2.1]
  · have hall' : ¬ (fs'.Attached n ∧ 2 ≤ e ∧ fs'.Uses n e) := by
      rw [hattached, h.uses]
      exact hall
    exact (if_neg hall').trans (if_neg hall).symm

theorem Recounts.parent (hproper : fs.Proper n) (hattached : fs'.Attached n ↔ fs.Attached n) :
    fs'.graph.parent n = fs.graph.parent n := by
  by_cases hn : fs.Attached n
  · rw [parent_of_attached hn, parent_of_attached (hattached.mpr hn),
      h.dirent 1 hproper.dotdot.1.1]
  · exact (if_neg (hattached.not.mpr hn)).trans (if_neg hn).symm

theorem Recounts.attached (hold : (fs.dinode n).nlink ≠ 0) (hnew : v ≠ 0) :
    fs'.Attached n ↔ fs.Attached n := by
  rw [Attached, Attached, h.isDir, h.dinode]
  exact and_congr_right fun _ => iff_of_true hnew hold

end Recounts

section Relinks

variable {n : Nat} {v : Int} (h : Relinks fs fs' n v)
include h

theorem Relinks.isDir (d : Nat) : fs'.IsDir d ↔ fs.IsDir d := by
  by_cases hd : d = n
  · rw [hd, h.toRecounts.isDir]
  · exact (h.others d hd).isDir

theorem Relinks.allocated (inum : Nat) :
    Allocated fs'.dinode inum ↔ Allocated fs.dinode inum := by
  by_cases hd : inum = n
  · rw [hd, h.toRecounts.allocated]
  · exact allocated_congr (h.others inum hd).dinode

theorem Relinks.links (halloc : Allocated fs.dinode n) (inum : Nat) :
    fs'.graph.links inum = if inum = n then v else fs.graph.links inum := by
  by_cases hd : inum = n
  · rw [if_pos hd, hd, links_of_allocated ((h.allocated n).mpr halloc), h.dinode]
  · rw [if_neg hd]
    exact if_congr (h.allocated inum) (by rw [(h.others inum hd).dinode]) rfl

theorem Relinks.dirs (hdirs : fs.Dirs) (hv : v ≤ 32767)
    (hremoved : fs.IsDir n → v = 0 → ∀ e, 2 ≤ e → ¬ fs.Uses n e) : fs'.Dirs := by
  have htype : ∀ inum, (fs'.dinode inum).type = (fs.dinode inum).type := by
    intro inum
    by_cases heq : inum = n
    · rw [heq, h.dinode]
    · rw [(h.others inum heq).dinode]
  refine ⟨fun d hd => ?_, (htype 0).trans hdirs.zeroth, fun inum halloc => ?_⟩
  · rw [h.isDir] at hd
    by_cases heq : d = n
    · subst heq
      exact h.proper (hdirs.proper d hd) (hremoved hd)
    · exact (h.others d heq).proper (hdirs.proper d hd)
  · rw [h.allocated] at halloc
    by_cases heq : inum = n
    · rw [heq, h.dinode]
      exact hv
    · rw [(h.others inum heq).dinode]
      exact hdirs.short inum halloc

theorem Relinks.graph (hdirs : fs.Dirs) (halloc : Allocated fs.dinode n)
    (hdir : fs.IsDir n → (fs.dinode n).nlink ≠ 0 ∧ v ≠ 0) :
    fs'.graph = fs.graph.relink n (v - (fs.dinode n).nlink) := by
  have hattached : fs'.Attached n ↔ fs.Attached n := by
    by_cases hisdir : fs.IsDir n
    · exact h.toRecounts.attached (hdir hisdir).1 (hdir hisdir).2
    · exact iff_of_false (fun hn => hisdir ((h.isDir n).mp hn.1)) fun hn => hisdir hn.1
  apply graph_eq
  · intro inum
    rw [h.links halloc, relink_apply, links_of_allocated halloc]
    split
    · omega
    · rfl
  · intro d e
    change _ = fs.graph.entry (d, e)
    by_cases hd : d = n
    · rw [hd, h.toRecounts.entry hattached]
    · exact ((h.others d hd).node (hdirs.proper d)).entry e
  · intro d
    change _ = fs.graph.parent d
    by_cases hd : d = n
    · subst hd
      by_cases hn : fs.Attached d
      · exact h.toRecounts.parent (hdirs.proper d hn.1) hattached
      · exact (if_neg (hattached.not.mpr hn)).trans (if_neg hn).symm
    · exact ((h.others d hd).node (hdirs.proper d)).parent

theorem Relinks.linked (hlinked : fs.Linked due) (halloc : Allocated fs.dinode n)
    (hv : v ≤ 32767)
    (hdir : fs.IsDir n → (fs.dinode n).nlink ≠ 0 ∧ v ≠ 0) :
    fs'.Linked fun m => due m + if n = m then v - (fs.dinode n).nlink else 0 := by
  have hgraph := h.graph hlinked.dirs halloc hdir
  refine ⟨?_, ?_, h.dirs hlinked.dirs hv fun hisdir hzero => absurd hzero (hdir hisdir).2⟩
  · rw [hgraph]
    exact hlinked.counted.relink n _
  · rw [hgraph]
    exact hlinked.shaped.relink n _

theorem Relinks.graph_removed (hdirs : fs.Dirs) (hattached : fs.Attached n) (hv : v = 0)
    (hempty : ∀ e, 2 ≤ e → ¬ fs.Uses n e) :
    fs'.graph = (fs.graph.relink n (-(fs.dinode n).nlink)).setParent n none := by
  have hnot : ¬ fs'.Attached n := fun hd => hd.2 (by rw [h.dinode]; exact hv)
  have halloc := hattached.1.allocated
  apply graph_eq
  · intro inum
    change _ = (fs.graph.relink n _).links inum
    rw [h.links halloc, relink_apply, links_of_allocated halloc, hv]
    split
    · omega
    · rfl
  · intro d e
    change _ = fs.graph.entry (d, e)
    by_cases hd : d = n
    · subst hd
      refine (if_neg fun hall => hnot hall.1).trans (if_neg fun hall => ?_).symm
      exact hempty e hall.2.1 hall.2.2
    · exact ((h.others d hd).node (hdirs.proper d)).entry e
  · intro d
    rw [setParent_apply]
    split
    · rename_i hd
      rw [hd]
      exact if_neg hnot
    · rename_i hd
      exact ((h.others d hd).node (hdirs.proper d)).parent

end Relinks

section Alters

variable {n : Nat} (h : Alters fs fs' n)
include h

theorem Alters.isDir (d : Nat) : fs'.IsDir d ↔ fs.IsDir d := by
  by_cases hd : d = n
  · rw [IsDir, IsDir, hd, h.type]
  · exact (h.others d hd).isDir

theorem Alters.attached (d : Nat) : fs'.Attached d ↔ fs.Attached d := by
  by_cases hd : d = n
  · rw [Attached, Attached, h.isDir, hd, h.nlink]
  · exact (h.others d hd).attached

theorem Alters.allocated (inum : Nat) : Allocated fs'.dinode inum ↔ Allocated fs.dinode inum := by
  by_cases hd : inum = n
  · rw [Allocated, Allocated, hd, h.type]
  · exact allocated_congr (h.others inum hd).dinode

theorem Alters.fields (inum : Nat) : (fs'.dinode inum).type = (fs.dinode inum).type ∧
    (fs'.dinode inum).nlink = (fs.dinode inum).nlink := by
  by_cases hd : inum = n
  · rw [hd]
    exact ⟨h.type, h.nlink⟩
  · rw [(h.others inum hd).dinode]
    exact ⟨rfl, rfl⟩

theorem Alters.links (inum : Nat) : fs'.graph.links inum = fs.graph.links inum :=
  if_congr (h.allocated inum) (h.fields inum).2 rfl

theorem Alters.dirs (hdirs : fs.Dirs) (hproper : fs.IsDir n → fs'.Proper n) : fs'.Dirs := by
  refine ⟨fun d hd => ?_, (h.fields 0).1.trans hdirs.zeroth, fun inum halloc => ?_⟩
  · rw [h.isDir] at hd
    by_cases heq : d = n
    · rw [heq]
      exact hproper (heq ▸ hd)
    · exact (h.others d heq).proper (hdirs.proper d hd)
  · rw [(h.fields inum).2]
    exact hdirs.short inum ((h.allocated inum).mp halloc)

theorem Alters.linked (hleaf : ¬ fs.IsDir n) (hlinked : fs.Linked due) : fs'.Linked due := by
  have hleaf' : ¬ fs'.IsDir n := (h.isDir n).not.mpr hleaf
  have hgraph : fs'.graph = fs.graph := by
    apply graph_eq
    · exact h.links
    · intro d e
      by_cases hd : d = n
      · rw [hd]
        exact (if_neg fun hall => hleaf' hall.1.1).trans (if_neg fun hall => hleaf hall.1.1).symm
      · exact ((h.others d hd).node (hlinked.dirs.proper d)).entry e
    · intro d
      by_cases hd : d = n
      · rw [hd]
        exact (if_neg fun hall => hleaf' hall.1).trans (if_neg fun hall => hleaf hall.1).symm
      · exact ((h.others d hd).node (hlinked.dirs.proper d)).parent
  exact ⟨hgraph ▸ hlinked.counted, hgraph ▸ hlinked.shaped,
    h.dirs hlinked.dirs fun hdir => absurd hdir hleaf⟩

end Alters

section Writes

variable {de : Dirent} (h : Writes fs fs' d e de)
  (hroom : direntSize * e + direntSize ≤ (fs.dinode d).size ∨ (fs.dinode d).size = direntSize * e)
include h

theorem Writes.uses_here : fs'.Uses d e ↔ de.inum ≠ 0 := by
  rw [Uses, h.here, h.size]
  exact and_iff_right (le_max_right _ _)

include hroom

theorem Writes.uses_there {k : Nat} (hk : k ≠ e) : fs'.Uses d k ↔ fs.Uses d k := by
  have hin : direntSize * k + direntSize ≤ (fs'.dinode d).size ↔
      direntSize * k + direntSize ≤ (fs.dinode d).size := by
    rw [h.size]
    simp only [direntSize] at *
    omega
  rw [Uses, Uses, hin]
  refine and_congr_right fun hk' => ?_
  rw [h.there k hk hk']

theorem Writes.proper (hproper : fs.Proper d) (he : 2 ≤ e)
    (hname : de.inum ≠ 0 → namecmp de.name dot = false ∧ namecmp de.name dotdot = false)
    (hremoved : (fs.dinode d).nlink = 0 → de.inum = 0) : fs'.Proper d where
  dot := by
    rw [h.uses_there hroom (by omega), h.there 0 (by omega) hproper.dot.1.1]
    exact hproper.dot
  dotdot := by
    rw [h.uses_there hroom (by omega), h.there 1 (by omega) hproper.dotdot.1.1]
    exact hproper.dotdot
  names := by
    intro k hk huses
    by_cases heq : k = e
    · subst heq
      rw [h.uses_here] at huses
      rw [h.here]
      exact hname huses
    · rw [h.uses_there hroom heq] at huses
      rw [h.there k heq huses.1]
      exact hproper.names k hk huses
  removed := by
    intro hzero k hk huses
    rw [h.nlink] at hzero
    by_cases heq : k = e
    · subst heq
      exact h.uses_here.mp huses (hremoved hzero)
    · rw [h.uses_there hroom heq] at huses
      exact hproper.removed hzero k hk huses

theorem Writes.graph (hdirs : fs.Dirs) (hattached : fs.Attached d) (he : 2 ≤ e) :
    fs'.graph = fs.graph.setEntry (d, e) (if de.inum = 0 then none else some de.inum) := by
  apply graph_eq
  · exact h.links
  · intro d' k
    rw [setEntry_apply]
    by_cases hd : d' = d
    · subst hd
      have hattached' := (h.attached d').mpr hattached
      by_cases hk : k = e
      · subst hk
        rw [if_pos rfl]
        by_cases hzero : de.inum = 0
        · rw [if_pos hzero]
          exact entry_eq_none fun huses => h.uses_here.mp huses hzero
        · rw [if_neg hzero, entry_of_uses hattached' he (h.uses_here.mpr hzero), h.here]
      · rw [if_neg fun heq => hk (Prod.mk.inj heq).2]
        by_cases hall : 2 ≤ k ∧ fs.Uses d' k
        · rw [entry_of_uses hattached hall.1 hall.2,
            entry_of_uses hattached' hall.1 ((h.uses_there hroom hk).mpr hall.2),
            h.there k hk hall.2.1]
        · refine (if_neg fun hall' => hall ?_).trans (if_neg fun hall' => hall hall'.2).symm
          exact ⟨hall'.2.1, (h.uses_there hroom hk).mp hall'.2.2⟩
    · rw [if_neg fun heq => hd (Prod.mk.inj heq).1]
      exact ((h.others d' hd).node (hdirs.proper d')).entry k
  · intro d'
    change _ = fs.graph.parent d'
    by_cases hd : d' = d
    · subst hd
      rw [parent_of_attached hattached, parent_of_attached ((h.attached d').mpr hattached),
        h.there 1 (by omega) (hdirs.proper d' hattached.1).dotdot.1.1]
    · exact ((h.others d' hd).node (hdirs.proper d')).parent

theorem Writes.dirs (hdirs : fs.Dirs) (he : 2 ≤ e)
    (hname : de.inum ≠ 0 → namecmp de.name dot = false ∧ namecmp de.name dotdot = false)
    (hremoved : (fs.dinode d).nlink = 0 → de.inum = 0) : fs'.Dirs :=
  h.toAlters.dirs hdirs fun hdir => h.proper hroom (hdirs.proper d hdir) he hname hremoved

theorem Writes.enter (hlinked : fs.Linked due) (hattached : fs.Attached d) (he : 2 ≤ e)
    (hfree : ¬ fs.Uses d e)
    (hname : namecmp de.name dot = false ∧ namecmp de.name dotdot = false) (hinum : de.inum ≠ 0)
    (hleaf : ¬ fs.IsDir de.inum) :
    fs'.Linked fun m => due m - if de.inum = m then 1 else 0 := by
  have hgraph := h.graph hroom hlinked.dirs hattached he
  rw [if_neg hinum] at hgraph
  have hempty : fs.graph.entry (d, e) = none := entry_eq_none hfree
  refine ⟨?_, ?_, h.dirs hroom hlinked.dirs he (fun _ => hname) fun hzero =>
    absurd hzero hattached.2⟩
  · rw [hgraph]
    refine (hlinked.counted.setEntry _ (some de.inum)).congr fun m => ?_
    rw [hempty, if_neg (Option.some_ne_none m).symm]
    simp only [Option.some.injEq]
    omega
  · rw [hgraph]
    exact hlinked.shaped.link (parent_ne_none.mpr hattached) hempty
      (if_neg fun hattached => hleaf hattached.1)

end Writes

end Fs

end Xv6

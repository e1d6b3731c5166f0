import Xv6.Fs.Ownership

/-! Files and directories have all their blocks, in the inode cache and on the disk, so that
reading allocates nothing. -/
namespace Xv6

open BlockTree Transition Fallible

/-- Block `bn` of the file `d`: 0 where it has none, `none` past the reach of the map. -/
def Dinode.blockAt (d : Dinode) (data : Nat → Block) (bn : Nat) : Option Nat :=
  (place bn).map fun p => follow (fun a j => (data a).word j) p.2 (d.addrs p.1)

namespace Fs

variable {fs fs' : Fs} {ip : Iref}

def Filled (fs : Fs) (d : Dinode) : Prop :=
  ∀ bn, bn < (d.size + bsize - 1) / bsize →
    ∃ b, d.blockAt fs.data bn = some b ∧ b ≠ 0 ∧ fs.bitmap b = true

def AllFilled (fs : Fs) : Prop :=
  ∀ inum, inum < inodeArea → ∀ d, d = fs.inode inum ∨ d = fs.dinode inum →
    d.type = .file ∨ d.type = .dir → fs.Filled d

def ReadsOnly (fs : Fs) : Prop :=
  ∀ ip off n, fs.Loaded ip → ∃ a, fs.readi ip off n = .ok (fs, a)

theorem Calm.filled (h : fs.Calm) {inum : Nat} (halloc : Allocated fs.dinode inum) :
    fs.Filled (fs.dinode inum) := by
  intro bn hbn
  have hsize := h.sized inum halloc
  have hbelow : bn * bsize < (fs.dinode inum).size := by
    simp only [bsize] at *
    omega
  have hlt : bn < maxfile := by
    simp only [bsize] at *
    omega
  obtain ⟨p, hplace⟩ := place_of_lt hlt
  have hblock : fs.volume.block (inum, p.1) p.2 =
      follow (fun a j => (fs.data a).word j) p.2 ((fs.dinode inum).addrs p.1) := by
    rw [Forest.block, volume, volumeOf]
    dsimp only
    rw [if_pos halloc]
  refine ⟨fs.volume.block (inum, p.1) p.2, ?_, h.mapped inum halloc bn p hplace hbelow,
    h.owned.sound.marked _ _ (place_in_volume hplace)⟩
  rw [Dinode.blockAt, hplace, hblock]
  rfl

theorem Calm.allFilled (h : fs.Calm) : fs.AllFilled := by
  intro inum harea d hd htype
  have heq : d = fs.dinode inum := by
    rcases hd with rfl | rfl
    · exact h.inode_eq inum
    · rfl
  subst heq
  refine h.filled ⟨harea, ?_⟩
  rcases htype with htype | htype
  · rw [htype]
    decide
  · rw [htype]
    decide

theorem Calm.readsOnly (h : fs.Calm) : fs.ReadsOnly := by
  intro ip off n hloaded
  have hmapped := h.mapped_file hloaded
  obtain ⟨halloc, hsynced⟩ := h.loaded ip hloaded
  have hsize : (fs.din ip).size ≤ maxfile * bsize := by
    rw [hsynced]
    exact h.sized _ halloc
  exact hmapped.readi_ok hsize off n

/-- From an image whose root directory does not end with a full block, no file ever gets a
hole. -/
theorem no_holes {files : List (Name × List UInt8)} {start finish : Fs}
    (hfiles : (files.length + 2) % 32 ≠ 0) (hmkfs : mkfs files = .ok start)
    (hreaches : Reaches machine (fun fs op => fs.Enabled op ∧ fs.Inside op) start finish) :
    finish.AllFilled ∧ finish.ReadsOnly := by
  have hcalm : finish.Calm := hreaches.invariant Calm (calm_mkfs hfiles hmkfs)
    fun _ _ _ _ h hallowed hstep => calm_step h hallowed.1 hallowed.2 hstep
  exact ⟨hcalm.allFilled, hcalm.readsOnly⟩

/-- A file is made and written to, another one is taken away. -/
theorem no_holes_written : ∃ start finish, mkfs [([97], [1, 2, 3])] = .ok start ∧
    Reaches machine (fun fs op => fs.Enabled op ∧ fs.Inside op) start finish ∧
    (finish.inode 3).size = 600 ∧ (finish.inode 2).type = .free ∧
    finish.AllFilled ∧ finish.ReadsOnly := by
  obtain ⟨start, finish, hmkfs, hreaches, htest⟩ := exists_from_mkfs [([97], [1, 2, 3])]
    [.iget rootino, .ilock 0, .create 0 [98] .file 0 0, .writei 1 (List.replicate 600 7) 0,
      .unlink 0 [97]]
    (fun fs => decide ((fs.inode 3).size = 600 ∧ (fs.inode 2).type = .free)) (by decide +kernel)
  obtain ⟨hsize, htype⟩ := of_decide_eq_true htest
  exact ⟨start, finish, hmkfs, hreaches, hsize, htype, no_holes (by decide) hmkfs hreaches⟩

def marksBlock (fs : Fs) (ip : Iref) (off n b : Nat) : Bool :=
  match fs.readi ip off n with
  | .ok (fs', _) => !fs.bitmap b && fs'.bitmap b
  | .error _ => false

theorem not_readsOnly {off n b : Nat} (hloaded : fs.Loaded ip)
    (h : fs.marksBlock ip off n b = true) : ¬ fs.ReadsOnly := by
  intro hreads
  obtain ⟨a, ha⟩ := hreads ip off n hloaded
  rw [marksBlock, ha] at h
  simp at h

/-- With 30 files the root directory has two blocks by its size and one in its map, and a
read behind the first block allocates the second. -/
theorem root_hole : ∃ start finish, mkfs (List.replicate 30 ([97], [])) = .ok start ∧
    Reaches machine (fun fs op => fs.Enabled op ∧ fs.Inside op) start finish ∧
    ¬ finish.AllFilled ∧ ¬ finish.ReadsOnly := by
  obtain ⟨start, finish, hmkfs, hreaches, htest⟩ :=
    exists_from_mkfs (List.replicate 30 ([97], [])) [.iget rootino, .ilock 0]
      (fun fs => decide (((fs.dinode 1).type = .dir ∧ (fs.dinode 1).size = 1024 ∧
        (fs.dinode 1).blockAt fs.data 1 = some 0) ∧ fs.Loaded 0 ∧
          fs.marksBlock 0 512 16 69 = true)) (by decide +kernel)
  obtain ⟨⟨htype, hsize, hblock⟩, hloaded, hmarks⟩ := of_decide_eq_true htest
  refine ⟨start, finish, hmkfs, hreaches, fun hfilled => ?_, not_readsOnly hloaded hmarks⟩
  obtain ⟨b, hb, hne, -⟩ := hfilled 1 (by decide) _ (.inr rfl) (.inr htype) 1
    (by rw [hsize]; decide)
  rw [hblock] at hb
  exact hne (Option.some.inj hb).symm

end Fs

end Xv6

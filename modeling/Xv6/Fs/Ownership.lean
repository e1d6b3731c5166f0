import Xv6.Lib.Transition
import Xv6.Fs.Moves

/-! Which file a block belongs to, along every run of the file system. -/
namespace Xv6

open BlockTree Transition Fallible

namespace Fs

variable {fs fs' : Fs}

/-- Inode `inum` as the kernel sees it: the copy in the cache goes before the disk. -/
def inode (fs : Fs) (inum : Nat) : Dinode :=
  match (List.finRange ninode).find? fun ip =>
      0 < (fs.icache ip).ref && (fs.icache ip).valid && (fs.icache ip).inum == inum with
  | some ip => fs.din ip
  | none => fs.dinode inum

structure Position where
  inum : Nat
  slot : Fin naddrs
  path : List Nat

def Refers (fs : Fs) (b : Nat) (pos : Position) : Prop :=
  b ≠ 0 ∧ pos.inum < inodeArea ∧ (fs.inode pos.inum).type ≠ .free ∧
    pos.path.length ≤ depth pos.slot ∧ (∀ j ∈ pos.path, j < nindirect) ∧
    follow (fun a j => (fs.data a).word j) pos.path ((fs.inode pos.inum).addrs pos.slot) = b

/-- A bit is set for the blocks in front and for the blocks that are at one position, and no
block is at two. -/
def BlocksOwned (fs : Fs) : Prop :=
  (∀ b, fs.bitmap b = true ↔ b < nmeta ∨ ∃! pos, fs.Refers b pos) ∧
  ∀ b pos pos', fs.Refers b pos → fs.Refers b pos' → nmeta ≤ b ∧ pos = pos'

inductive Op where
  | iget (inum : Nat)
  | idup (ip : Iref)
  | ilock (ip : Iref)
  | ialloc (type : FileType)
  | bmap (ip : Iref) (bn : Nat)
  | readi (ip : Iref) (off n : Nat)
  | writei (ip : Iref) (src : List UInt8) (off : Nat)
  | iput (ip : Iref)
  | create (cwd : Iref) (path : Name) (type : FileType) (major minor : Int)
  | link (cwd : Iref) (old new : Name)
  | unlink (cwd : Iref) (path : Name)

/-- What the callers see to: a reference is held, and the inode is locked where the
operation wants it to be. -/
def Enabled (fs : Fs) : Op → Prop
  | .iget _ | .ialloc _ => True
  | .idup ip | .ilock ip | .iput ip => 0 < (fs.icache ip).ref
  | .bmap ip _ | .readi ip _ _ | .writei ip _ _ => fs.Loaded ip
  | .create cwd _ _ _ _ | .link cwd _ _ | .unlink cwd _ => 0 < (fs.icache cwd).ref

instance (fs : Fs) (ip : Iref) : Decidable (fs.Loaded ip) := inferInstanceAs (Decidable (_ ∧ _))

instance (fs : Fs) : (op : Op) → Decidable (fs.Enabled op)
  | .iget _ | .ialloc _ => inferInstanceAs (Decidable True)
  | .idup ip | .ilock ip | .iput ip => inferInstanceAs (Decidable (0 < (fs.icache ip).ref))
  | .bmap ip _ | .readi ip _ _ | .writei ip _ _ => inferInstanceAs (Decidable (fs.Loaded ip))
  | .create cwd _ _ _ _ | .link cwd _ _ | .unlink cwd _ =>
      inferInstanceAs (Decidable (0 < (fs.icache cwd).ref))

def machine : Machine Fs Op Unit Panic := fun fs op =>
  match op with
  | .iget inum => (fs.iget inum).map fun r => (r.1, ())
  | .idup ip => .ok (fs.idup ip, ())
  | .ilock ip => (fs.ilock ip).map fun fs => (fs, ())
  | .ialloc type => (fs.ialloc type).map fun r => (r.1, ())
  | .bmap ip bn => (fs.bmap ip bn).map fun r => (r.1, ())
  | .readi ip off n => (fs.readi ip off n).map fun r => (r.1, ())
  | .writei ip src off => (fs.writei ip src off).map fun r => (r.1, ())
  | .iput ip => (fs.iput ip).map fun fs => (fs, ())
  | .create cwd path type major minor =>
      (fs.create cwd path type major minor).map fun r => (r.1, ())
  | .link cwd old new => (fs.link cwd old new).map fun r => (r.1, ())
  | .unlink cwd path => (fs.unlink cwd path).map fun r => (r.1, ())

/-- `bmap` itself is asked for a block of the file only. -/
def Inside (fs : Fs) : Op → Prop
  | .bmap ip bn => bn * bsize < (fs.din ip).size
  | _ => True

instance (fs : Fs) : (op : Op) → Decidable (fs.Inside op)
  | .bmap ip bn => inferInstanceAs (Decidable (bn * bsize < (fs.din ip).size))
  | .iget _ | .idup _ | .ilock _ | .ialloc _ | .readi _ _ _ | .writei _ _ _ | .iput _
  | .create _ _ _ _ _ | .link _ _ _ | .unlink _ _ => inferInstanceAs (Decidable True)

theorem Calm.holding_nil (h : fs.Calm) : fs.Holding [] := ⟨h, fun _ => Nat.zero_le _⟩

theorem Calm.holding_cwd {cwd : Iref} (h : fs.Calm) (hcwd : 0 < (fs.icache cwd).ref) :
    fs.Holding [cwd] := by
  refine ⟨h, fun i => ?_⟩
  by_cases hi : i = cwd
  · subst hi
    rw [List.count_singleton_self]
    exact hcwd
  · rw [List.count_singleton, if_neg (by simpa using Ne.symm hi)]
    exact Nat.zero_le _

theorem calm_step {op : Op} {out : Unit} (h : fs.Calm) (henabled : fs.Enabled op)
    (hinside : fs.Inside op) (hstep : machine fs op = .ok (fs', out)) : fs'.Calm := by
  cases op with
  | iget inum =>
    obtain ⟨⟨fs1, ip⟩, hop, heq⟩ := map_eq_ok.mp hstep
    cases heq
    exact (h.holding_nil.iget hop).1.toCalm
  | idup ip =>
    cases Except.ok.inj hstep
    exact (h.holding_nil.idup henabled).1.toCalm
  | ilock ip =>
    obtain ⟨fs1, hop, heq⟩ := map_eq_ok.mp hstep
    cases heq
    exact (h.holding_nil.ilock hop).1.toCalm
  | ialloc type =>
    obtain ⟨⟨fs1, ip⟩, hop, heq⟩ := map_eq_ok.mp hstep
    cases heq
    exact (h.holding_nil.ialloc hop).1.toCalm
  | bmap ip bn =>
    obtain ⟨⟨fs1, a⟩, hop, heq⟩ := map_eq_ok.mp hstep
    cases heq
    obtain ⟨rfl, -⟩ := (h.mapped_file henabled).bmap hinside hop
    exact h
  | readi ip off n =>
    obtain ⟨⟨fs1, a⟩, hop, heq⟩ := map_eq_ok.mp hstep
    cases heq
    obtain rfl := (h.mapped_file henabled).readi hop
    exact h
  | writei ip src off =>
    obtain ⟨⟨fs1, a⟩, hop, heq⟩ := map_eq_ok.mp hstep
    cases heq
    exact h.stores henabled (h.writei henabled hop)
  | iput ip =>
    obtain ⟨fs1, hop, heq⟩ := map_eq_ok.mp hstep
    cases heq
    exact h.iput hop
  | create cwd path type major minor =>
    obtain ⟨⟨fs1, r⟩, hop, heq⟩ := map_eq_ok.mp hstep
    cases heq
    exact (kept_true.create (h.holding_cwd henabled) List.mem_cons_self trivial hop).1.toCalm
  | link cwd old new =>
    obtain ⟨⟨fs1, r⟩, hop, heq⟩ := map_eq_ok.mp hstep
    cases heq
    exact (kept_true.link (h.holding_cwd henabled) List.mem_cons_self trivial hop).1.toCalm
  | unlink cwd path =>
    obtain ⟨⟨fs1, r⟩, hop, heq⟩ := map_eq_ok.mp hstep
    cases heq
    exact (kept_true.unlink (h.holding_cwd henabled) List.mem_cons_self trivial hop).1.toCalm

theorem Kept.step {inv : Fs → Prop} {op : Op} {out : Unit} (hkept : Kept inv) (h : fs.Calm)
    (henabled : fs.Enabled op) (hinside : fs.Inside op)
    (hfile : ∀ ip src off, op = .writei ip src off → (fs.din ip).type ≠ .dir) (hinv : inv fs)
    (hstep : machine fs op = .ok (fs', out)) : inv fs' := by
  cases op with
  | iget inum =>
    obtain ⟨⟨fs1, ip⟩, hop, heq⟩ := map_eq_ok.mp hstep
    cases heq
    exact hkept.passes (h.holding_nil.iget_passes hop).1 hinv
  | idup ip =>
    cases Except.ok.inj hstep
    exact hkept.passes (passes_idup fs ip []) hinv
  | ilock ip =>
    obtain ⟨fs1, hop, heq⟩ := map_eq_ok.mp hstep
    cases heq
    exact hkept.passes (ilock_passes [] hop) hinv
  | ialloc type =>
    obtain ⟨⟨fs1, ip⟩, hop, heq⟩ := map_eq_ok.mp hstep
    cases heq
    exact hkept.ialloc h.holding_nil hinv hop
  | bmap ip bn =>
    obtain ⟨⟨fs1, a⟩, hop, heq⟩ := map_eq_ok.mp hstep
    cases heq
    obtain ⟨rfl, -⟩ := (h.mapped_file henabled).bmap hinside hop
    exact hinv
  | readi ip off n =>
    obtain ⟨⟨fs1, a⟩, hop, heq⟩ := map_eq_ok.mp hstep
    cases heq
    obtain rfl := (h.mapped_file henabled).readi hop
    exact hinv
  | writei ip src off =>
    obtain ⟨⟨fs1, a⟩, hop, heq⟩ := map_eq_ok.mp hstep
    cases heq
    have hsynced := (h.loaded ip henabled).2
    exact hkept.alters (h.writei_alters henabled hop)
      (fun hdir => hfile ip src off rfl (hsynced ▸ hdir.2)) hinv
  | iput ip =>
    obtain ⟨fs1, hop, heq⟩ := map_eq_ok.mp hstep
    cases heq
    exact (hkept.iput (h.holding_cwd henabled) hinv hop).2
  | create cwd path type major minor =>
    obtain ⟨⟨fs1, r⟩, hop, heq⟩ := map_eq_ok.mp hstep
    cases heq
    exact (hkept.create (h.holding_cwd henabled) List.mem_cons_self hinv hop).2
  | link cwd old new =>
    obtain ⟨⟨fs1, r⟩, hop, heq⟩ := map_eq_ok.mp hstep
    cases heq
    exact (hkept.link (h.holding_cwd henabled) List.mem_cons_self hinv hop).2
  | unlink cwd path =>
    obtain ⟨⟨fs1, r⟩, hop, heq⟩ := map_eq_ok.mp hstep
    cases heq
    exact (hkept.unlink (h.holding_cwd henabled) List.mem_cons_self hinv hop).2

theorem Calm.inode_eq (h : fs.Calm) (inum : Nat) : fs.inode inum = fs.dinode inum := by
  unfold inode
  split
  · rename_i ip hfound
    have hthere := List.find?_some hfound
    simp only [Bool.and_eq_true, decide_eq_true_eq, beq_iff_eq] at hthere
    rw [(h.loaded ip hthere.1).2, hthere.2]
  · rfl

theorem Calm.refers_iff (h : fs.Calm) (b : Nat) (pos : Position) : fs.Refers b pos ↔
    b ≠ 0 ∧ fs.volume.Fits (pos.inum, pos.slot) pos.path ∧
      fs.volume.block (pos.inum, pos.slot) pos.path = b := by
  unfold Refers
  rw [h.inode_eq]
  constructor
  · rintro ⟨hb, harea, htype, hlen, hpath, hfollow⟩
    refine ⟨hb, ⟨hlen, hpath⟩, ?_⟩
    rw [Forest.block, volume, volumeOf]
    dsimp only
    rw [if_pos ⟨harea, htype⟩]
    exact hfollow
  · rintro ⟨hb, ⟨hlen, hpath⟩, hblock⟩
    rw [Forest.block, volume, volumeOf] at hblock
    dsimp only at hblock
    split at hblock
    · rename_i halloc
      exact ⟨hb, halloc.1, halloc.2, hlen, hpath, hblock⟩
    · rw [follow_zero] at hblock
      exact absurd hblock.symm hb

theorem Calm.blocksOwned (h : fs.Calm) : fs.BlocksOwned := by
  have hsame : ∀ b pos pos', fs.Refers b pos → fs.Refers b pos' → nmeta ≤ b ∧ pos = pos' := by
    intro b ⟨inum, slot, path⟩ ⟨inum', slot', path'⟩ hpos hpos'
    obtain ⟨hb, hfits, hblock⟩ := (h.refers_iff _ _).mp hpos
    obtain ⟨-, hfits', hblock'⟩ := (h.refers_iff _ _).mp hpos'
    dsimp only at hfits hblock hfits' hblock'
    rw [← hblock] at hb hblock' ⊢
    obtain ⟨heq, rfl⟩ := h.owned.sound.distinct _ _ _ _ hfits hfits' hb hblock'.symm
    cases heq
    exact ⟨h.owned.above _ _ hfits hb, rfl⟩
  refine ⟨fun b => ⟨fun hset => ?_, ?_⟩, hsame⟩
  · rcases h.owned.covered b hset with hlow | ⟨⟨inum, slot⟩, js, hfits, hblock⟩
    · exact .inl hlow
    · by_cases hb : b = 0
      · subst hb
        exact .inl (by decide)
      · have hpos := (h.refers_iff b ⟨inum, slot, js⟩).mpr ⟨hb, hfits, hblock⟩
        exact .inr ⟨_, hpos, fun pos' hpos' => (hsame _ _ _ hpos' hpos).2⟩
  · rintro (hlow | ⟨pos, hpos, -⟩)
    · exact h.owned.reserved b hlow
    · obtain ⟨-, hfits, rfl⟩ := (h.refers_iff b pos).mp hpos
      exact h.owned.sound.marked _ _ hfits

/-- From an image whose root directory does not end with a full block, the bitmap marks
exactly the blocks that have a place. -/
theorem blocks_owned {files : List (Name × List UInt8)} {start finish : Fs}
    (hfiles : (files.length + 2) % 32 ≠ 0) (hmkfs : mkfs files = .ok start)
    (hreaches : Reaches machine (fun fs op => fs.Enabled op ∧ fs.Inside op) start finish) :
    finish.BlocksOwned :=
  (hreaches.invariant Calm (calm_mkfs hfiles hmkfs)
    fun _ _ _ _ h hallowed hstep => calm_step h hallowed.1 hallowed.2 hstep).blocksOwned

theorem exists_run_from_mkfs (allowed : Fs → Op → Prop) [∀ fs op, Decidable (allowed fs op)]
    (files : List (Name × List UInt8)) (ops : List Op) (test : Fs → Bool)
    (h : (match mkfs files with
      | .ok start => (replay machine allowed ops [] start).any (fun r => test r.2)
      | .error _ => false) = true) :
    ∃ start finish, mkfs files = .ok start ∧ Reaches machine allowed start finish ∧
      test finish = true := by
  split at h
  · rename_i start hmkfs
    obtain ⟨finish, hreaches, htest⟩ := exists_reaches machine _ start ops test h
    exact ⟨start, finish, hmkfs, hreaches, htest⟩
  · cases h

theorem exists_from_mkfs (files : List (Name × List UInt8)) (ops : List Op) (test : Fs → Bool)
    (h : (match mkfs files with
      | .ok start => (replay machine (fun fs op => fs.Enabled op ∧ fs.Inside op) ops []
          start).any (fun r => test r.2)
      | .error _ => false) = true) :
    ∃ start finish, mkfs files = .ok start ∧
      Reaches machine (fun fs op => fs.Enabled op ∧ fs.Inside op) start finish ∧
      test finish = true :=
  exists_run_from_mkfs (fun fs op => fs.Enabled op ∧ fs.Inside op) files ops test h

/-- A file is made, written to, given a second name and taken the first one from. -/
theorem blocks_owned_renamed : ∃ start finish, mkfs [([97], [1, 2, 3])] = .ok start ∧
    Reaches machine (fun fs op => fs.Enabled op ∧ fs.Inside op) start finish ∧
    (finish.bitmap 71 = true ∧ finish.bitmap 72 = false) ∧ finish.BlocksOwned := by
  obtain ⟨start, finish, hmkfs, hreaches, htest⟩ := exists_from_mkfs [([97], [1, 2, 3])]
    [.iget rootino, .ilock 0, .create 0 [98] .file 0 0, .writei 1 (List.replicate 600 7) 0,
      .link 0 [98] [99], .unlink 0 [98], .iput 1]
    (fun fs => decide (fs.bitmap 71 = true ∧ fs.bitmap 72 = false)) (by decide +kernel)
  exact ⟨start, finish, hmkfs, hreaches, of_decide_eq_true htest,
    blocks_owned (by decide) hmkfs hreaches⟩

theorem not_blocksOwned {b : Nat} (hb : nmeta ≤ b) (hset : fs.bitmap b = true)
    (hrefs : ∀ ip, (fs.icache ip).ref = 0)
    (hnone : ∀ inum, inum < inodeArea → ∀ slot, (fs.dinode inum).addrs slot = 0 ∨
      depth slot = 0 ∧ (fs.dinode inum).addrs slot ≠ b) : ¬ fs.BlocksOwned := by
  intro howned
  have hinode : ∀ inum, fs.inode inum = fs.dinode inum := by
    intro inum
    unfold inode
    rw [List.find?_eq_none.mpr fun ip _ => by simp [hrefs ip]]
  rcases (howned.1 b).mp hset with hlow | ⟨pos, ⟨hne, harea, -, hlen, -, hfollow⟩, -⟩
  · omega
  · rw [hinode] at hfollow
    rcases hnone pos.inum harea pos.slot with hzero | ⟨hdepth, haddr⟩
    · rw [hzero, follow_zero] at hfollow
      exact hne hfollow.symm
    · have hnil : pos.path = [] := List.eq_nil_of_length_eq_zero (by omega)
      rw [hnil] at hfollow
      exact haddr hfollow

/-- With 30 files the root directory has a hole of one block. Reading there allocates a
block in the cached inode only, and the block is lost with the last reference. -/
theorem block_leaked : ∃ start finish, mkfs (List.replicate 30 ([97], [])) = .ok start ∧
    Reaches machine (fun fs op => fs.Enabled op ∧ fs.Inside op) start finish ∧
    ¬ finish.BlocksOwned := by
  obtain ⟨start, finish, hmkfs, hreaches, htest⟩ :=
    exists_from_mkfs (List.replicate 30 ([97], []))
      [.iget rootino, .ilock 0, .readi 0 512 16, .iput 0]
      (fun fs => decide (fs.bitmap 69 = true ∧ (∀ ip, (fs.icache ip).ref = 0) ∧
        ∀ inum, inum < inodeArea → ∀ slot, (fs.dinode inum).addrs slot = 0 ∨
          depth slot = 0 ∧ (fs.dinode inum).addrs slot ≠ 69)) (by decide +kernel)
  obtain ⟨hset, hrefs, hnone⟩ := of_decide_eq_true htest
  exact ⟨start, finish, hmkfs, hreaches, not_blocksOwned (by decide) hset hrefs hnone⟩

end Fs

end Xv6

import Xv6.Fs.Full

/-! The blocks of all files together, and what the inode cache and the disk agree on
between two operations: a loaded inode is the one on the disk, no file has a hole below
its size, and the bitmap marks the blocks in front and the blocks of the files. -/
namespace Xv6

open BlockTree Fallible

def Allocated (dinode : Nat → Dinode) (inum : Nat) : Prop :=
  inum < inodeArea ∧ (dinode inum).type ≠ .free

instance (dinode : Nat → Dinode) (inum : Nat) : Decidable (Allocated dinode inum) :=
  inferInstanceAs (Decidable (_ ∧ _))

def volumeOf (dinode : Nat → Dinode) (data : Nat → Block) : Forest (Nat × Fin naddrs) where
  width := nindirect
  height p := depth p.2
  root p := if Allocated dinode p.1 then (dinode p.1).addrs p.2 else 0
  entry a j := (data a).word j

section

variable {dinode dinode' : Nat → Dinode} {data data' : Nat → Block} {inum : Nat}

theorem allocated_congr (h : dinode' inum = dinode inum) :
    Allocated dinode' inum ↔ Allocated dinode inum := by
  rw [Allocated, Allocated, h]

theorem root_congr (h : dinode' inum = dinode inum) (slot : Fin naddrs) :
    (volumeOf dinode' data').root (inum, slot) = (volumeOf dinode data).root (inum, slot) :=
  if_congr (allocated_congr h) (by rw [h]) rfl

theorem volume_congr (htype : ∀ inum, (dinode' inum).type = (dinode inum).type)
    (haddrs : ∀ inum, (dinode' inum).addrs = (dinode inum).addrs) :
    volumeOf dinode' data = volumeOf dinode data := by
  unfold volumeOf
  congr 1
  funext p
  rw [haddrs]
  exact if_congr (by rw [Allocated, Allocated, htype]) rfl rfl

theorem volume_fresh {d : Dinode} (hfree : (dinode inum).type = .free)
    (haddrs : ∀ slot, d.addrs slot = 0) :
    volumeOf (Function.update dinode inum d) data = volumeOf dinode data := by
  unfold volumeOf
  congr 1
  funext ⟨inum', slot⟩
  by_cases heq : inum' = inum
  · subst heq
    dsimp only
    rw [Function.update_self, haddrs, ite_self, if_neg fun halloc => halloc.2 hfree]
  · have hsame : Function.update dinode inum d inum' = dinode inum' := Function.update_of_ne heq ..
    exact if_congr (allocated_congr hsame) (by rw [hsame]) rfl

theorem place_in_volume {bn : Nat} {p : Fin naddrs × List Nat} (h : place bn = some p) :
    (volumeOf dinode data).Fits (inum, p.1) p.2 :=
  ⟨(place_spec h).1.le, (place_spec h).2.1⟩

end

def MappedTo (dinode : Nat → Dinode) (data : Nat → Block) (inum n : Nat) : Prop :=
  ∀ bn p, place bn = some p → bn * bsize < n →
    (volumeOf dinode data).block (inum, p.1) p.2 ≠ 0

theorem MappedTo.extends {dinode dinode' : Nat → Dinode} {data data' : Nat → Block}
    {inum n : Nat} {used used' : Nat → Prop} (h : MappedTo dinode data inum n)
    (hextends : (volumeOf dinode data).Extends (volumeOf dinode' data') used used') :
    MappedTo dinode' data' inum n := by
  intro bn p hplace hbn
  have hne := h bn p hplace hbn
  rw [hextends.keeps _ _ (place_in_volume hplace) hne]
  exact hne

def NoHoles (dinode : Nat → Dinode) (data : Nat → Block) : Prop :=
  ∀ inum, Allocated dinode inum → MappedTo dinode data inum (dinode inum).size

theorem NoHoles.fresh {dinode : Nat → Dinode} {data : Nat → Block} {inum : Nat} {d : Dinode}
    (h : NoHoles dinode data) (hfree : (dinode inum).type = .free)
    (haddrs : ∀ slot, d.addrs slot = 0) (hsize : d.size = 0) :
    NoHoles (Function.update dinode inum d) data := by
  intro inum' halloc bn p hplace hbn
  have hne : inum' ≠ inum := by
    rintro rfl
    rw [Function.update_self, hsize] at hbn
    exact absurd hbn (Nat.not_lt_zero _)
  rw [allocated_congr (Function.update_of_ne hne ..)] at halloc
  rw [Function.update_of_ne hne] at hbn
  rw [volume_fresh hfree haddrs]
  exact h inum' halloc bn p hplace hbn

def Sized (dinode : Nat → Dinode) : Prop :=
  ∀ inum, Allocated dinode inum → (dinode inum).size ≤ maxfile * bsize

theorem Sized.update {dinode : Nat → Dinode} {inum : Nat} {d : Dinode} (h : Sized dinode)
    (hd : d.type ≠ .free → d.size ≤ maxfile * bsize) :
    Sized (Function.update dinode inum d) := by
  intro inum' halloc
  by_cases heq : inum' = inum
  · subst heq
    rw [Allocated, Function.update_self] at halloc
    rw [Function.update_self]
    exact hd halloc.2
  · rw [allocated_congr (Function.update_of_ne heq ..)] at halloc
    rw [Function.update_of_ne heq]
    exact h inum' halloc

namespace Fs

variable {fs fs' : Fs} {ip : Iref}

def volume (fs : Fs) : Forest (Nat × Fin naddrs) := volumeOf fs.dinode fs.data

def Loaded (fs : Fs) (ip : Iref) : Prop := 0 < (fs.icache ip).ref ∧ (fs.icache ip).valid = true

structure Calm (fs : Fs) : Prop where
  unique : ∀ i j, 0 < (fs.icache i).ref → 0 < (fs.icache j).ref →
    (fs.icache i).inum = (fs.icache j).inum → i = j
  loaded : ∀ i, fs.Loaded i → Allocated fs.dinode (fs.icache i).inum ∧
    fs.din i = fs.dinode (fs.icache i).inum
  owned : fs.volume.Owns fs.Used nmeta
  mapped : NoHoles fs.dinode fs.data
  sized : Sized fs.dinode

theorem part_of_synced (halloc : Allocated fs.dinode (fs.icache ip).inum)
    (hsynced : fs.din ip = fs.dinode (fs.icache ip).inum) :
    (fs.tree ip).Part fs.volume fun slot => ((fs.icache ip).inum, slot) where
  injective := fun _ _ h => (Prod.mk.inj h).2
  width := rfl
  height := fun _ => rfl
  root := by
    intro slot
    dsimp only [tree, volume, volumeOf]
    rw [if_pos halloc, hsynced]
  entry := rfl

theorem Calm.part (h : fs.Calm) (hloaded : fs.Loaded ip) :
    (fs.tree ip).Part fs.volume fun slot => ((fs.icache ip).inum, slot) :=
  part_of_synced (h.loaded ip hloaded).1 (h.loaded ip hloaded).2

theorem Calm.sound (h : fs.Calm) (hloaded : fs.Loaded ip) : fs.Sound ip :=
  h.owned.sound.part (h.part hloaded)

theorem Calm.mapped_file (h : fs.Calm) (hloaded : fs.Loaded ip) :
    fs.Mapped ip (fs.din ip).size := by
  obtain ⟨halloc, hsynced⟩ := h.loaded ip hloaded
  intro bn p hplace hbn
  rw [hsynced] at hbn
  rw [(h.part hloaded).block]
  exact h.mapped _ halloc bn p hplace hbn

@[simp] theorem setInode_self (fs : Fs) (ip : Iref) (e : Inode) :
    (fs.setInode ip e).icache ip = e := Function.update_self ..

theorem setInode_of_ne (fs : Fs) {i : Iref} (h : i ≠ ip) (e : Inode) :
    (fs.setInode ip e).icache i = fs.icache i := Function.update_of_ne h ..

theorem Calm.setInode {e : Inode} (h : fs.Calm)
    (hunique : 0 < e.ref → ∀ i, i ≠ ip → 0 < (fs.icache i).ref → (fs.icache i).inum ≠ e.inum)
    (hloaded : 0 < e.ref → e.valid = true →
      Allocated fs.dinode e.inum ∧ e.din = fs.dinode e.inum) : (fs.setInode ip e).Calm where
  unique := by
    intro i j hi hj heq
    by_cases hip : i = ip
    · by_cases hjp : j = ip
      · rw [hip, hjp]
      · subst hip
        rw [setInode_self] at hi heq
        rw [setInode_of_ne fs hjp] at hj heq
        exact absurd heq.symm (hunique hi j hjp hj)
    · by_cases hjp : j = ip
      · subst hjp
        rw [setInode_self] at hj heq
        rw [setInode_of_ne fs hip] at hi heq
        exact absurd heq (hunique hj i hip hi)
      · rw [setInode_of_ne fs hip] at hi heq
        rw [setInode_of_ne fs hjp] at hj heq
        exact h.unique i j hi hj heq
  loaded := by
    intro i hi
    by_cases hip : i = ip
    · subst hip
      rw [Loaded, setInode_self] at hi
      rw [din, setInode_self]
      exact hloaded hi.1 hi.2
    · rw [Loaded, setInode_of_ne fs hip] at hi
      rw [din, setInode_of_ne fs hip]
      exact h.loaded i hi
  owned := h.owned
  mapped := h.mapped
  sized := h.sized

theorem Calm.inum_ne (h : fs.Calm) {i : Iref} (hip : 0 < (fs.icache ip).ref) (hne : i ≠ ip)
    (hi : 0 < (fs.icache i).ref) : (fs.icache i).inum ≠ (fs.icache ip).inum :=
  fun heq => hne (h.unique i ip hi hip heq)

theorem Stores.allocated (h : Stores fs fs' ip) (halloc : Allocated fs.dinode (fs.icache ip).inum)
    (hsynced : fs.din ip = fs.dinode (fs.icache ip).inum) :
    Allocated fs'.dinode (fs'.icache ip).inum := by
  rw [h.entry.inum]
  refine ⟨halloc.1, ?_⟩
  rw [h.stored, Function.update_self, h.type, hsynced]
  exact halloc.2

theorem Stores.synced (h : Stores fs fs' ip) : fs'.din ip = fs'.dinode (fs'.icache ip).inum := by
  rw [h.entry.inum, h.stored, Function.update_self]

theorem Stores.other (h : Stores fs fs' ip) {inum : Nat} (hne : inum ≠ (fs.icache ip).inum) :
    fs'.dinode inum = fs.dinode inum := by
  rw [h.stored, Function.update_of_ne hne]

theorem Calm.stores_extends (h : fs.Calm) (hloaded : fs.Loaded ip) (hstores : Stores fs fs' ip) :
    fs'.volume.Sound fs'.Used ∧ fs.volume.Extends fs'.volume fs.Used fs'.Used := by
  obtain ⟨halloc, hsynced⟩ := h.loaded ip hloaded
  have hpart' : (fs'.tree ip).Part fs'.volume fun slot => ((fs.icache ip).inum, slot) :=
    hstores.entry.inum ▸ part_of_synced (hstores.allocated halloc hsynced) hstores.synced
  refine h.owned.sound.graft (h.part hloaded) hpart' hstores.sound hstores.tree rfl rfl ?_ ?_
  · rintro ⟨inum, slot⟩ hout
    exact root_congr (hstores.other fun heq => hout slot (by rw [← heq])) slot
  · intro a ha hnot
    funext j
    dsimp only [volume, volumeOf]
    rw [hstores.data a ha hnot]

theorem Calm.stores (h : fs.Calm) (hloaded : fs.Loaded ip) (hstores : Stores fs fs' ip) :
    fs'.Calm := by
  obtain ⟨halloc, hsynced⟩ := h.loaded ip hloaded
  have hinum := hstores.entry.inum
  have halloc' := hstores.allocated halloc hsynced
  have hsynced' := hstores.synced
  have hother : ∀ inum, inum ≠ (fs.icache ip).inum → fs'.dinode inum = fs.dinode inum :=
    fun _ hne => hstores.other hne
  have hpart' : (fs'.tree ip).Part fs'.volume fun slot => ((fs.icache ip).inum, slot) :=
    hinum ▸ part_of_synced halloc' hsynced'
  have hgraft := h.stores_extends hloaded hstores
  have hentry : ∀ i, (fs'.icache i).ref = (fs.icache i).ref ∧
      (fs'.icache i).inum = (fs.icache i).inum := by
    intro i
    by_cases hi : i = ip
    · rw [hi]
      exact ⟨hstores.entry.ref, hinum⟩
    · rw [hstores.entry.others i hi]
      exact ⟨rfl, rfl⟩
  refine ⟨fun i j hi hj heq => ?_, fun i hi => ?_,
    h.owned.extends (by decide) hgraft.1 hgraft.2, fun inum hinum' bn p hplace hbn => ?_, ?_⟩
  · rw [(hentry i).1] at hi
    rw [(hentry j).1] at hj
    rw [(hentry i).2, (hentry j).2] at heq
    exact h.unique i j hi hj heq
  · by_cases hip : i = ip
    · subst hip
      exact ⟨halloc', hsynced'⟩
    · rw [Loaded, hstores.entry.others i hip] at hi
      rw [din, hstores.entry.others i hip, Allocated, hother _ (h.inum_ne hloaded.1 hip hi.1)]
      exact h.loaded i hi
  · by_cases heq : inum = (fs.icache ip).inum
    · subst heq
      have hblock := hpart'.block p.1 p.2
      rw [← hinum, ← hsynced'] at hbn
      exact hblock ▸ hstores.mapped bn p hplace hbn
    · rw [Allocated, hother inum heq] at hinum'
      rw [hother inum heq] at hbn
      exact (h.mapped inum hinum').extends hgraft.2 bn p hplace hbn
  · rw [hstores.stored]
    refine h.sized.update fun _ => hstores.sized ?_
    rw [hsynced]
    exact h.sized _ halloc

theorem Calm.writei {off : Nat} {src : List UInt8} {a : Io Nat} (h : fs.Calm)
    (hloaded : fs.Loaded ip) (hok : fs.writei ip src off = .ok (fs', a)) : Stores fs fs' ip :=
  (h.mapped_file hloaded).writei (h.sound hloaded) (h.loaded ip hloaded).2 hok

theorem Calm.store {d : Dinode} (h : fs.Calm) (hloaded : fs.Loaded ip)
    (htype : d.type = (fs.din ip).type) (hsize : d.size = (fs.din ip).size)
    (haddrs : d.addrs = (fs.din ip).addrs) : Stores fs ((fs.setDin ip d).iupdate ip) ip := by
  obtain ⟨-, hdata, -, hdinode⟩ := store_same fs ip d
  obtain ⟨htree, hused⟩ := store_tree haddrs
  have hsound := h.sound hloaded
  refine ⟨?_, ?_, fun a _ _ => by rw [hdata], store_sameEntry _ _ _, ?_, ?_, ?_, ?_⟩
  · rw [Sound, htree, hused]
    exact hsound
  · rw [htree, hused]
    exact hsound.extends_refl
  · rw [store_din, htype]
  · rw [store_din, hdinode]
  · rw [store_din, hsize, Mapped, htree]
    exact h.mapped_file hloaded
  · rw [store_din, hsize]
    exact id

end Fs

end Xv6

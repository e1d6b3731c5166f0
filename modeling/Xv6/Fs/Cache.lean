import Xv6.Fs.Trunc

/-! References to inodes. A caller that holds a reference to a loaded inode can rely on it
while other references come and go. -/
namespace Xv6

open BlockTree Fallible

namespace Fs

variable {fs fs' fs'' : Fs} {ip : Iref} {held held' : List Iref}

structure Holding (fs : Fs) (held : List Iref) : Prop extends Calm fs where
  refs : ∀ i, held.count i ≤ (fs.icache i).ref

def Keeps (fs fs' : Fs) (held : List Iref) : Prop := ∀ i ∈ held, fs.Loaded i → fs'.Loaded i

theorem Keeps.refl (fs : Fs) (held : List Iref) : Keeps fs fs held := fun _ _ hi => hi

theorem Keeps.trans (h : Keeps fs fs' held) (h' : Keeps fs' fs'' held) : Keeps fs fs'' held :=
  fun i hi hloaded => h' i hi (h i hi hloaded)

theorem Keeps.mono (h : Keeps fs fs' held) (hsub : held' ⊆ held) : Keeps fs fs' held' :=
  fun i hi => h i (hsub hi)

theorem Holding.ref_pos (h : fs.Holding held) (hip : ip ∈ held) : 0 < (fs.icache ip).ref :=
  lt_of_lt_of_le (List.count_pos_iff.mpr hip) (h.refs ip)

theorem Holding.perm (h : fs.Holding held) (hperm : held.Perm held') : fs.Holding held' :=
  ⟨h.toCalm, fun i => by rw [← hperm.count_eq]; exact h.refs i⟩

theorem Holding.setInode {e : Inode} (h : fs.Holding held) (hcalm : (fs.setInode ip e).Calm)
    (href : held'.count ip ≤ e.ref) (hothers : ∀ i, i ≠ ip → held'.count i = held.count i) :
    (fs.setInode ip e).Holding held' := by
  refine ⟨hcalm, fun i => ?_⟩
  by_cases hi : i = ip
  · rw [hi, setInode_self]
    exact href
  · rw [setInode_of_ne fs hi, hothers i hi]
    exact h.refs i

theorem keeps_setInode {e : Inode} (held : List Iref)
    (hkeep : fs.Loaded ip → 0 < e.ref ∧ e.valid = true) : Keeps fs (fs.setInode ip e) held := by
  intro i _ hloaded
  by_cases hi : i = ip
  · subst hi
    rw [Loaded, setInode_self]
    exact hkeep hloaded
  · rw [Loaded, setInode_of_ne fs hi]
    exact hloaded

theorem Holding.idup (h : fs.Holding held) (href : 0 < (fs.icache ip).ref) :
    (fs.idup ip).Holding (ip :: held) ∧ Keeps fs (fs.idup ip) held := by
  constructor
  · refine h.setInode (h.toCalm.setInode (fun _ i hi hiref => h.inum_ne href hi hiref)
      fun _ hvalid => h.loaded ip ⟨href, hvalid⟩) ?_ fun i hi => List.count_cons_of_ne hi.symm
    rw [List.count_cons_self]
    have := h.refs ip
    dsimp only
    omega
  · exact keeps_setInode held fun hloaded => ⟨Nat.succ_pos _, hloaded.2⟩

theorem iget_cases {inum : Nat} (hok : fs.iget inum = .ok (fs', ip)) :
    fs' = fs.idup ip ∧ 0 < (fs.icache ip).ref ∨
    fs' = fs.setInode ip { fs.icache ip with inum, ref := 1, valid := false } ∧
      (fs.icache ip).ref = 0 ∧ ∀ i, 0 < (fs.icache i).ref → (fs.icache i).inum ≠ inum := by
  unfold iget at hok
  split at hok
  · rename_i i hfound
    cases Except.ok.inj hok
    have hthere := List.find?_some hfound
    simp only [Bool.and_eq_true, decide_eq_true_eq] at hthere
    exact .inl ⟨rfl, hthere.1⟩
  · rename_i hnone
    split at hok
    · cases hok
    · rename_i i hfound
      cases Except.ok.inj hok
      refine .inr ⟨rfl, by simpa using List.find?_some hfound, fun i hi heq => ?_⟩
      have habsent := List.find?_eq_none.mp hnone i (List.mem_finRange i)
      simp [hi, heq] at habsent

theorem Holding.iget {inum : Nat} (h : fs.Holding held) (hok : fs.iget inum = .ok (fs', ip)) :
    fs'.Holding (ip :: held) ∧ Keeps fs fs' held := by
  rcases iget_cases hok with ⟨rfl, href⟩ | ⟨rfl, hzero, hnone⟩
  · exact h.idup href
  · constructor
    · refine h.setInode (h.toCalm.setInode (fun _ i _ hiref => hnone i hiref) fun _ hvalid => ?_) ?_
        fun i hi => List.count_cons_of_ne hi.symm
      · cases hvalid
      · rw [List.count_cons_self]
        have := h.refs ip
        dsimp only
        omega
    · refine keeps_setInode held fun hloaded => ?_
      have := hloaded.1
      omega

theorem Holding.ilock (h : fs.Holding held) (hok : fs.ilock ip = .ok fs') :
    fs'.Holding held ∧ Keeps fs fs' held ∧ fs'.Loaded ip := by
  unfold Fs.ilock at hok
  dsimp only at hok
  split at hok
  · cases hok
  · rename_i href
    have href : 0 < (fs.icache ip).ref := by omega
    split at hok
    · rename_i hvalid
      cases Except.ok.inj hok
      exact ⟨h, .refl _ _, href, hvalid⟩
    · rename_i hvalid
      split at hok
      · cases hok
      · rename_i harea
        split at hok
        · cases hok
        · rename_i htype
          cases Except.ok.inj hok
          refine ⟨?_, keeps_setInode held fun hloaded => absurd hloaded.2 hvalid, ?_⟩
          · exact h.setInode (h.toCalm.setInode (fun _ i hi hiref => h.inum_ne href hi hiref)
              fun _ _ => ⟨⟨Nat.lt_of_not_le harea, htype⟩, rfl⟩) (h.refs ip) fun _ _ => rfl
          · rw [Loaded, setInode_self]
            exact ⟨href, rfl⟩

theorem Holding.stores (h : fs.Holding held) (hloaded : fs.Loaded ip)
    (hstores : Stores fs fs' ip) : fs'.Holding held ∧ Keeps fs fs' held := by
  have hentry := hstores.entry
  refine ⟨⟨h.toCalm.stores hloaded hstores, fun i => ?_⟩, fun i _ hi => ?_⟩
  · by_cases hip : i = ip
    · rw [hip, hentry.ref]
      exact h.refs ip
    · rw [hentry.others i hip]
      exact h.refs i
  · by_cases hip : i = ip
    · subst hip
      rw [Loaded, hentry.ref, hentry.valid]
      exact hi
    · rw [Loaded, hentry.others i hip]
      exact hi

theorem Holding.iput (h : fs.Holding (ip :: held)) (hok : fs.iput ip = .ok fs') :
    fs'.Holding held ∧ Keeps fs fs' held := by
  obtain ⟨hothers, href, hmore⟩ := iput_icache hok
  refine ⟨⟨h.toCalm.iput hok, fun i => ?_⟩, fun i hi hloaded => ?_⟩
  · have hle := h.refs i
    by_cases hip : i = ip
    · subst hip
      rw [List.count_cons_self] at hle
      rw [href]
      omega
    · rw [List.count_cons_of_ne (Ne.symm hip)] at hle
      rw [hothers i hip]
      exact hle
  · by_cases hip : i = ip
    · -- another reference to the same inode is held
      subst hip
      have hle := h.refs i
      have hpos := List.count_pos_iff.mpr hi
      rw [List.count_cons_self] at hle
      rw [Loaded, hmore (by omega)]
      exact ⟨by dsimp only; omega, hloaded.2⟩
    · rw [Loaded, hothers i hip]
      exact hloaded

theorem firstFree_spec {dinode : Nat → Dinode} {fuel start inum : Nat}
    (h : firstFree dinode fuel start = some inum) : (dinode inum).type = .free := by
  induction fuel generalizing start with
  | zero => cases h
  | succ fuel ih =>
    unfold firstFree at h
    split at h
    · rename_i hfree
      cases h
      exact hfree
    · exact ih h

theorem Calm.ialloc {inum : Nat} {type : FileType} (h : fs.Calm)
    (hfree : (fs.dinode inum).type = .free) (hbitmap : fs'.bitmap = fs.bitmap)
    (hdata : fs'.data = fs.data) (hicache : fs'.icache = fs.icache)
    (hdinode : fs'.dinode = Function.update fs.dinode inum { Dinode.zero with type }) :
    fs'.Calm := by
  have hvolume : fs'.volume = fs.volume := by
    rw [volume, hdinode, hdata]
    exact volume_fresh hfree fun _ => rfl
  have hused : fs'.Used = fs.Used := by
    funext b
    rw [Used, hbitmap]
    rfl
  refine ⟨by rw [hicache]; exact h.unique, fun i hi => ?_, ?_, ?_, ?_⟩
  · rw [Loaded, hicache] at hi
    obtain ⟨halloc, hsynced⟩ := h.loaded i hi
    have hne : (fs.icache i).inum ≠ inum := by
      rintro rfl
      exact halloc.2 hfree
    rw [Allocated, din, hicache, hdinode, Function.update_of_ne hne]
    exact ⟨halloc, hsynced⟩
  · rw [hvolume, hused]
    exact h.owned
  · rw [hdinode, hdata]
    exact h.mapped.fresh hfree (fun _ => rfl) rfl
  · rw [hdinode]
    exact h.sized.update fun _ => Nat.zero_le _

theorem Holding.ialloc {type : FileType} (h : fs.Holding held)
    (hok : fs.ialloc type = .ok (fs', ip)) : fs'.Holding (ip :: held) ∧ Keeps fs fs' held := by
  unfold Fs.ialloc at hok
  split at hok
  · cases hok
  · rename_i inum hfree
    generalize hfs1 : logWrite { fs with
      dinode := Function.update fs.dinode inum { Dinode.zero with type } } (iblock inum) = fs1
      at hok
    have hicache : fs1.icache = fs.icache := by rw [← hfs1, logWrite_icache]
    have hcalm : fs1.Calm := by
      apply h.toCalm.ialloc (firstFree_spec hfree) _ _ hicache
      · rw [← hfs1, logWrite_dinode]
      · rw [← hfs1, logWrite_bitmap]
      · rw [← hfs1, logWrite_data]
    have hholding : fs1.Holding held := ⟨hcalm, by rw [hicache]; exact h.refs⟩
    obtain ⟨hheld, hkeeps⟩ := hholding.iget hok
    refine ⟨hheld, Keeps.trans (fun i _ hi => ?_) hkeeps⟩
    rw [Loaded, hicache]
    exact hi

end Fs

end Xv6

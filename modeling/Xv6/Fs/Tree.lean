import Xv6.Fs.Inode
import Xv6.Lib.BlockTree

/-! The blocks of a file. The slots of `addrs` are the roots of a forest, and `bmap` follows
a path of entries below one of them, adding the blocks that are missing. -/
namespace Xv6

open BlockTree Fallible

def depth (slot : Fin naddrs) : Nat := slot - (ndirect - 1)

/-- The slot and the entries that lead to block `bn` of a file. -/
def place (bn : Nat) : Option (Fin naddrs × List Nat) :=
  if h : bn < ndirect then some (⟨bn, direct_lt h⟩, [])
  else
    let bn := bn - ndirect
    if bn < nindirect then some (10, [bn])
    else
      let bn := bn - nindirect
      if bn < n2indirect then some (11, [bn / nindirect, bn % nindirect])
      else
        let bn := bn - n2indirect
        if bn < n3indirect then
          some (12, [bn / n2indirect, bn % n2indirect / nindirect, bn % n2indirect % nindirect])
        else none

namespace Fs

def tree (fs : Fs) (ip : Iref) : Forest (Fin naddrs) :=
  ⟨nindirect, depth, (fs.din ip).addrs, fun a j => (fs.data a).word j⟩

def Used (fs : Fs) (b : Nat) : Prop := fs.bitmap b = true

/-- No block of the file is used twice, and all of them are marked in the bitmap. -/
def Sound (fs : Fs) (ip : Iref) : Prop := (fs.tree ip).Sound fs.Used

def descend : List Nat → Fs → Nat → Except Panic (Fs × Nat)
  | [], fs, addr => .ok (fs, addr)
  | j :: js, fs, addr => do
      let (fs, addr) ← fs.entryAddr addr j
      descend js fs addr

theorem descend_one (fs : Fs) (addr j : Nat) : descend [j] fs addr = fs.entryAddr addr j := by
  unfold descend descend
  cases fs.entryAddr addr j with
  | error _ => rfl
  | ok _ => rfl

def bmapAt (fs : Fs) (ip : Iref) (p : Fin naddrs × List Nat) : Except Panic (Fs × Nat) := do
  let (fs, addr) ← fs.slotAddr ip p.1
  descend p.2 fs addr

theorem bmap_eq (fs : Fs) (ip : Iref) (bn : Nat) :
    fs.bmap ip bn = (place bn).elim (.error .bmapRange) (fs.bmapAt ip) := by
  have htwo : ∀ (fs : Fs) (addr j k : Nat), descend [j, k] fs addr = (do
      let (fs, addr) ← fs.entryAddr addr j
      fs.entryAddr addr k) := by
    intro fs addr j k
    rw [descend]
    exact congrArg _ (funext fun r => descend_one r.1 r.2 k)
  have hthree : ∀ (fs : Fs) (addr j k l : Nat), descend [j, k, l] fs addr = (do
      let (fs, addr) ← fs.entryAddr addr j
      let (fs, addr) ← fs.entryAddr addr k
      fs.entryAddr addr l) := by
    intro fs addr j k l
    rw [descend]
    exact congrArg _ (funext fun r => htwo r.1 r.2 k l)
  unfold bmap place
  split
  · simp only [Option.elim, bmapAt, descend]
    cases fs.slotAddr ip _ with
    | error _ => rfl
    | ok _ => rfl
  · dsimp only
    split
    · simp only [Option.elim, bmapAt, descend_one]
    · split
      · simp only [Option.elim, bmapAt, htwo]
      · split
        · simp only [Option.elim, bmapAt, hthree]
        · rfl

end Fs

def blockNumber (p : Fin naddrs × List Nat) : Nat :=
  match p.2 with
  | [] => p.1
  | [j] => ndirect + j
  | [j, k] => ndirect + nindirect + (j * nindirect + k)
  | j :: k :: l :: _ => ndirect + nindirect + n2indirect + (j * n2indirect + (k * nindirect + l))

theorem place_spec {bn : Nat} {p : Fin naddrs × List Nat} (h : place bn = some p) :
    p.2.length = depth p.1 ∧ (∀ j ∈ p.2, j < nindirect) ∧ blockNumber p = bn := by
  unfold place at h
  split at h
  · rename_i hbn
    cases h
    refine ⟨?_, by simp, rfl⟩
    have hlow : bn < 10 := hbn
    simp only [depth, List.length_nil]
    omega
  · dsimp only at h
    simp only [ndirect, nindirect, n2indirect, n3indirect] at *
    split at h
    · cases h
      refine ⟨rfl, ?_, ?_⟩
      · simpa using by omega
      · simp only [blockNumber, ndirect]
        omega
    · split at h
      · cases h
        refine ⟨rfl, ?_, ?_⟩
        · simp only [List.mem_cons, List.not_mem_nil, or_false, forall_eq_or_imp, forall_eq]
          omega
        · simp only [blockNumber, ndirect, nindirect]
          omega
      · split at h
        · cases h
          refine ⟨rfl, ?_, ?_⟩
          · simp only [List.mem_cons, List.not_mem_nil, or_false, forall_eq_or_imp, forall_eq]
            omega
          · simp only [blockNumber, ndirect, nindirect, n2indirect]
            omega
        · cases h

theorem place_of_lt {bn : Nat} (h : bn < maxfile) : ∃ p, place bn = some p := by
  unfold place
  split
  · exact ⟨_, rfl⟩
  · dsimp only
    split
    · exact ⟨_, rfl⟩
    · split
      · exact ⟨_, rfl⟩
      · split
        · exact ⟨_, rfl⟩
        · simp only [ndirect, nindirect, n2indirect, n3indirect, maxfile] at *
          omega

theorem place_inj {bn bn' : Nat} {p : Fin naddrs × List Nat} (h : place bn = some p)
    (h' : place bn' = some p) : bn = bn' :=
  (place_spec h).2.2.symm.trans (place_spec h').2.2

namespace Fs

variable {fs fs' : Fs} {ip : Iref}

structure Allocates (fs fs' : Fs) (b : Nat) : Prop where
  below : b < fssize
  free : fs.bitmap b = false
  bitmap : fs'.bitmap = Function.update fs.bitmap b true
  data : fs'.data = Function.update fs.data b Block.zero
  dinode : fs'.dinode = fs.dinode
  icache : fs'.icache = fs.icache

theorem firstClear_spec {bitmap : Nat → Bool} {fuel start b : Nat}
    (h : firstClear bitmap fuel start = some b) :
    start ≤ b ∧ b < start + fuel ∧ bitmap b = false := by
  induction fuel generalizing start with
  | zero => cases h
  | succ fuel ih =>
    unfold firstClear at h
    split at h
    · obtain ⟨hlow, hhigh, hclear⟩ := ih h
      exact ⟨by omega, by omega, hclear⟩
    · rename_i hclear
      cases h
      exact ⟨le_rfl, by omega, Bool.not_eq_true _ ▸ hclear⟩

theorem logWrite_same (fs : Fs) (b : Nat) : (fs.logWrite b).bitmap = fs.bitmap ∧
    (fs.logWrite b).data = fs.data ∧ (fs.logWrite b).dinode = fs.dinode ∧
    (fs.logWrite b).icache = fs.icache := by
  unfold logWrite
  split
  · exact ⟨rfl, rfl, rfl, rfl⟩
  · exact ⟨rfl, rfl, rfl, rfl⟩

@[simp] theorem logWrite_bitmap (fs : Fs) (b : Nat) : (fs.logWrite b).bitmap = fs.bitmap :=
  (logWrite_same fs b).1

@[simp] theorem logWrite_data (fs : Fs) (b : Nat) : (fs.logWrite b).data = fs.data :=
  (logWrite_same fs b).2.1

@[simp] theorem logWrite_dinode (fs : Fs) (b : Nat) : (fs.logWrite b).dinode = fs.dinode :=
  (logWrite_same fs b).2.2.1

@[simp] theorem logWrite_icache (fs : Fs) (b : Nat) : (fs.logWrite b).icache = fs.icache :=
  (logWrite_same fs b).2.2.2

theorem balloc_spec {b : Nat} (h : fs.balloc = .ok (fs', b)) : Allocates fs fs' b := by
  unfold balloc at h
  split at h
  · cases h
  · rename_i c hclear
    cases Except.ok.inj h
    obtain ⟨-, hbelow, hfree⟩ := firstClear_spec hclear
    refine ⟨by omega, hfree, ?_, ?_, ?_, ?_⟩
    · simp [bzero]
    · simp [bzero]
    · simp [bzero]
    · simp [bzero]

def byteAt (fs : Fs) (ip : Iref) (slot : Fin naddrs) (js : List Nat) (k : Nat) : UInt8 :=
  if (fs.tree ip).block slot js = 0 then 0 else fs.data ((fs.tree ip).block slot js) k

/-- `fs'` is `fs` with blocks added to the file and other data in its blocks. -/
structure Touches (fs fs' : Fs) (ip : Iref) : Prop where
  sound : fs'.Sound ip
  tree : (fs.tree ip).Extends (fs'.tree ip) fs.Used fs'.Used
  dinode : fs'.dinode = fs.dinode
  others : ∀ i, i ≠ ip → fs'.icache i = fs.icache i
  same : ∃ addrs, fs'.icache ip = { fs.icache ip with din := { fs.din ip with addrs := addrs } }
  data : ∀ a, a ≠ 0 → (∀ slot js, (fs.tree ip).Fits slot js → (fs'.tree ip).block slot js ≠ a) →
    fs'.data a = fs.data a
  beyond : ∀ b, fssize ≤ b → fs'.bitmap b = fs.bitmap b

structure Fills (fs fs' : Fs) (ip : Iref) : Prop extends Touches fs fs' ip where
  bytes : ∀ slot js k, (fs.tree ip).Fits slot js → js.length = depth slot →
    fs'.byteAt ip slot js k = fs.byteAt ip slot js k

theorem Sound.fills_refl (h : fs.Sound ip) : Fills fs fs ip :=
  ⟨⟨h, h.extends_refl, rfl, fun _ _ => rfl, ⟨(fs.din ip).addrs, rfl⟩, fun _ _ _ => rfl,
    fun _ _ => rfl⟩, fun _ _ _ _ _ => rfl⟩

theorem Touches.trans {fs'' : Fs} (hzero : fs.Used 0) (h : Touches fs fs' ip)
    (h' : Touches fs' fs'' ip) : Touches fs fs'' ip where
  sound := h'.sound
  tree := h.tree.trans hzero h'.tree
  dinode := h'.dinode.trans h.dinode
  others := fun i hi => (h'.others i hi).trans (h.others i hi)
  same := by
    obtain ⟨addrs, haddrs⟩ := h.same
    obtain ⟨addrs', haddrs'⟩ := h'.same
    refine ⟨addrs', ?_⟩
    rw [haddrs', din, haddrs]
  data := by
    intro a ha hnot
    rw [h'.data a ha fun slot js hfits => hnot slot js (h.tree.fits_iff.mp hfits)]
    apply h.data a ha
    rintro slot js hfits rfl
    exact hnot slot js hfits (h'.tree.keeps slot js (h.tree.fits_iff.mpr hfits) ha)
  beyond := fun b hb => (h'.beyond b hb).trans (h.beyond b hb)

theorem Fills.trans {fs'' : Fs} (hzero : fs.Used 0) (h : Fills fs fs' ip)
    (h' : Fills fs' fs'' ip) : Fills fs fs'' ip :=
  ⟨h.toTouches.trans hzero h'.toTouches, fun slot js k hfits hleaf =>
    (h'.bytes slot js k (h.tree.fits_iff.mpr hfits) hleaf).trans (h.bytes slot js k hfits hleaf)⟩

/-- A block that comes to stand at an empty place fills the file, if besides it only blocks
above the data have changed. -/
theorem Sound.fills {slot : Fin naddrs} {js : List Nat} {b : Nat} (h : fs.Sound ip)
    (hgains : (fs.tree ip).Gains (fs'.tree ip) slot js b) (hbelow : b < fssize)
    (hfree : fs.bitmap b = false)
    (hbitmap : fs'.bitmap = Function.update fs.bitmap b true) (hbare : fs'.data b = Block.zero)
    (hdata : ∀ a, a ≠ b → fs'.data a ≠ fs.data a → ∃ slot js, (fs.tree ip).Fits slot js ∧
      js.length < depth slot ∧ (fs.tree ip).block slot js ≠ 0 ∧ (fs.tree ip).block slot js = a)
    (hdinode : fs'.dinode = fs.dinode) (hothers : ∀ i, i ≠ ip → fs'.icache i = fs.icache i)
    (hsame : ∃ addrs,
      fs'.icache ip = { fs.icache ip with din := { fs.din ip with addrs := addrs } }) :
    Fills fs fs' ip := by
  have hunused : ¬ fs.Used b := by simp [Used, hfree]
  have hused : ∀ x, fs'.Used x ↔ fs.Used x ∨ x = b := by
    intro x
    unfold Used
    rw [hbitmap]
    by_cases hx : x = b
    · simp [hx]
    · simp [hx]
  have hextends := Forest.Sound.extends_gains h hgains hunused hused
  refine ⟨⟨Forest.Sound.gains h hgains hunused hused, hextends, hdinode, hothers, hsame, ?_, ?_⟩,
    ?_⟩
  · intro a _ hnot
    by_contra hchanged
    by_cases hab : a = b
    · exact hnot slot js hgains.fits (hgains.after.trans hab.symm)
    · obtain ⟨slot', js', hfits, -, hne, heq⟩ := hdata a hab hchanged
      exact hnot slot' js' hfits ((hextends.keeps slot' js' hfits hne).trans heq)
  · intro x hx
    rw [hbitmap, Function.update_of_ne (by omega)]
  · intro slot' js' k hfits hleaf
    unfold byteAt
    by_cases hplace : slot' = slot ∧ js' = js
    · rw [hplace.1, hplace.2, hgains.before, hgains.after, hbare]
      simp [Block.zero]
    · rw [hgains.others slot' js' hfits hplace]
      by_cases hzero : (fs.tree ip).block slot' js' = 0
      · rw [if_pos hzero, if_pos hzero]
      · rw [if_neg hzero, if_neg hzero]
        apply congrFun
        by_contra hchanged
        -- the block would be at a place above the data as well
        have hb : (fs.tree ip).block slot' js' ≠ b :=
          fun heq => hunused (heq ▸ h.marked slot' js' hfits)
        obtain ⟨slot1, js1, hfits1, hinner, -, heq⟩ := hdata _ hb hchanged
        obtain ⟨rfl, rfl⟩ := h.distinct slot' js' slot1 js1 hfits hfits1 hzero heq.symm
        omega

/-- Nothing is done, or the block `a` is taken from the free ones and comes to stand at an empty
place of the file. -/
def Adds (fs fs' : Fs) (ip : Iref) (slot : Fin naddrs) (js : List Nat) (a : Nat) : Prop :=
  fs' = fs ∨ (fs.tree ip).Gains (fs'.tree ip) slot js a ∧ a < fssize ∧ fs.bitmap a = false ∧
    fs'.bitmap = Function.update fs.bitmap a true

theorem Allocates.ne_zero {b : Nat} (h : Allocates fs fs' b) (hzero : fs.Used 0) : b ≠ 0 := by
  rintro rfl
  rw [Used, h.free] at hzero
  cases hzero

theorem slotAddr_spec {slot : Fin naddrs} {a : Nat} (h : fs.Sound ip)
    (hok : fs.slotAddr ip slot = .ok (fs', a)) :
    Fills fs fs' ip ∧ Adds fs fs' ip slot [] a ∧ (fs'.tree ip).block slot [] = a ∧ a ≠ 0 := by
  unfold slotAddr at hok
  dsimp only at hok
  split at hok
  · rename_i hempty
    obtain ⟨⟨fs1, b⟩, halloc, hok⟩ := bind_eq_ok.mp hok
    cases Except.ok.inj hok
    have halloc := balloc_spec halloc
    have hdin : fs1.din ip = fs.din ip := by rw [din, din, halloc.icache]
    have hbare : (fs1.setAddr ip slot b).data b = Block.zero := by
      change fs1.data b = _
      rw [halloc.data, Function.update_self]
    have hsame : ∀ a, a ≠ b → (fs1.setAddr ip slot b).data a = fs.data a := by
      intro a ha
      change fs1.data a = _
      rw [halloc.data, Function.update_of_ne ha]
    have htree : (fs1.setAddr ip slot b).tree ip =
        ⟨nindirect, depth, Function.update (fs.din ip).addrs slot b,
          fun a j => ((fs1.setAddr ip slot b).data a).word j⟩ := by
      unfold tree
      congr 1
      simp [setAddr, setDin, setInode, din, halloc.icache]
    have hgains : (fs.tree ip).Gains ((fs1.setAddr ip slot b).tree ip) slot [] b := by
      rw [htree]
      apply Forest.Sound.plant h hempty
      · simp [Used, halloc.free]
      · intro k
        rw [hbare]
        rfl
      · intro a ha
        funext k
        rw [hsame a ha]
        rfl
    refine ⟨h.fills hgains halloc.below halloc.free halloc.bitmap hbare ?_ halloc.dinode ?_ ?_,
      .inr ⟨hgains, halloc.below, halloc.free, halloc.bitmap⟩, hgains.after,
      halloc.ne_zero h.zero⟩
    · intro a ha hchanged
      exact absurd (hsame a ha) hchanged
    · intro i hi
      simp [setAddr, setDin, setInode, hi, halloc.icache]
    · exact ⟨_, by simp [setAddr, setDin, setInode, din, halloc.icache]; rfl⟩
  · rename_i hslot
    cases Except.ok.inj hok
    exact ⟨h.fills_refl, .inl rfl, rfl, hslot⟩

theorem entryAddr_spec {slot : Fin naddrs} {js : List Nat} {j a : Nat} (h : fs.Sound ip)
    (hfits : (fs.tree ip).Fits slot (js ++ [j])) (hnode : (fs.tree ip).block slot js ≠ 0)
    (hok : fs.entryAddr ((fs.tree ip).block slot js) j = .ok (fs', a)) :
    Fills fs fs' ip ∧ Adds fs fs' ip slot (js ++ [j]) a ∧
      (fs'.tree ip).block slot (js ++ [j]) = a ∧ a ≠ 0 := by
  unfold entryAddr at hok
  dsimp only at hok
  split at hok
  · rename_i hempty
    obtain ⟨⟨fs1, b⟩, halloc, hok⟩ := bind_eq_ok.mp hok
    cases Except.ok.inj hok
    have halloc := balloc_spec halloc
    have hnb : (fs.tree ip).block slot js ≠ b := by
      intro heq
      have hmarked := h.marked slot js hfits.init
      rw [heq, Used, halloc.free] at hmarked
      cases hmarked
    generalize hx : (fs.tree ip).block slot js = x at hempty hnode hnb ⊢
    generalize hfs' : (logWrite { fs1 with
      data := Function.update fs1.data x ((fs1.data x).setWord j b) } x) = fs'
    have hdata : ∀ a, fs'.data a =
        if a = x then (fs.data x).setWord j b else if a = b then Block.zero else fs.data a := by
      intro a
      rw [← hfs', logWrite_data]
      dsimp only
      by_cases hax : a = x
      · rw [if_pos hax, hax, Function.update_self, halloc.data, Function.update_of_ne hnb]
      · rw [if_neg hax, Function.update_of_ne hax, halloc.data, Function.update_apply]
    have hicache : fs'.icache = fs.icache := by rw [← hfs', logWrite_icache, ← halloc.icache]
    have hbare : fs'.data b = Block.zero := by rw [hdata, if_neg (Ne.symm hnb), if_pos rfl]
    have htree : fs'.tree ip =
        ⟨nindirect, depth, (fs.din ip).addrs, fun a j => (fs'.data a).word j⟩ := by
      rw [tree, din, hicache]
      rfl
    have hgains : (fs.tree ip).Gains (fs'.tree ip) slot (js ++ [j]) b := by
      rw [htree]
      apply Forest.Sound.attach h hfits (hx ▸ hnode)
      · rw [hx]
        exact hempty
      · simp [Used, halloc.free]
      · have hbelow := halloc.below
        rw [hx, hdata, if_pos rfl]
        exact Block.word_setWord_same _ _ (by simp only [fssize] at hbelow; omega)
      · intro k
        rw [hbare]
        rfl
      · intro a k hab hne
        rw [hx] at hne
        rw [hdata]
        by_cases hax : a = x
        · rw [if_pos hax, Block.word_setWord_other _ _ fun hk => hne ⟨hax, hk⟩, hax]
          rfl
        · rw [if_neg hax, if_neg hab]
          rfl
    have hbitmap : fs'.bitmap = Function.update fs.bitmap b true := by
      rw [← hfs', logWrite_bitmap, ← halloc.bitmap]
    refine ⟨h.fills hgains halloc.below halloc.free hbitmap hbare ?_ ?_ ?_ ?_,
      .inr ⟨hgains, halloc.below, halloc.free, hbitmap⟩, hgains.after, halloc.ne_zero h.zero⟩
    · intro a hab hchanged
      have hax : a = x := by
        by_contra hax
        exact hchanged (by rw [hdata, if_neg hax, if_neg hab])
      have hlen := hfits.1
      rw [List.length_append] at hlen
      exact ⟨slot, js, hfits.init, hlen, hx ▸ hnode, hx.trans hax.symm⟩
    · rw [← hfs', logWrite_dinode, ← halloc.dinode]
    · intro i _
      rw [hicache]
    · exact ⟨(fs.din ip).addrs, by rw [hicache]; rfl⟩
  · rename_i hentry
    cases Except.ok.inj hok
    refine ⟨h.fills_refl, .inl rfl, ?_, hentry⟩
    rw [Forest.block_snoc, if_neg hnode]
    rfl

theorem descend_spec {slot : Fin naddrs} {js ks : List Nat} {a : Nat} (h : fs.Sound ip)
    (hfits : (fs.tree ip).Fits slot (js ++ ks)) (hnode : (fs.tree ip).block slot js ≠ 0)
    (hok : descend ks fs ((fs.tree ip).block slot js) = .ok (fs', a)) :
    Fills fs fs' ip ∧ (fs'.tree ip).block slot (js ++ ks) = a ∧ a ≠ 0 := by
  induction ks generalizing js fs with
  | nil =>
    cases Except.ok.inj hok
    exact ⟨h.fills_refl, by rw [List.append_nil], hnode⟩
  | cons k ks ih =>
    obtain ⟨⟨fs1, addr⟩, hentry, hrest⟩ := bind_eq_ok.mp hok
    have hsplit : js ++ k :: ks = js ++ [k] ++ ks := by simp
    rw [hsplit] at hfits ⊢
    have hfirst : (fs.tree ip).Fits slot (js ++ [k]) := hfits.left
    obtain ⟨hfills, -, hblock, hne⟩ := entryAddr_spec h hfirst hnode hentry
    rw [← hblock] at hrest hne
    obtain ⟨hrest, hend⟩ := ih hfills.sound (hfills.tree.fits_iff.mpr hfits) hne hrest
    exact ⟨hfills.trans h.zero hrest, hend⟩

theorem place_in_tree (fs : Fs) (ip : Iref) {bn : Nat} {p : Fin naddrs × List Nat}
    (h : place bn = some p) : (fs.tree ip).Fits p.1 p.2 :=
  ⟨(place_spec h).1.le, (place_spec h).2.1⟩

theorem bmap_spec {bn a : Nat} (h : fs.Sound ip) (hok : fs.bmap ip bn = .ok (fs', a)) :
    ∃ p, place bn = some p ∧ Fills fs fs' ip ∧ (fs'.tree ip).block p.1 p.2 = a ∧ a ≠ 0 := by
  rw [bmap_eq] at hok
  cases hplace : place bn with
  | none =>
    rw [hplace] at hok
    cases hok
  | some p =>
    rw [hplace] at hok
    obtain ⟨⟨fs1, addr⟩, hslot, hrest⟩ := bind_eq_ok.mp hok
    obtain ⟨hfills, -, hblock, hne⟩ := slotAddr_spec h hslot
    rw [← hblock] at hrest hne
    obtain ⟨hrest, hend⟩ := descend_spec hfills.sound (place_in_tree fs1 ip hplace) hne hrest
    exact ⟨p, rfl, hfills.trans h.zero hrest, hend⟩

end Fs

end Xv6

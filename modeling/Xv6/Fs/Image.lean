import Xv6.Fs.Mkfs
import Xv6.Fs.Volume

/-! What `mkfs` writes. Its block map is made like that of the kernel, with the next block
of a counter for every block that is missing. Only the last step, which rounds the size of
the root directory up, can leave a hole. -/
namespace Xv6

open BlockTree Forest Fallible

/-- The blocks below `free` are the ones in use, and the others are blank. -/
structure Tidy (dinode : Nat → Dinode) (data : Nat → Block) (free : Nat) : Prop where
  owned : (volumeOf dinode data).Owns (· < free) nmeta
  blank : ∀ b, free ≤ b → data b = Block.zero

section

variable {dn dn' : Nat → Dinode} {data data' : Nat → Block} {free inum b x j : Nat} {d : Dinode}
  {slot : Fin naddrs} {js : List Nat}

theorem Tidy.gains {p : Nat × Fin naddrs} (h : Tidy dn data free)
    (hgains : (volumeOf dn data).Gains (volumeOf dn' data') p js free)
    (hblank : ∀ b, free < b → data' b = Block.zero) :
    Tidy dn' data' (free + 1) ∧
      (volumeOf dn data).Extends (volumeOf dn' data') (· < free) (· < free + 1) := by
  have hfresh : ¬ free < free := lt_irrefl free
  have hused : ∀ x, x < free + 1 ↔ x < free ∨ x = free := by omega
  have hextends := h.owned.sound.extends_gains hgains hfresh hused
  exact ⟨⟨h.owned.extends (by decide) (h.owned.sound.gains hgains hfresh hused) hextends, hblank⟩,
    hextends⟩

theorem root_update (harea : inum < inodeArea) (htype : d.type ≠ .free) (p : Nat × Fin naddrs) :
    (volumeOf (Function.update dn inum d) data).root p =
      if p.1 = inum then d.addrs p.2 else (volumeOf dn data).root p := by
  obtain ⟨inum', slot⟩ := p
  by_cases heq : inum' = inum
  · subst heq
    have halloc : Allocated (Function.update dn inum' d) inum' :=
      ⟨harea, by rw [Function.update_self]; exact htype⟩
    dsimp only [volumeOf]
    rw [if_pos halloc, if_pos rfl, Function.update_self]
  · rw [if_neg heq]
    exact root_congr (by rw [Function.update_of_ne heq]) slot

theorem Tidy.plant (h : Tidy (Function.update dn inum d) data free) (harea : inum < inodeArea)
    (htype : d.type ≠ .free) (hempty : d.addrs slot = 0) :
    Tidy (Function.update dn inum { d with addrs := Function.update d.addrs slot free }) data
      (free + 1) ∧
    (volumeOf (Function.update dn inum d) data).Extends (volumeOf (Function.update dn inum
      { d with addrs := Function.update d.addrs slot free }) data) (· < free) (· < free + 1) := by
  have hroot : (volumeOf (Function.update dn inum
      { d with addrs := Function.update d.addrs slot free }) data).root =
      Function.update (volumeOf (Function.update dn inum d) data).root (inum, slot) free := by
    funext ⟨inum', slot'⟩
    rw [root_update harea (by exact htype), Function.update_apply, root_update harea htype]
    by_cases hi : inum' = inum
    · by_cases hs : slot' = slot
      · simp [hi, hs]
      · simp [hi, hs]
    · simp [hi]
  have hgains : (volumeOf (Function.update dn inum d) data).Gains ⟨nindirect, fun p => depth p.2,
      Function.update (volumeOf (Function.update dn inum d) data).root (inum, slot) free,
      fun a j => (data a).word j⟩ (inum, slot) [] free := by
    apply h.owned.sound.plant
    · rw [root_update harea htype, if_pos rfl]
      exact hempty
    · exact lt_irrefl free
    · intro k
      rw [h.blank free le_rfl, Block.word_zero]
    · exact fun _ _ => rfl
  rw [← hroot] at hgains
  exact h.gains hgains fun b hb => h.blank b hb.le

theorem Tidy.attach {p : Nat × Fin naddrs} (h : Tidy dn data free)
    (hfits : (volumeOf dn data).Fits p (js ++ [j])) (hnode : (volumeOf dn data).block p js = x)
    (hx : x ≠ 0) (hempty : (data x).word j = 0) (hfree : free < 4294967296) :
    Tidy dn (Function.update data x ((data x).setWord j free)) (free + 1) ∧
    (volumeOf dn data).Extends
      (volumeOf dn (Function.update data x ((data x).setWord j free))) (· < free) (· < free + 1) ∧
    (volumeOf dn (Function.update data x ((data x).setWord j free))).block p (js ++ [j]) =
      free := by
  have hmarked : x < free := hnode ▸ h.owned.sound.marked p js hfits.init
  have hgains : (volumeOf dn data).Gains
      (volumeOf dn (Function.update data x ((data x).setWord j free))) p (js ++ [j]) free := by
    apply h.owned.sound.attach hfits (hnode ▸ hx)
    · rw [hnode]
      exact hempty
    · exact lt_irrefl free
    · rw [hnode, Function.update_self]
      exact Block.word_setWord_same _ _ hfree
    · intro k
      rw [Function.update_of_ne hmarked.ne', h.blank free le_rfl, Block.word_zero]
    · intro a k _ hne
      rw [hnode] at hne
      by_cases hax : a = x
      · rw [hax, Function.update_self, Block.word_setWord_other _ _ fun hk => hne ⟨hax, hk⟩]
        rfl
      · rw [Function.update_of_ne hax]
        rfl
  obtain ⟨htidy, hextends⟩ := h.gains hgains fun b hb => by
    rw [Function.update_of_ne (by omega)]
    exact h.blank b hb.le
  exact ⟨htidy, hextends, hgains.after⟩

theorem Tidy.block_write {p p' : Nat × Fin naddrs} {js' : List Nat} (h : Tidy dn data free)
    (hfits : (volumeOf dn data).Fits p js) (hleaf : js.length = depth p.2)
    (hx : (volumeOf dn data).block p js = x) (block : Block)
    (hfits' : (volumeOf dn data).Fits p' js') :
    (volumeOf dn (Function.update data x block)).block p' js' =
      (volumeOf dn data).block p' js' := by
  revert hfits'
  apply h.owned.sound.block_leaf hfits hleaf
  · rfl
  · rfl
  · rfl
  · intro a ha
    funext k
    rw [hx] at ha
    dsimp only [volumeOf]
    rw [Function.update_of_ne ha]

theorem Tidy.write {p : Nat × Fin naddrs} {block : Block} (h : Tidy dn data free)
    (hfits : (volumeOf dn data).Fits p js) (hleaf : js.length = depth p.2)
    (hx : (volumeOf dn data).block p js = x) :
    Tidy dn (Function.update data x block) free ∧
    (volumeOf dn data).Extends (volumeOf dn (Function.update data x block))
      (· < free) (· < free) := by
  have hcongr : (volumeOf dn (Function.update data x block)).Sound (· < free) ∧
      (volumeOf dn data).Extends (volumeOf dn (Function.update data x block)) (· < free)
        (· < free) := h.owned.sound.congr rfl rfl
        (fun _ _ hfits' => h.block_write hfits hleaf hx block hfits') fun _ => Iff.rfl
  obtain ⟨hsound, hextends⟩ := hcongr
  refine ⟨⟨h.owned.extends (by decide) hsound hextends, fun b hb => ?_⟩, hextends⟩
  have hmarked : x < free := hx ▸ h.owned.sound.marked p js hfits
  rw [Function.update_of_ne (by omega)]
  exact h.blank b hb

end

namespace Image

variable {img img' : Image} {d d' : Dinode} {dn : Nat → Dinode} {inum fbn x : Nat}

theorem volume_size (dn : Nat → Dinode) (data : Nat → Block) (inum n : Nat) (d : Dinode) :
    volumeOf (Function.update dn inum { d with size := n }) data =
      volumeOf (Function.update dn inum d) data := by
  have hfield : ∀ {β : Type} (field : Dinode → β), field { d with size := n } = field d → ∀ i,
      field (Function.update dn inum { d with size := n } i) =
        field (Function.update dn inum d i) := by
    intro β field heq i
    by_cases hi : i = inum
    · rw [hi, Function.update_self, Function.update_self, heq]
    · rw [Function.update_of_ne hi, Function.update_of_ne hi]
  exact volume_congr (hfield Dinode.type rfl) (hfield Dinode.addrs rfl)

theorem winode_dinode (img : Image) (inum : Nat) (d : Dinode) :
    (img.winode inum d).dinode = Function.update img.dinode inum d := rfl

theorem blockFor_frame (hok : img.blockFor d fbn = .ok (img', d', x)) :
    img'.dinode = img.dinode ∧ img'.freeinode = img.freeinode ∧ img.freeblock ≤ img'.freeblock ∧
      ∃ addrs, d' = { d with addrs := addrs } := by
  unfold blockFor at hok
  split at hok
  · cases hok
  · split at hok
    · dsimp only at hok
      split at hok
      · cases Except.ok.inj hok
        exact ⟨rfl, rfl, Nat.le_succ _, _, rfl⟩
      · cases Except.ok.inj hok
        exact ⟨rfl, rfl, le_rfl, _, rfl⟩
    · generalize hr : (if d.addrs 10 = 0 then
          (({ img with freeblock := img.freeblock + 1 } : Image),
            { d with addrs := Function.update d.addrs 10 img.freeblock })
        else (img, d)) = r at hok
      have hslot : r.1.dinode = img.dinode ∧ r.1.freeinode = img.freeinode ∧
          img.freeblock ≤ r.1.freeblock ∧ ∃ addrs, r.2 = { d with addrs := addrs } := by
        rw [← hr]
        split
        · exact ⟨rfl, rfl, Nat.le_succ _, _, rfl⟩
        · exact ⟨rfl, rfl, le_rfl, _, rfl⟩
      dsimp only at hok
      split at hok
      · cases hok
      · split at hok
        · cases Except.ok.inj hok
          exact ⟨hslot.1, hslot.2.1, hslot.2.2.1.trans (Nat.le_succ _), hslot.2.2.2⟩
        · cases Except.ok.inj hok
          exact hslot

theorem blockFor_spec (h : Tidy (Function.update dn inum d) img.data img.freeblock)
    (harea : inum < inodeArea) (htype : d.type ≠ .free)
    (hok : img.blockFor d fbn = .ok (img', d', x)) (hbound : img'.freeblock ≤ bpb) :
    Tidy (Function.update dn inum d') img'.data img'.freeblock ∧
    (volumeOf (Function.update dn inum d) img.data).Extends
      (volumeOf (Function.update dn inum d') img'.data) (· < img.freeblock)
      (· < img'.freeblock) ∧
    ∃ p, place fbn = some p ∧ x ≠ 0 ∧
      (volumeOf (Function.update dn inum d') img'.data).block (inum, p.1) p.2 = x := by
  have hpos : 0 < img.freeblock := h.owned.sound.zero
  have hroot : ∀ (d : Dinode) (data : Nat → Block) (slot : Fin naddrs), d.type ≠ .free →
      (volumeOf (Function.update dn inum d) data).block (inum, slot) [] = d.addrs slot := by
    intro d data slot htype
    change (volumeOf (Function.update dn inum d) data).root (inum, slot) = _
    rw [root_update harea htype, if_pos rfl]
  unfold blockFor at hok
  split at hok
  · cases hok
  · rename_i hmax
    split at hok
    · rename_i hdirect
      have hplace : place fbn = some (⟨fbn, direct_lt hdirect⟩, []) := by
        rw [place, dif_pos hdirect]
      dsimp only at hok
      split at hok
      · rename_i hempty
        cases Except.ok.inj hok
        obtain ⟨htidy, hextends⟩ := h.plant harea htype hempty
        refine ⟨htidy, hextends, _, hplace, hpos.ne', ?_⟩
        rw [hroot _ _ _ (by exact htype)]
        exact Function.update_self ..
      · rename_i hslot
        cases Except.ok.inj hok
        exact ⟨h, h.owned.sound.extends_refl, _, hplace, hslot, hroot _ _ _ htype⟩
    · rename_i hindirect
      generalize hr : (if d.addrs 10 = 0 then
          (({ img with freeblock := img.freeblock + 1 } : Image),
            { d with addrs := Function.update d.addrs 10 img.freeblock })
        else (img, d)) = r at hok
      have hslot : Tidy (Function.update dn inum r.2) r.1.data r.1.freeblock ∧
          (volumeOf (Function.update dn inum d) img.data).Extends
            (volumeOf (Function.update dn inum r.2) r.1.data) (· < img.freeblock)
            (· < r.1.freeblock) ∧ r.2.type ≠ .free ∧ r.2.addrs 10 ≠ 0 := by
        rw [← hr]
        split
        · rename_i hempty
          obtain ⟨htidy, hextends⟩ := h.plant harea htype hempty
          refine ⟨htidy, hextends, htype, ?_⟩
          dsimp only
          rw [Function.update_self]
          exact hpos.ne'
        · rename_i hslot
          exact ⟨h, h.owned.sound.extends_refl, htype, hslot⟩
      obtain ⟨htidy, hextends, htype', hnode⟩ := hslot
      have hnode' := hroot r.2 r.1.data 10 htype'
      dsimp only at hok
      split at hok
      · cases hok
      · rename_i hrange
        have hj : fbn - ndirect < nindirect := Nat.lt_of_not_le hrange
        have hplace : place fbn = some (10, [fbn - ndirect]) := by
          rw [place, dif_neg hindirect]
          dsimp only
          rw [if_pos hj]
        have hfits : (volumeOf (Function.update dn inum r.2) r.1.data).Fits (inum, 10)
            ([] ++ [fbn - ndirect]) := by
          refine ⟨le_rfl, fun k hk => ?_⟩
          rw [List.nil_append, List.mem_singleton] at hk
          exact hk ▸ hj
        split at hok
        · rename_i hempty
          cases Except.ok.inj hok
          obtain ⟨htidy', hextends', hblock⟩ := htidy.attach hfits hnode' hnode hempty
            (by dsimp only [wsect] at hbound; simp only [bpb] at hbound; omega)
          exact ⟨htidy', hextends.trans hpos hextends', _, hplace,
            (show 0 < r.1.freeblock from htidy.owned.sound.zero).ne', hblock⟩
        · rename_i hentry
          cases Except.ok.inj hok
          refine ⟨htidy, hextends, _, hplace, hentry, ?_⟩
          have hsnoc := block_snoc (volumeOf (Function.update dn inum r.2) r.1.data) (inum, 10) []
            (fbn - ndirect)
          rw [hnode', if_neg hnode] at hsnoc
          exact hsnoc

theorem append_bounds {len off n : Nat} (hlen : len ≠ 0)
    (hn : min len ((off / bsize + 1) * bsize - off) = n) :
    0 < n ∧ n ≤ len ∧ off + n ≤ (off / bsize + 1) * bsize := by
  simp only [bsize] at *
  omega

theorem appendLoop_frame {fuel off off' : Nat} {p : List UInt8} (hfuel : p.length ≤ fuel)
    (hok : appendLoop fuel img d off p = .ok (img', d', off')) :
    off' = off + p.length ∧ img'.dinode = img.dinode ∧ img'.freeinode = img.freeinode ∧
      img.freeblock ≤ img'.freeblock ∧ ∃ addrs, d' = { d with addrs := addrs } := by
  induction fuel generalizing img d off p with
  | zero =>
    cases Except.ok.inj hok
    exact ⟨by omega, rfl, rfl, le_rfl, _, rfl⟩
  | succ fuel ih =>
    unfold appendLoop at hok
    split at hok
    · rename_i hnil
      cases Except.ok.inj hok
      exact ⟨by omega, rfl, rfl, le_rfl, _, rfl⟩
    · rename_i hpos
      obtain ⟨⟨img1, d1, x⟩, hblock, hrest⟩ := bind_eq_ok.mp hok
      dsimp only at hrest
      generalize hn : min p.length ((off / bsize + 1) * bsize - off) = n at hrest
      obtain ⟨hnpos, hnlen, -⟩ := append_bounds hpos hn
      have hlen : (p.drop n).length ≤ fuel := by
        rw [List.length_drop]
        omega
      obtain ⟨hdinode, hinode, hle, addrs, rfl⟩ := blockFor_frame hblock
      obtain ⟨hoff, hdinode', hinode', hle', addrs', rfl⟩ := ih hlen hrest
      rw [List.length_drop] at hoff
      exact ⟨by omega, hdinode'.trans hdinode, hinode'.trans hinode, hle.trans hle', addrs', rfl⟩

theorem appendLoop_sized {fuel off off' : Nat} {p : List UInt8} (h : off ≤ maxfile * bsize)
    (hok : appendLoop fuel img d off p = .ok (img', d', off')) : off' ≤ maxfile * bsize := by
  induction fuel generalizing img d off p with
  | zero =>
    cases Except.ok.inj hok
    exact h
  | succ fuel ih =>
    unfold appendLoop at hok
    split at hok
    · cases Except.ok.inj hok
      exact h
    · rename_i hpos
      obtain ⟨⟨img1, d1, x⟩, hblock, hrest⟩ := bind_eq_ok.mp hok
      dsimp only at hrest
      generalize hn : min p.length ((off / bsize + 1) * bsize - off) = n at hrest
      apply ih _ hrest
      have hfbn : off / bsize < maxfile := by
        unfold blockFor at hblock
        split at hblock
        · cases hblock
        · omega
      exact (append_bounds hpos hn).2.2.trans (Nat.mul_le_mul_right bsize hfbn)

theorem appendLoop_spec {fuel off off' : Nat} {p : List UInt8}
    (h : Tidy (Function.update dn inum d) img.data img.freeblock) (harea : inum < inodeArea)
    (htype : d.type ≠ .free) (hfuel : p.length ≤ fuel)
    (hmapped : MappedTo (Function.update dn inum d) img.data inum off)
    (hok : appendLoop fuel img d off p = .ok (img', d', off')) (hbound : img'.freeblock ≤ bpb) :
    Tidy (Function.update dn inum d') img'.data img'.freeblock ∧
    (volumeOf (Function.update dn inum d) img.data).Extends
      (volumeOf (Function.update dn inum d') img'.data) (· < img.freeblock)
      (· < img'.freeblock) ∧
    MappedTo (Function.update dn inum d') img'.data inum off' := by
  induction fuel generalizing img d off p with
  | zero =>
    cases Except.ok.inj hok
    exact ⟨h, h.owned.sound.extends_refl, hmapped⟩
  | succ fuel ih =>
    unfold appendLoop at hok
    split at hok
    · cases Except.ok.inj hok
      exact ⟨h, h.owned.sound.extends_refl, hmapped⟩
    · rename_i hpos
      obtain ⟨⟨img1, d1, x⟩, hblock, hrest⟩ := bind_eq_ok.mp hok
      dsimp only at hrest
      generalize hn : min p.length ((off / bsize + 1) * bsize - off) = n at hrest
      obtain ⟨hnpos, hnlen, hnblock⟩ := append_bounds hpos hn
      have hlen : (p.drop n).length ≤ fuel := by
        rw [List.length_drop]
        omega
      obtain ⟨-, -, -, hle, -⟩ := appendLoop_frame hlen hrest
      obtain ⟨-, -, -, addrs, rfl⟩ := blockFor_frame hblock
      obtain ⟨htidy, hextends, q, hplace, hx, hat⟩ :=
        blockFor_spec h harea htype hblock (le_trans hle hbound)
      obtain ⟨htidy2, hextends2⟩ := htidy.write (place_in_volume hplace) (place_spec hplace).1 hat
      have hextends := hextends.trans h.owned.sound.zero hextends2
      have hnext : MappedTo (Function.update dn inum { d with addrs := addrs })
          (img1.wsect x ((img1.data x).overwrite (off - off / bsize * bsize) (p.take n))).data
          inum (off + n) := by
        intro bn p' hplace' hbn
        by_cases hold : bn * bsize < off
        · exact hmapped.extends hextends bn p' hplace' hold
        · -- the block of this turn
          have hbn' : bn = off / bsize := by
            simp only [bsize] at *
            omega
          rw [hbn', hplace] at hplace'
          cases hplace'
          exact (hextends2.keeps _ _ (place_in_volume hplace) (hat ▸ hx)).trans_ne (hat ▸ hx)
      obtain ⟨htidy3, hextends3, hmapped3⟩ := ih htidy2 (by exact htype) hlen hnext hrest
      exact ⟨htidy3, hextends.trans h.owned.sound.zero hextends3, hmapped3⟩

structure Good (img : Image) : Prop where
  tidy : Tidy img.dinode img.data img.freeblock
  mapped : NoHoles img.dinode img.data
  sized : Sized img.dinode
  spare : ∀ inum, img.freeinode ≤ inum → (img.dinode inum).type = .free

theorem good_zeroes : zeroes.Good := by
  have hblock : ∀ p js, (volumeOf zeroes.dinode zeroes.data).block p js = 0 := by
    intro p js
    have hroot : (volumeOf zeroes.dinode zeroes.data).root p = 0 :=
      if_neg fun halloc => halloc.2 rfl
    rw [block, hroot, follow_zero]
  refine ⟨⟨⟨⟨by decide, fun p js _ => ?_, fun p js _ _ _ _ hne => absurd (hblock p js) hne⟩,
    fun b hb => hb, fun p js _ hne => absurd (hblock p js) hne, fun b hb => .inl hb⟩,
    fun _ _ => rfl⟩, fun inum halloc => absurd rfl halloc.2, fun inum halloc => absurd rfl halloc.2,
    fun _ _ => rfl⟩
  rw [hblock]
  decide

theorem Good.ialloc {type : FileType} (h : img.Good) (hok : img.ialloc type = .ok (img', inum)) :
    img'.Good ∧ inum = img.freeinode ∧ img'.freeinode = inum + 1 ∧ inum < inodeArea ∧
      img'.freeblock = img.freeblock ∧
      img'.dinode = Function.update img.dinode inum { Dinode.zero with type, nlink := 1 } := by
  unfold Image.ialloc at hok
  dsimp only at hok
  split at hok
  · cases hok
  · rename_i harea
    cases Except.ok.inj hok
    have hfree := h.spare img.freeinode le_rfl
    refine ⟨⟨⟨?_, h.tidy.blank⟩, h.mapped.fresh hfree (fun _ => rfl) rfl,
      h.sized.update fun _ => Nat.zero_le _, fun inum hinum => ?_⟩, rfl, rfl,
      Nat.lt_of_not_le harea, rfl, rfl⟩
    · have howned := h.tidy.owned
      rw [← volume_fresh (d := { Dinode.zero with type, nlink := 1 }) hfree fun _ => rfl] at howned
      exact howned
    · dsimp only at hinum ⊢
      rw [winode_dinode, Function.update_of_ne (show inum ≠ img.freeinode by omega)]
      exact h.spare inum (by omega)

structure Appends (img img' : Image) (inum n : Nat) : Prop where
  freeblock : img.freeblock ≤ img'.freeblock
  freeinode : img'.freeinode = img.freeinode
  others : ∀ i, i ≠ inum → img'.dinode i = img.dinode i
  type : (img'.dinode inum).type = (img.dinode inum).type
  nlink : (img'.dinode inum).nlink = (img.dinode inum).nlink
  size : (img'.dinode inum).size = (img.dinode inum).size + n

theorem Appends.refl (img : Image) (inum : Nat) : Appends img img inum 0 :=
  ⟨le_rfl, rfl, fun _ _ => rfl, rfl, rfl, rfl⟩

theorem Appends.trans {img'' : Image} {n m : Nat} (h : Appends img img' inum n)
    (h' : Appends img' img'' inum m) : Appends img img'' inum (n + m) where
  freeblock := h.freeblock.trans h'.freeblock
  freeinode := h'.freeinode.trans h.freeinode
  others := fun i hi => (h'.others i hi).trans (h.others i hi)
  type := h'.type.trans h.type
  nlink := h'.nlink.trans h.nlink
  size := by rw [h'.size, h.size, Nat.add_assoc]

theorem iappend_frame {p : List UInt8} (hok : img.iappend inum p = .ok img') :
    Appends img img' inum p.length := by
  obtain ⟨⟨img1, d1, off⟩, hloop, hok⟩ := bind_eq_ok.mp hok
  obtain ⟨rfl, hdinode, hinode, hle, addrs, rfl⟩ := appendLoop_frame le_rfl hloop
  cases Except.ok.inj hok
  refine ⟨hle, hinode, fun i hi => ?_, ?_, ?_, ?_⟩
  · rw [winode_dinode, Function.update_of_ne hi, hdinode]
  · rw [winode_dinode, Function.update_self]
  · rw [winode_dinode, Function.update_self]
  · rw [winode_dinode, Function.update_self]

theorem Good.iappend {p : List UInt8} (h : img.Good) (halloc : Allocated img.dinode inum)
    (hok : img.iappend inum p = .ok img') (hbound : img'.freeblock ≤ bpb) : img'.Good := by
  have hframe := iappend_frame hok
  obtain ⟨⟨img1, d1, off⟩, hloop, hok⟩ := bind_eq_ok.mp hok
  cases Except.ok.inj hok
  have hself : Function.update img.dinode inum (img.dinode inum) = img.dinode :=
    Function.update_eq_self inum img.dinode
  have htidy := h.tidy
  have hmapped := h.mapped inum halloc
  rw [← hself] at htidy
  rw [← hself, Function.update_self] at hmapped
  obtain ⟨htidy, hextends, hmapped⟩ :=
    appendLoop_spec htidy halloc.1 halloc.2 le_rfl hmapped hloop hbound
  rw [hself] at hextends
  obtain ⟨-, hdinode, -, -, addrs, rfl⟩ := appendLoop_frame le_rfl hloop
  have hvolume := volume_size img.dinode img1.data inum off
    { img.dinode inum with addrs := addrs }
  rw [← hdinode, ← winode_dinode, hdinode] at hvolume
  refine ⟨⟨hvolume ▸ htidy.owned, htidy.blank⟩, fun i hi bn p hplace hbn => ?_, ?_,
    fun i hi => ?_⟩
  · change (volumeOf (img1.winode inum _).dinode img1.data).block _ _ ≠ 0
    rw [hvolume]
    by_cases heq : i = inum
    · rw [heq]
      rw [heq, winode_dinode, Function.update_self] at hbn
      exact hmapped bn p hplace hbn
    · rw [allocated_congr (hframe.others i heq)] at hi
      rw [hframe.others i heq] at hbn
      exact (h.mapped i hi).extends hextends bn p hplace hbn
  · rw [winode_dinode, hdinode]
    exact h.sized.update fun _ => appendLoop_sized (h.sized inum halloc) hloop
  · rw [hframe.freeinode] at hi
    by_cases heq : i = inum
    · rw [heq] at hi
      exact absurd (h.spare inum hi) halloc.2
    · rw [hframe.others i heq]
      exact h.spare i hi

theorem appendFile_frame {fuel : Nat} {bytes : List UInt8}
    (hok : appendFile inum fuel img bytes = .ok img') : ∃ n, Appends img img' inum n := by
  induction fuel generalizing img bytes with
  | zero =>
    cases Except.ok.inj hok
    exact ⟨0, .refl _ _⟩
  | succ fuel ih =>
    unfold appendFile at hok
    split at hok
    · cases Except.ok.inj hok
      exact ⟨0, .refl _ _⟩
    · obtain ⟨img1, hfirst, hok⟩ := bind_eq_ok.mp hok
      obtain ⟨n, hrest⟩ := ih hok
      exact ⟨_, (iappend_frame hfirst).trans hrest⟩

theorem Appends.allocated {n i : Nat} (h : Appends img img' inum n)
    (halloc : Allocated img.dinode i) : Allocated img'.dinode i := by
  by_cases hi : i = inum
  · subst hi
    exact ⟨halloc.1, by rw [h.type]; exact halloc.2⟩
  · rw [allocated_congr (h.others i hi)]
    exact halloc

theorem Good.appendFile {fuel : Nat} {bytes : List UInt8} (h : img.Good)
    (halloc : Allocated img.dinode inum) (hok : appendFile inum fuel img bytes = .ok img')
    (hbound : img'.freeblock ≤ bpb) : img'.Good := by
  induction fuel generalizing img bytes with
  | zero =>
    cases Except.ok.inj hok
    exact h
  | succ fuel ih =>
    unfold Image.appendFile at hok
    split at hok
    · cases Except.ok.inj hok
      exact h
    · obtain ⟨img1, hfirst, hok⟩ := bind_eq_ok.mp hok
      obtain ⟨n, hrest⟩ := appendFile_frame hok
      have hgood := h.iappend halloc hfirst (hrest.freeblock.trans hbound)
      exact ih hgood ((iappend_frame hfirst).allocated halloc) hok

end Image

theorem Dirent.length_encode (de : Dirent) : de.encode.length = direntSize := by
  have hcopied : ((de.name.takeWhile (· ≠ 0)).take dirsiz).length ≤ dirsiz :=
    List.length_take_le _ _
  rw [encode, List.length_cons, List.length_cons, strncpy, List.length_append,
    List.length_replicate, Nat.add_sub_cancel' hcopied]

namespace Image

/-- The image between two files: the root directory has `n` entries. -/
structure Rooted (img : Image) (n : Nat) : Prop extends Good img where
  root : Allocated img.dinode rootino
  next : rootino < img.freeinode
  entries : (img.dinode rootino).size = direntSize * n

variable {img img' : Image} {file : Name × List UInt8} {n : Nat}

def entryName (host : Name) : Name := if host.head? = some 95 then host.tail else host

theorem addFile_steps (hok : img.addFile file = .ok img') : ∃ img1 img2 inum,
    img.ialloc .file = .ok (img1, inum) ∧
    img1.iappend rootino (Dirent.encode ⟨inum, entryName file.1⟩) = .ok img2 ∧
    appendFile inum file.2.length img2 file.2 = .ok img' := by
  unfold addFile at hok
  split at hok
  · cases hok
  · obtain ⟨⟨img1, inum⟩, halloc, hok⟩ := bind_eq_ok.mp hok
    obtain ⟨img2, hentry, hok⟩ := bind_eq_ok.mp hok
    exact ⟨img1, img2, inum, halloc, hentry, hok⟩

theorem addFile_le (hok : img.addFile file = .ok img') : img.freeblock ≤ img'.freeblock := by
  obtain ⟨img1, img2, inum, halloc, hentry, hfile⟩ := addFile_steps hok
  obtain ⟨n, hfile⟩ := appendFile_frame hfile
  have hsame : img1.freeblock = img.freeblock := by
    unfold ialloc at halloc
    dsimp only at halloc
    split at halloc
    · cases halloc
    · cases Except.ok.inj halloc
      rfl
  rw [← hsame]
  exact (iappend_frame hentry).freeblock.trans hfile.freeblock

theorem addFiles_le {files : List (Name × List UInt8)}
    (hok : files.foldlM addFile img = .ok img') : img.freeblock ≤ img'.freeblock :=
  foldlM_invariant (fun i => img.freeblock ≤ i.freeblock)
    (fun _ _ _ hi hstep => hi.trans (addFile_le hstep)) files le_rfl hok

theorem Rooted.entry {de : Dirent} (h : img.Rooted n)
    (hok : img.iappend rootino de.encode = .ok img') (hbound : img'.freeblock ≤ bpb) :
    img'.Rooted (n + 1) := by
  have hframe := iappend_frame hok
  refine ⟨h.toGood.iappend h.root hok hbound, hframe.allocated h.root, ?_, ?_⟩
  · rw [hframe.freeinode]
    exact h.next
  · rw [hframe.size, h.entries, Dirent.length_encode]
    rfl

theorem Rooted.ialloc {type : FileType} {inum : Nat} (h : img.Rooted n)
    (hok : img.ialloc type = .ok (img', inum)) :
    rootino ≠ inum ∧ img'.dinode rootino = img.dinode rootino ∧ img'.Rooted n := by
  obtain ⟨hgood, hinum, hnext, -, -, hdinode⟩ := h.toGood.ialloc hok
  have hlater := h.next
  have hne : rootino ≠ inum := by omega
  have hroot : img'.dinode rootino = img.dinode rootino := by
    rw [hdinode, Function.update_of_ne hne]
  refine ⟨hne, hroot, hgood, (allocated_congr hroot).mpr h.root, by omega, ?_⟩
  rw [hroot]
  exact h.entries

theorem Rooted.addFile (h : img.Rooted n) (hok : img.addFile file = .ok img')
    (hbound : img'.freeblock ≤ bpb) : img'.Rooted (n + 1) := by
  obtain ⟨img1, img2, inum, halloc, hentry, hfile⟩ := addFile_steps hok
  obtain ⟨-, -, -, harea, -, hdinode⟩ := h.toGood.ialloc halloc
  obtain ⟨hne, -, hrooted1⟩ := h.ialloc halloc
  obtain ⟨m, hframe⟩ := appendFile_frame hfile
  have hallocated : Allocated img1.dinode inum := by
    refine ⟨harea, ?_⟩
    rw [hdinode, Function.update_self]
    decide
  have hrooted2 := hrooted1.entry hentry (hframe.freeblock.trans hbound)
  have hallocated2 := (iappend_frame hentry).allocated hallocated
  refine ⟨hrooted2.toGood.appendFile hallocated2 hfile hbound, hframe.allocated hrooted2.root,
    ?_, ?_⟩
  · rw [hframe.freeinode]
    exact hrooted2.next
  · rw [hframe.others _ hne]
    exact hrooted2.entries

theorem Rooted.addFiles {files : List (Name × List UInt8)} (h : img.Rooted n)
    (hok : files.foldlM Image.addFile img = .ok img') (hbound : img'.freeblock ≤ bpb) :
    img'.Rooted (n + files.length) := by
  induction files generalizing img n with
  | nil =>
    cases Except.ok.inj hok
    exact h
  | cons file files ih =>
    rw [List.foldlM_cons] at hok
    obtain ⟨img1, hfirst, hrest⟩ := bind_eq_ok.mp hok
    have hrooted := ih (h.addFile hfirst ((addFiles_le hrest).trans hbound)) hrest
    rw [List.length_cons]
    rwa [Nat.add_assoc, Nat.add_comm 1] at hrooted

theorem rooted_new {root : Nat} (hok : zeroes.ialloc .dir = .ok (img, root)) :
    img.Rooted 0 ∧ root = rootino := by
  obtain ⟨hgood, rfl, hnext, harea, -, hdinode⟩ := good_zeroes.ialloc hok
  have hroot : img.dinode rootino = { Dinode.zero with type := .dir, nlink := 1 } := by
    rw [hdinode]
    exact Function.update_self ..
  refine ⟨⟨hgood, ⟨harea, ?_⟩, ?_, ?_⟩, rfl⟩
  · rw [hroot]
    decide
  · rw [hnext]
    decide
  · rw [hroot]
    rfl

theorem Rooted.fixRoot (h : img.Rooted n) (hn : n % 32 ≠ 0) : img.fixRoot.Good := by
  have hvolume := volume_size img.dinode img.data rootino
    (((img.dinode rootino).size / bsize + 1) * bsize) (img.dinode rootino)
  rw [Function.update_eq_self] at hvolume
  have hother : ∀ i, i ≠ rootino → img.fixRoot.dinode i = img.dinode i :=
    fun i hi => Function.update_of_ne hi ..
  refine ⟨⟨hvolume ▸ h.tidy.owned, h.tidy.blank⟩, fun i hi bn p hplace hbn => ?_,
    h.sized.update fun _ => ?_, fun i hi => ?_⟩
  · change (volumeOf img.fixRoot.dinode img.data).block _ _ ≠ 0
    rw [Image.fixRoot, winode_dinode, hvolume]
    by_cases heq : i = rootino
    · subst heq
      apply h.mapped rootino h.root bn p hplace
      rw [Image.fixRoot, winode_dinode, Function.update_self] at hbn
      have hentries := h.entries
      simp only [bsize, direntSize] at *
      omega
    · rw [allocated_congr (hother i heq)] at hi
      rw [hother i heq] at hbn
      exact h.mapped i hi bn p hplace hbn
  · have hsize := h.sized rootino h.root
    have hentries := h.entries
    simp only [bsize, direntSize, maxfile] at *
    omega
  · have hne : i ≠ rootino := by
      have := h.next
      change img.freeinode ≤ i at hi
      omega
    rw [hother i hne]
    exact h.spare i hi

theorem Good.mount (h : img.Good) : img.mount.Calm where
  unique := fun _ _ hi => absurd hi (Nat.lt_irrefl 0)
  loaded := fun _ hi => absurd hi.1 (Nat.lt_irrefl 0)
  owned := by
    have hused : img.mount.Used = (· < img.freeblock) := by
      funext b
      exact propext (decide_eq_true_iff)
    rw [hused]
    exact h.tidy.owned
  mapped := h.mapped
  sized := h.sized

end Image

theorem mkfs_steps {files : List (Name × List UInt8)} {fs : Fs} (hok : mkfs files = .ok fs) :
    ∃ img root img1 img2 img3, Image.zeroes.ialloc .dir = .ok (img, root) ∧
      img.iappend root (Dirent.encode ⟨root, dot⟩) = .ok img1 ∧
      img1.iappend root (Dirent.encode ⟨root, dotdot⟩) = .ok img2 ∧
      files.foldlM Image.addFile img2 = .ok img3 ∧ img3.freeblock ≤ bpb ∧
      fs = img3.fixRoot.mount := by
  obtain ⟨⟨img, root⟩, hroot, hok⟩ := bind_eq_ok.mp hok
  obtain ⟨img1, hdot, hok⟩ := bind_eq_ok.mp hok
  obtain ⟨img2, hdotdot, hok⟩ := bind_eq_ok.mp hok
  obtain ⟨img3, hadd, hok⟩ := bind_eq_ok.mp hok
  dsimp only at hok
  split at hok
  · rename_i hbound
    cases Except.ok.inj hok
    exact ⟨img, root, img1, img2, img3, hroot, hdot, hdotdot, hadd, Nat.le_of_lt hbound, rfl⟩
  · cases hok

theorem calm_mkfs {files : List (Name × List UInt8)} {fs : Fs}
    (hfiles : (files.length + 2) % 32 ≠ 0) (hok : mkfs files = .ok fs) : fs.Calm := by
  obtain ⟨img, root, img1, img2, img3, hroot, hdot, hdotdot, hadd, hbound, rfl⟩ := mkfs_steps hok
  have hle := Image.addFiles_le hadd
  obtain ⟨h0, rfl⟩ := Image.rooted_new hroot
  have hle' := (Image.iappend_frame hdotdot).freeblock
  have h2 := (h0.entry hdot (by omega)).entry hdotdot (by omega)
  exact ((h2.addFiles hadd hbound).fixRoot (by omega)).mount

end Xv6

import Xv6.Fs.Holes

/-! The block map exists twice: `iappend` of `mkfs.c` fills it, `bmap` of `fs.c` follows it.
They agree as far as one level of indirection goes. -/
namespace Xv6

open BlockTree Forest Fallible

def byteOf (dinode : Nat → Dinode) (data : Nat → Block) (inum i : Nat) : UInt8 :=
  (place (i / bsize)).elim 0 fun p =>
    let b := (volumeOf dinode data).block (inum, p.1) p.2
    if b = 0 then 0 else data b (i % bsize)

section

variable {dn dn' : Nat → Dinode} {data data' : Nat → Block} {free free' inum x off : Nat}
  {p : Fin naddrs × List Nat}

theorem byteOf_extends (h : Tidy dn data free)
    (hextends : (volumeOf dn data).Extends (volumeOf dn' data') (· < free) (· < free'))
    (hdata : ∀ inum bn p, place bn = some p →
      (volumeOf dn' data').block (inum, p.1) p.2 ≠ 0 →
      data' ((volumeOf dn' data').block (inum, p.1) p.2) =
        data ((volumeOf dn' data').block (inum, p.1) p.2)) (inum i : Nat) :
    byteOf dn' data' inum i = byteOf dn data inum i := by
  unfold byteOf
  cases hplace : place (i / bsize) with
  | none => rfl
  | some p =>
    dsimp only [Option.elim]
    have hfits : (volumeOf dn data).Fits (inum, p.1) p.2 := place_in_volume hplace
    by_cases hzero : (volumeOf dn data).block (inum, p.1) p.2 = 0
    · rw [if_pos hzero]
      split
      · rfl
      · rename_i hne
        rw [hdata inum _ p hplace hne]
        have hfresh := hextends.fresh _ _ hfits (by rw [hzero]; exact hne)
        rw [h.blank _ (Nat.le_of_not_lt hfresh)]
        rfl
    · have hkept := hextends.keeps _ _ hfits hzero
      rw [if_neg hzero, hdata inum _ p hplace (hkept ▸ hzero), hkept, if_neg hzero]

theorem byteOf_write (src : List UInt8) (h : Tidy dn data free)
    (hplace : place (off / bsize) = some p)
    (hx : (volumeOf dn data).block (inum, p.1) p.2 = x) (hne : x ≠ 0)
    (hlen : off % bsize + src.length ≤ bsize) (inum' i : Nat) :
    byteOf dn (Function.update data x ((data x).overwrite (off % bsize) src)) inum' i =
      if inum' = inum ∧ off ≤ i ∧ i < off + src.length then src.getD (i - off) 0
      else byteOf dn data inum' i := by
  have hblock : ∀ inum' bn q, place bn = some q →
      (volumeOf dn (Function.update data x ((data x).overwrite (off % bsize) src))).block
        (inum', q.1) q.2 = (volumeOf dn data).block (inum', q.1) q.2 := by
    intro inum' bn q hq
    exact h.block_write (place_in_volume hplace) (place_spec hplace).1 hx _ (place_in_volume hq)
  have hinside : off ≤ i ∧ i < off + src.length ↔ i / bsize = off / bsize ∧
      off % bsize ≤ i % bsize ∧ i % bsize < off % bsize + src.length := by
    simp only [bsize] at *
    omega
  unfold byteOf
  cases hq : place (i / bsize) with
  | none =>
    rw [if_neg]
    · rfl
    · rintro ⟨-, hin⟩
      rw [(hinside.mp hin).1, hplace] at hq
      cases hq
  | some q =>
    dsimp only [Option.elim]
    rw [hblock inum' _ q hq]
    by_cases hat : inum' = inum ∧ i / bsize = off / bsize
    · obtain ⟨rfl, hbn⟩ := hat
      rw [hbn, hplace] at hq
      cases hq
      rw [hx, if_neg hne, if_neg hne, Function.update_self, Block.overwrite]
      by_cases hin : off ≤ i ∧ i < off + src.length
      · rw [if_pos (hinside.mp hin).2, if_pos (And.intro rfl hin)]
        congr 1
        simp only [bsize] at *
        omega
      · rw [if_neg fun hrem => hin (hinside.mpr ⟨hbn, hrem⟩), if_neg fun hboth => hin hboth.2]
    · have hout : ¬ (inum' = inum ∧ off ≤ i ∧ i < off + src.length) :=
        fun hboth => hat ⟨hboth.1, (hinside.mp hboth.2).1⟩
      rw [if_neg hout]
      by_cases hzero : (volumeOf dn data).block (inum', q.1) q.2 = 0
      · rw [if_pos hzero, if_pos hzero]
      · rw [if_neg hzero, if_neg hzero, Function.update_of_ne]
        intro heq
        obtain ⟨hfirst, hpath⟩ := h.owned.sound.distinct (inum', q.1) q.2 (inum, p.1) p.2
          (place_in_volume hq) (place_in_volume hplace) hzero (heq.trans hx.symm)
        obtain ⟨rfl, hslot⟩ := Prod.mk.inj hfirst
        rw [Prod.ext hslot hpath] at hq
        exact hat ⟨rfl, place_inj hq hplace⟩

end

namespace Image

variable {img img' : Image} {d d' : Dinode} {dn : Nat → Dinode} {inum fbn x : Nat}

theorem blockFor_data (hok : img.blockFor d fbn = .ok (img', d', x)) (a : Nat)
    (ha : a ≠ d'.addrs 10) : img'.data a = img.data a := by
  unfold blockFor at hok
  split at hok
  · cases hok
  · split at hok
    · dsimp only at hok
      split at hok
      · cases Except.ok.inj hok
        rfl
      · cases Except.ok.inj hok
        rfl
    · generalize hr : (if d.addrs 10 = 0 then
          (({ img with freeblock := img.freeblock + 1 } : Image),
            { d with addrs := Function.update d.addrs 10 img.freeblock })
        else (img, d)) = r at hok
      have hdata : r.1.data = img.data := by
        rw [← hr]
        split <;> rfl
      dsimp only at hok
      split at hok
      · cases hok
      · split at hok
        · cases Except.ok.inj hok
          rw [← hdata]
          exact Function.update_of_ne ha ..
        · cases Except.ok.inj hok
          rw [hdata]

theorem blockFor_ok_iff : (∃ r, img.blockFor d fbn = .ok r) ↔ fbn < ndirect + nindirect := by
  unfold blockFor
  constructor
  · rintro ⟨r, hok⟩
    split at hok
    · cases hok
    · split at hok
      · rename_i hdirect
        omega
      · dsimp only at hok
        split at hok
        · cases hok
        · rename_i hrange
          omega
  · intro hfbn
    rw [if_neg (by simp only [ndirect, nindirect, maxfile] at *; omega)]
    split
    · dsimp only
      split
      · exact ⟨_, rfl⟩
      · exact ⟨_, rfl⟩
    · dsimp only
      rw [if_neg (by omega)]
      -- whether the indirection block is there, and then its entry
      split
      · split <;> exact ⟨_, rfl⟩
      · split <;> exact ⟨_, rfl⟩

theorem blockFor_bytes (h : Tidy (Function.update dn inum d) img.data img.freeblock)
    (harea : inum < inodeArea) (htype : d.type ≠ .free)
    (hok : img.blockFor d fbn = .ok (img', d', x)) (hbound : img'.freeblock ≤ bpb)
    (inum' i : Nat) : byteOf (Function.update dn inum d') img'.data inum' i =
      byteOf (Function.update dn inum d) img.data inum' i := by
  obtain ⟨htidy, hextends, -⟩ := blockFor_spec h harea htype hok hbound
  obtain ⟨-, -, -, addrs, hd'⟩ := blockFor_frame hok
  refine byteOf_extends h hextends (fun inum1 bn p hplace hne => blockFor_data hok _ ?_) inum' i
  -- a block of data is not an indirection block
  intro heq
  have hnode : (volumeOf (Function.update dn inum d') img'.data).block (inum, 10) [] =
      d'.addrs 10 := by
    change (volumeOf (Function.update dn inum d') img'.data).root (inum, 10) = _
    rw [root_update harea (by rw [hd']; exact htype), if_pos rfl]
  obtain ⟨hfirst, hpath⟩ := htidy.owned.sound.distinct (inum1, p.1) p.2 (inum, 10) []
    (place_in_volume hplace) ⟨Nat.zero_le _, by simp⟩ hne (heq.trans hnode.symm)
  have hlen := (place_spec hplace).1
  rw [hpath, (Prod.mk.inj hfirst).2] at hlen
  cases hlen

theorem appendLoop_bytes {fuel off off' : Nat} {p : List UInt8}
    (h : Tidy (Function.update dn inum d) img.data img.freeblock) (harea : inum < inodeArea)
    (htype : d.type ≠ .free) (hfuel : p.length ≤ fuel)
    (hok : appendLoop fuel img d off p = .ok (img', d', off')) (hbound : img'.freeblock ≤ bpb)
    (inum' i : Nat) : byteOf (Function.update dn inum d') img'.data inum' i =
      if inum' = inum ∧ off ≤ i ∧ i < off + p.length then p.getD (i - off) 0
      else byteOf (Function.update dn inum d) img.data inum' i := by
  induction fuel generalizing img d off p with
  | zero =>
    cases Except.ok.inj hok
    rw [if_neg (by omega)]
  | succ fuel ih =>
    unfold appendLoop at hok
    split at hok
    · cases Except.ok.inj hok
      rw [if_neg (by omega)]
    · rename_i hpos
      obtain ⟨⟨img1, d1, x⟩, hblock, hrest⟩ := bind_eq_ok.mp hok
      dsimp only at hrest
      generalize hn : min p.length ((off / bsize + 1) * bsize - off) = n at hrest
      obtain ⟨hnpos, hnlen, hnblock⟩ := append_bounds hpos hn
      have hlen : (p.drop n).length ≤ fuel := by
        rw [List.length_drop]
        omega
      obtain ⟨-, -, -, hle, -⟩ := appendLoop_frame hlen hrest
      have hbytes := blockFor_bytes h harea htype hblock (le_trans hle hbound)
      obtain ⟨-, -, -, addrs, rfl⟩ := blockFor_frame hblock
      obtain ⟨htidy, -, q, hplace, hx, hat⟩ :=
        blockFor_spec h harea htype hblock (le_trans hle hbound)
      have hoff : off - off / bsize * bsize = off % bsize := by
        simp only [bsize]
        omega
      rw [hoff] at hrest
      have htidy2 : Tidy (Function.update dn inum { d with addrs := addrs })
          (img1.wsect x ((img1.data x).overwrite (off % bsize) (p.take n))).data img1.freeblock :=
        (htidy.write (place_in_volume hplace) (place_spec hplace).1 hat).1
      rw [ih htidy2 (by exact htype) hlen hrest]
      have hinblock : off % bsize + (p.take n).length ≤ bsize := by
        rw [List.length_take_of_le hnlen]
        simp only [bsize] at *
        omega
      have hwrite := byteOf_write (p.take n) htidy hplace hat hx hinblock inum' i
      rw [List.length_take_of_le hnlen] at hwrite
      dsimp only [wsect]
      rw [hwrite, hbytes, List.length_drop]
      by_cases hi : inum' = inum
      · by_cases hlow : off ≤ i ∧ i < off + n
        · rw [if_neg (by omega), if_pos ⟨hi, hlow⟩, if_pos (by omega)]
          rw [List.getD_eq_getElem?_getD, List.getElem?_take_of_lt (by omega),
            List.getD_eq_getElem?_getD]
        · by_cases hhigh : off + n ≤ i ∧ i < off + p.length
          · rw [if_pos (by omega), if_pos (by omega), List.getD_eq_getElem?_getD,
              List.getElem?_drop, List.getD_eq_getElem?_getD]
            congr 2
            omega
          · rw [if_neg (by omega), if_neg (by omega), if_neg (by omega)]
      · rw [if_neg (by omega), if_neg (by omega), if_neg (by omega)]

theorem appendLoop_ok_iff {fuel off : Nat} {p : List UInt8} (hfuel : p.length ≤ fuel)
    (hoff : off ≤ (ndirect + nindirect) * bsize) :
    (∃ r, appendLoop fuel img d off p = .ok r) ↔
      off + p.length ≤ (ndirect + nindirect) * bsize := by
  induction fuel generalizing img d off p with
  | zero =>
    obtain rfl : p = [] := List.length_eq_zero_iff.mp (by omega)
    exact ⟨fun _ => hoff, fun _ => ⟨_, rfl⟩⟩
  | succ fuel ih =>
    unfold appendLoop
    split
    · rename_i hnil
      rw [hnil]
      exact ⟨fun _ => hoff, fun _ => ⟨_, rfl⟩⟩
    · rename_i hpos
      dsimp only
      generalize hn : min p.length ((off / bsize + 1) * bsize - off) = n
      obtain ⟨hnpos, hnlen, hnblock⟩ := append_bounds hpos hn
      have hlen : (p.drop n).length = p.length - n := List.length_drop
      constructor
      · rintro ⟨r, hok⟩
        obtain ⟨⟨img1, d1, x⟩, hblock, hrest⟩ := bind_eq_ok.mp hok
        have hfbn := blockFor_ok_iff.mp ⟨_, hblock⟩
        have hnext : off + n ≤ (ndirect + nindirect) * bsize :=
          hnblock.trans (Nat.mul_le_mul_right bsize hfbn)
        have hrest := (ih (by omega) hnext).mp ⟨_, hrest⟩
        omega
      · intro hall
        have hfbn : off / bsize < ndirect + nindirect := by
          simp only [bsize, ndirect, nindirect] at *
          omega
        obtain ⟨⟨img1, d1, x⟩, hblock⟩ := blockFor_ok_iff.mpr hfbn
        have hnext : off + n ≤ (ndirect + nindirect) * bsize :=
          hnblock.trans (Nat.mul_le_mul_right bsize hfbn)
        have hdrop : off + n + (p.drop n).length ≤ (ndirect + nindirect) * bsize := by
          rw [hlen]
          omega
        have hrest : ∀ img2, ∃ r, appendLoop fuel img2 d1 (off + n) (p.drop n) = .ok r :=
          fun img2 => (ih (by omega) hnext).mpr hdrop
        obtain ⟨r, hrest⟩ := hrest (img1.wsect x ((img1.data x).overwrite
          (off - off / bsize * bsize) (p.take n)))
        exact ⟨r, bind_eq_ok.mpr ⟨_, hblock, hrest⟩⟩

theorem iappend_ok_iff {p : List UInt8}
    (hsize : (img.dinode inum).size ≤ (ndirect + nindirect) * bsize) :
    (∃ img', img.iappend inum p = .ok img') ↔
      (img.dinode inum).size + p.length ≤ (ndirect + nindirect) * bsize := by
  rw [← appendLoop_ok_iff le_rfl hsize]
  constructor
  · rintro ⟨img', hok⟩
    obtain ⟨r, hloop, -⟩ := bind_eq_ok.mp hok
    exact ⟨r, hloop⟩
  · rintro ⟨r, hloop⟩
    exact ⟨_, bind_eq_ok.mpr ⟨r, hloop, rfl⟩⟩

def contents (img : Image) (inum : Nat) : List UInt8 :=
  (List.range (img.dinode inum).size).map (byteOf img.dinode img.data inum)

theorem byteOf_size (dn : Nat → Dinode) (data : Nat → Block) (inum n : Nat) (d : Dinode) :
    byteOf (Function.update dn inum { d with size := n }) data =
      byteOf (Function.update dn inum d) data := by
  funext inum' i
  rw [byteOf, byteOf, volume_size]

theorem Good.byteOf_iappend {p : List UInt8} (h : img.Good) (halloc : Allocated img.dinode inum)
    (hok : img.iappend inum p = .ok img') (hbound : img'.freeblock ≤ bpb) (i j : Nat) :
    byteOf img'.dinode img'.data i j =
      if i = inum ∧ (img.dinode inum).size ≤ j ∧ j < (img.dinode inum).size + p.length then
        p.getD (j - (img.dinode inum).size) 0
      else byteOf img.dinode img.data i j := by
  obtain ⟨⟨img1, d1, off⟩, hloop, hok⟩ := bind_eq_ok.mp hok
  cases Except.ok.inj hok
  have hself : Function.update img.dinode inum (img.dinode inum) = img.dinode :=
    Function.update_eq_self inum img.dinode
  have htidy := h.tidy
  rw [← hself] at htidy
  have hbytes := appendLoop_bytes htidy halloc.1 halloc.2 le_rfl hloop hbound
  obtain ⟨-, hdinode, -, -, addrs, rfl⟩ := appendLoop_frame le_rfl hloop
  have hsize := byteOf_size img.dinode img1.data inum off { img.dinode inum with addrs := addrs }
  change byteOf (img1.winode inum _).dinode img1.data i j = _
  rw [winode_dinode, hdinode, hsize, hbytes, hself]

theorem Good.contents_iappend {p : List UInt8} (h : img.Good) (halloc : Allocated img.dinode inum)
    (hok : img.iappend inum p = .ok img') (hbound : img'.freeblock ≤ bpb) :
    img'.contents inum = img.contents inum ++ p ∧
      ∀ i, i ≠ inum → img'.contents i = img.contents i := by
  have hframe := iappend_frame hok
  have hnew := h.byteOf_iappend halloc hok hbound
  constructor
  · rw [contents, contents, hframe.size, List.range_add, List.map_append, List.map_map]
    congr 1
    · apply List.map_congr_left
      intro j hj
      have hj := List.mem_range.mp hj
      rw [hnew, if_neg (by omega)]
    · apply List.ext_getElem
      · rw [List.length_map, List.length_range]
      · intro j hj _
        rw [List.length_map, List.length_range] at hj
        rw [List.getElem_map, List.getElem_range, Function.comp_apply, hnew,
          if_pos ⟨rfl, by omega, by omega⟩, Nat.add_sub_cancel_left, List.getD_eq_getElem _ _ hj]
  · intro i hi
    rw [contents, contents, hframe.others i hi]
    apply List.map_congr_left
    intro j _
    rw [hnew, if_neg fun hboth => hi hboth.1]

inductive Call where
  | ialloc (type : FileType)
  | iappend (inum : Nat) (p : List UInt8)

def perform (img : Image) : Call → Except MkfsFault Image
  | .ialloc type => (img.ialloc type).map Prod.fst
  | .iappend inum p => img.iappend inum p

def build (calls : List Call) : Except MkfsFault Image := calls.foldlM perform zeroes

/-- Files and directories only, and bytes only for inodes that were allocated; `n` is the
next inode. -/
def Proper : Nat → List Call → Prop
  | _, [] => True
  | n, .ialloc type :: rest => (type = .file ∨ type = .dir) ∧ n < inodeArea ∧ Proper (n + 1) rest
  | n, .iappend inum _ :: rest => (1 ≤ inum ∧ inum < n) ∧ Proper n rest

instance : (n : Nat) → (calls : List Call) → Decidable (Proper n calls)
  | _, [] => isTrue trivial
  | n, .ialloc _ :: rest =>
      have := instDecidableProper (n + 1) rest
      inferInstanceAs (Decidable (_ ∧ _ ∧ _))
  | n, .iappend _ _ :: rest =>
      have := instDecidableProper n rest
      inferInstanceAs (Decidable (_ ∧ _))

def appended (inum : Nat) (calls : List Call) : List UInt8 :=
  calls.flatMap fun
    | .ialloc _ => []
    | .iappend i p => if i = inum then p else []

end Image

def Fs.readFile (fs : Fs) (inum off n : Nat) : Except Panic (Io (List UInt8)) := do
  let (fs, ip) ← fs.iget inum
  let fs ← fs.ilock ip
  let (_, answer) ← fs.readi ip off n
  return answer

namespace Image

variable {img img' : Image} {inum : Nat} {calls : List Call}

theorem appended_ialloc (inum : Nat) (type : FileType) (calls : List Call) :
    appended inum (.ialloc type :: calls) = appended inum calls := rfl

theorem appended_iappend (inum i : Nat) (p : List UInt8) (calls : List Call) :
    appended inum (.iappend i p :: calls) = (if i = inum then p else []) ++ appended inum calls :=
  rfl

def withInode (img : Image) (type : FileType) : Image :=
  { img.winode img.freeinode { Dinode.zero with type, nlink := 1 } with
    freeinode := img.freeinode + 1 }

theorem ialloc_of_lt (type : FileType) (h : img.freeinode < inodeArea) :
    img.ialloc type = .ok (img.withInode type, img.freeinode) := by
  unfold Image.ialloc
  dsimp only
  rw [if_neg (Nat.not_le_of_lt h)]
  rfl

theorem withInode_self (img : Image) (type : FileType) :
    (img.withInode type).dinode img.freeinode = { Dinode.zero with type, nlink := 1 } :=
  Function.update_self ..

theorem withInode_of_ne (img : Image) (type : FileType) (h : inum ≠ img.freeinode) :
    (img.withInode type).dinode inum = img.dinode inum := Function.update_of_ne h ..

def Spare (img : Image) : Prop := ∀ inum, img.freeinode ≤ inum → (img.dinode inum).size = 0

theorem Spare.withInode_size (h : img.Spare) (type : FileType) (inum : Nat) :
    ((img.withInode type).dinode inum).size = (img.dinode inum).size := by
  by_cases hi : inum = img.freeinode
  · rw [hi, withInode_self, h _ le_rfl]
    rfl
  · rw [withInode_of_ne img type hi]

theorem Spare.withInode (h : img.Spare) (type : FileType) : (img.withInode type).Spare :=
  fun inum hinum => (h.withInode_size type inum).trans (h inum (Nat.le_of_succ_le hinum))

theorem Appends.spare {n : Nat} (h : Appends img img' inum n) (hinum : inum < img.freeinode)
    (hspare : img.Spare) : img'.Spare := by
  intro i hi
  rw [h.freeinode] at hi
  rw [h.others i (by omega)]
  exact hspare i hi

theorem Appends.sizes {p : List UInt8} (h : Appends img img' inum p.length) (calls : List Call)
    (i : Nat) : (img'.dinode i).size + (appended i calls).length =
      (img.dinode i).size + (appended i (.iappend inum p :: calls)).length := by
  rw [appended_iappend, List.length_append]
  by_cases hi : inum = i
  · subst hi
    rw [h.size, if_pos rfl]
    omega
  · rw [h.others i (Ne.symm hi), if_neg hi, List.length_nil]
    omega

theorem build_ok_iff {n : Nat} (hproper : Proper n calls) (hn : img.freeinode = n)
    (hspare : img.Spare) (hsizes : ∀ inum, (img.dinode inum).size ≤ (ndirect + nindirect) * bsize) :
    (∃ img', calls.foldlM perform img = .ok img') ↔ ∀ inum,
      (img.dinode inum).size + (appended inum calls).length ≤ (ndirect + nindirect) * bsize := by
  induction calls generalizing img n with
  | nil => exact ⟨fun _ => hsizes, fun _ => ⟨img, rfl⟩⟩
  | cons call calls ih =>
    rw [List.foldlM_cons]
    subst hn
    cases call with
    | ialloc type =>
      obtain ⟨-, harea, hproper⟩ := hproper
      rw [perform, ialloc_of_lt type harea]
      have hsize := hspare.withInode_size type
      have hrest : (∃ img', calls.foldlM perform (img.withInode type) = .ok img') ↔ _ :=
        ih hproper rfl (hspare.withInode type) fun inum => (hsize inum).trans_le (hsizes inum)
      refine hrest.trans (forall_congr' fun inum => ?_)
      rw [appended_ialloc, hsize]
    | iappend inum p =>
      obtain ⟨hinum, hproper⟩ := hproper
      constructor
      · rintro ⟨img', hok⟩ i
        obtain ⟨img1, hfirst, hrest⟩ := bind_eq_ok.mp hok
        have hfits := (iappend_ok_iff (hsizes inum)).mp ⟨img1, hfirst⟩
        have hframe := iappend_frame hfirst
        have hsizes1 : ∀ i, (img1.dinode i).size ≤ (ndirect + nindirect) * bsize := by
          intro i
          by_cases hi : i = inum
          · rw [hi, hframe.size]
            exact hfits
          · rw [hframe.others i hi]
            exact hsizes i
        rw [← hframe.sizes]
        exact (ih hproper hframe.freeinode (hframe.spare hinum.2 hspare) hsizes1).mp ⟨img', hrest⟩ i
      · intro hall
        have hfits : (img.dinode inum).size + p.length ≤ (ndirect + nindirect) * bsize := by
          have hself := hall inum
          rw [appended_iappend, if_pos rfl, List.length_append] at hself
          omega
        obtain ⟨img1, hfirst⟩ := (iappend_ok_iff (hsizes inum)).mpr hfits
        have hframe := iappend_frame hfirst
        have hall1 : ∀ i, (img1.dinode i).size + (appended i calls).length ≤
            (ndirect + nindirect) * bsize := by
          intro i
          rw [hframe.sizes]
          exact hall i
        obtain ⟨img', hrest⟩ := (ih hproper hframe.freeinode (hframe.spare hinum.2 hspare)
          fun i => (Nat.le_add_right _ _).trans (hall1 i)).mpr hall1
        exact ⟨img', bind_eq_ok.mpr ⟨img1, hfirst, hrest⟩⟩

theorem build_le (hok : calls.foldlM perform img = .ok img') : img.freeblock ≤ img'.freeblock := by
  induction calls generalizing img with
  | nil =>
    cases Except.ok.inj hok
    exact le_rfl
  | cons call calls ih =>
    rw [List.foldlM_cons] at hok
    obtain ⟨img1, hfirst, hrest⟩ := bind_eq_ok.mp hok
    refine le_trans ?_ (ih hrest)
    cases call with
    | ialloc type =>
      obtain ⟨⟨img2, i⟩, halloc, rfl⟩ := map_eq_ok.mp hfirst
      unfold Image.ialloc at halloc
      dsimp only at halloc
      split at halloc
      · cases halloc
      · cases Except.ok.inj halloc
        exact le_rfl
    | iappend inum p => exact (iappend_frame hfirst).freeblock

def Made (img : Image) : Prop :=
  ∀ inum, 1 ≤ inum → inum < img.freeinode →
    Allocated img.dinode inum ∧ (img.dinode inum).type ≠ .dev

theorem Made.withInode {type : FileType} (h : img.Made) (htype : type = .file ∨ type = .dir)
    (harea : img.freeinode < inodeArea) : (img.withInode type).Made := by
  intro i hlow hhigh
  by_cases hi : i = img.freeinode
  · subst hi
    rw [Allocated, withInode_self]
    rcases htype with rfl | rfl
    · exact ⟨⟨harea, by decide⟩, by decide⟩
    · exact ⟨⟨harea, by decide⟩, by decide⟩
  · have hhigh : i < img.freeinode + 1 := hhigh
    rw [Allocated, withInode_of_ne img type hi]
    exact h i hlow (by omega)

theorem Good.contents_withInode (h : img.Good) (hspare : img.Spare) (type : FileType)
    (inum : Nat) : (img.withInode type).contents inum = img.contents inum := by
  have hvolume : volumeOf (img.withInode type).dinode (img.withInode type).data =
      volumeOf img.dinode img.data :=
    volume_fresh (h.spare img.freeinode le_rfl) fun _ => rfl
  rw [contents, contents, hspare.withInode_size]
  apply List.map_congr_left
  intro i _
  rw [byteOf, byteOf, hvolume]
  rfl

theorem build_contents {n : Nat} (hproper : Proper n calls) (hn : img.freeinode = n)
    (hgood : img.Good) (hspare : img.Spare) (hmade : img.Made)
    (hok : calls.foldlM perform img = .ok img') (hbound : img'.freeblock ≤ bpb) :
    img'.Good ∧ img'.Made ∧
      ∀ inum, img'.contents inum = img.contents inum ++ appended inum calls := by
  induction calls generalizing img n with
  | nil =>
    cases Except.ok.inj hok
    exact ⟨hgood, hmade, fun inum => (List.append_nil _).symm⟩
  | cons call calls ih =>
    rw [List.foldlM_cons] at hok
    obtain ⟨img1, hfirst, hrest⟩ := bind_eq_ok.mp hok
    have hbound1 := (build_le hrest).trans hbound
    subst hn
    cases call with
    | ialloc type =>
      obtain ⟨htype, harea, hproper⟩ := hproper
      rw [perform, ialloc_of_lt type harea] at hfirst
      cases Except.ok.inj hfirst
      have hgood1 := (hgood.ialloc (ialloc_of_lt type harea)).1
      obtain ⟨hgood', hmade', hcontents⟩ := ih hproper rfl hgood1 (hspare.withInode type)
        (hmade.withInode htype harea) hrest
      refine ⟨hgood', hmade', fun inum => ?_⟩
      rw [hcontents, hgood.contents_withInode hspare, appended_ialloc]
    | iappend inum p =>
      obtain ⟨hinum, hproper⟩ := hproper
      have halloc := (hmade inum hinum.1 hinum.2).1
      have hframe := iappend_frame hfirst
      have hmade1 : img1.Made := by
        intro i hlow hhigh
        rw [hframe.freeinode] at hhigh
        refine ⟨hframe.allocated (hmade i hlow hhigh).1, ?_⟩
        by_cases hi : i = inum
        · rw [hi, hframe.type]
          exact (hmade inum hinum.1 hinum.2).2
        · rw [hframe.others i hi]
          exact (hmade i hlow hhigh).2
      obtain ⟨hself, hothers⟩ := hgood.contents_iappend halloc hfirst hbound1
      obtain ⟨hgood', hmade', hcontents⟩ := ih hproper hframe.freeinode
        (hgood.iappend halloc hfirst hbound1) (hframe.spare hinum.2 hspare) hmade1 hrest
      refine ⟨hgood', hmade', fun i => ?_⟩
      rw [hcontents, appended_iappend]
      by_cases hi : inum = i
      · rw [← hi, hself, if_pos rfl, List.append_assoc]
      · rw [hothers i (Ne.symm hi), if_neg hi, List.nil_append]

theorem mount_iget (img : Image) (inum : Nat) : img.mount.iget inum =
    .ok (img.mount.setInode 0
      { inum := inum, ref := 1, valid := false, din := Dinode.zero }, 0) := by
  unfold Fs.iget
  rw [List.find?_eq_none.mpr fun ip _ => by simp [mount]]
  rfl

theorem mount_ilock {fs : Fs} (halloc : Allocated img.dinode inum)
    (hok : img.mount.iget inum = .ok (fs, 0)) : fs.ilock 0 =
      .ok (fs.setInode 0 { inum := inum, ref := 1, valid := true, din := img.dinode inum }) := by
  rw [mount_iget] at hok
  cases Except.ok.inj hok
  unfold Fs.ilock
  dsimp only
  simp only [Fs.setInode_self]
  rw [if_neg (by decide), if_neg (by decide), if_neg (Nat.not_le_of_lt halloc.1)]
  exact if_neg halloc.2

theorem Good.readFile (h : img.Good) (halloc : Allocated img.dinode inum)
    (htype : (img.dinode inum).type ≠ .dev) {off n : Nat} (hoff : off ≤ (img.contents inum).length)
    (hn : off + n < 4294967296) :
    img.mount.readFile inum off n = .ok (.done (((img.contents inum).drop off).take n)) := by
  have higet := mount_iget img inum
  have hilock := mount_ilock halloc higet
  generalize hfs1 : img.mount.setInode 0
    { inum := inum, ref := 1, valid := false, din := Dinode.zero } = fs1 at higet hilock
  generalize hfs2 : fs1.setInode 0
    { inum := inum, ref := 1, valid := true, din := img.dinode inum } = fs2 at hilock
  obtain ⟨hholding, -, hloaded⟩ := (h.mount.holding_nil.iget higet).1.ilock hilock
  have hcalm := hholding.toCalm
  obtain ⟨a, hread⟩ := hcalm.readsOnly 0 off n hloaded
  have hanswer := (Fs.readi_spec (hcalm.sound hloaded) hread).2
  have hentry :
      fs2.icache 0 = { inum := inum, ref := 1, valid := true, din := img.dinode inum } := by
    rw [← hfs2, Fs.setInode_self]
  have hdin : fs2.din 0 = img.dinode inum := by rw [Fs.din, hentry]
  have hbyte : (fs2.file 0).byte = byteOf img.dinode img.data inum := by
    funext i
    have hpart := hcalm.part hloaded
    rw [hentry] at hpart
    simp only [Fs.file, Fs.byteAt, byteOf, hpart.block]
    rw [← hfs2, ← hfs1]
    rfl
  have hsize : (img.contents inum).length = (img.dinode inum).size := by
    rw [contents, List.length_map, List.length_range]
  have hdone : a = .done (((img.contents inum).drop off).take n) := by
    rw [hanswer, FileState.readi, if_neg (show (fs2.file 0).type ≠ .dev by
      rw [Fs.file, hdin]; exact htype)]
    have hlen : (fs2.file 0).size = (img.dinode inum).size := by rw [Fs.file, hdin]
    rw [hlen, if_neg (by rw [Word.u32_eq_self hn]; omega)]
    congr 1
    rw [FileState.bytes, hbyte]
    apply List.ext_getElem
    · rw [List.length_map, List.length_range, List.length_take, List.length_drop, hsize]
      split <;> omega
    · intro i hi hi'
      rw [List.getElem_map, List.getElem_range, List.getElem_take, List.getElem_drop]
      unfold contents
      rw [List.getElem_map, List.getElem_range]
  rw [Fs.readFile, higet]
  simp only [bind, Except.bind, hilock, hread, hdone]
  rfl

/-- The kernel reads from an image that passes the last assertion of `mkfs` what the calls
have appended. -/
def ReadsBack (img : Image) (calls : List Call) : Prop :=
  img.freeblock < bpb → ∀ inum, 1 ≤ inum → inum < img.freeinode →
    ∀ off n, off ≤ (appended inum calls).length → off + n < 4294967296 →
      img.mount.readFile inum off n = .ok (.done (((appended inum calls).drop off).take n))

/-- `mkfs` and the kernel agree on the files of at most `NDIRECT + NINDIRECT` blocks. For a
longer one `iappend` leaves its array. -/
theorem layouts_agree {calls : List Call} (hproper : Proper 1 calls) :
    (∃ img, build calls = .ok img ∧ img.ReadsBack calls) ↔
      ∀ inum, (appended inum calls).length ≤ (ndirect + nindirect) * bsize := by
  have hspare : zeroes.Spare := fun _ _ => rfl
  have hsizes : ∀ inum, (zeroes.dinode inum).size ≤ (ndirect + nindirect) * bsize :=
    fun _ => Nat.zero_le _
  have hbuild := build_ok_iff hproper rfl hspare hsizes
  have hempty : ∀ inum, (zeroes.dinode inum).size + (appended inum calls).length =
      (appended inum calls).length := fun inum => Nat.zero_add _
  simp only [hempty] at hbuild
  refine Iff.trans ⟨fun ⟨img, hok, _⟩ => ⟨img, hok⟩, fun ⟨img, hok⟩ => ⟨img, hok, ?_⟩⟩ hbuild
  intro hbound inum hlow hhigh off n hoff hn
  have hmade : zeroes.Made := fun i hlow hhigh => absurd hlow (Nat.not_le_of_lt hhigh)
  obtain ⟨hgood, hmade, hcontents⟩ :=
    build_contents hproper rfl good_zeroes hspare hmade hok hbound.le
  have hsame : img.contents inum = appended inum calls := hcontents inum
  obtain ⟨halloc, htype⟩ := hmade inum hlow hhigh
  rw [← hsame] at hoff ⊢
  exact hgood.readFile halloc htype hoff hn

/-- A directory and a file whose parts come in turn. -/
theorem layouts_agree_mixed :
    let calls : List Call := [.ialloc .dir, .iappend 1 (List.replicate 16 1), .ialloc .file,
      .iappend 2 (List.replicate 600 2), .iappend 1 (List.replicate 16 3), .iappend 2 [4]]
    Proper 1 calls ∧ ∃ img, build calls = .ok img ∧ img.ReadsBack calls := by
  intro calls
  have hproper : Proper 1 calls := by decide
  refine ⟨hproper, (layouts_agree hproper).mpr fun inum => ?_⟩
  simp only [calls, appended_ialloc, appended_iappend, List.length_append]
  split_ifs <;> simp only [List.length_replicate, List.length_cons, List.length_nil, appended,
    List.flatMap_nil] <;> decide

theorem blockFor_error {fault : MkfsFault} (h : fbn < maxfile)
    (herr : img.blockFor d fbn = .error fault) : fault = .indirectBounds := by
  unfold blockFor at herr
  rw [if_neg (Nat.not_le_of_lt h)] at herr
  split at herr
  · dsimp only at herr
    split at herr
    · cases herr
    · cases herr
  · dsimp only at herr
    split at herr
    · cases herr
      rfl
    · split at herr
      · split at herr <;> cases herr
      · split at herr <;> cases herr

theorem appendLoop_error {fuel off : Nat} {p : List UInt8} {fault : MkfsFault}
    (h : off + p.length ≤ maxfile * bsize) (herr : appendLoop fuel img d off p = .error fault) :
    fault = .indirectBounds := by
  induction fuel generalizing img d off p with
  | zero => cases herr
  | succ fuel ih =>
    unfold appendLoop at herr
    split at herr
    · cases herr
    · rename_i hpos
      have hfbn : off / bsize < maxfile := by
        simp only [bsize] at *
        omega
      rcases bind_eq_error.mp herr with hblock | ⟨⟨img1, d1, x⟩, -, hrest⟩
      · exact blockFor_error hfbn hblock
      · dsimp only at hrest
        apply ih _ hrest
        rw [List.length_drop]
        omega

theorem build_overrun {p : List UInt8} (hlow : (ndirect + nindirect) * bsize < p.length)
    (hhigh : p.length ≤ maxfile * bsize) :
    build [.ialloc .file, .iappend 1 p] = .error .indirectBounds := by
  have hsize : ((zeroes.withInode .file).dinode 1).size = 0 := rfl
  have hbuild : build [.ialloc .file, .iappend 1 p] = (zeroes.withInode .file).iappend 1 p := by
    rw [build, List.foldlM_cons, perform, ialloc_of_lt .file (by decide)]
    change List.foldlM perform (zeroes.withInode .file) [.iappend 1 p] = _
    rw [List.foldlM_cons]
    exact bind_pure _
  rw [hbuild]
  cases happend : (zeroes.withInode .file).iappend 1 p with
  | ok img =>
    have hover := (iappend_ok_iff (by rw [hsize]; exact Nat.zero_le _)).mp ⟨img, happend⟩
    rw [hsize] at hover
    omega
  | error fault =>
    rcases bind_eq_error.mp happend with hloop | ⟨r, -, hrest⟩
    · rw [appendLoop_error (by rw [hsize, Nat.zero_add]; exact hhigh) hloop]
    · cases hrest

/-- A file of 138 blocks and a byte. -/
theorem indirect_overrun : ∃ p : List UInt8, p.length = 70657 ∧ p.length ≤ maxfile * bsize ∧
    Proper 1 [.ialloc .file, .iappend 1 p] ∧
    build [.ialloc .file, .iappend 1 p] = .error .indirectBounds := by
  have hlen : (List.replicate 70657 (7 : UInt8)).length = 70657 := List.length_replicate
  have hhigh : (List.replicate 70657 (7 : UInt8)).length ≤ maxfile * bsize := by
    rw [hlen]
    decide
  refine ⟨List.replicate 70657 7, hlen, hhigh, by decide, build_overrun ?_ hhigh⟩
  rw [hlen]
  decide

end Image

end Xv6

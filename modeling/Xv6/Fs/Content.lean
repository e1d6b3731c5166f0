import Xv6.Fs.Tree
import Mathlib.Data.List.GetD

/-! The contents of a file. `FileState` is a file without its blocks: its size and its
bytes. `readi` and `writei` act on the bytes as if there were no block map, and the blocks
that a read adds in passing do not show. -/
namespace Xv6

open Word BlockTree Fallible

structure FileState where
  type : FileType
  major : Int
  size : Nat
  byte : Nat → UInt8

namespace FileState

def bytes (f : FileState) (off n : Nat) : List UInt8 :=
  (List.range n).map fun i => f.byte (off + i)

@[simp] theorem length_bytes (f : FileState) (off n : Nat) : (f.bytes off n).length = n := by
  simp [bytes]

def readi (f : FileState) (off n : Nat) : Io (List UInt8) :=
  if f.type = .dev then if Fs.HasDriver f.major then .device else .fail
  else if f.size < off ∨ u32 (off + n) < off then .fail
  else .done (f.bytes off (if f.size < off + n then f.size - off else n))

def write (f : FileState) (src : List UInt8) (off : Nat) : FileState :=
  { f with byte := fun i =>
      if off ≤ i ∧ i < off + src.length then src.getD (i - off) 0 else f.byte i }

def writei (f : FileState) (src : List UInt8) (off : Nat) : FileState × Io Nat :=
  let n := src.length
  if f.type = .dev then (f, if Fs.HasDriver f.major then .device else .fail)
  else if f.size < off ∨ u32 (off + n) < off then (f, .fail)
  else if maxfile * bsize < off + n then (f, .fail)
  else ({ f.write src off with
    size := if 0 < n ∧ f.size < off + n then off + n else f.size }, .done n)

theorem write_nil (f : FileState) (off : Nat) : f.write [] off = f := by
  unfold write
  congr 1
  funext i
  rw [if_neg (by simp only [List.length_nil]; omega)]

theorem write_append (f : FileState) (src src' : List UInt8) (off : Nat) :
    (f.write src off).write src' (off + src.length) = f.write (src ++ src') off := by
  unfold write
  congr 1
  funext i
  dsimp only
  rw [List.length_append]
  by_cases hsrc : off ≤ i ∧ i < off + src.length
  · rw [if_neg (by omega), if_pos hsrc, if_pos (by omega),
      List.getD_append _ _ _ _ (by omega)]
  · by_cases hsrc' : off + src.length ≤ i ∧ i < off + src.length + src'.length
    · rw [if_pos hsrc', if_pos (by omega), List.getD_append_right _ _ _ _ (by omega)]
      congr 1
      omega
    · rw [if_neg hsrc', if_neg hsrc, if_neg (by omega)]

theorem bytes_append (f : FileState) (off m n : Nat) :
    f.bytes off m ++ f.bytes (off + m) n = f.bytes off (m + n) := by
  unfold bytes
  rw [List.range_add, List.map_append, List.map_map]
  congr 1
  apply List.map_congr_left
  intro i _
  rw [Function.comp_apply, Nat.add_assoc]

end FileState

namespace Fs

variable {fs fs' : Fs} {ip : Iref}

def file (fs : Fs) (ip : Iref) : FileState where
  type := (fs.din ip).type
  major := (fs.din ip).major
  size := (fs.din ip).size
  byte i := (place (i / bsize)).elim 0 fun p => fs.byteAt ip p.1 p.2 (i % bsize)

theorem file_byte {bn : Nat} {p : Fin naddrs × List Nat} (h : place bn = some p) {i : Nat}
    (hi : i / bsize = bn) : (fs.file ip).byte i = fs.byteAt ip p.1 p.2 (i % bsize) := by
  simp only [file, hi, h, Option.elim]

theorem Touches.fields (h : Touches fs fs' ip) : (fs'.din ip).type = (fs.din ip).type ∧
    (fs'.din ip).major = (fs.din ip).major ∧ (fs'.din ip).size = (fs.din ip).size := by
  obtain ⟨addrs, haddrs⟩ := h.same
  simp [din, haddrs]

theorem Fills.file (h : Fills fs fs' ip) : fs'.file ip = fs.file ip := by
  obtain ⟨htype, hmajor, hsize⟩ := h.fields
  unfold Fs.file
  rw [htype, hmajor, hsize]
  congr 1
  funext i
  cases hplace : place (i / bsize) with
  | none => rfl
  | some p => exact h.bytes p.1 p.2 _ (place_in_tree fs ip hplace) (place_spec hplace).1

theorem readLoop_spec {fuel off n : Nat} {bytes : List UInt8} (h : fs.Sound ip) (hn : n ≤ fuel)
    (hok : readLoop ip fuel fs off n = .ok (fs', bytes)) :
    Fills fs fs' ip ∧ bytes = (fs.file ip).bytes off n := by
  induction fuel generalizing fs off n bytes with
  | zero =>
    cases Except.ok.inj hok
    obtain rfl : n = 0 := by omega
    exact ⟨h.fills_refl, rfl⟩
  | succ fuel ih =>
    unfold readLoop at hok
    split at hok
    · rename_i hzero
      cases Except.ok.inj hok
      rw [hzero]
      exact ⟨h.fills_refl, rfl⟩
    · rename_i hpos
      obtain ⟨⟨fs1, addr⟩, hbmap, hok⟩ := bind_eq_ok.mp hok
      obtain ⟨⟨fs2, rest⟩, hrest, hok⟩ := bind_eq_ok.mp hok
      cases Except.ok.inj hok
      obtain ⟨p, hplace, hfills, hblock, hne⟩ := bmap_spec h hbmap
      have hm : 0 < min n (bsize - off % bsize) := by
        simp only [bsize]
        omega
      obtain ⟨hfills', rfl⟩ := ih hfills.sound (by omega) hrest
      refine ⟨hfills.trans h.zero hfills', ?_⟩
      rw [hfills.file]
      have hsplit : n = min n (bsize - off % bsize) + (n - min n (bsize - off % bsize)) := by
        omega
      conv_rhs => rw [hsplit, ← FileState.bytes_append]
      congr 1
      -- the bytes of one block
      unfold Block.slice FileState.bytes
      apply List.map_congr_left
      intro i hi
      have hi := List.mem_range.mp hi
      have hbn : (off + i) / bsize = off / bsize := by
        simp only [bsize] at *
        omega
      have hrem : (off + i) % bsize = off % bsize + i := by
        simp only [bsize] at *
        omega
      rw [← hfills.file, file_byte hplace hbn, byteAt, hblock, if_neg hne, hrem]

theorem readi_spec {off n : Nat} {a : Io (List UInt8)} (h : fs.Sound ip)
    (hok : fs.readi ip off n = .ok (fs', a)) :
    Fills fs fs' ip ∧ a = (fs.file ip).readi off n := by
  unfold readi at hok
  unfold FileState.readi
  dsimp only at hok
  split at hok
  · rename_i hdev
    cases Except.ok.inj hok
    rw [if_pos (show (fs.file ip).type = .dev from hdev)]
    exact ⟨h.fills_refl, rfl⟩
  · rename_i hdev
    rw [if_neg (show (fs.file ip).type ≠ .dev from hdev)]
    split at hok
    · rename_i hrange
      cases Except.ok.inj hok
      rw [if_pos (show (fs.file ip).size < off ∨ u32 (off + n) < off from hrange)]
      exact ⟨h.fills_refl, rfl⟩
    · rename_i hrange
      obtain ⟨⟨fs1, bytes⟩, hloop, hok⟩ := bind_eq_ok.mp hok
      cases Except.ok.inj hok
      rw [if_neg (show ¬ ((fs.file ip).size < off ∨ u32 (off + n) < off) from hrange)]
      obtain ⟨hfills, rfl⟩ := readLoop_spec h le_rfl hloop
      exact ⟨hfills, rfl⟩

theorem Sound.touches_data {bn : Nat} {p : Fin naddrs × List Nat} {block : Block}
    (h : fs.Sound ip) (hplace : place bn = some p)
    (hbitmap : fs'.bitmap = fs.bitmap) (hdinode : fs'.dinode = fs.dinode)
    (hicache : fs'.icache = fs.icache)
    (hdata : fs'.data = Function.update fs.data ((fs.tree ip).block p.1 p.2) block) :
    Touches fs fs' ip ∧
      ∀ slot js, (fs.tree ip).Fits slot js →
        (fs'.tree ip).block slot js = (fs.tree ip).block slot js := by
  have hfits := place_in_tree fs ip hplace
  have hblock : ∀ slot js, (fs.tree ip).Fits slot js →
      (fs'.tree ip).block slot js = (fs.tree ip).block slot js := by
    intro slot js
    apply Forest.Sound.block_leaf h hfits (place_spec hplace).1
    · rfl
    · rfl
    · rw [tree, din, hicache]
      rfl
    · intro a ha
      funext k
      rw [tree, hdata]
      dsimp only
      rw [Function.update_of_ne ha]
      rfl
  have hused : ∀ x, fs'.Used x ↔ fs.Used x := by
    intro x
    rw [Used, Used, hbitmap]
  have hcongr : fs'.Sound ip ∧ (fs.tree ip).Extends (fs'.tree ip) fs.Used fs'.Used :=
    Forest.Sound.congr h rfl rfl hblock hused
  obtain ⟨hsound, hextends⟩ := hcongr
  refine ⟨⟨hsound, hextends, hdinode, fun i _ => by rw [hicache],
    ⟨(fs.din ip).addrs, by rw [hicache]; rfl⟩, fun a _ hnot => ?_,
    fun _ _ => by rw [hbitmap]⟩, hblock⟩
  rw [hdata, Function.update_of_ne]
  intro heq
  exact hnot p.1 p.2 hfits ((hblock _ _ hfits).trans heq.symm)

def writeBlock (fs : Fs) (addr start : Nat) (src : List UInt8) : Fs :=
  logWrite { fs with
    data := Function.update fs.data addr ((fs.data addr).overwrite start src) } addr

theorem writeBlock_spec {off addr : Nat} {src : List UInt8} {p : Fin naddrs × List Nat}
    (h : fs.Sound ip) (hplace : place (off / bsize) = some p)
    (hblock : (fs.tree ip).block p.1 p.2 = addr) (hne : addr ≠ 0)
    (hfits : off % bsize + src.length ≤ bsize) :
    Touches fs (fs.writeBlock addr (off % bsize) src) ip ∧
    (∀ slot js, (fs.tree ip).Fits slot js →
      ((fs.writeBlock addr (off % bsize) src).tree ip).block slot js =
        (fs.tree ip).block slot js) ∧
    (fs.writeBlock addr (off % bsize) src).file ip = (fs.file ip).write src off := by
  generalize hfs' : fs.writeBlock addr (off % bsize) src = fs'
  have hdata : fs'.data =
      Function.update fs.data addr ((fs.data addr).overwrite (off % bsize) src) := by
    rw [← hfs', writeBlock, logWrite_data]
  have hbitmap : fs'.bitmap = fs.bitmap := by rw [← hfs', writeBlock, logWrite_bitmap]
  have hdinode : fs'.dinode = fs.dinode := by rw [← hfs', writeBlock, logWrite_dinode]
  have hicache : fs'.icache = fs.icache := by rw [← hfs', writeBlock, logWrite_icache]
  obtain ⟨htouches, hblocks⟩ := h.touches_data hplace hbitmap hdinode hicache
    (hblock.symm ▸ hdata)
  refine ⟨htouches, hblocks, ?_⟩
  obtain ⟨htype, hmajor, hsize⟩ := htouches.fields
  unfold file FileState.write
  rw [htype, hmajor, hsize]
  congr 1
  funext i
  dsimp only
  have hinside : off ≤ i ∧ i < off + src.length ↔ i / bsize = off / bsize ∧
      off % bsize ≤ i % bsize ∧ i % bsize < off % bsize + src.length := by
    simp only [bsize] at *
    omega
  cases hplace' : place (i / bsize) with
  | none =>
    rw [if_neg]
    · rfl
    · intro hin
      rw [(hinside.mp hin).1, hplace] at hplace'
      cases hplace'
  | some q =>
    have hq := place_in_tree fs ip hplace'
    simp only [Option.elim, byteAt, hblocks q.1 q.2 hq]
    by_cases hbn : i / bsize = off / bsize
    · rw [hbn, hplace] at hplace'
      cases hplace'
      rw [hblock, if_neg hne, if_neg hne, hdata, Function.update_self, Block.overwrite]
      by_cases hin : off ≤ i ∧ i < off + src.length
      · rw [if_pos hin, if_pos (hinside.mp hin).2]
        congr 1
        simp only [bsize] at *
        omega
      · rw [if_neg hin, if_neg fun hrem => hin (hinside.mpr ⟨hbn, hrem⟩)]
    · rw [if_neg fun hin => hbn (hinside.mp hin).1]
      by_cases hzero : (fs.tree ip).block q.1 q.2 = 0
      · rw [if_pos hzero, if_pos hzero]
      · have hother : (fs.tree ip).block q.1 q.2 ≠ addr := by
          intro heq
          obtain ⟨h1, h2⟩ := h.distinct q.1 q.2 p.1 p.2 hq
            (place_in_tree fs ip hplace) hzero (heq.trans hblock.symm)
          rw [Prod.ext h1 h2] at hplace'
          exact hbn (place_inj hplace' hplace)
        rw [if_neg hzero, if_neg hzero, hdata, Function.update_of_ne hother]

theorem turn_bounds {off n m : Nat} (hn : n ≠ 0) (hm : min n (bsize - off % bsize) = m) :
    0 < m ∧ m ≤ n ∧ off % bsize + m ≤ bsize := by
  simp only [bsize] at *
  omega

theorem writeLoop_cases {fuel off : Nat} {src : List UInt8}
    (hok : writeLoop ip (fuel + 1) fs off src = .ok fs') :
    fs' = fs ∧ src = [] ∨ ∃ fs1 addr m, fs.bmap ip (off / bsize) = .ok (fs1, addr) ∧
      min src.length (bsize - off % bsize) = m ∧ 0 < m ∧ m ≤ src.length ∧
      off % bsize + (src.take m).length ≤ bsize ∧
      writeLoop ip fuel (fs1.writeBlock addr (off % bsize) (src.take m)) (off + m)
        (src.drop m) = .ok fs' := by
  unfold writeLoop at hok
  split at hok
  · rename_i hnil
    cases Except.ok.inj hok
    exact .inl ⟨rfl, List.length_eq_zero_iff.mp hnil⟩
  · rename_i hpos
    obtain ⟨⟨fs1, addr⟩, hbmap, hrest⟩ := bind_eq_ok.mp hok
    obtain ⟨hmpos, hmlen, hmfits⟩ := turn_bounds hpos rfl
    refine .inr ⟨fs1, addr, _, hbmap, rfl, hmpos, hmlen, ?_, hrest⟩
    rw [List.length_take_of_le hmlen]
    exact hmfits

theorem writeLoop_spec {fuel off : Nat} {src : List UInt8} (h : fs.Sound ip)
    (hfuel : src.length ≤ fuel) (hok : writeLoop ip fuel fs off src = .ok fs') :
    Touches fs fs' ip ∧ fs'.file ip = (fs.file ip).write src off := by
  induction fuel generalizing fs off src with
  | zero =>
    cases Except.ok.inj hok
    obtain rfl : src = [] := List.length_eq_zero_iff.mp (by omega)
    exact ⟨h.fills_refl.toTouches, (FileState.write_nil _ _).symm⟩
  | succ fuel ih =>
    rcases writeLoop_cases hok with
      ⟨rfl, rfl⟩ | ⟨fs1, addr, m, hbmap, -, hmpos, hmlen, hfits, hrest⟩
    · exact ⟨h.fills_refl.toTouches, (FileState.write_nil _ _).symm⟩
    · obtain ⟨p, hplace, hfills, hblock, hne⟩ := bmap_spec h hbmap
      obtain ⟨htouches, -, hfile⟩ := writeBlock_spec hfills.sound hplace hblock hne hfits
      obtain ⟨hlater, hfile'⟩ := ih htouches.sound (by rw [List.length_drop]; omega) hrest
      refine ⟨(hfills.toTouches.trans h.zero htouches).trans h.zero hlater, ?_⟩
      rw [hfile', hfile, hfills.file]
      have happend := FileState.write_append (fs.file ip) (src.take m) (src.drop m) off
      rwa [List.length_take_of_le hmlen, List.take_append_drop] at happend

theorem writei_steps {off : Nat} {src : List UInt8} {a : Io Nat}
    (hok : fs.writei ip src off = .ok (fs', a)) :
    fs' = fs ∧ (fs.file ip).writei src off = (fs.file ip, a) ∨
    ∃ fs1, off ≤ (fs.din ip).size ∧ off + src.length ≤ maxfile * bsize ∧
      writeLoop ip src.length fs off src = .ok fs1 ∧
      (fs.file ip).writei src off = ({ (fs.file ip).write src off with
        size := if 0 < src.length ∧ (fs.file ip).size < off + src.length then off + src.length
          else (fs.file ip).size }, a) ∧
      fs' = if 0 < src.length ∧ (fs1.din ip).size < off + src.length then
        (fs1.setDin ip { fs1.din ip with size := off + src.length }).iupdate ip else fs1 := by
  unfold writei at hok
  unfold FileState.writei
  dsimp only at hok ⊢
  split at hok
  · rename_i hdev
    cases Except.ok.inj hok
    rw [if_pos (show (fs.file ip).type = .dev from hdev)]
    exact .inl ⟨rfl, rfl⟩
  · rename_i hdev
    rw [if_neg (show (fs.file ip).type ≠ .dev from hdev)]
    split at hok
    · rename_i hrange
      cases Except.ok.inj hok
      rw [if_pos (show (fs.file ip).size < off ∨ u32 (off + src.length) < off from hrange)]
      exact .inl ⟨rfl, rfl⟩
    · rename_i hrange
      rw [if_neg (show ¬ ((fs.file ip).size < off ∨ u32 (off + src.length) < off) from hrange)]
      split at hok
      · rename_i hmax
        cases Except.ok.inj hok
        rw [if_pos hmax]
        exact .inl ⟨rfl, rfl⟩
      · rename_i hmax
        rw [if_neg hmax]
        obtain ⟨fs1, hloop, hok⟩ := bind_eq_ok.mp hok
        refine .inr ⟨fs1, by omega, by omega, hloop, ?_⟩
        split at hok
        · rename_i hgrow
          cases Except.ok.inj hok
          exact ⟨rfl, by rw [if_pos hgrow]⟩
        · rename_i hgrow
          cases Except.ok.inj hok
          exact ⟨rfl, by rw [if_neg hgrow]⟩

theorem store_same (fs : Fs) (ip : Iref) (d : Dinode) :
    ((fs.setDin ip d).iupdate ip).bitmap = fs.bitmap ∧
    ((fs.setDin ip d).iupdate ip).data = fs.data ∧
    ((fs.setDin ip d).iupdate ip).icache =
      Function.update fs.icache ip { fs.icache ip with din := d } ∧
    ((fs.setDin ip d).iupdate ip).dinode =
      Function.update fs.dinode (fs.icache ip).inum d := by
  simp [iupdate, setDin, setInode, din]

@[simp] theorem store_din (fs : Fs) (ip : Iref) (d : Dinode) :
    ((fs.setDin ip d).iupdate ip).din ip = d := by
  rw [din, (store_same fs ip d).2.2.1, Function.update_self]

theorem store_tree {d : Dinode} (h : d.addrs = (fs.din ip).addrs) :
    ((fs.setDin ip d).iupdate ip).tree ip = fs.tree ip ∧
    ((fs.setDin ip d).iupdate ip).Used = fs.Used := by
  obtain ⟨hbitmap, hdata, -, -⟩ := store_same fs ip d
  constructor
  · rw [tree, store_din, h, hdata]
    rfl
  · funext b
    rw [Used, hbitmap]
    rfl

theorem setSize_spec (h : fs.Sound ip) (size : Nat) :
    let fs' := (fs.setDin ip { fs.din ip with size := size }).iupdate ip
    fs'.Sound ip ∧ fs'.file ip = { fs.file ip with size := size } := by
  intro fs'
  obtain ⟨-, hdata, -, -⟩ := store_same fs ip { fs.din ip with size := size }
  obtain ⟨htree, hused⟩ := store_tree (d := { fs.din ip with size := size }) rfl
  constructor
  · rw [Sound, htree, hused]
    exact h
  · unfold file byteAt
    rw [htree, store_din, hdata]

/-- Entry `ip` keeps its number, its references and whether it is loaded, and the other
entries of the cache are left alone. -/
structure SameEntry (fs fs' : Fs) (ip : Iref) : Prop where
  others : ∀ i, i ≠ ip → fs'.icache i = fs.icache i
  inum : (fs'.icache ip).inum = (fs.icache ip).inum
  ref : (fs'.icache ip).ref = (fs.icache ip).ref
  valid : (fs'.icache ip).valid = (fs.icache ip).valid

theorem SameEntry.refl (fs : Fs) (ip : Iref) : SameEntry fs fs ip :=
  ⟨fun _ _ => rfl, rfl, rfl, rfl⟩

theorem SameEntry.trans {fs'' : Fs} (h : SameEntry fs fs' ip) (h' : SameEntry fs' fs'' ip) :
    SameEntry fs fs'' ip :=
  ⟨fun i hi => (h'.others i hi).trans (h.others i hi), h'.inum.trans h.inum, h'.ref.trans h.ref,
    h'.valid.trans h.valid⟩

theorem Touches.sameEntry (h : Touches fs fs' ip) : SameEntry fs fs' ip := by
  obtain ⟨addrs, haddrs⟩ := h.same
  exact ⟨h.others, by rw [haddrs], by rw [haddrs], by rw [haddrs]⟩

theorem store_sameEntry (fs : Fs) (ip : Iref) (d : Dinode) :
    SameEntry fs ((fs.setDin ip d).iupdate ip) ip := by
  obtain ⟨-, -, hicache, -⟩ := store_same fs ip d
  refine ⟨fun i hi => ?_, ?_, ?_, ?_⟩
  · rw [hicache, Function.update_of_ne hi]
  · rw [hicache, Function.update_self]
  · rw [hicache, Function.update_self]
  · rw [hicache, Function.update_self]

theorem writei_spec {off : Nat} {src : List UInt8} {a : Io Nat} (h : fs.Sound ip)
    (hok : fs.writei ip src off = .ok (fs', a)) :
    fs'.Sound ip ∧ SameEntry fs fs' ip ∧
      (fs.file ip).writei src off = (fs'.file ip, a) := by
  obtain ⟨rfl, hwrite⟩ | ⟨fs1, -, -, hloop, hwrite, hfs'⟩ := writei_steps hok
  · exact ⟨h, .refl _ _, hwrite⟩
  · obtain ⟨htouches, hfile⟩ := writeLoop_spec h le_rfl hloop
    have hsize : (fs1.din ip).size = (fs.file ip).size := htouches.fields.2.2
    rw [hsize] at hfs'
    by_cases hgrow : 0 < src.length ∧ (fs.file ip).size < off + src.length
    · rw [if_pos hgrow] at hfs' hwrite
      obtain ⟨hsound, hfile'⟩ := setSize_spec htouches.sound (off + src.length)
      subst hfs'
      refine ⟨hsound, htouches.sameEntry.trans (store_sameEntry _ _ _), ?_⟩
      rw [hwrite, hfile', hfile]
    · rw [if_neg hgrow] at hfs' hwrite
      subst hfs'
      refine ⟨htouches.sound, htouches.sameEntry, ?_⟩
      rw [hwrite, hfile]
      rfl

end Fs

end Xv6

import Xv6.Fs.Clear
import Xv6.Fs.Logged

/-! Reading back what was written. With room for the blocks that are missing `writei` gets
through, `readi` then finds the new bytes among the old ones, and no other file changes. -/
namespace Xv6

open Word BlockTree Fallible

namespace FileState

variable {f : FileState} {off n : Nat} {src : List UInt8}

def content (f : FileState) : List UInt8 := f.bytes 0 f.size

@[simp] theorem length_content (f : FileState) : f.content.length = f.size := length_bytes ..

theorem getElem_bytes {i : Nat} (hi : i < (f.bytes off n).length) :
    (f.bytes off n)[i] = f.byte (off + i) := by
  simp [bytes]

theorem bytes_eq_content (hoff : off ≤ f.size) :
    f.bytes off (if f.size < off + n then f.size - off else n) = (f.content.drop off).take n := by
  apply List.ext_getElem
  · rw [length_bytes, List.length_take, List.length_drop, length_content]
    split <;> omega
  · intro i hi hi'
    simp [getElem_bytes, content]

theorem readi_eq_content (hdev : f.type ≠ .dev) : f.readi off n =
    if f.size < off ∨ u32 (off + n) < off then .fail else .done ((f.content.drop off).take n) := by
  unfold readi
  rw [if_neg hdev]
  split
  · rfl
  · rename_i hrange
    rw [bytes_eq_content (by omega)]

theorem content_write (hoff : off ≤ f.size) :
    content { f.write src off with size := max f.size (off + src.length) } =
      f.content.take off ++ src ++ f.content.drop (off + src.length) := by
  apply List.ext_getElem
  · simp only [length_content, List.length_append, List.length_take, List.length_drop]
    omega
  · intro i hi hi'
    rw [length_content] at hi
    simp only [content, getElem_bytes, write, Nat.zero_add]
    by_cases hin : off ≤ i ∧ i < off + src.length
    · rw [if_pos hin, List.getElem_append_left (by
        simp only [List.length_append, List.length_take, length_bytes]; omega)]
      rw [List.getElem_append_right (by simp only [List.length_take, length_bytes]; omega)]
      rw [List.getD_eq_getElem _ _ (by omega)]
      congr 1
      simp only [List.length_take, length_bytes]
      omega
    · rw [if_neg hin]
      by_cases hlow : i < off
      · rw [List.getElem_append_left (by
          simp only [List.length_append, List.length_take, length_bytes]; omega)]
        rw [List.getElem_append_left (by simp only [List.length_take, length_bytes]; omega)]
        simp [getElem_bytes]
      · rw [List.getElem_append_right (by
          simp only [List.length_append, List.length_take, length_bytes]; omega)]
        simp only [List.getElem_drop, getElem_bytes, List.length_append, List.length_take,
          length_bytes, Nat.zero_add]
        congr 1
        omega

theorem writei_content (hdev : f.type ≠ .dev) (hoff : off ≤ f.size)
    (hmax : off + src.length ≤ maxfile * bsize) : f.writei src off =
      ({ f.write src off with size := max f.size (off + src.length) }, .done src.length) := by
  have hwrap : u32 (off + src.length) = off + src.length := by
    apply Nat.mod_eq_of_lt
    simp only [maxfile, bsize] at hmax
    omega
  unfold writei
  dsimp only
  rw [if_neg hdev, if_neg (by omega), if_neg (by omega)]
  congr 2
  split <;> omega

end FileState

namespace Fs

variable {fs fs' : Fs} {ip : Iref} {off : Nat} {src : List UInt8} {a : Io Nat}
  {places : Finset (Fin naddrs × List Nat)}

theorem Room.congr (h : Room fs ip places)
    (hblock : ∀ slot js, (fs.tree ip).Fits slot js →
      (fs'.tree ip).block slot js = (fs.tree ip).block slot js)
    (hbitmap : fs'.bitmap = fs.bitmap) : Room fs' ip places := by
  have hmissing : (fs'.tree ip).missing places = (fs.tree ip).missing places := by
    apply Finset.filter_congr
    intro p hp
    rw [hblock p.1 p.2 (h.fits p hp)]
  refine ⟨h.fits, ?_⟩
  rw [hmissing, freeBlocks, hbitmap]
  exact h.enough

theorem room_span {n : Nat} (hfree : ((fs.tree ip).missing (span off n)).card ≤ fs.freeBlocks) :
    Room fs ip (span off n) :=
  ⟨biUnion_path_fits fs ip _, hfree⟩

theorem writeLoop_ok {fuel : Nat} (h : fs.Sound ip) (hroom : Room fs ip places)
    (hmax : off + src.length ≤ maxfile * bsize)
    (hsub : ∀ bn, off / bsize ≤ bn → bn * bsize < off + src.length → path bn ⊆ places) :
    ∃ fs', writeLoop ip fuel fs off src = .ok fs' ∧ Room fs' ip places := by
  induction fuel generalizing fs off src with
  | zero => exact ⟨fs, rfl, hroom⟩
  | succ fuel ih =>
    unfold writeLoop
    split
    · exact ⟨fs, rfl, hroom⟩
    · rename_i hpos
      obtain ⟨hmpos, hmlen, hmfits⟩ := turn_bounds hpos rfl
      generalize min src.length (bsize - off % bsize) = m at *
      have hbelow : off / bsize * bsize < off + src.length := by
        simp only [bsize]
        omega
      have hlt : off / bsize < maxfile := by
        simp only [bsize] at *
        omega
      obtain ⟨p, hplace⟩ := place_of_lt hlt
      have hpath := hsub (off / bsize) le_rfl hbelow
      rw [path_eq hplace] at hpath
      obtain ⟨fs1, addr, hbmap⟩ := bmap_ok h hplace hroom hpath
      have hroom1 := (bmap_grows h hplace hbmap).room places hpath hroom
      obtain ⟨q, hplace', hfills, hblock, hne⟩ := bmap_spec h hbmap
      cases Option.some.inj (hplace.symm.trans hplace')
      have hfits : off % bsize + (src.take m).length ≤ bsize := by
        rw [List.length_take_of_le hmlen]
        exact hmfits
      obtain ⟨htouches, hblocks, -⟩ := writeBlock_spec hfills.sound hplace hblock hne hfits
      rw [hbmap]
      refine ih htouches.sound (hroom1.congr hblocks ?_) ?_ fun bn hlow hhigh => ?_
      · exact logWrite_bitmap ..
      · rw [List.length_drop]
        omega
      · rw [List.length_drop, Nat.add_assoc, Nat.add_sub_cancel' hmlen] at hhigh
        exact hsub bn (le_trans (Nat.div_le_div_right (Nat.le_add_right off m)) hlow) hhigh

/-- With `off` and the length in range and room for the blocks `writei` writes all its bytes,
and the rest of the room is left. -/
theorem writei_ok (h : fs.Sound ip) (hdev : (fs.din ip).type ≠ .dev)
    (hoff : off ≤ (fs.din ip).size) (hmax : off + src.length ≤ maxfile * bsize)
    (hroom : Room fs ip places)
    (hsub : ∀ bn, off / bsize ≤ bn → bn * bsize < off + src.length → path bn ⊆ places) :
    ∃ fs', fs.writei ip src off = .ok (fs', .done src.length) ∧ Room fs' ip places := by
  have hwrap : u32 (off + src.length) = off + src.length := by
    apply Nat.mod_eq_of_lt
    simp only [maxfile, bsize] at hmax
    omega
  obtain ⟨fs1, hloop, hroom1⟩ := writeLoop_ok h hroom hmax hsub
  unfold writei
  dsimp only
  rw [if_neg hdev, if_neg (by omega), if_neg (by omega), hloop]
  dsimp only [bind, Except.bind]
  split
  · refine ⟨_, rfl, hroom1.congr ?_ (store_same ..).1⟩
    rw [(store_tree (d := { fs1.din ip with size := off + src.length }) rfl).1]
    exact fun _ _ _ => rfl
  · exact ⟨_, rfl, hroom1⟩

theorem writei_fail (hok : fs.writei ip src off = .ok (fs', .fail)) : fs' = fs := by
  unfold writei at hok
  dsimp only at hok
  split at hok
  · exact (Prod.mk.inj (Except.ok.inj hok)).1.symm
  · split at hok
    · exact (Prod.mk.inj (Except.ok.inj hok)).1.symm
    · split at hok
      · exact (Prod.mk.inj (Except.ok.inj hok)).1.symm
      · obtain ⟨fs1, -, hok⟩ := bind_eq_ok.mp hok
        split at hok
        · cases hok
        · cases hok

def fileOf (fs : Fs) (d : Dinode) : FileState where
  type := d.type
  major := d.major
  size := d.size
  byte i := (place (i / bsize)).elim 0 fun p =>
    let b := follow (fun a j => (fs.data a).word j) p.2 (d.addrs p.1)
    if b = 0 then 0 else fs.data b (i % bsize)

theorem file_eq (fs : Fs) (ip : Iref) : fs.file ip = fs.fileOf (fs.din ip) := rfl

/-- The blocks of the file and the new ones that `balloc` finds for it lie in the data area. -/
structure InArea (fs : Fs) (ip : Iref) : Prop where
  reserved : ∀ b, b < nmeta → fs.Used b
  inside : ∀ b, fs.InFile ip b → nmeta ≤ b ∧ b < fssize
  beyond : ∀ b, fs.Used b → b < fssize

theorem Frame.inArea (h : Frame fs fs' ip) (hsound : fs'.Sound ip) (harea : fs.InArea ip) :
    fs'.InArea ip := by
  have hbeyond : ∀ b, fs'.Used b → b < fssize := by
    intro b hused
    by_contra hb
    rw [Used, h.beyond b (Nat.le_of_not_lt hb)] at hused
    exact hb (harea.beyond b hused)
  refine ⟨fun b hb => (h.tree.marks b).mpr (.inl (harea.reserved b hb)), ?_, hbeyond⟩
  rintro b ⟨hne, slot, js, hfits, rfl⟩
  refine ⟨?_, hbeyond _ (hsound.marked slot js hfits)⟩
  by_cases hkept : (fs'.tree ip).block slot js = (fs.tree ip).block slot js
  · rw [hkept] at hne ⊢
    exact (harea.inside _ ⟨hne, slot, js, hfits, rfl⟩).1
  · by_contra hlow
    exact h.tree.fresh slot js hfits hkept (harea.reserved _ (Nat.lt_of_not_le hlow))

/-- The blocks of the inode `d` are marked blocks of the data area, and none of them is a block
of the file `ip`. -/
def Apart (fs : Fs) (ip : Iref) (d : Dinode) : Prop :=
  ∀ slot js, (fs.tree ip).Fits slot js →
    follow (fun a j => (fs.data a).word j) js (d.addrs slot) ≠ 0 →
    nmeta ≤ follow (fun a j => (fs.data a).word j) js (d.addrs slot) ∧
      fs.Used (follow (fun a j => (fs.data a).word j) js (d.addrs slot)) ∧
      ¬ fs.InFile ip (follow (fun a j => (fs.data a).word j) js (d.addrs slot))

theorem Frame.fileOf {d : Dinode} (h : Frame fs fs' ip) (hapart : fs.Apart ip d) :
    fs'.fileOf d = fs.fileOf d := by
  have hdata : ∀ slot js, (fs.tree ip).Fits slot js →
      follow (fun a j => (fs.data a).word j) js (d.addrs slot) ≠ 0 →
      fs'.data (follow (fun a j => (fs.data a).word j) js (d.addrs slot)) =
        fs.data (follow (fun a j => (fs.data a).word j) js (d.addrs slot)) := by
    intro slot js hfits hne
    obtain ⟨-, hused, hout⟩ := hapart slot js hfits hne
    refine h.data _ hne fun slot' js' hfits' heq => ?_
    by_cases hkept : (fs'.tree ip).block slot' js' = (fs.tree ip).block slot' js'
    · exact hout ⟨hne, slot', js', hfits', hkept.symm.trans heq⟩
    · exact h.tree.fresh slot' js' hfits' hkept (heq ▸ hused)
  have hblock : ∀ slot js, (fs.tree ip).Fits slot js →
      follow (fun a j => (fs'.data a).word j) js (d.addrs slot) =
        follow (fun a j => (fs.data a).word j) js (d.addrs slot) := by
    intro slot js hfits
    apply Forest.block_congr (f := ⟨nindirect, depth, d.addrs, fun a j => (fs.data a).word j⟩)
      (i := slot) (fun slot' js' hfits' _ hne => ?_) hfits
    funext j
    exact congrArg (Block.word · j) (hdata slot' js' hfits' hne)
  unfold Fs.fileOf
  congr 1
  funext i
  cases hplace : place (i / bsize) with
  | none => rfl
  | some p =>
    have hfits := place_in_tree fs ip hplace
    dsimp only [Option.elim]
    rw [hblock p.1 p.2 hfits]
    split
    · rfl
    · rename_i hne
      rw [hdata p.1 p.2 hfits hne]

def Dense (fs : Fs) (ip : Iref) : Prop :=
  ∀ bn, bn * bsize < (fs.din ip).size → fs.address ip bn ≠ 0

theorem Dense.mapped (h : fs.Dense ip) : fs.Mapped ip (fs.din ip).size := by
  intro bn p hplace hbn
  rw [← address_eq hplace]
  exact h bn hbn

theorem Dense.size_le (h : fs.Dense ip) : (fs.din ip).size ≤ maxfile * bsize := by
  by_contra hlong
  apply h maxfile (by omega)
  rfl

theorem Mapped.dense (h : fs.Mapped ip (fs.din ip).size)
    (hsize : (fs.din ip).size ≤ maxfile * bsize) : fs.Dense ip := by
  intro bn hbn
  obtain ⟨p, hplace⟩ := place_of_lt (show bn < maxfile by simp only [bsize] at *; omega)
  rw [address_eq hplace]
  exact h bn p hplace hbn

theorem bare_inArea (size : Nat) : (bare nmeta size fun _ => 0).InArea ip := by
  refine ⟨fun b hb => decide_eq_true hb, ?_, fun b hb => ?_⟩
  · rintro b ⟨hne, slot, js, -, rfl⟩
    exact absurd (follow_zero _ js) hne
  · have hlow : b < nmeta := of_decide_eq_true hb
    simp only [nmeta, fssize] at *
    omega

theorem span_subset {off off' n n' : Nat} (hlow : off' ≤ off) (hhigh : off + n ≤ off' + n') :
    span off n ⊆ span off' n' := by
  apply Finset.biUnion_subset_biUnion_of_subset_left
  apply Finset.Ico_subset_Ico
  · exact Nat.div_le_div_right hlow
  · exact Nat.div_le_div_right (by omega)

/-- A file of eleven blocks, of which the last is behind an indirection block, with room for it
to grow. -/
theorem eleven_blocks : ∃ fs,
    checkLog ((bare nmeta 0 fun _ => 0).writei 0 (List.replicate 5121 7) 0) =
      .ok (fs, .done 5121) ∧
    fs.Sound 0 ∧ fs.InArea 0 ∧ fs.Dense 0 ∧ Room fs 0 (span 0 8192) ∧
    SameEntry (bare nmeta 0 fun _ => 0) fs 0 ∧ (fs.din 0).type ≠ .dev ∧ (fs.din 0).size = 5121 ∧
    (fs.file 0).content = List.replicate 5121 7 := by
  have hempty : (bare nmeta 0 fun _ => 0).Sound 0 := sound_of_empty (fun _ => rfl) rfl
  have hdense : (bare nmeta 0 fun _ => 0).Dense 0 := fun bn hbn => absurd hbn (Nat.not_lt_zero _)
  generalize hsrc : List.replicate 5121 (7 : UInt8) = src
  have hlen : src.length = 5121 := by rw [← hsrc, List.length_replicate]
  have hmax : 0 + src.length ≤ maxfile * bsize := by rw [hlen]; decide
  obtain ⟨fs, hok, hroom⟩ := writei_ok hempty (by decide) (Nat.zero_le _) hmax
    (room_span (bare_room _ _ (by decide) (by decide +kernel)))
    fun bn hlow hhigh => path_subset_span (n := 8192) hlow (by omega)
  obtain ⟨hsound, hentry, hwrite⟩ := writei_spec hempty hok
  have hfits := writei_fits hempty (by rw [hlen]; decide +kernel) hok
  rw [FileState.writei_content (by decide) (Nat.zero_le _) hmax] at hwrite
  obtain ⟨hfile, -⟩ := Prod.mk.inj hwrite
  have hsize : (fs.din 0).size = 5121 := by
    have hsame := congrArg FileState.size hfile
    rw [hlen] at hsame
    exact hsame.symm
  have hdev : (fs.file 0).type ≠ .dev := by
    rw [← hfile]
    exact (by decide : FileType.file ≠ .dev)
  refine ⟨fs, checkLog_eq_ok.mpr ⟨hlen ▸ hok, hfits.le⟩, hsound,
    (writei_frame hempty hok).inArea hsound (bare_inArea 0),
    (hdense.mapped.writei_mapped hempty hok).dense (by rw [hsize]; decide), hroom, hentry,
    hdev, hsize, ?_⟩
  rw [← hfile, FileState.content_write (Nat.zero_le _), List.take_zero, List.nil_append,
    List.drop_eq_nil_of_le (by rw [FileState.length_content]; exact Nat.zero_le _),
    List.append_nil]

/-- What is written can be read back, among what was there before, and nothing else changes. The
log has room for a write over few enough blocks; for a longer one `log_write` may panic. -/
theorem writei_replaces (hsound : fs.Sound ip) (harea : fs.InArea ip) (hdense : fs.Dense ip)
    (hdev : (fs.din ip).type ≠ .dev) (hoff : off ≤ (fs.din ip).size)
    (hmax : off + src.length ≤ maxfile * bsize)
    (hfree : ((fs.tree ip).missing (span off src.length)).card ≤ fs.freeBlocks) :
    (fs.logged.length + ((span off src.length).card + 11) < logRoom →
      checkLog (fs.writei ip src off) ≠ .error .tooBig) ∧
    (checkLog (fs.writei ip src off) ≠ .error .tooBig →
      ∃ fs' old, checkLog (fs.writei ip src off) = .ok (fs', .done src.length) ∧
        fs'.Sound ip ∧ fs'.InArea ip ∧ fs'.Dense ip ∧
        fs.readi ip 0 (fs.din ip).size = .ok (fs, .done old) ∧
        (fs'.din ip).size = max (fs.din ip).size (off + src.length) ∧
        (∀ off' n', fs'.readi ip off' n' = .ok (fs',
          if (fs'.din ip).size < off' ∨ u32 (off' + n') < off' then .fail
          else .done (((old.take off ++ src ++ old.drop (off + src.length)).drop off').take n'))) ∧
        (∀ i, i ≠ ip → fs'.din i = fs.din i ∧
          (fs.Apart ip (fs.din i) → fs'.file i = fs.file i)) ∧
        ∀ inum, inum ≠ (fs.icache ip).inum → fs'.dinode inum = fs.dinode inum ∧
          (fs.Apart ip (fs.dinode inum) →
            fs'.fileOf (fs.dinode inum) = fs.fileOf (fs.dinode inum))) ∧
    ∀ src' off' gs, fs.writei ip src' off' = .ok (gs, .fail) → gs = fs := by
  obtain ⟨fs', hok, -⟩ :=
    writei_ok hsound hdev hoff hmax (room_span hfree) fun bn => path_subset_span
  obtain ⟨hsound', -, hwrite⟩ := writei_spec hsound hok
  have hframe := writei_frame hsound hok
  have hmapped' := hdense.mapped.writei_mapped hsound hok
  have hfile := FileState.writei_content (f := fs.file ip) hdev hoff hmax
  rw [hwrite] at hfile
  obtain ⟨hfile, -⟩ := Prod.mk.inj hfile
  have hsize : (fs'.din ip).size = max (fs.din ip).size (off + src.length) :=
    congrArg FileState.size hfile
  have hsize' : (fs'.din ip).size ≤ maxfile * bsize := by
    rw [hsize]
    exact max_le hdense.size_le hmax
  have hdev' : (fs'.file ip).type ≠ .dev := by
    rw [hfile]
    exact hdev
  refine ⟨fun hroom => ?_, fun hlog => ⟨fs', (fs.file ip).content, ?_, hsound',
    hframe.inArea hsound' harea, hmapped'.dense hsize', ?_, hsize, fun off' n' => ?_,
    fun i hi => ?_, fun inum hinum => ?_⟩, fun src' off' gs hfail => ?_⟩
  · rw [checkLog_eq_ok.mpr ⟨hok, (writei_fits hsound hroom hok).le⟩]
    nofun
  · exact (checkLog_of_ok hok).resolve_left hlog
  · obtain ⟨r, hread⟩ := hdense.mapped.readi_ok hdense.size_le 0 (fs.din ip).size
    obtain ⟨-, rfl⟩ := readi_spec hsound hread
    rw [hread, FileState.readi_eq_content hdev, if_neg]
    · rw [List.drop_zero, List.take_of_length_le (by rw [FileState.length_content]; rfl)]
    · omega
  · obtain ⟨r, hread⟩ := hmapped'.readi_ok hsize' off' n'
    obtain ⟨-, rfl⟩ := readi_spec hsound' hread
    rw [hread, FileState.readi_eq_content hdev', ← FileState.content_write hoff, ← hfile]
    rfl
  · have hdin : fs'.din i = fs.din i := by rw [din, din, hframe.icache i hi]
    refine ⟨hdin, fun hapart => ?_⟩
    rw [file_eq, file_eq, hdin]
    exact hframe.fileOf hapart
  · exact ⟨hframe.dinode inum hinum, fun hapart => hframe.fileOf hapart⟩
  · exact writei_fail hfail

theorem writei_replaces_grown :
    ∃ fs fs', checkLog ((bare nmeta 0 fun _ => 0).writei 0 (List.replicate 5121 7) 0) =
        .ok (fs, .done 5121) ∧
      checkLog (fs.beginOp.writei 0 (List.replicate 600 9) 5120) = .ok (fs', .done 600) ∧
      fs'.readi 0 5118 4 = .ok (fs', .done [7, 7, 9, 9]) ∧ (fs'.din 0).size = 5720 := by
  obtain ⟨fs, hok, hsound, harea, hdense, hroom, -, hdev, hsize, hcontent⟩ := eleven_blocks
  have hsub : span 5120 (List.replicate 600 (9 : UInt8)).length ⊆ span 0 8192 :=
    span_subset (by decide) (by rw [List.length_replicate]; decide)
  obtain ⟨hfits, hgo, -⟩ := writei_replaces (show fs.beginOp.Sound 0 from hsound)
    ⟨harea.reserved, harea.inside, harea.beyond⟩ hdense hdev (show 5120 ≤ (fs.din 0).size by omega)
    (show 5120 + (List.replicate 600 9).length ≤ _ by rw [List.length_replicate]; decide)
    ((Finset.card_le_card (Finset.filter_subset_filter _ hsub)).trans hroom.enough)
  obtain ⟨fs', old, hok', -, -, -, hold, hsize', hread, -⟩ := hgo (hfits
    (show 0 + ((span 5120 (List.replicate 600 (9 : UInt8)).length).card + 11) < logRoom by
      decide +kernel))
  have hsize' : (fs'.din 0).size = 5720 := by
    rw [hsize', show (fs.beginOp.din 0).size = 5121 from hsize, List.length_replicate]
    rfl
  obtain rfl : old = List.replicate 5121 7 := by
    obtain ⟨-, hdone⟩ := readi_spec (show fs.beginOp.Sound 0 from hsound) hold
    rw [FileState.readi_eq_content (f := fs.beginOp.file 0) hdev, if_neg (by omega)] at hdone
    cases hdone
    rw [List.drop_zero, List.take_of_length_le (by rw [FileState.length_content]; rfl)]
    exact hcontent
  rw [List.length_replicate] at hok'
  refine ⟨fs, fs', hok, hok', ?_, hsize'⟩
  have hbytes : (((List.replicate 5121 (7 : UInt8)).take 5120 ++ List.replicate 600 9 ++
      (List.replicate 5121 7).drop (5120 + (List.replicate 600 (9 : UInt8)).length)).drop
        5118).take 4 = [7, 7, 9, 9] := by
    decide +kernel
  rw [hread, hsize', if_neg (by unfold u32; omega), hbytes]

theorem writei_too_big :
    (checkLog ((bare nmeta 0 fun _ => 0).writei 0 (List.replicate 13825 7) 0)).map Prod.snd =
      .error .tooBig := by
  decide +kernel

/-- With a clear bit for its block the file is written over where it grows, and a long write does
not fit into the log. -/
theorem writei_over_unmarked : (bare nmeta 512 onlyFirst).Unshared 0 ∧
    (bare nmeta 512 onlyFirst).Dense 0 ∧
    ((bare nmeta 512 onlyFirst).readi 0 0 1).map Prod.snd = .ok (.done [0]) ∧
    (∃ fs', (bare nmeta 512 onlyFirst).writei 0 [7] 512 = .ok (fs', .done 1) ∧
      (fs'.readi 0 0 1).map Prod.snd = .ok (.done [7])) ∧
    (checkLog ((bare nmeta 0 fun _ => 0).writei 0 (List.replicate 13825 7) 0)).map Prod.snd =
      .error .tooBig := by
  refine ⟨bare_unshared nmeta 512, fun bn hbn => ?_, rfl, ⟨_, rfl, ?_⟩, ?_⟩
  · obtain rfl : bn = 0 := by
      have hsize : bn * 512 < 512 := hbn
      omega
    decide
  · decide +kernel
  · exact writei_too_big

end Fs

end Xv6

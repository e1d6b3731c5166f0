import Xv6.Sync.Guarded
import Xv6.Fs.Write

/-! The reads and writes of `file.c` on an inode, from the file's own offset and from a given
one. The chunks in which `filewrite` and `pwrite` write come to one `writei`. -/
namespace Xv6

open Word BlockTree Fallible

structure SeekFile extends OpenFile where
  off : Nat

/-- The number that `writei` returns for `n` bytes; the driver takes all it is given. -/
def Io.written (n : Nat) : Io Nat → Int
  | .fail => -1
  | .device => n
  | .done r => r

namespace Fs

/-- `console` is what the driver returns, if it is asked. -/
def fileread (fs : Fs) (f : SeekFile) (n : Nat) (console : Int) :
    Except Panic (Fs × SeekFile × Io (List UInt8)) :=
  if f.readable then do
    let fs ← fs.ilock f.ip
    let (fs, answer) ← fs.readi f.ip f.off n
    let r : Int := match answer with
      | .fail => -1
      | .device => console
      | .done bytes => bytes.length
    return (fs, if 0 < r then { f with off := u32OfInt (f.off + r) } else f, answer)
  else .ok (fs, f, .fail)

/-- The loop of `filewrite`: `i` bytes are written, and the file stands at `off`. -/
def filewriteLoop (ip : Iref) (src : List UInt8) :
    Nat → Fs → Nat → Nat → Except Panic (Fs × Nat × Int)
  | 0, fs, off, _ => .ok (fs, off, -1)
  | fuel + 1, fs, off, i =>
      if src.length ≤ i then .ok (fs, off, src.length)
      else do
        let n1 := min (src.length - i) chunkMax
        let (fs, r) ← fs.writeChunk ip ((src.drop i).take n1) off
        match r with
        | .fail => return (fs, off, -1)
        | .device => filewriteLoop ip src fuel fs (u32 (off + n1)) (i + n1)
        | .done r =>
            if r = n1 then filewriteLoop ip src fuel fs (u32 (off + r)) (i + r)
            else .error .shortFilewrite

def filewrite (fs : Fs) (f : SeekFile) (src : List UInt8) :
    Except Panic (Fs × SeekFile × Int) :=
  if f.writable then do
    let (fs, off, r) ← filewriteLoop f.ip src (src.length + 1) fs f.off 0
    return (fs, { f with off }, r)
  else .ok (fs, f, -1)

def pwriteLoop (f : OpenFile) (src : List UInt8) (off : Int) :
    Nat → Fs → Nat → Except Panic (Fs × Int)
  | 0, fs, _ => .ok (fs, -1)
  | fuel + 1, fs, i => do
      let (fs, progress) ← fs.pwriteTurn f src off i
      match progress with
      | .writing i => pwriteLoop f src off fuel fs i
      | .returned r => return (fs, r)

def pwrite (fs : Fs) (f : OpenFile) (src : List UInt8) (off : Int) : Except Panic (Fs × Int) :=
  pwriteLoop f src off (src.length + 1) fs 0

variable {fs fs' : Fs} {ip : Iref} {f : OpenFile} {off i : Nat} {src : List UInt8}
  {places : Finset (Fin naddrs × List Nat)}

theorem Loaded.ilock (h : fs.Loaded ip) : fs.ilock ip = .ok fs := by
  unfold Fs.ilock
  dsimp only
  rw [if_neg (by have := h.1; omega), if_pos h.2]

theorem SameEntry.loaded (h : SameEntry fs fs' ip) (hloaded : fs.Loaded ip) : fs'.Loaded ip := by
  rw [Loaded, h.ref, h.valid]
  exact hloaded

def partly (st : FileState) (src : List UInt8) (off i : Nat) : FileState :=
  { st.write (src.take i) off with size := max st.size (off + i) }

theorem partly_zero {st : FileState} (hoff : off ≤ st.size) : partly st src off 0 = st := by
  unfold partly
  rw [List.take_zero, FileState.write_nil, Nat.add_zero, max_eq_left hoff]

theorem partly_next {st : FileState} {n : Nat} (hi : i + n ≤ src.length)
    (hdev : st.type ≠ .dev) (hmax : off + src.length ≤ maxfile * bsize) :
    (partly st src off i).writei ((src.drop i).take n) (off + i) =
      (partly st src off (i + n), .done n) := by
  have hlen : ((src.drop i).take n).length = n := by
    rw [List.length_take, List.length_drop]
    omega
  have htake : (src.take i).length = i := List.length_take_of_le (by omega)
  have hpart : (partly st src off i).type ≠ .dev := hdev
  have hsize : (partly st src off i).size = max st.size (off + i) := rfl
  rw [FileState.writei_content hpart (by rw [hsize]; exact le_max_right _ _) (by omega), hlen,
    hsize]
  refine Prod.ext ?_ rfl
  have happend := FileState.write_append st (src.take i) ((src.drop i).take n) off
  rw [htake, ← List.take_add] at happend
  unfold partly
  rw [← happend, max_assoc, max_eq_right (show off + i ≤ off + i + n by omega), Nat.add_assoc]
  rfl

theorem Loaded.writeChunk (h : fs.Loaded ip) (src : List UInt8) (off : Nat) :
    fs.writeChunk ip src off = checkLog (fs.beginOp.writei ip src off) := by
  rw [Fs.writeChunk, Loaded.ilock (show fs.beginOp.Loaded ip from h)]
  rfl

theorem chunk_fits {a : Io Nat} (hsound : fs.Sound ip) (hlen : src.length ≤ chunkMax)
    (hok : fs.beginOp.writei ip src off = .ok (fs', a)) : fs'.logged.length ≤ logRoom := by
  refine (writei_fits (show fs.beginOp.Sound ip from hsound) ?_ hok).le
  have hcard := card_span_le off src.length
  have hempty : fs.beginOp.logged.length = 0 := rfl
  simp only [chunkMax, maxopblocks, bsize, logRoom, logsize] at *
  omega

theorem u32OfInt_add (h : off + src.length ≤ maxfile * bsize) (hi : i ≤ src.length) :
    u32OfInt ((off : Int) + i) = off + i := by
  simp only [maxfile, bsize] at h
  rw [u32OfInt_eq (by omega) (by omega)]
  omega

theorem u32_add {n : Nat} (h : off + src.length ≤ maxfile * bsize) (hi : i + n ≤ src.length) :
    u32 (off + i + n) = off + (i + n) := by
  simp only [maxfile, bsize] at h
  rw [u32_eq_self (by omega), Nat.add_assoc]

theorem chunk_bounds {n n1 : Nat} (hmore : ¬ n ≤ i) (hn1 : min (n - i) chunkMax = n1) :
    0 < n1 ∧ i + n1 ≤ n ∧ n1 ≤ chunkMax := by
  simp only [chunkMax, maxopblocks] at hn1 ⊢
  omega

theorem pwriteTurn_more (hwritable : f.writable = true) (hmore : ¬ src.length ≤ i)
    (hmax : off + src.length ≤ maxfile * bsize) {n1 : Nat}
    (hn1 : min (src.length - i) chunkMax = n1) : fs.pwriteTurn f src off i = (do
      let (fs, r) ← fs.writeChunk f.ip ((src.drop i).take n1) (off + i)
      match r with
      | .fail => return (fs, .returned (-1))
      | .device => return (fs, .writing (i + n1))
      | .done r => if r = n1 then return (fs, .writing (i + r)) else .error .shortPwrite) := by
  unfold pwriteTurn
  rewrite [if_neg (not_not.mpr hwritable), if_neg hmore, hn1, u32OfInt_add hmax (by omega)]
  rfl

theorem chunks_ok {fuel : Nat} {st : FileState} (hwritable : f.writable = true)
    (hfuel : src.length < i + fuel) (hi : i ≤ src.length) (hloaded : fs.Loaded f.ip)
    (hsound : fs.Sound f.ip) (harea : fs.InArea f.ip)
    (hfile : fs.file f.ip = partly st src off i)
    (hdev : st.type ≠ .dev) (hmax : off + src.length ≤ maxfile * bsize)
    (hroom : Room fs f.ip places)
    (hsub : ∀ bn, off / bsize ≤ bn → bn * bsize < off + src.length → path bn ⊆ places) :
    ∃ fs', filewriteLoop f.ip src fuel fs (off + i) i =
        .ok (fs', off + src.length, src.length) ∧
      pwriteLoop f src off fuel fs i = .ok (fs', src.length) ∧
      fs'.Sound f.ip ∧ fs'.InArea f.ip ∧ fs'.file f.ip = partly st src off src.length := by
  induction fuel generalizing fs i with
  | zero => omega
  | succ fuel ih =>
    by_cases hdone : src.length ≤ i
    · obtain rfl : i = src.length := by omega
      refine ⟨fs, ?_, ?_, hsound, harea, hfile⟩
      · rw [filewriteLoop, if_pos le_rfl]
      · rw [pwriteLoop, pwriteTurn, if_neg (not_not.mpr hwritable), if_pos le_rfl]
        rfl
    · generalize hn1 : min (src.length - i) chunkMax = n1
      obtain ⟨hpos, hend, hchunk⟩ := chunk_bounds hdone hn1
      have hlen : ((src.drop i).take n1).length = n1 := by
        rw [List.length_take, List.length_drop]
        omega
      have hpart := partly_next hend hdev hmax
      rw [← hfile] at hpart
      have htype : (fs.din f.ip).type ≠ .dev := by
        intro heq
        apply hdev
        have hsame := congrArg FileState.type hfile
        exact hsame.symm.trans heq
      have hsize : off + i ≤ (fs.din f.ip).size := by
        have hsame := congrArg FileState.size hfile
        exact (le_max_right _ _).trans hsame.ge
      have hbegin : fs.beginOp.Sound f.ip := hsound
      obtain ⟨fs1, hwrite, hroom1⟩ := writei_ok hbegin htype hsize
        (show off + i + ((src.drop i).take n1).length ≤ _ by rw [hlen]; omega)
        ⟨hroom.fits, hroom.enough⟩ (fun bn hlow hhigh => hsub bn
          (le_trans (Nat.div_le_div_right (Nat.le_add_right off i)) hlow)
          (lt_of_lt_of_le hhigh (by rw [hlen]; omega)))
      have hfits := chunk_fits hsound (by rw [hlen]; exact hchunk) hwrite
      rw [hlen] at hwrite
      obtain ⟨hsound1, hsame, hwritten⟩ := writei_spec hbegin hwrite
      have harea1 : fs1.InArea f.ip := (writei_frame hbegin hwrite).inArea hsound1
        ⟨harea.reserved, harea.inside, harea.beyond⟩
      rw [show fs.beginOp.file f.ip = fs.file f.ip from rfl, hpart] at hwritten
      have hchunk : fs.writeChunk f.ip ((src.drop i).take n1) (off + i) = .ok (fs1, .done n1) :=
        (hloaded.writeChunk _ _).trans (checkLog_eq_ok.mpr ⟨hwrite, hfits⟩)
      obtain ⟨fs', hfilewrite, hpwrite, hend'⟩ := ih (i := i + n1) (by omega) hend
        (hsame.loaded hloaded) hsound1 harea1 (Prod.mk.inj hwritten).1.symm hroom1
      refine ⟨fs', ?_, ?_, hend'⟩
      · rw [filewriteLoop, if_neg hdone, hn1]
        dsimp only
        rw [hchunk]
        dsimp only [bind, Except.bind]
        rw [if_pos rfl, u32_add hmax hend, hfilewrite]
      · rw [pwriteLoop, pwriteTurn_more hwritable hdone hmax hn1, hchunk]
        dsimp only [bind, Except.bind]
        rw [if_pos rfl]
        exact hpwrite

theorem device_writei (hdev : (fs.din ip).type = .dev) (hdriver : HasDriver (fs.din ip).major)
    (src : List UInt8) (off : Nat) : fs.writei ip src off = .ok (fs, .device) := by
  rw [writei]
  dsimp only
  rw [if_pos hdev, if_pos hdriver]

theorem device_ok {fuel : Nat} (hwritable : f.writable = true)
    (hfuel : src.length < i + fuel) (hi : i ≤ src.length) (hloaded : fs.Loaded f.ip)
    (hdev : (fs.din f.ip).type = .dev) (hdriver : HasDriver (fs.din f.ip).major)
    (hmax : off + src.length ≤ maxfile * bsize) :
    ∃ fs', (fs' = fs ∨ fs' = fs.beginOp) ∧
      filewriteLoop f.ip src fuel fs (off + i) i = .ok (fs', off + src.length, src.length) ∧
      pwriteLoop f src off fuel fs i = .ok (fs', src.length) := by
  induction fuel generalizing fs i with
  | zero => omega
  | succ fuel ih =>
    by_cases hdone : src.length ≤ i
    · obtain rfl : i = src.length := by omega
      refine ⟨fs, .inl rfl, ?_, ?_⟩
      · rw [filewriteLoop, if_pos le_rfl]
      · rw [pwriteLoop, pwriteTurn, if_neg (not_not.mpr hwritable), if_pos le_rfl]
        rfl
    · generalize hn1 : min (src.length - i) chunkMax = n1
      obtain ⟨hpos, hend, -⟩ := chunk_bounds hdone hn1
      have hchunk : fs.writeChunk f.ip ((src.drop i).take n1) (off + i) =
          .ok (fs.beginOp, .device) := by
        rw [hloaded.writeChunk,
          device_writei (show (fs.beginOp.din f.ip).type = .dev from hdev) hdriver]
        rfl
      obtain ⟨fs', hsame, hfilewrite, hpwrite⟩ := ih (i := i + n1) (by omega) hend
        (show fs.beginOp.Loaded f.ip from hloaded) hdev hdriver
      refine ⟨fs', .inr (hsame.elim id id), ?_, ?_⟩
      · rw [filewriteLoop, if_neg hdone, hn1]
        dsimp only
        rw [hchunk]
        dsimp only [bind, Except.bind]
        rw [u32_add hmax hend, hfilewrite]
      · rw [pwriteLoop, pwriteTurn_more hwritable hdone hmax hn1, hchunk]
        exact hpwrite

theorem fileread_eq_pread (fs : Fs) (f : SeekFile) {off : Nat} (hoff : off < 4294967296)
    (n : Nat) (console : Int) :
    (fs.fileread { f with off } n console).map (fun r => (r.1, r.2.2)) =
      fs.pread f.toOpenFile off n := by
  unfold fileread pread
  have hu32 : u32OfInt (off : Int) = off := by
    rw [u32OfInt_eq (by omega) (by omega)]
    omega
  rw [hu32]
  dsimp only
  split
  · cases fs.ilock f.ip with
    | error _ => rfl
    | ok fs1 =>
      dsimp only [bind, Except.bind]
      cases fs1.readi f.ip off n with
      | error _ => rfl
      | ok r => rfl
  · rfl

/-- The chunks of `filewrite` and of `pwrite` come to one `writei`, as long as that one fits into
the log; the chunks always do. -/
theorem writes_agree {f : SeekFile} (hwritable : f.writable = true) (hloaded : fs.Loaded f.ip)
    (hsound : fs.Sound f.ip) (harea : fs.InArea f.ip)
    (hdriver : (fs.din f.ip).type = .dev → HasDriver (fs.din f.ip).major)
    (hoff : f.off ≤ (fs.din f.ip).size) (hmax : f.off + src.length ≤ maxfile * bsize)
    (hfree : ((fs.tree f.ip).missing (span f.off src.length)).card ≤ fs.freeBlocks) :
    ∃ fs', fs.filewrite f src = .ok (fs', { f with off := f.off + src.length }, src.length) ∧
      fs.pwrite f.toOpenFile src f.off = .ok (fs', src.length) ∧
      fs'.Sound f.ip ∧ fs'.InArea f.ip ∧
      ((fs.din f.ip).type ≠ .dev → fs'.file f.ip = { (fs.file f.ip).write src f.off with
        size := max (fs.din f.ip).size (f.off + src.length) }) ∧
      ((span f.off src.length).card + 11 < logRoom →
        checkLog (fs.beginOp.writei f.ip src f.off) ≠ .error .tooBig) ∧
      (checkLog (fs.beginOp.writei f.ip src f.off) ≠ .error .tooBig →
        ∃ gs a, checkLog (fs.beginOp.writei f.ip src f.off) = .ok (gs, a) ∧
          a.written src.length = src.length ∧ fs'.file f.ip = gs.file f.ip) ∧
      ∀ off' n console, off' < 4294967296 →
        (fs'.fileread { f with off := off' } n console).map (fun r => (r.1, r.2.2)) =
          fs'.pread f.toOpenFile off' n := by
  have hloops : ∀ fs', filewriteLoop f.ip src (src.length + 1) fs f.off 0 =
      .ok (fs', f.off + src.length, src.length) → fs.filewrite f src =
      .ok (fs', { f with off := f.off + src.length }, src.length) := by
    intro fs' hloop
    rw [filewrite, if_pos hwritable, hloop]
    rfl
  by_cases hdev : (fs.din f.ip).type = .dev
  · obtain ⟨fs', hsame, hfilewrite, hpwrite⟩ := device_ok (f := f.toOpenFile) hwritable
      (show src.length < 0 + (src.length + 1) by omega) (Nat.zero_le _) hloaded hdev
      (hdriver hdev) hmax
    have hwrite : checkLog (fs.beginOp.writei f.ip src f.off) = .ok (fs.beginOp, .device) := by
      rw [device_writei (show (fs.beginOp.din f.ip).type = .dev from hdev) (hdriver hdev)]
      rfl
    have hkept : fs'.Sound f.ip ∧ fs'.InArea f.ip ∧ fs'.file f.ip = fs.file f.ip := by
      rcases hsame with rfl | rfl
      · exact ⟨hsound, harea, rfl⟩
      · exact ⟨hsound, ⟨harea.reserved, harea.inside, harea.beyond⟩, rfl⟩
    refine ⟨fs', hloops fs' hfilewrite, hpwrite, hkept.1, hkept.2.1,
      fun hother => absurd hdev hother, fun _ => ?_, fun _ => ⟨_, _, hwrite, rfl, hkept.2.2⟩,
      fun off' n console hoff' => fileread_eq_pread fs' f hoff' n console⟩
    rw [hwrite]
    nofun
  · have hroom := room_span hfree
    obtain ⟨fs', hfilewrite, hpwrite, hsound', harea', hfile'⟩ := chunks_ok (f := f.toOpenFile)
      hwritable (show src.length < 0 + (src.length + 1) by omega) (Nat.zero_le _) hloaded hsound
      harea (show fs.file f.ip = partly (fs.file f.ip) src f.off 0 from (partly_zero hoff).symm)
      hdev hmax hroom fun bn => path_subset_span
    have hbegin : fs.beginOp.Sound f.ip := hsound
    obtain ⟨gs, hwrite, -⟩ := writei_ok hbegin hdev hoff hmax ⟨hroom.fits, hroom.enough⟩
      fun bn => path_subset_span
    obtain ⟨-, -, hwritten⟩ := writei_spec hbegin hwrite
    rw [partly, List.take_length] at hfile'
    refine ⟨fs', hloops fs' hfilewrite, hpwrite, hsound', harea', fun _ => hfile',
      fun hfits => ?_, fun hlog => ⟨gs, .done src.length, ?_, rfl, ?_⟩,
      fun off' n console hoff' => fileread_eq_pread fs' f hoff' n console⟩
    · have hlen := writei_fits hbegin (by rw [show fs.beginOp.logged.length = 0 from rfl]; omega)
        hwrite
      rw [checkLog_eq_ok.mpr ⟨hwrite, hlen.le⟩]
      nofun
    · exact (checkLog_of_ok hwrite).resolve_left hlog
    · rw [FileState.writei_content (f := fs.beginOp.file f.ip) hdev hoff hmax] at hwritten
      rw [hfile', ← (Prod.mk.inj hwritten).1]
      rfl

theorem ninode_pos : 0 < ninode := by decide

def opened (off : Nat) : SeekFile := ⟨⟨true, true, ⟨0, ninode_pos⟩⟩, off⟩

/-- Two chunks behind the end of a file of eleven blocks. -/
theorem writes_agree_grown : ∃ fs fs' gs a,
    checkLog ((bare nmeta 0 fun _ => 0).writei 0 (List.replicate 5121 7) 0) =
      .ok (fs, .done 5121) ∧
    fs.filewrite (opened 5121) (List.replicate 3000 9) = .ok (fs', opened 8121, 3000) ∧
    fs.pwrite (opened 5121).toOpenFile (List.replicate 3000 9) 5121 = .ok (fs', 3000) ∧
    checkLog (fs.beginOp.writei 0 (List.replicate 3000 9) 5121) = .ok (gs, a) ∧
    a.written 3000 = 3000 ∧ fs'.file 0 = gs.file 0 := by
  obtain ⟨fs, hok, hsound, harea, -, hroom, hentry, hfile, hsize, -⟩ := eleven_blocks
  generalize hsrc : List.replicate 3000 (9 : UInt8) = src
  have hlen : src.length = 3000 := by rw [← hsrc, List.length_replicate]
  have hsub : span 5121 src.length ⊆ span 0 8192 := span_subset (by decide) (by omega)
  obtain ⟨fs', hfilewrite, hpwrite, -, -, -, hfits, hsingle, -⟩ := writes_agree
    (f := opened 5121) rfl (hentry.loaded ⟨by decide, rfl⟩) hsound harea
    (fun hdev => absurd hdev hfile) hsize.ge
    (show 5121 + src.length ≤ maxfile * bsize by rw [hlen]; decide)
    ((Finset.card_le_card (Finset.filter_subset_filter _ hsub)).trans hroom.enough)
  rw [hlen] at hfilewrite hpwrite hfits hsingle
  obtain ⟨gs, a, hwrite, hwritten, hsame⟩ := hsingle (hfits
    (show (span 5121 3000).card + 11 < logRoom by decide +kernel))
  exact ⟨fs, fs', gs, a, hok, hfilewrite, hpwrite, hwrite, hwritten, hsame⟩

def nullDevice : Fs :=
  (bare nmeta 0 fun _ => 0).setDin ⟨0, ninode_pos⟩
    { Dinode.zero with type := .dev, major := 5, nlink := 1 }

/-- A file of one byte with three blocks, on a disk whose block 0 is not marked. -/
def zeroFree : Fs :=
  { bare nmeta 1 fun slot => if slot < 3 then nmeta + slot else 0 with
    bitmap := fun b => 0 < b && b < 100 }

def selfNamed : Fs :=
  { bare 100 5120 fun slot => nmeta + slot with
    data := Function.update (fun _ => Block.zero) 78 (Block.zero.setWord 0 78) }

/-- Without a driver the loops do not ask for 0 bytes. Where block 0 is given out, or a block of
data is also a block of the map, a block written in two chunks is not found again. A single
`writei` of 28 new blocks does not fit into the log. -/
theorem chunks_differ :
    (nullDevice.writei 0 [] 0).map Prod.snd = .ok .fail ∧
    (nullDevice.pwrite (opened 0).toOpenFile [] 0).map Prod.snd = .ok 0 ∧
    (nullDevice.filewrite (opened 0) [1]).map (fun r => r.2.1.off) = .ok 0 ∧
    (do let (gs, _) ← zeroFree.writei 0 (List.replicate 1538 7) 1
        (gs.readi 0 1537 1).map Prod.snd) = .ok (.done [0]) ∧
    (do let (fs, _) ← zeroFree.pwrite (opened 1).toOpenFile (List.replicate 1538 7) 1
        (fs.readi 0 1537 1).map Prod.snd) = .ok (.done [7]) ∧
    (do let (gs, _) ← selfNamed.writei 0 (List.replicate 1540 7) 3588
        (gs.readi 0 5124 1).map Prod.snd) = .ok (.done [0]) ∧
    (do let (fs, _) ← selfNamed.pwrite (opened 3588).toOpenFile (List.replicate 1540 7) 3588
        (fs.readi 0 5124 1).map Prod.snd) = .ok (.done [7]) ∧
    (checkLog ((bare nmeta 0 fun _ => 0).writei 0 (List.replicate 13825 7) 0)).map Prod.snd =
      .error .tooBig ∧
    ((bare nmeta 0 fun _ => 0).pwrite (opened 0).toOpenFile (List.replicate 13825 7) 0).map
      Prod.snd = .ok 13825 := by
  refine ⟨by decide +kernel, by decide +kernel, by decide +kernel, by decide +kernel,
    by decide +kernel, by decide +kernel, by decide +kernel, writei_too_big, ?_⟩
  generalize hsrc : List.replicate 13825 (7 : UInt8) = src
  have hlen : src.length = 13825 := by rw [← hsrc, List.length_replicate]
  have hmax : 0 + src.length ≤ maxfile * bsize := by rw [hlen]; decide
  obtain ⟨fs', -, hpwrite, -⟩ := chunks_ok (f := (opened 0).toOpenFile) rfl
    (show src.length < 0 + (src.length + 1) by omega) (Nat.zero_le _)
    (show (bare nmeta 0 fun _ => 0).Loaded 0 from ⟨by decide, rfl⟩)
    (sound_of_empty (fun _ => rfl) rfl) (bare_inArea 0) (partly_zero (Nat.zero_le _)).symm
    (by decide) hmax (room_span (bare_room _ _ (by decide) (by rw [hlen]; decide +kernel)))
    fun bn => path_subset_span
  rw [hlen] at hpwrite
  rw [pwrite, hlen]
  exact congrArg (Except.map Prod.snd) hpwrite

end Fs

end Xv6

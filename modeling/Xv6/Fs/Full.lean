import Xv6.Fs.Content

/-! Files without holes. Every block below the size is there, so that reading and
overwriting need no new block, and a write that makes the file longer stores its block map
together with the size. -/
namespace Xv6

open Word BlockTree Fallible

namespace Fs

variable {fs fs' : Fs} {ip : Iref} {off : Nat} {src : List UInt8} {a : Io Nat}

def Mapped (fs : Fs) (ip : Iref) (n : Nat) : Prop :=
  ∀ bn p, place bn = some p → bn * bsize < n → (fs.tree ip).block p.1 p.2 ≠ 0

theorem descend_found {js : List Nat} {addr : Nat}
    (h : follow (fun a j => (fs.data a).word j) js addr ≠ 0) :
    descend js fs addr = .ok (fs, follow (fun a j => (fs.data a).word j) js addr) := by
  induction js generalizing addr with
  | nil => rfl
  | cons j js ih =>
    have haddr : addr ≠ 0 := by
      rintro rfl
      exact h (follow_zero _ _)
    rw [follow, if_neg haddr] at h ⊢
    have hentry : (fs.data addr).word j ≠ 0 := by
      intro hzero
      rw [hzero, follow_zero] at h
      exact h rfl
    rw [descend, entryAddr]
    dsimp only
    rw [if_neg hentry]
    exact ih h

theorem bmapAt_found {p : Fin naddrs × List Nat} (h : (fs.tree ip).block p.1 p.2 ≠ 0) :
    fs.bmapAt ip p = .ok (fs, (fs.tree ip).block p.1 p.2) := by
  have hslot : (fs.din ip).addrs p.1 ≠ 0 := by
    intro hzero
    apply h
    unfold Forest.block
    rw [show (fs.tree ip).root p.1 = 0 from hzero, follow_zero]
  rw [bmapAt, slotAddr]
  dsimp only
  rw [if_neg hslot]
  exact descend_found h

theorem Mapped.bmap {n bn a : Nat} (h : fs.Mapped ip n) (hbn : bn * bsize < n)
    (hok : fs.bmap ip bn = .ok (fs', a)) :
    fs' = fs ∧ ∃ p, place bn = some p ∧ (fs.tree ip).block p.1 p.2 = a := by
  rw [bmap_eq] at hok
  cases hplace : place bn with
  | none =>
    rw [hplace] at hok
    cases hok
  | some p =>
    rw [hplace, Option.elim, bmapAt_found (h bn p hplace hbn)] at hok
    cases Except.ok.inj hok
    exact ⟨rfl, p, rfl, rfl⟩

theorem Mapped.readLoop {fuel off n size : Nat} {bytes : List UInt8} (h : fs.Mapped ip size)
    (hn : off + n ≤ size) (hok : Fs.readLoop ip fuel fs off n = .ok (fs', bytes)) : fs' = fs := by
  induction fuel generalizing off n bytes with
  | zero =>
    cases Except.ok.inj hok
    rfl
  | succ fuel ih =>
    unfold Fs.readLoop at hok
    split at hok
    · cases Except.ok.inj hok
      rfl
    · obtain ⟨⟨fs1, addr⟩, hbmap, hok⟩ := bind_eq_ok.mp hok
      obtain ⟨⟨fs2, rest⟩, hrest, hok⟩ := bind_eq_ok.mp hok
      cases Except.ok.inj hok
      obtain ⟨rfl, -⟩ := h.bmap (by simp only [bsize]; omega) hbmap
      exact ih (by omega) hrest

theorem Mapped.readi {off n : Nat} {a : Io (List UInt8)} (h : fs.Mapped ip (fs.din ip).size)
    (hok : fs.readi ip off n = .ok (fs', a)) : fs' = fs := by
  unfold Fs.readi at hok
  dsimp only at hok
  split at hok
  · cases Except.ok.inj hok
    rfl
  · split at hok
    · cases Except.ok.inj hok
      rfl
    · rename_i hrange
      obtain ⟨⟨fs1, bytes⟩, hloop, hok⟩ := bind_eq_ok.mp hok
      cases Except.ok.inj hok
      exact h.readLoop (by split <;> omega) hloop

theorem Mapped.bmap_ok {n bn : Nat} (h : fs.Mapped ip n) (hn : n ≤ maxfile * bsize)
    (hbn : bn * bsize < n) : ∃ a, fs.bmap ip bn = .ok (fs, a) := by
  have hlt : bn < maxfile := by
    simp only [bsize] at *
    omega
  obtain ⟨p, hplace⟩ := place_of_lt hlt
  rw [bmap_eq, hplace]
  exact ⟨_, bmapAt_found (h bn p hplace hbn)⟩

theorem Mapped.readLoop_ok {fuel off n size : Nat} (h : fs.Mapped ip size)
    (hsize : size ≤ maxfile * bsize) (hn : off + n ≤ size) :
    ∃ bytes, Fs.readLoop ip fuel fs off n = .ok (fs, bytes) := by
  induction fuel generalizing off n with
  | zero => exact ⟨[], rfl⟩
  | succ fuel ih =>
    unfold Fs.readLoop
    split
    · exact ⟨[], rfl⟩
    · have hbelow : off / bsize * bsize < size := by
        simp only [bsize]
        omega
      have hrest :
          off + min n (bsize - off % bsize) + (n - min n (bsize - off % bsize)) ≤ size := by
        omega
      obtain ⟨a, ha⟩ := h.bmap_ok hsize hbelow
      obtain ⟨bytes, hrest⟩ := ih hrest
      rw [ha]
      exact ⟨(fs.data a).slice (off % bsize) (min n (bsize - off % bsize)) ++ bytes,
        by simp only [bind, Except.bind, hrest]; rfl⟩

theorem Mapped.readi_ok (h : fs.Mapped ip (fs.din ip).size)
    (hsize : (fs.din ip).size ≤ maxfile * bsize) (off n : Nat) :
    ∃ r, fs.readi ip off n = .ok (fs, r) := by
  unfold Fs.readi
  dsimp only
  split
  · exact ⟨_, rfl⟩
  · split
    · exact ⟨_, rfl⟩
    · generalize hlen : (if (fs.din ip).size < off + n then (fs.din ip).size - off else n) = m
      have hm : off + m ≤ (fs.din ip).size := by
        rw [← hlen]
        split <;> omega
      have hloop : ∃ bytes, Fs.readLoop ip m fs off m = .ok (fs, bytes) :=
        h.readLoop_ok hsize hm
      obtain ⟨bytes, hloop⟩ := hloop
      rw [hloop]
      exact ⟨.done bytes, rfl⟩

theorem Touches.mapped {n : Nat} (h : Touches fs fs' ip) (hmapped : fs.Mapped ip n) :
    fs'.Mapped ip n := by
  intro bn p hplace hbn
  have hne := hmapped bn p hplace hbn
  rw [h.tree.keeps p.1 p.2 (place_in_tree fs ip hplace) hne]
  exact hne

theorem Mapped.writeLoop {fuel off size : Nat} {src : List UInt8} (hsound : fs.Sound ip)
    (h : fs.Mapped ip size) (hn : off + src.length ≤ size)
    (hok : Fs.writeLoop ip fuel fs off src = .ok fs') : fs'.icache = fs.icache := by
  induction fuel generalizing fs off src with
  | zero =>
    cases Except.ok.inj hok
    rfl
  | succ fuel ih =>
    rcases writeLoop_cases hok with ⟨rfl, -⟩ | ⟨fs1, addr, m, hbmap, -, hmpos, hmlen, hfits, hrest⟩
    · rfl
    · obtain ⟨p, hplace, hfills, hblock, hne⟩ := bmap_spec hsound hbmap
      obtain ⟨htouches, -, -⟩ := writeBlock_spec hfills.sound hplace hblock hne hfits
      obtain ⟨rfl, -⟩ := h.bmap (by simp only [bsize]; omega) hbmap
      refine (ih htouches.sound (htouches.mapped h) ?_ hrest).trans (logWrite_icache _ _)
      rw [List.length_drop]
      omega

theorem writeLoop_mapped {fuel off bn : Nat} {src : List UInt8} {p : Fin naddrs × List Nat}
    (h : fs.Sound ip) (hfuel : src.length ≤ fuel)
    (hok : writeLoop ip fuel fs off src = .ok fs') (hplace : place bn = some p)
    (hlow : off ≤ bn * bsize) (hhigh : bn * bsize < off + src.length) :
    (fs'.tree ip).block p.1 p.2 ≠ 0 := by
  induction fuel generalizing fs off src with
  | zero => omega
  | succ fuel ih =>
    rcases writeLoop_cases hok with ⟨-, rfl⟩ | ⟨fs1, addr, m, hbmap, hm, hmpos, hmlen, hfits, hrest⟩
    · rw [List.length_nil] at hhigh
      omega
    · obtain ⟨q, hplace', hfills, hblock, hne⟩ := bmap_spec h hbmap
      obtain ⟨htouches, hblocks, -⟩ := writeBlock_spec hfills.sound hplace' hblock hne hfits
      have hfuel' : (src.drop m).length ≤ fuel := by
        rw [List.length_drop]
        omega
      by_cases hbn : off / bsize = bn
      · -- the block of this turn is kept by the later ones
        rw [hbn, hplace] at hplace'
        cases hplace'
        obtain ⟨hlater, -⟩ := writeLoop_spec htouches.sound hfuel' hrest
        have hthere := hblocks p.1 p.2 (place_in_tree fs1 ip hplace)
        rw [hblock] at hthere
        rw [hlater.tree.keeps _ _ (place_in_tree _ ip hplace) (by rw [hthere]; exact hne), hthere]
        exact hne
      · apply ih htouches.sound hfuel' hrest
        · simp only [bsize] at *
          omega
        · rw [List.length_drop]
          omega

structure Frame (fs fs' : Fs) (ip : Iref) : Prop where
  tree : (fs.tree ip).Extends (fs'.tree ip) fs.Used fs'.Used
  data : ∀ a, a ≠ 0 → (∀ slot js, (fs.tree ip).Fits slot js → (fs'.tree ip).block slot js ≠ a) →
    fs'.data a = fs.data a
  icache : ∀ i, i ≠ ip → fs'.icache i = fs.icache i
  dinode : ∀ inum, inum ≠ (fs.icache ip).inum → fs'.dinode inum = fs.dinode inum
  beyond : ∀ b, fssize ≤ b → fs'.bitmap b = fs.bitmap b

theorem writei_frame (h : fs.Sound ip) (hok : fs.writei ip src off = .ok (fs', a)) :
    Frame fs fs' ip := by
  obtain ⟨rfl, -⟩ | ⟨fs1, -, -, hloop, -, hfs'⟩ := writei_steps hok
  · exact ⟨h.extends_refl, fun _ _ _ => rfl, fun _ _ => rfl, fun _ _ => rfl, fun _ _ => rfl⟩
  · obtain ⟨htouches, -⟩ := writeLoop_spec h le_rfl hloop
    split at hfs'
    · obtain ⟨hbitmap, hdata, -, hdinode⟩ :=
        store_same fs1 ip { fs1.din ip with size := off + src.length }
      obtain ⟨htree, hused⟩ :=
        store_tree (d := { fs1.din ip with size := off + src.length }) rfl
      rw [← hfs'] at hbitmap hdata hdinode htree hused
      refine ⟨?_, ?_, fun i hi => ?_, fun inum hne => ?_, fun b hb => ?_⟩
      · rw [htree, hused]
        exact htouches.tree
      · rw [htree, hdata]
        exact htouches.data
      · rw [hfs', (store_sameEntry ..).others i hi, htouches.others i hi]
      · rw [hdinode, htouches.sameEntry.inum, Function.update_of_ne hne, htouches.dinode]
      · rw [hbitmap, htouches.beyond b hb]
    · subst hfs'
      exact ⟨htouches.tree, htouches.data, htouches.others, fun _ _ => by rw [htouches.dinode],
        htouches.beyond⟩

theorem Mapped.writei_mapped (hsound : fs.Sound ip) (h : fs.Mapped ip (fs.din ip).size)
    (hok : fs.writei ip src off = .ok (fs', a)) : fs'.Mapped ip (fs'.din ip).size := by
  obtain ⟨rfl, -⟩ | ⟨fs1, hoff, hmax, hloop, -, hfs'⟩ := writei_steps hok
  · exact h
  · obtain ⟨htouches, -⟩ := writeLoop_spec hsound le_rfl hloop
    split at hfs'
    · obtain ⟨htree, -⟩ :=
        store_tree (d := { fs1.din ip with size := off + src.length }) rfl
      subst hfs'
      rw [store_din, Mapped, htree]
      intro bn p hplace hbn
      by_cases hold : bn * bsize < (fs.din ip).size
      · exact htouches.mapped h bn p hplace hold
      · exact writeLoop_mapped hsound le_rfl hloop hplace (by omega) hbn
    · subst hfs'
      rw [htouches.fields.2.2]
      exact htouches.mapped h

structure Stores (fs fs' : Fs) (ip : Iref) : Prop where
  sound : fs'.Sound ip
  tree : (fs.tree ip).Extends (fs'.tree ip) fs.Used fs'.Used
  data : ∀ a, a ≠ 0 → (∀ slot js, (fs.tree ip).Fits slot js → (fs'.tree ip).block slot js ≠ a) →
    fs'.data a = fs.data a
  entry : SameEntry fs fs' ip
  type : (fs'.din ip).type = (fs.din ip).type
  stored : fs'.dinode = Function.update fs.dinode (fs.icache ip).inum (fs'.din ip)
  mapped : fs'.Mapped ip (fs'.din ip).size
  sized : (fs.din ip).size ≤ maxfile * bsize → (fs'.din ip).size ≤ maxfile * bsize

theorem Mapped.writei (hsound : fs.Sound ip)
    (hsynced : fs.din ip = fs.dinode (fs.icache ip).inum) (h : fs.Mapped ip (fs.din ip).size)
    (hok : fs.writei ip src off = .ok (fs', a)) : Stores fs fs' ip := by
  have hsame : fs.dinode = Function.update fs.dinode (fs.icache ip).inum (fs.din ip) := by
    rw [hsynced, Function.update_eq_self]
  have hframe := writei_frame hsound hok
  have hmapped := h.writei_mapped hsound hok
  obtain ⟨hsound', hentry, -⟩ := writei_spec hsound hok
  obtain ⟨rfl, -⟩ | ⟨fs1, hoff, hmax, hloop, -, hfs'⟩ := writei_steps hok
  · exact ⟨hsound', hframe.tree, hframe.data, hentry, rfl, hsame, hmapped, id⟩
  · obtain ⟨htouches, -⟩ := writeLoop_spec hsound le_rfl hloop
    have hsize : (fs1.din ip).size = (fs.din ip).size := htouches.fields.2.2
    split at hfs'
    · obtain ⟨-, -, -, hdinode⟩ :=
        store_same fs1 ip { fs1.din ip with size := off + src.length }
      have hdin : fs'.din ip = { fs1.din ip with size := off + src.length } := by
        rw [hfs', store_din]
      refine ⟨hsound', hframe.tree, hframe.data, hentry, ?_, ?_, hmapped, ?_⟩
      · rw [hdin]
        exact htouches.fields.1
      · rw [hdin, hfs', hdinode, htouches.dinode, htouches.sameEntry.inum]
      · rw [hdin]
        exact fun _ => hmax
    · rename_i hgrow
      subst hfs'
      have hicache : fs'.icache = fs.icache := by
        by_cases hlen : src.length = 0
        · rw [hlen] at hloop
          cases Except.ok.inj hloop
          rfl
        · exact h.writeLoop hsound (by omega) hloop
      have hdin : fs'.din ip = fs.din ip := by rw [din, din, hicache]
      refine ⟨hsound', hframe.tree, hframe.data, hentry, by rw [hdin], ?_, hmapped, ?_⟩
      · rw [htouches.dinode, hdin]
        exact hsame
      · rw [hdin]
        exact id

end Fs

end Xv6

import Xv6.Fs.Room
import Mathlib.Algebra.Order.BigOperators.Group.Finset

/-! The blocks that `writei` logs: those of the file that it goes through, the one of its inode
and those of the bitmap. A header with room for all of them does not run full. -/
namespace Xv6

open BlockTree Fallible

/-- The places on the ways to the blocks of the bytes from `off` to `off + n`. -/
def span (off n : Nat) : Finset (Fin naddrs × List Nat) :=
  (Finset.Ico (off / bsize) ((off + n + bsize - 1) / bsize)).biUnion path

theorem path_subset_span {off n bn : Nat} (hlow : off / bsize ≤ bn) (hhigh : bn * bsize < off + n) :
    path bn ⊆ span off n := by
  apply Finset.subset_biUnion_of_mem path
  rw [Finset.mem_Ico]
  refine ⟨hlow, ?_⟩
  simp only [bsize] at *
  omega

theorem card_path_le (bn : Nat) : (path bn).card ≤ 4 := by
  cases hplace : place bn with
  | none =>
    rw [path, hplace]
    exact Nat.zero_le 4
  | some p =>
    have hlen : p.2.length = depth p.1 := (place_spec hplace).1
    have hdepth : depth p.1 ≤ 3 := by
      have hslot := p.1.isLt
      simp only [depth, naddrs, ndirect] at *
      omega
    rw [path_eq hplace]
    refine (List.toFinset_card_le _).trans ?_
    rw [List.length_map, List.length_inits]
    omega

theorem card_span_le (off n : Nat) : (span off n).card ≤ ((n + bsize - 1) / bsize + 1) * 4 := by
  refine (Finset.card_biUnion_le_card_mul _ _ _ fun bn _ => card_path_le bn).trans ?_
  refine Nat.mul_le_mul_right 4 ?_
  rw [Nat.card_Ico]
  simp only [bsize]
  omega

namespace Fs

variable {fs fs' : Fs} {ip : Iref} {slot : Fin naddrs} {js ks base : List Nat}
  {a b off : Nat} {src : List UInt8} {blocks : Finset Nat}
  {places : Finset (Fin naddrs × List Nat)}

structure Charged (fs : Fs) (base : List Nat) (blocks : Finset Nat) : Prop where
  header : ∃ new, fs.logged = base ++ new ∧ new.Nodup ∧ ∀ b ∈ new, b ∈ blocks
  fits : base.length + blocks.card < logRoom

theorem Charged.length_lt (h : fs.Charged base blocks) : fs.logged.length < logRoom := by
  obtain ⟨new, hlogged, hnodup, hsub⟩ := h.header
  have hfits := h.fits
  have hcard : new.toFinset.card ≤ blocks.card :=
    Finset.card_le_card fun b hb => hsub b (List.mem_toFinset.mp hb)
  rw [List.toFinset_card_of_nodup hnodup] at hcard
  rw [hlogged, List.length_append]
  omega

theorem Charged.logWrite (h : fs.Charged base blocks) (hb : b ∈ blocks) :
    (fs.logWrite b).Charged base blocks := by
  have hlen := h.length_lt
  unfold Fs.logWrite
  split
  · exact h
  · rename_i hnot
    obtain ⟨new, hlogged, hnodup, hsub⟩ := h.header
    have hout : b ∉ new := by
      intro hmem
      refine hnot ⟨?_, hlen⟩
      rw [hlogged]
      exact List.mem_append_right base hmem
    refine ⟨⟨new ++ [b], ?_, ?_, ?_⟩, h.fits⟩
    · rw [← List.append_assoc, ← hlogged]
    · rw [← List.concat_eq_append]
      exact hnodup.concat hout
    · intro b' hb'
      rcases List.mem_append.mp hb' with hb' | hb'
      · exact hsub b' hb'
      · rw [List.mem_singleton.mp hb']
        exact hb

theorem Charged.congr (h : fs.Charged base blocks) (hlogged : fs'.logged = fs.logged) :
    fs'.Charged base blocks :=
  ⟨by rw [hlogged]; exact h.header, h.fits⟩

theorem Charged.balloc (h : fs.Charged base blocks) (hok : fs.balloc = .ok (fs', b))
    (hb : b ∈ blocks) (hbit : bblock b ∈ blocks) : fs'.Charged base blocks := by
  unfold Fs.balloc at hok
  split at hok
  · cases hok
  · cases Except.ok.inj hok
    have hmarked : ({ fs with bitmap := Function.update fs.bitmap b true } : Fs).Charged
        base blocks := h.congr rfl
    exact Charged.logWrite ((hmarked.logWrite hbit).congr rfl) hb

theorem Charged.writeBlock {start : Nat} (h : fs.Charged base blocks) (ha : a ∈ blocks) :
    (fs.writeBlock a start src).Charged base blocks :=
  Charged.logWrite (h.congr rfl) ha

theorem Charged.iupdate (h : fs.Charged base blocks)
    (hb : iblock (fs.icache ip).inum ∈ blocks) : (fs.iupdate ip).Charged base blocks :=
  Charged.logWrite (h.congr rfl) hb

/-- The blocks that `writei` may log for a file with its blocks at `places`. -/
def ledger (fs : Fs) (ip : Iref) (places : Finset (Fin naddrs × List Nat)) : Finset Nat :=
  insert (iblock (fs.icache ip).inum) (Finset.Ico bmapstart nmeta ∪
    (places.image fun p => (fs.tree ip).block p.1 p.2).erase 0)

theorem card_ledger_le (fs : Fs) (ip : Iref) (places : Finset (Fin naddrs × List Nat)) :
    (fs.ledger ip places).card ≤ places.card + 11 := by
  have hbitmap : (Finset.Ico bmapstart nmeta).card = 10 := by decide
  have hown : ((places.image fun p => (fs.tree ip).block p.1 p.2).erase 0).card ≤ places.card :=
    (Finset.card_erase_le).trans Finset.card_image_le
  refine (Finset.card_insert_le _ _).trans ?_
  have hunion := Finset.card_union_le (Finset.Ico bmapstart nmeta)
    ((places.image fun p => (fs.tree ip).block p.1 p.2).erase 0)
  omega

theorem bblock_mem_ledger (hb : b < fssize) : bblock b ∈ fs.ledger ip places := by
  refine Finset.mem_insert_of_mem (Finset.mem_union_left _ (Finset.mem_Ico.mpr ?_))
  simp only [bblock, bpb, bmapstart, nmeta, fssize] at *
  omega

theorem block_mem_ledger (hmem : (slot, js) ∈ places) (hne : (fs.tree ip).block slot js ≠ 0) :
    (fs.tree ip).block slot js ∈ fs.ledger ip places :=
  Finset.mem_insert_of_mem (Finset.mem_union_right _ (Finset.mem_erase.mpr
    ⟨hne, Finset.mem_image.mpr ⟨(slot, js), hmem, rfl⟩⟩))

structure Within (fs : Fs) (ip : Iref) (base : List Nat)
    (places : Finset (Fin naddrs × List Nat)) : Prop where
  charged : fs.Charged base (fs.ledger ip places)
  fits : ∀ p ∈ places, (fs.tree ip).Fits p.1 p.2
  room : base.length + (places.card + 11) < logRoom

theorem within_refl (hfits : ∀ p ∈ places, (fs.tree ip).Fits p.1 p.2)
    (hroom : fs.logged.length + (places.card + 11) < logRoom) :
    fs.Within ip fs.logged places := by
  have hcard := card_ledger_le fs ip places
  exact ⟨⟨⟨[], (List.append_nil _).symm, List.nodup_nil, fun _ hb => nomatch hb⟩, by omega⟩,
    hfits, hroom⟩

theorem Within.of_charged (h : fs.Within ip base places)
    (hcharged : fs'.Charged base (fs'.ledger ip places)) : fs'.Within ip base places :=
  ⟨hcharged, h.fits, h.room⟩

theorem Touches.ledger_subset (h : Touches fs fs' ip)
    (hfits : ∀ p ∈ places, (fs.tree ip).Fits p.1 p.2) :
    fs.ledger ip places ⊆ fs'.ledger ip places := by
  intro b hb
  obtain ⟨addrs, hsame⟩ := h.same
  rcases Finset.mem_insert.mp hb with rfl | hb
  · rw [ledger, hsame]
    exact Finset.mem_insert_self _ _
  · rcases Finset.mem_union.mp hb with hb | hb
    · exact Finset.mem_insert_of_mem (Finset.mem_union_left _ hb)
    · obtain ⟨hne, hb⟩ := Finset.mem_erase.mp hb
      obtain ⟨p, hp, rfl⟩ := Finset.mem_image.mp hb
      have hkept := h.tree.keeps p.1 p.2 (hfits p hp) hne
      rw [← hkept] at hne ⊢
      exact block_mem_ledger hp hne

/-- A call that adds blocks to the file logs them as well, so the room is taken for the file as
it is in the end. -/
theorem Within.later (h : fs.Within ip base places) (htouches : Touches fs fs' ip) :
    fs.Charged base (fs'.ledger ip places) := by
  obtain ⟨new, hlogged, hnodup, hsub⟩ := h.charged.header
  have hcard := card_ledger_le fs' ip places
  have hroom := h.room
  exact ⟨⟨new, hlogged, hnodup, fun b hb => htouches.ledger_subset h.fits (hsub b hb)⟩, by omega⟩

theorem Within.slotAddr (h : fs.Within ip base places) (hsound : fs.Sound ip)
    (hmem : (slot, []) ∈ places) (hok : fs.slotAddr ip slot = .ok (fs', a)) :
    fs'.Within ip base places := by
  obtain ⟨hfills, -, hblock, hne⟩ := slotAddr_spec hsound hok
  have hlater := h.later hfills.toTouches
  have hown := block_mem_ledger hmem (hblock.symm ▸ hne)
  rw [hblock] at hown
  unfold Fs.slotAddr at hok
  dsimp only at hok
  split at hok
  · obtain ⟨⟨fs1, b⟩, halloc, hok⟩ := bind_eq_ok.mp hok
    cases Except.ok.inj hok
    have hcharged := hlater.balloc halloc hown (bblock_mem_ledger (balloc_spec halloc).below)
    exact h.of_charged (hcharged.congr rfl)
  · cases Except.ok.inj hok
    exact h

theorem Within.entryAddr {j : Nat} (h : fs.Within ip base places) (hsound : fs.Sound ip)
    (hfits : (fs.tree ip).Fits slot (js ++ [j])) (hnode : (fs.tree ip).block slot js ≠ 0)
    (habove : (slot, js) ∈ places) (hmem : (slot, js ++ [j]) ∈ places)
    (hok : fs.entryAddr ((fs.tree ip).block slot js) j = .ok (fs', a)) :
    fs'.Within ip base places := by
  obtain ⟨hfills, -, hblock, hne⟩ := entryAddr_spec hsound hfits hnode hok
  have hlater := h.later hfills.toTouches
  have hown := block_mem_ledger hmem (hblock.symm ▸ hne)
  rw [hblock] at hown
  have hkept := hfills.tree.keeps slot js hfits.init hnode
  have hindirect := block_mem_ledger habove (hkept.symm ▸ hnode)
  rw [hkept] at hindirect
  unfold Fs.entryAddr at hok
  dsimp only at hok
  split at hok
  · obtain ⟨⟨fs1, b⟩, halloc, hok⟩ := bind_eq_ok.mp hok
    cases Except.ok.inj hok
    have hcharged := hlater.balloc halloc hown (bblock_mem_ledger (balloc_spec halloc).below)
    exact h.of_charged (Charged.logWrite (hcharged.congr rfl) hindirect)
  · cases Except.ok.inj hok
    exact h

theorem Within.descend (h : fs.Within ip base places) (hsound : fs.Sound ip)
    (hfits : (fs.tree ip).Fits slot (js ++ ks)) (hnode : (fs.tree ip).block slot js ≠ 0)
    (hsub : nodes (slot, js ++ ks) ⊆ places)
    (hok : Fs.descend ks fs ((fs.tree ip).block slot js) = .ok (fs', a)) :
    fs'.Within ip base places := by
  induction ks generalizing js fs with
  | nil =>
    cases Except.ok.inj hok
    exact h
  | cons k ks ih =>
    obtain ⟨⟨fs1, addr⟩, hentry, hrest⟩ := bind_eq_ok.mp hok
    have hsplit : js ++ k :: ks = js ++ [k] ++ ks := by simp
    have habove : (slot, js) ∈ places := hsub (mem_nodes.mpr ⟨rfl, List.prefix_append js _⟩)
    rw [hsplit] at hfits hsub
    have hmem : (slot, js ++ [k]) ∈ places :=
      hsub (mem_nodes.mpr ⟨rfl, List.prefix_append (js ++ [k]) ks⟩)
    obtain ⟨hfills, -, hblock, hne⟩ := entryAddr_spec hsound hfits.left hnode hentry
    have hwithin := h.entryAddr hsound hfits.left hnode habove hmem hentry
    rw [← hblock] at hrest hne
    exact ih hwithin hfills.sound (hfills.tree.fits_iff.mpr hfits) hne hsub hrest

theorem Within.bmap {bn : Nat} (h : fs.Within ip base places) (hsound : fs.Sound ip)
    (hsub : path bn ⊆ places) (hok : fs.bmap ip bn = .ok (fs', a)) :
    fs'.Within ip base places := by
  obtain ⟨p, hplace, -⟩ := bmap_spec hsound hok
  rw [path_eq hplace] at hsub
  rw [bmap_eq, hplace] at hok
  obtain ⟨⟨fs1, addr⟩, hslot, hrest⟩ := bind_eq_ok.mp hok
  obtain ⟨hfills, -, hblock, hne⟩ := slotAddr_spec hsound hslot
  have hwithin := h.slotAddr hsound (hsub (mem_nodes.mpr ⟨rfl, List.nil_prefix⟩)) hslot
  rw [← hblock] at hrest hne
  exact hwithin.descend hfills.sound (place_in_tree fs1 ip hplace) hne hsub hrest

theorem Within.writeLoop {fuel : Nat} (h : fs.Within ip base places) (hsound : fs.Sound ip)
    (hsub : ∀ bn, off / bsize ≤ bn → bn * bsize < off + src.length → path bn ⊆ places)
    (hok : Fs.writeLoop ip fuel fs off src = .ok fs') : fs'.Within ip base places := by
  induction fuel generalizing fs off src with
  | zero =>
    cases Except.ok.inj hok
    exact h
  | succ fuel ih =>
    rcases writeLoop_cases hok with
      ⟨rfl, -⟩ | ⟨fs1, addr, m, hbmap, -, hmpos, hmlen, hfits, hrest⟩
    · exact h
    · have hpath : path (off / bsize) ⊆ places := hsub _ le_rfl (by simp only [bsize]; omega)
      obtain ⟨p, hplace, hfills, hblock, hne⟩ := bmap_spec hsound hbmap
      have hwithin := h.bmap hsound hpath hbmap
      rw [path_eq hplace] at hpath
      obtain ⟨htouches, hblocks, -⟩ := writeBlock_spec hfills.sound hplace hblock hne hfits
      have hleaf := (hblocks _ _ (place_in_tree fs1 ip hplace)).trans hblock
      have hown := block_mem_ledger (hpath (mem_nodes.mpr ⟨rfl, List.prefix_refl p.2⟩))
        (hleaf.symm ▸ hne)
      rw [hleaf] at hown
      have hcharged := hwithin.of_charged ((hwithin.later htouches).writeBlock hown)
      refine ih hcharged htouches.sound (fun bn hlow hhigh => ?_) hrest
      rw [List.length_drop, Nat.add_assoc, Nat.add_sub_cancel' hmlen] at hhigh
      exact hsub bn (le_trans (Nat.div_le_div_right (Nat.le_add_right off m)) hlow) hhigh

theorem writei_fits {r : Io Nat} (hsound : fs.Sound ip)
    (hroom : fs.logged.length + ((span off src.length).card + 11) < logRoom)
    (hok : fs.writei ip src off = .ok (fs', r)) : fs'.logged.length < logRoom := by
  have hwithin := within_refl (biUnion_path_fits fs ip _) hroom
  obtain ⟨rfl, -⟩ | ⟨fs1, -, -, hloop, -, hfs'⟩ := writei_steps hok
  · exact hwithin.charged.length_lt
  · have hend := hwithin.writeLoop hsound (fun bn => path_subset_span) hloop
    split at hfs'
    · have hstored : ((fs1.setDin ip { fs1.din ip with size := off + src.length }).iupdate
          ip).Charged fs.logged (fs1.ledger ip (span off src.length)) := by
        refine Charged.iupdate (Charged.congr hend.charged rfl) ?_
        simp [setDin, setInode, ledger]
      rw [hfs']
      exact hstored.length_lt
    · rw [hfs']
      exact hend.charged.length_lt

end Fs

end Xv6

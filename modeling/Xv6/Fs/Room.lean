import Xv6.Fs.Full
import Mathlib.Order.Interval.Finset.Nat

/-! Room for the blocks of a file. `balloc` fails only on a full disk, and `bmap` adds no more
than the blocks that are missing on the way to the one it is asked for. -/
namespace Xv6

open BlockTree Fallible

def nodes (p : Fin naddrs × List Nat) : Finset (Fin naddrs × List Nat) :=
  (p.2.inits.map (p.1, ·)).toFinset

theorem mem_nodes {p q : Fin naddrs × List Nat} : q ∈ nodes p ↔ q.1 = p.1 ∧ q.2 <+: p.2 := by
  obtain ⟨slot, js⟩ := q
  simp only [nodes, List.mem_toFinset, List.mem_map, List.mem_inits, Prod.mk.injEq]
  constructor
  · rintro ⟨js', hinit, rfl, rfl⟩
    exact ⟨rfl, hinit⟩
  · rintro ⟨rfl, hinit⟩
    exact ⟨js, hinit, rfl, rfl⟩

def path (bn : Nat) : Finset (Fin naddrs × List Nat) := (place bn).elim ∅ nodes

theorem path_eq {bn : Nat} {p : Fin naddrs × List Nat} (h : place bn = some p) :
    path bn = nodes p := by
  rw [path, h]
  rfl

theorem place_notMem_nodes {bn bn' : Nat} {p p' : Fin naddrs × List Nat} (h : place bn = some p)
    (h' : place bn' = some p') (hne : bn' ≠ bn) : p' ∉ nodes p := by
  intro hmem
  obtain ⟨hslot, hinit⟩ := mem_nodes.mp hmem
  have hlen : p'.2.length = p.2.length := by rw [(place_spec h').1, (place_spec h).1, hslot]
  rw [Prod.ext hslot (hinit.eq_of_length hlen)] at h'
  exact hne (place_inj h' h)

namespace Fs

variable {fs fs' fs'' : Fs} {ip : Iref} {slot : Fin naddrs} {js ks : List Nat} {a : Nat}
  {span places : Finset (Fin naddrs × List Nat)}

def freeBlocks (fs : Fs) : Nat := ((Finset.range fssize).filter fun b => fs.bitmap b = false).card

theorem firstClear_none {bitmap : Nat → Bool} {fuel start : Nat}
    (h : firstClear bitmap fuel start = none) {b : Nat} (hlow : start ≤ b)
    (hhigh : b < start + fuel) : bitmap b = true := by
  induction fuel generalizing start with
  | zero => omega
  | succ fuel ih =>
    unfold firstClear at h
    split at h
    · rename_i hset
      by_cases heq : b = start
      · rw [heq]
        exact hset
      · exact ih h (by omega) (by omega)
    · cases h

theorem balloc_ok (h : 0 < fs.freeBlocks) : ∃ fs' b, fs.balloc = .ok (fs', b) := by
  unfold balloc
  cases hclear : firstClear fs.bitmap fssize 0 with
  | some b => exact ⟨_, _, rfl⟩
  | none =>
    obtain ⟨b, hb⟩ := Finset.card_pos.mp h
    obtain ⟨hbelow, hfree⟩ := Finset.mem_filter.mp hb
    have hset := firstClear_none hclear (Nat.zero_le b)
      (by rw [Nat.zero_add]; exact Finset.mem_range.mp hbelow)
    rw [hfree] at hset
    cases hset

theorem freeBlocks_update (hbelow : a < fssize) (hfree : fs.bitmap a = false)
    (hbitmap : fs'.bitmap = Function.update fs.bitmap a true) :
    fs'.freeBlocks + 1 = fs.freeBlocks := by
  have herase : (Finset.range fssize).filter (fun b => fs'.bitmap b = false) =
      ((Finset.range fssize).filter fun b => fs.bitmap b = false).erase a := by
    ext b
    simp only [Finset.mem_filter, Finset.mem_erase, hbitmap]
    by_cases hb : b = a
    · simp [hb]
    · simp [hb]
  rw [freeBlocks, freeBlocks, herase]
  apply Finset.card_erase_add_one
  exact Finset.mem_filter.mpr ⟨Finset.mem_range.mpr hbelow, hfree⟩

/-- The disk has as many free blocks as the file lacks at the given places. -/
structure Room (fs : Fs) (ip : Iref) (places : Finset (Fin naddrs × List Nat)) : Prop where
  fits : ∀ p ∈ places, (fs.tree ip).Fits p.1 p.2
  enough : ((fs.tree ip).missing places).card ≤ fs.freeBlocks

theorem Room.balloc_ok (h : Room fs ip places) (hmem : (slot, js) ∈ places)
    (hempty : (fs.tree ip).block slot js = 0) : ∃ fs' b, fs.balloc = .ok (fs', b) := by
  apply Fs.balloc_ok
  refine lt_of_lt_of_le (Finset.card_pos.mpr ⟨(slot, js), ?_⟩) h.enough
  exact Finset.mem_filter.mpr ⟨hmem, hempty⟩

/-- Blocks are added at places of `span` only, and each of them takes a free block. -/
structure Grows (fs fs' : Fs) (ip : Iref) (span : Finset (Fin naddrs × List Nat)) : Prop where
  elsewhere : ∀ slot js, (fs.tree ip).Fits slot js → (slot, js) ∉ span →
    (fs'.tree ip).block slot js = (fs.tree ip).block slot js
  room : ∀ places, span ⊆ places → Room fs ip places → Room fs' ip places

theorem Grows.refl (fs : Fs) (ip : Iref) (span : Finset (Fin naddrs × List Nat)) :
    Grows fs fs ip span :=
  ⟨fun _ _ _ _ => rfl, fun _ _ h => h⟩

theorem Grows.trans (h : Grows fs fs' ip span) (h' : Grows fs' fs'' ip span) :
    Grows fs fs'' ip span where
  elsewhere := by
    intro slot js hfits hout
    rw [h'.elsewhere slot js hfits hout, h.elsewhere slot js hfits hout]
  room := fun places hsub hroom => h'.room places hsub (h.room places hsub hroom)

theorem Adds.grows (h : Adds fs fs' ip slot js a) (ha : a ≠ 0) (hmem : (slot, js) ∈ span) :
    Grows fs fs' ip span := by
  rcases h with rfl | ⟨hgains, hbelow, hfree, hbitmap⟩
  · exact .refl fs' ip span
  · refine ⟨fun slot' js' hfits hout => hgains.others slot' js' hfits ?_,
      fun places hsub hroom => ?_⟩
    · rintro ⟨rfl, rfl⟩
      exact hout hmem
    · have hless := hgains.card_missing ha hroom.fits (hsub hmem)
      have hfewer := freeBlocks_update hbelow hfree hbitmap
      have henough := hroom.enough
      exact ⟨hroom.fits, by omega⟩

theorem slotAddr_ok (h : Room fs ip places) (hmem : (slot, []) ∈ places) :
    ∃ fs' a, fs.slotAddr ip slot = .ok (fs', a) := by
  unfold slotAddr
  dsimp only
  split
  · rename_i hempty
    obtain ⟨fs1, b, halloc⟩ := h.balloc_ok hmem hempty
    rw [halloc]
    exact ⟨_, _, rfl⟩
  · exact ⟨_, _, rfl⟩

theorem entryAddr_ok {j : Nat} (h : Room fs ip places) (hmem : (slot, js ++ [j]) ∈ places)
    (hnode : (fs.tree ip).block slot js ≠ 0) :
    ∃ fs' a, fs.entryAddr ((fs.tree ip).block slot js) j = .ok (fs', a) := by
  unfold entryAddr
  dsimp only
  split
  · rename_i hempty
    obtain ⟨fs1, b, halloc⟩ :=
      h.balloc_ok hmem (by rw [Forest.block_snoc, if_neg hnode]; exact hempty)
    rw [halloc]
    exact ⟨_, _, rfl⟩
  · exact ⟨_, _, rfl⟩

theorem descend_grows (h : fs.Sound ip) (hfits : (fs.tree ip).Fits slot (js ++ ks))
    (hnode : (fs.tree ip).block slot js ≠ 0) (hok : descend ks fs ((fs.tree ip).block slot js) =
      .ok (fs', a)) : Grows fs fs' ip (nodes (slot, js ++ ks)) := by
  induction ks generalizing js fs with
  | nil =>
    cases Except.ok.inj hok
    exact .refl _ _ _
  | cons k ks ih =>
    obtain ⟨⟨fs1, addr⟩, hentry, hrest⟩ := bind_eq_ok.mp hok
    have hsplit : js ++ k :: ks = js ++ [k] ++ ks := by simp
    rw [hsplit] at hfits ⊢
    obtain ⟨hfills, hadds, hblock, hne⟩ := entryAddr_spec h hfits.left hnode hentry
    have hgrows : Grows fs fs1 ip (nodes (slot, js ++ [k] ++ ks)) :=
      hadds.grows hne (mem_nodes.mpr ⟨rfl, List.prefix_append (js ++ [k]) ks⟩)
    rw [← hblock] at hrest hne
    exact hgrows.trans (ih hfills.sound (hfills.tree.fits_iff.mpr hfits) hne hrest)

theorem descend_ok (h : fs.Sound ip) (hroom : Room fs ip places)
    (hnode : (fs.tree ip).block slot js ≠ 0) (hsub : nodes (slot, js ++ ks) ⊆ places) :
    ∃ fs' a, descend ks fs ((fs.tree ip).block slot js) = .ok (fs', a) := by
  induction ks generalizing js fs with
  | nil => exact ⟨_, _, rfl⟩
  | cons k ks ih =>
    have hsplit : js ++ k :: ks = js ++ [k] ++ ks := by simp
    rw [hsplit] at hsub
    have hmem : (slot, js ++ [k]) ∈ places :=
      hsub (mem_nodes.mpr ⟨rfl, List.prefix_append (js ++ [k]) ks⟩)
    obtain ⟨fs1, addr, hentry⟩ := entryAddr_ok hroom hmem hnode
    obtain ⟨hfills, hadds, hblock, hne⟩ := entryAddr_spec h (hroom.fits _ hmem) hnode hentry
    have hgrows := hadds.grows hne hmem
    rw [descend, hentry]
    rw [← hblock] at hne ⊢
    exact ih hfills.sound (hgrows.room _ (fun _ hp => hp) hroom) hne hsub

theorem bmap_grows {bn : Nat} {p : Fin naddrs × List Nat} (h : fs.Sound ip)
    (hplace : place bn = some p) (hok : fs.bmap ip bn = .ok (fs', a)) :
    Grows fs fs' ip (nodes p) := by
  rw [bmap_eq, hplace] at hok
  obtain ⟨⟨fs1, addr⟩, hslot, hrest⟩ := bind_eq_ok.mp hok
  obtain ⟨hfills, hadds, hblock, hne⟩ := slotAddr_spec h hslot
  have hgrows : Grows fs fs1 ip (nodes p) :=
    hadds.grows hne (mem_nodes.mpr ⟨rfl, List.nil_prefix⟩)
  rw [← hblock] at hrest hne
  exact hgrows.trans (descend_grows hfills.sound (place_in_tree fs1 ip hplace) hne hrest)

theorem bmap_ok {bn : Nat} {p : Fin naddrs × List Nat} (h : fs.Sound ip)
    (hplace : place bn = some p) (hroom : Room fs ip places) (hsub : nodes p ⊆ places) :
    ∃ fs' a, fs.bmap ip bn = .ok (fs', a) := by
  have hmem : (p.1, []) ∈ places := hsub (mem_nodes.mpr ⟨rfl, List.nil_prefix⟩)
  obtain ⟨fs1, addr, hslot⟩ := slotAddr_ok hroom hmem
  obtain ⟨hfills, hadds, hblock, hne⟩ := slotAddr_spec h hslot
  have hgrows := hadds.grows hne hmem
  rw [bmap_eq, hplace, Option.elim, bmapAt, hslot]
  rw [← hblock] at hne ⊢
  exact descend_ok hfills.sound (hgrows.room _ (fun _ hp => hp) hroom) hne hsub

theorem path_fits (fs : Fs) (ip : Iref) {bn : Nat} {p : Fin naddrs × List Nat}
    (hplace : place bn = some p) : ∀ q ∈ path bn, (fs.tree ip).Fits q.1 q.2 := by
  intro q hq
  rw [path_eq hplace] at hq
  obtain ⟨hslot, ks, hks⟩ := mem_nodes.mp hq
  have hfits := place_in_tree fs ip hplace
  rw [← hslot, ← hks] at hfits
  exact hfits.left

theorem biUnion_path_fits (fs : Fs) (ip : Iref) (bns : Finset Nat) :
    ∀ q ∈ bns.biUnion path, (fs.tree ip).Fits q.1 q.2 := by
  intro q hq
  obtain ⟨bn, -, hq⟩ := Finset.mem_biUnion.mp hq
  cases hplace : place bn with
  | none =>
    rw [path, hplace] at hq
    cases hq
  | some p => exact path_fits fs ip hplace q hq

theorem bmaps_ok {calls : List Nat} {bns : Finset Nat} (h : fs.Sound ip)
    (hroom : Room fs ip (bns.biUnion path)) (hcalls : ∀ bn ∈ calls, bn < maxfile ∧ bn ∈ bns) :
    ∃ fs', calls.foldlM (fun fs bn => (fs.bmap ip bn).map Prod.fst) fs = .ok fs' ∧
      fs'.Sound ip ∧ Room fs' ip (bns.biUnion path) := by
  induction calls generalizing fs with
  | nil => exact ⟨fs, rfl, h, hroom⟩
  | cons bn calls ih =>
    obtain ⟨hlt, hmem⟩ := hcalls bn List.mem_cons_self
    obtain ⟨p, hplace⟩ := place_of_lt hlt
    have hsub : nodes p ⊆ bns.biUnion path :=
      path_eq hplace ▸ Finset.subset_biUnion_of_mem path hmem
    obtain ⟨fs1, a, hbmap⟩ := bmap_ok h hplace hroom hsub
    obtain ⟨-, -, hfills, -, -⟩ := bmap_spec h hbmap
    obtain ⟨fs', hrest, hend⟩ := ih hfills.sound
      ((bmap_grows h hplace hbmap).room _ hsub hroom) fun bn' hmem' =>
      hcalls bn' (List.mem_cons_of_mem bn hmem')
    refine ⟨fs', ?_, hend⟩
    rw [List.foldlM_cons, hbmap]
    exact hrest

theorem sound_of_empty (hempty : ∀ slot, (fs.din ip).addrs slot = 0) (hzero : fs.Used 0) :
    fs.Sound ip := by
  have hblock : ∀ slot js, (fs.tree ip).block slot js = 0 := by
    intro slot js
    rw [Forest.block, show (fs.tree ip).root slot = 0 from hempty slot, follow_zero]
  refine ⟨hzero, fun slot js _ => ?_, fun slot js _ _ _ _ hne => absurd (hblock slot js) hne⟩
  rw [hblock]
  exact hzero

def address (fs : Fs) (ip : Iref) (bn : Nat) : Nat :=
  (place bn).elim 0 fun p => (fs.tree ip).block p.1 p.2

theorem address_eq {bn : Nat} {p : Fin naddrs × List Nat} (h : place bn = some p) :
    fs.address ip bn = (fs.tree ip).block p.1 p.2 := by
  rw [address, h]
  rfl

def Indirection (fs : Fs) (ip : Iref) (a : Nat) : Prop :=
  ∃ slot js, (fs.tree ip).Fits slot js ∧ js.length < depth slot ∧ (fs.tree ip).block slot js = a

def Unshared (fs : Fs) (ip : Iref) : Prop :=
  ∀ slot js slot' js', (fs.tree ip).Fits slot js → (fs.tree ip).Fits slot' js' →
    (fs.tree ip).block slot js ≠ 0 → (fs.tree ip).block slot js = (fs.tree ip).block slot' js' →
    slot = slot' ∧ js = js'

theorem bmap_again {bn : Nat} {p : Fin naddrs × List Nat} (h : fs.Sound ip)
    (hplace : place bn = some p) (hblock : (fs.tree ip).block p.1 p.2 = a) (ha : a ≠ 0)
    {bns : List Nat} (hok : bns.foldlM (fun fs bn => (fs.bmap ip bn).map Prod.fst) fs = .ok fs') :
    fs'.bmap ip bn = .ok (fs', a) := by
  have hkept : fs'.Sound ip ∧ (fs'.tree ip).block p.1 p.2 = a := by
    refine foldlM_invariant (fun fs => fs.Sound ip ∧ (fs.tree ip).block p.1 p.2 = a) ?_ bns
      ⟨h, hblock⟩ hok
    rintro fs1 bn1 fs2 ⟨hsound, hthere⟩ hstep
    obtain ⟨r, hbmap, rfl⟩ := map_eq_ok.mp hstep
    obtain ⟨-, -, hfills, -, -⟩ := bmap_spec hsound hbmap
    refine ⟨hfills.sound, ?_⟩
    rw [hfills.tree.keeps _ _ (place_in_tree fs1 ip hplace) (by rw [hthere]; exact ha), hthere]
  rw [bmap_eq, hplace, Option.elim, bmapAt_found (by rw [hkept.2]; exact ha), hkept.2]

/-- The block map is injective and stable over its whole range. -/
theorem bmap_stable {bn : Nat} (h : fs.Sound ip) (hbn : bn < maxfile)
    (hfree : ((fs.tree ip).missing (path bn)).card ≤ fs.freeBlocks) :
    ∃ fs' a, fs.bmap ip bn = .ok (fs', a) ∧ a ≠ 0 ∧ fs'.address ip bn = a ∧
      (∀ bn', bn' ≠ bn → fs'.address ip bn' ≠ a) ∧ ¬ fs'.Indirection ip a ∧
      (∀ bn', bn' ≠ bn → fs'.address ip bn' = fs.address ip bn') ∧
      ∀ (bns : List Nat) fs'', bns.foldlM (fun fs bn' => (fs.bmap ip bn').map Prod.fst) fs' =
        .ok fs'' → fs''.bmap ip bn = .ok (fs'', a) := by
  obtain ⟨p, hplace⟩ := place_of_lt hbn
  obtain ⟨fs', a, hbmap⟩ := bmap_ok h hplace ⟨path_fits fs ip hplace, hfree⟩ (path_eq hplace).ge
  have hgrows := bmap_grows h hplace hbmap
  obtain ⟨p', hplace', hfills, hblock, hne⟩ := bmap_spec h hbmap
  cases Option.some.inj (hplace.symm.trans hplace')
  have hfits := place_in_tree fs' ip hplace
  have hdistinct : ∀ slot js, (fs'.tree ip).Fits slot js → (fs'.tree ip).block slot js = a →
      p.1 = slot ∧ p.2 = js := by
    intro slot js hfits' heq
    refine hfills.sound.distinct p.1 p.2 slot js hfits hfits' ?_ (hblock.trans heq.symm)
    rw [hblock]
    exact hne
  refine ⟨fs', a, hbmap, hne, (address_eq hplace).trans hblock, ?_, ?_, ?_, ?_⟩
  · intro bn' hother heq
    cases hplace2 : place bn' with
    | none =>
      rw [address, hplace2] at heq
      exact hne heq.symm
    | some q =>
      rw [address_eq hplace2] at heq
      obtain ⟨hslot, hjs⟩ := hdistinct q.1 q.2 (place_in_tree fs' ip hplace2) heq
      rw [← Prod.ext hslot hjs] at hplace2
      exact hother (place_inj hplace2 hplace)
  · rintro ⟨slot, js, hfits', hinner, heq⟩
    obtain ⟨rfl, rfl⟩ := hdistinct slot js hfits' heq
    exact absurd (place_spec hplace).1 (Nat.ne_of_lt hinner)
  · intro bn' hother
    cases hplace2 : place bn' with
    | none => rw [address, address, hplace2]; rfl
    | some q =>
      rw [address_eq hplace2, address_eq hplace2]
      exact hgrows.elsewhere q.1 q.2 (place_in_tree fs ip hplace2)
        (place_notMem_nodes hplace hplace2 hother)
  · intro bns fs'' hlater
    exact bmap_again hfills.sound hplace hblock hne hlater

/-- A file with the blocks `addrs` on a disk whose first `low` blocks are marked. -/
def bare (low size : Nat) (addrs : Fin naddrs → Nat) : Fs where
  bitmap b := b < low
  dinode _ := Dinode.zero
  data _ := Block.zero
  icache _ := ⟨1, 1, true, { Dinode.zero with type := .file, nlink := 1, size, addrs }⟩
  logged := []

theorem bare_room (size : Nat) (addrs : Fin naddrs → Nat) {low : Nat} (hlow : low ≤ 100)
    (hspan : span.card ≤ 100) :
    (((bare low size addrs).tree ip).missing span).card ≤ (bare low size addrs).freeBlocks := by
  refine (Finset.card_filter_le _ _).trans (hspan.trans ?_)
  refine (show 100 ≤ (Finset.Ico 100 200).card by simp).trans (Finset.card_le_card fun b hb => ?_)
  have hb := Finset.mem_Ico.mp hb
  refine Finset.mem_filter.mpr ⟨Finset.mem_range.mpr (by simp only [fssize]; omega), ?_⟩
  exact decide_eq_false (by omega)

theorem bare_bmaps {calls : List Nat} {bns : Finset Nat}
    (hcalls : ∀ bn ∈ calls, bn < maxfile ∧ bn ∈ bns) (hcard : (bns.biUnion path).card ≤ 100) :
    ∃ fs, calls.foldlM (fun fs bn => (fs.bmap 0 bn).map Prod.fst) (bare nmeta 0 fun _ => 0) =
      .ok fs ∧ fs.Sound 0 ∧ Room fs 0 (bns.biUnion path) :=
  bmaps_ok (sound_of_empty (fun _ => rfl) rfl)
    ⟨biUnion_path_fits _ _ _, bare_room _ _ (by decide) hcard⟩ hcalls

/-- A file with blocks behind the single and the double indirection gets one more, and others
after it. -/
theorem bmap_stable_indirect : ∃ fs fs' fs'' a,
    [10, 138].foldlM (fun fs bn => (fs.bmap 0 bn).map Prod.fst) (bare nmeta 0 fun _ => 0) =
      .ok fs ∧
    fs.bmap 0 139 = .ok (fs', a) ∧ a ≠ 0 ∧ ¬ fs'.Indirection 0 a ∧
    [10, 3, 11].foldlM (fun fs bn => (fs.bmap 0 bn).map Prod.fst) fs' = .ok fs'' ∧
    fs''.bmap 0 139 = .ok (fs'', a) := by
  obtain ⟨fs, hok, hsound, hroom⟩ := bare_bmaps (show ∀ bn ∈ [10, 138],
    bn < maxfile ∧ bn ∈ ({3, 10, 11, 138, 139} : Finset Nat) by decide) (by decide)
  have hlt : 139 < maxfile := by decide
  have hsub : path 139 ⊆ ({3, 10, 11, 138, 139} : Finset Nat).biUnion path :=
    Finset.subset_biUnion_of_mem path (by decide)
  obtain ⟨fs', a, hbmap, hne, -, -, hinner, -, hlater⟩ := bmap_stable hsound hlt
    ((Finset.card_le_card (Finset.filter_subset_filter _ hsub)).trans hroom.enough)
  obtain ⟨p, hplace, hfills, -, -⟩ := bmap_spec hsound hbmap
  have hroom' := (bmap_grows hsound hplace hbmap).room _ (path_eq hplace ▸ hsub) hroom
  obtain ⟨fs'', hok', -, -⟩ := bmaps_ok hfills.sound hroom' (show ∀ bn ∈ [10, 3, 11],
    bn < maxfile ∧ bn ∈ ({3, 10, 11, 138, 139} : Finset Nat) by decide)
  exact ⟨fs, fs', fs'', a, hok, hbmap, hne, hinner, hok', hlater _ _ hok'⟩

def onlyFirst : Fin naddrs → Nat := fun slot => if slot = 0 then nmeta else 0

theorem bare_block {low size : Nat} (hfits : ((bare low size onlyFirst).tree 0).Fits slot js)
    (hne : ((bare low size onlyFirst).tree 0).block slot js ≠ 0) : slot = 0 ∧ js = [] := by
  have hslot : slot = 0 := by
    by_contra hslot
    apply hne
    rw [Forest.block, show ((bare low size onlyFirst).tree 0).root slot = 0 from if_neg hslot,
      follow_zero]
  subst hslot
  exact ⟨rfl, List.eq_nil_of_length_eq_zero (Nat.le_zero.mp hfits.1)⟩

theorem bare_unshared (low size : Nat) : (bare low size onlyFirst).Unshared 0 := by
  intro slot js slot' js' hfits hfits' hne heq
  obtain ⟨rfl, rfl⟩ := bare_block hfits hne
  obtain ⟨rfl, rfl⟩ := bare_block hfits' (heq ▸ hne)
  exact ⟨rfl, rfl⟩

/-- A block of the file that is not marked in the bitmap is given out a second time. -/
theorem bmap_shares_unmarked : (bare nmeta 512 onlyFirst).Unshared 0 ∧
    ∃ fs', (bare nmeta 512 onlyFirst).bmap 0 1 = .ok (fs', nmeta) ∧ fs'.address 0 0 = nmeta := by
  refine ⟨bare_unshared nmeta 512, _, rfl, ?_⟩
  decide +kernel

end Fs

end Xv6

import Xv6.Fs.Volume

/-! `itrunc` and the last `iput`: the bits of all blocks of the file are cleared, and those
of no other block. -/
namespace Xv6

open BlockTree Fallible

namespace Fs

variable {fs fs' fs'' : Fs} {ip : Iref} {gone gone' : Nat → Prop}

structure Frees (fs fs' : Fs) (gone : Nat → Prop) : Prop where
  bitmap : ∀ b, fs'.Used b ↔ fs.Used b ∧ ¬ gone b
  data : fs'.data = fs.data
  dinode : fs'.dinode = fs.dinode
  icache : fs'.icache = fs.icache

theorem Frees.none (fs : Fs) (hnone : ∀ b, ¬ gone b) : Frees fs fs gone :=
  ⟨fun b => ⟨fun hb => ⟨hb, hnone b⟩, And.left⟩, rfl, rfl, rfl⟩

theorem Frees.trans (h : Frees fs fs' gone) (h' : Frees fs' fs'' gone') :
    Frees fs fs'' fun b => gone b ∨ gone' b where
  bitmap := by
    intro b
    rw [h'.bitmap, h.bitmap, not_or, and_assoc]
  data := h'.data.trans h.data
  dinode := h'.dinode.trans h.dinode
  icache := h'.icache.trans h.icache

theorem Frees.congr (h : Frees fs fs' gone) (hgone : ∀ b, gone' b ↔ gone b) :
    Frees fs fs' gone' :=
  ⟨fun b => by rw [h.bitmap, hgone], h.data, h.dinode, h.icache⟩

theorem bfree_spec {b : Nat} (hok : fs.bfree b = .ok fs') : Frees fs fs' (· = b) := by
  unfold bfree at hok
  split at hok
  · cases Except.ok.inj hok
    refine ⟨fun x => ?_, by simp, by simp, by simp⟩
    simp only [Used, logWrite_bitmap, Function.update_apply]
    by_cases hx : x = b
    · simp [hx]
    · simp [hx]
  · cases hok

def Under (entry : Nat → Nat → Nat) (depth addr b : Nat) : Prop :=
  b ≠ 0 ∧ ∃ js, (js.length ≤ depth ∧ ∀ j ∈ js, j < nindirect) ∧ follow entry js addr = b

theorem under_none (entry : Nat → Nat → Nat) (depth b : Nat) : ¬ Under entry depth 0 b := by
  rintro ⟨hb, js, -, rfl⟩
  exact hb (follow_zero _ _)

theorem under_zero {entry : Nat → Nat → Nat} {addr b : Nat} (haddr : addr ≠ 0) :
    Under entry 0 addr b ↔ b = addr := by
  constructor
  · rintro ⟨-, js, ⟨hlen, -⟩, rfl⟩
    rw [List.eq_nil_of_length_eq_zero (Nat.le_zero.mp hlen)]
    rfl
  · rintro rfl
    exact ⟨haddr, [], ⟨le_rfl, by simp⟩, rfl⟩

theorem under_succ {entry : Nat → Nat → Nat} {depth addr b : Nat} (haddr : addr ≠ 0) :
    Under entry (depth + 1) addr b ↔
      (∃ j ∈ List.range nindirect, Under entry depth (entry addr j) b) ∨ b = addr := by
  constructor
  · rintro ⟨hb, js, ⟨hlen, hjs⟩, rfl⟩
    cases js with
    | nil => exact .inr rfl
    | cons j js =>
      rw [follow, if_neg haddr] at hb ⊢
      rw [List.length_cons] at hlen
      exact .inl ⟨j, List.mem_range.mpr (hjs j List.mem_cons_self), hb, js,
        ⟨by omega, fun k hk => hjs k (List.mem_cons_of_mem j hk)⟩, rfl⟩
  · rintro (⟨j, hj, hb, js, ⟨hlen, hjs⟩, rfl⟩ | rfl)
    · refine ⟨hb, j :: js, ⟨by rw [List.length_cons]; omega, fun k hk => ?_⟩, ?_⟩
      · rcases List.mem_cons.mp hk with rfl | hk
        · exact List.mem_range.mp hj
        · exact hjs k hk
      · rw [follow, if_neg haddr]
    · exact ⟨haddr, [], ⟨Nat.zero_le _, by simp⟩, rfl⟩

theorem freeLoop_spec {depth addr : Nat} {items : List Nat}
    (hsub : ∀ fs fs' entry, entry ≠ 0 → freeTree depth fs entry = .ok fs' →
      Frees fs fs' (Under (fun a j => (fs.data a).word j) depth entry))
    (hok : items.foldlM (fun fs j => if (fs.data addr).word j = 0 then .ok fs
      else freeTree depth fs ((fs.data addr).word j)) fs = .ok fs') :
    Frees fs fs' fun b => ∃ j ∈ items,
      Under (fun a j => (fs.data a).word j) depth ((fs.data addr).word j) b := by
  induction items generalizing fs with
  | nil =>
    cases Except.ok.inj hok
    exact .none fs' (by simp)
  | cons j items ih =>
    rw [List.foldlM_cons] at hok
    obtain ⟨fs1, hfirst, hrest⟩ := bind_eq_ok.mp hok
    have hone : Frees fs fs1
        (Under (fun a j => (fs.data a).word j) depth ((fs.data addr).word j)) := by
      split at hfirst
      · rename_i hzero
        cases Except.ok.inj hfirst
        rw [hzero]
        exact .none fs (under_none _ _)
      · rename_i hentry
        exact hsub _ _ _ hentry hfirst
    have hrest := ih hrest
    rw [hone.data] at hrest
    refine (hone.trans hrest).congr fun b => ?_
    simp

theorem freeTree_spec {depth addr : Nat} (haddr : addr ≠ 0)
    (hok : freeTree depth fs addr = .ok fs') :
    Frees fs fs' (Under (fun a j => (fs.data a).word j) depth addr) := by
  induction depth generalizing fs fs' addr with
  | zero => exact (bfree_spec hok).congr fun b => under_zero haddr
  | succ depth ih =>
    obtain ⟨fs1, hloop, hfree⟩ := bind_eq_ok.mp hok
    have hentries := freeLoop_spec (fun _ _ _ hentry hsub => ih hentry hsub) hloop
    exact (hentries.trans (bfree_spec hfree)).congr fun b => under_succ haddr

structure Truncs (fs fs' : Fs) (ip : Iref) (slots : List (Fin naddrs)) : Prop where
  bitmap : ∀ b, fs'.Used b ↔ fs.Used b ∧ ¬ ∃ slot ∈ slots,
    Under (fun a j => (fs.data a).word j) (depth slot) ((fs.din ip).addrs slot) b
  data : fs'.data = fs.data
  dinode : fs'.dinode = fs.dinode
  icache : fs'.icache = Function.update fs.icache ip { fs.icache ip with
    din := { fs.din ip with
      addrs := fun slot => if slot ∈ slots then 0 else (fs.din ip).addrs slot } }

theorem truncSlot_spec {slot : Fin naddrs} (hok : truncSlot ip fs slot (depth slot) = .ok fs') :
    Truncs fs fs' ip [slot] := by
  unfold truncSlot at hok
  dsimp only at hok
  split at hok
  · rename_i hzero
    cases Except.ok.inj hok
    refine ⟨fun b => ?_, rfl, rfl, ?_⟩
    · simp only [List.mem_singleton, exists_eq_left, hzero]
      exact ⟨fun hb => ⟨hb, under_none _ _ b⟩, And.left⟩
    · have haddrs : (fun s => if s ∈ [slot] then 0 else (fs.din ip).addrs s) =
          (fs.din ip).addrs := by
        funext s
        by_cases hs : s = slot
        · simp [hs, hzero]
        · simp [hs]
      rw [haddrs]
      exact (Function.update_eq_self ip fs.icache).symm
  · rename_i haddr
    obtain ⟨fs1, hfree, hok⟩ := bind_eq_ok.mp hok
    cases Except.ok.inj hok
    have hfrees := freeTree_spec haddr hfree
    have hdin : fs1.din ip = fs.din ip := by rw [din, din, hfrees.icache]
    refine ⟨fun b => ?_, hfrees.data, hfrees.dinode, ?_⟩
    · simp only [List.mem_singleton, exists_eq_left]
      exact hfrees.bitmap b
    · simp only [setAddr, setDin, setInode, hdin, hfrees.icache]
      congr 3
      funext s
      simp only [Function.update_apply, List.mem_singleton]

theorem Truncs.din (h : Truncs fs fs' ip slots) : fs'.din ip = { fs.din ip with
    addrs := fun slot => if slot ∈ slots then 0 else (fs.din ip).addrs slot } := by
  rw [Fs.din, h.icache, Function.update_self]

theorem Truncs.trans {slots slots' : List (Fin naddrs)} (h : Truncs fs fs' ip slots)
    (h' : Truncs fs' fs'' ip slots') : Truncs fs fs'' ip (slots ++ slots') where
  bitmap := by
    intro b
    rw [h'.bitmap, h.bitmap, and_assoc, ← not_or, h.data, h.din]
    refine and_congr_right fun _ => not_congr ?_
    dsimp only
    constructor
    · rintro (⟨slot, hslot, hb⟩ | ⟨slot, hslot, hb⟩)
      · exact ⟨slot, List.mem_append_left _ hslot, hb⟩
      · split at hb
        · exact absurd hb (under_none _ _ b)
        · exact ⟨slot, List.mem_append_right _ hslot, hb⟩
    · rintro ⟨slot, hslot, hb⟩
      by_cases hfirst : slot ∈ slots
      · exact .inl ⟨slot, hfirst, hb⟩
      · refine .inr ⟨slot, (List.mem_append.mp hslot).resolve_left hfirst, ?_⟩
        rw [if_neg hfirst]
        exact hb
  data := h'.data.trans h.data
  dinode := h'.dinode.trans h.dinode
  icache := by
    have haddrs : (fun slot => if slot ∈ slots ++ slots' then 0 else (fs.din ip).addrs slot) =
        fun slot => if slot ∈ slots' then 0
          else if slot ∈ slots then 0 else (fs.din ip).addrs slot := by
      funext slot
      by_cases hslot : slot ∈ slots
      · simp [hslot]
      · simp [hslot]
    rw [h'.icache, h.din, h.icache, Function.update_idem, Function.update_self, haddrs]

theorem truncLoop_spec {slots : List (Fin naddrs)}
    (hok : slots.foldlM (fun fs slot => truncSlot ip fs slot (depth slot)) fs = .ok fs') :
    Truncs fs fs' ip slots := by
  induction slots generalizing fs with
  | nil =>
    cases Except.ok.inj hok
    exact ⟨by simp, rfl, rfl, (Function.update_eq_self ip fs'.icache).symm⟩
  | cons slot slots ih =>
    rw [List.foldlM_cons] at hok
    obtain ⟨fs1, hfirst, hrest⟩ := bind_eq_ok.mp hok
    exact (truncSlot_spec hfirst).trans (ih hrest)

theorem itrunc_eq (fs : Fs) (ip : Iref) : fs.itrunc ip = (do
    let fs ← (List.finRange naddrs).foldlM (fun fs slot => truncSlot ip fs slot (depth slot)) fs
    return (fs.setDin ip { fs.din ip with size := 0 }).iupdate ip) := by
  have hslots : List.finRange naddrs = [0, 1, 2, 3, 4, 5, 6, 7, 8, 9] ++ [10, 11, 12] := by decide
  rw [hslots, List.foldlM_append]
  simp only [itrunc, List.foldlM_cons, List.foldlM_nil, bind_assoc, bind_pure]
  rfl

theorem itrunc_spec (hok : fs.itrunc ip = .ok fs') :
    fs'.data = fs.data ∧
    fs'.dinode = Function.update fs.dinode (fs.icache ip).inum
      { fs.din ip with size := 0, addrs := fun _ => 0 } ∧
    fs'.icache = Function.update fs.icache ip { fs.icache ip with
      din := { fs.din ip with size := 0, addrs := fun _ => 0 } } ∧
    ∀ b, fs'.Used b ↔ fs.Used b ∧ ¬ ∃ slot,
      Under (fun a j => (fs.data a).word j) (depth slot) ((fs.din ip).addrs slot) b := by
  rw [itrunc_eq] at hok
  obtain ⟨fs1, hloop, hok⟩ := bind_eq_ok.mp hok
  have htruncs := truncLoop_spec hloop
  cases Except.ok.inj hok
  obtain ⟨hbitmap, hdata, hicache, hdinode⟩ := store_same fs1 ip { fs1.din ip with size := 0 }
  have hdin : fs1.din ip = { fs.din ip with addrs := fun _ => 0 } := by
    rw [htruncs.din]
    simp
  have hentry : fs1.icache ip = { fs.icache ip with
      din := { fs.din ip with addrs := fun _ => 0 } } := by
    rw [htruncs.icache, Function.update_self]
    simp
  refine ⟨hdata.trans htruncs.data, ?_, ?_, fun b => ?_⟩
  · rw [hdinode, hdin, hentry, htruncs.dinode]
  · rw [hicache, hdin, hentry, htruncs.icache, Function.update_idem]
  · have hused := htruncs.bitmap b
    simp only [List.mem_finRange, true_and] at hused
    rw [← hused, Used, Used, hbitmap]

theorem iput_cases (hok : fs.iput ip = .ok fs') :
    fs' = fs.setInode ip { fs.icache ip with ref := (fs.icache ip).ref - 1 } ∨
    (fs.icache ip).ref = 1 ∧ (fs.icache ip).valid = true ∧ (fs.din ip).nlink = 0 ∧
      ∃ d e, d.type = .free ∧ e.ref = 0 ∧ fs'.data = fs.data ∧
      fs'.dinode = Function.update fs.dinode (fs.icache ip).inum d ∧
      fs'.icache = Function.update fs.icache ip e ∧
      ∀ b, fs'.Used b ↔ fs.Used b ∧ ¬ ∃ slot,
        Under (fun a j => (fs.data a).word j) (depth slot) ((fs.din ip).addrs slot) b := by
  unfold iput at hok
  dsimp only at hok
  split at hok
  · rename_i hlast
    obtain ⟨fs2, htrunc, hok⟩ := bind_eq_ok.mp hok
    cases Except.ok.inj hok
    obtain ⟨hdata, hdinode, hicache, hused⟩ := itrunc_spec htrunc
    obtain ⟨hbitmap', hdata', hicache', hdinode'⟩ :=
      store_same fs2 ip { fs2.din ip with type := .free }
    have hinum : (fs2.icache ip).inum = (fs.icache ip).inum ∧
        (fs2.icache ip).ref = (fs.icache ip).ref := by
      rw [hicache, Function.update_self]
      exact ⟨rfl, rfl⟩
    refine .inr ⟨hlast.2.2, hlast.1, hlast.2.1, { fs2.din ip with type := .free },
      { fs2.icache ip with ref := 0, valid := false, din := { fs2.din ip with type := .free } },
      rfl, rfl, ?_, ?_, ?_, ?_⟩
    · exact hdata'.trans hdata
    · refine hdinode'.trans ?_
      rw [hinum.1, hdinode, Function.update_idem]
    · simp only [setInode, hicache', Function.update_self, Function.update_idem, hinum.2,
        hlast.2.2]
      rw [hicache, Function.update_idem]
    · intro b
      rw [← hused, Used, Used, ← hbitmap']
      rfl
  · cases Except.ok.inj hok
    exact .inl rfl

theorem Calm.drops {d : Dinode} (h : fs.Calm) (hloaded : fs.Loaded ip) (hfree : d.type = .free)
    (hdata : fs'.data = fs.data)
    (hdinode : fs'.dinode = Function.update fs.dinode (fs.icache ip).inum d)
    (hused : ∀ b, fs'.Used b ↔ fs.Used b ∧ ¬ ∃ slot,
      Under (fun a j => (fs.data a).word j) (depth slot) ((fs.din ip).addrs slot) b) :
    fs.volume.Drops fs'.volume fs.Used fs'.Used fun p => p.1 = (fs.icache ip).inum where
  width := rfl
  height := rfl
  entry := by
    rw [volume, hdata]
    rfl
  dropped := by
    rintro ⟨inum, slot⟩ rfl
    refine if_neg fun halloc => halloc.2 ?_
    rw [hdinode, Function.update_self, hfree]
  kept := by
    rintro ⟨inum, slot⟩ hne
    exact root_congr (by rw [hdinode, Function.update_of_ne hne]) slot
  marks := by
    intro b
    rw [hused]
    refine and_congr_right fun _ => not_congr ?_
    have hroot := (h.part hloaded).root
    constructor
    · rintro ⟨slot, hb, js, hfits, heq⟩
      exact ⟨hb, (_, slot), js, rfl, hfits, (congrArg _ (hroot slot)).symm.trans heq⟩
    · rintro ⟨hb, ⟨_, slot⟩, js, rfl, hfits, heq⟩
      exact ⟨slot, hb, js, hfits, (congrArg _ (hroot slot)).trans heq⟩

theorem Calm.iput (h : fs.Calm) (hok : fs.iput ip = .ok fs') : fs'.Calm := by
  rcases iput_cases hok with rfl |
    ⟨hone, hvalid, -, d, e, hfree, href, hdata, hdinode, hicache, hused⟩
  · refine h.setInode (fun hpos i hi hiref => ?_) fun hpos hvalid => ?_
    · exact h.inum_ne (by dsimp only at hpos; omega) hi hiref
    · exact h.loaded ip ⟨by dsimp only at hpos; omega, hvalid⟩
  · have hloaded : fs.Loaded ip := ⟨by omega, hvalid⟩
    have hdrops := h.drops hloaded hfree hdata hdinode hused
    have hother : ∀ i, 0 < (fs'.icache i).ref →
        fs'.icache i = fs.icache i ∧ (fs.icache i).inum ≠ (fs.icache ip).inum := by
      intro i hi
      have hne : i ≠ ip := by
        rintro rfl
        rw [hicache, Function.update_self] at hi
        omega
      rw [hicache, Function.update_of_ne hne] at hi ⊢
      exact ⟨rfl, h.inum_ne hloaded.1 hne hi⟩
    refine ⟨fun i j hi hj heq => ?_, fun i hi => ?_, h.owned.drops (by decide) hdrops,
      fun inum halloc bn p hplace hbn => ?_, ?_⟩
    · have hi' := (hother i hi).1
      have hj' := (hother j hj).1
      rw [hi'] at hi heq
      rw [hj'] at hj heq
      exact h.unique i j hi hj heq
    · obtain ⟨hsame, hne⟩ := hother i hi.1
      rw [Loaded, hsame] at hi
      rw [din, hsame, Allocated, hdinode, Function.update_of_ne hne]
      exact h.loaded i hi
    · have hne : inum ≠ (fs.icache ip).inum := by
        rintro rfl
        apply halloc.2
        rw [hdinode, Function.update_self, hfree]
      rw [Allocated, hdinode, Function.update_of_ne hne] at halloc
      rw [hdinode, Function.update_of_ne hne] at hbn
      have hkept := hdrops.block_kept (i := (inum, p.1)) hne p.2
      exact hkept.trans_ne (h.mapped inum halloc bn p hplace hbn)
    · rw [hdinode]
      exact h.sized.update fun hused => absurd hfree hused

theorem iput_icache (hok : fs.iput ip = .ok fs') :
    (∀ i, i ≠ ip → fs'.icache i = fs.icache i) ∧
    (fs'.icache ip).ref = (fs.icache ip).ref - 1 ∧
    (1 < (fs.icache ip).ref →
      fs'.icache ip = { fs.icache ip with ref := (fs.icache ip).ref - 1 }) := by
  rcases iput_cases hok with rfl | ⟨hone, -, -, d, e, -, href, -, -, hicache, -⟩
  · refine ⟨fun i hi => ?_, ?_, fun _ => ?_⟩
    · exact setInode_of_ne fs hi _
    · rw [setInode_self]
    · rw [setInode_self]
  · refine ⟨fun i hi => ?_, ?_, fun hmore => by omega⟩
    · rw [hicache, Function.update_of_ne hi]
    · rw [hicache, Function.update_self, href, hone]

end Fs

end Xv6

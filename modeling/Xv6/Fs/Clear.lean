import Xv6.Fs.Trunc
import Xv6.Fs.Room

/-! Truncation of a file whose blocks are its own: `itrunc` gets through, clears the bits of
these blocks and of no other, and leaves an inode on which writes go as on a new one. -/
namespace Xv6

open BlockTree Fallible

namespace Fs

/-- No block below `addr` is reached along two paths. -/
def Separate (entry : Nat → Nat → Nat) (depth addr : Nat) : Prop :=
  ∀ js js', (js.length ≤ depth ∧ ∀ j ∈ js, j < nindirect) →
    (js'.length ≤ depth ∧ ∀ j ∈ js', j < nindirect) → follow entry js addr ≠ 0 →
    follow entry js addr = follow entry js' addr → js = js'

section Separate

variable {entry : Nat → Nat → Nat} {depth addr j j' b : Nat} {js : List Nat}

theorem path_cons (hj : j < nindirect) (h : js.length ≤ depth ∧ ∀ k ∈ js, k < nindirect) :
    (j :: js).length ≤ depth + 1 ∧ ∀ k ∈ j :: js, k < nindirect := by
  refine ⟨Nat.succ_le_succ h.1, fun k hk => ?_⟩
  rcases List.mem_cons.mp hk with rfl | hk
  · exact hj
  · exact h.2 k hk

theorem follow_cons (haddr : addr ≠ 0) :
    follow entry (j :: js) addr = follow entry js (entry addr j) := if_neg haddr

theorem Separate.child (h : Separate entry (depth + 1) addr) (haddr : addr ≠ 0)
    (hj : j < nindirect) : Separate entry depth (entry addr j) := by
  intro js js' hjs hjs' hne heq
  rw [← follow_cons haddr] at hne heq
  rw [← follow_cons haddr] at heq
  exact List.tail_eq_of_cons_eq (h _ _ (path_cons hj hjs) (path_cons hj hjs') hne heq)

theorem Separate.apart (h : Separate entry (depth + 1) addr) (haddr : addr ≠ 0)
    (hj : j < nindirect) (hj' : j' < nindirect) (hb : Under entry depth (entry addr j) b)
    (hb' : Under entry depth (entry addr j') b) : j = j' := by
  obtain ⟨hne, js, hjs, heq⟩ := hb
  obtain ⟨-, js', hjs', heq'⟩ := hb'
  rw [← follow_cons haddr] at heq heq'
  exact List.head_eq_of_cons_eq (h _ _ (path_cons hj hjs) (path_cons hj' hjs')
    (heq.trans_ne hne) (heq.trans heq'.symm))

theorem Separate.above (h : Separate entry (depth + 1) addr) (haddr : addr ≠ 0)
    (hj : j < nindirect) : ¬ Under entry depth (entry addr j) addr := by
  rintro ⟨-, js, hjs, heq⟩
  rw [← follow_cons haddr] at heq
  have hroot : ([] : List Nat).length ≤ depth + 1 ∧ ∀ k ∈ [], k < nindirect :=
    ⟨Nat.zero_le _, by simp⟩
  cases h [] _ hroot (path_cons hj hjs) haddr heq.symm

end Separate

variable {fs fs' : Fs} {ip : Iref} {depth addr : Nat}

theorem bfree_ok {b : Nat} (h : fs.Used b) : ∃ fs', fs.bfree b = .ok fs' := ⟨_, if_pos h⟩

theorem freeLoop_ok {items : List Nat} (hnodup : items.Nodup)
    (hitems : ∀ j ∈ items, j < nindirect) (haddr : addr ≠ 0)
    (hseparate : Separate (fun a j => (fs.data a).word j) (depth + 1) addr)
    (hmarked : ∀ j ∈ items, ∀ b,
      Under (fun a j => (fs.data a).word j) depth ((fs.data addr).word j) b → fs.Used b)
    (hsub : ∀ (fs : Fs) entry, entry ≠ 0 → Separate (fun a j => (fs.data a).word j) depth entry →
      (∀ b, Under (fun a j => (fs.data a).word j) depth entry b → fs.Used b) →
      ∃ fs', freeTree depth fs entry = .ok fs') :
    ∃ fs', items.foldlM (fun fs j => if (fs.data addr).word j = 0 then .ok fs
      else freeTree depth fs ((fs.data addr).word j)) fs = .ok fs' := by
  induction items generalizing fs with
  | nil => exact ⟨fs, rfl⟩
  | cons j items ih =>
    obtain ⟨hnotin, hnodup⟩ := List.nodup_cons.mp hnodup
    have hj := hitems j List.mem_cons_self
    have hlater : ∀ k ∈ items, k < nindirect := fun k hk => hitems k (List.mem_cons_of_mem j hk)
    rw [List.foldlM_cons]
    by_cases hzero : (fs.data addr).word j = 0
    · rw [if_pos hzero]
      exact ih hnodup hlater hseparate fun k hk => hmarked k (List.mem_cons_of_mem j hk)
    · obtain ⟨fs1, hfree⟩ := hsub fs _ hzero (hseparate.child haddr hj)
        (hmarked j List.mem_cons_self)
      have hfrees := freeTree_spec hzero hfree
      rw [if_neg hzero, hfree]
      refine ih hnodup hlater (hfrees.data ▸ hseparate) fun k hk b hb => ?_
      rw [hfrees.data] at hb
      refine (hfrees.bitmap b).mpr ⟨hmarked k (List.mem_cons_of_mem j hk) b hb, fun hb' => ?_⟩
      have heq : k = j := hseparate.apart haddr (hlater k hk) hj hb hb'
      exact hnotin (heq ▸ hk)

theorem freeTree_ok (haddr : addr ≠ 0)
    (hseparate : Separate (fun a j => (fs.data a).word j) depth addr)
    (hmarked : ∀ b, Under (fun a j => (fs.data a).word j) depth addr b → fs.Used b) :
    ∃ fs', freeTree depth fs addr = .ok fs' := by
  induction depth generalizing fs addr with
  | zero => exact bfree_ok (hmarked addr ((under_zero haddr).mpr rfl))
  | succ depth ih =>
    obtain ⟨fs1, hloop⟩ := freeLoop_ok List.nodup_range (fun j hj => List.mem_range.mp hj) haddr
      hseparate (fun j hj b hb => hmarked b ((under_succ haddr).mpr (.inl ⟨j, hj, hb⟩)))
      fun _ _ hentry => ih hentry
    have hfrees := freeLoop_spec (fun _ _ _ hentry hsub => freeTree_spec hentry hsub) hloop
    have hused : fs1.Used addr := by
      refine (hfrees.bitmap addr).mpr ⟨hmarked addr ((under_succ haddr).mpr (.inr rfl)), ?_⟩
      rintro ⟨j, hj, hunder⟩
      exact hseparate.above haddr (List.mem_range.mp hj) hunder
    obtain ⟨fs', hfree⟩ := bfree_ok hused
    exact ⟨fs', bind_eq_ok.mpr ⟨fs1, hloop, hfree⟩⟩

def InFile (fs : Fs) (ip : Iref) (b : Nat) : Prop :=
  b ≠ 0 ∧ ∃ slot js, (fs.tree ip).Fits slot js ∧ (fs.tree ip).block slot js = b

def InSlot (fs : Fs) (ip : Iref) (slot : Fin naddrs) (b : Nat) : Prop :=
  Under (fun a j => (fs.data a).word j) (Xv6.depth slot) ((fs.din ip).addrs slot) b

theorem inFile_iff {b : Nat} : fs.InFile ip b ↔ ∃ slot, fs.InSlot ip slot b := by
  constructor
  · rintro ⟨hb, slot, js, hfits, heq⟩
    exact ⟨slot, hb, js, hfits, heq⟩
  · rintro ⟨slot, hb, js, hfits, heq⟩
    exact ⟨hb, slot, js, hfits, heq⟩

theorem Unshared.separate (h : fs.Unshared ip) (slot : Fin naddrs) :
    Separate (fun a j => (fs.data a).word j) (Xv6.depth slot) ((fs.din ip).addrs slot) :=
  fun js js' hjs hjs' hne heq => (h slot js slot js' hjs hjs' hne heq).2

theorem Unshared.apart (h : fs.Unshared ip) {slot slot' : Fin naddrs} {b : Nat}
    (hb : fs.InSlot ip slot b) (hb' : fs.InSlot ip slot' b) : slot = slot' := by
  obtain ⟨hne, js, hjs, heq⟩ := hb
  obtain ⟨-, js', hjs', heq'⟩ := hb'
  exact (h slot js slot' js' hjs hjs' (heq.trans_ne hne) (heq.trans heq'.symm)).1

theorem truncSlot_ok {slot : Fin naddrs}
    (hseparate : Separate (fun a j => (fs.data a).word j) (Xv6.depth slot)
      ((fs.din ip).addrs slot))
    (hmarked : ∀ b, fs.InSlot ip slot b → fs.Used b) :
    ∃ fs', truncSlot ip fs slot (Xv6.depth slot) = .ok fs' := by
  unfold truncSlot
  dsimp only
  split
  · exact ⟨_, rfl⟩
  · rename_i haddr
    obtain ⟨fs1, hfree⟩ := freeTree_ok haddr hseparate hmarked
    rw [hfree]
    exact ⟨_, rfl⟩

theorem truncLoop_ok {slots : List (Fin naddrs)} (hnodup : slots.Nodup)
    (hseparate : ∀ slot ∈ slots, Separate (fun a j => (fs.data a).word j) (Xv6.depth slot)
      ((fs.din ip).addrs slot))
    (hapart : ∀ slot ∈ slots, ∀ slot' ∈ slots, ∀ b, fs.InSlot ip slot b → fs.InSlot ip slot' b →
      slot = slot')
    (hmarked : ∀ slot ∈ slots, ∀ b, fs.InSlot ip slot b → fs.Used b) :
    ∃ fs', slots.foldlM (fun fs slot => truncSlot ip fs slot (Xv6.depth slot)) fs = .ok fs' := by
  induction slots generalizing fs with
  | nil => exact ⟨fs, rfl⟩
  | cons slot slots ih =>
    obtain ⟨hnotin, hnodup⟩ := List.nodup_cons.mp hnodup
    have hmem : slot ∈ slot :: slots := List.mem_cons_self
    obtain ⟨fs1, hfirst⟩ := truncSlot_ok (hseparate slot hmem) (hmarked slot hmem)
    have htruncs := truncSlot_spec hfirst
    have haddrs : ∀ s ∈ slots, (fs1.din ip).addrs s = (fs.din ip).addrs s := by
      intro s hs
      rw [htruncs.din]
      refine if_neg fun heq => ?_
      rw [List.mem_singleton] at heq
      exact hnotin (heq ▸ hs)
    have hinslot : ∀ s ∈ slots, ∀ b, fs1.InSlot ip s b ↔ fs.InSlot ip s b := by
      intro s hs b
      rw [InSlot, haddrs s hs, htruncs.data]
      rfl
    rw [List.foldlM_cons, hfirst]
    refine ih hnodup (fun s hs => ?_) (fun s hs s' hs' b hb hb' => ?_) fun s hs b hb => ?_
    · rw [haddrs s hs, htruncs.data]
      exact hseparate s (List.mem_cons_of_mem _ hs)
    · rw [hinslot s hs] at hb
      rw [hinslot s' hs'] at hb'
      exact hapart s (List.mem_cons_of_mem _ hs) s' (List.mem_cons_of_mem _ hs') b hb hb'
    · rw [hinslot s hs] at hb
      have hs' : s ∈ slot :: slots := List.mem_cons_of_mem _ hs
      refine (htruncs.bitmap b).mpr ⟨hmarked s hs' b hb, ?_⟩
      rintro ⟨slot', hslot', hb'⟩
      rw [List.mem_singleton] at hslot'
      subst hslot'
      have heq := hapart s hs' slot' hmem b hb hb'
      exact hnotin (heq ▸ hs)

theorem itrunc_ok (hunshared : fs.Unshared ip) (hmarked : ∀ b, fs.InFile ip b → fs.Used b) :
    ∃ fs', fs.itrunc ip = .ok fs' := by
  obtain ⟨fs1, hloop⟩ := truncLoop_ok (List.nodup_finRange naddrs)
    (fun slot _ => hunshared.separate slot) (fun _ _ _ _ _ hb hb' => hunshared.apart hb hb')
    fun slot _ b hb => hmarked b (inFile_iff.mpr ⟨slot, hb⟩)
  rw [itrunc_eq, hloop]
  exact ⟨_, rfl⟩

structure Alike (fs : Fs) (ip : Iref) (gs : Fs) (jp : Iref) : Prop where
  bitmap : gs.bitmap = fs.bitmap
  data : gs.data = fs.data
  type : (gs.din jp).type = (fs.din ip).type
  major : (gs.din jp).major = (fs.din ip).major
  size : (gs.din jp).size = (fs.din ip).size
  addrs : (gs.din jp).addrs = (fs.din ip).addrs

theorem Alike.file {gs : Fs} {jp : Iref} (h : Alike fs ip gs jp) : gs.file jp = fs.file ip := by
  have htree : gs.tree jp = fs.tree ip := by rw [tree, h.addrs, h.data]; rfl
  unfold Fs.file byteAt
  rw [htree, h.type, h.major, h.size, h.data]

def Answers (ip jp : Iref) {α : Type} (r s : Fs × α) : Prop := s.2 = r.2 ∧ Alike r.1 ip s.1 jp

section Alike

variable {gs : Fs} {jp : Iref}

theorem Alike.logWrite (h : Alike fs ip gs jp) (a b : Nat) :
    Alike (fs.logWrite a) ip (gs.logWrite b) jp := by
  constructor
  · rw [logWrite_bitmap, logWrite_bitmap, h.bitmap]
  · rw [logWrite_data, logWrite_data, h.data]
  · rw [din, din, logWrite_icache, logWrite_icache]
    exact h.type
  · rw [din, din, logWrite_icache, logWrite_icache]
    exact h.major
  · rw [din, din, logWrite_icache, logWrite_icache]
    exact h.size
  · rw [din, din, logWrite_icache, logWrite_icache]
    exact h.addrs

theorem Alike.setBlock (h : Alike fs ip gs jp) (a : Nat) (block : Block) :
    Alike { fs with data := Function.update fs.data a block } ip
      { gs with data := Function.update gs.data a block } jp :=
  ⟨h.bitmap, by rw [h.data], h.type, h.major, h.size, h.addrs⟩

theorem Alike.setAddr (h : Alike fs ip gs jp) (slot : Fin naddrs) (b : Nat) :
    Alike (fs.setAddr ip slot b) ip (gs.setAddr jp slot b) jp := by
  constructor
  · exact h.bitmap
  · exact h.data
  · simpa [Fs.setAddr, setDin, setInode, din] using h.type
  · simpa [Fs.setAddr, setDin, setInode, din] using h.major
  · simpa [Fs.setAddr, setDin, setInode, din] using h.size
  · simp only [Fs.setAddr, setDin, setInode, din, Function.update_self]
    exact congrArg (Function.update · slot b) h.addrs

theorem Alike.setSize (h : Alike fs ip gs jp) (size : Nat) :
    Alike ((fs.setDin ip { fs.din ip with size := size }).iupdate ip) ip
      ((gs.setDin jp { gs.din jp with size := size }).iupdate jp) jp := by
  constructor
  · rw [(store_same ..).1, (store_same ..).1, h.bitmap]
  · rw [(store_same ..).2.1, (store_same ..).2.1, h.data]
  · rw [store_din, store_din]
    exact h.type
  · rw [store_din, store_din]
    exact h.major
  · rw [store_din, store_din]
  · rw [store_din, store_din]
    exact h.addrs

theorem Alike.balloc (h : Alike fs ip gs jp) : Agree (Answers ip jp) fs.balloc gs.balloc := by
  unfold Fs.balloc bzero
  rw [h.bitmap]
  cases firstClear fs.bitmap fssize 0 with
  | none => exact .error _
  | some b =>
    have hmarked : Alike { fs with bitmap := Function.update fs.bitmap b true } ip
        { gs with bitmap := Function.update fs.bitmap b true } jp :=
      ⟨rfl, h.data, h.type, h.major, h.size, h.addrs⟩
    exact .ok ⟨rfl, ((hmarked.logWrite _ _).setBlock b Block.zero).logWrite b b⟩

theorem Alike.slotAddr (h : Alike fs ip gs jp) (slot : Fin naddrs) :
    Agree (Answers ip jp) (fs.slotAddr ip slot) (gs.slotAddr jp slot) := by
  unfold Fs.slotAddr
  rw [h.addrs]
  dsimp only
  split
  · refine h.balloc.bind ?_
    rintro ⟨fs1, b⟩ ⟨gs1, c⟩ ⟨rfl, halike⟩
    exact .ok ⟨rfl, halike.setAddr slot c⟩
  · exact .ok ⟨rfl, h⟩

theorem Alike.entryAddr (h : Alike fs ip gs jp) (bno j : Nat) :
    Agree (Answers ip jp) (fs.entryAddr bno j) (gs.entryAddr bno j) := by
  unfold Fs.entryAddr
  rw [h.data]
  dsimp only
  split
  · refine h.balloc.bind ?_
    rintro ⟨fs1, b⟩ ⟨gs1, c⟩ ⟨rfl, halike⟩
    refine .ok ⟨rfl, ?_⟩
    dsimp only
    rw [show gs1.data bno = fs1.data bno by rw [halike.data]]
    exact (halike.setBlock bno _).logWrite bno bno
  · exact .ok ⟨rfl, h⟩

theorem Alike.descend (h : Alike fs ip gs jp) (js : List Nat) (addr : Nat) :
    Agree (Answers ip jp) (Fs.descend js fs addr) (Fs.descend js gs addr) := by
  induction js generalizing fs gs addr with
  | nil => exact .ok ⟨rfl, h⟩
  | cons j js ih =>
    refine (h.entryAddr addr j).bind ?_
    rintro ⟨fs1, b⟩ ⟨gs1, c⟩ ⟨rfl, halike⟩
    exact ih halike c

theorem Alike.bmap (h : Alike fs ip gs jp) (bn : Nat) :
    Agree (Answers ip jp) (fs.bmap ip bn) (gs.bmap jp bn) := by
  rw [bmap_eq, bmap_eq]
  cases place bn with
  | none => exact .error _
  | some p =>
    refine (h.slotAddr p.1).bind ?_
    rintro ⟨fs1, b⟩ ⟨gs1, c⟩ ⟨rfl, halike⟩
    exact halike.descend p.2 c

theorem Alike.writeLoop (h : Alike fs ip gs jp) (fuel off : Nat) (src : List UInt8) :
    Agree (fun fs gs => Alike fs ip gs jp) (Fs.writeLoop ip fuel fs off src)
      (Fs.writeLoop jp fuel gs off src) := by
  induction fuel generalizing fs gs off src with
  | zero => exact .ok h
  | succ fuel ih =>
    unfold Fs.writeLoop
    split
    · exact .ok h
    · refine (h.bmap (off / bsize)).bind ?_
      rintro ⟨fs1, a⟩ ⟨gs1, b⟩ ⟨rfl, halike⟩
      dsimp only
      rw [show gs1.data b = fs1.data b by rw [halike.data]]
      exact ih ((halike.setBlock b _).logWrite b b) _ _

theorem Alike.writei (h : Alike fs ip gs jp) (src : List UInt8) (off : Nat) :
    Agree (Answers ip jp) (fs.writei ip src off) (gs.writei jp src off) := by
  unfold Fs.writei
  dsimp only
  rw [h.type, h.major, h.size]
  split
  · exact .ok ⟨rfl, h⟩
  · split
    · exact .ok ⟨rfl, h⟩
    · split
      · exact .ok ⟨rfl, h⟩
      · refine (h.writeLoop _ off src).bind fun fs1 gs1 halike => ?_
        rw [halike.size]
        split
        · exact .ok ⟨rfl, halike.setSize _⟩
        · exact .ok ⟨rfl, halike⟩

end Alike

def writes (ip : Iref) : Fs → List (List UInt8 × Nat) → Except Panic (Fs × List (Io Nat))
  | fs, [] => .ok (fs, [])
  | fs, (src, off) :: rest => do
      let (fs, answer) ← fs.writei ip src off
      let (fs, answers) ← writes ip fs rest
      return (fs, answer :: answers)

theorem Alike.writes {gs : Fs} {jp : Iref} (h : Alike fs ip gs jp)
    (calls : List (List UInt8 × Nat)) :
    Agree (Answers ip jp) (Fs.writes ip fs calls) (Fs.writes jp gs calls) := by
  induction calls generalizing fs gs with
  | nil => exact .ok ⟨rfl, h⟩
  | cons call rest ih =>
    refine (h.writei call.1 call.2).bind ?_
    rintro ⟨fs1, r⟩ ⟨gs1, s⟩ ⟨rfl, halike⟩
    refine (ih halike).bind ?_
    rintro ⟨fs2, rs⟩ ⟨gs2, ss⟩ ⟨rfl, halike⟩
    exact .ok ⟨rfl, halike⟩

/-- Truncation frees the blocks of the file and no other, and the inode is then as good as
new: writes have the same answers and effects as on any inode without blocks. -/
theorem itrunc_exact (hunshared : fs.Unshared ip) (hmarked : ∀ b, fs.InFile ip b → fs.Used b) :
    ∃ fs', fs.itrunc ip = .ok fs' ∧ (∀ b, fs.InFile ip b → fs'.bitmap b = false) ∧
      (∀ b, ¬ fs.InFile ip b → fs'.bitmap b = fs.bitmap b) ∧
      fs'.din ip = { fs.din ip with size := 0, addrs := fun _ => 0 } ∧
      fs'.dinode (fs.icache ip).inum = { fs.din ip with size := 0, addrs := fun _ => 0 } ∧
      ∀ (gs : Fs) (jp : Iref) (minor nlink : Int), gs.bitmap = fs'.bitmap → gs.data = fs'.data →
        gs.din jp = { Dinode.zero with
          type := (fs.din ip).type, major := (fs.din ip).major, minor, nlink } →
        ∀ calls, Agree (Answers ip jp) (fs'.writes ip calls) (gs.writes jp calls) := by
  obtain ⟨fs', hok⟩ := itrunc_ok hunshared hmarked
  obtain ⟨hdata, hdinode, hicache, hused⟩ := itrunc_spec hok
  have hused : ∀ b, fs'.Used b ↔ fs.Used b ∧ ¬ fs.InFile ip b := by
    intro b
    rw [hused, inFile_iff]
    rfl
  have hdin : fs'.din ip = { fs.din ip with size := 0, addrs := fun _ => 0 } := by
    rw [din, hicache, Function.update_self]
  refine ⟨fs', hok, fun b hb => ?_, fun b hb => ?_, hdin, ?_, ?_⟩
  · exact Bool.not_eq_true _ ▸ fun hset => ((hused b).mp hset).2 hb
  · rw [Bool.eq_iff_iff]
    exact (hused b).trans (and_iff_left hb)
  · rw [hdinode, Function.update_self]
  · intro gs jp minor nlink hbitmap hdata' hfresh calls
    apply Alike.writes
    exact ⟨hbitmap, hdata', by rw [hfresh, hdin], by rw [hfresh, hdin], by rw [hfresh, hdin]; rfl,
      by rw [hfresh, hdin]; rfl⟩

/-- A file with a direct block and one behind each of the first two indirections: the data block
behind the second and the indirection block above it are freed. -/
theorem itrunc_exact_indirect : ∃ fs fs',
    [3, 10, 138].foldlM (fun fs bn => (fs.bmap 0 bn).map Prod.fst) (bare nmeta 0 fun _ => 0) =
      .ok fs ∧
    fs.itrunc 0 = .ok fs' ∧ fs.address 0 138 = 73 ∧ (fs.din 0).addrs 11 = 71 ∧
    fs'.bitmap 73 = false ∧ fs'.bitmap 71 = false ∧ (fs'.din 0).size = 0 := by
  obtain ⟨fs, hok, hsound, -⟩ := bare_bmaps (show ∀ bn ∈ [3, 10, 138],
    bn < maxfile ∧ bn ∈ ({3, 10, 138} : Finset Nat) by decide) (by decide)
  have hblocks : Except.map (fun fs : Fs => (fs.address 0 138, (fs.din 0).addrs 11))
      ([3, 10, 138].foldlM (fun fs bn => (fs.bmap 0 bn).map Prod.fst)
        (bare nmeta 0 fun _ => 0)) = .ok (73, 71) := by
    decide +kernel
  rw [hok] at hblocks
  obtain ⟨hdata, hslot⟩ := Prod.mk.inj (Except.ok.inj hblocks)
  obtain ⟨p, hplace⟩ := place_of_lt (show 138 < maxfile by decide)
  obtain ⟨fs', htrunc, hcleared, -, hdin, -, -⟩ := itrunc_exact hsound.distinct (by
    rintro b ⟨-, slot, js, hfits, rfl⟩
    exact hsound.marked slot js hfits)
  refine ⟨fs, fs', hok, htrunc, hdata, hslot, hcleared 73 ⟨by decide, p.1, p.2, ?_, ?_⟩,
    hcleared 71 ⟨by decide, 11, [], ⟨Nat.zero_le _, by simp⟩, hslot⟩, by rw [hdin]⟩
  · exact place_in_tree fs 0 hplace
  · rw [← address_eq hplace, hdata]

end Fs

end Xv6

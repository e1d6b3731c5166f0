import Xv6.Group.Regions

/-! Concurrent `sbrk` calls of one process group. `sys_sbrk` reads the size of the manager
before `growproc` takes the lock, so the two are separate steps, and other members of the
group may come between them. -/
namespace Xv6.Sbrk

open Word Fallible Transition

/-- `pending p` holds the address that the call of `p` has read, and its argument. -/
structure State where
  kernel : Kernel
  pending : Slot → Option (Nat × Int)

inductive Act where
  | call (p : Slot) (n : Int)
  | grow (p : Slot)

def step (s : State) : Act → Except Fault (State × Option (Nat × Nat))
  | .call p n => do
      match ← s.kernel.manager? p with
      | some mgr =>
          let addr := (s.kernel.proc mgr).sz
          .ok ({ s with pending := Function.update s.pending p (some (addr, n)) }, none)
      | none => .ok (s, none)
  | .grow p =>
      match s.pending p with
      | none => .ok (s, none)
      | some (addr, n) => do
          let (k, r) ← s.kernel.growproc p n
          .ok (⟨k, Function.update s.pending p none⟩,
            if r < 0 then none else some (addr, addr + n.toNat))

def InGroup (k : Kernel) (mgr : Slot) (d : DirId) (p : Slot) : Prop :=
  p = mgr ∨ 0 < (k.proc p).tid ∧ (k.proc p).manager = some mgr ∧ (k.proc p).pgdir = some d

instance (k : Kernel) (mgr : Slot) (d : DirId) (p : Slot) : Decidable (InGroup k mgr d p) :=
  inferInstanceAs (Decidable (_ ∨ _))

def Enabled (mgr : Slot) (d : DirId) (s : State) : Act → Prop
  | .call p n => InGroup s.kernel mgr d p ∧ s.pending p = none ∧ 0 < n ∧ IsInt n
  | .grow p => s.pending p ≠ none

instance (mgr : Slot) (d : DirId) (s : State) : (a : Act) → Decidable (Enabled mgr d s a)
  | .call _ _ => inferInstanceAs (Decidable (_ ∧ _))
  | .grow _ => inferInstanceAs (Decidable (_ ≠ _))

def Unchanged (mgr : Slot) (s : State) : Act → Prop
  | .call _ _ => True
  | .grow p => ∀ r ∈ s.pending p, r.1 = (s.kernel.proc mgr).sz

instance (mgr : Slot) (s : State) : (a : Act) → Decidable (Unchanged mgr s a)
  | .call _ _ => inferInstanceAs (Decidable True)
  | .grow _ => inferInstanceAs (Decidable (∀ _ ∈ _, _))

/-- A group whose manager has a size below `KERNBASE`; the page that this size ends in, if
it ends inside a page, is mapped. -/
structure Ready (k : Kernel) (mgr : Slot) (d : DirId) : Prop where
  used : (k.proc mgr).state ≠ .unused
  tid : (k.proc mgr).tid = 0
  pgdir : (k.proc mgr).pgdir = some d
  below : (k.proc mgr).sz ≤ kernbase
  tabled : (k.dir d).Tabled
  last : (k.proc mgr).sz % pgsize ≠ 0 → (k.proc mgr).sz / pgsize ∈ (k.dir d).pages

def granted (trace : List (State × Act × Option (Nat × Nat))) : List (Nat × Nat) :=
  trace.filterMap fun e => e.2.2

def Mapped (dir : PageDir) (r : Nat × Nat) : Prop :=
  ∀ x, r.1 ≤ x → x < r.2 → dir.Present (x / pgsize)

theorem InGroup.manager? {k : Kernel} {mgr p : Slot} {d : DirId} (h : InGroup k mgr d p)
    (hready : Ready k mgr d) :
    k.manager? p = .ok (some mgr) ∧ (k.proc p).pgdir = some d := by
  unfold Kernel.manager?
  rcases h with rfl | ⟨htid, hmanager, hdir⟩
  · rw [hready.tid, if_neg (by omega), if_pos rfl]
    exact ⟨rfl, hready.pgdir⟩
  · rw [if_pos htid, hmanager]
    exact ⟨rfl, hdir⟩

/-- What `growproc` does for a member of the group: the size of the manager and the
directory change, if at all. -/
theorem growproc_eq {k k' : Kernel} {mgr p : Slot} {d : DirId} {n r : Int}
    (hready : Ready k mgr d) (hp : InGroup k mgr d p) (hpos : 0 < n)
    (h : k.growproc p n = .ok (k', r)) :
    ∃ s result, allocuvm (k.space d) (k.proc mgr).sz (u32OfInt ((k.proc mgr).sz + n)) =
        .ok (s, result) ∧
      (result = 0 ∧ r = -1 ∧ k' = k.setSpace d s ∨
        result ≠ 0 ∧ r = 0 ∧
          k' = (k.setSpace d s).modify mgr fun p => { p with sz := result }) := by
  obtain ⟨hmanager, hdir⟩ := hp.manager? hready
  unfold Kernel.growproc at h
  rw [hmanager] at h
  obtain ⟨mgr?, hsome, h⟩ := bind_eq_ok.mp h
  cases Except.ok.inj hsome
  obtain ⟨d', hd, h⟩ := bind_eq_ok.mp h
  have heq := deref_eq_ok hd
  rw [hdir] at heq
  cases heq
  obtain ⟨⟨s, result⟩, hresize, h⟩ := bind_eq_ok.mp h
  rw [Kernel.resize, if_pos hpos] at hresize
  refine ⟨s, result, hresize, ?_⟩
  dsimp only at h
  split at h
  · rename_i hfail
    cases Except.ok.inj h
    exact .inl ⟨hfail.2, rfl, rfl⟩
  · rename_i hgood
    cases Except.ok.inj h
    exact .inr ⟨fun hzero => hgood ⟨by omega, hzero⟩, rfl, rfl⟩

structure Grows (k k' : Kernel) (mgr : Slot) (d : DirId) (n r : Int) : Prop where
  others : ∀ i, ∃ sz, k'.proc i = { k.proc i with sz := sz }
  tabled : (k'.dir d).Tabled
  kept : ∀ q, q < pagesOf (k.proc mgr).sz → q ∈ (k.dir d).pages → q ∈ (k'.dir d).pages
  size : r = -1 ∧ (k'.proc mgr).sz = (k.proc mgr).sz ∨
    r = 0 ∧ (k'.proc mgr).sz = (k.proc mgr).sz + n.toNat ∧ (k'.proc mgr).sz < kernbase ∧
      ∀ q, pagesOf (k.proc mgr).sz ≤ q → q * pgsize < (k'.proc mgr).sz → q ∈ (k'.dir d).pages

theorem growproc_grows {k k' : Kernel} {mgr p : Slot} {d : DirId} {n r : Int}
    (hready : Ready k mgr d) (hp : InGroup k mgr d p) (hpos : 0 < n) (hint : IsInt n)
    (h : k.growproc p n = .ok (k', r)) : Grows k k' mgr d n r := by
  obtain ⟨s, result, halloc, hend⟩ := growproc_eq hready hp hpos h
  have hbelow := hready.below
  have hsum : u32OfInt ((k.proc mgr).sz + n) = (k.proc mgr).sz + n.toNat := by
    simp only [IsInt, kernbase] at *
    rw [u32OfInt_eq (by omega) (by omega)]
    omega
  rw [hsum] at halloc
  obtain ⟨htabled, hpages⟩ := allocuvm_spec (s := k.space d) hready.tabled halloc
  rcases hend with ⟨hresult, hr, rfl⟩ | ⟨hresult, hr, rfl⟩
  · have hdir : (k.setSpace d s).dir d = s.dir := Function.update_self ..
    refine ⟨fun i => ⟨_, rfl⟩, hdir ▸ htabled, fun q hlow hq => ?_, .inl ⟨hr, rfl⟩⟩
    rw [hdir]
    cases hpages with
    | refused large hsame => exact hsame ▸ hq
    | smaller less hsame => exact hsame ▸ hq
    | grown more below hpages => exact (hpages q).mpr (.inl hq)
    | failed more below hpages => exact (hpages q).mpr ⟨hq, fun hin => by omega⟩
  · have hdir : ((k.setSpace d s).modify mgr fun p => { p with sz := result }).dir d = s.dir :=
      Function.update_self ..
    cases hpages with
    | refused large hsame => exact absurd rfl hresult
    | failed more below hpages => exact absurd rfl hresult
    | smaller less hsame => omega
    | grown more below hpages =>
      have hsz : (((k.setSpace d s).modify mgr fun p =>
          { p with sz := (k.proc mgr).sz + n.toNat }).proc mgr).sz =
          (k.proc mgr).sz + n.toNat := by
        rw [Kernel.modify_proc, if_pos rfl]
      refine ⟨fun i => ?_, hdir ▸ htabled, fun q hlow hq => ?_,
        .inr ⟨hr, hsz, hsz.trans_lt below, fun q hlow hhigh => ?_⟩⟩
      · rw [Kernel.modify_proc]
        split
        · rename_i hi
          rw [hi]
          exact ⟨_, rfl⟩
        · exact ⟨_, rfl⟩
      · rw [hdir]
        exact (hpages q).mpr (.inl hq)
      · rw [hdir]
        rw [hsz] at hhigh
        exact (hpages q).mpr (.inr ⟨hlow, hhigh⟩)

theorem Grows.ids {k k' : Kernel} {mgr : Slot} {d : DirId} {n r : Int}
    (h : Grows k k' mgr d n r) (i : Slot) :
    (k'.proc i).state = (k.proc i).state ∧ (k'.proc i).tid = (k.proc i).tid ∧
      (k'.proc i).manager = (k.proc i).manager ∧ (k'.proc i).pgdir = (k.proc i).pgdir := by
  obtain ⟨sz, hsz⟩ := h.others i
  rw [hsz]
  exact ⟨rfl, rfl, rfl, rfl⟩

theorem Grows.inGroup {k k' : Kernel} {mgr p : Slot} {d : DirId} {n r : Int}
    (h : Grows k k' mgr d n r) (hp : InGroup k mgr d p) : InGroup k' mgr d p := by
  obtain ⟨-, htid, hmanager, hdir⟩ := h.ids p
  unfold InGroup
  rw [htid, hmanager, hdir]
  exact hp

theorem Grows.fresh {k k' : Kernel} {mgr : Slot} {d : DirId} {n : Int}
    (hready : Ready k mgr d) (h : Grows k k' mgr d n 0) {x : Nat}
    (hlow : (k.proc mgr).sz ≤ x) (hhigh : x < (k'.proc mgr).sz) :
    x / pgsize ∈ (k'.dir d).pages := by
  obtain ⟨hr, -⟩ | ⟨-, hsz, hbelow, hfresh⟩ := h.size
  · omega
  have hold := hready.below
  have hpages := pagesOf_eq hready.below
  by_cases hpage : x / pgsize < pagesOf (k.proc mgr).sz
  · -- the page that the old size ends in
    have heq : x / pgsize = (k.proc mgr).sz / pgsize ∧ (k.proc mgr).sz % pgsize ≠ 0 := by
      simp only [pgsize] at *
      omega
    rw [heq.1]
    exact h.kept _ (heq.1 ▸ hpage) (hready.last heq.2)
  · apply hfresh _ (by omega)
    simp only [pgsize] at *
    omega

theorem Grows.ready {k k' : Kernel} {mgr : Slot} {d : DirId} {n r : Int}
    (hready : Ready k mgr d) (hpos : 0 < n) (h : Grows k k' mgr d n r) : Ready k' mgr d := by
  obtain ⟨hstate, htid, -, hdir⟩ := h.ids mgr
  obtain ⟨hr, hsz⟩ | ⟨hr, hsz, hbelow, -⟩ := h.size
  · refine ⟨hstate ▸ hready.used, htid ▸ hready.tid, hdir ▸ hready.pgdir, hsz ▸ hready.below,
      h.tabled, ?_⟩
    rw [hsz]
    intro hend
    refine h.kept _ ((lt_pagesOf hready.below).mpr ?_) (hready.last hend)
    simp only [pgsize] at *
    omega
  · refine ⟨hstate ▸ hready.used, htid ▸ hready.tid, hdir ▸ hready.pgdir, hbelow.le,
      h.tabled, fun hend => ?_⟩
    cases hr
    have hin : (k'.proc mgr).sz / pgsize = ((k'.proc mgr).sz - 1) / pgsize := by
      simp only [pgsize] at *
      omega
    rw [hin]
    exact h.fresh hready (by omega) (by omega)

/-- The ranges lie below the size of the manager, mapped and apart from each other. -/
structure Sound (mgr : Slot) (d : DirId) (trace : List (State × Act × Option (Nat × Nat)))
    (s : State) : Prop where
  ready : Ready s.kernel mgr d
  callers : ∀ p addr n, s.pending p = some (addr, n) →
    InGroup s.kernel mgr d p ∧ 0 < n ∧ IsInt n
  below : ∀ r ∈ granted trace, r.2 ≤ (s.kernel.proc mgr).sz
  mapped : ∀ r ∈ granted trace, ∀ x, r.1 ≤ x → x < r.2 → x / pgsize ∈ (s.kernel.dir d).pages
  apart : (granted trace).Pairwise Apart

theorem Sound.call {mgr p : Slot} {d : DirId} {n : Int} {s s' : State} {out : Option (Nat × Nat)}
    {trace : List (State × Act × Option (Nat × Nat))} (hsound : Sound mgr d trace s)
    (henabled : Enabled mgr d s (.call p n)) (h : step s (.call p n) = .ok (s', out)) :
    Sound mgr d ((s, .call p n, out) :: trace) s' := by
  obtain ⟨hp, -, hpos, hint⟩ := henabled
  obtain ⟨hmanager, -⟩ := hp.manager? hsound.ready
  simp only [step, hmanager] at h
  cases Except.ok.inj h
  refine ⟨hsound.ready, fun p' addr' n' hpending => ?_, hsound.below, hsound.mapped, hsound.apart⟩
  dsimp only at hpending
  by_cases heq : p' = p
  · rw [heq, Function.update_self] at hpending
    cases hpending
    exact ⟨heq ▸ hp, hpos, hint⟩
  · rw [Function.update_of_ne heq] at hpending
    exact hsound.callers p' addr' n' hpending

theorem Grows.size_le {k k' : Kernel} {mgr : Slot} {d : DirId} {n r : Int}
    (h : Grows k k' mgr d n r) : (k.proc mgr).sz ≤ (k'.proc mgr).sz := by
  obtain ⟨-, hsz⟩ | ⟨-, hsz, -, -⟩ := h.size
  · omega
  · omega

theorem Sound.grow {mgr p : Slot} {d : DirId} {s s' : State} {out : Option (Nat × Nat)}
    {trace : List (State × Act × Option (Nat × Nat))} (hsound : Sound mgr d trace s)
    (henabled : Enabled mgr d s (.grow p)) (hsame : Unchanged mgr s (.grow p))
    (h : step s (.grow p) = .ok (s', out)) : Sound mgr d ((s, .grow p, out) :: trace) s' := by
  obtain ⟨⟨addr, n⟩, hpending⟩ := Option.ne_none_iff_exists'.mp henabled
  have haddr : addr = (s.kernel.proc mgr).sz := hsame _ hpending
  obtain ⟨hp, hpos, hint⟩ := hsound.callers p addr n hpending
  simp only [step, hpending] at h
  obtain ⟨⟨k, r⟩, hgrow, h⟩ := bind_eq_ok.mp h
  cases Except.ok.inj h
  have hgrows := growproc_grows hsound.ready hp hpos hint hgrow
  have hcallers : ∀ p' addr' n', Function.update s.pending p none p' = some (addr', n') →
      InGroup k mgr d p' ∧ 0 < n' ∧ IsInt n' := by
    intro p' addr' n' hpending'
    by_cases heq : p' = p
    · rw [heq, Function.update_self] at hpending'
      cases hpending'
    · rw [Function.update_of_ne heq] at hpending'
      obtain ⟨hp', hrest⟩ := hsound.callers p' addr' n' hpending'
      exact ⟨hgrows.inGroup hp', hrest⟩
  have hbelow : ∀ r ∈ granted trace, r.2 ≤ (k.proc mgr).sz := fun r hr =>
    (hsound.below r hr).trans hgrows.size_le
  have hmapped : ∀ r ∈ granted trace, ∀ x, r.1 ≤ x → x < r.2 → x / pgsize ∈ (k.dir d).pages := by
    intro r hr x hlow hhigh
    have hold := hsound.below r hr
    refine hgrows.kept _ ((lt_pagesOf hsound.ready.below).mpr ?_) (hsound.mapped r hr x hlow hhigh)
    simp only [pgsize]
    omega
  obtain ⟨rfl, hsz⟩ | ⟨rfl, hsz, -, -⟩ := hgrows.size
  · exact ⟨hgrows.ready hsound.ready hpos, hcallers, hbelow, hmapped, hsound.apart⟩
  · refine ⟨hgrows.ready hsound.ready hpos, hcallers, ?_, ?_, ?_⟩
    · intro t ht
      rcases List.mem_cons.mp ht with rfl | ht
      · exact (by omega : addr + n.toNat ≤ (k.proc mgr).sz)
      · exact hbelow t ht
    · intro t ht x hlow hhigh
      rcases List.mem_cons.mp ht with rfl | ht
      · exact hgrows.fresh hsound.ready (haddr ▸ hlow) (by dsimp only at hhigh; omega)
      · exact hmapped t ht x hlow hhigh
    · refine List.Pairwise.cons (fun t ht => .inr ?_) hsound.apart
      rw [haddr]
      exact hsound.below t ht

theorem sound_run {mgr : Slot} {d : DirId} {k : Kernel} {s : State}
    {trace : List (State × Act × Option (Nat × Nat))} (hready : Ready k mgr d)
    (run : Run step (fun s a => Enabled mgr d s a ∧ Unchanged mgr s a) ⟨k, fun _ => none⟩
      trace s) : Sound mgr d trace s := by
  refine run.invariant (Sound mgr d) ⟨hready, ?_, ?_, ?_, List.Pairwise.nil⟩ ?_
  · intro p addr n hpending
    cases hpending
  · intro r hr
    cases hr
  · intro r hr
    cases hr
  · rintro trace s a s' out hsound ⟨henabled, hsame⟩ hstep
    cases a with
    | call p n => exact hsound.call henabled hstep
    | grow p => exact hsound.grow henabled hsame hstep

/-- If no other call grows the manager between the two steps of a call, the ranges returned
are apart and mapped. -/
theorem ranges_apart_mapped {mgr : Slot} {d : DirId} {k : Kernel} {s : State}
    {trace : List (State × Act × Option (Nat × Nat))} (hready : Ready k mgr d)
    (run : Run step (fun s a => Enabled mgr d s a ∧ Unchanged mgr s a) ⟨k, fun _ => none⟩
      trace s) :
    (granted trace).Pairwise Apart ∧ ∀ r ∈ granted trace, Mapped (s.kernel.dir d) r := by
  have hsound := sound_run hready run
  refine ⟨hsound.apart, fun r hr x hlow hhigh => .inl ⟨?_, hsound.mapped r hr x hlow hhigh⟩⟩
  have hsz := hsound.below r hr
  have hbelow := hsound.ready.below
  simp only [kernpage, kernbase, pgsize] at *
  omega

theorem ready_of_laidOut {k : Kernel} {mgr : Slot} {d : DirId} {l : Layout}
    {grants : List (Nat × Nat)} (h : Kernel.LaidOut k.layout (k.dir d) mgr d l grants)
    (hend : (k.proc mgr).sz % pgsize = 0) : Ready k mgr d := by
  obtain ⟨hused, hsz, -, htid, -, hpgdir⟩ := Kernel.layout_eq_some h.layout
  exact ⟨hused, htid.trans h.tid, hpgdir.trans h.pgdir, hsz ▸ h.below.le, h.tabled,
    fun hne => absurd hend hne⟩

/-- A manager and its LWP take turns. -/
theorem ranges_apart_mapped_turns : ∃ k, Reaches Kernel.perform (Kernel.RegionAllowed 0)
    (Kernel.boot 100) k ∧ ∃ trace s,
    Run step (fun s a => Enabled 0 0 s a ∧ Unchanged 0 s a) ⟨k, fun _ => none⟩ trace s ∧
    granted trace = [(12388, 16484), (12288, 12388)] ∧
    (granted trace).Pairwise Apart ∧ ∀ r ∈ granted trace, Mapped (s.kernel.dir 0) r := by
  obtain ⟨kernels, k, hrun, htest⟩ := exists_run Kernel.perform (Kernel.RegionAllowed 0)
    (Kernel.boot 100) [.visit 0 0, .threadCreate 0 5]
    (fun _ k => (k.proc 0).sz % pgsize = 0 ∧
      (replay step (fun s a => Enabled 0 0 s a ∧ Unchanged 0 s a)
        [.call 0 100, .grow 0, .call 1 4096, .grow 1] [] ⟨k, fun _ => none⟩).any
        (fun r => granted r.1 = [(12388, 16484), (12288, 12388)]))
    (by decide +kernel)
  obtain ⟨hend, hreplay⟩ := of_decide_eq_true htest
  obtain ⟨trace, s, run, hgranted⟩ := exists_run step
    (fun s a => Enabled 0 0 s a ∧ Unchanged 0 s a) ⟨k, fun _ => none⟩
    [.call 0 100, .grow 0, .call 1 4096, .grow 1]
    (fun trace _ => granted trace = [(12388, 16484), (12288, 12388)]) hreplay
  obtain ⟨l, hlaid⟩ := Kernel.laidOut_run (Kernel.alone_boot 100) hrun
  exact ⟨k, ⟨kernels, hrun⟩, trace, s, run, of_decide_eq_true hgranted,
    ranges_apart_mapped (ready_of_laidOut hlaid hend) run⟩

/-- Two members that both read the size before one of them grows it get the same range. -/
theorem ranges_overlap : ∃ k, Reaches Kernel.perform Kernel.Enabled (Kernel.boot 100) k ∧
    ∃ trace s, Run step (Enabled 0 0) ⟨k, fun _ => none⟩ trace s ∧
    granted trace = [(12288, 16384), (12288, 16384)] ∧ ¬ (granted trace).Pairwise Apart := by
  obtain ⟨k, hreach, hreplay⟩ := exists_reaches Kernel.perform Kernel.Enabled
    (Kernel.boot 100) [.visit 0 0, .threadCreate 0 5]
    (fun k => (replay step (Enabled 0 0) [.call 0 4096, .call 1 4096, .grow 0, .grow 1] []
      ⟨k, fun _ => none⟩).any
      (fun r => granted r.1 = [(12288, 16384), (12288, 16384)]))
    (by decide +kernel)
  obtain ⟨trace, s, run, hgranted⟩ := exists_run step (Enabled 0 0) ⟨k, fun _ => none⟩
    [.call 0 4096, .call 1 4096, .grow 0, .grow 1]
    (fun trace _ => granted trace = [(12288, 16384), (12288, 16384)]) hreplay
  have hsame := of_decide_eq_true hgranted
  exact ⟨k, hreach, trace, s, run, hsame, by rw [hsame]; decide⟩

end Xv6.Sbrk

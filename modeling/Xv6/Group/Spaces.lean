import Xv6.Group.Whole

/-! Two facts of every state: a mapped page lies in a page table of its directory, and the
size of a process is an `unsigned int`. -/
namespace Xv6

open Word Fallible Transition

theorem tabled_mappages {s s' : Space} {page : Nat} {user : Bool} (h : s.dir.Tabled)
    (hmap : mappages s page user = .ok (some s')) : s'.dir.Tabled := by
  obtain ⟨-, hpages, htables⟩ := mappages_ok hmap
  intro q hq
  rw [htables]
  rw [hpages] at hq
  rcases Finset.mem_insert.mp hq with rfl | hq
  · exact Finset.mem_insert_self _ _
  · exact Finset.mem_insert_of_mem (h q hq)

theorem tabled_copyLoop {parent : PageDir} {child s : Space} {page sz fuel : Nat} {done : Bool}
    (h : child.dir.Tabled) (hcopy : copyLoop parent child page sz fuel = .ok (s, done)) :
    s.dir.Tabled := by
  induction fuel generalizing child page with
  | zero =>
    cases Except.ok.inj hcopy
    exact h
  | succ fuel ih =>
    unfold copyLoop at hcopy
    split at hcopy
    · split at hcopy
      · cases hcopy
      split at hcopy
      · cases hcopy
      split at hcopy
      · cases Except.ok.inj hcopy
        exact h
      rename_i s1 halloc
      have hs1 : s1.dir.Tabled := by
        rw [kalloc_dir halloc]
        exact h
      split at hcopy
      · cases hcopy
      split at hcopy
      · cases hcopy
      · cases Except.ok.inj hcopy
        exact hs1
      · rename_i s2 hmap
        exact ih (tabled_mappages hs1 hmap) hcopy
    · cases Except.ok.inj hcopy
      exact h

theorem tabled_copyuvm {parent pages : PageDir} {free sz left : Nat}
    (h : copyuvm parent free sz = .ok (some pages, left)) : pages.Tabled := by
  unfold copyuvm at h
  split at h
  · cases h
  · rename_i fresh hsetup
    have hfresh : fresh.dir.Tabled := by
      unfold setupkvm at hsetup
      split at hsetup
      · cases hsetup
      · cases hsetup
        exact tabled_empty
    split at h
    · cases h
    · rename_i s hloop
      cases Except.ok.inj h
      exact tabled_copyLoop hfresh hloop
    · obtain ⟨left, -, heq⟩ := map_eq_ok.mp h
      cases heq

theorem allocuvm_word {s s' : Space} {oldsz newsz r : Nat} (htabled : s.dir.Tabled)
    (hold : oldsz < 4294967296) (h : allocuvm s oldsz newsz = .ok (s', r)) :
    r < 4294967296 := by
  cases (allocuvm_spec htabled h).2 with
  | refused => decide
  | smaller => exact hold
  | grown _ hbelow _ => exact hbelow.trans (by decide)
  | failed => decide

theorem u32OfInt_lt (x : Int) : u32OfInt x < 4294967296 := by
  unfold u32OfInt
  omega

namespace Kernel

structure Spaced (k : Kernel) : Prop where
  tabled : ∀ d, (k.dir d).Tabled
  sz : ∀ i, (k.proc i).sz < 4294967296

section

variable {k k' : Kernel}

theorem Spaced.of_eq (h : k.Spaced) (hdir : k'.dir = k.dir)
    (hsz : ∀ i, (k'.proc i).sz = (k.proc i).sz) : k'.Spaced :=
  ⟨fun d => by rw [hdir]; exact h.tabled d, fun i => by rw [hsz]; exact h.sz i⟩

theorem Spaced.modify (h : k.Spaced) (slot : Slot) (f : Proc → Proc)
    (hf : (f (k.proc slot)).sz < 4294967296) : (k.modify slot f).Spaced := by
  refine ⟨h.tabled, fun i => ?_⟩
  rw [modify_proc]
  split
  · exact hf
  · exact h.sz i

theorem Spaced.modify_same (h : k.Spaced) (slot : Slot) (f : Proc → Proc)
    (hf : ∀ p, (f p).sz = p.sz) : (k.modify slot f).Spaced :=
  h.modify slot f (by rw [hf]; exact h.sz slot)

theorem Spaced.update (h : k.Spaced) {slot : Slot} {p : Proc} (hdir : k'.dir = k.dir)
    (hproc : k'.proc = Function.update k.proc slot p) (hp : p.sz < 4294967296) : k'.Spaced :=
  (h.modify slot (fun _ => p) hp).of_eq hdir fun i => by rw [hproc]; rfl

theorem Spaced.setSpace (h : k.Spaced) (d : DirId) {s : Space} (hs : s.dir.Tabled) :
    (k.setSpace d s).Spaced := by
  refine ⟨fun d' => ?_, h.sz⟩
  by_cases hd : d' = d
  · subst hd
    simpa [Kernel.setSpace] using hs
  · simpa [Kernel.setSpace, hd] using h.tabled d'

theorem Spaced.addDir (h : k.Spaced) {pages : PageDir} (hpages : pages.Tabled) (free : Nat) :
    (k.addDir pages free).Spaced := by
  refine ⟨fun d => ?_, h.sz⟩
  by_cases hd : d = k.nextdir
  · subst hd
    simpa [Kernel.addDir] using hpages
  · simpa [Kernel.addDir, hd] using h.tabled d

theorem Spaced.sched (h : k.Spaced) (slot : Slot) : (k.sched slot).Spaced :=
  h.of_eq rfl fun _ => rfl

theorem Spaced.sleep (h : k.Spaced) (slot : Slot) (chan : Chan) : (k.sleep slot chan).Spaced :=
  h.update rfl rfl (h.sz slot)

theorem Spaced.wakeup1 (h : k.Spaced) (chan : Option Chan) : (k.wakeup1 chan).Spaced := by
  refine h.of_eq rfl fun i => ?_
  simp only [Kernel.wakeup1]
  split
  · rfl
  · rfl

theorem Spaced.dupFiles (h : k.Spaced) {src dst : Slot} (hdup : k.dupFiles src dst = .ok k') :
    k'.Spaced := by
  obtain ⟨ofile, cwd, fileRef, inodeRef, rfl⟩ := dupFiles_shape hdup
  exact h.update rfl rfl (h.sz dst)

theorem Spaced.closeFiles (h : k.Spaced) {slot : Slot} (hclose : k.closeFiles slot = .ok k') :
    k'.Spaced := by
  obtain ⟨ofile, cwd, fileRef, inodeRef, rfl⟩ := closeFiles_shape hclose
  exact h.update rfl rfl (h.sz slot)

theorem Spaced.execution (h : k.Spaced) {c : Fin ncpu} {p : Slot} {how how' : Visit}
    (hexec : k.execution c p how = .ok (k', how')) : k'.Spaced := by
  rw [(execution_eq hexec).1]
  exact h.update rfl rfl (h.sz p)

theorem Spaced.visit (h : k.Spaced) {c : Fin ncpu} {p : Slot} {how : Visit}
    (hvisit : k.visit c p = .ok (k', how)) : k'.Spaced := by
  obtain ⟨cpu, rfl⟩ | ⟨-, cpu, k1, how', hk1, hvisit⟩ := visit_shape hvisit
  · exact h.of_eq rfl fun _ => rfl
  · refine Spaced.execution ?_ hvisit
    obtain rfl | ⟨mgr, pass, heap, rfl⟩ := hk1
    · exact h.of_eq rfl fun _ => rfl
    · exact h.update rfl rfl (h.sz mgr)

theorem Spaced.setCpuShare (h : k.Spaced) {cur : Slot} {percent r : Int}
    (hshare : k.setCpuShare cur percent = .ok (k', r)) : k'.Spaced := by
  obtain rfl | ⟨heap, tickets, pass, stride, rfl⟩ := setCpuShare_shape hshare
  · exact h
  · exact h.update rfl rfl (h.sz cur)

theorem Spaced.allocproc (h : k.Spaced) {np : Option Slot} (halloc : k.allocproc = (k', np)) :
    k'.Spaced := by
  obtain rfl | ⟨np, nextpid, free, kstack, state, context, -, rfl⟩ := allocproc_shape halloc
  · exact h
  · exact h.update rfl rfl (h.sz np)

theorem Spaced.setFree (h : k.Spaced) (free : Nat) : (k.setFree free).Spaced :=
  h.of_eq rfl fun _ => rfl

theorem Spaced.abandon (h : k.Spaced) (np : Slot) : (k.abandon np).Spaced :=
  h.update rfl rfl (h.sz np)

theorem Spaced.resize (h : k.Spaced) {d : DirId} {sz : Nat} {n : Int} {s : Space} {r : Nat}
    (hsz : sz < 4294967296) (hresize : Kernel.resize (k.space d) sz n = .ok (s, r)) :
    s.dir.Tabled ∧ r < 4294967296 := by
  have htabled : (k.space d).dir.Tabled := h.tabled d
  unfold Kernel.resize at hresize
  split at hresize
  · exact ⟨(allocuvm_spec htabled hresize).1, allocuvm_word htabled hsz hresize⟩
  split at hresize
  · have hresult := deallocuvm_result hresize
    refine ⟨(deallocuvm_spec htabled hresize).1, ?_⟩
    omega
  · cases Except.ok.inj hresize
    exact ⟨htabled, hsz⟩

theorem Spaced.growproc (h : k.Spaced) {cur : Slot} {n r : Int}
    (hgrow : k.growproc cur n = .ok (k', r)) : k'.Spaced := by
  obtain ⟨mgr, -, hgrow⟩ := bind_eq_ok.mp hgrow
  cases mgr with
  | none =>
    cases Except.ok.inj hgrow
    exact h
  | some mgr =>
    obtain ⟨d, -, hgrow⟩ := bind_eq_ok.mp hgrow
    obtain ⟨⟨s, result⟩, hresize, hgrow⟩ := bind_eq_ok.mp hgrow
    obtain ⟨htabled, hresult⟩ := h.resize (h.sz mgr) hresize
    dsimp only at hgrow
    split at hgrow
    · cases Except.ok.inj hgrow
      exact h.setSpace d htabled
    · cases Except.ok.inj hgrow
      exact (h.setSpace d htabled).modify mgr _ hresult

theorem Spaced.fork (h : k.Spaced) {cur : Slot} {r : Int} (hfork : k.fork cur = .ok (k', r)) :
    k'.Spaced := by
  unfold Kernel.fork at hfork
  split at hfork
  · rename_i hnone
    cases Except.ok.inj hfork
    exact h.allocproc hnone
  · rename_i k0 np hsome
    have h0 := h.allocproc hsome
    obtain ⟨mgr, -, hfork⟩ := bind_eq_ok.mp hfork
    cases mgr with
    | none =>
      cases Except.ok.inj hfork
      exact h0.abandon np
    | some mgr =>
      obtain ⟨d, -, hfork⟩ := bind_eq_ok.mp hfork
      obtain ⟨⟨pages, left⟩, hcopy, hfork⟩ := bind_eq_ok.mp hfork
      cases pages with
      | none =>
        cases Except.ok.inj hfork
        refine Spaced.abandon ?_ np
        exact h0.update rfl rfl (h0.sz np)
      | some pages =>
        obtain ⟨k1, hdup, hfork⟩ := bind_eq_ok.mp hfork
        cases Except.ok.inj hfork
        have hnew := h0.addDir (tabled_copyuvm hcopy) left
        have hdone : k1.Spaced := by
          refine Spaced.dupFiles ?_ hdup
          exact hnew.update rfl rfl (h0.sz mgr)
        exact hdone.update rfl rfl (hdone.sz np)

theorem Spaced.reap (h : k.Spaced) {mgr p : Slot} {pushed : Bool}
    (hreap : k.reap mgr p = .ok (k', pushed)) : k'.Spaced := by
  obtain ⟨d, -, hreap⟩ := bind_eq_ok.mp hreap
  obtain ⟨⟨s, result⟩, hdealloc, hreap⟩ := bind_eq_ok.mp hreap
  have hreaped : Spaced ((k.setFree (k.free + 1)).modify p reapFields) :=
    h.update rfl rfl (h.sz p)
  have hspace := hreaped.setSpace d (deallocuvm_spec (hreaped.tabled d) hdealloc).1
  dsimp only at hreap
  split at hreap
  · cases Except.ok.inj hreap
    exact hspace
  split at hreap
  · cases hreap
  · cases Except.ok.inj hreap
    exact hspace.update rfl rfl (hspace.sz mgr)

theorem Spaced.sweep (h : k.Spaced) {mgr : Slot} {lwp : Option Slot} (rest : List Slot)
    {go : Bool} (hsweep : sweep mgr lwp rest k = .ok (k', go)) : k'.Spaced := by
  refine sweep_invariant Spaced (fun k1 p k2 more hk1 hone => ?_) rest h hsweep
  obtain rfl | ⟨-, -, rfl⟩ | ⟨-, -, hreap⟩ := sweepOne_shape hone
  · exact hk1
  · exact hk1.update rfl rfl (hk1.sz p)
  · exact hk1.reap hreap

theorem Spaced.exitBegin (h : k.Spaced) {cur : Slot} {go : Bool}
    (hexit : k.exitBegin cur = .ok (k', go)) : k'.Spaced := by
  obtain ⟨heap, tickets, hexit⟩ := exitBegin_shape hexit
  have hshared : Spaced { k with heap := heap, strideTickets := tickets } :=
    h.of_eq rfl fun _ => rfl
  obtain rfl | ⟨mgr, lwp, hsweep⟩ := hexit
  · exact hshared
  · exact hshared.sweep slots hsweep

theorem Spaced.exitEnd (h : k.Spaced) {cur : Slot} (hexit : k.exitEnd cur = .ok k') :
    k'.Spaced := by
  obtain ⟨k1, hclose, hexit⟩ := bind_eq_ok.mp hexit
  obtain ⟨k2, hnotify, hexit⟩ := bind_eq_ok.mp hexit
  cases Except.ok.inj hexit
  have h1 := h.closeFiles hclose
  have h2 : k2.Spaced := by
    obtain ⟨slot, killed, chan, rfl⟩ := notify_shape hnotify
    exact (h1.modify_same slot (fun p => { p with killed := killed }) fun _ => rfl).wakeup1 chan
  have h3 : (k2.passChildren cur).Spaced := by
    have hpassed : Spaced { k2 with
        proc := fun slot => reparent cur k2.initproc (k2.proc slot) } := by
      refine h2.of_eq rfl fun i => ?_
      simp only [reparent]
      split
      · rfl
      · rfl
    unfold passChildren
    dsimp only
    split
    · exact hpassed.wakeup1 _
    · exact hpassed
  exact h3.update rfl rfl (h3.sz cur)

theorem Spaced.wait (h : k.Spaced) {cur : Slot} {answer : Answer}
    (hwait : k.wait cur = .ok (k', answer)) : k'.Spaced := by
  unfold Kernel.wait at hwait
  split at hwait
  · rename_i p _
    dsimp only at hwait
    split at hwait
    · obtain ⟨left, -, hwait⟩ := bind_eq_ok.mp hwait
      cases Except.ok.inj hwait
      refine Spaced.modify_same ?_ cur _ fun _ => rfl
      exact h.update rfl rfl (h.sz p)
    · cases hwait
  split at hwait
  · cases Except.ok.inj hwait
    exact h.modify_same cur _ fun _ => rfl
  · cases Except.ok.inj hwait
    refine Spaced.sleep ?_ cur _
    exact h.modify_same cur _ fun _ => rfl

theorem Spaced.mapStack (h : k.Spaced) {np : Slot} {base : Nat} {ok : Bool}
    (hmap : k.mapStack np base = .ok (k', ok)) : k'.Spaced := by
  obtain ⟨d, -, hmap⟩ := bind_eq_ok.mp hmap
  obtain ⟨⟨s, result⟩, halloc, hmap⟩ := bind_eq_ok.mp hmap
  have htabled : (k.space d).dir.Tabled := h.tabled d
  have hs := (allocuvm_spec htabled halloc).1
  have hbase : pgroundup base < 4294967296 := by
    unfold pgroundup
    have hlt := u32_lt (base + (pgsize - 1))
    have hle := Nat.div_mul_le_self (u32 (base + (pgsize - 1))) pgsize
    omega
  have hresult := allocuvm_word htabled hbase halloc
  have hspace := (h.setSpace d hs).modify np (fun p => { p with sz := result }) hresult
  dsimp only at hmap
  split at hmap
  · cases Except.ok.inj hmap
    exact hspace
  · obtain ⟨s', hclear, hmap⟩ := bind_eq_ok.mp hmap
    obtain ⟨copied, -, hmap⟩ := bind_eq_ok.mp hmap
    cases Except.ok.inj hmap
    obtain ⟨hpages, htables⟩ := clearpteu_pages hclear
    exact hspace.setSpace d (hs.of_subset htables hpages.subset)

theorem Spaced.threadCreate (h : k.Spaced) {cur : Slot} {start : Nat} {c : Created}
    (hcreate : k.threadCreate cur start = .ok (k', c)) : k'.Spaced := by
  unfold Kernel.threadCreate at hcreate
  split at hcreate
  · rename_i hnone
    cases Except.ok.inj hcreate
    exact h.allocproc hnone
  · rename_i k0 np hsome
    have h0 := h.allocproc hsome
    obtain ⟨mgr, -, hcreate⟩ := bind_eq_ok.mp hcreate
    cases mgr with
    | none =>
      cases Except.ok.inj hcreate
      exact h0.abandon np
    | some mgr =>
      obtain ⟨k1, hdup, hcreate⟩ := bind_eq_ok.mp hcreate
      obtain ⟨⟨k2, mapped⟩, hmap, hcreate⟩ := bind_eq_ok.mp hcreate
      have hlinked : (k0.linkLwp mgr np).Spaced := by
        unfold linkLwp
        refine Spaced.modify_same ?_ np _ fun _ => rfl
        refine Spaced.modify_same ?_ mgr _ fun _ => rfl
        exact h0.modify_same np _ fun _ => rfl
      have h1 := hlinked.dupFiles hdup
      have htaken : (k1.takeStack mgr).1.Spaced := by
        unfold takeStack
        split
        · exact h1.update rfl rfl (u32_lt _)
        · exact h1.update rfl rfl (h1.sz mgr)
      have h2 := htaken.mapStack hmap
      cases mapped with
      | true =>
        cases Except.ok.inj hcreate
        exact h2.update rfl rfl (h2.sz np)
      | false =>
        cases Except.ok.inj hcreate
        exact h2.abandon np

theorem Spaced.threadExit (h : k.Spaced) {cur : Slot} {retval : Nat} {answer : Answer}
    (hexit : k.threadExit cur retval = .ok (k', answer)) : k'.Spaced := by
  obtain rfl | ⟨k1, chan, hclose, rfl⟩ := threadExit_shape hexit
  · exact h
  · have hvalue := (h.closeFiles hclose).modify_same cur (fun p => { p with retval := retval })
      fun _ => rfl
    exact ((hvalue.wakeup1 chan).modify_same cur (fun p => { p with state := .zombie })
      fun _ => rfl).sched cur

theorem Spaced.threadJoin (h : k.Spaced) {cur : Slot} {thread : Int} {out : Joined}
    (hjoin : k.threadJoin cur thread = .ok (k', out)) : k'.Spaced := by
  unfold Kernel.threadJoin at hjoin
  split at hjoin
  · cases Except.ok.inj hjoin
    exact h
  split at hjoin
  · obtain ⟨⟨k1, pushed⟩, hreap, hjoin⟩ := bind_eq_ok.mp hjoin
    cases Except.ok.inj hjoin
    exact (h.reap hreap).modify_same cur _ fun _ => rfl
  split at hjoin
  · cases Except.ok.inj hjoin
    exact h.modify_same cur _ fun _ => rfl
  · cases Except.ok.inj hjoin
    refine Spaced.sleep ?_ cur _
    exact h.modify_same cur _ fun _ => rfl

theorem Spaced.commitImage (h : k.Spaced) {cur : Slot} {s : Space} {entry sz sp : Nat} {r : Int}
    (hs : s.dir.Full sz) (hcommit : k.commitImage cur s entry sz sp = .ok (k', r)) :
    k'.Spaced := by
  obtain ⟨free, freed, rfl⟩ := commitImage_shape hcommit
  exact (h.addDir hs.tabled s.free).update rfl rfl (hs.below.trans_lt (by decide))

theorem Spaced.cleanupLwp (h : k.Spaced) (mgr : Slot) (lwp : Option Slot) :
    (k.cleanupLwp mgr lwp).Spaced := by
  refine h.of_eq rfl fun i => ?_
  simp only [Kernel.cleanupLwp]
  split
  · rfl
  · rfl

theorem Spaced.exec (h : k.Spaced) {cur : Slot} {file : Option ElfFile} {argv : List Nat}
    {r : Int} (hexec : k.exec cur file argv = .ok (k', r)) : k'.Spaced := by
  unfold Kernel.exec at hexec
  split at hexec
  · rename_i file fresh hsetup
    have hfresh : fresh.dir.Full 0 := by
      unfold setupkvm at hsetup
      split at hsetup
      · cases hsetup
      · cases hsetup
        exact full_empty
    obtain ⟨⟨s, image⟩, hbuild, hexec⟩ := bind_eq_ok.mp hexec
    cases image with
    | none =>
      obtain ⟨left, -, heq⟩ := map_eq_ok.mp hexec
      cases heq
      exact h.setFree left
    | some image =>
      obtain ⟨sz, sp⟩ := image
      have hfull := full_buildImage hfresh hbuild
      dsimp only at hexec
      split at hexec
      · obtain ⟨mgr, -, hexec⟩ := bind_eq_ok.mp hexec
        exact (h.cleanupLwp mgr (some cur)).commitImage hfull hexec
      split at hexec
      · exact (h.cleanupLwp cur none).commitImage hfull hexec
      · obtain ⟨left, -, heq⟩ := map_eq_ok.mp hexec
        cases heq
        exact h.setFree left
  · cases Except.ok.inj hexec
    exact h

theorem spaced_boot (free : Nat) : (boot free).Spaced := by
  constructor
  · intro d
    by_cases hd : d = 0
    · subst hd
      intro q hq
      simp only [boot, Function.update_self, Finset.mem_singleton] at hq ⊢
      subst hq
      rfl
    · simpa [boot, hd] using tabled_empty
  · intro i
    by_cases hi : i = 0
    · subst hi
      exact (by decide : pgsize < 4294967296)
    · simp [boot, hi, Proc.zero]

theorem Spaced.awake (h : k.Spaced) (p : Slot) : (k.awake p).Spaced := h.update rfl rfl (h.sz p)

theorem Spaced.step (h : k.Spaced) {a : Act} {out : Out} (hstep : k.perform a = .ok (k', out)) :
    k'.Spaced := by
  cases performs hstep with
  | visit hvisit => exact h.visit hvisit
  | yield p => exact h.update rfl rfl (h.sz p)
  | sleepOn p chan => exact h.sleep p chan
  | wakeup chan => exact h.wakeup1 _
  | charge p level ticks runtime => exact h.update rfl rfl (h.sz p)
  | kill p pid =>
    unfold Kernel.kill
    split
    · exact h
    · rename_i slot _
      exact h.update rfl rfl (h.sz slot)
  | fork hfork => exact h.fork hfork
  | exec hexec => exact h.exec hexec
  | sbrk hgrow => exact h.growproc hgrow
  | wait hwait => exact h.wait hwait
  | resumeWait hwait => exact (h.awake _).wait hwait
  | threadCreate hcreate => exact h.threadCreate hcreate
  | threadExit hexit => exact h.threadExit hexit
  | threadJoin hjoin => exact h.threadJoin hjoin
  | resumeJoin hjoin => exact (h.awake _).threadJoin hjoin
  | exits hbegin hend => exact (h.exitBegin hbegin).exitEnd hend
  | exitStays hbegin => exact h.exitBegin hbegin
  | exitBegin hbegin =>
    have hleft := h.exitBegin hbegin
    exact hleft.update rfl rfl (hleft.sz _)
  | exitReturns hbegin => exact h.exitBegin hbegin
  | exitEnd hend => exact h.exitEnd hend
  | setCpuShare hshare => exact h.setCpuShare hshare

theorem spaced_reaches {free : Nat} (h : Reaches perform Enabled (boot free) k) : k.Spaced :=
  h.invariant Spaced (spaced_boot free) fun _ _ _ _ hk _ hstep => hk.step hstep

end

end Kernel

end Xv6

import Xv6.Proc.Inversion
import Xv6.Vm.Range

/-! The part of the process table that lays out an address space: size, free list of
stack regions, handle, manager and directory of every slot in use. Most operations
leave all of it alone; the others change one directory and one or two slots. -/
namespace Xv6

open Word Fallible

structure Layout where
  sz : Nat
  stack : List Nat
  tid : Int
  manager : Option Slot
  pgdir : Option DirId

/-- Where the next stack of a group starts, by the layout of its manager. -/
def Layout.stackBase (l : Layout) : Nat :=
  match l.stack with
  | [] => l.sz
  | base :: _ => base

def Layout.stackTaken (l : Layout) : Layout :=
  match l.stack with
  | [] => { l with sz := u32 (l.sz + 2 * pgsize) }
  | _ :: rest => { l with stack := rest }

theorem Layout.stackTaken_same (l : Layout) :
    l.stackTaken.tid = l.tid ∧ l.stackTaken.pgdir = l.pgdir ∧
    l.stackTaken.manager = l.manager := by
  unfold Layout.stackTaken
  split <;> exact ⟨rfl, rfl, rfl⟩

def Proc.layout (p : Proc) : Option Layout :=
  if p.state = .unused then none else some ⟨p.sz, p.stack, p.tid, p.manager, p.pgdir⟩

theorem Proc.layout_unused {p : Proc} (h : p.state = .unused) : p.layout = none := if_pos h

theorem Proc.layout_used {p : Proc} (h : p.state ≠ .unused) :
    p.layout = some ⟨p.sz, p.stack, p.tid, p.manager, p.pgdir⟩ := if_neg h

theorem Proc.layout_eq_none {p : Proc} : p.layout = none ↔ p.state = .unused := by
  simp [Proc.layout]

namespace Kernel

def layout (k : Kernel) (i : Slot) : Option Layout := (k.proc i).layout

theorem layout_modify (k : Kernel) (slot : Slot) (f : Proc → Proc) :
    (k.modify slot f).layout = Function.update k.layout slot (f (k.proc slot)).layout := by
  funext i
  by_cases hi : i = slot
  · subst hi; simp [layout]
  · simp [layout, hi]

structure Still (k k' : Kernel) : Prop where
  dir : k'.dir = k.dir
  layout : k'.layout = k.layout

theorem Still.refl (k : Kernel) : Still k k := ⟨rfl, rfl⟩

theorem Still.trans {k k' k'' : Kernel} (h : Still k k') (h' : Still k' k'') : Still k k'' :=
  ⟨h'.dir.trans h.dir, h'.layout.trans h.layout⟩

theorem Still.unused {k k' : Kernel} (h : Still k k') (i : Slot) :
    (k'.proc i).state = .unused ↔ (k.proc i).state = .unused := by
  rw [← Proc.layout_eq_none, ← Proc.layout_eq_none]
  exact iff_of_eq (congrArg (· = none) (congrFun h.layout i))

theorem still_of_layout {k k' : Kernel} (hdir : k'.dir = k.dir)
    (h : ∀ i, (k'.proc i).layout = (k.proc i).layout) : Still k k' := ⟨hdir, funext h⟩

theorem still_update {k k' : Kernel} {slot : Slot} {q : Proc} (hdir : k'.dir = k.dir)
    (hproc : k'.proc = Function.update k.proc slot q) (hq : q.layout = (k.proc slot).layout) :
    Still k k' := by
  refine still_of_layout hdir fun i => ?_
  rw [hproc, Function.update_apply]
  split
  · rename_i hi
    rw [hi]
    exact hq
  · rfl

theorem still_modify (k : Kernel) (slot : Slot) (f : Proc → Proc)
    (h : (f (k.proc slot)).layout = (k.proc slot).layout) : Still k (k.modify slot f) :=
  still_update rfl rfl h

theorem still_sched (k : Kernel) (slot : Slot) : Still k (k.sched slot) := ⟨rfl, rfl⟩

theorem still_sleep (k : Kernel) (slot : Slot) (chan : Chan) (h : (k.proc slot).Live) :
    Still k (k.sleep slot chan) := by
  apply Still.trans _ (still_sched _ _)
  apply still_modify
  simp [Proc.layout, h.1]

theorem still_yield (k : Kernel) (slot : Slot) (h : (k.proc slot).Live) :
    Still k (k.yield slot) := by
  apply Still.trans _ (still_sched _ _)
  apply still_modify
  simp [Proc.layout, h.1]

theorem still_wakeup1 (k : Kernel) (chan : Option Chan) : Still k (k.wakeup1 chan) := by
  refine still_of_layout rfl fun i => ?_
  simp only [wakeup1]
  split
  · rename_i h
    simp [Proc.layout, h.1]
  · rfl

theorem Proc.layout_wake (p : Proc) (killed : Bool) :
    Proc.layout { p with killed := killed,
                         state := if p.state = .sleeping then .runnable else p.state } =
      p.layout := by
  by_cases h : p.state = .sleeping <;> simp [Proc.layout, h]

theorem still_dupFiles {k k' : Kernel} {src dst : Slot} (h : k.dupFiles src dst = .ok k') :
    Still k k' := by
  obtain ⟨ofile, cwd, fileRef, inodeRef, rfl⟩ := dupFiles_shape h
  exact still_update rfl rfl rfl

theorem dupFiles_free {k k' : Kernel} {src dst : Slot} (h : k.dupFiles src dst = .ok k') :
    k'.free = k.free := by
  obtain ⟨ofile, cwd, fileRef, inodeRef, rfl⟩ := dupFiles_shape h
  rfl

theorem still_closeFiles {k k' : Kernel} {slot : Slot} (h : k.closeFiles slot = .ok k') :
    Still k k' := by
  obtain ⟨ofile, cwd, fileRef, inodeRef, rfl⟩ := closeFiles_shape h
  exact still_update rfl rfl rfl

theorem still_execution {k k' : Kernel} {c : Fin ncpu} {p : Slot} {how how' : Visit}
    (hp : (k.proc p).state ≠ .unused) (h : k.execution c p how = .ok (k', how')) :
    Still k k' := by
  rw [(execution_eq h).1]
  refine still_update rfl rfl ?_
  rw [Proc.layout_used hp, Proc.layout_used (by simp)]

theorem still_visit {k k' : Kernel} {c : Fin ncpu} {p : Slot} {how : Visit}
    (h : k.visit c p = .ok (k', how)) : Still k k' := by
  obtain ⟨cpu, rfl⟩ | ⟨hrunnable, cpu, k1, how', hk1, h⟩ := visit_shape h
  · exact ⟨rfl, rfl⟩
  · have hbefore : Still k k1 := by
      obtain rfl | ⟨mgr, pass, heap, rfl⟩ := hk1
      · exact ⟨rfl, rfl⟩
      · exact still_update rfl rfl rfl
    refine hbefore.trans (still_execution (mt (hbefore.unused p).mp ?_) h)
    rw [hrunnable]
    decide

theorem still_threadExit {k k' : Kernel} {cur : Slot} {retval : Nat} {answer : Answer}
    (hcur : (k.proc cur).Live) (h : k.threadExit cur retval = .ok (k', answer)) :
    Still k k' := by
  obtain rfl | ⟨k1, chan, hclose, rfl⟩ := threadExit_shape h
  · exact .refl _
  · have hwoken :
        Still k ((k1.modify cur fun p => { p with retval := retval }).wakeup1 chan) :=
      ((still_closeFiles hclose).trans (still_modify _ _ _ rfl)).trans (still_wakeup1 _ _)
    refine (hwoken.trans (still_modify _ cur _ ?_)).trans (still_sched _ _)
    have hused := mt (hwoken.unused cur).mp hcur.1
    rw [Proc.layout_used hused, Proc.layout_used (by simp)]

theorem layout_eq_some {k : Kernel} {i : Slot} {l : Layout} (h : k.layout i = some l) :
    (k.proc i).state ≠ .unused ∧ (k.proc i).sz = l.sz ∧ (k.proc i).stack = l.stack ∧
      (k.proc i).tid = l.tid ∧ (k.proc i).manager = l.manager ∧ (k.proc i).pgdir = l.pgdir := by
  unfold layout Proc.layout at h
  split at h
  · cases h
  · rename_i hused
    cases h
    exact ⟨hused, rfl, rfl, rfl, rfl, rfl⟩

theorem takeStack_layout {k : Kernel} {mgr : Slot} {l : Layout} (h : k.layout mgr = some l) :
    (k.takeStack mgr).2 = l.stackBase ∧
      (k.takeStack mgr).1.layout = Function.update k.layout mgr (some l.stackTaken) := by
  obtain ⟨hused, hsz, hstack, htid, hmanager, hpgdir⟩ := layout_eq_some h
  unfold takeStack Layout.stackBase Layout.stackTaken
  rw [hstack]
  cases hlist : l.stack with
  | nil =>
    rw [hlist] at hstack
    refine ⟨hsz, ?_⟩
    rw [layout_modify, Proc.layout_used (by exact hused)]
    simp only [hsz, hstack, htid, hmanager, hpgdir]
  | cons base rest =>
    refine ⟨rfl, ?_⟩
    rw [layout_modify, Proc.layout_used (by exact hused)]
    simp only [hsz, htid, hmanager, hpgdir]

theorem takeStack_frame (k : Kernel) (mgr : Slot) :
    (k.takeStack mgr).1.dir = k.dir ∧ (k.takeStack mgr).1.free = k.free := by
  unfold takeStack
  split <;> exact ⟨rfl, rfl⟩

theorem mapStack_layout {k k' : Kernel} {np : Slot} {base : Nat} {l : Layout} {d : DirId}
    {mapped : Bool} (hl : k.layout np = some l) (hdir : l.pgdir = some d)
    (h : k.mapStack np base = .ok (k', mapped)) :
    ∃ s result, allocuvm (k.space d) (pgroundup base) (u32 (pgroundup base + 2 * pgsize)) =
        .ok (s, result) ∧
      ((k'.dir d).pages = s.dir.pages ∧ (k'.dir d).tables = s.dir.tables) ∧
      k'.layout = Function.update k.layout np (some { l with sz := result }) ∧
      (mapped = true → result ≠ 0) := by
  obtain ⟨hused, hsz, hstack, htid, hmanager, hpgdir⟩ := layout_eq_some hl
  obtain ⟨d', hd, h⟩ := bind_eq_ok.mp h
  have heq := deref_eq_ok hd
  rw [hpgdir, hdir] at heq
  cases heq
  obtain ⟨⟨s, result⟩, halloc, h⟩ := bind_eq_ok.mp h
  have hlayout : ((k.setSpace d s).modify np fun p => { p with sz := result }).layout =
      Function.update k.layout np (some { l with sz := result }) := by
    rw [layout_modify, Proc.layout_used (by exact hused)]
    simp only [setSpace, hstack, htid, hmanager, hpgdir]
    rfl
  dsimp only at h
  refine ⟨s, result, halloc, ?_⟩
  split at h
  · cases Except.ok.inj h
    exact ⟨by simp [setSpace, modify], hlayout, by simp⟩
  · rename_i hresult
    obtain ⟨s1, hclear, h⟩ := bind_eq_ok.mp h
    obtain ⟨copied, -, h⟩ := bind_eq_ok.mp h
    cases Except.ok.inj h
    have hpages := clearpteu_pages hclear
    exact ⟨by simpa [setSpace, modify] using hpages, hlayout, fun _ => hresult⟩

theorem mapStack_remap {k : Kernel} {np : Slot} {base : Nat} {d : DirId}
    (hdir : (k.proc np).pgdir = some d) (h : k.mapStack np base = .error .remap) :
    allocuvm (k.space d) (pgroundup base) (u32 (pgroundup base + 2 * pgsize)) =
      .error .remap := by
  unfold mapStack at h
  rw [hdir] at h
  rcases bind_eq_error.mp h with hnull | ⟨d', hd, h⟩
  · cases hnull
  · cases Except.ok.inj hd
    rcases bind_eq_error.mp h with halloc | ⟨⟨s, result⟩, -, h⟩
    · exact halloc
    · dsimp only at h
      split at h
      · cases h
      · rcases bind_eq_error.mp h with hclear | ⟨s1, -, h⟩
        · cases clearpteu_error hclear
        · rcases bind_eq_error.mp h with hcopy | ⟨copied, -, h⟩
          · cases copyoutLoop_error hcopy
          · cases h

/-- `thread_create` once it has a slot and a kernel stack for an LWP of `mgr`: it takes a
region, maps it and fills the slot, or leaves the slot unused. -/
structure Stacks (k k' : Kernel) (mgr np : Slot) (l : Layout) (d : DirId) (s : Space)
    (result : Nat) : Prop where
  found : (k.findSlot fun _ p => p.state = .unused) = some np
  free : 0 < k.free
  alloc : allocuvm ⟨k.dir d, k.free - 1⟩ (pgroundup l.stackBase)
    (u32 (pgroundup l.stackBase + 2 * pgsize)) = .ok (s, result)
  pages : (k'.dir d).pages = s.dir.pages
  tables : (k'.dir d).tables = s.dir.tables
  manager : k'.layout mgr = some l.stackTaken
  others : ∀ i, i ≠ mgr → i ≠ np → k'.layout i = k.layout i
  lwp : k'.layout np = none ∨ result ≠ 0 ∧
    k'.layout np = some ⟨result, [], (k.proc mgr).nexttid, some mgr, some d⟩

theorem linkLwp_layout (k : Kernel) {mgr np : Slot} (hne : mgr ≠ np)
    (hused : (k.proc np).state ≠ .unused) :
    (k.linkLwp mgr np).layout = Function.update k.layout np (some ⟨(k.proc np).sz,
      (k.proc np).stack, (k.proc mgr).nexttid, some mgr, (k.proc mgr).pgdir⟩) := by
  funext i
  by_cases hi : i = np
  · subst hi
    rw [Function.update_self]
    unfold layout
    rw [linkLwp_proc, Proc.layout_used (by exact hused)]
  · rw [Function.update_of_ne hi]
    by_cases him : i = mgr
    · subst him
      simp [layout, linkLwp, hi, Proc.layout]
    · simp [layout, linkLwp, hi, him]

theorem linkLwp_frame (k : Kernel) (mgr np : Slot) :
    (k.linkLwp mgr np).dir = k.dir ∧ (k.linkLwp mgr np).free = k.free := ⟨rfl, rfl⟩

theorem Taken.linked {k k0 k1 : Kernel} {mgr np : Slot} {l : Layout} (h : Taken k k0 np)
    (hl : k.layout mgr = some l) (hdup : (k0.linkLwp mgr np).dupFiles mgr np = .ok k1) :
    k1.dir = k.dir ∧ k1.free = k.free - 1 ∧ mgr ≠ np ∧
      k1.layout = Function.update k.layout np
        (some ⟨(k.proc np).sz, [], (k.proc mgr).nexttid, some mgr, l.pgdir⟩) := by
  obtain ⟨hused, -, -, -, -, hpgdir⟩ := layout_eq_some hl
  have hne : mgr ≠ np := by
    rintro rfl
    exact hused h.spawning.before
  have hembryo : (k0.proc np).state ≠ .unused := by
    rw [h.proc]
    simp [allocFields]
  have hstill := still_dupFiles hdup
  refine ⟨hstill.dir.trans h.dir, ?_, hne, ?_⟩
  · have hfree := h.free
    rw [dupFiles_free hdup, (linkLwp_frame k0 mgr np).2]
    omega
  · rw [hstill.layout, linkLwp_layout k0 hne hembryo, h.others mgr hne, h.proc, hpgdir]
    funext i
    by_cases hi : i = np
    · subst hi
      simp [allocFields]
    · simp [hi, layout, h.others i hi]

theorem still_abandon {k k' : Kernel} {np : Slot} (hunused : (k.proc np).state = .unused)
    (hdir : k'.dir = k.dir) (hothers : ∀ i, i ≠ np → k'.layout i = k.layout i) :
    Still k (k'.abandon np) := by
  refine still_of_layout hdir fun i => ?_
  by_cases hi : i = np
  · subst hi
    rw [Proc.layout_unused hunused, Proc.layout_unused (by simp [abandon])]
  · have hsame : (k'.abandon np).proc i = k'.proc i := by simp [abandon, hi, setFree]
    rw [hsame]
    exact hothers i hi

theorem still_of_allocproc_none {k k' : Kernel} (h : k.allocproc = (k', none)) : Still k k' := by
  unfold allocproc at h
  split at h
  · cases h
    exact .refl k
  · rename_i np hfind
    have hstate : (k.proc np).state = .unused := by simpa using findSlot_some hfind
    dsimp only at h
    split at h
    · cases h
      refine still_of_layout rfl fun i => ?_
      by_cases hi : i = np
      · subst hi
        rw [Proc.layout_unused hstate, Proc.layout_unused (by simp)]
      · simp [hi]
    · cases h

theorem threadCreate_layout {k k' : Kernel} {cur mgr : Slot} {l : Layout} {d : DirId}
    {start : Nat} {out : Created} (hcur : (k.proc cur).Live)
    (hmgr : ∀ m, k.manager? cur = .ok (some m) → m = mgr)
    (hl : k.layout mgr = some l) (hdir : l.pgdir = some d)
    (h : k.threadCreate cur start = .ok (k', out)) :
    Still k k' ∨ ∃ np s result, Stacks k k' mgr np l d s result := by
  unfold threadCreate at h
  split at h
  · rename_i k0 halloc
    cases Except.ok.inj h
    exact .inl (still_of_allocproc_none halloc)
  · rename_i k0 np halloc
    have taken := taken_of_allocproc halloc
    obtain ⟨mgr?, hmanager, h⟩ := bind_eq_ok.mp h
    rw [taken.manager? hcur] at hmanager
    cases mgr? with
    | none =>
      cases Except.ok.inj h
      exact .inl (still_abandon taken.spawning.before taken.dir
        fun i hi => by simp [layout, taken.others i hi])
    | some m =>
      cases hmgr m hmanager
      obtain ⟨k1, hdup, h⟩ := bind_eq_ok.mp h
      obtain ⟨⟨k2, mapped⟩, hmap, h⟩ := bind_eq_ok.mp h
      obtain ⟨hdir1, hfree1, hne, hlayout1⟩ := taken.linked hl hdup
      have hl1 : k1.layout mgr = some l := by
        rw [hlayout1, Function.update_of_ne hne, hl]
      obtain ⟨hbase, htaken⟩ := takeStack_layout hl1
      obtain ⟨hdirs, hfrees⟩ := takeStack_frame k1 mgr
      have hnp : (k1.takeStack mgr).1.layout np = some ⟨(k.proc np).sz, [],
          (k.proc mgr).nexttid, some mgr, l.pgdir⟩ := by
        rw [htaken, Function.update_of_ne hne.symm, hlayout1, Function.update_self]
      obtain ⟨s, result, halloc, ⟨hpages, htables⟩, hlayout2, hmapped⟩ :=
        mapStack_layout hnp hdir hmap
      have hspace : (k1.takeStack mgr).1.space d = ⟨k.dir d, k.free - 1⟩ := by
        unfold space
        rw [hdirs, hfrees, hdir1, hfree1]
      have halloc : allocuvm ((k1.takeStack mgr).1.space d) (pgroundup (k1.takeStack mgr).2)
          (u32 (pgroundup (k1.takeStack mgr).2 + 2 * pgsize)) = .ok (s, result) := halloc
      rw [hbase, hspace] at halloc
      have hmgr2 : k2.layout mgr = some l.stackTaken := by
        rw [hlayout2, Function.update_of_ne hne, htaken, Function.update_self]
      have hothers2 : ∀ i, i ≠ mgr → i ≠ np → k2.layout i = k.layout i := by
        intro i him hi
        rw [hlayout2, Function.update_of_ne hi, htaken, Function.update_of_ne him, hlayout1,
          Function.update_of_ne hi]
      have hfree : 0 < k.free := by
        have htook := taken.free
        omega
      refine .inr ⟨np, s, result, ?_⟩
      cases mapped with
      | false =>
        cases Except.ok.inj h
        refine ⟨taken.found, hfree, halloc, hpages, htables, ?_, ?_, .inl ?_⟩
        · simpa [layout, abandon, setFree, hne] using hmgr2
        · intro i him hi
          simpa [layout, abandon, setFree, hi] using hothers2 i him hi
        · simp [layout, abandon, Proc.layout]
      | true =>
        cases Except.ok.inj h
        refine ⟨taken.found, hfree, halloc, hpages, htables, ?_, ?_, .inr ⟨hmapped rfl, ?_⟩⟩
        · simpa [layout, hne] using hmgr2
        · intro i him hi
          simpa [layout, hi] using hothers2 i him hi
        · have hnp2 : k2.layout np = some ⟨result, [], (k.proc mgr).nexttid, some mgr,
              some d⟩ := by
            rw [hlayout2, Function.update_self, hdir]
          obtain ⟨-, hsz, hstack, htid, hmanager, hpgdir⟩ := layout_eq_some hnp2
          rw [layout_modify, Function.update_self, Proc.layout_used (by simp)]
          simp [hsz, hstack, htid, hmanager, hpgdir]

theorem manager?_error {k : Kernel} {cur : Slot} {fault : Fault}
    (h : k.manager? cur = .error fault) : fault = .nullPointer := by
  unfold manager? at h
  split at h
  · exact deref_eq_error (map_eq_error.mp h)
  · split at h
    · cases h
    · cases h

theorem dupFiles_error {k : Kernel} {src dst : Slot} {fault : Fault}
    (h : k.dupFiles src dst = .error fault) : fault = .filedup ∨ fault = .nullPointer := by
  rcases bind_eq_error.mp h with hfiles | ⟨k1, -, h⟩
  · obtain ⟨k1, fd, hstep⟩ := foldlM_error _ hfiles
    unfold dupFile at hstep
    split at hstep
    · cases hstep
    · have hdup := map_eq_error.mp hstep
      unfold filedup at hdup
      split at hdup
      · cases hdup
        exact .inl rfl
      · cases hdup
  · rcases bind_eq_error.mp h with hdup | ⟨k2, -, h⟩
    · exact .inr (deref_eq_error (map_eq_error.mp hdup))
    · cases h

theorem threadCreate_remap {k : Kernel} {cur mgr : Slot} {l : Layout} {d : DirId} {start : Nat}
    (hcur : (k.proc cur).Live) (hmgr : ∀ m, k.manager? cur = .ok (some m) → m = mgr)
    (hl : k.layout mgr = some l) (hdir : l.pgdir = some d)
    (h : k.threadCreate cur start = .error .remap) :
    allocuvm ⟨k.dir d, k.free - 1⟩ (pgroundup l.stackBase)
      (u32 (pgroundup l.stackBase + 2 * pgsize)) = .error .remap := by
  unfold threadCreate at h
  split at h
  · cases h
  · rename_i k0 np halloc
    have taken := taken_of_allocproc halloc
    rcases bind_eq_error.mp h with hmanager | ⟨mgr?, hmanager, h⟩
    · cases manager?_error hmanager
    · rw [taken.manager? hcur] at hmanager
      cases mgr? with
      | none => cases h
      | some m =>
        cases hmgr m hmanager
        rcases bind_eq_error.mp h with hdup | ⟨k1, hdup, h⟩
        · rcases dupFiles_error hdup with hfault | hfault <;> cases hfault
        · obtain ⟨hdir1, hfree1, hne, hlayout1⟩ := taken.linked hl hdup
          have hl1 : k1.layout mgr = some l := by
            rw [hlayout1, Function.update_of_ne hne, hl]
          obtain ⟨hbase, htaken⟩ := takeStack_layout hl1
          obtain ⟨hdirs, hfrees⟩ := takeStack_frame k1 mgr
          rcases bind_eq_error.mp h with hmap | ⟨⟨k2, mapped⟩, -, h⟩
          · have hnp : ((k1.takeStack mgr).1.proc np).pgdir = some d := by
              have hlayout : (k1.takeStack mgr).1.layout np = some ⟨(k.proc np).sz, [],
                  (k.proc mgr).nexttid, some mgr, l.pgdir⟩ := by
                rw [htaken, Function.update_of_ne hne.symm, hlayout1, Function.update_self]
              exact (layout_eq_some hlayout).2.2.2.2.2.trans hdir
            have hremap : allocuvm ((k1.takeStack mgr).1.space d)
                (pgroundup (k1.takeStack mgr).2)
                (u32 (pgroundup (k1.takeStack mgr).2 + 2 * pgsize)) = .error .remap :=
              mapStack_remap hnp hmap
            have hspace : (k1.takeStack mgr).1.space d = ⟨k.dir d, k.free - 1⟩ := by
              unfold space
              rw [hdirs, hfrees, hdir1, hfree1]
            rw [hbase, hspace] at hremap
            exact hremap
          · cases mapped <;> cases h

structure Grows (k k' : Kernel) (mgr : Slot) (l : Layout) (d : DirId) (n r : Int) (s : Space)
    (result : Nat) : Prop where
  resized : resize (k.space d) l.sz n = .ok (s, result)
  dir : k'.dir d = s.dir
  manager : n ≠ 0 ∧ result = 0 ∧ r = -1 ∧ k'.layout mgr = some l ∨
    ¬ (n ≠ 0 ∧ result = 0) ∧ r = 0 ∧ k'.layout mgr = some { l with sz := result }
  others : ∀ i, i ≠ mgr → k'.layout i = k.layout i

theorem growproc_layout {k k' : Kernel} {cur mgr : Slot} {l : Layout} {d : DirId} {n r : Int}
    (hmgr : ∀ m, k.manager? cur = .ok (some m) → m = mgr)
    (hcur : (k.proc cur).pgdir = some d) (hl : k.layout mgr = some l)
    (h : k.growproc cur n = .ok (k', r)) :
    Still k k' ∧ r = -1 ∨ ∃ s result, Grows k k' mgr l d n r s result := by
  obtain ⟨mgr?, hmanager, h⟩ := bind_eq_ok.mp h
  cases mgr? with
  | none =>
    cases Except.ok.inj h
    exact .inl ⟨.refl k, rfl⟩
  | some m =>
    cases hmgr m hmanager
    obtain ⟨d', hd, h⟩ := bind_eq_ok.mp h
    have heq := deref_eq_ok hd
    rw [hcur] at heq
    cases heq
    obtain ⟨⟨s, result⟩, hresize, h⟩ := bind_eq_ok.mp h
    obtain ⟨hused, hsz, hstack, htid, hmanager, hpgdir⟩ := layout_eq_some hl
    rw [hsz] at hresize
    refine .inr ⟨s, result, ?_⟩
    dsimp only at h
    split at h
    · rename_i hfail
      cases Except.ok.inj h
      exact ⟨hresize, by simp [setSpace], .inl ⟨hfail.1, hfail.2, rfl, hl⟩, fun i _ => rfl⟩
    · rename_i hgood
      cases Except.ok.inj h
      refine ⟨hresize, by simp [setSpace, modify], .inr ⟨hgood, rfl, ?_⟩, fun i hi => ?_⟩
      · rw [layout_modify, Function.update_self, Proc.layout_used (by exact hused)]
        simp only [setSpace, hstack, htid, hmanager, hpgdir]
      · rw [layout_modify, Function.update_of_ne hi]
        rfl

theorem growproc_remap {k : Kernel} {cur mgr : Slot} {l : Layout} {d : DirId} {n : Int}
    (hmgr : ∀ m, k.manager? cur = .ok (some m) → m = mgr)
    (hcur : (k.proc cur).pgdir = some d) (hl : k.layout mgr = some l)
    (h : k.growproc cur n = .error .remap) :
    0 < n ∧ allocuvm (k.space d) l.sz (u32OfInt (l.sz + n)) = .error .remap := by
  rcases bind_eq_error.mp h with hmanager | ⟨mgr?, hmanager, h⟩
  · cases manager?_error hmanager
  · cases mgr? with
    | none => cases h
    | some m =>
      cases hmgr m hmanager
      rcases bind_eq_error.mp h with hd | ⟨d', hd, h⟩
      · cases deref_eq_error hd
      · have heq := deref_eq_ok hd
        rw [hcur] at heq
        cases heq
        rcases bind_eq_error.mp h with hresize | ⟨⟨s, result⟩, -, h⟩
        · rw [(layout_eq_some hl).2.1] at hresize
          unfold resize at hresize
          split at hresize
          · rename_i hpositive
            exact ⟨hpositive, hresize⟩
          · split at hresize
            · cases deallocuvm_error hresize
            · cases hresize
        · dsimp only at h
          split at h
          · cases h
          · cases h

structure Unstacks (k k' : Kernel) (mgr p : Slot) (l lwp : Layout) (d : DirId) (s : Space)
    (result : Nat) : Prop where
  before : (k.proc p).state = .zombie
  dealloc : deallocuvm ⟨k.dir d, k.free + 1⟩ lwp.sz (u32OfInt (lwp.sz - 2 * pgsize)) =
    .ok (s, result)
  dir : k'.dir d = s.dir
  lwp : k'.layout p = none
  manager : k'.layout mgr = some { l with
    stack := if result = 0 then l.stack else result :: l.stack }
  others : ∀ i, i ≠ mgr → i ≠ p → k'.layout i = k.layout i

theorem reap_layout {k k' : Kernel} {mgr p : Slot} {l lwp : Layout} {d : DirId} {pushed : Bool}
    (hne : mgr ≠ p) (hl : k.layout mgr = some l) (hp : k.layout p = some lwp)
    (hdir : lwp.pgdir = some d) (hzombie : (k.proc p).state = .zombie)
    (h : k.reap mgr p = .ok (k', pushed)) :
    ∃ s result, Unstacks k k' mgr p l lwp d s result := by
  obtain ⟨hused, hsz, hstack, htid, hmanager, hpgdir⟩ := layout_eq_some hl
  obtain ⟨-, hszp, -, -, -, hpgdirp⟩ := layout_eq_some hp
  obtain ⟨d', hd, h⟩ := bind_eq_ok.mp h
  have heq := deref_eq_ok hd
  simp only [modify_proc_same, reapFields, setFree] at heq
  rw [hpgdirp, hdir] at heq
  cases heq
  obtain ⟨⟨s, result⟩, hdealloc, h⟩ := bind_eq_ok.mp h
  simp only [modify_proc_same, reapFields, setFree] at hdealloc
  rw [hszp] at hdealloc
  refine ⟨s, result, ?_⟩
  dsimp only at h
  split at h
  · rename_i hzero
    cases Except.ok.inj h
    refine ⟨hzombie, hdealloc, by simp [setSpace], ?_, ?_, fun i him hip => ?_⟩
    · simp [layout, setSpace, reapFields, Proc.layout]
    · rw [if_pos hzero]
      simpa [layout, setSpace, setFree, hne] using hl
    · simp [layout, setSpace, setFree, hip]
  · rename_i hzero
    split at h
    · cases h
    · cases Except.ok.inj h
      refine ⟨hzombie, hdealloc, by simp [setSpace, modify], ?_, ?_, fun i him hip => ?_⟩
      · simp [layout, setSpace, reapFields, Proc.layout, hne.symm]
      · rw [layout_modify, Function.update_self, if_neg hzero]
        simp [setSpace, setFree, hne, Proc.layout, hused, hsz, hstack, htid, hmanager, hpgdir]
      · simp [layout, setSpace, setFree, hip, him]

theorem threadJoin_layout {k k' : Kernel} {cur mgr : Slot} {l : Layout} {d : DirId}
    {thread : Int} {out : Joined} (hcur : (k.proc cur).Live)
    (hmgr : (k.proc cur).tid = 0 → cur = mgr) (hl : k.layout mgr = some l)
    (hlwps : ∀ i lwp, k.layout i = some lwp → lwp.manager = some mgr → lwp.pgdir = some d)
    (h : k.threadJoin cur thread = .ok (k', out)) :
    Still k k' ∨ cur = mgr ∧ ∃ p lwp s result, k.layout p = some lwp ∧ lwp.manager = some mgr ∧
      lwp.tid = thread ∧ Unstacks k k' mgr p l lwp d s result := by
  unfold threadJoin at h
  split at h
  · cases Except.ok.inj h
    exact .inl (.refl k)
  · rename_i htid
    cases hmgr (not_not.mp htid)
    split at h
    · rename_i p hfind
      have hfound := findSlot_some hfind
      simp only [decide_eq_true_eq] at hfound
      obtain ⟨hmanager, htidp, hzombie⟩ := hfound
      have hp : k.layout p = some ⟨(k.proc p).sz, (k.proc p).stack, (k.proc p).tid,
          (k.proc p).manager, (k.proc p).pgdir⟩ := Proc.layout_used (by simp [hzombie])
      have hne : cur ≠ p := by
        rintro rfl
        exact hcur.2 hzombie
      obtain ⟨⟨k1, pushed⟩, hreap, h⟩ := bind_eq_ok.mp h
      cases Except.ok.inj h
      obtain ⟨s, result, hunstacks⟩ := reap_layout hne hl hp (hlwps p _ hp hmanager) hzombie hreap
      have hstill := still_modify k1 cur (fun q => { q with context := .user }) rfl
      refine .inr ⟨rfl, p, _, s, result, hp, hmanager, htidp, hzombie, hunstacks.dealloc,
        ?_, ?_, ?_, fun i him hip => ?_⟩
      · rw [hstill.dir]
        exact hunstacks.dir
      · rw [hstill.layout]
        exact hunstacks.lwp
      · rw [hstill.layout]
        exact hunstacks.manager
      · rw [hstill.layout]
        exact hunstacks.others i him hip
    · split at h
      · cases Except.ok.inj h
        exact .inl (still_modify k cur _ rfl)
      · cases Except.ok.inj h
        refine .inl ((still_modify k cur _ rfl).trans (still_sleep _ cur _ ?_))
        simpa [Proc.Live] using hcur

theorem threadJoin_no_remap (k : Kernel) (cur : Slot) (thread : Int) :
    k.threadJoin cur thread ≠ .error .remap := by
  intro h
  unfold threadJoin at h
  split at h
  · cases h
  · split at h
    · rcases bind_eq_error.mp h with h | ⟨⟨k1, pushed⟩, -, h⟩
      · rcases bind_eq_error.mp h with hd | ⟨d, -, h⟩
        · cases deref_eq_error hd
        · rcases bind_eq_error.mp h with hdealloc | ⟨⟨s, result⟩, -, h⟩
          · cases deallocuvm_error hdealloc
          · dsimp only at h
            split at h
            · cases h
            · split at h <;> cases h
      · cases h
    · split at h <;> cases h

theorem closeFiles_error {k : Kernel} {slot : Slot} {fault : Fault}
    (h : k.closeFiles slot = .error fault) : fault = .fileclose ∨ fault = .nullPointer := by
  rcases bind_eq_error.mp h with hfiles | ⟨k1, -, h⟩
  · obtain ⟨k1, fd, hstep⟩ := foldlM_error _ hfiles
    unfold closeFile at hstep
    split at hstep
    · cases hstep
    · have hclose := map_eq_error.mp hstep
      unfold fileclose at hclose
      split at hclose
      · cases hclose
        exact .inl rfl
      · cases hclose
  · rcases bind_eq_error.mp h with hput | ⟨k2, -, h⟩
    · exact .inr (deref_eq_error (map_eq_error.mp hput))
    · cases h

theorem threadExit_no_remap (k : Kernel) (cur : Slot) (retval : Nat) :
    k.threadExit cur retval ≠ .error .remap := by
  intro h
  unfold threadExit at h
  split at h
  · cases h
  · split at h
    · cases h
    · rcases bind_eq_error.mp h with hclose | ⟨k1, -, h⟩
      · rcases closeFiles_error hclose with hfault | hfault <;> cases hfault
      · cases h

theorem execution_no_remap (k : Kernel) (c : Fin ncpu) (p : Slot) (how : Visit) :
    k.execution c p how ≠ .error .remap := by
  intro h
  unfold execution at h
  split at h <;> cases h

theorem advancePass_no_remap (k : Kernel) (mgr : Slot) : k.advancePass mgr ≠ .error .remap := by
  intro h
  rcases bind_eq_error.mp h with hpop | ⟨⟨x, heap⟩, -, h⟩
  · unfold StrideHeap.pop at hpop
    split at hpop <;> cases hpop
  · rcases bind_eq_error.mp h with hpush | ⟨heap', -, h⟩
    · unfold StrideHeap.push at hpush
      split at hpush <;> cases hpush
    · cases h

theorem visit_no_remap (k : Kernel) (c : Fin ncpu) (p : Slot) : k.visit c p ≠ .error .remap := by
  intro h
  unfold visit at h
  split at h
  · cases h
  · split at h
    · exact execution_no_remap _ _ _ _ h
    · dsimp only at h
      split at h
      · rcases bind_eq_error.mp h with hmgr | ⟨mgr, -, h⟩
        · unfold schedManager at hmgr
          split at hmgr
          · cases deref_eq_error hmgr
          · cases hmgr
        · split at h
          · rcases bind_eq_error.mp h with hadvance | ⟨k1, -, h⟩
            · exact advancePass_no_remap _ _ hadvance
            · exact execution_no_remap _ _ _ _ h
          · cases h
      · split at h
        · cases h
        · split at h
          · cases h
          · exact execution_no_remap _ _ _ _ h

def InGroup (k : Kernel) (mgr i : Slot) : Prop :=
  (k.proc i).state ≠ .unused ∧ (k.proc i).manager = some mgr

instance (k : Kernel) (mgr i : Slot) : Decidable (k.InGroup mgr i) :=
  inferInstanceAs (Decidable (_ ∧ _))

def Member (k : Kernel) (mgr p : Slot) : Prop := p = mgr ∨ (k.proc p).manager = some mgr

instance (k : Kernel) (mgr p : Slot) : Decidable (k.Member mgr p) :=
  inferInstanceAs (Decidable (_ ∨ _))

structure Caller (k : Kernel) (mgr : Slot) (d : DirId) (p : Slot) : Prop where
  manager : ∀ m, k.manager? p = .ok (some m) → m = mgr
  pgdir : (k.proc p).pgdir = some d
  tid : (k.proc p).tid = 0 → p = mgr

theorem caller_of_member {k : Kernel} {mgr p : Slot} {l : Layout} {d : DirId}
    (hl : k.layout mgr = some l) (htid : l.tid = 0) (hpgdir : l.pgdir = some d)
    (hlwps : ∀ i lwp, k.layout i = some lwp → lwp.manager = some mgr →
      lwp.tid ≠ 0 ∧ lwp.pgdir = some d)
    (hp : (k.proc p).Live) (hmember : k.Member mgr p) : Caller k mgr d p := by
  rcases hmember with rfl | hmanager
  · obtain ⟨-, -, -, htid', -, hpgdir'⟩ := layout_eq_some hl
    refine ⟨fun m hm => ?_, hpgdir'.trans hpgdir, fun _ => rfl⟩
    unfold manager? at hm
    rw [htid', htid, if_neg (by omega), if_pos rfl] at hm
    cases hm
    rfl
  · obtain ⟨hne, hdir⟩ := hlwps p _ (Proc.layout_used hp.1) hmanager
    refine ⟨fun m hm => ?_, hdir, fun htid => absurd htid hne⟩
    unfold manager? at hm
    rw [hmanager] at hm
    split at hm
    · cases hm
      rfl
    · cases hm

end Kernel

end Xv6

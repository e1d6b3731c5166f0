import Xv6.Share.Heap

/-! CPU shares of LWP groups. The stride phase looks at the share of the manager, the
MLFQ phase at the share of the process itself; the two agree as long as only a process
without LWPs asks for a share and a process with a share creates none. -/
namespace Xv6.Kernel

open Word Fallible Transition

def GroupKept (k : Kernel) : Act → Prop
  | .visit c p => ∀ mgr, k.Chosen c p mgr →
      i32 ((k.proc mgr).passValue + (k.proc mgr).stride) ≠ -1
  | .setCpuShare p percent => k.Accepts percent → (k.proc p).tid ≤ 0 ∧
      ∀ i, (k.proc i).Live → 0 < (k.proc i).tid → (k.proc i).manager ≠ some p
  | .threadCreate p _ => ∀ mgr, k.manager? p = .ok (some mgr) → (k.proc mgr).passValue = -1
  | _ => True

instance (k : Kernel) : (a : Act) → Decidable (k.GroupKept a)
  | .visit .. | .threadCreate .. => inferInstanceAs (Decidable (∀ _, _))
  | .setCpuShare .. => inferInstanceAs (Decidable (_ → _))
  | .yield _ | .sleepOn .. | .wakeup _ | .charge .. | .kill .. | .fork _ | .exec .. | .sbrk ..
  | .wait _ | .resumeWait _ | .threadExit .. | .threadJoin .. | .resumeJoin _ | .exit _
  | .exitBegin _ | .exitEnd _ => inferInstanceAs (Decidable True)

def GroupAllowed (k : Kernel) (a : Act) : Prop := k.Enabled a ∧ k.GroupKept a

instance (k : Kernel) (a : Act) : Decidable (k.GroupAllowed a) :=
  inferInstanceAs (Decidable (_ ∧ _))

inductive HeapStep (heap : StrideHeap) : StrideHeap → Prop where
  | same : HeapStep heap heap
  | popped {popped} (pop : heap.pop = .ok popped) : HeapStep heap popped.2
  | advanced {popped x heap'} (pop : heap.pop = .ok popped) (valid : x ≠ -1)
      (push : popped.2.push x = .ok heap') : HeapStep heap heap'
  | entered {heap'} (push : heap.push (if heap.count = 0 then 0 else heap.cells 1) = .ok heap') :
      HeapStep heap heap'

theorem HeapStep.cells {heap heap' : StrideHeap} (h : HeapStep heap heap')
    (hcells : ∀ i, heap.cells i ≠ -1) : ∀ i, heap'.cells i ≠ -1 := by
  cases h with
  | same => exact hcells
  | popped pop => exact StrideHeap.all_pop (P := fun x => x ≠ -1) pop hcells
  | advanced pop valid push =>
    have hpopped := StrideHeap.all_pop (P := fun x => x ≠ -1) pop hcells
    exact StrideHeap.all_push (P := fun x => x ≠ -1) push hpopped valid
  | entered push =>
    apply StrideHeap.all_push (P := fun x => x ≠ -1) push hcells
    split
    · decide
    · exact hcells 1

theorem HeapStep.ordered {heap heap' : StrideHeap} (h : HeapStep heap heap')
    (hordered : heap.Ordered) : heap'.Ordered := by
  cases h with
  | same => exact hordered
  | popped pop => exact StrideHeap.ordered_pop pop hordered
  | advanced pop _ push => exact StrideHeap.ordered_push push (StrideHeap.ordered_pop pop hordered)
  | entered push => exact StrideHeap.ordered_push push hordered

theorem SameShares.heapStep {k k' : Kernel} (h : SameShares k k') : HeapStep k.heap k'.heap := by
  rw [h.heap]
  exact .same

theorem Leaves.heapStep {k k' : Kernel} {cur : Slot} {go : Bool} (h : Leaves k k' cur go) :
    HeapStep k.heap k'.heap := by
  obtain ⟨shared, hshare, hsettles⟩ := h.settled
  rw [hsettles.shares.heap]
  obtain ⟨-, -, popped, hpop, hheap, -⟩ | ⟨-, rfl⟩ := returnShare_cases hshare
  · rw [hheap]
    exact .popped hpop
  · exact .same

theorem heapStep_of_effect {k k' : Kernel} {a : Act} {out : Out} (hkept : k.GroupKept a)
    (h : Effect k a k' out) : HeapStep k.heap k'.heap := by
  cases h with
  | quiet h => exact h.shares.heapStep
  | selects mgr h =>
    obtain ⟨popped, hpop, hpush⟩ := h.heap
    exact .advanced hpop (hkept mgr h.chosen) hpush
  | forks np h => exact h.spawning.shares.heapStep
  | creates np mgr h => exact h.spawning.shares.heapStep
  | execs h => exact h.shares.heapStep
  | waits p d ha h => exact h.shares.heapStep
  | joins p ha h => exact h.shares.heapStep
  | threadExits htid h => exact h.shares.heapStep
  | exits left h hdies =>
    rw [hdies.shares.heap]
    exact h.heapStep
  | returns ha h => exact h.heapStep
  | begins left h => exact h.heapStep
  | ends h => exact h.shares.heapStep
  | grants h => exact .entered h.heap

/-- The managers of live LWPs are outside the stride scheduler. -/
structure ManagersIdle (k : Kernel) : Prop where
  strides : ∀ i, (k.proc i).Live → (k.proc i).passValue = -1 → (k.proc i).stride = 0
  managers : ∀ i m, (k.proc i).Live → 0 < (k.proc i).tid → (k.proc i).manager = some m →
    (k.proc m).Idle

theorem stride_of_settled {p q : Proc} (h : Proc.Settled p q)
    (hp : p.Live → p.passValue = -1 → p.stride = 0) (hq : q.Live) (hpass : q.passValue = -1) :
    q.stride = 0 := by
  have hid := h.identity hq
  have hpass' : q.passValue = p.passValue := congrArg Identity.passValue hid
  have hstride : q.stride = p.stride := congrArg Identity.stride hid
  rw [hstride]
  exact hp (h.live.mp hq) (hpass' ▸ hpass)

theorem ManagersIdle.change {k k' : Kernel} (h : k.ManagersIdle) (cur : Slot)
    (others : ∀ i, i ≠ cur → Proc.Settled (k.proc i) (k'.proc i))
    (hidle : (k.proc cur).Idle → (k'.proc cur).Idle)
    (hstride : (k'.proc cur).Live → (k'.proc cur).passValue = -1 → (k'.proc cur).stride = 0)
    (hmanager : ∀ m, (k'.proc cur).Live → 0 < (k'.proc cur).tid →
      (k'.proc cur).manager = some m → (k.proc m).Idle) : k'.ManagersIdle := by
  have hkeep : ∀ m, (k.proc m).Idle → (k'.proc m).Idle := by
    intro m hm
    by_cases heq : m = cur
    · subst heq
      exact hidle hm
    · exact (others m heq).idle hm
  constructor
  · intro i hlive hpass
    by_cases heq : i = cur
    · subst heq
      exact hstride hlive hpass
    · exact stride_of_settled (others i heq) (h.strides i) hlive hpass
  · intro i m hlive htid hmgr
    by_cases heq : i = cur
    · subst heq
      exact hkeep m (hmanager m hlive htid hmgr)
    · have hid := (others i heq).identity hlive
      have htid' : (k'.proc i).tid = (k.proc i).tid := congrArg Identity.tid hid
      have hmgr' : (k'.proc i).manager = (k.proc i).manager := congrArg Identity.manager hid
      exact hkeep m
        (h.managers i m ((others i heq).live.mp hlive) (htid' ▸ htid) (hmgr' ▸ hmgr))

theorem ManagersIdle.settled {k k' : Kernel} (h : k.ManagersIdle)
    (hs : ∀ i, Proc.Settled (k.proc i) (k'.proc i)) : k'.ManagersIdle := by
  refine h.change 0 (fun i _ => hs i) (hs 0).idle (stride_of_settled (hs 0) (h.strides 0)) ?_
  intro m hlive htid hmgr
  have hid := (hs 0).identity hlive
  have htid' : (k'.proc 0).tid = (k.proc 0).tid := congrArg Identity.tid hid
  have hmgr' : (k'.proc 0).manager = (k.proc 0).manager := congrArg Identity.manager hid
  exact h.managers 0 m ((hs 0).live.mp hlive) (htid' ▸ htid) (hmgr' ▸ hmgr)

theorem ManagersIdle.dies {k k' : Kernel} {cur : Slot} {retval : Nat} (h : k.ManagersIdle)
    (hdies : Dies k k' cur retval) : k'.ManagersIdle := by
  refine h.change cur hdies.settled ?_ (fun hlive => absurd hdies.state hlive.2)
    (fun _ hlive => absurd hdies.state hlive.2)
  intro hidle
  have hpass : (k'.proc cur).passValue = (k.proc cur).passValue :=
    congrArg Identity.passValue hdies.identity
  have hstride : (k'.proc cur).stride = (k.proc cur).stride :=
    congrArg Identity.stride hdies.identity
  exact ⟨hpass.trans hidle.1, hstride.trans hidle.2⟩

theorem ManagersIdle.spawning {k k' : Kernel} {np : Slot} {id : Identity} (h : k.ManagersIdle)
    (hspawning : Spawning k k' np) (hid : (k'.proc np).identity = id) (hpass : id.passValue = -1)
    (hstride : id.stride = 0)
    (hmanager : ∀ m, 0 < id.tid → id.manager = some m → (k.proc m).Idle) : k'.ManagersIdle := by
  subst hid
  exact h.change np (fun i hi => .quiet (hspawning.others i hi)) (fun _ => ⟨hpass, hstride⟩)
    (fun _ _ => hstride) fun m _ => hmanager m

theorem ManagersIdle.manager {k : Kernel} {cur mgr : Slot} (h : k.ManagersIdle)
    (hcur : (k.proc cur).Live) (hmgr : k.manager? cur = .ok (some mgr))
    (hpass : (k.proc mgr).passValue = -1) : (k.proc mgr).Idle := by
  unfold manager? at hmgr
  split at hmgr
  · rename_i htid
    obtain ⟨m, hm, heq⟩ := map_eq_ok.mp hmgr
    cases heq
    exact h.managers cur mgr hcur htid (deref_eq_ok hm)
  · split at hmgr
    · cases Except.ok.inj hmgr
      exact ⟨hpass, h.strides cur hcur hpass⟩
    · cases hmgr

theorem ManagersIdle.grants {k k' : Kernel} {cur : Slot} {percent : Int} (h : k.ManagersIdle)
    (hgrants : Grants k k' cur percent) (hcells : ∀ i, k'.heap.cells i ≠ -1)
    (htid : (k.proc cur).tid ≤ 0)
    (halone : ∀ i, (k.proc i).Live → 0 < (k.proc i).tid → (k.proc i).manager ≠ some cur) :
    k'.ManagersIdle := by
  constructor
  · intro i hlive hpass
    by_cases heq : i = cur
    · subst heq
      rw [hgrants.same] at hpass
      exact absurd hpass (hcells 1)
    · rw [hgrants.others i heq] at hlive hpass ⊢
      exact h.strides i hlive hpass
  · intro i m hlive hpos hmgr
    by_cases heq : i = cur
    · subst heq
      rw [hgrants.same] at hpos
      exact absurd hpos (not_lt.mpr htid)
    · rw [hgrants.others i heq] at hlive hpos hmgr
      have hne : m ≠ cur := by
        rintro rfl
        exact halone i hlive hpos hmgr
      rw [hgrants.others m hne]
      exact h.managers i m hlive hpos hmgr

theorem managersIdle_of_effect {k k' : Kernel} {a : Act} {out : Out} (henabled : k.Enabled a)
    (hkept : k.GroupKept a) (hcells : ∀ i, k'.heap.cells i ≠ -1) (hinv : k.ManagersIdle)
    (h : Effect k a k' out) : k'.ManagersIdle := by
  cases h with
  | quiet h => exact hinv.settled fun i => .quiet (h.proc i)
  | selects mgr h =>
    have hbefore : (k'.proc mgr).Live → (k.proc mgr).Live :=
      fun hlive => ⟨mt h.unused.mpr hlive.1, mt h.zombie.mpr hlive.2⟩
    refine hinv.change mgr (fun i hi => .quiet (h.others i hi)) h.idle ?_ ?_
    · intro hlive hpass
      have hadvanced : (k'.proc mgr).passValue = _ :=
        congrArg Identity.passValue (h.identity (hbefore hlive).1)
      rw [hadvanced] at hpass
      exact absurd hpass (hkept mgr h.chosen)
    · intro m hlive htid hmgr
      have hid := h.identity (hbefore hlive).1
      have htid' : (k'.proc mgr).tid = (k.proc mgr).tid := congrArg Identity.tid hid
      have hmgr' : (k'.proc mgr).manager = (k.proc mgr).manager := congrArg Identity.manager hid
      exact hinv.managers mgr m (hbefore hlive) (htid' ▸ htid) (hmgr' ▸ hmgr)
  | forks np h =>
    exact hinv.spawning h.spawning h.identity rfl rfl fun m hpos => absurd hpos (lt_irrefl 0)
  | @creates cur _ _ np mgr h =>
    refine hinv.spawning h.spawning h.identity rfl rfl fun m _ hm => ?_
    cases hm
    exact hinv.manager (At.live henabled) h.manager (hkept mgr h.manager)
  | @execs cur _ _ _ _ h =>
    have hcur : (k.proc cur).Live := At.live henabled
    have hpass : (k'.proc cur).passValue = (k.proc cur).passValue :=
      congrArg Identity.passValue h.identity
    have hstride : (k'.proc cur).stride = (k.proc cur).stride :=
      congrArg Identity.stride h.identity
    have htid : (k'.proc cur).tid = (k.proc cur).tid := congrArg Identity.tid h.identity
    have hmgr : (k'.proc cur).manager = (k.proc cur).manager :=
      congrArg Identity.manager h.identity
    refine hinv.change cur (fun i hi => .quiet (h.others i hi)) ?_ ?_ ?_
    · exact fun hidle => ⟨hpass.trans hidle.1, hstride.trans hidle.2⟩
    · exact fun _ hp => hstride.trans (hinv.strides cur hcur (hpass ▸ hp))
    · exact fun m _ hpos hm => hinv.managers cur m hcur (htid ▸ hpos) (hmgr ▸ hm)
  | waits p d ha h => exact hinv.settled h.settled
  | joins p ha h => exact hinv.settled h.settled
  | threadExits htid h => exact hinv.dies h
  | exits left h hdies => exact (hinv.settled h.settled_proc).dies hdies
  | returns ha h => exact hinv.settled h.settled_proc
  | @begins cur left h =>
    have hleft := hinv.settled h.settled_proc
    refine hleft.change cur (fun i hi => ?_) ?_ ?_ ?_
    · rw [modify_proc_ne _ _ hi]
      exact .refl _
    · rw [modify_proc_same]
      exact id
    · rw [modify_proc_same]
      exact hleft.strides cur
    · rw [modify_proc_same]
      exact hleft.managers cur
  | ends h => exact hinv.dies h
  | grants h =>
    obtain ⟨htid, halone⟩ := hkept ⟨h.positive, h.admitted⟩
    exact hinv.grants h hcells htid halone

structure GroupsAgree (k : Kernel) : Prop where
  cells : ∀ i, k.heap.cells i ≠ -1
  ordered : k.heap.Ordered
  managers : k.ManagersIdle

theorem groupsAgree_boot (free : Nat) : (boot free).GroupsAgree where
  cells := by simp [boot, StrideHeap.empty]
  ordered := by
    intro i hi hhigh
    have hzero : (boot free).heap.count.toNat = 0 := rfl
    omega
  managers := by
    constructor
    · intro i hlive hpass
      by_cases hi : i = 0
      · subst hi
        rfl
      · simp [boot, hi, Proc.zero]
    · intro i m hlive htid
      have hzero : ((boot free).proc i).tid = 0 := by
        by_cases hi : i = 0
        · subst hi
          rfl
        · simp [boot, hi, Proc.zero]
      omega

theorem groupsAgree_step {k k' : Kernel} {a : Act} {out : Out} (hinv : k.GroupsAgree)
    (hallowed : k.GroupAllowed a) (h : k.perform a = .ok (k', out)) : k'.GroupsAgree := by
  have heffect := perform_effect hallowed.1 h
  have hstep := heapStep_of_effect hallowed.2 heffect
  have hcells := hstep.cells hinv.cells
  exact ⟨hcells, hstep.ordered hinv.ordered,
    managersIdle_of_effect hallowed.1 hallowed.2 hcells hinv.managers heffect⟩

theorem visit_mlfq {k k' : Kernel} {c : Fin ncpu} {p : Slot}
    (h : k.visit c p = .ok (k', .mlfq)) :
    (k.proc p).state = .runnable ∧ (k.proc p).passValue = -1 := by
  unfold visit at h
  split at h
  · cases h
  · rename_i hrunnable
    refine ⟨not_not.mp hrunnable, ?_⟩
    split at h
    · cases execution_how h
    · dsimp only at h
      split at h
      · obtain ⟨mgr, -, h⟩ := bind_eq_ok.mp h
        split at h
        · obtain ⟨k1, -, h⟩ := bind_eq_ok.mp h
          cases execution_how h
        · cases h
      · split at h
        · cases h
        · rename_i hpass
          exact not_not.mp hpass

theorem GroupsAgree.mlfq {k k' : Kernel} {c : Fin ncpu} {p mgr : Slot} (h : k.GroupsAgree)
    (hperform : k.perform (.visit c p) = .ok (k', .visited .mlfq))
    (hmgr : k.schedManager p = .ok mgr) : (k.proc mgr).passValue = -1 := by
  obtain ⟨⟨next, how⟩, hvisit, heq⟩ := map_eq_ok.mp hperform
  cases heq
  obtain ⟨hrunnable, hpass⟩ := visit_mlfq hvisit
  have hlive : (k.proc p).Live := ⟨by simp [hrunnable], by simp [hrunnable]⟩
  unfold schedManager at hmgr
  split at hmgr
  · rename_i htid
    exact (h.managers.managers p mgr hlive htid (deref_eq_ok hmgr)).1
  · cases Except.ok.inj hmgr
    exact hpass

theorem GroupsAgree.stride {k k' : Kernel} {c : Fin ncpu} {p : Slot} (h : k.GroupsAgree)
    (hperform : k.perform (.visit c p) = .ok (k', .visited .stride)) :
    ∃ mgr, k.schedManager p = .ok mgr ∧ (k.proc mgr).passValue ∈ k.heap.contents ∧
      ∀ x ∈ k.heap.contents, (k.proc mgr).passValue ≤ x := by
  obtain ⟨⟨next, how⟩, hvisit, heq⟩ := map_eq_ok.mp hperform
  cases heq
  obtain ⟨-, hne⟩ | ⟨-, mgr, hselects⟩ := visit_effect hvisit
  · exact absurd rfl hne
  · have hchosen := hselects.chosen
    refine ⟨mgr, hchosen.manager, ?_, ?_⟩
    · rw [hchosen.minimum]
      exact StrideHeap.root_mem hchosen.nonempty
    · rw [hchosen.minimum]
      exact h.ordered.minimum

theorem GroupsAgree.granted {k k' : Kernel} {p mgr : Slot} {percent : Int} (h : k.GroupsAgree)
    (hallowed : k.GroupAllowed (.setCpuShare p percent))
    (hperform : k.perform (.setCpuShare p percent) = .ok (k', .ret 0))
    (hmgr : k.schedManager p = .ok mgr) : (k'.proc mgr).passValue ≠ -1 ∧
      (k'.proc mgr).stride = 1000 / percent ∧ (k'.proc mgr).portion = percent := by
  obtain ⟨⟨next, r⟩, hshare, heq⟩ := map_eq_ok.mp hperform
  cases heq
  obtain ⟨-, hret⟩ | ⟨hgrants, -⟩ := setCpuShare_effect hshare
  · cases hret
  · obtain ⟨htid, -⟩ := hallowed.2 ⟨hgrants.positive, hgrants.admitted⟩
    unfold schedManager at hmgr
    rw [if_neg (not_lt.mpr htid)] at hmgr
    cases Except.ok.inj hmgr
    rw [hgrants.same]
    exact ⟨enterHeap_cells hgrants.heap h.cells 1, rfl, rfl⟩

theorem share_enforced (free : Nat) {finish : Kernel}
    (h : Reaches perform GroupAllowed (boot free) finish) :
    (∀ c p next, finish.perform (.visit c p) = .ok (next, .visited .mlfq) →
      ∀ mgr, finish.schedManager p = .ok mgr → (finish.proc mgr).passValue = -1) ∧
    (∀ c p next, finish.perform (.visit c p) = .ok (next, .visited .stride) →
      ∃ mgr, finish.schedManager p = .ok mgr ∧
        (finish.proc mgr).passValue ∈ finish.heap.contents ∧
        ∀ x ∈ finish.heap.contents, (finish.proc mgr).passValue ≤ x) ∧
    (∀ p percent next, finish.GroupAllowed (.setCpuShare p percent) →
      finish.perform (.setCpuShare p percent) = .ok (next, .ret 0) →
      ∀ mgr, finish.schedManager p = .ok mgr → (next.proc mgr).passValue ≠ -1 ∧
        (next.proc mgr).stride = 1000 / percent ∧ (next.proc mgr).portion = percent) := by
  have hinv : finish.GroupsAgree := h.invariant GroupsAgree (groupsAgree_boot free)
    fun _ _ _ _ hk hallowed hstep => groupsAgree_step hk hallowed hstep
  exact ⟨fun _ _ _ hvisit _ hmgr => hinv.mlfq hvisit hmgr,
    fun _ _ _ hvisit => hinv.stride hvisit,
    fun _ _ _ hallowed hcall _ hmgr => hinv.granted hallowed hcall hmgr⟩

/-- Two processes with shares, one of them ahead, and a group without a share: CPU 0 dispatches
an LWP of the group by MLFQ, and CPU 1 the process with the smaller pass value by stride. -/
theorem share_enforced_phases : ∃ k, Reaches perform GroupAllowed (boot 400) k ∧
    (∃ next, k.perform (.visit 0 3) = .ok (next, .visited .mlfq)) ∧
    k.schedManager 3 = .ok 1 ∧ (k.proc 1).passValue = -1 ∧
    (∃ next, k.perform (.visit 1 0) = .ok (next, .visited .stride)) ∧
    (k.proc 2).passValue = 1000 ∧ ∃ mgr, k.schedManager 0 = .ok mgr ∧
      ∀ x ∈ k.heap.contents, (k.proc mgr).passValue ≤ x := by
  obtain ⟨k, hreach, htest⟩ := exists_reaches perform GroupAllowed (boot 400)
    [.visit 0 0, .fork 0, .fork 0, .yield 0, .visit 0 1, .threadCreate 1 5, .yield 1, .visit 0 2,
      .setCpuShare 2 1, .yield 2, .visit 0 0, .setCpuShare 0 2, .yield 0, .visit 1 2, .yield 2]
    (fun k => succeeds perform k (.visit 0 3) (fun _ out => out = .visited .mlfq) ∧
      succeeds perform k (.visit 1 0) (fun _ out => out = .visited .stride) ∧
      k.schedManager 3 = .ok 1 ∧ (k.proc 2).passValue = 1000) (by decide +kernel)
  obtain ⟨hmlfq, hstride, hmgr, hahead⟩ := of_decide_eq_true htest
  obtain ⟨next, out, hmlfq, hout⟩ := exists_of_succeeds hmlfq
  cases of_decide_eq_true hout
  obtain ⟨next', out, hstride, hout⟩ := exists_of_succeeds hstride
  cases of_decide_eq_true hout
  obtain ⟨henforced, hleast, -⟩ := share_enforced 400 hreach
  obtain ⟨mgr, hself, -, hmin⟩ := hleast 1 0 next' hstride
  exact ⟨k, hreach, ⟨next, hmlfq⟩, hmgr, henforced 0 3 next hmlfq 1 hmgr, ⟨next', hstride⟩, hahead,
    mgr, hself, hmin⟩

/-- An LWP whose manager has a share is dispatched in the MLFQ phase, and the share an
LWP asks for stays its own. -/
theorem share_not_enforced :
    (∃ k, Reaches perform Enabled (boot 100) k ∧
      (∃ next, k.perform (.visit 0 1) = .ok (next, .visited .mlfq)) ∧
      k.schedManager 1 = .ok 0 ∧ (k.proc 0).passValue ≠ -1) ∧
    (∃ k, Reaches perform Enabled (boot 100) k ∧ k.Enabled (.setCpuShare 1 10) ∧
      ∃ next, k.perform (.setCpuShare 1 10) = .ok (next, .ret 0) ∧
        k.schedManager 1 = .ok 0 ∧ (next.proc 0).passValue = -1) := by
  constructor
  · obtain ⟨k, hreach, htest⟩ := exists_reaches perform Enabled (boot 100)
      [.visit 0 0, .setCpuShare 0 1, .threadCreate 0 5, .yield 0]
      (fun k => succeeds perform k (.visit 0 1) (fun _ out => out = .visited .mlfq) ∧
        k.schedManager 1 = .ok 0 ∧ (k.proc 0).passValue ≠ -1) (by decide +kernel)
    obtain ⟨hvisit, hrest⟩ := of_decide_eq_true htest
    obtain ⟨next, out, hperform, hout⟩ := exists_of_succeeds hvisit
    cases of_decide_eq_true hout
    exact ⟨k, hreach, ⟨next, hperform⟩, hrest⟩
  · obtain ⟨k, hreach, htest⟩ := exists_reaches perform Enabled (boot 100)
      [.visit 0 0, .threadCreate 0 5, .yield 0, .visit 0 1]
      (fun k => k.Enabled (.setCpuShare 1 10) ∧ k.schedManager 1 = .ok 0 ∧
        succeeds perform k (.setCpuShare 1 10)
          (fun next out => out = .ret 0 ∧ (next.proc 0).passValue = -1)) (by decide +kernel)
    obtain ⟨henabled, hmgr, hshare⟩ := of_decide_eq_true htest
    obtain ⟨next, out, hperform, hout⟩ := exists_of_succeeds hshare
    obtain ⟨rfl, hpass⟩ := of_decide_eq_true hout
    exact ⟨k, hreach, henabled, next, hperform, hmgr, hpass⟩

end Xv6.Kernel

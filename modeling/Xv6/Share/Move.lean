import Xv6.Share.Total

/-! The moves of the stride scheduler. As long as a share is asked for only once, is
given back when its holder exits and no pass value becomes -1, a step either leaves
heap, tickets and holders alone, or returns, advances or grants one share. -/
namespace Xv6.Kernel

open Word Fallible

def Accepts (k : Kernel) (percent : Int) : Prop :=
  0 < percent ∧ i32 (percent + k.strideTickets) ≤ 80

instance (k : Kernel) (percent : Int) : Decidable (k.Accepts percent) :=
  inferInstanceAs (Decidable (_ ∧ _))

def ShareKept (k : Kernel) : Act → Prop
  | .visit c p => ∀ mgr, k.Chosen c p mgr →
      i32 ((k.proc mgr).passValue + (k.proc mgr).stride) ≠ -1
  | .setCpuShare p percent => k.Accepts percent → (k.proc p).passValue = -1
  | .exit p | .exitBegin p =>
      (k.proc p).passValue ≠ -1 → 0 < (k.proc p).pid ∧ k.ExitCompletes p
  | .threadExit p _ => (k.proc p).tid ≠ 0 → (k.proc p).passValue = -1
  | _ => True

instance (k : Kernel) : (a : Act) → Decidable (k.ShareKept a)
  | .visit .. => inferInstanceAs (Decidable (∀ _, _))
  | .setCpuShare .. | .exit _ | .exitBegin _ | .threadExit .. =>
      inferInstanceAs (Decidable (_ → _))
  | .yield _ | .sleepOn .. | .wakeup _ | .charge .. | .kill .. | .fork _ | .exec .. | .sbrk ..
  | .wait _ | .resumeWait _ | .threadCreate .. | .threadJoin .. | .resumeJoin _ | .exitEnd _ =>
      inferInstanceAs (Decidable True)

theorem returnShare_cases {k k' : Kernel} {cur : Slot} (h : k.returnShare cur = .ok k') :
    (0 < (k.proc cur).pid ∧ (k.proc cur).passValue ≠ -1 ∧ ∃ popped, k.heap.pop = .ok popped ∧
      k'.heap = popped.2 ∧ k'.strideTickets = i32 (k.strideTickets - (k.proc cur).portion)) ∨
    (¬ (0 < (k.proc cur).pid ∧ (k.proc cur).passValue ≠ -1) ∧ k' = k) := by
  unfold returnShare at h
  split at h
  · rename_i hshare
    obtain ⟨popped, hpop, rfl⟩ := map_eq_ok.mp h
    exact .inl ⟨hshare.1, hshare.2, popped, hpop, rfl, rfl⟩
  · rename_i hshare
    cases Except.ok.inj h
    exact .inr ⟨hshare, rfl⟩

theorem Leaves.returned {k k' : Kernel} {cur : Slot} {go : Bool} (h : Leaves k k' cur go)
    (hpid : 0 < (k.proc cur).pid) (hpass : (k.proc cur).passValue ≠ -1) :
    ∃ popped, k.heap.pop = .ok popped ∧ k'.heap = popped.2 ∧
      k'.strideTickets = i32 (k.strideTickets - (k.proc cur).portion) := by
  obtain ⟨shared, hshare, hsettles⟩ := h.settled
  obtain ⟨-, -, popped, hpop, hheap, htickets⟩ | ⟨hnot, -⟩ := returnShare_cases hshare
  · refine ⟨popped, hpop, hsettles.shares.heap.trans hheap, ?_⟩
    exact hsettles.shares.strideTickets.trans htickets
  · exact absurd ⟨hpid, hpass⟩ hnot

theorem Leaves.same {k k' : Kernel} {cur : Slot} {go : Bool} (h : Leaves k k' cur go)
    (hpass : (k.proc cur).passValue = -1) :
    k'.heap = k.heap ∧ k'.strideTickets = k.strideTickets := by
  obtain ⟨shared, hshare, hsettles⟩ := h.settled
  obtain ⟨-, hne, -⟩ | ⟨-, rfl⟩ := returnShare_cases hshare
  · exact absurd hpass hne
  · exact ⟨hsettles.shares.heap, hsettles.shares.strideTickets⟩

inductive Move (k : Kernel) (a : Act) (k' : Kernel) : Prop where
  | still (heap : k'.heap = k.heap) (strideTickets : k'.strideTickets = k.strideTickets)
      (total : ∀ {M : Type} [AddCommMonoid M] (w : Int → Int → M), k'.total w = k.total w)
  | returned (cur : Slot) (popped : Int × StrideHeap)
      (act : a = .exit cur ∨ a = .exitBegin cur) (holds : (k.proc cur).Holds)
      (pop : k.heap.pop = .ok popped) (heap : k'.heap = popped.2)
      (strideTickets : k'.strideTickets = i32 (k.strideTickets - (k.proc cur).portion))
      (total : ∀ {M : Type} [AddCommMonoid M] (w : Int → Int → M),
        k'.total w + w (k.proc cur).passValue (k.proc cur).portion = k.total w)
  | selected (c : Fin ncpu) (p mgr : Slot) (popped : Int × StrideHeap) (pass : Int)
      (act : a = .visit c p) (chosen : k.Chosen c p mgr) (pop : k.heap.pop = .ok popped)
      (valid : pass ≠ -1)
      (push : popped.2.push pass = .ok k'.heap) (strideTickets : k'.strideTickets = k.strideTickets)
      (total : ∀ {M : Type} [AddCommMonoid M] (w : Int → Int → M), (k.proc mgr).Holds →
        k'.total w + w (k.proc mgr).passValue (k.proc mgr).portion =
          k.total w + w pass (k.proc mgr).portion)
      (dead : ∀ {M : Type} [AddCommMonoid M] (w : Int → Int → M), ¬ (k.proc mgr).Holds →
        k'.total w = k.total w)
  | granted (cur : Slot) (percent : Int) (act : a = .setCpuShare cur percent)
      (grants : Grants k k' cur percent)
      (total : ∀ {M : Type} [AddCommMonoid M] (w : Int → Int → M),
        k'.total w = k.total w + w (k'.heap.cells 1) percent)

theorem move_still {k k' : Kernel} {a : Act} (cur : Slot) (heap : k'.heap = k.heap)
    (strideTickets : k'.strideTickets = k.strideTickets)
    (others : ∀ i, i ≠ cur → Proc.Settled (k.proc i) (k'.proc i))
    (before : ¬ (k.proc cur).Holds) (after : ¬ (k'.proc cur).Holds) : Move k a k' := by
  refine .still heap strideTickets fun w => ?_
  have hchange := total_change w cur others
  rwa [Proc.stake_of_not_holds w before, Proc.stake_of_not_holds w after, add_zero,
    add_zero] at hchange

theorem Dies.settled {k k' : Kernel} {cur : Slot} {retval : Nat} (h : Dies k k' cur retval)
    (i : Slot) (hi : i ≠ cur) : Proc.Settled (k.proc i) (k'.proc i) :=
  .quiet (h.others i hi)

theorem move_spawning {k k' : Kernel} {a : Act} {np : Slot} (h : Spawning k k' np)
    (hpass : (k'.proc np).passValue = -1) : Move k a k' :=
  move_still np h.shares.heap h.shares.strideTickets (fun i hi => .quiet (h.others i hi))
    (Proc.not_holds_of_unused h.before) (Proc.not_holds_of_pass hpass)

theorem move_returned {k left k' : Kernel} {a : Act} {cur : Slot} {go : Bool}
    (ha : a = .exit cur ∨ a = .exitBegin cur) (h : Leaves k left cur go)
    (hpid : 0 < (k.proc cur).pid) (hholds : (k.proc cur).Holds) (heap : k'.heap = left.heap)
    (strideTickets : k'.strideTickets = left.strideTickets)
    (others : ∀ i, i ≠ cur → Proc.Settled (left.proc i) (k'.proc i))
    (after : ¬ (k'.proc cur).Holds) : Move k a k' := by
  obtain ⟨popped, hpop, hheap, htickets⟩ := h.returned hpid hholds.2.1
  refine .returned cur popped ha hholds hpop (heap.trans hheap) (strideTickets.trans htickets) ?_
  intro M _ w
  have hchange := total_change w cur fun i hi => (h.settled_proc i).trans (others i hi)
  rwa [Proc.stake_of_holds w hholds, Proc.stake_of_not_holds w after, add_zero] at hchange

theorem move_left {k left k' : Kernel} {a : Act} {cur : Slot} {go : Bool} (h : Leaves k left cur go)
    (hpass : (k.proc cur).passValue = -1) (heap : k'.heap = left.heap)
    (strideTickets : k'.strideTickets = left.strideTickets)
    (others : ∀ i, i ≠ cur → Proc.Settled (left.proc i) (k'.proc i))
    (after : ¬ (k'.proc cur).Holds) : Move k a k' := by
  obtain ⟨hheap, htickets⟩ := h.same hpass
  exact move_still cur (heap.trans hheap) (strideTickets.trans htickets)
    (fun i hi => (h.settled_proc i).trans (others i hi)) (Proc.not_holds_of_pass hpass) after

theorem move_execs {k k' : Kernel} {a : Act} {cur : Slot} (h : Execs k k' cur)
    (hcur : (k.proc cur).Live) : Move k a k' := by
  refine .still h.shares.heap h.shares.strideTickets fun w => Finset.sum_congr rfl fun i _ => ?_
  by_cases hi : i = cur
  · subst hi
    have hexiting := congrArg Identity.exiting h.identity
    simp only [Proc.identity, decide_eq_decide] at hexiting
    exact Proc.stake_congr w (iff_of_true h.live hcur) (congrArg Identity.passValue h.identity)
      (congrArg Identity.portion h.identity) hexiting
  · exact Proc.Settled.stake w (.quiet (h.others i hi))

theorem move_selects {k k' : Kernel} {c : Fin ncpu} {p mgr : Slot} (h : Selects k k' c p mgr)
    (hcells : ∀ i, k.heap.cells i ≠ -1)
    (hvalid : i32 ((k.proc mgr).passValue + (k.proc mgr).stride) ≠ -1) :
    Move k (.visit c p) k' := by
  obtain ⟨popped, hpop, hpush⟩ := h.heap
  have hbefore : (k.proc mgr).passValue ≠ -1 := by
    rw [h.chosen.minimum]
    exact hcells 1
  have hlive : (k'.proc mgr).Live ↔ (k.proc mgr).Live :=
    and_congr (not_congr h.unused) (not_congr h.zombie)
  have hexiting : (k.proc mgr).Live →
      ((k'.proc mgr).context = .exit ↔ (k.proc mgr).context = .exit) := by
    intro hmgr
    have hid := congrArg Identity.exiting (h.identity hmgr.1)
    simpa only [Proc.identity, decide_eq_decide] using hid
  have hothers : ∀ i, i ≠ mgr → Proc.Settled (k.proc i) (k'.proc i) :=
    fun i hi => .quiet (h.others i hi)
  refine .selected c p mgr popped _ rfl h.chosen hpop hvalid hpush h.strideTickets ?_ ?_
  · intro M _ w hholds
    have hid := h.identity hholds.1.1
    have hpass : (k'.proc mgr).passValue = i32 ((k.proc mgr).passValue + (k.proc mgr).stride) :=
      congrArg Identity.passValue hid
    have hportion : (k'.proc mgr).portion = (k.proc mgr).portion := congrArg Identity.portion hid
    have hafter : (k'.proc mgr).Holds :=
      ⟨hlive.mpr hholds.1, by rwa [hpass], mt (hexiting hholds.1).mp hholds.2.2⟩
    have hchange := total_change w mgr hothers
    rwa [Proc.stake_of_holds w hholds, Proc.stake_of_holds w hafter, hpass, hportion] at hchange
  · intro M _ w hholds
    have hafter : ¬ (k'.proc mgr).Holds := by
      intro hh
      have hmgr := hlive.mp hh.1
      exact hholds ⟨hmgr, hbefore, mt (hexiting hmgr).mpr hh.2.2⟩
    have hchange := total_change w mgr hothers
    rwa [Proc.stake_of_not_holds w hholds, Proc.stake_of_not_holds w hafter, add_zero,
      add_zero] at hchange

theorem enterHeap_cells {k : Kernel} {heap : StrideHeap} (h : k.enterHeap = .ok heap)
    (hcells : ∀ i, k.heap.cells i ≠ -1) : ∀ i, heap.cells i ≠ -1 := by
  apply StrideHeap.all_push (P := fun x => x ≠ -1) h hcells
  split
  · decide
  · exact hcells 1

theorem move_grants {k k' : Kernel} {cur : Slot} {percent : Int} (h : Grants k k' cur percent)
    (hcur : k.At cur .user) (hpass : (k.proc cur).passValue = -1)
    (hcells : ∀ i, k.heap.cells i ≠ -1) : Move k (.setCpuShare cur percent) k' := by
  refine .granted cur percent rfl h fun w => ?_
  have hafter : (k'.proc cur).Holds := by
    rw [h.same]
    refine ⟨hcur.live, enterHeap_cells h.heap hcells 1, ?_⟩
    simp [hcur.2]
  have hothers : ∀ i, i ≠ cur → Proc.Settled (k.proc i) (k'.proc i) := by
    intro i hi
    rw [h.others i hi]
    exact .refl _
  have hchange := total_change w cur hothers
  rwa [Proc.stake_of_not_holds w (Proc.not_holds_of_pass hpass), Proc.stake_of_holds w hafter,
    h.same, add_zero] at hchange

theorem move_of_effect {k k' : Kernel} {a : Act} {out : Out} (henabled : k.Enabled a)
    (hkept : k.ShareKept a) (hcells : ∀ i, k.heap.cells i ≠ -1) (h : Effect k a k' out) :
    Move k a k' := by
  cases h with
  | quiet h =>
    exact .still h.shares.heap h.shares.strideTickets
      fun w => total_settled w fun i => .quiet (h.proc i)
  | selects mgr h => exact move_selects h hcells (hkept mgr h.chosen)
  | forks np h => exact move_spawning h.spawning (congrArg Identity.passValue h.identity)
  | creates np mgr h => exact move_spawning h.spawning (congrArg Identity.passValue h.identity)
  | @execs cur _ _ _ _ h => exact move_execs h (At.live henabled)
  | waits p d ha h =>
    exact .still h.shares.heap h.shares.strideTickets fun w => total_settled w h.settled
  | joins p ha h =>
    exact .still h.shares.heap h.shares.strideTickets fun w => total_settled w h.settled
  | threadExits htid h =>
    exact move_still _ h.shares.heap h.shares.strideTickets h.settled
      (Proc.not_holds_of_pass (hkept htid)) (Proc.not_holds_of_zombie h.state)
  | @exits cur _ left h hdies =>
    have hafter := Proc.not_holds_of_zombie hdies.state
    by_cases hpass : (k.proc cur).passValue = -1
    · exact move_left h hpass hdies.shares.heap hdies.shares.strideTickets hdies.settled hafter
    · have hholds : (k.proc cur).Holds := ⟨At.live henabled, hpass, by simp [henabled.2]⟩
      exact move_returned (.inl rfl) h (hkept hpass).1 hholds hdies.shares.heap
        hdies.shares.strideTickets
        hdies.settled hafter
  | @returns _ cur _ ha h =>
    have hpass : (k.proc cur).passValue = -1 := by
      by_contra hne
      have hcompletes : k.ExitCompletes cur := by
        rcases ha with rfl | rfl
        · exact (hkept hne).2
        · exact (hkept hne).2
      cases h.completes hcompletes
    obtain ⟨hheap, htickets⟩ := h.same hpass
    exact .still hheap htickets fun w => total_settled w h.settled_proc
  | @begins cur left h =>
    have hothers : ∀ i, i ≠ cur → Proc.Settled (left.proc i)
        ((left.modify cur fun p => { p with context := .exit }).proc i) := by
      intro i hi
      rw [modify_proc_ne _ _ hi]
      exact .refl _
    have hafter : ¬ ((left.modify cur fun p => { p with context := .exit }).proc cur).Holds := by
      rw [modify_proc_same]
      exact fun hh => hh.2.2 rfl
    by_cases hpass : (k.proc cur).passValue = -1
    · exact move_left h hpass rfl rfl hothers hafter
    · have hholds : (k.proc cur).Holds := ⟨At.live henabled, hpass, by simp [henabled.2]⟩
      exact move_returned (.inr rfl) h (hkept hpass).1 hholds rfl rfl hothers hafter
  | ends h =>
    refine move_still _ h.shares.heap h.shares.strideTickets h.settled ?_
      (Proc.not_holds_of_zombie h.state)
    exact fun hh => hh.2.2 henabled.2
  | grants h => exact move_grants h henabled (hkept ⟨h.positive, h.admitted⟩) hcells

theorem cells_of_move {k k' : Kernel} {a : Act} (h : Move k a k')
    (hcells : ∀ i, k.heap.cells i ≠ -1) : ∀ i, k'.heap.cells i ≠ -1 := by
  cases h with
  | still heap => rwa [heap]
  | returned cur popped _ _ pop heap =>
    rw [heap]
    exact StrideHeap.all_pop (P := fun x => x ≠ -1) pop hcells
  | selected c p mgr popped pass _ _ pop valid push =>
    have hpopped := StrideHeap.all_pop (P := fun x => x ≠ -1) pop hcells
    exact StrideHeap.all_push (P := fun x => x ≠ -1) push hpopped valid
  | granted cur percent _ grants => exact enterHeap_cells grants.heap hcells

def NotExiting (k : Kernel) : Prop := ∀ i, (k.proc i).Live → (k.proc i).context ≠ .exit

theorem notExiting_of_effect {k k' : Kernel} {a : Act} {out : Out} (henabled : k.Enabled a)
    (hnot : k.NotExiting) (ha : ∀ p, a ≠ .exitBegin p) (h : Effect k a k' out) : k'.NotExiting := by
  intro i hlive hexit
  obtain ⟨hbefore, hcontext⟩ | ⟨hbegin, -⟩ := h.exiting henabled hlive hexit
  · exact hnot i hbefore hcontext
  · exact ha i hbegin

theorem total_eq_sum {M : Type} [AddCommMonoid M] (w : Int → Int → M) {k : Kernel}
    (h : k.NotExiting) :
    k.total w = ∑ i with (k.proc i).Live ∧ (k.proc i).passValue ≠ -1,
      w (k.proc i).passValue (k.proc i).portion := by
  rw [Finset.sum_filter]
  refine Finset.sum_congr rfl fun i _ => if_congr ?_ rfl rfl
  exact ⟨fun hh => ⟨hh.1, hh.2.1⟩, fun hh => ⟨hh.1, hh.2, h i hh.1⟩⟩

theorem notExiting_boot (free : Nat) : (boot free).NotExiting := by
  intro i _
  by_cases hi : i = 0
  · subst hi
    simp [boot, Proc.zero]
  · simp [boot, Proc.zero, hi]

end Xv6.Kernel

import Xv6.Lib.Stride
import Xv6.Share.Move

/-! Fairness of the stride scheduler. The managers that hold a share are the clients of a
stride pool; the heap holds their pass values, and what the kernel does in a run without the
exit of a holder are moves of the pool. -/
namespace Xv6

open Kernel Word Fallible Transition

namespace Proc

def Manages (p : Proc) : Prop := p.Live ∧ p.passValue ≠ -1 ∧ ¬ 0 < p.tid

instance (p : Proc) : Decidable p.Manages := inferInstanceAs (Decidable (_ ∧ _ ∧ _))

structure Kept (p q : Proc) : Prop where
  manages : q.Manages ↔ p.Manages
  values : p.Manages → q.passValue = p.passValue ∧ q.stride = p.stride

theorem Kept.of_identity {p q : Proc} (hlive : q.Live ↔ p.Live)
    (hpass : q.Live → q.passValue = p.passValue) (hstride : q.Live → q.stride = p.stride)
    (htid : q.Live → q.tid = p.tid) : Kept p q := by
  refine ⟨⟨fun hq => ?_, fun hp => ?_⟩, fun hp => ?_⟩
  · rw [Manages, hpass hq.1, htid hq.1, hlive] at hq
    exact hq
  · have hq := hlive.mpr hp.1
    rw [Manages, hpass hq, htid hq, hlive]
    exact hp
  · have hq := hlive.mpr hp.1
    exact ⟨hpass hq, hstride hq⟩

theorem Settled.kept {p q : Proc} (h : Settled p q) : Kept p q :=
  .of_identity h.live (fun hq => congrArg Identity.passValue (h.identity hq))
    (fun hq => congrArg Identity.stride (h.identity hq))
    fun hq => congrArg Identity.tid (h.identity hq)

theorem Kept.refl (p : Proc) : Kept p p := (Settled.refl p).kept

theorem Kept.of_not {p q : Proc} (hp : ¬ p.Manages) (hq : ¬ q.Manages) : Kept p q :=
  ⟨iff_of_false hq hp, fun h => absurd h hp⟩

theorem not_manages_of_pass {p : Proc} (h : p.passValue = -1) : ¬ p.Manages := fun hp => hp.2.1 h

theorem not_manages_of_unused {p : Proc} (h : p.state = .unused) : ¬ p.Manages :=
  fun hp => hp.1.1 h

theorem not_manages_of_zombie {p : Proc} (h : p.state = .zombie) : ¬ p.Manages :=
  fun hp => hp.1.2 h

end Proc

namespace Kernel

def strideManagers (k : Kernel) : Finset Slot := Finset.univ.filter fun i => (k.proc i).Manages

theorem mem_strideManagers {k : Kernel} {i : Slot} : i ∈ k.strideManagers ↔ (k.proc i).Manages := by
  simp [strideManagers]

def pool (k : Kernel) : Stride.Pool Slot :=
  ⟨k.strideManagers, fun i => (k.proc i).passValue, fun i => (k.proc i).stride⟩

/-- `heap[1..heap_count]` is a min-heap of the pass values of the stride managers, which are
within `s` of one another; no stride is larger than `s`. -/
structure Fair (k : Kernel) (s : Int) : Prop where
  count : 0 ≤ k.heap.count
  ordered : k.heap.Ordered
  contents : k.heap.contents = k.strideManagers.val.map fun i => (k.proc i).passValue
  within : k.pool.Within s

/-- A selection takes a stride manager and its pass value does not wrap around; a share is
asked for once, by a manager; and nobody with a share exits. -/
def FairKept (k : Kernel) : Act → Prop
  | .visit c p => ∀ mgr, k.Chosen c p mgr → (k.proc mgr).Manages ∧
      i32 ((k.proc mgr).passValue + (k.proc mgr).stride) =
        (k.proc mgr).passValue + (k.proc mgr).stride ∧
      (k.proc mgr).passValue + (k.proc mgr).stride ≠ -1
  | .setCpuShare p percent => k.Accepts percent → (k.proc p).passValue = -1 ∧ ¬ 0 < (k.proc p).tid
  | .exit p | .exitBegin p | .exitEnd p | .threadExit p _ => (k.proc p).passValue = -1
  | _ => True

instance (k : Kernel) : (a : Act) → Decidable (k.FairKept a)
  | .visit .. => inferInstanceAs (Decidable (∀ _, _))
  | .setCpuShare .. => inferInstanceAs (Decidable (_ → _))
  | .exit _ | .exitBegin _ | .exitEnd _ | .threadExit .. => inferInstanceAs (Decidable (_ = _))
  | .yield _ | .sleepOn .. | .wakeup _ | .charge .. | .kill .. | .fork _ | .exec .. | .sbrk ..
  | .wait _ | .resumeWait _ | .threadCreate .. | .threadJoin .. | .resumeJoin _ =>
      inferInstanceAs (Decidable True)

def FairAllowed (k : Kernel) (a : Act) : Prop := k.Enabled a ∧ k.FairKept a

instance (k : Kernel) (a : Act) : Decidable (k.FairAllowed a) :=
  inferInstanceAs (Decidable (_ ∧ _))

def moveOf : Kernel × Act × Out → Stride.Move Slot
  | (k, .visit _ p, .visited .stride) =>
      match k.schedManager p with
      | .ok mgr => .select mgr
      | .error _ => .still
  | (_, .setCpuShare p percent, .ret 0) => .join p (1000 / percent)
  | _ => .still

def selections (i : Slot) (trace : List (Kernel × Act × Out)) : Nat :=
  (trace.map moveOf).count (.select i)

def largestStride (s : Int) (trace : List (Kernel × Act × Out)) : Int :=
  (trace.map moveOf).foldr (fun m s => m.largest s) s

section

variable {k k' : Kernel} {s : Int}

theorem strideManagers_kept (h : ∀ i, Proc.Kept (k.proc i) (k'.proc i)) :
    k'.strideManagers = k.strideManagers := by
  ext i
  rw [mem_strideManagers, mem_strideManagers]
  exact (h i).manages

structure Rests (k k' : Kernel) : Prop where
  heap : k'.heap = k.heap
  proc : ∀ i, Proc.Kept (k.proc i) (k'.proc i)

theorem Rests.does (h : Rests k k') : Stride.Move.still.Does k.pool k'.pool :=
  ⟨strideManagers_kept h.proc, fun i hi => (h.proc i).values (mem_strideManagers.mp hi)⟩

theorem Rests.fair (h : Rests k k') (hfair : k.Fair s) : k'.Fair s := by
  have hmanagers := strideManagers_kept h.proc
  refine ⟨?_, ?_, ?_, hfair.within.move h.does⟩
  · rw [h.heap]
    exact hfair.count
  · rw [h.heap]
    exact hfair.ordered
  · rw [h.heap, hfair.contents, hmanagers]
    refine Multiset.map_congr rfl fun i hi => ?_
    exact ((h.proc i).values (mem_strideManagers.mp hi)).1.symm

theorem Quiet.rests (h : Quiet k k') : Rests k k' :=
  ⟨h.shares.heap, fun i => Proc.Settled.kept (.quiet (h.proc i))⟩

theorem rests_but (cur : Slot) (heap : k'.heap = k.heap)
    (others : ∀ i, i ≠ cur → Proc.Settled (k.proc i) (k'.proc i))
    (before : ¬ (k.proc cur).Manages) (after : ¬ (k'.proc cur).Manages) : Rests k k' := by
  refine ⟨heap, fun i => ?_⟩
  by_cases hi : i = cur
  · subst hi
    exact .of_not before after
  · exact (others i hi).kept

theorem Spawning.rests {np : Slot} (h : Spawning k k' np) (hpass : (k'.proc np).passValue = -1) :
    Rests k k' :=
  rests_but np h.shares.heap (fun i hi => .quiet (h.others i hi))
    (Proc.not_manages_of_unused h.before) (Proc.not_manages_of_pass hpass)

theorem Execs.rests {cur : Slot} (h : Execs k k' cur) (hcur : (k.proc cur).Live) :
    Rests k k' := by
  refine ⟨h.shares.heap, fun i => ?_⟩
  by_cases hi : i = cur
  · subst hi
    exact .of_identity (iff_of_true h.live hcur)
      (fun _ => congrArg Identity.passValue h.identity)
      (fun _ => congrArg Identity.stride h.identity) fun _ => congrArg Identity.tid h.identity
  · exact Proc.Settled.kept (.quiet (h.others i hi))

theorem Leaves.rests {cur : Slot} {go : Bool} (h : Leaves k k' cur go)
    (hpass : (k.proc cur).passValue = -1) : Rests k k' :=
  ⟨(h.same hpass).1, fun i => (h.settled_proc i).kept⟩

theorem rests_of_effect {a : Act} {out : Out} (henabled : k.Enabled a) (hkept : k.FairKept a)
    (hvisit : ∀ c p, a ≠ .visit c p) (hshare : ∀ p percent, a ≠ .setCpuShare p percent)
    (h : Effect k a k' out) : Rests k k' := by
  cases h with
  | quiet h => exact h.rests
  | selects mgr h => exact absurd rfl (hvisit _ _)
  | forks np h => exact h.spawning.rests (congrArg Identity.passValue h.identity)
  | creates np mgr h => exact h.spawning.rests (congrArg Identity.passValue h.identity)
  | execs h => exact h.rests (At.live henabled)
  | waits p d ha h => exact ⟨h.shares.heap, fun i => (h.settled i).kept⟩
  | joins p ha h => exact ⟨h.shares.heap, fun i => (h.settled i).kept⟩
  | threadExits htid h =>
    exact rests_but _ h.shares.heap h.settled (Proc.not_manages_of_pass hkept)
      (Proc.not_manages_of_zombie h.state)
  | @exits cur _ left h hdies =>
    refine rests_but cur (hdies.shares.heap.trans (h.same hkept).1) (fun i hi => ?_)
      (Proc.not_manages_of_pass hkept) (Proc.not_manages_of_zombie hdies.state)
    exact (h.settled_proc i).trans (hdies.settled i hi)
  | returns ha h =>
    rcases ha with rfl | rfl
    · exact h.rests hkept
    · exact h.rests hkept
  | @begins cur left h =>
    have hrests := h.rests hkept
    refine ⟨hrests.heap, fun i => ?_⟩
    by_cases hi : i = cur
    · subst hi
      rw [modify_proc_same]
      exact ⟨(hrests.proc i).manages, (hrests.proc i).values⟩
    · rw [modify_proc_ne _ _ hi]
      exact hrests.proc i
  | ends h =>
    exact rests_but _ h.shares.heap h.settled (Proc.not_manages_of_pass hkept)
      (Proc.not_manages_of_zombie h.state)
  | grants h => exact absurd rfl (hshare _ _)

theorem passes_cons {m : Slot} (hm : m ∈ k.strideManagers) :
    k.strideManagers.val.map (fun i => (k.proc i).passValue) =
      (k.proc m).passValue ::ₘ
        (k.strideManagers.erase m).val.map fun i => (k.proc i).passValue := by
  rw [Finset.erase_val, ← Multiset.map_cons (fun i => (k.proc i).passValue),
    Multiset.cons_erase (Finset.mem_val.mpr hm)]

theorem Fair.root_le (h : k.Fair s) {i : Slot} (hi : i ∈ k.strideManagers) :
    k.heap.cells 1 ≤ (k.proc i).passValue := by
  apply h.ordered.minimum
  rw [h.contents]
  exact Multiset.mem_map_of_mem (fun i => (k.proc i).passValue) hi

theorem Fair.root_eq (h : k.Fair s) (hcount : 0 < k.heap.count) :
    ∃ i ∈ k.strideManagers, (k.proc i).passValue = k.heap.cells 1 := by
  have hroot := StrideHeap.root_mem hcount
  rw [h.contents] at hroot
  exact Multiset.mem_map.mp hroot

theorem Fair.empty (h : k.Fair s) (hcount : k.heap.count = 0) : k.strideManagers = ∅ := by
  have hcard := congrArg Multiset.card h.contents
  rw [StrideHeap.contents, hcount] at hcard
  simpa using hcard.symm

theorem Selects.kept {c : Fin ncpu} {p mgr : Slot} (h : Selects k k' c p mgr) {i : Slot}
    (hi : i ≠ mgr) : Proc.Kept (k.proc i) (k'.proc i) :=
  Proc.Settled.kept (.quiet (h.others i hi))

theorem Selects.manager {c : Fin ncpu} {p mgr : Slot} (h : Selects k k' c p mgr)
    (hkept : k.FairKept (.visit c p)) :
    (k'.proc mgr).Manages ∧
      (k'.proc mgr).passValue = (k.proc mgr).passValue + (k.proc mgr).stride ∧
      (k'.proc mgr).stride = (k.proc mgr).stride := by
  obtain ⟨hmanages, hfits, hvalid⟩ := hkept mgr h.chosen
  have hid := h.identity hmanages.1.1
  have hpass : (k'.proc mgr).passValue = (k.proc mgr).passValue + (k.proc mgr).stride :=
    (congrArg Identity.passValue hid).trans hfits
  have htid : (k'.proc mgr).tid = (k.proc mgr).tid := congrArg Identity.tid hid
  refine ⟨⟨⟨mt h.unused.mp hmanages.1.1, mt h.zombie.mp hmanages.1.2⟩, ?_, ?_⟩, hpass,
    congrArg Identity.stride hid⟩
  · rw [hpass]
    exact hvalid
  · rw [htid]
    exact hmanages.2.2

theorem Selects.strideManagers {c : Fin ncpu} {p mgr : Slot} (h : Selects k k' c p mgr)
    (hkept : k.FairKept (.visit c p)) : k'.strideManagers = k.strideManagers := by
  ext i
  rw [mem_strideManagers, mem_strideManagers]
  by_cases hi : i = mgr
  · subst hi
    exact iff_of_true (h.manager hkept).1 (hkept i h.chosen).1
  · exact (h.kept hi).manages

theorem Selects.does {c : Fin ncpu} {p mgr : Slot} (h : Selects k k' c p mgr)
    (hkept : k.FairKept (.visit c p)) (hfair : k.Fair s) :
    (Stride.Move.select mgr).Does k.pool k'.pool := by
  have hmgr : mgr ∈ k.strideManagers := mem_strideManagers.mpr (hkept mgr h.chosen).1
  obtain ⟨-, hpass, hstride⟩ := h.manager hkept
  refine ⟨hmgr, fun j hj => ?_, h.strideManagers hkept, hpass, fun j hj hne => ?_, fun j hj => ?_⟩
  · change (k.proc mgr).passValue ≤ (k.proc j).passValue
    rw [h.chosen.minimum]
    exact hfair.root_le hj
  · exact ((h.kept hne).values (mem_strideManagers.mp hj)).1
  · by_cases hne : j = mgr
    · subst hne
      exact hstride
    · exact ((h.kept hne).values (mem_strideManagers.mp hj)).2

theorem Selects.fair {c : Fin ncpu} {p mgr : Slot} (h : Selects k k' c p mgr)
    (hkept : k.FairKept (.visit c p)) (hfair : k.Fair s) : k'.Fair s := by
  obtain ⟨hmanages, hfits, -⟩ := hkept mgr h.chosen
  have hmgr : mgr ∈ k.strideManagers := mem_strideManagers.mpr hmanages
  have hmanagers := h.strideManagers hkept
  obtain ⟨popped, hpop, hpush⟩ := h.heap
  rw [hfits] at hpush
  have hnonempty := h.chosen.nonempty
  have hcount := (StrideHeap.pop_ok hpop).2.2.1
  have hcount' := (StrideHeap.push_ok hpush).2.2.1
  refine ⟨by omega, StrideHeap.ordered_push hpush (StrideHeap.ordered_pop hpop hfair.ordered),
    ?_, hfair.within.move (h.does hkept hfair)⟩
  -- both lists are those of the other managers with one value more
  have hothers : (k.strideManagers.erase mgr).val.map (fun i => (k'.proc i).passValue) =
      (k.strideManagers.erase mgr).val.map fun i => (k.proc i).passValue := by
    refine Multiset.map_congr rfl fun i hi => ?_
    obtain ⟨hne, hi⟩ := Finset.mem_erase.mp (Finset.mem_val.mp hi)
    exact ((h.kept hne).values (mem_strideManagers.mp hi)).1
  have hbefore := StrideHeap.contents_pop hpop hnonempty
  rw [hfair.contents, passes_cons hmgr, h.chosen.minimum, Multiset.cons_inj_right] at hbefore
  have hmgr' : mgr ∈ k'.strideManagers := by
    rw [hmanagers]
    exact hmgr
  rw [StrideHeap.contents_push hpush (by omega), ← hbefore, passes_cons hmgr',
    (h.manager hkept).2.1, hmanagers, hothers]

theorem Grants.root {cur : Slot} {percent : Int} (h : Grants k k' cur percent)
    (hfair : k.Fair s) :
    k'.heap.cells 1 = if k.heap.count = 0 then 0 else k.heap.cells 1 :=
  StrideHeap.push_root h.heap hfair.count

theorem Grants.manages {cur : Slot} {percent : Int} (h : Grants k k' cur percent)
    (hcur : k.At cur .user) (htid : ¬ 0 < (k.proc cur).tid) (hfair : k.Fair s) :
    (k'.proc cur).Manages := by
  rw [h.same]
  refine ⟨hcur.live, ?_, htid⟩
  change k'.heap.cells 1 ≠ -1
  rw [h.root hfair]
  split
  · decide
  · rename_i hcount
    have hnonneg := hfair.count
    obtain ⟨i, hi, hroot⟩ := hfair.root_eq (by omega)
    rw [← hroot]
    exact (mem_strideManagers.mp hi).2.1

theorem Grants.strideManagers {cur : Slot} {percent : Int} (h : Grants k k' cur percent)
    (hcur : k.At cur .user) (htid : ¬ 0 < (k.proc cur).tid) (hfair : k.Fair s) :
    k'.strideManagers = insert cur k.strideManagers := by
  ext i
  rw [mem_strideManagers, Finset.mem_insert, mem_strideManagers]
  by_cases hi : i = cur
  · subst hi
    exact iff_of_true (h.manages hcur htid hfair) (.inl rfl)
  · rw [h.others i hi]
    exact (or_iff_right hi).symm

theorem Grants.does {cur : Slot} {percent : Int} (h : Grants k k' cur percent)
    (hcur : k.At cur .user) (hpass : (k.proc cur).passValue = -1)
    (htid : ¬ 0 < (k.proc cur).tid) (hfair : k.Fair s) :
    (Stride.Move.join cur (1000 / percent)).Does k.pool k'.pool := by
  have hcur' : cur ∉ k.strideManagers :=
    fun hmem => Proc.not_manages_of_pass hpass (mem_strideManagers.mp hmem)
  have hentry : (k'.proc cur).passValue = if k.heap.count = 0 then 0 else k.heap.cells 1 := by
    rw [← h.root hfair, h.same]
  have hpositive : ∀ i ∈ k.strideManagers, 0 < k.heap.count := by
    intro i hi
    have hnonneg := hfair.count
    by_contra hcount
    rw [hfair.empty (by omega)] at hi
    cases hi
  refine ⟨hcur', h.strideManagers hcur htid hfair, ?_, ?_, fun j hj => ?_, ?_, fun j hj => ?_⟩
  · exact Int.ediv_nonneg (by decide) h.positive.le
  · change (k'.proc cur).stride = _
    rw [h.same]
  · change (k'.proc cur).passValue ≤ (k.proc j).passValue
    have hcount := hpositive j hj
    rw [hentry, if_neg (by omega)]
    exact hfair.root_le hj
  · rintro ⟨j, hj⟩
    have hcount := hpositive j hj
    obtain ⟨i, hi, hroot⟩ := hfair.root_eq hcount
    refine ⟨i, hi, ?_⟩
    change (k'.proc cur).passValue = (k.proc i).passValue
    rw [hentry, if_neg (by omega), hroot]
  · have hne : j ≠ cur := fun heq => hcur' (heq ▸ hj)
    have hsame : k'.proc j = k.proc j := h.others j hne
    exact ⟨congrArg Proc.passValue hsame, congrArg Proc.stride hsame⟩

theorem Grants.fair {cur : Slot} {percent : Int} (h : Grants k k' cur percent)
    (hcur : k.At cur .user) (hpass : (k.proc cur).passValue = -1)
    (htid : ¬ 0 < (k.proc cur).tid) (hfair : k.Fair s) :
    k'.Fair (max s (1000 / percent)) := by
  have hcur' : cur ∉ k.strideManagers :=
    fun hmem => Proc.not_manages_of_pass hpass (mem_strideManagers.mp hmem)
  have hnonneg := hfair.count
  have hcount := (StrideHeap.push_ok h.heap).2.2.1
  refine ⟨by omega, StrideHeap.ordered_push h.heap hfair.ordered, ?_,
    hfair.within.move (h.does hcur hpass htid hfair)⟩
  have hothers : k.strideManagers.val.map (fun i => (k'.proc i).passValue) =
      k.strideManagers.val.map fun i => (k.proc i).passValue := by
    refine Multiset.map_congr rfl fun i hi => ?_
    rw [h.others i fun heq => hcur' (heq ▸ hi)]
  rw [StrideHeap.contents_push h.heap hfair.count, ← h.root hfair, hfair.contents,
    h.strideManagers hcur htid hfair, Finset.insert_val_of_notMem hcur', Multiset.map_cons, hothers,
    h.same]

theorem fair_step {a : Act} {out : Out} (hfair : k.Fair s) (hallowed : k.FairAllowed a)
    (h : k.perform a = .ok (k', out)) :
    (moveOf (k, a, out)).Does k.pool k'.pool ∧ k'.Fair ((moveOf (k, a, out)).largest s) := by
  obtain ⟨henabled, hkept⟩ := hallowed
  have hstill : Rests k k' → moveOf (k, a, out) = .still →
      (moveOf (k, a, out)).Does k.pool k'.pool ∧ k'.Fair ((moveOf (k, a, out)).largest s) := by
    intro hrests hmove
    rw [hmove]
    exact ⟨hrests.does, hrests.fair hfair⟩
  by_cases hvisit : ∃ c p, a = .visit c p
  · obtain ⟨c, p, rfl⟩ := hvisit
    obtain ⟨⟨k1, how⟩, hdone, heq⟩ := map_eq_ok.mp h
    cases heq
    obtain ⟨hquiet, hhow⟩ | ⟨rfl, mgr, hselects⟩ := visit_effect hdone
    · refine hstill hquiet.rests ?_
      cases how with
      | stride => exact absurd rfl hhow
      | _ => rfl
    · have hmove : moveOf (k, .visit c p, .visited .stride) = .select mgr := by
        simp only [moveOf, hselects.chosen.manager]
      rw [hmove]
      exact ⟨hselects.does hkept hfair, hselects.fair hkept hfair⟩
  by_cases hshare : ∃ p percent, a = .setCpuShare p percent
  · obtain ⟨p, percent, rfl⟩ := hshare
    obtain ⟨⟨k1, r⟩, hdone, heq⟩ := map_eq_ok.mp h
    cases heq
    obtain ⟨rfl, rfl⟩ | ⟨hgrants, rfl⟩ := setCpuShare_effect hdone
    · exact hstill (Quiet.refl k1).rests rfl
    · obtain ⟨hpass, htid⟩ := hkept ⟨hgrants.positive, hgrants.admitted⟩
      exact ⟨hgrants.does henabled hpass htid hfair, hgrants.fair henabled hpass htid hfair⟩
  · have hvisit' : ∀ c p, a ≠ .visit c p := fun c p ha => hvisit ⟨c, p, ha⟩
    have hshare' : ∀ p percent, a ≠ .setCpuShare p percent := fun p n ha => hshare ⟨p, n, ha⟩
    refine hstill (rests_of_effect henabled hkept hvisit' hshare' (perform_effect henabled h)) ?_
    cases a with
    | visit c p => exact absurd rfl (hvisit' c p)
    | setCpuShare p percent => exact absurd rfl (hshare' p percent)
    | _ => rfl

end

/-- What a run from a fair state keeps: fairness, and for every client of the start the number
of its selections. -/
structure FairRun (start : Kernel) (s : Int) (trace : List (Kernel × Act × Out)) (k : Kernel) :
    Prop where
  fair : k.Fair (largestStride s trace)
  largest : s ≤ largestStride s trace
  advanced : ∀ i ∈ start.strideManagers,
    Stride.Advanced start.pool k.pool i (selections i trace)

theorem fairRun {start finish : Kernel} {s : Int} {trace : List (Kernel × Act × Out)}
    (hfair : start.Fair s) (run : Run perform FairAllowed start trace finish) :
    FairRun start s trace finish := by
  refine run.invariant (FairRun start s)
    ⟨hfair, le_rfl, fun i hi => Stride.advanced_refl (show i ∈ start.pool.clients from hi)⟩ ?_
  intro trace k a k' out hinv hallowed hstep
  obtain ⟨hdoes, hfair'⟩ := fair_step hinv.fair hallowed hstep
  refine ⟨hfair', hinv.largest.trans (Stride.Move.le_largest _ _), fun i hi => ?_⟩
  have hcount : selections i ((k, a, out) :: trace) =
      selections i trace + if moveOf (k, a, out) = .select i then 1 else 0 := by
    unfold selections
    rw [List.map_cons, List.count_cons]
    simp only [beq_iff_eq]
  rw [hcount]
  exact (hinv.advanced i hi).move hdoes

theorem fair_boot (free : Nat) : (boot free).Fair 0 := by
  have hempty : (boot free).strideManagers = ∅ := by
    rw [strideManagers, Finset.filter_eq_empty_iff]
    intro i _ hi
    have hpass := hi.2.1
    have hused := hi.1.1
    simp only [boot, Function.update_apply] at hpass hused
    split at hpass
    · exact hpass rfl
    · rename_i hne
      rw [if_neg hne] at hused
      exact hused rfl
  refine ⟨le_rfl, fun i hlow hhigh => ?_, ?_, ?_, ?_⟩
  · simp [boot, StrideHeap.empty] at hhigh
    omega
  · rw [hempty]
    rfl
  · intro i hi
    rw [pool, hempty] at hi
    cases hi
  · intro i hi
    rw [pool, hempty] at hi
    cases hi

/-- From a fair state, every run of selections of stride managers and of first requests by
managers ends in a fair state, and the selections of any two managers that held a share at its
start are in proportion to their shares up to twice the largest stride. -/
theorem stride_fair {start finish : Kernel} {s : Int} {trace : List (Kernel × Act × Out)}
    (hfair : start.Fair s) (run : Run perform FairAllowed start trace finish) :
    finish.Fair (largestStride s trace) ∧
      ∀ i ∈ start.strideManagers, ∀ j ∈ start.strideManagers,
        |(selections i trace : Int) * (start.proc i).stride -
          (selections j trace : Int) * (start.proc j).stride| ≤ 2 * largestStride s trace := by
  have hrun := fairRun hfair run
  refine ⟨hrun.fair, fun i hi j hj => ?_⟩
  exact hfair.within.fair hrun.fair.within hrun.largest hi hj (hrun.advanced i hi)
    (hrun.advanced j hj)

/-- Shares of 10 and 20 percent: one selection against two. -/
theorem stride_fair_two : ∃ (before trace : List (Kernel × Act × Out)) (start finish : Kernel),
    Run perform FairAllowed (boot 200) before start ∧
      Run perform FairAllowed start trace finish ∧
      0 ∈ start.strideManagers ∧ 1 ∈ start.strideManagers ∧
      selections 0 trace = 1 ∧ selections 1 trace = 2 ∧
      |(1 : Int) * (start.proc 0).stride - (2 : Int) * (start.proc 1).stride| ≤
        2 * largestStride (largestStride 0 before) trace := by
  obtain ⟨before, start, run, htest⟩ := exists_run perform FairAllowed (boot 200)
    [.visit 0 0, .fork 0, .yield 0, .visit 0 1, .visit 1 0, .setCpuShare 0 10, .setCpuShare 1 20,
      .yield 0, .yield 1]
    (fun _ k => decide (0 ∈ k.strideManagers ∧ 1 ∈ k.strideManagers) &&
      (replay perform FairAllowed
        [.visit 0 0, .yield 0, .visit 0 1, .yield 1, .visit 0 1] [] k).any
        fun r => decide (selections 0 r.1 = 1 ∧ selections 1 r.1 = 2)) (by decide +kernel)
  obtain ⟨hmanagers, hreplay⟩ := Bool.and_eq_true_iff.mp htest
  obtain ⟨h0, h1⟩ := of_decide_eq_true hmanagers
  obtain ⟨trace, finish, run', htrace⟩ := exists_run perform FairAllowed start _
    (fun trace _ => decide (selections 0 trace = 1 ∧ selections 1 trace = 2)) hreplay
  obtain ⟨hone, htwo⟩ := of_decide_eq_true htrace
  have hfair := (stride_fair (fair_boot 200) run).1
  have hbound := (stride_fair hfair run').2 0 h0 1 h1
  rw [hone, htwo] at hbound
  exact ⟨before, trace, start, finish, run, run', h0, h1, hone, htwo, hbound⟩

/-- The first request of an LWP: its value enters the heap, and no manager has it. -/
theorem stride_unfair : ∃ (k k' : Kernel) (s : Int), Reaches perform Enabled (boot 100) k ∧
    k.Fair s ∧ k.Enabled (.setCpuShare 1 10) ∧ (k.proc 1).passValue = -1 ∧
    k.perform (.setCpuShare 1 10) = .ok (k', .ret 0) ∧ ∀ s', ¬ k'.Fair s' := by
  obtain ⟨trace, k, run, htest⟩ := exists_run perform FairAllowed (boot 100)
    [.visit 0 0, .threadCreate 0 0, .yield 0, .visit 0 1]
    (fun _ k => decide (k.Enabled (.setCpuShare 1 10) ∧ (k.proc 1).passValue = -1) &&
      succeeds perform k (.setCpuShare 1 10) fun k' out =>
        decide (out = .ret 0 ∧ k'.heap.count = 1 ∧ k'.strideManagers = ∅)) (by decide +kernel)
  obtain ⟨hpre, hsucceeds⟩ := Bool.and_eq_true_iff.mp htest
  obtain ⟨henabled, hpass⟩ := of_decide_eq_true hpre
  obtain ⟨k', out, hstep, hpost⟩ := exists_of_succeeds hsucceeds
  obtain ⟨rfl, hcount, hempty⟩ := of_decide_eq_true hpost
  have hreach : Reaches perform Enabled (boot 100) k := ⟨trace, run.mono fun _ _ h => h.1⟩
  refine ⟨k, k', _, hreach, (fairRun (fair_boot 100) run).fair, henabled, hpass, hstep, ?_⟩
  intro s' hfair
  obtain ⟨i, hi, -⟩ := hfair.root_eq (by omega)
  rw [hempty] at hi
  cases hi

end Kernel

end Xv6

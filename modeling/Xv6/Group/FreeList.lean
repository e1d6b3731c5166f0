import Xv6.Group.Bounds
import Xv6.Proc.Records
import Xv6.Lib.Threads

/-! The free list of stacks that a process keeps in `stack[NPROC]`. Nothing checks its length. A
stack is entered when a slot that names the process as its manager is given up, so the list and
the slots that name the process are never more than the table has slots, and there is room for a
stack as long as such a slot is left. A slot counts whatever its state: a failed `thread_create`
leaves the manager in it, and `fork` can use the slot again without clearing it. -/
namespace Xv6

open Word Fallible Transition

namespace Kernel

def named (k : Kernel) (m : Slot) : Nat :=
  Threads.count (fun i => (k.proc i).manager) fun manager => decide (manager = some m)

def load (k : Kernel) (m : Slot) : Nat := (k.proc m).stack.length + k.named m

def Listed (k : Kernel) : Prop := ∀ m, k.load m ≤ nproc

def Lighter (k k' : Kernel) : Prop := ∀ m, k'.load m ≤ k.load m

variable {k k' k'' : Kernel} {cur mgr np p m : Slot}

theorem named_le (k : Kernel) (m : Slot) : k.named m ≤ nproc := by
  unfold named Threads.count
  exact (Finset.card_le_univ _).trans (Fintype.card_fin nproc).le

theorem named_pos (h : (k.proc p).manager = some m) : 0 < k.named m :=
  Threads.count_pos (t := p) (decide_eq_true h)

theorem named_congr (h : ∀ i, (k'.proc i).manager = (k.proc i).manager) (m : Slot) :
    k'.named m = k.named m := by
  apply Threads.count_congr
  intro i
  rw [h]

theorem named_modify (k : Kernel) (slot : Slot) (f : Proc → Proc) (m : Slot) :
    (k.modify slot f).named m + (decide ((k.proc slot).manager = some m)).toNat =
      k.named m + (decide ((f (k.proc slot)).manager = some m)).toNat := by
  have hupdate : (fun i => ((k.modify slot f).proc i).manager) =
      Function.update (fun i => (k.proc i).manager) slot (f (k.proc slot)).manager := by
    funext i
    rw [modify_proc, Function.update_apply]
    split
    · rfl
    · rfl
  unfold named
  rw [hupdate]
  exact Threads.count_update _ _ _ _

theorem Lighter.trans (h : Lighter k k') (h' : Lighter k' k'') : Lighter k k'' :=
  fun m => (h' m).trans (h m)

theorem Lighter.listed (h : Lighter k k') (hk : k.Listed) : k'.Listed :=
  fun m => (h m).trans (hk m)

theorem lighter_of (hmanager : ∀ i, (k'.proc i).manager = (k.proc i).manager)
    (hstack : ∀ i, (k'.proc i).stack.length ≤ (k.proc i).stack.length) : Lighter k k' := by
  intro m
  unfold load
  rw [named_congr hmanager]
  exact Nat.add_le_add_right (hstack m) _

theorem SameRecords.stack (h : SameRecords k k') (i : Slot) :
    (k'.proc i).stack = (k.proc i).stack :=
  congrArg Record.stack (h i)

theorem SameRecords.manager (h : SameRecords k k') (i : Slot) :
    (k'.proc i).manager = (k.proc i).manager :=
  congrArg Record.manager (h i)

theorem SameRecords.lighter (h : SameRecords k k') : Lighter k k' :=
  lighter_of h.manager fun i => (congrArg List.length (h.stack i)).le

theorem modify_field {β : Type} (field : Proc → β) (k : Kernel) {slot : Slot} {f : Proc → Proc}
    (h : field (f (k.proc slot)) = field (k.proc slot)) (i : Slot) :
    field ((k.modify slot f).proc i) = field (k.proc i) := by
  rw [modify_proc]
  split
  · rename_i hi
    rw [hi]
    exact h
  · rfl

theorem lighter_modify (k : Kernel) (slot : Slot) (f : Proc → Proc)
    (hmanager : (f (k.proc slot)).manager = (k.proc slot).manager)
    (hstack : (f (k.proc slot)).stack.length ≤ (k.proc slot).stack.length) :
    Lighter k (k.modify slot f) := by
  refine lighter_of (modify_field Proc.manager k hmanager) fun i => ?_
  rw [modify_proc]
  split
  · rename_i hi
    rw [hi]
    exact hstack
  · exact le_rfl

theorem lighter_allocproc {slot : Option Slot} (h : k.allocproc = (k', slot)) :
    Lighter k k' := by
  unfold allocproc at h
  split at h
  · cases h
    exact fun m => le_rfl
  · rename_i np hfind
    have hfresh : Lighter k (k.modify np (allocFields k.nextpid)) :=
      lighter_modify k np _ rfl (Nat.zero_le _)
    dsimp only at h
    split at h
    · cases h
      exact hfresh.trans (lighter_modify _ np _ rfl le_rfl)
    · cases h
      exact hfresh.trans (lighter_modify _ np _ rfl le_rfl)

theorem reap_room (hk : k.Listed) (hp : (k.proc p).manager = some mgr) :
    ((k.modify p reapFields).proc mgr).stack.length < nproc := by
  have hpos := named_pos hp
  have hload : (k.proc mgr).stack.length + k.named mgr ≤ nproc := hk mgr
  have hless : (k.proc mgr).stack.length < nproc := by omega
  rw [modify_proc]
  split
  · exact Nat.zero_lt_of_lt hless
  · exact hless

theorem load_cleared (k : Kernel) (p m : Slot) :
    (k.modify p reapFields).load m + (decide ((k.proc p).manager = some m)).toNat ≤ k.load m := by
  have hnamed := named_modify k p reapFields m
  have hnone : (decide ((reapFields (k.proc p)).manager = some m)).toNat = 0 := rfl
  have hstack : ((k.modify p reapFields).proc m).stack.length ≤ (k.proc m).stack.length := by
    rw [modify_proc]
    split
    · exact Nat.zero_le _
    · exact le_rfl
  unfold load
  omega

theorem load_push (k : Kernel) (mgr m : Slot) {f : Proc → Proc} {base : Nat}
    (hmanager : (f (k.proc mgr)).manager = (k.proc mgr).manager)
    (hstack : (f (k.proc mgr)).stack = base :: (k.proc mgr).stack) :
    (k.modify mgr f).load m = k.load m + (decide (some mgr = some m)).toNat := by
  have hnamed := named_modify k mgr f m
  rw [hmanager] at hnamed
  unfold load
  rw [modify_proc]
  split
  · rename_i hm
    subst hm
    rw [hstack, List.length_cons, decide_eq_true rfl, Bool.toNat_true]
    omega
  · rename_i hm
    rw [decide_eq_false (fun heq => hm (Option.some.inj heq).symm), Bool.toNat_false]
    omega

theorem lighter_reap {pushed : Bool} (hp : (k.proc p).manager = some mgr)
    (h : k.reap mgr p = .ok (k', pushed)) : Lighter k k' := by
  have hcleared := load_cleared k p
  rw [hp] at hcleared
  obtain ⟨d, -, h⟩ := bind_eq_ok.mp h
  obtain ⟨⟨s, result⟩, -, h⟩ := bind_eq_ok.mp h
  dsimp only at h
  split at h
  · cases Except.ok.inj h
    exact fun m => (Nat.le_add_right _ _).trans (hcleared m)
  split at h
  · cases h
  · cases Except.ok.inj h
    intro m
    rw [load_push _ mgr m rfl rfl]
    exact hcleared m

theorem lighter_sweepOne {lwp : Option Slot} {go : Bool}
    (h : k.sweepOne mgr lwp p = .ok (k', go)) : Lighter k k' := by
  unfold sweepOne at h
  split at h
  · cases Except.ok.inj h
    exact fun m => le_rfl
  rename_i hmember
  split at h
  · cases Except.ok.inj h
    exact lighter_modify k p _ rfl le_rfl
  · exact lighter_reap (not_not.mp fun hne => hmember (.inl hne)) h

theorem lighter_sweep {lwp : Option Slot} {go : Bool} {rest : List Slot}
    (h : sweep mgr lwp rest k = .ok (k', go)) : Lighter k k' := by
  induction rest generalizing k with
  | nil =>
    cases Except.ok.inj h
    exact fun m => le_rfl
  | cons p rest ih =>
    obtain ⟨⟨k1, go1⟩, hone, h⟩ := bind_eq_ok.mp h
    have hfirst := lighter_sweepOne hone
    cases go1 with
    | false =>
      cases Except.ok.inj h
      exact hfirst
    | true => exact hfirst.trans (ih h)

theorem linkLwp_stack (k : Kernel) (mgr np i : Slot) :
    ((k.linkLwp mgr np).proc i).stack = (k.proc i).stack := by
  unfold linkLwp
  dsimp only
  rw [modify_field Proc.stack _ rfl, modify_field Proc.stack _ rfl, modify_field Proc.stack _ rfl]

theorem linkLwp_named (k : Kernel) (mgr np m : Slot) :
    (k.linkLwp mgr np).named m ≤ k.named m + (decide (some mgr = some m)).toNat := by
  have hlink := named_modify k np (fun p => { p with manager := some mgr }) m
  have hrest : (k.linkLwp mgr np).named m =
      (k.modify np fun p => { p with manager := some mgr }).named m := by
    apply named_congr
    intro i
    unfold linkLwp
    dsimp only
    rw [modify_field Proc.manager _ rfl, modify_field Proc.manager _ rfl]
  rw [hrest]
  dsimp only at hlink
  omega

theorem takeStack_manager (k : Kernel) (mgr i : Slot) :
    ((k.takeStack mgr).1.proc i).manager = (k.proc i).manager := by
  unfold takeStack
  split
  · dsimp only
    rw [modify_field Proc.manager _ rfl]
  · dsimp only
    rw [modify_field Proc.manager _ rfl]

theorem takeStack_stack (k : Kernel) (mgr i : Slot) :
    ((k.takeStack mgr).1.proc i).stack =
      if i = mgr then (k.proc mgr).stack.tail else (k.proc i).stack := by
  unfold takeStack
  split
  · rename_i hlist
    dsimp only
    rw [modify_field Proc.stack _ rfl, hlist]
    split
    · rename_i hi
      rw [hi, hlist, List.tail_nil]
    · rfl
  · rename_i hlist
    dsimp only
    rw [modify_proc, hlist]
    split
    · rfl
    · rfl

/-- `thread_create` takes a stack off the list before the new slot can bring one back. With an
empty list there are no more stacks to come than slots. -/
theorem Listed.creates {k0 k1 : Kernel} (hk : k.Listed) (halloc : k.allocproc = (k0, some np))
    (hlinked : SameRecords (k0.linkLwp mgr np) k1)
    (hafter : SameRecords (k1.takeStack mgr).1 k') : k'.Listed := by
  have hk0 := (lighter_allocproc halloc).listed hk
  refine hafter.lighter.listed fun m => ?_
  have hload : (k0.proc m).stack.length + k0.named m ≤ nproc := hk0 m
  have hstack : ∀ i, (k1.proc i).stack = (k0.proc i).stack :=
    fun i => (hlinked.stack i).trans (linkLwp_stack k0 mgr np i)
  have hnamed : k1.named m ≤ k0.named m + (decide (some mgr = some m)).toNat := by
    rw [named_congr hlinked.manager]
    exact linkLwp_named k0 mgr np m
  unfold load
  rw [named_congr (takeStack_manager k1 mgr), takeStack_stack]
  split
  · rename_i hm
    subst hm
    have hall := named_le k1 m
    rw [decide_eq_true rfl, Bool.toNat_true] at hnamed
    rw [List.length_tail, hstack]
    omega
  · rename_i hm
    rw [decide_eq_false (fun heq => hm (Option.some.inj heq).symm), Bool.toNat_false] at hnamed
    rw [hstack]
    omega

theorem Listed.rewrites (hk : k.Listed) (h : Rewrites k k') : k'.Listed := by
  cases h with
  | same h => exact h.lighter.listed hk
  | allocates k0 slot halloc hafter =>
    exact ((lighter_allocproc halloc).trans hafter.lighter).listed hk
  | creates k0 k1 np mgr halloc hlinked hafter => exact hk.creates halloc hlinked hafter
  | reaps k0 k1 mgr p pushed hbefore hmanager hreap hafter =>
    exact ((hbefore.lighter.trans (lighter_reap hmanager hreap)).trans hafter.lighter).listed hk
  | sweeps k0 k1 mgr lwp go hbefore hsweep hafter =>
    exact ((hbefore.lighter.trans (lighter_sweep hsweep)).trans hafter.lighter).listed hk

theorem lighter_advancePass (h : k.advancePass mgr = .ok k') : Lighter k k' := by
  obtain ⟨popped, -, h⟩ := bind_eq_ok.mp h
  obtain ⟨heap, -, h⟩ := bind_eq_ok.mp h
  cases Except.ok.inj h
  exact lighter_modify k mgr (fun q => { q with
    passValue := i32 ((k.proc mgr).passValue + (k.proc mgr).stride) }) rfl le_rfl

theorem lighter_visit {c : Fin ncpu} {how : Visit} (h : k.visit c p = .ok (k', how)) :
    Lighter k k' := by
  unfold visit at h
  split at h
  · cases Except.ok.inj h
    exact fun m => le_rfl
  split at h
  · exact (records_execution h).lighter
  dsimp only at h
  split at h
  · obtain ⟨mgr, -, h⟩ := bind_eq_ok.mp h
    split at h
    · obtain ⟨k1, hadvance, h⟩ := bind_eq_ok.mp h
      exact (lighter_advancePass hadvance).trans (records_execution h).lighter
    · cases Except.ok.inj h
      exact fun m => le_rfl
  split at h
  · cases Except.ok.inj h
    exact fun m => le_rfl
  split at h
  · cases Except.ok.inj h
    exact fun m => le_rfl
  · exact (records_execution h).lighter

theorem Listed.step {a : Act} {out : Out} (hk : k.Listed) (h : k.perform a = .ok (k', out)) :
    k'.Listed := by
  have hrewrites : ranks a = false → k'.Listed := fun ha => hk.rewrites (perform_rewrites ha h)
  cases a with
  | visit c p =>
    obtain ⟨⟨k1, how⟩, hop, heq⟩ := map_eq_ok.mp h
    cases heq
    exact (lighter_visit hop).listed hk
  | charge p level ticks runtime =>
    cases Except.ok.inj h
    exact (lighter_modify k p _ rfl le_rfl).listed hk
  | setCpuShare p percent =>
    obtain ⟨⟨k1, r⟩, hop, heq⟩ := map_eq_ok.mp h
    cases heq
    unfold setCpuShare at hop
    split at hop
    · cases Except.ok.inj hop
      exact hk
    split at hop
    · obtain ⟨heap, -, hop⟩ := bind_eq_ok.mp hop
      cases Except.ok.inj hop
      exact (lighter_modify k p (fun q => { q with
        passValue := heap.cells 1, stride := 1000 / percent, portion := percent })
        rfl le_rfl).listed hk
    · cases Except.ok.inj hop
      exact hk
  | _ => exact hrewrites rfl

theorem Listed.reap (hk : k.Listed) (hp : (k.proc p).manager = some mgr) :
    InBounds (k.reap mgr p) := by
  refine (inBounds_deref _).bind fun d _ => (inBounds_deallocuvm _ _ _).bind fun r _ => ?_
  dsimp only
  split
  · exact avoids_ok _
  split
  · rename_i hfull
    exact absurd (reap_room hk hp) (not_lt.mpr hfull)
  · exact avoids_ok _

theorem Listed.sweep {lwp : Option Slot} {rest : List Slot} (hk : k.Listed) :
    InBounds (sweep mgr lwp rest k) := by
  induction rest generalizing k with
  | nil => exact avoids_ok _
  | cons p rest ih =>
    refine Avoids.bind ?_ fun r hone => ?_
    · unfold sweepOne
      split
      · exact avoids_ok _
      rename_i hmember
      split
      · exact avoids_ok _
      · exact hk.reap (not_not.mp fun hne => hmember (.inl hne))
    · obtain ⟨k1, go⟩ := r
      cases go with
      | false => exact avoids_ok _
      | true => exact ih ((lighter_sweepOne hone).listed hk)

theorem Listed.threadJoin (hk : k.Listed) (cur : Slot) (thread : Int) :
    InBounds (k.threadJoin cur thread) := by
  unfold Kernel.threadJoin
  split
  · exact avoids_ok _
  split
  · rename_i p hfind
    have hp := of_decide_eq_true (findSlot_some hfind)
    exact (hk.reap hp.1).bind fun r _ => avoids_ok _
  split
  · exact avoids_ok _
  · exact avoids_ok _

theorem Listed.exitBegin (hk : k.Listed) (cur : Slot) : InBounds (k.exitBegin cur) := by
  unfold Kernel.exitBegin
  split
  · exact avoids_error (by decide)
  · refine Avoids.bind ?_ fun k1 hshare => ?_
    · unfold returnShare
      split
      · exact (inBounds_pop _).map
      · exact avoids_ok _
    · have hk1 := (records_returnShare hshare).lighter.listed hk
      split
      · exact (inBounds_deref _).bind fun mgr _ => hk1.sweep
      split
      · exact hk1.sweep
      · exact avoids_ok _

theorem Listed.perform (hk : k.Listed) (a : Act) : InBounds (k.perform a) := by
  have hawake : ∀ p, (k.awake p).Listed :=
    fun p => (lighter_modify k p _ rfl le_rfl).listed hk
  cases a with
  | visit c p => exact (inBounds_visit k c p).map
  | yield p => exact avoids_ok _
  | sleepOn p chan => exact avoids_ok _
  | wakeup chan => exact avoids_ok _
  | charge p level ticks runtime => exact avoids_ok _
  | kill p pid => exact avoids_ok _
  | fork p => exact (inBounds_fork k p).map
  | exec p file argv => exact (inBounds_exec k p file argv).map
  | sbrk p n => exact (inBounds_growproc k p n).map
  | wait p => exact (inBounds_wait k p).map
  | resumeWait p => exact (inBounds_wait (k.awake p) p).map
  | threadCreate p start => exact (inBounds_threadCreate k p start).map
  | threadExit p retval => exact (inBounds_threadExit k p retval).map
  | threadJoin p thread => exact (hk.threadJoin p thread).map
  | resumeJoin p => exact ((hawake p).threadJoin p _).map
  | exit p =>
    refine Avoids.map ((hk.exitBegin p).bind fun r _ => ?_)
    obtain ⟨k1, go⟩ := r
    cases go with
    | true => exact (inBounds_exitEnd k1 p).map
    | false => exact avoids_ok _
  | exitBegin p => exact (hk.exitBegin p).map
  | exitEnd p => exact (inBounds_exitEnd k p).map
  | setCpuShare p percent => exact (inBounds_setCpuShare k p percent).map

theorem listed_boot (free : Nat) : (boot free).Listed := by
  intro m
  have hnamed : (boot free).named m = 0 := by
    apply Threads.count_eq_zero
    intro i
    by_cases hi : i = 0
    · subst hi
      rfl
    · simp [boot, hi, Proc.zero]
  have hstack : ((boot free).proc m).stack = [] := by
    by_cases hm : m = 0
    · subst hm
      rfl
    · simp [boot, hm, Proc.zero]
  unfold load
  rw [hnamed, hstack]
  exact Nat.zero_le _

theorem listed_reaches {free : Nat} (h : Reaches Kernel.perform Enabled (boot free) k) : k.Listed :=
  h.invariant Listed (listed_boot free) fun _ _ _ _ hk _ hstep => hk.step hstep

/-- The free list never outgrows `stack[NPROC]`, and no action pushes on a full one. -/
theorem free_list_fits {free : Nat} (h : Reaches Kernel.perform Enabled (boot free) k) :
    (∀ m, (k.proc m).stack.length ≤ nproc) ∧ ∀ a, k.perform a ≠ .error .stackBounds := by
  have hk := listed_reaches h
  exact ⟨fun m => (Nat.le_add_right _ _).trans (hk m), hk.perform⟩

/-- `init` has joined one LWP and may go on. -/
theorem free_list_fits_joined : ∃ k, Reaches Kernel.perform Enabled (boot 1000) k ∧
    (k.proc 0).stack.length = 1 ∧ ∀ a, k.perform a ≠ .error .stackBounds := by
  obtain ⟨k, hreach, htest⟩ := exists_reaches Kernel.perform Enabled (boot 1000)
    [.visit 0 0, .threadCreate 0 5, .yield 0, .visit 0 1, .threadExit 1 9, .visit 0 0,
      .threadJoin 0 1]
    (fun k => decide ((k.proc 0).stack.length = 1)) (by decide +kernel)
  exact ⟨k, hreach, of_decide_eq_true htest, (free_list_fits hreach).2⟩

end Kernel

end Xv6

import Xv6.Sync.Killed

/-! The value of a semaphore counts the calls. Every decrement and increment is made under the
mutex of the semaphore, so that wakeups of any kind do not matter. -/
namespace Xv6.Killed

open Transition Threads Word
open Semaphore (Pc Life Thread Shared next)

variable {n : Nat} {X : Type} [DecidableEq X]

def Caller.within (region : Thread → Bool) (x : X) (c : Caller X) : Bool :=
  region c.th && decide (c.on = x)

def stands (pc : Pc) (th : Thread) : Bool := decide (th.pc = pc)

def ran (pc : Pc) (x : X) (trace : Trace n X) : Nat :=
  trace.countP fun e => match e.2.1 with
    | .go t => (e.1.caller t).within (stands pc) x
    | _ => false

def unlocks (x : X) (trace : Trace n X) : Nat :=
  trace.countP fun e => match e.2.1 with
    | .xemUnlock _ y => decide (y = x)
    | _ => false

/-- The value is what the decrements and increments have made of `v`, and at most `v` more
threads have returned from `xem_wait` than have called `xem_unlock`. -/
structure Accounted (v : X → Int) (trace : Trace n X) (s : State n X) : Prop where
  nonneg : ∀ x, 0 ≤ (s.xem x).value
  value : ∀ x, (s.xem x).value = v x - ran .waitTake x trace + ran .postAdd x trace
  returned : ∀ x, (ran .waitUnlock x trace : Int) - unlocks x trace ≤ v x

namespace State

def Roomy (s : State n X) : Act n X → Prop
  | .go t => (s.caller t).th.pc = .postAdd → (s.xem (s.caller t).on).value < 2147483647
  | _ => True

instance (s : State n X) : (a : Act n X) → Decidable (s.Roomy a)
  | .go _ => inferInstanceAs (Decidable (_ → _))
  | .xemWait _ _ | .xemUnlock _ _ | .kill _ | .mark _ | .dispatch _ | .reuse _ =>
      inferInstanceAs (Decidable True)

/-- No thread is woken between the test and the assignment of a `Cond_signal`. -/
def Spared (s : State n X) : Act n X → Prop
  | .kill victims => ∀ u t, victims u = true → (s.caller t).th.pc ≠ .wake u.val
  | _ => True

instance (s : State n X) : (a : Act n X) → Decidable (s.Spared a)
  | .kill _ => inferInstanceAs (Decidable (∀ _ _, _ → _))
  | .xemWait _ _ | .xemUnlock _ _ | .go _ | .mark _ | .dispatch _ | .reuse _ =>
      inferInstanceAs (Decidable True)

end State

def posting (th : Thread) : Bool := stands .postLock th || stands .postAdd th

structure Fair (v : X → Int) (trace : Trace n X) (s : State n X) (x : X) : Prop where
  bit : (s.xem x).lock = 0 ∨ (s.xem x).lock = 1
  lock : (s.xem x).lock = count s.caller (Caller.within Thread.locked x)
  nonneg : 0 ≤ (s.xem x).value
  small : (s.xem x).value < 2147483648
  value : (s.xem x).value = v x - ran .waitTake x trace + ran .postAdd x trace
  taken : ran .waitUnlock x trace + count s.caller (Caller.within (stands .waitUnlock) x) =
    ran .waitTake x trace
  posted : ran .postAdd x trace + count s.caller (Caller.within posting x) = unlocks x trace

structure Balanced (v : X → Int) (trace : Trace n X) (s : State n X) : Prop where
  fair : ∀ x, Fair v trace s x
  take : ∀ t, (s.caller t).th.pc = .waitTake → 0 < (s.xem (s.caller t).on).value

theorem balanced_start {v : X → Int} (hv : ∀ x, 0 ≤ v x ∧ v x < 2147483648) (on : Fin n → X) :
    Balanced v [] (start v on) := by
  have hnone : ∀ (region : Thread → Bool) (x : X), region ⟨.out, .running, false⟩ = false →
      count (start v on).caller (Caller.within region x) = 0 := by
    intro region x h
    apply count_eq_zero
    intro t
    rw [Caller.within, show region ((start v on).caller t).th = false from h, Bool.false_and]
  refine ⟨fun x => ⟨.inl rfl, ?_, (hv x).1, (hv x).2, ?_, ?_, ?_⟩, fun t h => ?_⟩
  · rw [hnone _ x rfl]
    rfl
  · change v x = v x - 0 + 0
    omega
  · rw [hnone _ x rfl]
    rfl
  · rw [hnone _ x rfl]
    rfl
  · cases h

section

variable {v : X → Int} {trace trace' : Trace n X} {s s' : State n X} {a : Act n X} {x : X}

theorem ran_cons (pc : Pc) (x : X) (s : State n X) (a : Act n X) (trace : Trace n X) :
    ran pc x ((s, a, ()) :: trace) = ran pc x trace +
      match a with
      | .go t => ((s.caller t).within (stands pc) x).toNat
      | _ => 0 := by
  have hite : ∀ b : Bool, (if b = true then 1 else 0) = b.toNat := by decide
  unfold ran
  rw [List.countP_cons]
  cases a with
  | go t => exact congrArg _ (hite _)
  | xemWait | xemUnlock | kill | mark | dispatch | reuse => rfl

theorem unlocks_cons (x : X) (s : State n X) (a : Act n X) (trace : Trace n X) :
    unlocks x ((s, a, ()) :: trace) = unlocks x trace +
      match a with
      | .xemUnlock _ y => (decide (y = x)).toNat
      | _ => 0 := by
  have hite : ∀ b : Bool, (if b = true then 1 else 0) = b.toNat := by decide
  unfold unlocks
  rw [List.countP_cons]
  cases a with
  | xemUnlock t y => exact congrArg _ (hite _)
  | xemWait | go | kill | mark | dispatch | reuse => rfl

theorem Fair.congr (h : Fair v trace s x) (hxem : s'.xem x = s.xem x)
    (hcount : ∀ region ∈ [Thread.locked, stands .waitUnlock, posting],
      count s'.caller (Caller.within region x) = count s.caller (Caller.within region x))
    (hran : ∀ pc, ran pc x trace' = ran pc x trace)
    (hunlocks : unlocks x trace' = unlocks x trace) : Fair v trace' s' x := by
  have hlocked := hcount Thread.locked (by simp)
  have hunlock := hcount (stands .waitUnlock) (by simp)
  have hposting := hcount posting (by simp)
  refine ⟨?_, ?_, ?_, ?_, ?_, ?_, ?_⟩
  · rw [hxem]
    exact h.bit
  · rw [hxem, hlocked]
    exact h.lock
  · rw [hxem]
    exact h.nonneg
  · rw [hxem]
    exact h.small
  · rw [hxem, hran, hran]
    exact h.value
  · rw [hunlock, hran, hran]
    exact h.taken
  · rw [hposting, hran, hunlocks]
    exact h.posted

theorem Balanced.congr (h : Balanced v trace s) (hxem : s'.xem = s.xem)
    (hpc : ∀ t, (s'.caller t).th.pc = (s.caller t).th.pc)
    (hon : ∀ t, (s'.caller t).on = (s.caller t).on)
    (hran : ∀ pc x, ran pc x trace' = ran pc x trace)
    (hunlocks : ∀ x, unlocks x trace' = unlocks x trace) : Balanced v trace' s' := by
  refine ⟨fun x => (h.fair x).congr (by rw [hxem]) (fun region hregion => count_congr fun t => ?_)
    (fun pc => hran pc x) (hunlocks x), fun t ht => ?_⟩
  · have hsame : region (s'.caller t).th = region (s.caller t).th := by
      simp only [List.mem_cons, List.not_mem_nil, or_false] at hregion
      rcases hregion with rfl | rfl | rfl
      · rw [Thread.locked, Thread.locked, hpc]
      · rw [stands, stands, hpc]
      · rw [posting, posting, stands, stands, stands, stands, hpc]
    rw [Caller.within, Caller.within, hsame, hon]
  · rw [hpc] at ht
    rw [hxem, hon]
    exact h.take t ht

structure Books (sh : Shared) (th : Thread) (after : Shared × Thread) : Prop where
  bit : after.1.lock = 0 ∨ after.1.lock = 1
  lock : after.1.lock + th.locked.toNat = sh.lock + after.2.locked.toNat
  value : after.1.value + (stands .waitTake th).toNat = sh.value + (stands .postAdd th).toNat
  range : 0 ≤ after.1.value ∧ after.1.value < 2147483648
  same : th.locked = false → after.1.value = sh.value
  take : after.2.pc = .waitTake → 0 < after.1.value
  unlock : stands .waitUnlock after.2 = stands .waitTake th
  posting : (stands .postAdd th).toNat + (posting after.2).toNat = (posting th).toNat

section Local

variable {sh : Shared} {slot : Nat → Option Bool} {th : Thread}

theorem next_stands : stands .waitUnlock (next sh slot th).2 = stands .waitTake th := by
  obtain ⟨pc, state, chan⟩ := th
  cases pc <;> simp only [next] <;> (try split) <;> simp_all [stands, Thread.goto]

theorem next_posting : (stands .postAdd th).toNat + (posting (next sh slot th).2).toNat =
    (posting th).toNat := by
  obtain ⟨pc, state, chan⟩ := th
  cases pc <;> simp only [next] <;> (try split) <;> simp_all [posting, stands, Thread.goto]

theorem next_adds (hnonneg : 0 ≤ sh.value) (hsmall : sh.value < 2147483648)
    (htake : th.pc = .waitTake → 0 < sh.value) (hroomy : th.pc = .postAdd → sh.value < 2147483647) :
    (next sh slot th).1.value + (stands .waitTake th).toNat =
      sh.value + (stands .postAdd th).toNat := by
  have hadd : sh.value < 2147483647 → i32 (sh.value + 1) = sh.value + 1 :=
    fun h => i32_eq_self ⟨by omega, by omega⟩
  have hsub : 0 < sh.value → i32 (sh.value - 1) = sh.value - 1 :=
    fun h => i32_eq_self ⟨by omega, by omega⟩
  obtain ⟨pc, state, chan⟩ := th
  cases pc <;> simp only [next] <;> (try split) <;> simp_all [stands]

theorem next_range (hnonneg : 0 ≤ sh.value) (hsmall : sh.value < 2147483648)
    (htake : th.pc = .waitTake → 0 < sh.value) (hroomy : th.pc = .postAdd → sh.value < 2147483647) :
    0 ≤ (next sh slot th).1.value ∧ (next sh slot th).1.value < 2147483648 := by
  have hvalue := @next_adds sh slot th hnonneg hsmall htake hroomy
  by_cases hpost : th.pc = .postAdd
  · have hless := hroomy hpost
    rw [stands, stands, hpost] at hvalue
    simp at hvalue
    omega
  · by_cases hwait : th.pc = .waitTake
    · have hpos := htake hwait
      rw [stands, stands, hwait] at hvalue
      simp at hvalue
      omega
    · rw [stands, stands, decide_eq_false hpost, decide_eq_false hwait] at hvalue
      simp at hvalue
      omega

end Local

theorem within_on (region : Thread → Bool) (c : Caller X) :
    c.within region c.on = region c.th := by
  rw [Caller.within, decide_eq_true rfl, Bool.and_true]

theorem within_ne (region : Thread → Bool) {c : Caller X} (h : c.on ≠ x) :
    c.within region x = false := by
  rw [Caller.within, decide_eq_false h, Bool.and_false]

theorem Balanced.lock_one (h : Balanced v trace s) {t : Fin n}
    (ht : (s.caller t).th.locked = true) : (s.xem (s.caller t).on).lock = 1 := by
  have hpos : 0 < count s.caller (Caller.within Thread.locked (s.caller t).on) :=
    count_pos (t := t) (by rw [within_on, ht])
  have hlock := (h.fair (s.caller t).on).lock
  have hbit := (h.fair (s.caller t).on).bit
  omega

theorem Balanced.locked_eq (h : Balanced v trace s) {t u : Fin n}
    (ht : (s.caller t).th.locked = true) (hu : (s.caller u).th.locked = true)
    (hon : (s.caller u).on = (s.caller t).on) : t = u := by
  have hlock := (h.fair (s.caller t).on).lock
  have hbit := (h.fair (s.caller t).on).bit
  have hle : count s.caller (Caller.within Thread.locked (s.caller t).on) ≤ 1 := by omega
  refine eq_of_count_le_one hle ?_ ?_
  · rw [within_on, ht]
  · rw [← hon, within_on, hu]

theorem Balanced.books (h : Balanced v trace s) {t : Fin n}
    (hroomy : (s.caller t).th.pc = .postAdd → (s.xem (s.caller t).on).value < 2147483647)
    (slot : Nat → Option Bool) : Books (s.shared (s.caller t).on) (s.caller t).th
      (next (s.shared (s.caller t).on) slot (s.caller t).th) := by
  have hx := h.fair (s.caller t).on
  exact {
    bit := Semaphore.next_bit hx.bit
    lock := Semaphore.next_lock h.lock_one hx.bit
    value := next_adds hx.nonneg hx.small (h.take t) hroomy
    range := next_range hx.nonneg hx.small (h.take t) hroomy
    same := Semaphore.next_value
    take := Semaphore.next_take
    unlock := next_stands
    posting := next_posting }

theorem Balanced.move (h : Balanced v trace s) {t : Fin n} {after : Shared × Thread}
    (hbooks : Books (s.shared (s.caller t).on) (s.caller t).th after)
    (hxem : s'.xem = Function.update s.xem (s.caller t).on (Shared.xem after.1))
    (hcaller : s'.caller = Function.update s.caller t ⟨after.2, (s.caller t).on⟩)
    (hran : ∀ pc y, ran pc y trace' = ran pc y trace + ((s.caller t).within (stands pc) y).toNat)
    (hunlocks : ∀ y, unlocks y trace' = unlocks y trace) : Balanced v trace' s' := by
  have hcount := fun region => count_update s.caller t ⟨after.2, (s.caller t).on⟩ region
  rw [← hcaller] at hcount
  refine ⟨fun y => ?_, fun u hu => ?_⟩
  · by_cases hy : (s.caller t).on = y
    · subst hy
      have hx := h.fair (s.caller t).on
      have hat : s'.xem (s.caller t).on = Shared.xem after.1 := by rw [hxem, Function.update_self]
      have hnow : ∀ region : Thread → Bool,
          count s'.caller (Caller.within region (s.caller t).on) + (region (s.caller t).th).toNat =
            count s.caller (Caller.within region (s.caller t).on) + (region after.2).toNat := by
        intro region
        have hnow := hcount (Caller.within region (s.caller t).on)
        rw [within_on, within_on region ⟨after.2, (s.caller t).on⟩] at hnow
        exact hnow
      have hlocked := hnow Thread.locked
      have hunlock := hnow (stands .waitUnlock)
      have hposting := hnow posting
      have hlock := hbooks.lock
      have hvalue := hbooks.value
      have hpost := hbooks.posting
      have hb := hx.lock
      have hv := hx.value
      have ht := hx.taken
      have hp := hx.posted
      rw [hbooks.unlock] at hunlock
      refine ⟨?_, ?_, ?_, ?_, ?_, ?_, ?_⟩
      · rw [hat]
        exact hbooks.bit
      · rw [hat]
        change after.1.lock = _
        change after.1.lock + _ = (s.xem (s.caller t).on).lock + _ at hlock
        omega
      · rw [hat]
        exact hbooks.range.1
      · rw [hat]
        exact hbooks.range.2
      · rw [hat, hran, hran, within_on, within_on]
        change after.1.value = _
        change after.1.value + _ = (s.xem (s.caller t).on).value + _ at hvalue
        push_cast
        omega
      · rw [hran, hran, within_on, within_on]
        omega
      · rw [hran, hunlocks, within_on]
        omega
    · refine (h.fair y).congr ?_ (fun region _ => ?_) (fun pc => ?_) (hunlocks y)
      · rw [hxem, Function.update_of_ne (Ne.symm hy)]
      · have hnow := hcount (Caller.within region y)
        rw [within_ne region hy,
          within_ne region (c := ⟨after.2, (s.caller t).on⟩) hy] at hnow
        exact hnow
      · rw [hran, within_ne _ hy]
        rfl
  · rw [hcaller] at hu ⊢
    rw [hxem]
    by_cases hut : u = t
    · rw [hut, Function.update_self] at hu ⊢
      rw [Function.update_self]
      exact hbooks.take hu
    · rw [Function.update_of_ne hut] at hu ⊢
      have hpos := h.take u hu
      by_cases hon : (s.caller u).on = (s.caller t).on
      · have hout : (s.caller t).th.locked = false := by
          rw [Bool.eq_false_iff]
          intro ht
          exact hut (h.locked_eq ht (by rw [Thread.locked, hu]) hon).symm
        rw [hon, Function.update_self]
        change 0 < after.1.value
        rw [hbooks.same hout]
        rw [hon] at hpos
        exact hpos
      · rw [Function.update_of_ne hon]
        exact hpos

theorem Balanced.enter (h : Balanced v trace s) {t : Fin n} (ht : (s.caller t).th.pc = .out)
    {pc : Pc} (hpc : pc = .waitLock ∨ pc = .postLock)
    (hran : ∀ pc y, ran pc y trace' = ran pc y trace)
    (hunlocks : ∀ y, unlocks y trace' =
      unlocks y trace + (decide (pc = .postLock) && decide (x = y)).toNat) :
    Balanced v trace' (s.enter t x pc) := by
  have hcount : ∀ region, count (s.enter t x pc).caller region + (region (s.caller t)).toNat =
      count s.caller region + (region ⟨(s.caller t).th.goto pc, x⟩).toNat :=
    count_update s.caller t _
  have hzero : ∀ region : Thread → Bool, region (s.caller t).th = false → ∀ y,
      (s.caller t).within region y = false := by
    intro region hregion y
    rw [Caller.within, hregion, Bool.false_and]
  refine ⟨fun y => ?_, fun u hu => ?_⟩
  · have hy := h.fair y
    have hlocked := hcount (Caller.within Thread.locked y)
    have hunlock := hcount (Caller.within (stands .waitUnlock) y)
    have hposting := hcount (Caller.within posting y)
    rw [hzero _ (by rw [Thread.locked, ht])] at hlocked
    rw [hzero _ (by rw [stands, ht]; rfl)] at hunlock
    rw [hzero _ (by rw [posting, stands, stands, ht]; rfl)] at hposting
    have hlock := hy.lock
    have htaken := hy.taken
    have hposted := hy.posted
    have hnow := hunlocks y
    refine ⟨hy.bit, ?_, hy.nonneg, hy.small, ?_, ?_, ?_⟩
    · change (s.xem y).lock = _
      rcases hpc with rfl | rfl <;>
        simp [Caller.within, Thread.locked, Thread.goto] at hlocked <;> omega
    · rw [hran, hran]
      exact hy.value
    · rw [hran, hran]
      rcases hpc with rfl | rfl <;>
        simp [Caller.within, stands, Thread.goto] at hunlock <;> omega
    · rw [hran]
      rcases hpc with rfl | rfl
      · simp [Caller.within, posting, stands, Thread.goto] at hposting hnow
        omega
      · simp [Caller.within, posting, stands, Thread.goto] at hposting hnow
        omega
  · unfold State.enter at hu ⊢
    dsimp only at hu ⊢
    by_cases hut : u = t
    · rw [hut, Function.update_self] at hu
      rcases hpc with rfl | rfl <;> cases hu
    · rw [Function.update_of_ne hut] at hu ⊢
      exact h.take u hu

omit [DecidableEq X] in
theorem signal_same (s : State n X) (t u : Fin n) :
    ((s.signal t).caller u).th.pc = (s.caller u).th.pc ∧
      ((s.signal t).caller u).on = (s.caller u).on ∧ (s.signal t).xem = s.xem := by
  rcases signal_eq s t with heq | ⟨w, -, heq⟩
  · rw [heq]
    exact ⟨rfl, rfl, rfl⟩
  · rw [heq]
    by_cases hu : u = w
    · subst hu
      dsimp only
      rw [Function.update_self]
      exact ⟨rfl, rfl, rfl⟩
    · dsimp only
      rw [Function.update_of_ne hu]
      exact ⟨rfl, rfl, rfl⟩

theorem Balanced.step (h : Balanced v trace s) (hon : s.Enabled a) (hroomy : s.Roomy a)
    (hstep : machine s a = .ok (s', ())) : Balanced v ((s, a, ()) :: trace) s' := by
  have hran := fun pc x => ran_cons pc x s a trace
  have hunlocks := fun x => unlocks_cons x s a trace
  cases a with
  | xemWait t x =>
    cases Except.ok.inj hstep
    refine h.enter hon (.inl rfl) hran fun y => ?_
    rw [hunlocks]
    rfl
  | xemUnlock t x =>
    cases Except.ok.inj hstep
    exact h.enter hon (.inr rfl) hran hunlocks
  | go t =>
    cases Except.ok.inj hstep
    have hsame := signal_same s t
    have hsignal : Balanced v trace (s.signal t) :=
      h.congr (hsame t).2.2 (fun u => (hsame u).1) (fun u => (hsame u).2.1) (fun _ _ => rfl)
        fun _ => rfl
    obtain ⟨hpc, hat, hxem⟩ := hsame t
    refine hsignal.move (hsignal.books (t := t) ?_ _) rfl rfl (fun pc y => ?_) hunlocks
    · rw [hpc, hat, hxem]
      exact hroomy
    · rw [hran]
      dsimp only
      rw [Caller.within, Caller.within, stands, stands, hpc, hat]
  | kill victims =>
    cases Except.ok.inj hstep
    refine h.congr rfl (fun t => ?_) (fun t => ?_) hran hunlocks
    · unfold State.kill
      dsimp only
      split <;> rfl
    · unfold State.kill
      dsimp only
      split <;> rfl
  | mark t =>
    cases Except.ok.inj hstep
    exact h.congr rfl (fun _ => rfl) (fun _ => rfl) hran hunlocks
  | dispatch t => cases hstep
  | reuse t =>
    cases Except.ok.inj hstep
    exact h.congr rfl (fun _ => rfl) (fun _ => rfl) hran hunlocks

theorem Balanced.accounted (h : Balanced v trace s) : Accounted v trace s := by
  refine ⟨fun x => (h.fair x).nonneg, fun x => (h.fair x).value, fun x => ?_⟩
  have hnonneg := (h.fair x).nonneg
  have hvalue := (h.fair x).value
  have htaken := (h.fair x).taken
  have hposted := (h.fair x).posted
  omega

def holds (th : Thread) : Bool :=
  match th.pc with
  | .condRelease | .condChan | .condSleep | .sched | .tidy | .release => true
  | _ => false

theorem next_holds {sh : Shared} {slot : Nat → Option Bool} {th : Thread}
    (hheld : holds th = true → sh.ptable = true) :
    (next sh slot th).1.ptable.toNat + (holds th).toNat =
      sh.ptable.toNat + (holds (next sh slot th).2).toNat := by
  obtain ⟨pc, state, chan⟩ := th
  cases pc <;> simp only [next] <;> (try split) <;> simp_all [holds, Thread.goto]

/-- Threads leave the CPU only in `Cond_wait`, and a `Cond_signal` wakes a thread that is
asleep. -/
structure Intact (s : State n X) : Prop where
  ok : ∀ t, (s.caller t).th.Ok
  wake : ∀ t u, (s.caller t).th.pc = .wake u →
    ∃ w : Fin n, w.val = u ∧ (s.caller w).asleep (s.caller t).on = true
  ptable : s.ptable.toNat = count s.caller fun c => holds c.th

theorem asleep_iff {c : Caller X} : c.asleep x = true ↔ c.th.asleep = true ∧ c.on = x := by
  rw [Caller.asleep, Bool.and_eq_true, decide_eq_true_iff]

omit [DecidableEq X] in
theorem awake_ok {c : Caller X} (hok : c.th.Ok) (hsleep : c.th.state = .sleeping) :
    c.awake.th.Ok := by
  obtain ⟨⟨pc, state, chan⟩, on⟩ := c
  cases pc <;> simp_all [Thread.Ok, Caller.awake]

theorem Intact.asleep (h : Intact s) {t u : Fin n} (ht : (s.caller t).th.pc = .wake u.val) :
    (s.caller u).th.asleep = true ∧ (s.caller u).on = (s.caller t).on := by
  obtain ⟨w, hw, hasleep⟩ := h.wake t u.val ht
  rw [Fin.ext hw] at hasleep
  exact asleep_iff.mp hasleep

theorem Change.ok {u : Fin n} {c : Caller X} (hc : Change s a u c) (h : Intact s) : c.th.Ok := by
  have hok := h.ok u
  cases hc with
  | same => exact hok
  | awake hcause =>
    rcases hcause with ⟨_, -, -, hsleep⟩ | ⟨t, -, ht⟩
    · exact awake_ok hok hsleep
    · exact awake_ok hok (Semaphore.asleep_cases hok (h.asleep ht).1).2.1
  | enter hout hpc =>
    rw [Thread.Ok, hout] at hok
    rcases hpc with rfl | rfl <;> exact hok
  | next hgo hc =>
    rcases hc with rfl | ⟨rfl, hpc⟩
    · exact Semaphore.next_ok hok
    · -- a thread that signals is not asleep itself
      obtain ⟨hself, -⟩ := Semaphore.asleep_cases hok (h.asleep hpc).1
      rw [hpc] at hself
      rcases hself with hself | hself <;> cases hself

theorem Change.asleep {u : Fin n} {c : Caller X} (hc : Change s a u c) (hok : (s.caller u).th.Ok)
    (hkill : ∀ victims, a = .kill victims → victims u = false)
    (hsignal : ∀ t, a = .go t → (s.caller t).th.pc ≠ .wake u.val)
    (hasleep : (s.caller u).asleep x = true) : c.asleep x = true := by
  obtain ⟨hth, hx⟩ := asleep_iff.mp hasleep
  cases hc with
  | same => exact hasleep
  | awake hcause =>
    rcases hcause with ⟨victims, ha, hvictim, -⟩ | ⟨t, ha, ht⟩
    · rw [hkill victims ha] at hvictim
      cases hvictim
    · exact absurd ht (hsignal t ha)
  | enter hout hpc =>
    obtain ⟨hself, -⟩ := Semaphore.asleep_cases hok hth
    rw [hout] at hself
    rcases hself with hself | hself <;> cases hself
  | next hgo hc =>
    rcases hc with rfl | ⟨rfl, hpc⟩
    · exact asleep_iff.mpr ⟨Semaphore.next_asleep hok hth, hx⟩
    · exact absurd hpc (hsignal u hgo)

theorem wake_of_next {t : Fin n} {i : Nat} (ht : ((s.go t).caller t).th.pc = .wake i) :
    (s.caller t).th.pc = .scan i ∧ ((s.go t).caller t).on = (s.caller t).on ∧
      ∃ w : Fin n, w.val = i ∧ (s.caller w).asleep (s.caller t).on = true := by
  obtain ⟨hpc, hon, -⟩ := signal_same s t t
  unfold State.go State.run at ht ⊢
  simp only [Function.update_self] at ht ⊢
  obtain ⟨hscan, hslot⟩ := Semaphore.next_wake ht
  rw [hpc] at hscan
  have hsame : s.signal t = s := by
    unfold State.signal
    rw [hscan]
  rw [hsame] at hslot ⊢
  simp only [State.slot, Option.dite_none_right_eq_some, Option.some.injEq] at hslot
  obtain ⟨hi, hasleep⟩ := hslot
  exact ⟨hscan, rfl, ⟨i, hi⟩, rfl, hasleep⟩

theorem Intact.wake_step (h : Intact s) (hbal : Balanced v trace s) (hon : s.Enabled a)
    (hspared : s.Spared a) (hstep : machine s a = .ok (s', ())) {t : Fin n} {i : Nat}
    (ht : (s'.caller t).th.pc = .wake i) :
    ∃ w : Fin n, w.val = i ∧ (s'.caller w).asleep (s'.caller t).on = true := by
  have hchange := change hon hstep
  by_cases ha : a = .go t
  · subst ha
    cases Except.ok.inj hstep
    obtain ⟨hscan, hat, w, hw, hasleep⟩ := wake_of_next ht
    refine ⟨w, hw, ?_⟩
    rw [hat]
    refine (hchange w).asleep (h.ok w) (fun _ hkill => (nomatch hkill)) (fun u hu => ?_) hasleep
    rw [← Act.go.inj hu, hscan]
    exact nofun
  · have hbefore : (s.caller t).th.pc = .wake i ∧ (s'.caller t).on = (s.caller t).on := by
      have hc := hchange t
      generalize s'.caller t = c at hc ht
      cases hc with
      | same => exact ⟨ht, rfl⟩
      | awake _ => exact ⟨ht, rfl⟩
      | enter _ hpc => rcases hpc with rfl | rfl <;> cases ht
      | next hgo _ => exact absurd hgo ha
    obtain ⟨w, hw, hasleep⟩ := h.wake t i hbefore.1
    subst hw
    refine ⟨w, rfl, ?_⟩
    rw [hbefore.2]
    refine (hchange w).asleep (h.ok w) (fun victims hkill => ?_) (fun u hu hpc => ?_) hasleep
    · subst hkill
      rw [Bool.eq_false_iff]
      exact fun hvictim => hspared w t hvictim hbefore.1
    · have hsame := (h.asleep hbefore.1).2.symm.trans (h.asleep hpc).2
      have hut := hbal.locked_eq (t := t) (u := u) (by rw [Thread.locked, hbefore.1])
        (by rw [Thread.locked, hpc]) hsame.symm
      exact ha (hut ▸ hu)

theorem Intact.ptable_of_holds (h : Intact s) {t : Fin n} (ht : holds (s.caller t).th = true) :
    s.ptable = true := by
  have hpos : 0 < count s.caller fun c => holds c.th := count_pos (t := t) ht
  have hcount := h.ptable
  cases hptable : s.ptable with
  | true => rfl
  | false =>
    rw [hptable, Bool.toNat_false] at hcount
    omega

theorem Intact.ptable_step (h : Intact s) (hon : s.Enabled a)
    (hstep : machine s a = .ok (s', ())) :
    s'.ptable.toNat = count s'.caller fun c => holds c.th := by
  have hbefore := h.ptable
  have hcongr : ∀ {caller : Fin n → Caller X}, (∀ t, (caller t).th.pc = (s.caller t).th.pc) →
      (count caller fun c => holds c.th) = count s.caller fun c => holds c.th := by
    intro caller hpc
    apply count_congr
    intro t
    rw [holds, holds, hpc]
  have henter : ∀ {t x pc}, (s.caller t).th.pc = .out → pc = .waitLock ∨ pc = .postLock →
      s.ptable.toNat = count (s.enter t x pc).caller fun c => holds c.th := by
    intro t x pc hout hpc
    have hcount := count_update s.caller t ⟨(s.caller t).th.goto pc, x⟩ fun c => holds c.th
    rw [show holds (s.caller t).th = false by rw [holds, hout]] at hcount
    rcases hpc with rfl | rfl
    · exact hbefore.trans hcount.symm
    · exact hbefore.trans hcount.symm
  cases a with
  | xemWait t x =>
    cases Except.ok.inj hstep
    exact henter hon (.inl rfl)
  | xemUnlock t x =>
    cases Except.ok.inj hstep
    exact henter hon (.inr rfl)
  | go t =>
    cases Except.ok.inj hstep
    have hsame := signal_same s t
    have hptable : (s.signal t).ptable = s.ptable := by
      rcases signal_eq s t with heq | ⟨_, _, heq⟩ <;> rw [heq]
    have hcalls := hcongr fun u => (hsame u).1
    have hheld : holds ((s.signal t).caller t).th = true → (s.signal t).ptable = true := by
      intro hheld
      rw [holds, (hsame t).1] at hheld
      exact hptable.trans (h.ptable_of_holds hheld)
    unfold State.go State.run
    generalize s.signal t = s at *
    have hnext := @next_holds (s.shared (s.caller t).on) (s.slot (s.caller t).on)
      (s.caller t).th hheld
    have hcount := count_update s.caller t ⟨(next (s.shared (s.caller t).on)
      (s.slot (s.caller t).on) (s.caller t).th).2, (s.caller t).on⟩ fun c => holds c.th
    change _ = s.ptable.toNat + _ at hnext
    dsimp only at hcount ⊢
    rw [hptable] at hnext
    omega
  | kill victims =>
    cases Except.ok.inj hstep
    refine hbefore.trans (hcongr fun t => ?_).symm
    unfold State.kill
    dsimp only
    split <;> rfl
  | mark t =>
    cases Except.ok.inj hstep
    exact hbefore
  | dispatch t => cases hstep
  | reuse t =>
    cases Except.ok.inj hstep
    exact hbefore

theorem intact_start (v : X → Int) (on : Fin n → X) : Intact (start v on) := by
  refine ⟨fun _ => rfl, fun t u h => ?_, ?_⟩
  · cases h
  · exact (count_eq_zero fun _ => rfl).symm

theorem Intact.step (h : Intact s) (hbal : Balanced v trace s) (hon : s.Enabled a)
    (hspared : s.Spared a) (hstep : machine s a = .ok (s', ())) : Intact s' :=
  ⟨fun u => (change hon hstep u).ok h, fun _ _ ht => h.wake_step hbal hon hspared hstep ht,
    h.ptable_step hon hstep⟩

theorem Intact.no_fault (h : Intact s) (hon : s.Enabled a) : ∃ s', machine s a = .ok (s', ()) := by
  cases a with
  | xemWait | xemUnlock | go | kill | mark | reuse => exact ⟨_, rfl⟩
  | dispatch t =>
    exfalso
    obtain ⟨hfree, hrunnable, hoff⟩ := hon
    have hok := h.ok t
    have hsched : (s.caller t).th.pc = .sched := by
      cases hpc : (s.caller t).th.pc with
      | sched => rfl
      | off => exact absurd hpc hoff
      | _ =>
        simp [Thread.Ok, hpc, hrunnable] at hok
    have hheld := h.ptable_of_holds (t := t) (by rw [holds, hsched])
    cases hfree.symm.trans hheld

end

end Xv6.Killed

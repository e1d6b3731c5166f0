import Xv6.Lib.Transition
import Xv6.Lib.Threads

/-! The readers-writer lock of `rwlock.c`, run by any number of threads. Each statement is
a step; `xem_wait` and `xem_unlock` are atomic steps of a counting semaphore, and a thread
whose semaphore is not positive has no step. A thread releases what it acquired. -/
namespace Xv6

open Transition Threads

structure Rwlock where
  readers : Int
  lock : Int
  writelock : Int
  deriving DecidableEq

def Rwlock.init : Rwlock := ⟨0, 1, 1⟩

namespace Rwlock

/-- The statement a thread is about to run: of `rwlock_acquire_readlock`, of
`rwlock_release_readlock`, or of the two writer calls. -/
inductive Pc where
  | out
  | readWait | readCount | readTest | readFirst | readPost | reading
  | doneWait | doneCount | doneTest | doneLast | donePost
  | writeWait | writing | writePost
  deriving DecidableEq, Repr

def Pc.Ready (rw : Rwlock) : Pc → Prop
  | .out => False
  | .readWait | .doneWait => 0 < rw.lock
  | .readFirst | .writeWait => 0 < rw.writelock
  | .readCount | .readTest | .readPost | .reading | .doneCount | .doneTest | .doneLast
  | .donePost | .writing | .writePost => True

instance (rw : Rwlock) : (pc : Pc) → Decidable (pc.Ready rw)
  | .out => inferInstanceAs (Decidable False)
  | .readWait | .doneWait | .readFirst | .writeWait => inferInstanceAs (Decidable (_ < _))
  | .readCount | .readTest | .readPost | .reading | .doneCount | .doneTest | .doneLast
  | .donePost | .writing | .writePost => inferInstanceAs (Decidable True)

def next (rw : Rwlock) : Pc → Rwlock × Pc
  | .out => (rw, .out)
  | .readWait => ({ rw with lock := rw.lock - 1 }, .readCount)
  | .readCount => ({ rw with readers := rw.readers + 1 }, .readTest)
  | .readTest => (rw, if rw.readers = 1 then .readFirst else .readPost)
  | .readFirst => ({ rw with writelock := rw.writelock - 1 }, .readPost)
  | .readPost => ({ rw with lock := rw.lock + 1 }, .reading)
  | .reading => (rw, .doneWait)
  | .doneWait => ({ rw with lock := rw.lock - 1 }, .doneCount)
  | .doneCount => ({ rw with readers := rw.readers - 1 }, .doneTest)
  | .doneTest => (rw, if rw.readers = 0 then .doneLast else .donePost)
  | .doneLast => ({ rw with writelock := rw.writelock + 1 }, .donePost)
  | .donePost => ({ rw with lock := rw.lock + 1 }, .out)
  | .writeWait => ({ rw with writelock := rw.writelock - 1 }, .writing)
  | .writing => (rw, .writePost)
  | .writePost => ({ rw with writelock := rw.writelock + 1 }, .out)

structure State (T : Type) where
  rw : Rwlock
  pc : T → Pc

inductive Act (T : Type) where
  | acquireRead (t : T)
  | acquireWrite (t : T)
  | go (t : T)

def start {T : Type} : State T := ⟨init, fun _ => .out⟩

variable {T : Type} [DecidableEq T]

namespace State

def Enabled (s : State T) : Act T → Prop
  | .acquireRead t | .acquireWrite t => s.pc t = .out
  | .go t => (s.pc t).Ready s.rw

instance (s : State T) : (a : Act T) → Decidable (s.Enabled a)
  | .acquireRead _ | .acquireWrite _ => inferInstanceAs (Decidable (_ = _))
  | .go t => inferInstanceAs (Decidable ((s.pc t).Ready s.rw))

def goto (s : State T) (t : T) (after : Rwlock × Pc) : State T :=
  ⟨after.1, Function.update s.pc t after.2⟩

def step (s : State T) : Act T → State T
  | .acquireRead t => s.goto t (s.rw, .readWait)
  | .acquireWrite t => s.goto t (s.rw, .writeWait)
  | .go t => s.goto t (next s.rw (s.pc t))

end State

open State

def machine : Machine (State T) (Act T) Unit Empty := fun s a => .ok (s.step a, ())

/-- From the return of an acquire to the statement that gives the lock up. -/
def State.HoldsRead (s : State T) (t : T) : Prop :=
  s.pc t = .reading ∨ s.pc t = .doneWait ∨ s.pc t = .doneCount

def State.HoldsWrite (s : State T) (t : T) : Prop := s.pc t = .writing ∨ s.pc t = .writePost

/-- Between `xem_wait(&rwlock->lock)` and its `xem_unlock`. -/
def Pc.inside : Pc → Bool
  | .readCount | .readTest | .readFirst | .readPost => true
  | .doneCount | .doneTest | .doneLast | .donePost => true
  | _ => false

def Pc.countedIn : Pc → Bool
  | .readTest | .readFirst | .readPost | .reading | .doneWait | .doneCount => true
  | _ => false

/-- Past the statement that takes the write semaphore for the readers, and before the one
that gives it back. -/
def Pc.sharing : Pc → Bool
  | .readPost | .reading | .doneWait | .doneCount | .doneTest | .doneLast => true
  | _ => false

def Pc.writer : Pc → Bool
  | .writing | .writePost => true
  | _ => false

theorem next_nonneg {rw : Rwlock} {a : Pc} (hready : a.Ready rw) (hlock : 0 ≤ rw.lock)
    (hwrite : 0 ≤ rw.writelock) : 0 ≤ (next rw a).1.lock ∧ 0 ≤ (next rw a).1.writelock := by
  cases a <;> simp only [next, Pc.Ready] at * <;> omega

theorem next_inside (rw : Rwlock) (a : Pc) :
    (next rw a).1.lock + (next rw a).2.inside.toNat = rw.lock + a.inside.toNat := by
  cases a <;> simp only [next] <;> (try split) <;> simp [Pc.inside]

theorem next_countedIn (rw : Rwlock) (a : Pc) :
    (next rw a).1.readers + a.countedIn.toNat = rw.readers + (next rw a).2.countedIn.toNat := by
  cases a <;> simp only [next] <;> (try split) <;> simp [Pc.countedIn]

theorem next_first {rw : Rwlock} {a : Pc} (h : (next rw a).2 = .readFirst) :
    (next rw a).1.readers = 1 := by
  cases a <;> simp only [next, reduceCtorEq] at h ⊢
  all_goals
    split at h
    · first | assumption | cases h
    · cases h

theorem next_last {rw : Rwlock} {a : Pc} (h : (next rw a).2 = .doneLast) :
    (next rw a).1.readers = 0 := by
  cases a <;> simp only [next, reduceCtorEq] at h ⊢
  all_goals
    split at h
    · first | assumption | cases h
    · cases h

theorem next_readers {rw : Rwlock} {a : Pc} (h : a.inside = false) :
    (next rw a).1.readers = rw.readers := by
  cases a <;> first | rfl | cases h

/-- The statements at which the readers take up or give up the write semaphore, or join
or leave those who share it. -/
theorem next_sharing (rw : Rwlock) (a : Pc) :
    (next rw a).2.sharing = a.sharing ∧
      (next rw a).1.writelock + (next rw a).2.writer.toNat = rw.writelock + a.writer.toNat ∨
    a = .readTest ∧ rw.readers ≠ 1 ∨ a = .readFirst ∨ a = .doneTest ∧ rw.readers ≠ 0 ∨
    a = .doneLast := by
  cases a
  case readTest =>
    by_cases hone : rw.readers = 1
    · simp [next, hone, Pc.sharing, Pc.writer]
    · exact .inr (.inl ⟨rfl, hone⟩)
  case doneTest =>
    by_cases hzero : rw.readers = 0
    · simp [next, hzero, Pc.sharing, Pc.writer]
    · exact .inr (.inr (.inr (.inl ⟨rfl, hzero⟩)))
  all_goals simp [next, Pc.sharing, Pc.writer]

variable [Fintype T]

structure State.Sound (s : State T) : Prop where
  lock_nonneg : 0 ≤ s.rw.lock
  writelock_nonneg : 0 ≤ s.rw.writelock
  lock : s.rw.lock + count s.pc Pc.inside = 1
  readers : s.rw.readers = count s.pc Pc.countedIn
  writelock : s.rw.writelock + count s.pc Pc.writer +
    (if count s.pc Pc.sharing = 0 then 0 else 1) = 1
  first : ∀ t, s.pc t = .readFirst → s.rw.readers = 1
  last : ∀ t, s.pc t = .doneLast → s.rw.readers = 0

omit [DecidableEq T] in
theorem sound_start : (start : State T).Sound := by
  have hnone : ∀ region : Pc → Bool, region .out = false →
      count (start : State T).pc region = 0 := fun region h => count_eq_zero fun _ => h
  refine ⟨Int.one_nonneg, Int.one_nonneg, ?_, ?_, ?_, ?_, ?_⟩
  · rw [hnone Pc.inside rfl]
    rfl
  · rw [hnone Pc.countedIn rfl]
    rfl
  · rw [hnone Pc.writer rfl, hnone Pc.sharing rfl]
    rfl
  · intro t h
    cases h
  · intro t h
    cases h

omit [DecidableEq T] in
/-- When nobody is inside an operation or holds the lock, it is as `rwlock_init` left it. -/
theorem State.Sound.idle {s : State T} (h : s.Sound) (hidle : ∀ t, s.pc t = .out) :
    s.rw = init := by
  have hnone : ∀ region : Pc → Bool, region .out = false → count s.pc region = 0 := by
    intro region hregion
    exact count_eq_zero fun t => by rw [hidle t, hregion]
  have hlock := h.lock
  have hreaders := h.readers
  have hwrite := h.writelock
  rw [hnone Pc.inside rfl] at hlock
  rw [hnone Pc.countedIn rfl] at hreaders
  rw [hnone Pc.writer rfl, hnone Pc.sharing rfl] at hwrite
  cases hrw : s.rw with
  | mk readers lock writelock =>
    rw [hrw] at hlock hreaders hwrite
    simp only [init, Rwlock.mk.injEq]
    simp at hlock hreaders hwrite
    exact ⟨hreaders, hlock, hwrite⟩

omit [DecidableEq T] in
theorem State.Sound.alone {s : State T} (h : s.Sound) {t u : T}
    (ht : (s.pc t).inside = true) (hu : (s.pc u).inside = true) : t = u := by
  have hlock := h.lock
  have hnonneg := h.lock_nonneg
  exact eq_of_count_le_one (by omega) ht hu

theorem sharing_cases {a : Pc} (h : a.sharing = true) :
    a.countedIn = true ∨ a.inside = true := by
  cases a <;> first | exact .inl rfl | exact .inr rfl | cases h

theorem sharing_of_countedIn {a : Pc} (h : a.countedIn = true) (hout : a.inside = false) :
    a.sharing = true := by
  revert h hout
  cases a <;> decide

omit [DecidableEq T] in
theorem State.Sound.first_sharing {s : State T} (h : s.Sound) {t : T}
    (ht : s.pc t = .readFirst) : count s.pc Pc.sharing = 0 := by
  have hone := h.first t ht
  rw [h.readers] at hone
  have hcounted : (s.pc t).countedIn = true := by rw [ht]; rfl
  apply count_eq_zero
  intro u
  by_contra hu
  rw [Bool.not_eq_false] at hu
  have hut : u = t := by
    rcases sharing_cases hu with hin | hin
    · exact eq_of_count_le_one (by omega) hin hcounted
    · exact h.alone hin (by rw [ht]; rfl)
  rw [hut, ht] at hu
  cases hu

omit [DecidableEq T] in
theorem State.Sound.last_sharing {s : State T} (h : s.Sound) {t u : T}
    (ht : s.pc t = .doneLast) (hu : (s.pc u).sharing = true) : u = t := by
  have hzero := h.last t ht
  rw [h.readers] at hzero
  rcases sharing_cases hu with hin | hin
  · have := count_pos hin
    omega
  · exact h.alone hin (by rw [ht]; rfl)

/-- A thread under the semaphore `lock` that is not the only reader: another one shares
the write semaphore. -/
theorem State.Sound.other_sharing {s : State T} (h : s.Sound) {t : T}
    (ht : (s.pc t).inside = true) (hmore : (s.pc t).countedIn.toNat < s.rw.readers) :
    ∃ u, u ≠ t ∧ (s.pc u).sharing = true := by
  rw [h.readers] at hmore
  have hrest := count_update s.pc t .out Pc.countedIn
  rw [show Pc.out.countedIn = false from rfl, Bool.toNat_false] at hrest
  have hpos : 0 < count (Function.update s.pc t .out) Pc.countedIn := by omega
  obtain ⟨u, hu⟩ := exists_of_count_pos hpos
  have hut : u ≠ t := by
    rintro rfl
    rw [Function.update_self] at hu
    cases hu
  rw [Function.update_of_ne hut] at hu
  refine ⟨u, hut, sharing_of_countedIn hu ?_⟩
  by_contra hin
  exact hut (h.alone (Bool.not_eq_false _ ▸ hin) ht)

omit [Fintype T] in
theorem goto_pc (s : State T) (t u : T) (after : Rwlock × Pc) :
    (s.goto t after).pc u = if u = t then after.2 else s.pc u := by
  simp [State.goto, Function.update_apply]

/-- Who takes up or gives up the write semaphore for the readers is the only one of them. -/
theorem State.Sound.writelock_go {s : State T} (h : s.Sound) (t : T) :
    (next s.rw (s.pc t)).1.writelock +
      count (Function.update s.pc t (next s.rw (s.pc t)).2) Pc.writer +
      (if count (Function.update s.pc t (next s.rw (s.pc t)).2) Pc.sharing = 0 then 0 else 1) =
    1 := by
  have hwriter := count_update s.pc t (next s.rw (s.pc t)).2 Pc.writer
  have hsharing := count_update s.pc t (next s.rw (s.pc t)).2 Pc.sharing
  have hold := h.writelock
  have hcounted : ∀ {u}, (s.pc u).countedIn = true → 0 < s.rw.readers := by
    intro u hu
    have := count_pos hu
    have := h.readers
    omega
  rcases next_sharing s.rw (s.pc t) with ⟨hsame, hwrite⟩ | ⟨ha, hmore⟩ | ha | ⟨ha, hmore⟩ | ha
  · rw [hsame] at hsharing
    omega
  · have hpos := hcounted (u := t) (by rw [ha]; rfl)
    obtain ⟨u, -, hu⟩ := h.other_sharing (t := t) (by rw [ha]; rfl) (by
      rw [ha, show Pc.readTest.countedIn = true from rfl, Bool.toNat_true]
      omega)
    have := count_pos hu
    rw [ha] at hwriter hsharing ⊢
    simp only [next, hmore, if_false, Pc.writer, Pc.sharing, Bool.toNat_true,
      Bool.toNat_false] at hwriter hsharing ⊢
    omega
  · have hnone := h.first_sharing ha
    rw [ha] at hwriter hsharing ⊢
    simp only [next, Pc.writer, Pc.sharing, Bool.toNat_true, Bool.toNat_false] at hwriter hsharing ⊢
    omega
  · obtain ⟨u, hut, hu⟩ := h.other_sharing (t := t) (by rw [ha]; rfl) (by
      rw [ha, show Pc.doneTest.countedIn = false from rfl, Bool.toNat_false]
      have := h.readers
      omega)
    have hstill : 0 < count (Function.update s.pc t .donePost) Pc.sharing := by
      apply count_pos (t := u)
      rwa [Function.update_of_ne hut]
    have := count_pos hu
    rw [ha] at hwriter ⊢
    simp only [next, hmore, if_false, Pc.writer, Bool.toNat_false] at hwriter ⊢
    omega
  · have hnone : count (Function.update s.pc t .donePost) Pc.sharing = 0 := by
      apply count_eq_zero
      intro u
      by_cases hut : u = t
      · rw [hut, Function.update_self]
        rfl
      · rw [Function.update_of_ne hut]
        exact Bool.eq_false_iff.mpr fun hu => hut (h.last_sharing ha hu)
    have hself : (s.pc t).sharing = true := by rw [ha]; rfl
    have := count_pos hself
    rw [ha] at hwriter ⊢
    simp only [next, Pc.writer, Bool.toNat_false] at hwriter ⊢
    omega

theorem State.Sound.go {s : State T} (h : s.Sound) {t : T} (hready : (s.pc t).Ready s.rw) :
    (s.goto t (next s.rw (s.pc t))).Sound := by
  obtain ⟨hlock, hwrite⟩ := next_nonneg hready h.lock_nonneg h.writelock_nonneg
  have hinside := count_update s.pc t (next s.rw (s.pc t)).2 Pc.inside
  have hcounted := count_update s.pc t (next s.rw (s.pc t)).2 Pc.countedIn
  have hlocal := next_inside s.rw (s.pc t)
  have hlocal' := next_countedIn s.rw (s.pc t)
  have hsum := h.lock
  have hreaders := h.readers
  -- a thread at `readFirst` or `doneLast` excludes the others from the counter
  have hkeep : ∀ u, u ≠ t → (s.pc u).inside = true →
      (next s.rw (s.pc t)).1.readers = s.rw.readers := by
    intro u hut hu
    apply next_readers
    exact Bool.eq_false_iff.mpr fun ht => hut (h.alone hu ht)
  refine ⟨hlock, hwrite, ?_, ?_, h.writelock_go t, ?_, ?_⟩
  · simp only [State.goto]
    omega
  · simp only [State.goto]
    omega
  · intro u hu
    rw [goto_pc] at hu
    split at hu
    · exact next_first hu
    · rename_i hut
      exact (hkeep u hut (by rw [hu]; rfl)).trans (h.first u hu)
  · intro u hu
    rw [goto_pc] at hu
    split at hu
    · exact next_last hu
    · rename_i hut
      exact (hkeep u hut (by rw [hu]; rfl)).trans (h.last u hu)

theorem State.Sound.call {s : State T} (h : s.Sound) {t : T} (ht : s.pc t = .out) {b : Pc}
    (hb : b = .readWait ∨ b = .writeWait) : (s.goto t (s.rw, b)).Sound := by
  have hsame : ∀ region : Pc → Bool, region .out = region b →
      count (s.goto t (s.rw, b)).pc region = count s.pc region := by
    intro region hregion
    have := count_update s.pc t b region
    rw [ht, hregion] at this
    exact Nat.add_right_cancel this
  have hpc : ∀ u a, (s.goto t (s.rw, b)).pc u = a → a ≠ b → s.pc u = a := by
    intro u a hu hne
    rw [goto_pc] at hu
    split at hu
    · exact absurd hu.symm hne
    · exact hu
  refine ⟨h.lock_nonneg, h.writelock_nonneg, ?_, ?_, ?_, ?_, ?_⟩
  · rw [hsame _ (by rcases hb with rfl | rfl <;> rfl)]
    exact h.lock
  · rw [hsame _ (by rcases hb with rfl | rfl <;> rfl)]
    exact h.readers
  · rw [hsame _ (by rcases hb with rfl | rfl <;> rfl),
      hsame _ (by rcases hb with rfl | rfl <;> rfl)]
    exact h.writelock
  · intro u hu
    exact h.first u (hpc u _ hu (by rcases hb with rfl | rfl <;> simp))
  · intro u hu
    exact h.last u (hpc u _ hu (by rcases hb with rfl | rfl <;> simp))

theorem sound_reaches {s : State T} (h : Reaches machine Enabled start s) : s.Sound := by
  apply h.invariant State.Sound sound_start
  intro state act next out hstate henabled hstep
  injection hstep with hstep
  injection hstep with hnext
  rw [← hnext]
  cases act with
  | acquireRead t => exact hstate.call henabled (.inl rfl)
  | acquireWrite t => exact hstate.call henabled (.inr rfl)
  | go t => exact hstate.go henabled

/-- Writers exclude each other and the readers, the counter counts the readers, and an
idle lock is in its initial state. -/
theorem rwlock_excludes {s : State T} (h : Reaches machine Enabled start s) :
    (∀ t u, s.HoldsWrite t → s.HoldsWrite u → t = u) ∧
    (∀ t u, s.HoldsWrite t → ¬ s.HoldsRead u) ∧
    s.rw.readers = count s.pc Pc.countedIn ∧
    ((∀ t, s.pc t = .out) → s.rw = init) := by
  have hsound := sound_reaches h
  have hwrite := hsound.writelock
  have hnonneg := hsound.writelock_nonneg
  have hwriter : ∀ {t}, s.HoldsWrite t → (s.pc t).writer = true := by
    rintro t (ht | ht) <;> rw [ht] <;> rfl
  refine ⟨?_, ?_, hsound.readers, hsound.idle⟩
  · intro t u ht hu
    have hone : count s.pc Pc.writer ≤ 1 := by
      split at hwrite <;> omega
    exact eq_of_count_le_one hone (hwriter ht) (hwriter hu)
  · intro t u ht hu
    have hshare : (s.pc u).sharing = true := by
      rcases hu with hu | hu | hu <;> rw [hu] <;> rfl
    have := count_pos (hwriter ht)
    have := count_pos hshare
    split at hwrite <;> omega

/-- Two readers hold the lock while a writer waits. -/
theorem rwlock_excludes_reading : ∃ s : State (Fin 3), Reaches machine Enabled start s ∧
    (s.HoldsRead 0 ∧ s.HoldsRead 1 ∧ s.pc 2 = .writeWait) ∧ s.rw.readers = 2 ∧
    (∀ t u, s.HoldsWrite t → s.HoldsWrite u → t = u) := by
  obtain ⟨s, hreach, htest⟩ := exists_reaches machine Enabled start
    [.acquireRead 0, .go 0, .go 0, .acquireWrite 2, .acquireRead 1, .go 0, .go 0, .go 0, .go 1,
      .go 1, .go 1, .go 1]
    (fun s : State (Fin 3) => decide ((s.pc 0 = .reading ∧ s.pc 1 = .reading ∧
      s.pc 2 = .writeWait) ∧ s.rw.readers = 2)) (by decide +kernel)
  obtain ⟨⟨h0, h1, h2⟩, hreaders⟩ := of_decide_eq_true htest
  exact ⟨s, hreach, ⟨.inl h0, .inl h1, h2⟩, hreaders, (rwlock_excludes hreach).1⟩

omit [DecidableEq T] in
theorem State.Sound.stuck {s : State T} (h : s.Sound)
    (hstuck : ∀ t, s.pc t ≠ .out → ¬ (s.pc t).Ready s.rw) :
    count s.pc Pc.inside = 0 ∧ s.rw.writelock = 1 := by
  have hno : ∀ {t} {a : Pc}, s.pc t = a → a ≠ .out → ¬ a.Ready s.rw := by
    rintro t a rfl
    exact hstuck t
  have hwriter : count s.pc Pc.writer = 0 := by
    apply count_eq_zero
    intro t
    by_contra hw
    cases hpc : s.pc t <;> rw [hpc] at hw <;> first
      | exact hw rfl
      | exact hno hpc (by decide) trivial
  have hwrite := h.writelock
  -- a first reader that waits finds the write semaphore free
  have hinside : count s.pc Pc.inside = 0 := by
    apply count_eq_zero
    intro t
    by_contra hin
    cases hpc : s.pc t <;> rw [hpc] at hin
    case readFirst =>
      have hshare := h.first_sharing hpc
      have hblocked := hno hpc (by decide)
      simp only [Pc.Ready] at hblocked
      rw [hwriter, hshare, if_pos rfl] at hwrite
      omega
    all_goals first
      | exact hin rfl
      | exact hno hpc (by decide) trivial
  have hlock := h.lock
  have hshare : count s.pc Pc.sharing = 0 := by
    apply count_eq_zero
    intro t
    by_contra hsh
    cases hpc : s.pc t <;> rw [hpc] at hsh
    case doneWait =>
      have hblocked := hno hpc (by decide)
      simp only [Pc.Ready] at hblocked
      omega
    all_goals first
      | exact hsh rfl
      | exact hno hpc (by decide) trivial
  rw [hwriter, hshare, if_pos rfl] at hwrite
  exact ⟨hinside, by omega⟩

/-- As long as a thread is inside an operation or holds the lock, one of those has a step. -/
theorem rwlock_progress {s : State T} (h : Reaches machine Enabled start s)
    (hbusy : ∃ t, s.pc t ≠ .out) : ∃ t, s.pc t ≠ .out ∧ s.Enabled (.go t) := by
  by_contra hnone
  have hstuck : ∀ t, s.pc t ≠ .out → ¬ (s.pc t).Ready s.rw := by
    intro t ht hready
    exact hnone ⟨t, ht, hready⟩
  have hsound := sound_reaches h
  obtain ⟨hinside, hwrite⟩ := hsound.stuck hstuck
  have hlock := hsound.lock
  obtain ⟨t, ht⟩ := hbusy
  apply hstuck t ht
  cases hpc : s.pc t <;> simp only [Pc.Ready]
  case out => exact ht hpc
  all_goals omega

/-- The first reader waits for a writer and keeps a second reader waiting; the writer can
go on. -/
theorem rwlock_progress_writing : ∃ s : State (Fin 3), Reaches machine Enabled start s ∧
    (s.pc 0 = .readFirst ∧ s.pc 1 = .readWait ∧ s.pc 2 = .writing) ∧
    ¬ s.Enabled (.go 0) ∧ ¬ s.Enabled (.go 1) ∧ ∃ t, s.pc t ≠ .out ∧ s.Enabled (.go t) := by
  obtain ⟨s, hreach, htest⟩ := exists_reaches machine Enabled start
    [.acquireWrite 2, .go 2, .acquireRead 0, .acquireRead 1, .go 0, .go 0, .go 0]
    (fun s : State (Fin 3) => decide ((s.pc 0 = .readFirst ∧ s.pc 1 = .readWait ∧
      s.pc 2 = .writing) ∧ ¬ s.Enabled (.go 0) ∧ ¬ s.Enabled (.go 1))) (by decide +kernel)
  obtain ⟨hpc, h0, h1⟩ := of_decide_eq_true htest
  have hbusy : s.pc 2 ≠ .out := by
    rw [hpc.2.2]
    decide
  exact ⟨s, hreach, hpc, h0, h1, rwlock_progress hreach ⟨2, hbusy⟩⟩

end Rwlock

end Xv6

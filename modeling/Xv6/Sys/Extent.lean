import Xv6.Lib.Access
import Xv6.Sys.Args

/-! The user memory that the system calls on locks and threads touch (`sysproc.c`,
`semaphore.c`, `rwlock.c`). The objects live in user memory, at the address that the caller
gives; the range check of every wrapper has the size of a pointer, whatever the object. -/
namespace Xv6.Extent

open Word Transition Args Access

def testAndSet (ptr : Nat) (new : Int) : Prog := .load ptr fun old => .store ptr new (.ret old)

def mutexInit (lock : Nat) : Prog := .store lock 0 (.ret 0)

def mutexLock (lock : Nat) : Prog :=
  .loop ((testAndSet lock 1).bind fun old => if old = 1 then .ret 1 else .ret 0) (.ret 0)

def mutexUnlock (lock : Nat) : Prog := .store lock 0 (.ret 0)

/-- The address of the member `lock` of a `thread_cond_t`; `waiting_threads` is its first. -/
def condLock (cond : Nat) : Nat := u32 (cond + 4)

def condInit (cond : Nat) : Prog := .store cond 0 (mutexInit (condLock cond))

def condWait (cond lock : Nat) : Prog :=
  if lock = 0 then .halt
  else
    (mutexLock (condLock cond)).bind fun _ =>
      .load cond fun waiting =>
        .store cond (i32 (waiting + 1)) <|
          (mutexUnlock (condLock cond)).bind fun _ =>
            (mutexUnlock lock).bind fun _ => mutexLock lock

def condSignal (cond : Nat) : Prog :=
  (mutexLock (condLock cond)).bind fun _ =>
    .load cond fun waiting =>
      if waiting = 0 then mutexUnlock (condLock cond)
      else
        .load cond fun waiting =>
          .store cond (i32 (waiting - 1)) (mutexUnlock (condLock cond))

def xemCond (semaphore : Nat) : Nat := u32 (semaphore + 4)

def xemLock (semaphore : Nat) : Nat := u32 (semaphore + 12)

def xemInit (semaphore : Nat) : Prog :=
  .store semaphore 1 <|
    (condInit (xemCond semaphore)).bind fun _ => mutexInit (xemLock semaphore)

def xemWait (semaphore : Nat) : Prog :=
  (mutexLock (xemLock semaphore)).bind fun _ =>
    .loop
      (.load semaphore fun value =>
        if value ≤ 0 then
          (condWait (xemCond semaphore) (xemLock semaphore)).bind fun _ => .ret 1
        else .ret 0)
      (.load semaphore fun value =>
        .store semaphore (i32 (value - 1)) (mutexUnlock (xemLock semaphore)))

def xemUnlock (semaphore : Nat) : Prog :=
  (mutexLock (xemLock semaphore)).bind fun _ =>
    .load semaphore fun value =>
      .store semaphore (i32 (value + 1)) <|
        (condSignal (xemCond semaphore)).bind fun _ => mutexUnlock (xemLock semaphore)

def writelock (rwlock : Nat) : Nat := u32 (rwlock + 16)

def readers (rwlock : Nat) : Nat := u32 (rwlock + 32)

def rwlockInit (rwlock : Nat) : Prog :=
  .store (readers rwlock) 0 <| (xemInit rwlock).bind fun _ => xemInit (writelock rwlock)

def rwlockAcquireReadlock (rwlock : Nat) : Prog :=
  (xemWait rwlock).bind fun _ =>
    .load (readers rwlock) fun n =>
      .store (readers rwlock) (i32 (n + 1)) <|
        .load (readers rwlock) fun n =>
          (if n = 1 then xemWait (writelock rwlock) else .ret 0).bind fun _ => xemUnlock rwlock

def rwlockAcquireWritelock (rwlock : Nat) : Prog := xemWait (writelock rwlock)

def rwlockReleaseReadlock (rwlock : Nat) : Prog :=
  (xemWait rwlock).bind fun _ =>
    .load (readers rwlock) fun n =>
      .store (readers rwlock) (i32 (n - 1)) <|
        .load (readers rwlock) fun n =>
          (if n = 0 then xemUnlock (writelock rwlock) else .ret 0).bind fun _ => xemUnlock rwlock

def rwlockReleaseWritelock (rwlock : Nat) : Prog := xemUnlock (writelock rwlock)

/-! The words that each of them touches. -/

@[simp] theorem touches_testAndSet (ptr : Nat) (new : Int) (a : Nat) :
    Touches (testAndSet ptr new) a ↔ a = ptr := by
  simp [testAndSet]

@[simp] theorem returns_testAndSet (ptr : Nat) (new v : Int) :
    Returns (testAndSet ptr new) v := by
  simp [testAndSet]

@[simp] theorem touches_mutexInit (lock a : Nat) : Touches (mutexInit lock) a ↔ a = lock := by
  simp [mutexInit]

@[simp] theorem returns_mutexInit (lock : Nat) (v : Int) : Returns (mutexInit lock) v ↔ v = 0 := by
  simp [mutexInit]

@[simp] theorem touches_mutexUnlock (lock a : Nat) :
    Touches (mutexUnlock lock) a ↔ a = lock := by
  simp [mutexUnlock]

@[simp] theorem returns_mutexUnlock (lock : Nat) (v : Int) :
    Returns (mutexUnlock lock) v ↔ v = 0 := by
  simp [mutexUnlock]

@[simp] theorem touches_mutexLock (lock a : Nat) : Touches (mutexLock lock) a ↔ a = lock := by
  have hturn := touches_branch (P := fun old : Int => old = 1) (v := 1) (w := 0) rfl (by decide)
    (.ret 1) (.ret 0) a
  simp [mutexLock, hturn]

@[simp] theorem returns_mutexLock (lock : Nat) (v : Int) :
    Returns (mutexLock lock) v ↔ v = 0 := by
  have hturn := returns_branch (P := fun old : Int => old = 1) (v := 1) (w := 0) rfl (by decide)
    (.ret 1) (.ret 0) 0
  simp [mutexLock, hturn]

def condWords (cond : Nat) : List Nat := [cond, condLock cond]

@[simp] theorem touches_condInit (cond a : Nat) :
    Touches (condInit cond) a ↔ a ∈ condWords cond := by
  simp [condInit, condWords]

@[simp] theorem returns_condInit (cond : Nat) (v : Int) :
    Returns (condInit cond) v ↔ v = 0 := by
  simp [condInit]

/-- A lock at address 0 makes `Cond_wait` panic before it touches anything. -/
def condWaitWords (cond lock : Nat) : List Nat :=
  if lock = 0 then [] else lock :: condWords cond

@[simp] theorem touches_condWait (cond lock a : Nat) :
    Touches (condWait cond lock) a ↔ a ∈ condWaitWords cond lock := by
  unfold condWait condWaitWords
  split
  · simp
  · simp only [touches_bind, returns_mutexLock, exists_eq_left, touches_load, exists_const,
      touches_store, touches_mutexLock, touches_mutexUnlock, returns_mutexUnlock, condWords,
      List.mem_cons, List.not_mem_nil, or_false]
    tauto

@[simp] theorem returns_condWait (cond lock : Nat) (v : Int) :
    Returns (condWait cond lock) v ↔ lock ≠ 0 ∧ v = 0 := by
  unfold condWait
  split
  · simp_all
  · simp_all

@[simp] theorem touches_condSignal (cond a : Nat) :
    Touches (condSignal cond) a ↔ a ∈ condWords cond := by
  have hturn := touches_branch (P := fun n : Int => n = 0) (v := 0) (w := 1) rfl (by decide)
    (mutexUnlock (condLock cond))
    (.load cond fun n => .store cond (i32 (n - 1)) (mutexUnlock (condLock cond))) a
  simp only [condSignal, touches_bind, returns_mutexLock, exists_eq_left, touches_load, hturn,
    touches_store, touches_mutexLock, touches_mutexUnlock, exists_const, condWords,
    List.mem_cons, List.not_mem_nil, or_false]
  tauto

@[simp] theorem returns_condSignal (cond : Nat) (v : Int) :
    Returns (condSignal cond) v ↔ v = 0 := by
  have hturn := returns_branch (P := fun n : Int => n = 0) (v := 0) (w := 1) rfl (by decide)
    (mutexUnlock (condLock cond))
    (.load cond fun n => .store cond (i32 (n - 1)) (mutexUnlock (condLock cond))) v
  simp [condSignal, hturn]

def xemWords (semaphore : Nat) : List Nat :=
  semaphore :: xemLock semaphore :: condWords (xemCond semaphore)

@[simp] theorem touches_xemInit (semaphore a : Nat) :
    Touches (xemInit semaphore) a ↔ a ∈ xemWords semaphore := by
  simp only [xemInit, touches_store, touches_bind, touches_condInit, returns_condInit,
    exists_eq_left, touches_mutexInit, xemWords, List.mem_cons]
  tauto

@[simp] theorem returns_xemInit (semaphore : Nat) (v : Int) :
    Returns (xemInit semaphore) v ↔ v = 0 := by
  simp [xemInit]

def xemWaitWords (semaphore : Nat) : List Nat :=
  semaphore :: xemLock semaphore :: condWaitWords (xemCond semaphore) (xemLock semaphore)

theorem xemWaitWords_subset (semaphore : Nat) : xemWaitWords semaphore ⊆ xemWords semaphore := by
  intro a ha
  unfold xemWaitWords condWaitWords at ha
  unfold xemWords
  split at ha
  · simp only [List.mem_cons, List.not_mem_nil] at ha ⊢
    tauto
  · simp only [List.mem_cons] at ha ⊢
    tauto

theorem touches_turn (semaphore a : Nat) :
    (∃ value : Int, Touches (if value ≤ 0 then
        (condWait (xemCond semaphore) (xemLock semaphore)).bind fun _ => .ret 1
      else .ret 0) a) ↔ a ∈ condWaitWords (xemCond semaphore) (xemLock semaphore) := by
  rw [touches_branch (P := fun value : Int => value ≤ 0) (v := 0) (w := 1) le_rfl (by decide)]
  simp

theorem returns_turn (semaphore : Nat) :
    ∃ value : Int, Returns (if value ≤ 0 then
        (condWait (xemCond semaphore) (xemLock semaphore)).bind fun _ => .ret 1
      else .ret 0) 0 := by
  rw [returns_branch (P := fun value : Int => value ≤ 0) (v := 0) (w := 1) le_rfl (by decide)]
  simp

@[simp] theorem touches_xemWait (semaphore a : Nat) :
    Touches (xemWait semaphore) a ↔ a ∈ xemWaitWords semaphore := by
  simp only [xemWait, touches_bind, touches_mutexLock, returns_mutexLock, exists_eq_left,
    touches_loop, touches_load, touches_turn, returns_load, returns_turn, true_and,
    exists_const, touches_store, touches_mutexUnlock, xemWaitWords, List.mem_cons]
  tauto

@[simp] theorem returns_xemWait (semaphore : Nat) (v : Int) :
    Returns (xemWait semaphore) v ↔ v = 0 := by
  simp [xemWait, returns_turn]

@[simp] theorem touches_xemUnlock (semaphore a : Nat) :
    Touches (xemUnlock semaphore) a ↔ a ∈ xemWords semaphore := by
  simp only [xemUnlock, touches_bind, touches_mutexLock, returns_mutexLock, exists_eq_left,
    touches_load, exists_const, touches_store, touches_condSignal, returns_condSignal,
    touches_mutexUnlock, xemWords, List.mem_cons]
  tauto

@[simp] theorem returns_xemUnlock (semaphore : Nat) (v : Int) :
    Returns (xemUnlock semaphore) v ↔ v = 0 := by
  simp [xemUnlock]

def rwlockWords (rwlock : Nat) : List Nat :=
  readers rwlock :: xemWords rwlock ++ xemWords (writelock rwlock)

def readlockWords (rwlock : Nat) : List Nat :=
  readers rwlock :: xemWords rwlock ++ xemWaitWords (writelock rwlock)

@[simp] theorem touches_rwlockInit (rwlock a : Nat) :
    Touches (rwlockInit rwlock) a ↔ a ∈ rwlockWords rwlock := by
  simp [rwlockInit, rwlockWords]

/-- Both calls of a reader: between `xem_wait` and `xem_unlock` on `lock`, `first` runs if the
count has come to `n`. -/
theorem touches_reader (rwlock : Nat) (n : Int) (next : Int → Int) (first : Prog) (a : Nat)
    (hfirst : Returns first 0) :
    Touches ((xemWait rwlock).bind fun _ =>
      .load (readers rwlock) fun m =>
        .store (readers rwlock) (next m) <|
          .load (readers rwlock) fun m =>
            (if m = n then first else .ret 0).bind fun _ => xemUnlock rwlock) a ↔
      a = readers rwlock ∨ a ∈ xemWords rwlock ∨ Touches first a := by
  have hother : ¬ (n + 1 = n) := by omega
  have hinner : (∃ m, Touches ((if m = n then first else .ret 0).bind fun _ =>
      xemUnlock rwlock) a) ↔ Touches first a ∨ a ∈ xemWords rwlock := by
    simp only [touches_bind, touches_xemUnlock]
    constructor
    · rintro ⟨m, h | ⟨v, -, h⟩⟩
      · split at h
        · exact .inl h
        · exact absurd h (touches_ret 0 a)
      · exact .inr h
    · rintro (h | h)
      · exact ⟨n, .inl (by rwa [if_pos rfl])⟩
      · exact ⟨n, .inr ⟨0, by rwa [if_pos rfl], h⟩⟩
  have hsubset := @xemWaitWords_subset rwlock a
  simp only [touches_bind, touches_xemWait, returns_xemWait, exists_eq_left, touches_load,
    touches_store, exists_const] at hinner ⊢
  rw [hinner]
  tauto

@[simp] theorem touches_rwlockAcquireReadlock (rwlock a : Nat) :
    Touches (rwlockAcquireReadlock rwlock) a ↔ a ∈ readlockWords rwlock := by
  unfold rwlockAcquireReadlock
  rw [touches_reader rwlock 1 (fun n => i32 (n + 1)) _ a (by simp)]
  simp [readlockWords]

@[simp] theorem touches_rwlockReleaseReadlock (rwlock a : Nat) :
    Touches (rwlockReleaseReadlock rwlock) a ↔ a ∈ rwlockWords rwlock := by
  unfold rwlockReleaseReadlock
  rw [touches_reader rwlock 0 (fun n => i32 (n - 1)) _ a (by simp)]
  simp [rwlockWords]

end Xv6.Extent

namespace Xv6.Kernel

/-- The tid that `thread_create` stores in `*thread`, if it comes to that line. -/
def handle? (k : Kernel) (cur : Slot) : Option Int :=
  match k.allocproc with
  | (_, none) => none
  | (k, some np) =>
      match k.manager? cur with
      | .ok (some mgr) => ((k.linkLwp mgr np).dupFiles mgr np).toOption.map fun k => (k.proc np).tid
      | _ => none

end Xv6.Kernel

namespace Xv6.Extent

open Word Transition Args Access

def threadCreate (k : Kernel) (cur : Slot) (thread startRoutine : Nat) : Prog :=
  let rest : Prog := match k.threadCreate cur startRoutine with
    | .ok (_, created) => .ret created.ret
    | .error _ => .halt
  match k.handle? cur with
  | some tid => .store thread tid rest
  | none => rest

def threadJoin (cur : Slot) (thread : Int) (retval : Nat) : List Kernel → Prog
  | [] => .halt
  | k :: turns =>
      let zombie? := k.findSlot fun _ p =>
        p.manager = some cur ∧ p.tid = thread ∧ p.state = .zombie
      let rest : Prog := match k.threadJoin cur thread with
        | .ok (_, .delivered _) => .ret 0
        | .ok (_, .failed) => .ret (-1)
        | .ok (_, .slept) => threadJoin cur thread retval turns
        | .error _ => .halt
      match zombie? with
      | some p => if (k.proc cur).tid = 0 then .store retval (k.proc p).retval rest else rest
      | none => rest

/-- The calling process: its slot, its own `sz`, its stack pointer and the arguments above it. -/
structure Caller where
  slot : Slot
  sz : Nat
  esp : Nat
  args : Nat → Int

namespace Caller

def arg (c : Caller) (n : Nat) : Nat := u32 (c.esp + 4 + 4 * n)

def ptr (c : Caller) (n : Nat) : Nat := u32OfInt (c.args n)

inductive Kind where
  | int
  | ptr
  deriving DecidableEq, Repr

/-- The size is that of a pointer for every object. -/
def Accepts (c : Caller) (n : Nat) : Kind → Prop
  | .int => True
  | .ptr => Points c.sz (c.ptr n) 4

instance (c : Caller) (n : Nat) : (kind : Kind) → Decidable (c.Accepts n kind)
  | .int => inferInstanceAs (Decidable True)
  | .ptr => inferInstanceAs (Decidable (Points _ _ _))

def fetch (c : Caller) (body : Prog) (n : Nat) : List Kind → Prog
  | [] => body
  | kind :: rest =>
      if Fetches c.sz (c.arg n) then
        .load (c.arg n) fun _ =>
          if c.Accepts n kind then c.fetch body (n + 1) rest else .ret (-1)
      else .ret (-1)

end Caller

/-- The calls, with the states of the kernel that a call on threads runs in. -/
inductive Call where
  | testAndSet
  | condInit
  | condWait
  | condSignal
  | mutexInit
  | mutexLock
  | mutexUnlock
  | xemInit
  | xemWait
  | xemUnlock
  | rwlockInit
  | rwlockAcquireReadlock
  | rwlockAcquireWritelock
  | rwlockReleaseReadlock
  | rwlockReleaseWritelock
  | threadCreate (k : Kernel)
  | threadJoin (turns : List Kernel)

structure Wrapper where
  kinds : List Caller.Kind
  callee : Prog

def sysTestAndSet (c : Caller) : Wrapper := ⟨[.ptr, .int], testAndSet (c.ptr 0) (c.args 1)⟩

def sysCondInit (c : Caller) : Wrapper := ⟨[.ptr], condInit (c.ptr 0)⟩

def sysCondWait (c : Caller) : Wrapper := ⟨[.ptr, .ptr], condWait (c.ptr 0) (c.ptr 1)⟩

def sysCondSignal (c : Caller) : Wrapper := ⟨[.ptr], condSignal (c.ptr 0)⟩

def sysMutexInit (c : Caller) : Wrapper := ⟨[.ptr], mutexInit (c.ptr 0)⟩

def sysMutexLock (c : Caller) : Wrapper := ⟨[.ptr], mutexLock (c.ptr 0)⟩

def sysMutexUnlock (c : Caller) : Wrapper := ⟨[.ptr], mutexUnlock (c.ptr 0)⟩

def sysXemInit (c : Caller) : Wrapper := ⟨[.ptr], xemInit (c.ptr 0)⟩

def sysXemWait (c : Caller) : Wrapper := ⟨[.ptr], xemWait (c.ptr 0)⟩

def sysXemUnlock (c : Caller) : Wrapper := ⟨[.ptr], xemUnlock (c.ptr 0)⟩

def sysRwlockInit (c : Caller) : Wrapper := ⟨[.ptr], rwlockInit (c.ptr 0)⟩

def sysRwlockAcquireReadlock (c : Caller) : Wrapper := ⟨[.ptr], rwlockAcquireReadlock (c.ptr 0)⟩

def sysRwlockAcquireWritelock (c : Caller) : Wrapper :=
  ⟨[.ptr], rwlockAcquireWritelock (c.ptr 0)⟩

def sysRwlockReleaseReadlock (c : Caller) : Wrapper := ⟨[.ptr], rwlockReleaseReadlock (c.ptr 0)⟩

def sysRwlockReleaseWritelock (c : Caller) : Wrapper :=
  ⟨[.ptr], rwlockReleaseWritelock (c.ptr 0)⟩

def sysThreadCreate (c : Caller) (k : Kernel) : Wrapper :=
  ⟨[.int, .int, .int], threadCreate k c.slot (c.ptr 0) (c.ptr 1)⟩

def sysThreadJoin (c : Caller) (turns : List Kernel) : Wrapper :=
  ⟨[.int, .int], threadJoin c.slot (c.args 0) (c.ptr 1) turns⟩

def Call.wrapper (c : Caller) : Call → Wrapper
  | testAndSet => sysTestAndSet c
  | condInit => sysCondInit c
  | condWait => sysCondWait c
  | condSignal => sysCondSignal c
  | mutexInit => sysMutexInit c
  | mutexLock => sysMutexLock c
  | mutexUnlock => sysMutexUnlock c
  | xemInit => sysXemInit c
  | xemWait => sysXemWait c
  | xemUnlock => sysXemUnlock c
  | rwlockInit => sysRwlockInit c
  | rwlockAcquireReadlock => sysRwlockAcquireReadlock c
  | rwlockAcquireWritelock => sysRwlockAcquireWritelock c
  | rwlockReleaseReadlock => sysRwlockReleaseReadlock c
  | rwlockReleaseWritelock => sysRwlockReleaseWritelock c
  | threadCreate k => sysThreadCreate c k
  | threadJoin turns => sysThreadJoin c turns

def Call.prog (c : Caller) (call : Call) : Prog :=
  c.fetch (call.wrapper c).callee 0 (call.wrapper c).kinds

/-- The turns of a `thread_join` come to a zombie: until then there is an LWP to wait for and
the caller is not killed. -/
def joins (cur : Slot) (thread : Int) : List Kernel → Bool
  | [] => false
  | k :: turns =>
      decide ((k.proc cur).tid = 0) &&
        ((k.findSlot fun _ p =>
            p.manager = some cur ∧ p.tid = thread ∧ p.state = .zombie).isSome ||
          (k.findSlot fun _ p => p.manager = some cur ∧ p.tid = thread).isSome &&
            !(k.proc cur).killed && joins cur thread turns)

def Call.words (c : Caller) : Call → List Nat
  | testAndSet | mutexInit | mutexLock | mutexUnlock => [c.ptr 0]
  | condInit | condSignal => condWords (c.ptr 0)
  | condWait => condWaitWords (c.ptr 0) (c.ptr 1)
  | xemInit | xemUnlock => xemWords (c.ptr 0)
  | xemWait => xemWaitWords (c.ptr 0)
  | rwlockInit | rwlockReleaseReadlock => rwlockWords (c.ptr 0)
  | rwlockAcquireReadlock => readlockWords (c.ptr 0)
  | rwlockAcquireWritelock => xemWaitWords (writelock (c.ptr 0))
  | rwlockReleaseWritelock => xemWords (writelock (c.ptr 0))
  | threadCreate k => if (k.handle? c.slot).isSome then [c.ptr 0] else []
  | threadJoin turns => if joins c.slot (c.args 0) turns then [c.ptr 1] else []

theorem touches_threadCreate (k : Kernel) (cur : Slot) (thread startRoutine a : Nat) :
    Touches (threadCreate k cur thread startRoutine) a ↔
      (k.handle? cur).isSome ∧ a = thread := by
  have hrest : ¬ Touches (match k.threadCreate cur startRoutine with
    | .ok (_, created) => .ret created.ret
    | .error _ => .halt) a := by
    split <;> simp
  unfold threadCreate
  cases hhandle : k.handle? cur <;> simp [hrest]

theorem threadJoin_slept (k : Kernel) (cur : Slot) (thread : Int) :
    (∃ k', k.threadJoin cur thread = .ok (k', .slept)) ↔ (k.proc cur).tid = 0 ∧
      (k.findSlot fun _ p => p.manager = some cur ∧ p.tid = thread ∧ p.state = .zombie) = none ∧
      (k.findSlot fun _ p => p.manager = some cur ∧ p.tid = thread) ≠ none ∧
      (k.proc cur).killed = false := by
  unfold Kernel.threadJoin
  split
  · rename_i htid
    simp [htid]
  · rename_i htid
    split
    · rename_i p hfind
      refine iff_of_false ?_ fun h => ?_
      · rintro ⟨k', h⟩
        obtain ⟨⟨k1, pushed⟩, -, h⟩ := Fallible.bind_eq_ok.mp h
        cases pushed <;> cases Except.ok.inj h
      · cases hfind.symm.trans h.2.1
    · rename_i hfind
      split
      · rename_i hend
        refine iff_of_false ?_ fun h => ?_
        · rintro ⟨k', h⟩
          cases Except.ok.inj h
        · rcases hend with hnone | hkilled
          · exact h.2.2.1 hnone
          · exact Bool.false_ne_true (h.2.2.2.symm.trans hkilled)
      · rename_i hgoes
        rw [not_or] at hgoes
        exact iff_of_true ⟨_, rfl⟩
          ⟨not_not.mp htid, hfind, hgoes.1, Bool.eq_false_of_not_eq_true hgoes.2⟩

theorem touches_threadJoin (cur : Slot) (thread : Int) (retval a : Nat) (turns : List Kernel) :
    Touches (threadJoin cur thread retval turns) a ↔ joins cur thread turns ∧ a = retval := by
  induction turns with
  | nil => simp [threadJoin, joins]
  | cons k turns ih =>
    have hslept := threadJoin_slept k cur thread
    -- only a turn that sleeps leads to another one
    have hrest : Touches (match k.threadJoin cur thread with
        | .ok (_, .delivered _) => .ret 0
        | .ok (_, .failed) => .ret (-1)
        | .ok (_, .slept) => threadJoin cur thread retval turns
        | .error _ => .halt) a ↔
        (∃ k', k.threadJoin cur thread = .ok (k', .slept)) ∧ joins cur thread turns ∧
          a = retval := by
      split <;> simp_all
    unfold threadJoin joins
    simp only
    split
    · rename_i p hfind
      split
      · rename_i htid
        rw [touches_store, hrest, hslept, hfind]
        simp [htid]
      · rename_i htid
        rw [hrest, hslept]
        simp [htid]
    · rename_i hfind
      rw [hrest, hslept, hfind]
      simp [Option.isSome_iff_ne_none, and_assoc]

theorem touches_callee (c : Caller) (call : Call) (a : Nat) :
    Touches (call.wrapper c).callee a ↔ a ∈ call.words c := by
  cases call with
  | threadCreate k =>
    simp only [Call.wrapper, sysThreadCreate, Call.words, touches_threadCreate]
    split <;> simp_all
  | threadJoin turns =>
    simp only [Call.wrapper, sysThreadJoin, Call.words, touches_threadJoin]
    split <;> simp_all
  | testAndSet => simp [Call.wrapper, sysTestAndSet, Call.words]
  | condInit => simp [Call.wrapper, sysCondInit, Call.words]
  | condWait => simp [Call.wrapper, sysCondWait, Call.words]
  | condSignal => simp [Call.wrapper, sysCondSignal, Call.words]
  | mutexInit => simp [Call.wrapper, sysMutexInit, Call.words]
  | mutexLock => simp [Call.wrapper, sysMutexLock, Call.words]
  | mutexUnlock => simp [Call.wrapper, sysMutexUnlock, Call.words]
  | xemInit => simp [Call.wrapper, sysXemInit, Call.words]
  | xemWait => simp [Call.wrapper, sysXemWait, Call.words]
  | xemUnlock => simp [Call.wrapper, sysXemUnlock, Call.words]
  | rwlockInit => simp [Call.wrapper, sysRwlockInit, Call.words]
  | rwlockAcquireReadlock => simp [Call.wrapper, sysRwlockAcquireReadlock, Call.words]
  | rwlockAcquireWritelock =>
    simp [Call.wrapper, sysRwlockAcquireWritelock, rwlockAcquireWritelock, Call.words]
  | rwlockReleaseReadlock => simp [Call.wrapper, sysRwlockReleaseReadlock, Call.words]
  | rwlockReleaseWritelock =>
    simp [Call.wrapper, sysRwlockReleaseWritelock, rwlockReleaseWritelock, Call.words]

theorem fetch_touches {c : Caller} {body : Prog} {kind : Caller.Kind} {rest : List Caller.Kind}
    {n a : Nat} (hfetch : Fetches c.sz (c.arg n)) (haccept : c.Accepts n kind)
    (h : Touches (c.fetch body (n + 1) rest) a) : Touches (c.fetch body n (kind :: rest)) a := by
  unfold Caller.fetch
  rw [if_pos hfetch, if_pos haccept, touches_load]
  exact .inr ⟨0, h⟩

def Inside (sz a : Nat) : Prop := ∀ i < 4, u32 (a + i) < sz

instance (sz a : Nat) : Decidable (Inside sz a) := inferInstanceAs (Decidable (∀ i < 4, _))

/-- Each argument word that passes the check of `fetchint` lies below `sz`, and so does each of
`words` if all arguments are accepted. -/
def Caller.Clear (c : Caller) (words : List Nat) (n : Nat) : List Kind → Prop
  | [] => ∀ a ∈ words, Inside c.sz a
  | kind :: rest => Fetches c.sz (c.arg n) →
      Inside c.sz (c.arg n) ∧ (c.Accepts n kind → c.Clear words (n + 1) rest)

theorem fetch_inside (c : Caller) {body : Prog} {words : List Nat}
    (hbody : ∀ a, Touches body a ↔ a ∈ words) (kinds : List Caller.Kind) (n : Nat) :
    (∀ a, Touches (c.fetch body n kinds) a → Inside c.sz a) ↔ c.Clear words n kinds := by
  induction kinds generalizing n with
  | nil =>
    simp only [Caller.fetch, Caller.Clear, hbody]
  | cons kind rest ih =>
    unfold Caller.fetch Caller.Clear
    by_cases hfetch : Fetches c.sz (c.arg n)
    · rw [if_pos hfetch]
      simp only [touches_load, exists_const, hfetch, true_imp_iff]
      by_cases haccept : c.Accepts n kind
      · rw [if_pos haccept]
        simp only [haccept, true_imp_iff, ← ih]
        constructor
        · intro h
          exact ⟨h _ (.inl rfl), fun a ha => h a (.inr ha)⟩
        · rintro ⟨harg, hrest⟩ a (rfl | ha)
          · exact harg
          · exact hrest a ha
      · rw [if_neg haccept]
        simp [haccept]
    · rw [if_neg hfetch]
      simp [hfetch]

/-- A call stays below the size that its arguments are checked against if and only if the
object lies below it as a whole, and not only its first four bytes; the handle of
`thread_create` and the return value of `thread_join` have no check. -/
theorem calls_stay_inside (c : Caller) (call : Call) :
    (∀ a, Touches (call.prog c) a → Inside c.sz a) ↔
      c.Clear (call.words c) 0 (call.wrapper c).kinds :=
  fetch_inside c (touches_callee c call) (call.wrapper c).kinds 0

/-- A semaphore whose first member is the last word below `sz`, and a handle in the memory of
the kernel. -/
theorem calls_leave : (∃ c, Touches (Call.xemInit.prog c) c.sz ∧ ¬ Inside c.sz c.sz) ∧
    ∃ k c, Reaches Kernel.perform Kernel.Enabled (Kernel.boot 1000) k ∧
      c.sz = (k.proc c.slot).sz ∧ (k.proc c.slot).state = .running ∧
      Touches ((Call.threadCreate k).prog c) 2147483648 ∧ ¬ Inside c.sz 2147483648 := by
  constructor
  · refine ⟨⟨0, 16384, 12288, fun _ => 16380⟩, ?_, by decide⟩
    refine fetch_touches (by decide) (by decide : Points 16384 16380 4) ?_
    refine (touches_callee _ .xemInit _).mpr ?_
    decide
  · obtain ⟨k, hreach, htest⟩ := exists_reaches Kernel.perform Kernel.Enabled (Kernel.boot 1000)
      [.visit 0 0]
      (fun k => decide ((k.proc 0).state = .running ∧ (k.handle? 0).isSome ∧
        Fetches (k.proc 0).sz 4 ∧ Fetches (k.proc 0).sz 8 ∧ Fetches (k.proc 0).sz 12 ∧
        ¬ Inside (k.proc 0).sz 2147483648)) (by decide +kernel)
    obtain ⟨hrunning, hhandle, h0, h1, h2, hout⟩ := of_decide_eq_true htest
    refine ⟨k, ⟨0, (k.proc 0).sz, 0, fun _ => -2147483648⟩, hreach, rfl, hrunning, ?_, hout⟩
    refine fetch_touches h0 trivial (fetch_touches h1 trivial (fetch_touches h2 trivial ?_))
    refine (touches_callee _ (.threadCreate k) _).mpr ?_
    simp only [Call.words, hhandle, if_pos]
    exact List.mem_singleton.mpr rfl

end Xv6.Extent

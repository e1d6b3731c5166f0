import Xv6.Lib.Transition
import Xv6.Fs.Disk
import Mathlib.Data.List.Nodup

/-! The log of `log.c` on the disk. A commit is run one `bwrite` after the other, and the
machine can stop between any two of them. Buffers that are not dirty hold what is on the
disk, so that only the dirty ones are kept. -/
namespace Xv6

open Word Transition

namespace Block

def setWords (block : Block) (j : Nat) : List Nat → Block
  | [] => block
  | w :: ws => (block.setWord j w).setWords (j + 1) ws

theorem word_setWords_below {j k : Nat} (block : Block) (ws : List Nat) (h : k < j) :
    (block.setWords j ws).word k = block.word k := by
  induction ws generalizing block j with
  | nil => rfl
  | cons w ws ih =>
    rw [setWords, ih _ (by omega), word_setWord_other _ _ (by omega)]

theorem word_setWords {j i w : Nat} (block : Block) {ws : List Nat}
    (hsmall : ∀ w ∈ ws, w < 4294967296) (h : ws[i]? = some w) :
    (block.setWords j ws).word (j + i) = w := by
  induction ws generalizing block j i with
  | nil => cases h
  | cons v ws ih =>
    rw [setWords]
    cases i with
    | zero =>
      rw [List.getElem?_cons_zero] at h
      cases h
      rw [word_setWords_below _ _ (by omega)]
      exact word_setWord_same _ _ (hsmall _ List.mem_cons_self)
    | succ i =>
      rw [Nat.add_comm i 1, ← Nat.add_assoc]
      exact ih _ (fun w hw => hsmall w (List.mem_cons_of_mem _ hw)) h

def logheader (block : Block) : List Nat :=
  (List.range (i32 (block.word 0)).toNat).map fun i => block.word (i + 1)

/-- The assignments of `write_head`; entries from the count on keep their old value. -/
def setLogheader (block : Block) (lh : List Nat) : Block :=
  (block.setWord 0 lh.length).setWords 1 lh

theorem logheader_eq_nil {block : Block} (h : block.word 0 = 0) : block.logheader = [] := by
  rw [logheader, h]
  rfl

theorem logheader_setLogheader (block : Block) {lh : List Nat} (hlen : lh.length ≤ logsize)
    (hsmall : ∀ b ∈ lh, b < 4294967296) : (block.setLogheader lh).logheader = lh := by
  have hcount : (block.setLogheader lh).word 0 = lh.length := by
    rw [setLogheader, word_setWords_below _ _ (by decide), word_setWord_same]
    simp only [logsize] at hlen
    omega
  have hint : (i32 (lh.length : Int)).toNat = lh.length := by
    simp only [logsize] at hlen
    unfold i32
    omega
  rw [logheader, hcount, hint]
  apply List.ext_getElem
  · rw [List.length_map, List.length_range]
  · intro i hi hi'
    rw [List.getElem_map, List.getElem_range, setLogheader, Nat.add_comm i 1]
    exact word_setWords _ hsmall (List.getElem?_eq_getElem hi')

end Block

/-- `start` and `size` of `struct log`; the header block is part of the log. -/
structure Log where
  start : Nat
  size : Nat
  header : 0 < size

/-- The log that `mkfs` makes: `nlog = LOGSIZE` blocks behind the superblock. -/
def Log.ofMkfs : Log := ⟨2, logsize, by decide⟩

inductive Phase where
  | idle
  | writeLog (tail : Nat)
  | writeHead
  | installTrans (tail : Nat)
  | clearHead
  | readHead
  deriving DecidableEq, Repr

namespace Log

/-- The disk, the dirty buffers, `log.lh`, and what runs next. There is a buffer for every dirty
block and one more: in the kernel this holds up to `NBUF - 1` of them. -/
structure State where
  disk : Nat → Block
  dirty : Nat → Option Block
  lh : List Nat
  phase : Phase

namespace State

def bread (s : State) (b : Nat) : Block := (s.dirty b).getD (s.disk b)

def bwrite (s : State) (b : Nat) (data : Block) : State :=
  { s with disk := Function.update s.disk b data, dirty := Function.update s.dirty b none }

def goto (s : State) (phase : Phase) : State := { s with phase }

theorem disk_bwrite_self (s : State) (b : Nat) (data : Block) : (s.bwrite b data).disk b = data :=
  Function.update_self ..

theorem disk_bwrite_of_ne (s : State) {a b : Nat} (data : Block) (h : a ≠ b) :
    (s.bwrite b data).disk a = s.disk a := Function.update_of_ne h ..

theorem dirty_bwrite_self (s : State) (b : Nat) (data : Block) :
    (s.bwrite b data).dirty b = none := Function.update_self ..

theorem dirty_bwrite_of_ne (s : State) {a b : Nat} (data : Block) (h : a ≠ b) :
    (s.bwrite b data).dirty a = s.dirty a := Function.update_of_ne h ..

theorem dirty_bwrite {s : State} {a : Nat} (b : Nat) (data : Block) (h : s.dirty a = none) :
    (s.bwrite b data).dirty a = none := by
  by_cases ha : a = b
  · rw [ha, dirty_bwrite_self]
  · rw [dirty_bwrite_of_ne s data ha, h]

theorem bread_of_clean {s : State} {b : Nat} (h : s.dirty b = none) : s.bread b = s.disk b := by
  rw [bread, h]
  rfl

end State

open State

inductive Panic where
  | tooBig | outsideTrans | committing
  deriving DecidableEq, Repr

def Full (log : Log) (s : State) : Prop := logsize ≤ s.lh.length ∨ log.size - 1 ≤ s.lh.length

instance (log : Log) (s : State) : Decidable (log.Full s) := inferInstanceAs (Decidable (_ ∨ _))

/-- The rest of `log_write`, under the lock. A block that is in the header is absorbed. -/
def absorb (s : State) (b : Nat) (data : Block) : State :=
  { s with dirty := Function.update s.dirty b (some data),
           lh := if b ∈ s.lh then s.lh else s.lh ++ [b] }

theorem mem_absorb (s : State) (a b : Nat) (data : Block) :
    a ∈ (absorb s b data).lh ↔ a = b ∨ a ∈ s.lh := by
  unfold absorb
  dsimp only
  split
  · rename_i hb
    exact ⟨.inr, fun ha => ha.elim (fun heq => heq ▸ hb) id⟩
  · rw [List.mem_append, List.mem_singleton]
    exact or_comm

theorem length_absorb (s : State) (b : Nat) (data : Block) :
    (absorb s b data).lh.length = if b ∈ s.lh then s.lh.length else s.lh.length + 1 := by
  unfold absorb
  dsimp only
  split
  · rfl
  · rw [List.length_append, List.length_singleton]

def logWrite (log : Log) (s : State) (b : Nat) (data : Block) : Except Panic State :=
  if log.Full s then .error .tooBig else .ok (absorb s b data)

def commit (s : State) : State := if 0 < s.lh.length then s.goto (.writeLog 0) else s

def writeHead (log : Log) (s : State) : State :=
  s.bwrite log.start ((s.bread log.start).setLogheader s.lh)

def step (log : Log) (s : State) : State :=
  match s.phase with
  | .idle => s
  | .writeLog tail =>
      match s.lh[tail]? with
      | some b => (s.bwrite (log.start + tail + 1) (s.bread b)).goto (.writeLog (tail + 1))
      | none => s.goto .writeHead
  | .writeHead => (log.writeHead s).goto (.installTrans 0)
  | .installTrans tail =>
      match s.lh[tail]? with
      | some b => (s.bwrite b (s.bread (log.start + tail + 1))).goto (.installTrans (tail + 1))
      | none => { s with lh := [], phase := .clearHead }
  | .clearHead => (log.writeHead s).goto .idle
  | .readHead => { s with lh := (s.bread log.start).logheader, phase := .installTrans 0 }

/-- The memory is lost, and the next boot runs `recover_from_log`. -/
def crash (s : State) : State :=
  { s with dirty := fun _ => none, lh := [], phase := .readHead }

inductive Act where
  | logWrite (b : Nat) (data : Block)
  | commit
  | step
  | crash

def machine (log : Log) : Machine State Act Unit Panic := fun s a =>
  match a with
  | .logWrite b data => (log.logWrite s b data).map fun s => (s, ())
  | .commit => .ok (commit s, ())
  | .step => .ok (log.step s, ())
  | .crash => .ok (crash s, ())

def Outside (log : Log) (b : Nat) : Prop := b < log.start ∨ log.start + log.size ≤ b

instance (log : Log) (b : Nat) : Decidable (log.Outside b) := inferInstanceAs (Decidable (_ ∨ _))

/-- Operations log blocks of the disk outside the log, and only while no commit runs. -/
def Enabled (log : Log) (s : State) : Act → Prop
  | .logWrite b _ => s.phase = .idle ∧ log.Outside b ∧ b < fssize
  | .commit => s.phase = .idle
  | .step => s.phase ≠ .idle
  | .crash => True

instance (log : Log) (s : State) : (a : Act) → Decidable (log.Enabled s a)
  | .logWrite b _ => inferInstanceAs (Decidable (s.phase = .idle ∧ log.Outside b ∧ b < fssize))
  | .commit => inferInstanceAs (Decidable (s.phase = .idle))
  | .step => inferInstanceAs (Decidable (s.phase ≠ .idle))
  | .crash => inferInstanceAs (Decidable True)

/-- The disk writes of one commit or recovery, cut short any number of times. -/
def Interrupted (s : State) : Act → Prop
  | .step => s.phase ≠ .idle
  | .crash => True
  | .logWrite _ _ | .commit => False

instance (s : State) : (a : Act) → Decidable (Interrupted s a)
  | .step => inferInstanceAs (Decidable (s.phase ≠ .idle))
  | .crash => inferInstanceAs (Decidable True)
  | .logWrite _ _ | .commit => inferInstanceAs (Decidable False)

def powerOn (disk : Nat → Block) : State := ⟨disk, fun _ => none, [], .readHead⟩

end Log

end Xv6

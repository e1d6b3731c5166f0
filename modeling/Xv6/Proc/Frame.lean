import Xv6.Proc.Step
import Xv6.Lib.Fallible

/-! What the operations leave alone. Most of them are quiet: no slot is taken or
given back, no process dies, and everything that identifies a process stays. Sizes,
free lists, files and the bookkeeping of the scheduler are outside this frame. -/
namespace Xv6

open Fallible

/-- What identifies a process and its share, and whether it is inside `exit`. -/
structure Identity where
  pid : Int
  passValue : Int
  stride : Int
  portion : Int
  tid : Int
  manager : Option Slot
  pgdir : Option DirId
  retval : Nat
  exiting : Bool

namespace Proc

def identity (p : Proc) : Identity :=
  ⟨p.pid, p.passValue, p.stride, p.portion, p.tid, p.manager, p.pgdir, p.retval,
    p.context = .exit⟩

def Idle (p : Proc) : Prop := p.passValue = -1 ∧ p.stride = 0

theorem idle_of_identity {p q : Proc} (h : q.identity = p.identity) (hp : p.Idle) : q.Idle := by
  have hpass : q.passValue = p.passValue := congrArg Identity.passValue h
  have hstride : q.stride = p.stride := congrArg Identity.stride h
  exact ⟨hpass.trans hp.1, hstride.trans hp.2⟩

/-- Of an unused slot only the lack of a parent and of a share are part of the frame. -/
structure Quiet (p q : Proc) : Prop where
  unused : q.state = .unused ↔ p.state = .unused
  zombie : q.state = .zombie ↔ p.state = .zombie
  parent : q.parent = none ↔ p.parent = none
  idle : p.Idle → q.Idle
  identity : p.state ≠ .unused → q.identity = p.identity

theorem Quiet.of_identity {p q : Proc} (hunused : q.state = .unused ↔ p.state = .unused)
    (hzombie : q.state = .zombie ↔ p.state = .zombie) (hparent : q.parent = none ↔ p.parent = none)
    (hid : q.identity = p.identity) : Quiet p q :=
  ⟨hunused, hzombie, hparent, idle_of_identity hid, fun _ => hid⟩

theorem Quiet.refl (p : Proc) : Quiet p p := .of_identity Iff.rfl Iff.rfl Iff.rfl rfl

theorem Quiet.trans {p q r : Proc} (h : Quiet p q) (h' : Quiet q r) : Quiet p r where
  unused := h'.unused.trans h.unused
  zombie := h'.zombie.trans h.zombie
  parent := h'.parent.trans h.parent
  idle := h'.idle ∘ h.idle
  identity := fun hp => (h'.identity (fun hq => hp (h.unused.mp hq))).trans (h.identity hp)

theorem Quiet.live {p q : Proc} (h : Quiet p q) : q.Live ↔ p.Live :=
  and_congr (not_congr h.unused) (not_congr h.zombie)

theorem quiet_wake (p : Proc) (killed : Bool) :
    p.Quiet { p with killed := killed,
                     state := if p.state = .sleeping then .runnable else p.state } := by
  refine .of_identity ?_ ?_ Iff.rfl rfl
  · by_cases h : p.state = .sleeping <;> simp [h]
  · by_cases h : p.state = .sleeping <;> simp [h]

/-- The slot was quiet, or it held a zombie that was reaped. -/
inductive Settled (p q : Proc) : Prop where
  | quiet (h : Quiet p q)
  | reaped (before : p.state = .zombie) (after : q.state = .unused) (parent : q.parent = none)
      (idle : p.Idle → q.Idle)

theorem Settled.refl (p : Proc) : Settled p p := .quiet (.refl p)

theorem Settled.trans {p q r : Proc} (h : Settled p q) (h' : Settled q r) : Settled p r := by
  cases h with
  | quiet h =>
    cases h' with
    | quiet h' => exact .quiet (h.trans h')
    | reaped hbefore hafter hparent hidle =>
      exact .reaped (h.zombie.mp hbefore) hafter hparent (hidle ∘ h.idle)
  | reaped hbefore hafter hparent hidle =>
    cases h' with
    | quiet h' =>
      exact .reaped hbefore (h'.unused.mpr hafter) (h'.parent.mpr hparent) (h'.idle ∘ hidle)
    | reaped hzombie _ _ _ => rw [hafter] at hzombie; cases hzombie

theorem Settled.live {p q : Proc} (h : Settled p q) : q.Live ↔ p.Live := by
  cases h with
  | quiet h => exact h.live
  | reaped hbefore hafter _ _ => simp [Live, hbefore, hafter]

theorem Settled.identity {p q : Proc} (h : Settled p q) (hq : q.Live) :
    q.identity = p.identity := by
  cases h with
  | quiet h => exact h.identity (h.live.mp hq).1
  | reaped _ hafter _ _ => exact absurd hafter hq.1

theorem Settled.exiting {p q : Proc} (h : Settled p q) (hlive : q.Live)
    (hexit : q.context = .exit) : p.Live ∧ p.context = .exit := by
  have hid := congrArg Identity.exiting (h.identity hlive)
  simp only [Proc.identity, decide_eq_decide] at hid
  exact ⟨h.live.mp hlive, hid.mp hexit⟩

theorem Settled.idle {p q : Proc} (h : Settled p q) : p.Idle → q.Idle := by
  cases h with
  | quiet h => exact h.idle
  | reaped _ _ _ hidle => exact hidle

end Proc

namespace Kernel

structure SameShares (k k' : Kernel) : Prop where
  heap : k'.heap = k.heap
  strideTickets : k'.strideTickets = k.strideTickets
  initproc : k'.initproc = k.initproc

theorem SameShares.refl (k : Kernel) : SameShares k k := ⟨rfl, rfl, rfl⟩

theorem SameShares.trans {k k' k'' : Kernel} (h : SameShares k k') (h' : SameShares k' k'') :
    SameShares k k'' :=
  ⟨h'.heap.trans h.heap, h'.strideTickets.trans h.strideTickets, h'.initproc.trans h.initproc⟩

/-- No slot changes hands and no directory is made or freed. -/
structure Quiet (k k' : Kernel) : Prop where
  shares : SameShares k k'
  freed : k'.freed = k.freed
  nextdir : k'.nextdir = k.nextdir
  proc : ∀ i, Proc.Quiet (k.proc i) (k'.proc i)

theorem Quiet.refl (k : Kernel) : Quiet k k := ⟨.refl k, rfl, rfl, fun _ => .refl _⟩

theorem Quiet.trans {k k' k'' : Kernel} (h : Quiet k k') (h' : Quiet k' k'') : Quiet k k'' :=
  ⟨h.shares.trans h'.shares, h'.freed.trans h.freed, h'.nextdir.trans h.nextdir,
    fun i => (h.proc i).trans (h'.proc i)⟩

structure Settles (k k' : Kernel) : Prop where
  shares : SameShares k k'
  freed : k'.freed = k.freed
  nextdir : k'.nextdir = k.nextdir
  proc : ∀ i, Proc.Settled (k.proc i) (k'.proc i)

theorem Settles.refl (k : Kernel) : Settles k k := ⟨.refl k, rfl, rfl, fun _ => .refl _⟩

theorem Settles.trans {k k' k'' : Kernel} (h : Settles k k') (h' : Settles k' k'') :
    Settles k k'' :=
  ⟨h.shares.trans h'.shares, h'.freed.trans h.freed, h'.nextdir.trans h.nextdir,
    fun i => (h.proc i).trans (h'.proc i)⟩

theorem Quiet.settles {k k' : Kernel} (h : Quiet k k') : Settles k k' :=
  ⟨h.shares, h.freed, h.nextdir, fun i => .quiet (h.proc i)⟩

theorem quiet_modify (k : Kernel) (slot : Slot) (f : Proc → Proc)
    (h : Proc.Quiet (k.proc slot) (f (k.proc slot))) : Quiet k (k.modify slot f) where
  shares := ⟨rfl, rfl, rfl⟩
  freed := rfl
  nextdir := rfl
  proc := by
    intro i
    by_cases hi : i = slot
    · subst hi; simpa using h
    · simpa [hi] using Proc.Quiet.refl _

theorem quiet_modify_of_eq (k : Kernel) (slot : Slot) (f : Proc → Proc)
    (hstate : (f (k.proc slot)).state = (k.proc slot).state)
    (hparent : (f (k.proc slot)).parent = (k.proc slot).parent)
    (hidentity : (f (k.proc slot)).identity = (k.proc slot).identity) :
    Quiet k (k.modify slot f) :=
  quiet_modify k slot f
    (.of_identity (by rw [hstate]) (by rw [hstate]) (by rw [hparent]) hidentity)

theorem quiet_setSpace (k : Kernel) (d : DirId) (s : Space) : Quiet k (k.setSpace d s) :=
  ⟨⟨rfl, rfl, rfl⟩, rfl, rfl, fun _ => .refl _⟩

theorem quiet_sched (k : Kernel) (slot : Slot) : Quiet k (k.sched slot) :=
  ⟨⟨rfl, rfl, rfl⟩, rfl, rfl, fun _ => .refl _⟩

end Kernel

end Xv6

import Xv6.Mlfq.Timer

/-! The time allotment. Both the timer and `sys_yield` charge a process, and either may find
that it has used up what it gets at its level. -/
namespace Xv6

open Word Fallible Transition

theorem table_cases {level : Int} (hlow : 0 ≤ level) (hhigh : level ≤ 2) :
    level = 0 ∧ tableEntry quantum level = .ok 5 ∧ tableEntry allotment level = .ok 20 ∨
    level = 1 ∧ tableEntry quantum level = .ok 10 ∧ tableEntry allotment level = .ok 40 ∨
    level = 2 ∧ tableEntry quantum level = .ok 20 := by
  have hcases : level = 0 ∨ level = 1 ∨ level = 2 := by omega
  rcases hcases with rfl | rfl | rfl
  · exact .inl ⟨rfl, rfl, rfl⟩
  · exact .inr (.inl ⟨rfl, rfl, rfl⟩)
  · exact .inr (.inr ⟨rfl, rfl⟩)

namespace Proc

variable {p p' : Proc}

def Spent (p : Proc) : Prop := p.usedUp.toOption = some true

instance (p : Proc) : Decidable p.Spent := inferInstanceAs (Decidable (_ = _))

theorem spent_iff {a : Int} (hlevel : p.level < 2)
    (ha : tableEntry allotment p.level = .ok a) : p.Spent ↔ a ≤ p.runtime := by
  unfold Spent usedUp
  rw [if_pos hlevel, ha]
  simp [Except.map, Except.toOption]

theorem not_spent (hlevel : p.level = 2) : ¬ p.Spent := by
  unfold Spent usedUp
  simp [hlevel, Except.toOption]

theorem level_of_spent (hhigh : p.level ≤ 2) (h : p.Spent) : p.level < 2 := by
  by_contra hge
  exact not_spent (by omega) h

theorem demote_level (hlow : 0 ≤ p.level) (hhigh : p.level < 2) :
    p.demote.level = p.level + 1 :=
  i32_eq_self ⟨by omega, by omega⟩

theorem usedUp_eq (hlow : 0 ≤ p.level) (hhigh : p.level ≤ 2) : p.usedUp = .ok (decide p.Spent) := by
  obtain ⟨hlevel, -, ha⟩ | ⟨hlevel, -, ha⟩ | ⟨hlevel, -⟩ := table_cases hlow hhigh
  · rw [usedUp, if_pos (by omega), ha, Except.map, decide_eq_decide.mpr (spent_iff (by omega) ha)]
  · rw [usedUp, if_pos (by omega), ha, Except.map, decide_eq_decide.mpr (spent_iff (by omega) ha)]
  · rw [usedUp, if_neg (by omega), decide_eq_false (not_spent hlevel)]

/-- The end of a quantum: back to 0, and down a level if the allotment is used up. -/
def rollOver (p : Proc) : Proc :=
  if p.Spent then p.clearTicks.demote else p.clearTicks

theorem rollOver_level (hlow : 0 ≤ p.level) (hhigh : p.level ≤ 2) :
    0 ≤ p.rollOver.level ∧ p.rollOver.level ≤ 2 := by
  unfold rollOver
  split
  · rename_i hspent
    have hnext := demote_level (p := p.clearTicks) hlow (level_of_spent hhigh hspent)
    have hsame : p.clearTicks.level = p.level := rfl
    have := level_of_spent hhigh hspent
    omega
  · exact ⟨hlow, hhigh⟩

theorem rollOver_ticks (p : Proc) : p.rollOver.ticks = 0 := by
  unfold rollOver
  split <;> rfl

theorem timer_mlfq {q : Int} (hmode : p.passValue = -1) (hlow : 0 ≤ p.level) (hhigh : p.level ≤ 2)
    (hq : tableEntry quantum p.level = .ok q) :
    p.timer = .ok (if q ≤ p.ticks then (p.rollOver, true) else (p, false)) := by
  unfold timer rollOver
  rw [if_neg (not_not.mpr hmode), hq]
  dsimp only [bind, Except.bind]
  split
  · have hspent : p.clearTicks.usedUp = .ok (decide p.Spent) := usedUp_eq hlow hhigh
    rw [hspent]
    by_cases h : p.Spent <;> simp [h, pure, Except.pure]
  · rfl

theorem sysYield_eq (hlow : 0 ≤ p.level) (hhigh : p.level ≤ 2) : p.sysYield =
    .ok (if p.charge.Spent then p.charge.demote.clearTicks else p.charge) := by
  have hspent : p.charge.usedUp = .ok (decide p.charge.Spent) := usedUp_eq hlow hhigh
  unfold sysYield
  dsimp only [bind, Except.bind]
  rw [hspent]
  by_cases h : p.charge.Spent <;> simp [h, pure, Except.pure]

end Proc

namespace Timed

variable {s s' : Timed} {event : Event} {reply : Reply} {trace : List (Timed × Event × Reply)}

/-- The events charged since the latest boost or demotion, or since the start. -/
def charges : List (Timed × Event × Reply) → Nat
  | [] => 0
  | (_, .boost, _) :: _ => 0
  | (_, .select _, _) :: trace => charges trace
  | (_, .resume, _) :: trace => charges trace + 1
  | (_, .timer, reply) :: trace =>
      if reply.demoted then 0 else if reply.yielded then charges trace else charges trace + 1
  | (_, .sysYield, reply) :: trace => if reply.demoted then 0 else charges trace + 1

/-- What an event finds charged at the level when it looks at the allotment: `sys_yield` charges
before that, the timer after it. -/
def found (trace : List (Timed × Event × Reply)) : Event → Nat
  | .sysYield => charges trace + 1
  | _ => charges trace

/-- The counters of a process in MLFQ mode. Once the allotment is reached, the process goes down
at the end of the quantum at the latest. -/
structure Accounted (trace : List (Timed × Event × Reply)) (s : Timed) : Prop where
  mode : s.proc.passValue = -1
  low : 0 ≤ s.proc.level
  high : s.proc.level ≤ 2
  trap : s.inTrap = true → s.proc.ticks = 0
  counted : s.proc.level < 2 → s.proc.runtime = charges trace
  ticks : s.proc.level < 2 → 0 ≤ s.proc.ticks ∧ s.proc.ticks ≤ s.proc.runtime
  bounded : ∀ a q, tableEntry allotment s.proc.level = .ok a →
    tableEntry quantum s.proc.level = .ok q →
    s.proc.runtime < a ∨ s.proc.ticks ≤ q ∧ s.proc.runtime < a + s.proc.ticks

theorem Accounted.tables (h : Accounted trace s) (hlevel : s.proc.level < 2) :
    ∃ a q, tableEntry allotment s.proc.level = .ok a ∧
      tableEntry quantum s.proc.level = .ok q ∧ 1 ≤ q ∧ 1 ≤ a ∧ a + q < 60 := by
  obtain ⟨-, hq, ha⟩ | ⟨-, hq, ha⟩ | ⟨htwo, -⟩ := table_cases h.low h.high
  · exact ⟨20, 5, ha, hq, by decide, by decide, by decide⟩
  · exact ⟨40, 10, ha, hq, by decide, by decide, by decide⟩
  · omega

theorem accounted_zero (hmode : s.proc.passValue = -1) (hlow : 0 ≤ s.proc.level)
    (hhigh : s.proc.level ≤ 2) (hticks : s.proc.ticks = 0) (hruntime : s.proc.runtime = 0)
    (hcharges : charges trace = 0) : Accounted trace s := by
  refine ⟨hmode, hlow, hhigh, fun _ => hticks, fun _ => by rw [hruntime, hcharges]; rfl,
    fun _ => by omega, fun a q ha _ => .inl ?_⟩
  obtain ⟨-, -, ha'⟩ | ⟨-, -, ha'⟩ | ⟨htwo, -⟩ := table_cases hlow hhigh
  · cases Except.ok.inj (ha.symm.trans ha')
    omega
  · cases Except.ok.inj (ha.symm.trans ha')
    omega
  · rw [htwo] at ha
    cases ha

section Step

variable (h : Accounted trace s)
include h

theorem Accounted.level_of_allotment {a : Int}
    (ha : tableEntry allotment s.proc.level = .ok a) : s.proc.level < 2 := by
  by_contra hge
  have htwo : s.proc.level = 2 := by
    have := h.high
    omega
  rw [htwo] at ha
  cases ha

theorem Accounted.charge_eq (hlevel : s.proc.level < 2) :
    s.proc.charge.ticks = s.proc.ticks + 1 ∧ s.proc.charge.runtime = s.proc.runtime + 1 := by
  obtain ⟨hlow, hhigh⟩ := h.ticks hlevel
  obtain ⟨a, q, ha, hq, hpos, -, hsmall⟩ := h.tables hlevel
  have hbounded := h.bounded a q ha hq
  constructor
  · exact i32_eq_self ⟨by omega, by omega⟩
  · exact i32_eq_self ⟨by omega, by omega⟩

theorem Accounted.charge {trace' : List (Timed × Event × Reply)}
    (hroom : ∀ a q, tableEntry allotment s.proc.level = .ok a →
      tableEntry quantum s.proc.level = .ok q → s.proc.runtime + 1 < a ∨ s.proc.ticks + 1 ≤ q)
    (hcharges : charges trace' = charges trace + 1) :
    Accounted trace' ⟨s.proc.charge, false⟩ := by
  refine ⟨h.mode, h.low, h.high, nofun, fun hlevel => ?_, fun hlevel => ?_,
    fun a q ha hq => ?_⟩
  · have hcounted := h.counted hlevel
    have hruntime := (h.charge_eq hlevel).2
    dsimp only
    omega
  · have hticks := h.ticks hlevel
    have hcharge := h.charge_eq hlevel
    dsimp only
    omega
  · have hlevel := h.level_of_allotment ha
    have hticks := h.ticks hlevel
    have hcharge := h.charge_eq hlevel
    have hbounded := h.bounded a q ha hq
    have hroom := hroom a q ha hq
    dsimp only
    omega

theorem Accounted.demote {p : Proc} {inTrap : Bool} {trace' : List (Timed × Event × Reply)}
    (hspent : s.proc.level < 2) (hmode : p.passValue = s.proc.passValue)
    (hlevel : p.level = i32 (s.proc.level + 1)) (hticks : p.ticks = 0) (hruntime : p.runtime = 0)
    (hcharges : charges trace' = 0) :
    Accounted trace' ⟨p, inTrap⟩ ∧ p.level = s.proc.level + 1 := by
  have hlow := h.low
  have hnext : p.level = s.proc.level + 1 := by
    rw [hlevel, i32_eq_self ⟨by omega, by omega⟩]
  exact ⟨accounted_zero (hmode.trans h.mode) (by dsimp only; omega) (by dsimp only; omega) hticks
    hruntime hcharges, hnext⟩

theorem Accounted.timer (hok : step s .timer = .ok (s', reply)) :
    Accounted ((s, .timer, reply) :: trace) s' ∧ (reply.demoted = true →
      s'.proc.level = s.proc.level + 1 ∧ ∃ a q, tableEntry allotment s.proc.level = .ok a ∧
        tableEntry quantum s.proc.level = .ok q ∧ a ≤ charges trace ∧ charges trace ≤ a + q) := by
  obtain ⟨⟨p, yields⟩, htimer, hok⟩ := bind_eq_ok.mp hok
  obtain ⟨q, hq⟩ : ∃ q, tableEntry quantum s.proc.level = .ok q := by
    obtain ⟨-, hq, -⟩ | ⟨-, hq, -⟩ | ⟨-, hq⟩ := table_cases h.low h.high
    · exact ⟨_, hq⟩
    · exact ⟨_, hq⟩
    · exact ⟨_, hq⟩
  rw [Proc.timer_mlfq h.mode h.low h.high hq] at htimer
  split at htimer
  · rename_i hend
    cases Except.ok.inj htimer
    cases Except.ok.inj hok
    by_cases hspent : s.proc.Spent
    · rw [Proc.rollOver, if_pos hspent]
      have hlevel := Proc.level_of_spent h.high hspent
      obtain ⟨a, q', ha, hq', -⟩ := h.tables hlevel
      cases Except.ok.inj (hq.symm.trans hq')
      have hfound := (Proc.spent_iff hlevel ha).mp hspent
      have hcounted := h.counted hlevel
      have hbounded := h.bounded a q ha hq
      obtain ⟨haccounted, hnext⟩ :
          Accounted ((s, .timer, ⟨true, true⟩) :: trace) ⟨s.proc.clearTicks.demote, true⟩ ∧
            s.proc.clearTicks.demote.level = s.proc.level + 1 :=
        h.demote hlevel rfl rfl rfl rfl rfl
      have hdown : s.proc.level < s.proc.clearTicks.demote.level := by omega
      rw [decide_eq_true hdown]
      exact ⟨haccounted, fun _ => ⟨hnext, a, q, ha, hq, by omega, by omega⟩⟩
    · have hsame : s.proc.clearTicks.level = s.proc.level := rfl
      rw [Proc.rollOver, if_neg hspent, hsame, decide_eq_false (lt_irrefl s.proc.level)]
      refine ⟨⟨h.mode, h.low, h.high, fun _ => rfl, h.counted, fun hlevel => ?_,
        fun a q ha _ => .inl ?_⟩, nofun⟩
      · have hticks := h.ticks hlevel
        exact ⟨le_rfl, hticks.1.trans hticks.2⟩
      · have hlevel := h.level_of_allotment ha
        rw [Proc.spent_iff hlevel ha] at hspent
        exact lt_of_not_ge hspent
  · rename_i hrest
    cases Except.ok.inj htimer
    cases Except.ok.inj hok
    refine ⟨h.charge (fun a q' _ hq' => ?_) rfl, nofun⟩
    cases Except.ok.inj (hq.symm.trans hq')
    omega

theorem Accounted.sysYield (hok : step s .sysYield = .ok (s', reply)) :
    Accounted ((s, .sysYield, reply) :: trace) s' ∧ (reply.demoted = true →
      s'.proc.level = s.proc.level + 1 ∧ ∃ a q, tableEntry allotment s.proc.level = .ok a ∧
        tableEntry quantum s.proc.level = .ok q ∧ a ≤ charges trace + 1 ∧
        charges trace + 1 ≤ a + q) := by
  obtain ⟨p, hyield, hok⟩ := bind_eq_ok.mp hok
  cases Except.ok.inj hok
  rw [Proc.sysYield_eq h.low h.high] at hyield
  cases Except.ok.inj hyield
  have hsame : s.proc.charge.level = s.proc.level := rfl
  by_cases hspent : s.proc.charge.Spent
  · rw [if_pos hspent]
    have hlevel : s.proc.level < 2 := Proc.level_of_spent (p := s.proc.charge) h.high hspent
    obtain ⟨a, q, ha, hq, hpos, -⟩ := h.tables hlevel
    have hfound := (Proc.spent_iff (p := s.proc.charge) hlevel ha).mp hspent
    have hcharge := (h.charge_eq hlevel).2
    have hcounted := h.counted hlevel
    have hbounded := h.bounded a q ha hq
    obtain ⟨haccounted, hnext⟩ :
        Accounted ((s, .sysYield, ⟨true, true⟩) :: trace) ⟨s.proc.charge.demote.clearTicks, false⟩ ∧
          s.proc.charge.demote.clearTicks.level = s.proc.level + 1 :=
      h.demote hlevel rfl rfl rfl rfl rfl
    have hdown : s.proc.level < s.proc.charge.demote.clearTicks.level := by omega
    rw [decide_eq_true hdown]
    exact ⟨haccounted, fun _ => ⟨hnext, a, q, ha, hq, by omega, by omega⟩⟩
  · rw [if_neg hspent, hsame, decide_eq_false (lt_irrefl s.proc.level)]
    refine ⟨h.charge (fun a q ha _ => .inl ?_) rfl, nofun⟩
    have hlevel := h.level_of_allotment ha
    rw [Proc.spent_iff (p := s.proc.charge) hlevel ha, (h.charge_eq hlevel).2] at hspent
    omega

end Step

theorem accounted_step (h : Accounted trace s) (hallowed : s.Allowed event)
    (hok : step s event = .ok (s', reply)) : Accounted ((s, event, reply) :: trace) s' ∧
      (reply.demoted = true → s'.proc.level = s.proc.level + 1 ∧
        ∃ a q, tableEntry allotment s.proc.level = .ok a ∧
          tableEntry quantum s.proc.level = .ok q ∧ a ≤ found trace event ∧
          found trace event ≤ a + q) := by
  cases event with
  | timer => exact h.timer hok
  | sysYield => exact h.sysYield hok
  | resume =>
    cases Except.ok.inj hok
    have hticks := h.trap hallowed
    refine ⟨h.charge (fun a q ha hq => .inr ?_) rfl, nofun⟩
    obtain ⟨a', q', -, hq', hpos, -⟩ := h.tables (h.level_of_allotment ha)
    cases Except.ok.inj (hq.symm.trans hq')
    omega
  | boost =>
    cases Except.ok.inj hok
    exact ⟨accounted_zero h.mode le_rfl (show (0 : Int) ≤ 2 by decide) rfl rfl rfl, nofun⟩
  | select pass =>
    cases Except.ok.inj hok
    exact ⟨⟨hallowed.mpr h.mode, h.low, h.high, h.trap, h.counted, h.ticks, h.bounded⟩, nofun⟩

theorem step_total (hlow : 0 ≤ s.proc.level) (hhigh : s.proc.level ≤ 2) (event : Event) :
    ∃ result, step s event = .ok result := by
  cases event with
  | timer =>
    by_cases hmode : s.proc.passValue = -1
    · obtain ⟨-, hq, -⟩ | ⟨-, hq, -⟩ | ⟨-, hq⟩ := table_cases hlow hhigh <;>
      · unfold step
        dsimp only
        rw [Proc.timer_mlfq hmode hlow hhigh hq]
        dsimp only [bind, Except.bind]
        split <;> exact ⟨_, rfl⟩
    · unfold step Proc.timer
      dsimp only
      rw [if_pos hmode]
      split <;> exact ⟨_, rfl⟩
  | sysYield =>
    unfold step
    dsimp only
    rw [Proc.sysYield_eq hlow hhigh]
    exact ⟨_, rfl⟩
  | resume => exact ⟨_, rfl⟩
  | boost => exact ⟨_, rfl⟩
  | select pass => exact ⟨_, rfl⟩

def fresh : Proc := { Proc.zero with passValue := -1 }

def demotesWith (trace : List (Timed × Event × Reply)) (s : Timed) (event : Event) (n : Nat) :
    Bool :=
  match step s event with
  | .ok (_, reply) => reply.demoted && found trace event == n
  | .error _ => false

end Timed

/-- The statements of `sys_yield`. Interrupts are on, so that the timer may come before each. -/
inductive Stmt where
  | ticks | runtime | test | level | clearRuntime | clearTicks | yield
  deriving DecidableEq

namespace Stmt

def run (p : Proc) : Stmt → Except Fault (Proc × Option Stmt)
  | .ticks => .ok ({ p with ticks := i32 (p.ticks + 1) }, some .runtime)
  | .runtime => .ok ({ p with runtime := i32 (p.runtime + 1) }, some .test)
  | .test => p.usedUp.map fun used => (p, some (if used then .level else .yield))
  | .level => .ok ({ p with level := i32 (p.level + 1) }, some .clearRuntime)
  | .clearRuntime => .ok ({ p with runtime := 0 }, some .clearTicks)
  | .clearTicks => .ok ({ p with ticks := 0 }, some .yield)
  | .yield => .ok (p, none)

/-- At most `n` statements, one right after the other. -/
def finish : Nat → Proc → Option Stmt → Except Fault Proc
  | 0, p, _ => .ok p
  | _, p, none => .ok p
  | n + 1, p, some stmt => do
      let (p, next) ← stmt.run p
      finish n p next

/-- Without an interrupt the statements are `sys_yield`. -/
theorem finish_eq_sysYield (p : Proc) : finish 7 p (some .ticks) = p.sysYield := by
  change (Except.map _ p.charge.usedUp).bind _ = p.charge.usedUp.bind _
  cases p.charge.usedUp with
  | error e => rfl
  | ok used =>
    cases used with
    | false => rfl
    | true => rfl

end Stmt

/-- A process that may be inside `sys_yield`, in front of a statement. -/
structure Yielding extends Timed where
  stmt : Option Stmt

namespace Yielding

open Timed

inductive Act where
  | event (event : Event)
  | call
  | next
  deriving DecidableEq

def step : Machine Yielding Act Unit Fault := fun s a =>
  match a with
  | .event event => do
      let (timed, _) ← Timed.step s.toTimed event
      return ({ s with toTimed := timed }, ())
  | .call => .ok ({ s with stmt := some .ticks }, ())
  | .next =>
      match s.stmt with
      | none => .ok (s, ())
      | some stmt => do
          let (p, stmt) ← stmt.run s.proc
          return ({ s with proc := p, stmt }, ())

def Allowed (s : Yielding) : Act → Prop
  | .event event => event ≠ .sysYield ∧ s.toTimed.Allowed event
  | .call => s.inTrap = false ∧ s.stmt = none
  | .next => s.inTrap = false ∧ s.stmt ≠ none

instance (s : Yielding) : (a : Act) → Decidable (s.Allowed a)
  | .event event => inferInstanceAs (Decidable (event ≠ .sysYield ∧ s.toTimed.Allowed event))
  | .call => inferInstanceAs (Decidable (s.inTrap = false ∧ s.stmt = none))
  | .next => inferInstanceAs (Decidable (s.inTrap = false ∧ s.stmt ≠ none))

/-- `sys_yield` with a timer interrupt between its test and its `level++`. -/
def overtaken : List Act :=
  [.call, .next, .next, .next, .event .timer, .event .resume, .next, .next, .next, .next]

def timers (n : Nat) : List Act := List.replicate n (.event .timer)

def quantumOf (n : Nat) : List Act := [.event .timer, .event .resume] ++ timers n

end Yielding

end Xv6

import Xv6.Mlfq.Allotment

/-! The time quantum. The timer looks at `ticks` before it adds to it, so that a process whose
count begins at 0 gets one timer interrupt more than its quantum before it is made to yield. -/
namespace Xv6

open Word Fallible Transition

namespace Timed

variable {s s' : Timed} {event : Event} {reply : Reply} {trace : List (Timed × Event × Reply)}
  {q : Int}

def limit (s : Timed) : Except Fault Int :=
  if s.proc.passValue ≠ -1 then .ok 5 else tableEntry quantum s.proc.level

/-- Here `select` may also change the mode, as `set_cpu_share` does. -/
def AnyMode (s : Timed) : Event → Prop
  | .select _ => True
  | event => s.Allowed event

instance (s : Timed) : (event : Event) → Decidable (s.AnyMode event)
  | .select _ => inferInstanceAs (Decidable True)
  | .timer => inferInstanceAs (Decidable (s.Allowed .timer))
  | .sysYield => inferInstanceAs (Decidable (s.Allowed .sysYield))
  | .resume => inferInstanceAs (Decidable (s.Allowed .resume))
  | .boost => inferInstanceAs (Decidable (s.Allowed .boost))

def Marks (event : Event) (reply : Reply) : Prop := event = .boost ∨ reply.yielded = true

theorem not_marks (hboost : event ≠ .boost) (hyield : reply.yielded = false) :
    ¬ Marks event reply := by
  rintro (hevent | hreply)
  · exact hboost hevent
  · rw [hyield] at hreply
    cases hreply

def timers : List (Timed × Event × Reply) → Nat
  | [] => 0
  | (_, .timer, _) :: trace => timers trace + 1
  | _ :: trace => timers trace

def Unbroken (trace : List (Timed × Event × Reply)) : Prop := ∀ x ∈ trace, ¬ Marks x.2.1 x.2.2

/-- From here on the process is made to yield no later than on the timer interrupt that its
quantum says. -/
def InTime (s : Timed) : Prop :=
  ∀ trace s' q, Run step Allowed s trace s' → Unbroken trace → s.limit = .ok q → timers trace < q

def started (s : Timed) : Int := s.proc.ticks + if s.inTrap then 1 else 0

theorem started_of_user (h : s.inTrap = false) : s.started = s.proc.ticks := by
  rw [started, if_neg (by rw [h]; decide), add_zero]

theorem started_of_trap (h : s.inTrap = true) : s.started = s.proc.ticks + 1 := by
  rw [started, if_pos h]

structure Sane (s : Timed) : Prop where
  low : 0 ≤ s.proc.level
  high : s.proc.level ≤ 2
  int : IsInt s.proc.ticks
  trap : s.inTrap = true → s.proc.ticks = 0

theorem Sane.limit_ok (h : s.Sane) : ∃ q, s.limit = .ok q ∧ 1 ≤ q ∧ q ≤ 20 := by
  unfold limit
  split
  · exact ⟨5, rfl, by decide, by decide⟩
  · obtain ⟨-, hq, -⟩ | ⟨-, hq, -⟩ | ⟨-, hq⟩ := table_cases h.low h.high
    · exact ⟨5, hq, by decide, by decide⟩
    · exact ⟨10, hq, by decide, by decide⟩
    · exact ⟨20, hq, by decide, by decide⟩

/-- A timer interrupt makes the process yield if its ticks have reached the limit, and charges it
otherwise. -/
theorem Sane.timer (h : s.Sane) (hq : s.limit = .ok q) :
    q ≤ s.proc.ticks ∧ (∃ p demoted, step s .timer = .ok (⟨p, true⟩, ⟨true, demoted⟩) ∧
      p.ticks = 0 ∧ 0 ≤ p.level ∧ p.level ≤ 2) ∨
    s.proc.ticks < q ∧ step s .timer = .ok (⟨s.proc.charge, false⟩, ⟨false, false⟩) := by
  unfold limit at hq
  by_cases hmode : s.proc.passValue = -1
  · rw [if_neg (not_not.mpr hmode)] at hq
    have htimer := Proc.timer_mlfq hmode h.low h.high hq
    unfold step
    dsimp only
    rw [htimer]
    split
    · rename_i hend
      exact .inl ⟨hend, _, _, rfl, s.proc.rollOver_ticks, Proc.rollOver_level h.low h.high⟩
    · rename_i hrest
      exact .inr ⟨by omega, rfl⟩
  · rw [if_pos hmode] at hq
    cases Except.ok.inj hq
    unfold step Proc.timer
    dsimp only
    rw [if_pos hmode]
    split
    · rename_i hend
      exact .inl ⟨hend, _, _, rfl, rfl, h.low, h.high⟩
    · rename_i hrest
      exact .inr ⟨by omega, rfl⟩

theorem Sane.step (h : s.Sane) (hallowed : s.AnyMode event)
    (hok : step s event = .ok (s', reply)) : s'.Sane := by
  cases event with
  | timer =>
    obtain ⟨q, hq, -⟩ := h.limit_ok
    rcases h.timer hq with ⟨-, p, demoted, htimer, hticks, hlow, hhigh⟩ | ⟨-, htimer⟩
    · cases Except.ok.inj (hok.symm.trans htimer)
      exact ⟨hlow, hhigh, by dsimp only; rw [hticks]; decide, fun _ => hticks⟩
    · cases Except.ok.inj (hok.symm.trans htimer)
      exact ⟨h.low, h.high, i32_isInt _, nofun⟩
  | sysYield =>
    obtain ⟨p, hyield, hok⟩ := bind_eq_ok.mp hok
    cases Except.ok.inj hok
    rw [Proc.sysYield_eq h.low h.high] at hyield
    cases Except.ok.inj hyield
    split
    · rename_i hspent
      have hlevel : s.proc.level < 2 := Proc.level_of_spent (p := s.proc.charge) h.high hspent
      have hnext : s.proc.charge.demote.clearTicks.level = s.proc.level + 1 :=
        Proc.demote_level (p := s.proc.charge) h.low hlevel
      have hlow := h.low
      exact ⟨by dsimp only; omega, by dsimp only; omega, show IsInt 0 by decide, nofun⟩
    · exact ⟨h.low, h.high, i32_isInt _, nofun⟩
  | resume =>
    cases Except.ok.inj hok
    exact ⟨h.low, h.high, i32_isInt _, nofun⟩
  | boost =>
    cases Except.ok.inj hok
    exact ⟨le_rfl, show (0 : Int) ≤ 2 by decide, show IsInt 0 by decide, fun _ => rfl⟩
  | select pass =>
    cases Except.ok.inj hok
    exact ⟨h.low, h.high, h.int, h.trap⟩

/-- Along a run without a yield or a boost the ticks count the timer interrupts. -/
structure Counting (s : Timed) (q : Int) (trace : List (Timed × Event × Reply)) (s' : Timed) :
    Prop where
  sane : s'.Sane
  limit : s'.limit = .ok q
  ticks : s'.started = s.started + timers trace
  below : 0 < timers trace → s'.started ≤ q

theorem Counting.step (h : Counting s q trace s') {s'' : Timed} (hallowed : s'.Allowed event)
    (hmarks : ¬ Marks event reply) (hsmall : q ≤ 20)
    (hok : Timed.step s' event = .ok (s'', reply)) :
    Counting s q ((s', event, reply) :: trace) s'' := by
  have hany : s'.AnyMode event := by
    cases event with
    | select pass => trivial
    | _ => exact hallowed
  have hsane := h.sane.step hany hok
  have hint := h.sane.int
  cases event with
  | timer =>
    rcases h.sane.timer h.limit with ⟨-, p, demoted, htimer, -⟩ | ⟨hless, htimer⟩
    · cases Except.ok.inj (hok.symm.trans htimer)
      exact absurd (.inr rfl) hmarks
    · cases Except.ok.inj (hok.symm.trans htimer)
      have hcharge : s'.proc.charge.ticks = s'.proc.ticks + 1 :=
        i32_eq_self ⟨by have := hint.1; omega, by omega⟩
      have hbefore := started_of_user hallowed
      have hafter : started ⟨s'.proc.charge, false⟩ = s'.started + 1 := by
        rw [started_of_user rfl, hbefore]
        exact hcharge
      have htimers : timers ((s', .timer, ⟨false, false⟩) :: trace) = timers trace + 1 := rfl
      refine ⟨hsane, h.limit, ?_, fun _ => by omega⟩
      rw [hafter, h.ticks, htimers]
      omega
  | sysYield =>
    obtain ⟨p, -, hok⟩ := bind_eq_ok.mp hok
    cases Except.ok.inj hok
    exact absurd (.inr rfl) hmarks
  | boost => exact absurd (.inl rfl) hmarks
  | resume =>
    cases Except.ok.inj hok
    have hzero := h.sane.trap hallowed
    have hsame : started ⟨s'.proc.charge, false⟩ = s'.started := by
      have hcharge : s'.proc.charge.ticks = s'.proc.ticks + 1 :=
        i32_eq_self ⟨by omega, by omega⟩
      rw [started_of_user rfl, started_of_trap hallowed]
      exact hcharge
    exact ⟨hsane, h.limit, hsame.trans h.ticks, fun hpos => hsame.le.trans (h.below hpos)⟩
  | select pass =>
    cases Except.ok.inj hok
    refine ⟨hsane, ?_, h.ticks, h.below⟩
    have hlimit := h.limit
    unfold Timed.limit at hlimit ⊢
    rw [← hlimit]
    exact if_congr (not_congr hallowed) rfl rfl

theorem Sane.counting (h : s.Sane) (hq : s.limit = .ok q) (hsmall : q ≤ 20)
    (hrun : Run Timed.step Allowed s trace s') (hunbroken : Unbroken trace) :
    Counting s q trace s' := by
  refine hrun.invariant (fun trace s' => Unbroken trace → Counting s q trace s') ?_ ?_ hunbroken
  · exact fun _ => ⟨h, hq, (add_zero s.started).symm, fun hpos => absurd hpos (Nat.lt_irrefl 0)⟩
  · intro trace s1 event s2 reply ih hallowed hok hunbroken
    exact (ih fun x hx => hunbroken x (List.mem_cons_of_mem _ hx)).step hallowed
      (hunbroken _ List.mem_cons_self) hsmall hok

/-- With no more than `n` ticks to begin with, `n` timer interrupts pass without a yield. -/
theorem Sane.lasts (h : s.Sane) (hq : s.limit = .ok q) (hsmall : q ≤ 20) (hstart : s.started ≤ 0)
    (n : Nat) (hn : n ≤ q) : ∃ trace s', Run Timed.step Allowed s trace s' ∧ Unbroken trace ∧
      s'.inTrap = false ∧ timers trace = n := by
  induction n with
  | zero =>
    cases htrap : s.inTrap with
    | false => exact ⟨[], s, .start, fun _ hx => absurd hx List.not_mem_nil, htrap, rfl⟩
    | true =>
      have hallowed : s.Allowed .resume := htrap
      have hok : Timed.step s .resume = .ok (⟨s.proc.charge, false⟩, ⟨false, false⟩) := rfl
      refine ⟨_, _, .step .start hallowed hok, fun x hx => ?_, rfl, rfl⟩
      rw [List.mem_singleton.mp hx]
      exact not_marks nofun rfl
  | succ n ih =>
    obtain ⟨trace, s', hrun, hunbroken, htrap, hcount⟩ := ih (by omega)
    have hcounting := h.counting hq hsmall hrun hunbroken
    have hstarted := started_of_user htrap
    have hticks := hcounting.ticks
    rcases hcounting.sane.timer hcounting.limit with ⟨hend, -⟩ | ⟨-, htimer⟩
    · omega
    · have hallowed : s'.Allowed .timer := htrap
      refine ⟨_, _, .step hrun hallowed htimer, fun x hx => ?_, rfl, congrArg (· + 1) hcount⟩
      rcases List.mem_cons.mp hx with rfl | hx
      · exact not_marks nofun rfl
      · exact hunbroken x hx

/-- A process is made to yield in time exactly if its count of ticks does not begin at 0. -/
theorem inTime_iff {p : Proc} (hfresh : p.Fresh) (hreaches : Reaches step AnyMode ⟨p, false⟩ s) :
    s.InTime ↔ 1 ≤ s.started := by
  obtain ⟨hlevel, hticks, -, -⟩ := hfresh
  have hsane : s.Sane := by
    refine hreaches.invariant Sane ⟨hlevel.ge, ?_, ?_, fun _ => hticks⟩
      fun _ _ _ _ h hallowed hok => h.step hallowed hok
    · dsimp only
      omega
    · dsimp only
      rw [hticks]
      decide
  obtain ⟨q, hq, hpos, hsmall⟩ := hsane.limit_ok
  constructor
  · intro hintime
    by_contra hstart
    obtain ⟨trace, s', hrun, hunbroken, -, hcount⟩ :=
      hsane.lasts hq hsmall (by omega) q.toNat (by omega)
    have := hintime trace s' q hrun hunbroken hq
    omega
  · intro hstart trace s' q' hrun hunbroken hq'
    cases Except.ok.inj (hq.symm.trans hq')
    have hcounting := hsane.counting hq hsmall hrun hunbroken
    have hticks := hcounting.ticks
    by_cases hzero : timers trace = 0
    · omega
    · have hbelow := hcounting.below (by omega)
      omega

/-- A process that has yielded after its first quantum is in time from then on. -/
theorem inTime_iff_yielded : ∃ s, Reaches step AnyMode ⟨fresh, false⟩ s ∧
    s.inTrap = true ∧ (s.InTime ↔ 1 ≤ s.started) := by
  obtain ⟨s, hreaches, htest⟩ := exists_reaches step AnyMode ⟨fresh, false⟩
    (List.replicate 6 .timer) (fun s => s.inTrap) (by decide +kernel)
  exact ⟨s, hreaches, htest, inTime_iff ⟨rfl, rfl, rfl, rfl⟩ hreaches⟩

/-- Right after its creation a process gets five timer interrupts, its whole quantum, without
being made to yield. -/
theorem fresh_late : limit ⟨fresh, false⟩ = .ok 5 ∧ ¬ InTime ⟨fresh, false⟩ := by
  refine ⟨rfl, fun hintime => ?_⟩
  obtain ⟨trace, s, hrun, htest⟩ := exists_run step Allowed ⟨fresh, false⟩
    (List.replicate 5 .timer)
    (fun trace _ => timers trace = 5 ∧ trace.all fun x => x.2.1 ≠ .boost ∧ x.2.2.yielded = false)
    (by decide +kernel)
  simp only [decide_eq_true_eq] at htest
  obtain ⟨hcount, hall⟩ := htest
  have hless := hintime trace s 5 hrun (fun x hx => ?_) rfl
  · omega
  · have hx := List.all_eq_true.mp hall x hx
    simp only [decide_eq_true_eq] at hx
    exact not_marks hx.1 hx.2

end Timed

end Xv6

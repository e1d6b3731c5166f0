import Mathlib.Logic.Basic

/-! Guarded runs of a deterministic machine that can fault. A run is a list of
performed actions; every action was allowed in the state it started from and
did not fault. Invariants of runs reduce to one obligation per action. -/
namespace Transition

variable {State Act Out Err : Type}

abbrev Machine (State Act Out Err : Type) := State → Act → Except Err (State × Out)

/-- The runs of `machine` that start in `start` and take only `allowed` actions.
The trace lists every action with the state it started from and its answer, the latest
first. -/
inductive Run (machine : Machine State Act Out Err) (allowed : State → Act → Prop)
    (start : State) : List (State × Act × Out) → State → Prop where
  | start : Run machine allowed start [] start
  | step {trace state action next out} :
      Run machine allowed start trace state → allowed state action →
      machine state action = .ok (next, out) →
      Run machine allowed start ((state, action, out) :: trace) next

def Reaches (machine : Machine State Act Out Err) (allowed : State → Act → Prop)
    (start finish : State) : Prop :=
  ∃ trace, Run machine allowed start trace finish

variable {machine : Machine State Act Out Err} {allowed : State → Act → Prop}

/-- What holds initially and is kept by every allowed step holds along a run.
The trace is part of the invariant, so that it can speak about the past. -/
theorem Run.invariant {start finish : State} {trace : List (State × Act × Out)}
    (inv : List (State × Act × Out) → State → Prop) (initial : inv [] start)
    (preserved : ∀ trace state action next out, inv trace state → allowed state action →
      machine state action = .ok (next, out) → inv ((state, action, out) :: trace) next)
    (run : Run machine allowed start trace finish) : inv trace finish := by
  induction run with
  | start => exact initial
  | step _ hallowed hstep ih => exact preserved _ _ _ _ _ ih hallowed hstep

theorem Run.mono {start finish : State} {trace : List (State × Act × Out)}
    {allowed' : State → Act → Prop}
    (h : ∀ state action, allowed state action → allowed' state action)
    (run : Run machine allowed start trace finish) : Run machine allowed' start trace finish :=
  run.invariant (Run machine allowed' start) .start
    fun _ state action _ _ run' hallowed hstep => run'.step (h state action hallowed) hstep

theorem Run.allowed_of_mem {start finish state : State} {action : Act} {out : Out}
    {trace : List (State × Act × Out)} (run : Run machine allowed start trace finish)
    (hmem : (state, action, out) ∈ trace) : allowed state action := by
  induction run with
  | start => cases hmem
  | step _ hallowed _ ih =>
    cases hmem with
    | head => exact hallowed
    | tail _ hmem => exact ih hmem

theorem Reaches.invariant {start finish : State} (inv : State → Prop) (initial : inv start)
    (preserved : ∀ state action next out, inv state → allowed state action →
      machine state action = .ok (next, out) → inv next)
    (reaches : Reaches machine allowed start finish) : inv finish := by
  obtain ⟨trace, run⟩ := reaches
  exact run.invariant (fun _ state => inv state) initial
    (fun _ state action next out => preserved state action next out)

theorem Reaches.step {start state next : State} {action : Act} {out : Out}
    (reaches : Reaches machine allowed start state) (hallowed : allowed state action)
    (hstep : machine state action = .ok (next, out)) : Reaches machine allowed start next := by
  obtain ⟨trace, run⟩ := reaches
  exact ⟨_, run.step hallowed hstep⟩

/-- Replay a list of actions from a state, checking every guard and adding to the trace;
`none` when a guard fails or the machine faults. -/
def replay (machine : Machine State Act Out Err) (allowed : State → Act → Prop)
    [∀ s a, Decidable (allowed s a)] :
    List Act → List (State × Act × Out) → State → Option (List (State × Act × Out) × State)
  | [], trace, state => some (trace, state)
  | action :: rest, trace, state =>
      if allowed state action then
        match machine state action with
        | .ok (next, out) => replay machine allowed rest ((state, action, out) :: trace) next
        | .error _ => none
      else none

theorem run_of_replay [∀ s a, Decidable (allowed s a)] (actions : List Act)
    {start state finish : State} {trace trace' : List (State × Act × Out)}
    (run : Run machine allowed start trace state)
    (h : replay machine allowed actions trace state = some (trace', finish)) :
    Run machine allowed start trace' finish := by
  induction actions generalizing trace state with
  | nil =>
    cases Option.some.inj h
    exact run
  | cons action rest ih =>
    unfold replay at h
    split at h
    · rename_i hallowed
      split at h
      · rename_i next out hstep
        exact ih (run.step hallowed hstep) h
      · contradiction
    · contradiction

theorem exists_run (machine : Machine State Act Out Err) (allowed : State → Act → Prop)
    [∀ s a, Decidable (allowed s a)] (start : State) (actions : List Act)
    (test : List (State × Act × Out) → State → Bool)
    (h : (replay machine allowed actions [] start).any (fun r => test r.1 r.2) = true) :
    ∃ trace finish, Run machine allowed start trace finish ∧ test trace finish = true := by
  cases hreplay : replay machine allowed actions [] start with
  | none =>
    rw [hreplay] at h
    cases h
  | some result =>
    rw [hreplay] at h
    exact ⟨result.1, result.2, run_of_replay actions .start hreplay, h⟩

theorem exists_reaches (machine : Machine State Act Out Err) (allowed : State → Act → Prop)
    [∀ s a, Decidable (allowed s a)] (start : State) (actions : List Act) (test : State → Bool)
    (h : (replay machine allowed actions [] start).any (fun r => test r.2) = true) :
    ∃ finish, Reaches machine allowed start finish ∧ test finish = true := by
  obtain ⟨trace, finish, run, htest⟩ :=
    exists_run machine allowed start actions (fun _ state => test state) h
  exact ⟨finish, ⟨trace, run⟩, htest⟩

def faultOf (machine : Machine State Act Out Err) (state : State) (action : Act) : Option Err :=
  match machine state action with
  | .ok _ => none
  | .error fault => some fault

theorem faultOf_eq_some {state : State} {action : Act} {fault : Err}
    (h : faultOf machine state action = some fault) : machine state action = .error fault := by
  unfold faultOf at h
  split at h
  · cases h
  · rename_i heq
    cases h
    exact heq

def succeeds (machine : Machine State Act Out Err) (state : State) (action : Act)
    (test : State → Out → Bool) : Bool :=
  match machine state action with
  | .ok (next, out) => test next out
  | .error _ => false

theorem exists_of_succeeds {state : State} {action : Act} {test : State → Out → Bool}
    (h : succeeds machine state action test = true) :
    ∃ next out, machine state action = .ok (next, out) ∧ test next out = true := by
  unfold succeeds at h
  split at h
  · rename_i next out heq
    exact ⟨next, out, heq, h⟩
  · cases h

end Transition

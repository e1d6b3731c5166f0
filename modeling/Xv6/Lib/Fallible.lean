import Mathlib.Logic.Basic

/-! Inversion of computations in `Except`. -/
namespace Fallible

variable {Err α β : Type}

theorem bind_eq_ok {x : Except Err α} {f : α → Except Err β} {b : β} :
    (x >>= f) = .ok b ↔ ∃ a, x = .ok a ∧ f a = .ok b := by
  cases x with
  | error fault => simp [bind, Except.bind]
  | ok a => simp [bind, Except.bind]

theorem map_eq_ok {x : Except Err α} {f : α → β} {b : β} :
    x.map f = .ok b ↔ ∃ a, x = .ok a ∧ f a = b := by
  cases x with
  | error fault => simp [Except.map]
  | ok a => simp [Except.map]

theorem bind_eq_error {x : Except Err α} {f : α → Except Err β} {e : Err} :
    (x >>= f) = .error e ↔ x = .error e ∨ ∃ a, x = .ok a ∧ f a = .error e := by
  cases x with
  | error fault => simp [bind, Except.bind]
  | ok a => simp [bind, Except.bind]

theorem map_eq_error {x : Except Err α} {f : α → β} {e : Err} :
    x.map f = .error e ↔ x = .error e := by
  cases x with
  | error fault => simp [Except.map]
  | ok a => simp [Except.map]

theorem foldlM_invariant {step : β → α → Except Err β} (inv : β → Prop)
    (preserved : ∀ b a b', inv b → step b a = .ok b' → inv b') (items : List α) {start finish : β}
    (initial : inv start) (h : items.foldlM step start = .ok finish) : inv finish := by
  induction items generalizing start with
  | nil =>
    cases Except.ok.inj h
    exact initial
  | cons item rest ih =>
    rw [List.foldlM_cons] at h
    obtain ⟨next, hstep, hrest⟩ := bind_eq_ok.mp h
    exact ih (preserved _ _ _ initial hstep) hrest

theorem foldlM_error {step : β → α → Except Err β} (items : List α) {start : β} {e : Err}
    (h : items.foldlM step start = .error e) : ∃ b a, step b a = .error e := by
  induction items generalizing start with
  | nil => cases h
  | cons item rest ih =>
    rw [List.foldlM_cons] at h
    rcases bind_eq_error.mp h with hstep | ⟨next, -, hrest⟩
    · exact ⟨start, item, hstep⟩
    · exact ih hrest

def Avoids (e : Err) (x : Except Err α) : Prop := x ≠ .error e

section Avoids

variable {e : Err}

theorem avoids_ok (a : α) : Avoids e (.ok a) := nofun

theorem avoids_error {e' : Err} (h : e' ≠ e) : Avoids e (.error e' : Except Err α) :=
  fun heq => h (Except.error.inj heq)

theorem Avoids.bind {x : Except Err α} {f : α → Except Err β} (h : Avoids e x)
    (hrest : ∀ a, x = .ok a → Avoids e (f a)) : Avoids e (x >>= f) := by
  intro heq
  rcases bind_eq_error.mp heq with hfirst | ⟨a, hfirst, hsecond⟩
  · exact h hfirst
  · exact hrest a hfirst hsecond

theorem Avoids.map {x : Except Err α} {f : α → β} (h : Avoids e x) : Avoids e (x.map f) :=
  fun heq => h (map_eq_error.mp heq)

theorem avoids_foldlM {step : β → α → Except Err β} (h : ∀ b a, Avoids e (step b a))
    (items : List α) (start : β) : Avoids e (items.foldlM step start) := by
  intro heq
  obtain ⟨b, a, hstep⟩ := foldlM_error items heq
  exact h b a hstep

end Avoids

variable {α' β' : Type}

inductive Agree (R : α → α' → Prop) : Except Err α → Except Err α' → Prop
  | ok {a : α} {a' : α'} (h : R a a') : Agree R (.ok a) (.ok a')
  | error (e : Err) : Agree R (.error e) (.error e)

theorem Agree.bind {R : α → α' → Prop} {S : β → β' → Prop} {x : Except Err α} {x' : Except Err α'}
    {f : α → Except Err β} {f' : α' → Except Err β'} (h : Agree R x x')
    (hrest : ∀ a a', R a a' → Agree S (f a) (f' a')) : Agree S (x >>= f) (x' >>= f') := by
  cases h with
  | ok h => exact hrest _ _ h
  | error e => exact .error e

theorem Agree.map {R : α → α' → Prop} {S : β → β' → Prop} {x : Except Err α} {x' : Except Err α'}
    {f : α → β} {f' : α' → β'} (h : Agree R x x') (hrest : ∀ a a', R a a' → S (f a) (f' a')) :
    Agree S (x.map f) (x'.map f') := by
  cases h with
  | ok h => exact .ok (hrest _ _ h)
  | error e => exact .error e

theorem Agree.eq_ok {R : α → α' → Prop} {x : Except Err α} {a' : α'} (h : Agree R x (.ok a')) :
    ∃ a, x = .ok a ∧ R a a' := by
  cases h with
  | ok h => exact ⟨_, rfl, h⟩

theorem Agree.eq_error {R : α → α' → Prop} {x : Except Err α} {e : Err}
    (h : Agree R x (.error e)) : x = .error e := by
  cases h with
  | error e => rfl

theorem agree_self (x : Except Err α) : Agree Eq x x := by
  cases x with
  | ok a => exact .ok rfl
  | error e => exact .error e

end Fallible

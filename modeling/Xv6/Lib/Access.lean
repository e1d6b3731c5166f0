import Mathlib.Tactic.Common

/-! Programs that read and write words of a memory which others change at the same time, so
that a load may find anything. What matters is which addresses an execution can touch; the
rules below compute that along the program. -/
namespace Access

/-- `loop body next` runs `body` until it returns 0, and then `next`. Nothing follows `halt`. -/
inductive Prog where
  | ret (value : Int)
  | load (addr : Nat) (next : Int → Prog)
  | store (addr : Nat) (value : Int) (next : Prog)
  | loop (body next : Prog)
  | halt

def Prog.bind : Prog → (Int → Prog) → Prog
  | .ret v, k => k v
  | .load a next, k => .load a fun v => (next v).bind k
  | .store a v next, k => .store a v (next.bind k)
  | .loop body next, k => .loop body (next.bind k)
  | .halt, _ => .halt

/-- A part of an execution from its start: the addresses it touches, and the value it returns
if it gets that far. -/
inductive Exec : Prog → List Nat → Option Int → Prop where
  | cut (p) : Exec p [] none
  | ret (v) : Exec (.ret v) [] (some v)
  | load {a next v trace r} : Exec (next v) trace r → Exec (.load a next) (a :: trace) r
  | store {a v next trace r} : Exec next trace r → Exec (.store a v next) (a :: trace) r
  | inside {body next trace} : Exec body trace none → Exec (.loop body next) trace none
  | again {body next trace trace' v r} : Exec body trace (some v) → v ≠ 0 →
      Exec (.loop body next) trace' r → Exec (.loop body next) (trace ++ trace') r
  | leave {body next trace trace' r} : Exec body trace (some 0) → Exec next trace' r →
      Exec (.loop body next) (trace ++ trace') r

def Touches (p : Prog) (a : Nat) : Prop := ∃ trace r, Exec p trace r ∧ a ∈ trace

def Returns (p : Prog) (v : Int) : Prop := ∃ trace, Exec p trace (some v)

@[simp] theorem touches_ret (v : Int) (a : Nat) : ¬ Touches (.ret v) a := by
  rintro ⟨trace, r, h, ha⟩
  cases h <;> cases ha

@[simp] theorem touches_halt (a : Nat) : ¬ Touches .halt a := by
  rintro ⟨trace, r, h, ha⟩
  cases h
  cases ha

@[simp] theorem returns_ret (v w : Int) : Returns (.ret v) w ↔ w = v := by
  constructor
  · rintro ⟨trace, h⟩
    cases h
    rfl
  · rintro rfl
    exact ⟨[], .ret w⟩

@[simp] theorem returns_halt (v : Int) : ¬ Returns .halt v := by
  rintro ⟨trace, h⟩
  cases h

@[simp] theorem touches_load (a : Nat) (next : Int → Prog) (b : Nat) :
    Touches (.load a next) b ↔ b = a ∨ ∃ v, Touches (next v) b := by
  constructor
  · rintro ⟨trace, r, h, hb⟩
    cases h with
    | cut => cases hb
    | @load _ _ v trace _ h =>
      rcases List.mem_cons.mp hb with rfl | hb
      · exact .inl rfl
      · exact .inr ⟨v, trace, r, h, hb⟩
  · rintro (rfl | ⟨v, trace, r, h, hb⟩)
    · exact ⟨[b], none, .load (.cut (next 0)), List.mem_cons_self⟩
    · exact ⟨a :: trace, r, .load h, List.mem_cons_of_mem a hb⟩

@[simp] theorem returns_load (a : Nat) (next : Int → Prog) (w : Int) :
    Returns (.load a next) w ↔ ∃ v, Returns (next v) w := by
  constructor
  · rintro ⟨trace, h⟩
    cases h with
    | @load _ _ v trace _ h => exact ⟨v, trace, h⟩
  · rintro ⟨v, trace, h⟩
    exact ⟨a :: trace, .load h⟩

@[simp] theorem touches_store (a : Nat) (v : Int) (next : Prog) (b : Nat) :
    Touches (.store a v next) b ↔ b = a ∨ Touches next b := by
  constructor
  · rintro ⟨trace, r, h, hb⟩
    cases h with
    | cut => cases hb
    | @store _ _ _ trace _ h =>
      rcases List.mem_cons.mp hb with rfl | hb
      · exact .inl rfl
      · exact .inr ⟨trace, r, h, hb⟩
  · rintro (rfl | ⟨trace, r, h, hb⟩)
    · exact ⟨[b], none, .store (.cut next), List.mem_cons_self⟩
    · exact ⟨a :: trace, r, .store h, List.mem_cons_of_mem a hb⟩

@[simp] theorem returns_store (a : Nat) (v : Int) (next : Prog) (w : Int) :
    Returns (.store a v next) w ↔ Returns next w := by
  constructor
  · rintro ⟨trace, h⟩
    cases h with
    | @store _ _ _ trace _ h => exact ⟨trace, h⟩
  · rintro ⟨trace, h⟩
    exact ⟨a :: trace, .store h⟩

/-- An execution of a loop is one of its body, or one of what follows after a last round. -/
theorem exec_loop {body next : Prog} {trace : List Nat} {r : Option Int}
    (h : Exec (.loop body next) trace r) :
    (∀ a ∈ trace, Touches body a ∨ Returns body 0 ∧ Touches next a) ∧
      ∀ v, r = some v → Returns body 0 ∧ Returns next v := by
  generalize hp : Prog.loop body next = p at h
  induction h with
  | cut =>
    refine ⟨fun a ha => ?_, fun v hv => ?_⟩
    · cases ha
    · cases hv
  | ret => cases hp
  | load => cases hp
  | store => cases hp
  | @inside _ _ trace h =>
    cases hp
    refine ⟨fun a ha => .inl ⟨trace, none, h, ha⟩, fun v hv => ?_⟩
    cases hv
  | @again _ _ trace trace' v r h hne _ _ ih =>
    cases hp
    obtain ⟨htouches, hreturns⟩ := ih rfl
    refine ⟨fun a ha => ?_, hreturns⟩
    rcases List.mem_append.mp ha with ha | ha
    · exact .inl ⟨trace, some v, h, ha⟩
    · exact htouches a ha
  | @leave _ _ trace trace' r h h' _ _ =>
    cases hp
    refine ⟨fun a ha => ?_, fun v hv => ⟨⟨trace, h⟩, trace', hv ▸ h'⟩⟩
    rcases List.mem_append.mp ha with ha | ha
    · exact .inl ⟨trace, some 0, h, ha⟩
    · exact .inr ⟨⟨trace, h⟩, trace', r, h', ha⟩

@[simp] theorem touches_loop (body next : Prog) (a : Nat) :
    Touches (.loop body next) a ↔ Touches body a ∨ Returns body 0 ∧ Touches next a := by
  constructor
  · rintro ⟨trace, r, h, ha⟩
    exact (exec_loop h).1 a ha
  · rintro (⟨trace, r, h, ha⟩ | ⟨⟨trace, h⟩, trace', r, h', ha⟩)
    · cases r with
      | none => exact ⟨trace, none, .inside h, ha⟩
      | some v =>
        by_cases hv : v = 0
        · subst hv
          exact ⟨trace ++ [], none, .leave h (.cut next), List.mem_append_left [] ha⟩
        · exact ⟨trace ++ [], none, .again h hv (.cut _), List.mem_append_left [] ha⟩
    · exact ⟨trace ++ trace', r, .leave h h', List.mem_append_right trace ha⟩

@[simp] theorem returns_loop (body next : Prog) (v : Int) :
    Returns (.loop body next) v ↔ Returns body 0 ∧ Returns next v := by
  constructor
  · rintro ⟨trace, h⟩
    exact (exec_loop h).2 v rfl
  · rintro ⟨⟨trace, h⟩, trace', h'⟩
    exact ⟨trace ++ trace', .leave h h'⟩

@[simp] theorem returns_bind (p : Prog) (k : Int → Prog) (w : Int) :
    Returns (p.bind k) w ↔ ∃ v, Returns p v ∧ Returns (k v) w := by
  induction p with
  | ret v => simp [Prog.bind]
  | load a next ih =>
    simp only [Prog.bind, returns_load, ih]
    exact ⟨fun ⟨u, v, h⟩ => ⟨v, ⟨u, h.1⟩, h.2⟩, fun ⟨v, ⟨u, h⟩, h'⟩ => ⟨u, v, h, h'⟩⟩
  | store a v next ih => simp only [Prog.bind, returns_store, ih]
  | loop body next _ ih =>
    simp only [Prog.bind, returns_loop, ih]
    exact ⟨fun ⟨h, v, h'⟩ => ⟨v, ⟨h, h'.1⟩, h'.2⟩, fun ⟨v, h, h'⟩ => ⟨h.1, v, h.2, h'⟩⟩
  | halt => simp [Prog.bind]

section Branch

variable {P : Int → Prop} [DecidablePred P] {v w : Int}

theorem touches_branch (hv : P v) (hw : ¬ P w) (p q : Prog) (a : Nat) :
    (∃ u, Touches (if P u then p else q) a) ↔ Touches p a ∨ Touches q a := by
  constructor
  · rintro ⟨u, h⟩
    split at h
    · exact .inl h
    · exact .inr h
  · rintro (h | h)
    · exact ⟨v, by rwa [if_pos hv]⟩
    · exact ⟨w, by rwa [if_neg hw]⟩

theorem returns_branch (hv : P v) (hw : ¬ P w) (p q : Prog) (r : Int) :
    (∃ u, Returns (if P u then p else q) r) ↔ Returns p r ∨ Returns q r := by
  constructor
  · rintro ⟨u, h⟩
    split at h
    · exact .inl h
    · exact .inr h
  · rintro (h | h)
    · exact ⟨v, by rwa [if_pos hv]⟩
    · exact ⟨w, by rwa [if_neg hw]⟩

end Branch

@[simp] theorem touches_bind (p : Prog) (k : Int → Prog) (a : Nat) :
    Touches (p.bind k) a ↔ Touches p a ∨ ∃ v, Returns p v ∧ Touches (k v) a := by
  induction p with
  | ret v => simp [Prog.bind]
  | load b next ih =>
    simp only [Prog.bind, touches_load, returns_load, ih]
    constructor
    · rintro (h | ⟨u, h | ⟨v, h, h'⟩⟩)
      · exact .inl (.inl h)
      · exact .inl (.inr ⟨u, h⟩)
      · exact .inr ⟨v, ⟨u, h⟩, h'⟩
    · rintro ((h | ⟨u, h⟩) | ⟨v, ⟨u, h⟩, h'⟩)
      · exact .inl h
      · exact .inr ⟨u, .inl h⟩
      · exact .inr ⟨u, .inr ⟨v, h, h'⟩⟩
  | store b v next ih =>
    simp only [Prog.bind, touches_store, returns_store, ih, or_assoc]
  | loop body next _ ih =>
    simp only [Prog.bind, touches_loop, returns_loop, ih]
    constructor
    · rintro (h | ⟨h, h' | ⟨v, h', h''⟩⟩)
      · exact .inl (.inl h)
      · exact .inl (.inr ⟨h, h'⟩)
      · exact .inr ⟨v, ⟨h, h'⟩, h''⟩
    · rintro ((h | ⟨h, h'⟩) | ⟨v, ⟨h, h'⟩, h''⟩)
      · exact .inl h
      · exact .inr ⟨h, .inl h'⟩
      · exact .inr ⟨h, .inr ⟨v, h', h''⟩⟩
  | halt => simp [Prog.bind]

end Access

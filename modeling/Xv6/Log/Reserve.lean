import Xv6.Log.Commit
import Xv6.Lib.Weights

/-! Space in the log. `begin_op` admits an operation only if its blocks fit, `log_write`
tests the header before it takes the lock, and the last `end_op` commits. The processes
run between two acquisitions of `log.lock` at will. -/
namespace Xv6.Reserve

open Transition Threads Log

/-- Where a process stands. An operation carries the distinct blocks that it has logged;
`writing` has passed the tests of `log_write` and waits for the lock. -/
inductive Pc where
  | out
  | entering
  | asleep
  | inside (blocks : List Nat)
  | writing (blocks : List Nat) (b : Nat) (data : Block)
  | commits

structure State (T : Type) where
  log : Log.State
  outstanding : Int
  committing : Bool
  pc : T → Pc

inductive Write where
  | log (b : Nat)
  | home (b : Nat)
  deriving DecidableEq, Repr

def target (log : Log) (s : Log.State) : Option Write :=
  match s.phase with
  | .writeLog tail => if tail < s.lh.length then some (.log (log.start + tail + 1)) else none
  | .writeHead | .clearHead => some (.log log.start)
  | .installTrans tail => s.lh[tail]?.map .home
  | .idle | .readHead => none

inductive Act (T : Type) where
  | call (t : T)
  | beginOp (t : T)
  | logWrite (t : T) (b : Nat) (data : Block)
  | append (t : T)
  | endOp (t : T)
  | commit (t : T)
  | committed (t : T)

variable {T : Type} [DecidableEq T]

namespace State

def goto (s : State T) (t : T) (pc : Pc) : State T :=
  { s with pc := Function.update s.pc t pc }

def wakeup (s : State T) : State T :=
  { s with pc := fun t => match s.pc t with
      | .asleep => .entering
      | pc => pc }

def beginOp (s : State T) (t : T) : State T :=
  if s.committing then s.goto t .asleep
  else if (logsize : Int) < s.log.lh.length + (s.outstanding + 1) * maxopblocks then
    s.goto t .asleep
  else { s.goto t (.inside []) with outstanding := s.outstanding + 1 }

/-- The two tests of `log_write`, without the lock. -/
def logWrite (log : Log) (s : State T) (t : T) (b : Nat) (data : Block) :
    Except Log.Panic (State T) :=
  match s.pc t with
  | .inside blocks =>
      if log.Full s.log then .error .tooBig
      else if s.outstanding < 1 then .error .outsideTrans
      else .ok (s.goto t (.writing blocks b data))
  | _ => .ok s

def append (s : State T) (t : T) : State T :=
  match s.pc t with
  | .writing blocks b data =>
      { s.goto t (.inside (if b ∈ blocks then blocks else blocks ++ [b])) with
        log := absorb s.log b data }
  | _ => s

def endOp (s : State T) (t : T) : Except Log.Panic (State T) :=
  let s := { s with outstanding := s.outstanding - 1 }
  if s.committing then .error .committing
  else if s.outstanding = 0 then
    .ok { s.goto t .commits with committing := true, log := Log.commit s.log }
  else .ok (s.goto t .out).wakeup

def committed (s : State T) (t : T) : State T :=
  { (s.goto t .out).wakeup with committing := false }

end State

open State

def machine (log : Log) : Machine (State T) (Act T) (Option Write) Log.Panic := fun s a =>
  match a with
  | .call t => .ok (s.goto t .entering, none)
  | .beginOp t => .ok (s.beginOp t, none)
  | .logWrite t b data => (s.logWrite log t b data).map fun s => (s, none)
  | .append t => .ok (s.append t, none)
  | .endOp t => (s.endOp t).map fun s => (s, none)
  | .commit _ => .ok ({ s with log := log.step s.log }, target log s.log)
  | .committed t => .ok (s.committed t, none)

/-- What a process can do next, with operations of at most `budget` distinct blocks. -/
def Enabled (budget : Nat) (s : State T) : Act T → Prop
  | .call t => (s.pc t matches .out)
  | .beginOp t => (s.pc t matches .entering)
  | .logWrite t b _ =>
      match s.pc t with
      | .inside blocks => b ∈ blocks ∨ blocks.length < budget
      | _ => False
  | .append t => (s.pc t matches .writing _ _ _)
  | .endOp t => (s.pc t matches .inside _)
  | .commit t => (s.pc t matches .commits) ∧ s.log.phase ≠ .idle
  | .committed t => (s.pc t matches .commits) ∧ s.log.phase = .idle

instance (budget : Nat) (s : State T) : (a : Act T) → Decidable (Enabled budget s a)
  | .call _ | .beginOp _ | .append _ | .endOp _ => inferInstanceAs (Decidable (_ = true))
  | .logWrite t b _ =>
      match h : s.pc t with
      | .inside blocks =>
          decidable_of_iff (b ∈ blocks ∨ blocks.length < budget) (by simp only [Enabled, h])
      | .out | .entering | .asleep | .writing _ _ _ | .commits =>
          isFalse (by simp only [Enabled, h, not_false_eq_true])
  | .commit _ | .committed _ => inferInstanceAs (Decidable (_ = true ∧ _))

def start (disk : Nat → Block) : State T :=
  ⟨⟨disk, fun _ => none, [], .idle⟩, 0, false, fun _ => .out⟩

/-- The log has room for every block that may be logged next, `commit` has not left the log with
what it writes there, and outside of it the next step changes a block of the header at most. -/
structure Suffices (log : Log) (budget : Nat) (trace : List (State T × Act T × Option Write))
    (s : State T) : Prop where
  room : ∀ a, Enabled budget s a → machine log s a ≠ .error .tooBig
  within : ∀ e ∈ trace, ∀ b, e.2.2 = some (.log b) → log.start ≤ b ∧ b < log.start + log.size
  homes : ∀ b, (log.step s.log).disk b ≠ s.log.disk b →
    log.start ≤ b ∧ b < log.start + log.size ∨ b ∈ s.log.lh

def Pc.active : Pc → Bool
  | .inside _ | .writing _ _ _ => true
  | _ => false

def Pc.isCommits : Pc → Bool
  | .commits => true
  | _ => false

def Pc.blocks : Pc → List Nat
  | .inside blocks | .writing blocks _ _ => blocks
  | _ => []

def Pc.left (pc : Pc) : Nat := if pc.active then 9 - pc.blocks.length else 0

def Pc.Short : Pc → Prop
  | .inside blocks => blocks.length ≤ 9
  | .writing blocks b _ => b ∈ blocks ∧ blocks.length ≤ 9 ∨ blocks.length < 9
  | _ => True

variable [Fintype T]

/-- Operations reserve ten blocks and log nine, so that two of the thirty are never used. -/
structure Sound (s : State T) : Prop where
  outstanding : s.outstanding = count s.pc Pc.active
  alone : s.committing = true → count s.pc Pc.active = 0
  idle : s.committing = false → s.log.phase = .idle ∧ count s.pc Pc.isCommits = 0
  empty : s.committing = false → count s.pc Pc.active = 0 → s.log.lh = []
  phase : s.log.phase ≠ .readHead
  done : s.committing = true → s.log.phase = .idle ∨ s.log.phase = .clearHead → s.log.lh = []
  unique : count s.pc Pc.isCommits ≤ 1
  own : ∀ t, ∀ b ∈ (s.pc t).blocks, b ∈ s.log.lh
  short : ∀ t, (s.pc t).Short
  room : s.log.lh.length + total s.pc Pc.left ≤ 28

omit [DecidableEq T] in
theorem total_left_le (pc : T → Pc) : total pc Pc.left ≤ 9 * count pc Pc.active := by
  apply total_le
  intro t
  unfold Pc.left
  split
  · rename_i hactive
    rw [hactive]
    exact (Nat.sub_le ..)
  · exact Nat.zero_le _

omit [DecidableEq T] in
theorem sound_start (disk : Nat → Block) : Sound (start disk : State T) := by
  have hnone : ∀ region : Pc → Bool, region .out = false →
      count (start disk : State T).pc region = 0 := fun region h => count_eq_zero fun _ => h
  refine ⟨?_, (nomatch ·), fun _ => ⟨rfl, hnone _ rfl⟩, fun _ _ => rfl, by simp [start],
    (nomatch ·), ?_, fun t b hb => absurd hb List.not_mem_nil, fun t => trivial, ?_⟩
  · rw [hnone _ rfl]
    rfl
  · rw [hnone _ rfl]
    decide
  · have htotal := total_left_le (start disk : State T).pc
    rw [hnone _ rfl] at htotal
    have hlen : (start disk : State T).log.lh.length = 0 := rfl
    omega

section

variable {s : State T} {t : T} {blocks : List Nat} {b : Nat} {data : Block}

omit [DecidableEq T] in
theorem Sound.not_committing (h : Sound s) (ht : (s.pc t).active = true) :
    s.committing = false := by
  cases hcommitting : s.committing with
  | false => rfl
  | true =>
    have hpos : 0 < count s.pc Pc.active := count_pos ht
    have hnone := h.alone hcommitting
    omega

omit [DecidableEq T] in
theorem Sound.congr (h : Sound s) {pc : T → Pc} (hactive : ∀ t, (pc t).active = (s.pc t).active)
    (hcommits : ∀ t, (pc t).isCommits = (s.pc t).isCommits)
    (hblocks : ∀ t, (pc t).blocks = (s.pc t).blocks) (hshort : ∀ t, (pc t).Short) :
    Sound { s with pc := pc } := by
  have hcount := count_congr hactive
  have hunique := count_congr hcommits
  have htotal : total pc Pc.left = total s.pc Pc.left :=
    total_congr fun t => by rw [Pc.left, Pc.left, hactive, hblocks]
  refine ⟨?_, ?_, ?_, ?_, h.phase, h.done, ?_, fun t b hb => ?_, hshort, ?_⟩
  · rw [hcount]
    exact h.outstanding
  · rw [hcount]
    exact h.alone
  · rw [hunique]
    exact h.idle
  · rw [hcount]
    exact h.empty
  · rw [hunique]
    exact h.unique
  · rw [hblocks] at hb
    exact h.own t b hb
  · rw [htotal]
    exact h.room

omit [Fintype T] in
theorem forall_update {pc : T → Pc} {a : Pc} {P : Pc → Prop} (ha : P a) (h : ∀ u, P (pc u))
    (u : T) : P (Function.update pc t a u) := by
  by_cases hu : u = t
  · rw [hu, Function.update_self]
    exact ha
  · rw [Function.update_of_ne hu]
    exact h u

theorem Sound.goto (h : Sound s) {a : Pc} (hactive : a.active = (s.pc t).active)
    (hcommits : a.isCommits = (s.pc t).isCommits) (hblocks : a.blocks = (s.pc t).blocks)
    (hshort : a.Short) : Sound (s.goto t a) := by
  have hat : ∀ {β : Type} (field : Pc → β), field a = field (s.pc t) → ∀ u,
      field (Function.update s.pc t a u) = field (s.pc u) := by
    intro β field heq u
    by_cases hu : u = t
    · rw [hu, Function.update_self, heq]
    · rw [Function.update_of_ne hu]
  exact h.congr (hat _ hactive) (hat _ hcommits) (hat _ hblocks) (forall_update hshort h.short)

omit [DecidableEq T] in
theorem Sound.wakeup (h : Sound s) : Sound s.wakeup := by
  refine h.congr (fun t => ?_) (fun t => ?_) (fun t => ?_) fun t => ?_
  · cases s.pc t <;> rfl
  · cases s.pc t <;> rfl
  · cases s.pc t <;> rfl
  · have hshort := h.short t
    cases hpc : s.pc t with
    | asleep => trivial
    | out => trivial
    | entering => trivial
    | commits => trivial
    | inside blocks =>
      rw [hpc] at hshort
      exact hshort
    | writing blocks b data =>
      rw [hpc] at hshort
      exact hshort

theorem Sound.running (h : Sound s) (hcommitting : s.committing = false) {a : Pc}
    {log : Log.State} {outstanding : Int} (hphase : log.phase = s.log.phase)
    (ha : a.isCommits = false)
    (hout : outstanding + (s.pc t).active.toNat = s.outstanding + a.active.toNat)
    (hempty : outstanding = 0 → log.lh = []) (hmem : ∀ b ∈ s.log.lh, b ∈ log.lh)
    (hblocks : ∀ b ∈ a.blocks, b ∈ log.lh) (hshort : a.Short)
    (hroom : log.lh.length + total (Function.update s.pc t a) Pc.left ≤ 28) :
    Sound { s with log := log, outstanding := outstanding, pc := Function.update s.pc t a } := by
  have hcount := count_update s.pc t a Pc.active
  have hcommits := count_update s.pc t a Pc.isCommits
  have hnone := (h.idle hcommitting).2
  have hzero : count (Function.update s.pc t a) Pc.isCommits = 0 := by
    rw [ha, Bool.toNat_false] at hcommits
    omega
  have hactive : outstanding = count (Function.update s.pc t a) Pc.active := by
    have hbefore := h.outstanding
    omega
  refine ⟨hactive, fun hc => ?_, fun _ => ⟨hphase.trans (h.idle hcommitting).1, hzero⟩,
    fun _ hlast => hempty (by rw [hactive, hlast]; rfl), ?_, fun hc => ?_, ?_, ?_,
    forall_update hshort h.short, hroom⟩
  · exact absurd (hcommitting.symm.trans hc) (by decide)
  · rw [hphase]
    exact h.phase
  · exact absurd (hcommitting.symm.trans hc) (by decide)
  · rw [hzero]
    decide
  · exact forall_update (P := fun pc => ∀ b ∈ pc.blocks, b ∈ log.lh) hblocks
      fun u b hb => hmem b (h.own u b hb)

/-- A process that enters an operation is the first one, or two of the thirty blocks stay
free. -/
theorem Sound.beginOp (h : Sound s) (ht : s.pc t = .entering) : Sound (s.beginOp t) := by
  unfold State.beginOp
  split
  · exact h.goto (by rw [ht]; rfl) (by rw [ht]; rfl) (by rw [ht]; rfl) trivial
  · rename_i hcommitting
    have hcommitting : s.committing = false := by simpa using hcommitting
    split
    · exact h.goto (by rw [ht]; rfl) (by rw [ht]; rfl) (by rw [ht]; rfl) trivial
    · rename_i hfits
      have htotal := total_update s.pc t (.inside []) Pc.left
      rw [ht] at htotal
      simp only [Pc.left, Pc.active, Pc.blocks, List.length_nil, if_true, Bool.false_eq_true,
        if_false] at htotal
      have hbefore := total_left_le s.pc
      have hout := h.outstanding
      refine h.running hcommitting rfl rfl ?_ ?_ (fun _ hb => hb)
        (fun b hb => absurd hb List.not_mem_nil) (Nat.zero_le _) ?_
      · rw [ht]
        simp [Pc.active]
      · intro hlast
        omega
      · change s.log.lh.length + total (Function.update s.pc t (.inside [])) Pc.left ≤ 28
        simp only [logsize, maxopblocks] at hfits
        by_cases hfirst : count s.pc Pc.active = 0
        · have hnil : s.log.lh.length = 0 := by
            rw [h.empty hcommitting hfirst]
            rfl
          omega
        · omega

theorem Sound.append (h : Sound s) (ht : s.pc t = .writing blocks b data) :
    Sound (s.append t) := by
  have hactive : (s.pc t).active = true := by rw [ht]; rfl
  have hcommitting := h.not_committing hactive
  have hpos : 0 < count s.pc Pc.active := count_pos hactive
  have hshort := h.short t
  have hown := h.own t
  rw [ht] at hshort hown
  generalize hnew : (if b ∈ blocks then blocks else blocks ++ [b]) = blocks'
  have happend : s.append t =
      { s.goto t (.inside blocks') with log := absorb s.log b data } := by
    unfold State.append
    rw [ht]
    dsimp only
    rw [hnew]
  have hlen : blocks'.length ≤ 9 ∧
      (absorb s.log b data).lh.length + (9 - blocks'.length) ≤
        s.log.lh.length + (9 - blocks.length) := by
    have hin : b ∈ blocks → b ∈ s.log.lh := hown b
    rw [length_absorb]
    by_cases hb : b ∈ blocks
    · rw [if_pos hb] at hnew
      rw [if_pos (hin hb), ← hnew]
      exact ⟨hshort.elim (·.2) (·.le), le_rfl⟩
    · rw [if_neg hb] at hnew
      have hless : blocks.length < 9 := hshort.resolve_left fun hboth => hb hboth.1
      rw [← hnew, List.length_append, List.length_singleton]
      split <;> omega
  have hmem : ∀ a ∈ s.log.lh, a ∈ (absorb s.log b data).lh :=
    fun a ha => (mem_absorb ..).mpr (.inr ha)
  have htotal := total_update s.pc t (.inside blocks') Pc.left
  rw [ht] at htotal
  simp only [Pc.left, Pc.active, Pc.blocks, if_true] at htotal
  have hroom := h.room
  have hout := h.outstanding
  rw [happend]
  refine h.running hcommitting rfl rfl ?_ ?_ hmem (fun a ha => ?_) hlen.1 (by omega)
  · rw [hactive]
    rfl
  · intro hlast
    change s.outstanding = 0 at hlast
    omega
  · rw [Pc.blocks, ← hnew] at ha
    split at ha
    · exact hmem a (hown a ha)
    · rcases List.mem_append.mp ha with ha | ha
      · exact hmem a (hown a ha)
      · exact (mem_absorb ..).mpr (.inl (List.mem_singleton.mp ha))

theorem blocks_of_not_active {a : Pc} (h : a.active = false) : a.blocks = [] := by
  cases a <;> first | rfl | cases h

omit [DecidableEq T] in
theorem active_of_count {pc : T → Pc} (h : count pc Pc.active = 0) (u : T) :
    (pc u).active = false := by
  cases hactive : (pc u).active with
  | false => rfl
  | true =>
    have hpos : 0 < count pc Pc.active := count_pos hactive
    omega

omit [DecidableEq T] in
theorem Sound.committing_of {s : State T} (hcommitting : s.committing = true)
    (hout : s.outstanding = 0) (hactive : count s.pc Pc.active = 0)
    (hphase : s.log.phase ≠ .readHead)
    (hdone : s.log.phase = .idle ∨ s.log.phase = .clearHead → s.log.lh = [])
    (hunique : count s.pc Pc.isCommits ≤ 1) (hroom : s.log.lh.length ≤ 28) : Sound s := by
  have hnone := active_of_count hactive
  refine ⟨by rw [hout, hactive]; rfl, fun _ => hactive, fun hc => ?_, fun hc => ?_, hphase,
    fun _ => hdone, hunique, fun u b hb => ?_, fun u => ?_, ?_⟩
  · exact absurd (hcommitting.symm.trans hc) (by decide)
  · exact absurd (hcommitting.symm.trans hc) (by decide)
  · rw [blocks_of_not_active (hnone u)] at hb
    exact absurd hb List.not_mem_nil
  · have hu := hnone u
    cases hpc : s.pc u with
    | inside _ =>
      rw [hpc] at hu
      cases hu
    | writing _ _ _ =>
      rw [hpc] at hu
      cases hu
    | out | entering | asleep | commits => trivial
  · have htotal := total_left_le s.pc
    omega

theorem Sound.endOp (h : Sound s) (ht : s.pc t = .inside blocks) {s' : State T}
    (hok : s.endOp t = .ok s') : Sound s' := by
  have hactive : (s.pc t).active = true := by rw [ht]; rfl
  have hcommitting := h.not_committing hactive
  have hout := h.outstanding
  have hroom := h.room
  unfold State.endOp at hok
  dsimp only at hok
  rw [if_neg (by rw [hcommitting]; decide)] at hok
  split at hok
  · rename_i hlast
    cases Except.ok.inj hok
    have hcount := count_update s.pc t .commits Pc.active
    have hcommits := count_update s.pc t .commits Pc.isCommits
    rw [hactive] at hcount
    rw [ht] at hcommits
    simp only [Pc.active, Pc.isCommits, Bool.toNat_true, Bool.toNat_false] at hcount hcommits
    have hidle := h.idle hcommitting
    have hlh : (Log.commit s.log).lh = s.log.lh := by
      unfold Log.commit
      split <;> rfl
    refine Sound.committing_of rfl hlast ?_ ?_ ?_ ?_ ?_
    · change count (Function.update s.pc t .commits) Pc.active = 0
      omega
    · unfold Log.commit
      dsimp only
      split
      · exact nofun
      · rw [hidle.1]
        exact nofun
    · unfold Log.commit
      dsimp only
      split
      · rintro (hc | hc) <;> cases hc
      · rename_i hnil
        exact fun _ => List.length_eq_zero_iff.mp (by omega)
    · change count (Function.update s.pc t .commits) Pc.isCommits ≤ 1
      omega
    · change (Log.commit s.log).lh.length ≤ 28
      rw [hlh]
      omega
  · rename_i hmore
    cases Except.ok.inj hok
    have htotal := total_update s.pc t .out Pc.left
    simp only [Pc.left, Pc.active, Bool.false_eq_true, if_false] at htotal
    apply Sound.wakeup
    refine h.running (a := .out) hcommitting rfl rfl ?_ (fun hlast => absurd hlast hmore)
      (fun _ hb => hb) (fun b hb => absurd hb List.not_mem_nil) trivial ?_
    · rw [hactive]
      simp [Pc.active]
    · change s.log.lh.length + total (Function.update s.pc t .out) Pc.left ≤ 28
      omega

theorem step_lh {log : Log} {s : Log.State} (hphase : s.phase ≠ .readHead) :
    (log.step s).phase ≠ .readHead ∧ (log.step s).lh.length ≤ s.lh.length ∧
      ((s.phase = .idle ∨ s.phase = .clearHead → s.lh = []) →
        (log.step s).phase = .idle ∨ (log.step s).phase = .clearHead → (log.step s).lh = []) := by
  unfold Log.step
  split
  · exact ⟨hphase, le_rfl, fun h => h⟩
  · split
    · exact ⟨nofun, le_rfl, fun _ => nofun⟩
    · exact ⟨nofun, le_rfl, fun _ => nofun⟩
  · exact ⟨nofun, le_rfl, fun _ => nofun⟩
  · split
    · exact ⟨nofun, le_rfl, fun _ => nofun⟩
    · exact ⟨nofun, Nat.zero_le _, fun _ _ => rfl⟩
  · rename_i hclear
    exact ⟨nofun, le_rfl, fun h _ => h (.inr hclear)⟩
  · rename_i hread
    exact absurd hread hphase

omit [DecidableEq T] in
theorem Sound.committing (h : Sound s) (ht : s.pc t = .commits) :
    s.committing = true ∧ count s.pc Pc.active = 0 := by
  have hpos : 0 < count s.pc Pc.isCommits := count_pos (t := t) (by rw [ht]; rfl)
  cases hcommitting : s.committing with
  | true => exact ⟨rfl, h.alone hcommitting⟩
  | false =>
    have hnone := (h.idle hcommitting).2
    omega

omit [DecidableEq T] in
theorem Sound.commit {log : Log} (h : Sound s) (ht : s.pc t = .commits) :
    Sound { s with log := log.step s.log } := by
  obtain ⟨hcommitting, hactive⟩ := h.committing ht
  obtain ⟨hphase, hlen, hdone⟩ := @step_lh log _ h.phase
  have hout := h.outstanding
  have hroom := h.room
  refine Sound.committing_of hcommitting (by rw [hout, hactive]; rfl) hactive hphase
    (hdone (h.done hcommitting)) h.unique ?_
  dsimp only
  omega

theorem Sound.committed (h : Sound s) (ht : s.pc t = .commits) (hidle : s.log.phase = .idle) :
    Sound (s.committed t) := by
  obtain ⟨hcommitting, hactive⟩ := h.committing ht
  have hnil := h.done hcommitting (.inl hidle)
  have hunique := h.unique
  have hcount := count_update s.pc t .out Pc.active
  have hcommits := count_update s.pc t .out Pc.isCommits
  have htotal := total_update s.pc t .out Pc.left
  rw [ht] at hcount hcommits htotal
  simp only [Pc.active, Pc.isCommits, Pc.left, Bool.toNat_true, Bool.toNat_false,
    Bool.false_eq_true, if_false] at hcount hcommits htotal
  have hnone : count (Function.update s.pc t .out) Pc.active = 0 := by omega
  have hsound : Sound { s.goto t .out with committing := false } := by
    refine ⟨?_, nofun, fun _ => ⟨hidle, ?_⟩, fun _ _ => hnil, h.phase, nofun, ?_, ?_,
      forall_update trivial h.short, ?_⟩
    · change s.outstanding = count (Function.update s.pc t .out) Pc.active
      rw [h.outstanding, hnone, hactive]
    · change count (Function.update s.pc t .out) Pc.isCommits = 0
      omega
    · change count (Function.update s.pc t .out) Pc.isCommits ≤ 1
      omega
    · exact forall_update (P := fun pc => ∀ b ∈ pc.blocks, b ∈ s.log.lh)
        (fun b hb => absurd hb List.not_mem_nil) h.own
    · have hroom := h.room
      change s.log.lh.length + total (Function.update s.pc t .out) Pc.left ≤ 28
      omega
  exact hsound.wakeup

theorem Sound.logWrite {log : Log} (h : Sound s) (hon : Enabled 9 s (.logWrite t b data))
    {s' : State T} (hok : s.logWrite log t b data = .ok s') : Sound s' := by
  have hshort := h.short t
  unfold Enabled at hon
  unfold State.logWrite at hok
  cases hpc : s.pc t with
  | inside blocks =>
    simp only [hpc] at hon hok hshort
    split at hok
    · cases hok
    · split at hok
      · cases hok
      · cases Except.ok.inj hok
        refine h.goto (by rw [hpc]; rfl) (by rw [hpc]; rfl) (by rw [hpc]; rfl) ?_
        exact hon.imp (fun hb => ⟨hb, hshort⟩) id
  | out | entering | asleep | writing _ _ _ | commits =>
    simp only [hpc] at hon

theorem sound_step {log : Log} (h : Sound s) {a : Act T} (hon : Enabled 9 s a)
    {s' : State T} {out : Option Write} (hok : machine log s a = .ok (s', out)) : Sound s' := by
  cases a with
  | call t =>
    cases Except.ok.inj hok
    cases hpc : s.pc t with
    | out => exact h.goto (by rw [hpc]; rfl) (by rw [hpc]; rfl) (by rw [hpc]; rfl) trivial
    | entering | asleep | inside _ | writing _ _ _ | commits => simp [Enabled, hpc] at hon
  | beginOp t =>
    cases Except.ok.inj hok
    cases hpc : s.pc t with
    | entering => exact h.beginOp hpc
    | out | asleep | inside _ | writing _ _ _ | commits => simp [Enabled, hpc] at hon
  | logWrite t b data =>
    obtain ⟨s₁, hwrite, heq⟩ := Fallible.map_eq_ok.mp hok
    cases heq
    exact h.logWrite hon hwrite
  | append t =>
    cases Except.ok.inj hok
    cases hpc : s.pc t with
    | writing blocks b data => exact h.append hpc
    | out | entering | asleep | inside _ | commits => simp [Enabled, hpc] at hon
  | endOp t =>
    obtain ⟨s₁, hend, heq⟩ := Fallible.map_eq_ok.mp hok
    cases heq
    cases hpc : s.pc t with
    | inside blocks => exact h.endOp hpc hend
    | out | entering | asleep | writing _ _ _ | commits => simp [Enabled, hpc] at hon
  | commit t =>
    cases Except.ok.inj hok
    cases hpc : s.pc t with
    | commits => exact h.commit hpc
    | out | entering | asleep | inside _ | writing _ _ _ => simp [Enabled, hpc] at hon
  | committed t =>
    cases Except.ok.inj hok
    cases hpc : s.pc t with
    | commits => exact h.committed hpc hon.2
    | out | entering | asleep | inside _ | writing _ _ _ => simp [Enabled, hpc] at hon

omit [DecidableEq T] in
theorem Sound.length_le (h : Sound s) : s.log.lh.length ≤ 28 :=
  le_of_add_le_left h.room

theorem Sound.ne_tooBig (h : Sound s) (a : Act T) :
    machine Log.ofMkfs s a ≠ .error .tooBig := by
  intro herr
  have hlen := h.length_le
  cases a with
  | call | beginOp | append | commit | committed => cases herr
  | logWrite t b data =>
    have hwrite := Fallible.map_eq_error.mp herr
    unfold State.logWrite at hwrite
    split at hwrite
    · split at hwrite
      · rename_i hfull
        rcases hfull with hfull | hfull
        · change 30 ≤ s.log.lh.length at hfull
          omega
        · change 29 ≤ s.log.lh.length at hfull
          omega
      · split at hwrite <;> cases hwrite
    · cases hwrite
  | endOp t =>
    have hend := Fallible.map_eq_error.mp herr
    unfold State.endOp at hend
    dsimp only at hend
    split at hend
    · cases hend
    · split at hend <;> cases hend

theorem step_disk (log : Log) (s : Log.State) {b : Nat} (h : (log.step s).disk b ≠ s.disk b) :
    target log s = some (.log b) ∨ target log s = some (.home b) := by
  have hbwrite : ∀ {a : Nat} {data : Block}, (s.bwrite a data).disk b ≠ s.disk b → a = b := by
    intro a data hne
    by_contra hab
    exact hne (disk_bwrite_of_ne s data (Ne.symm hab))
  unfold Log.step at h
  unfold target
  split at h
  · exact absurd rfl h
  · rename_i tail hphase
    rw [hphase]
    split at h
    · rename_i a ha
      obtain ⟨htail, -⟩ := List.getElem?_eq_some_iff.mp ha
      dsimp only
      rw [if_pos htail, hbwrite h]
      exact .inl rfl
    · exact absurd rfl h
  · rename_i hphase
    rw [hphase, ← hbwrite h]
    exact .inl rfl
  · rename_i tail hphase
    rw [hphase]
    split at h
    · rename_i a ha
      dsimp only
      rw [ha, hbwrite h]
      exact .inr rfl
    · exact absurd rfl h
  · rename_i hphase
    rw [hphase, ← hbwrite h]
    exact .inl rfl
  · exact absurd rfl h

theorem mem_of_target {log : Log} {s : Log.State} {b : Nat}
    (h : target log s = some (.home b)) : b ∈ s.lh := by
  unfold target at h
  split at h
  · split at h
    · cases h
    · cases h
  · cases h
  · cases h
  · obtain ⟨a, ha, heq⟩ := Option.map_eq_some_iff.mp h
    cases heq
    exact List.mem_of_getElem? ha
  · cases h
  · cases h

theorem target_within {s : Log.State} (hlen : s.lh.length ≤ 28) {b : Nat}
    (h : target Log.ofMkfs s = some (.log b)) : 2 ≤ b ∧ b < 2 + 30 := by
  unfold target at h
  split at h
  · split at h
    · rename_i htail
      simp only [Log.ofMkfs, Option.some.injEq, Write.log.injEq] at h
      omega
    · cases h
  · simp only [Log.ofMkfs, Option.some.injEq, Write.log.injEq] at h
    omega
  · simp only [Log.ofMkfs, Option.some.injEq, Write.log.injEq] at h
    omega
  · obtain ⟨a, _, ha⟩ := Option.map_eq_some_iff.mp h
    cases ha
  · cases h
  · cases h

/-- Operations of at most nine distinct blocks never fill the log that `mkfs` makes. -/
theorem reservation_suffices (disk : Nat → Block)
    {trace : List (State T × Act T × Option Write)}
    (hrun : Run (machine Log.ofMkfs) (Enabled 9) (start disk) trace s) :
    Suffices Log.ofMkfs 9 trace s := by
  have hinv : Sound s ∧ ∀ e ∈ trace, ∀ b, e.2.2 = some (.log b) → 2 ≤ b ∧ b < 2 + 30 := by
    refine hrun.invariant (fun trace s => Sound s ∧
      ∀ e ∈ trace, ∀ b, e.2.2 = some (.log b) → 2 ≤ b ∧ b < 2 + 30)
      ⟨sound_start disk, fun e he => absurd he List.not_mem_nil⟩ ?_
    intro trace s a s' out ⟨hsound, hwithin⟩ hon hok
    refine ⟨sound_step hsound hon hok, fun e he b hb => ?_⟩
    cases he with
    | tail _ he => exact hwithin e he b hb
    | head =>
      cases a with
      | call | beginOp | append | committed =>
        cases Except.ok.inj hok
        cases hb
      | logWrite t b data =>
        obtain ⟨_, _, heq⟩ := Fallible.map_eq_ok.mp hok
        cases heq
        cases hb
      | endOp t =>
        obtain ⟨_, _, heq⟩ := Fallible.map_eq_ok.mp hok
        cases heq
        cases hb
      | commit t =>
        cases Except.ok.inj hok
        exact target_within hsound.length_le hb
  refine ⟨fun a _ => hinv.1.ne_tooBig a, hinv.2, fun b hb => ?_⟩
  rcases step_disk Log.ofMkfs s.log hb with hlog | hhome
  · exact .inl (target_within hinv.1.length_le hlog)
  · exact .inr (mem_of_target hhome)

end

def logs {T : Type} (t : T) (b n : Nat) : List (Act T) :=
  (List.range n).flatMap fun i => [.logWrite t (b + i) Block.zero, .append t]

def enter : List (Act (Fin 3)) :=
  [.call 0, .beginOp 0, .call 1, .beginOp 1, .call 2, .beginOp 2]

/-- Three operations of nine blocks are committed together. -/
theorem reservation_suffices_thrice : ∃ (trace : List (State (Fin 3) × Act (Fin 3) × Option Write))
    (s : State (Fin 3)), Run (machine Log.ofMkfs) (Enabled 9) (start fun _ => Block.zero) trace s ∧
      (∃ e ∈ trace, e.2.2 = some (.log 29)) ∧ Suffices Log.ofMkfs 9 trace s := by
  obtain ⟨trace, s, hrun, htest⟩ := exists_run (machine Log.ofMkfs) (Enabled 9)
    (start fun _ => Block.zero)
    (enter ++ logs 0 100 9 ++ logs 1 200 9 ++ logs 2 300 9 ++ [.endOp 0, .endOp 1, .endOp 2] ++
      List.replicate 27 (.commit 2))
    (fun trace (_ : State (Fin 3)) => decide (∃ e ∈ trace, e.2.2 = some (.log 29)))
    (by decide +kernel)
  exact ⟨trace, s, hrun, of_decide_eq_true htest, reservation_suffices _ hrun⟩

/-- With operations of ten blocks the last of thirty is refused. -/
theorem reservation_short : ∃ s : State (Fin 3),
    Reaches (machine Log.ofMkfs) (Enabled 10) (start fun _ => Block.zero) s ∧
      Enabled 10 s (.logWrite 2 309 Block.zero) ∧
      machine Log.ofMkfs s (.logWrite 2 309 Block.zero) = .error .tooBig := by
  obtain ⟨s, hreach, htest⟩ := exists_reaches (machine Log.ofMkfs) (Enabled 10)
    (start fun _ => Block.zero)
    (enter ++ logs 0 100 10 ++ logs 1 200 10 ++ logs 2 300 9)
    (fun s : State (Fin 3) => decide (Enabled 10 s (.logWrite 2 309 Block.zero) ∧
      faultOf (machine Log.ofMkfs) s (.logWrite 2 309 Block.zero) = some .tooBig))
    (by decide +kernel)
  obtain ⟨hon, hfault⟩ := of_decide_eq_true htest
  exact ⟨s, hreach, hon, faultOf_eq_some hfault⟩

end Xv6.Reserve

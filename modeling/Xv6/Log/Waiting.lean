import Xv6.Log.Reserve

/-! Waiting for the log. A process sleeps in `begin_op` only while the log is committed or too
full, and then somebody is there who will wake it. -/
namespace Xv6.Reserve

open Transition Threads Log

variable {T : Type}

def State.Pent (s : State T) : Prop :=
  s.committing = true ∨ (logsize : Int) < s.log.lh.length + (s.outstanding + 1) * maxopblocks

structure Waits (s : State T) : Prop where
  pent : ∀ t, s.pc t = .asleep → s.Pent
  committer : s.committing = true → ∃ t, s.pc t = .commits

variable {s s' : State T} {t : T}

theorem Waits.fill (h : Waits s) {log : Log.State} {outstanding : Int}
    (hlen : s.log.lh.length ≤ log.lh.length) (hout : s.outstanding ≤ outstanding) :
    Waits { s with log := log, outstanding := outstanding } := by
  refine ⟨fun u hu => (h.pent u hu).imp_right fun hroom => ?_, h.committer⟩
  simp only [maxopblocks] at hroom ⊢
  omega

theorem waits_wakeup (hc : s.committing = false) : Waits s.wakeup := by
  refine ⟨fun u hu => ?_, fun hc' => absurd (hc.symm.trans hc') nofun⟩
  unfold State.wakeup at hu
  cases hpc : s.pc u <;> simp [hpc] at hu

variable [DecidableEq T]

theorem Waits.goto (h : Waits s) {a : Pc} (ht : s.pc t ≠ .commits) (ha : a = .asleep → s.Pent) :
    Waits (s.goto t a) := by
  refine ⟨forall_update (P := fun pc => pc = .asleep → s.Pent) ha h.pent, fun hc => ?_⟩
  obtain ⟨u, hu⟩ := h.committer hc
  have hne : u ≠ t := fun heq => ht (heq ▸ hu)
  exact ⟨u, (Function.update_of_ne hne _ _).trans hu⟩

theorem Waits.beginOp (h : Waits s) (ht : s.pc t ≠ .commits) : Waits (s.beginOp t) := by
  unfold State.beginOp
  split
  · rename_i hc
    exact h.goto ht fun _ => .inl hc
  · split
    · rename_i hroom
      exact h.goto ht fun _ => .inr hroom
    · exact (h.goto (a := .inside []) ht nofun).fill le_rfl (Int.le_add_one le_rfl)

theorem Waits.endOp (hok : s.endOp t = .ok s') : Waits s' := by
  unfold State.endOp at hok
  dsimp only at hok
  split at hok
  · cases hok
  · rename_i hc
    split at hok
    · cases Except.ok.inj hok
      exact ⟨fun _ _ => .inl rfl, fun _ => ⟨t, Function.update_self ..⟩⟩
    · cases Except.ok.inj hok
      exact waits_wakeup (Bool.eq_false_of_not_eq_true hc)

variable [Fintype T]

theorem Waits.step {log : Log} (h : Waits s) (hsound : Sound s) {a : Act T} (hon : Enabled 9 s a)
    {out : Option Write} (hok : machine log s a = .ok (s', out)) : Waits s' := by
  cases a with
  | call t =>
    cases Except.ok.inj hok
    exact h.goto (fun hpc => by simp [Enabled, hpc] at hon) nofun
  | beginOp t =>
    cases Except.ok.inj hok
    exact h.beginOp fun hpc => by simp [Enabled, hpc] at hon
  | logWrite t b data =>
    obtain ⟨s₁, hwrite, heq⟩ := Fallible.map_eq_ok.mp hok
    cases heq
    unfold State.logWrite at hwrite
    split at hwrite
    · rename_i blocks hpc
      split at hwrite
      · cases hwrite
      · split at hwrite
        · cases hwrite
        · cases Except.ok.inj hwrite
          exact h.goto (by rw [hpc]; nofun) nofun
    · cases Except.ok.inj hwrite
      exact h
  | append t =>
    cases Except.ok.inj hok
    unfold State.append
    split
    · rename_i blocks b data hpc
      have hlen := length_absorb s.log b data
      refine (h.goto (a := .inside _) (by rw [hpc]; nofun) nofun).fill ?_ le_rfl
      change s.log.lh.length ≤ _
      split at hlen <;> omega
    · exact h
  | endOp t =>
    obtain ⟨s₁, hend, heq⟩ := Fallible.map_eq_ok.mp hok
    cases heq
    exact Waits.endOp hend
  | commit t =>
    cases Except.ok.inj hok
    cases hpc : s.pc t with
    | commits => exact ⟨fun _ _ => .inl (hsound.committing hpc).1, h.committer⟩
    | out | entering | asleep | inside _ | writing _ _ _ => simp [Enabled, hpc] at hon
  | committed t =>
    cases Except.ok.inj hok
    exact waits_wakeup (s := { s.goto t .out with committing := false }) rfl

/-- Who sleeps in `begin_op` waits for a commit or for room, and some process commits or is in
an operation. -/
theorem log_waits (disk : Nat → Block) {trace : List (State T × Act T × Option Write)}
    (hrun : Run (machine Log.ofMkfs) (Enabled 9) (start disk) trace s) (ht : s.pc t = .asleep) :
    s.Pent ∧ ∃ u, s.pc u = .commits ∨ (s.pc u).active = true := by
  obtain ⟨hsound, hwaits⟩ := hrun.invariant (fun _ s => Sound s ∧ Waits s)
    ⟨sound_start disk, ⟨nofun, nofun⟩⟩
    fun _ _ _ _ _ h hon hok => ⟨sound_step h.1 hon hok, h.2.step h.1 hon hok⟩
  refine ⟨hwaits.pent t ht, ?_⟩
  cases hc : s.committing with
  | true => exact (hwaits.committer hc).imp fun _ => .inl
  | false =>
    have hroom := (hwaits.pent t ht).resolve_left (by rw [hc]; nofun)
    have hout := hsound.outstanding
    have hpos : 0 < count s.pc Pc.active := by
      by_contra hnone
      -- an empty log that nobody uses has room
      rw [hsound.empty hc (by omega), List.length_nil] at hroom
      simp only [logsize, maxopblocks] at hroom
      omega
    exact (exists_of_count_pos hpos).imp fun _ => .inr

/-- The fourth of four processes waits for room. -/
theorem log_waits_fourth : ∃ s : State (Fin 4),
    Reaches (machine Log.ofMkfs) (Enabled 9) (start fun _ => Block.zero) s ∧ s.pc 3 = .asleep ∧
      s.Pent ∧ ∃ u, s.pc u = .commits ∨ (s.pc u).active = true := by
  obtain ⟨s, ⟨trace, hrun⟩, htest⟩ := exists_reaches (machine Log.ofMkfs) (Enabled 9)
    (start fun _ => Block.zero) ([0, 1, 2, 3].flatMap fun t : Fin 4 => [.call t, .beginOp t])
    (fun s => decide (Enabled 9 s.wakeup (.beginOp 3) ∧ ¬ Enabled 9 s (.beginOp 3)))
    (by decide +kernel)
  have ht : s.pc 3 = .asleep := by
    cases hpc : s.pc 3 <;> simp [Enabled, State.wakeup, hpc] at htest
    rfl
  exact ⟨s, ⟨trace, hrun⟩, ht, log_waits _ hrun ht⟩

end Xv6.Reserve

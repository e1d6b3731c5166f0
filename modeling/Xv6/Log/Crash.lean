import Xv6.Log.Commit

/-! Crash atomicity. Before the header is on the disk nothing outside the log has changed;
from then on the log holds the new contents until all of them are at home. -/
namespace Xv6.Log

open Transition State

variable {log : Log} {s s' s0 : State}

/-- Between commits: the header on the disk is clear, and the dirty buffers are those of the
transaction. -/
structure Ready (log : Log) (s : State) : Prop where
  clear : (s.disk log.start).logheader = []
  dirty : ∀ b, b ∉ s.lh → s.dirty b = none
  nodup : s.lh.Nodup
  outside : ∀ b ∈ s.lh, log.Outside b
  small : ∀ b ∈ s.lh, b < fssize
  room : s.lh.length ≤ logsize ∧ s.lh.length ≤ log.size - 1

def new (s0 : State) (b : Nat) : Block := s0.bread b

def Copied (log : Log) (s0 s : State) (n : Nat) : Prop :=
  ∀ i b, i < n → s0.lh[i]? = some b → s.disk (log.start + i + 1) = new s0 b

def Old (log : Log) (s0 s : State) : Prop := ∀ b, log.Outside b → s.disk b = s0.disk b

def New (log : Log) (s0 s : State) : Prop := ∀ b, log.Outside b → s.disk b = new s0 b

/-- Every block outside the log is the one before or the one after. -/
def Between (log : Log) (s0 s : State) : Prop :=
  ∀ b, log.Outside b → s.disk b = new s0 b ∨ b ∈ s0.lh ∧ s.disk b = s0.disk b

def Clear (log : Log) (s0 s : State) : Prop :=
  (s.disk log.start).logheader = [] ∧
    match s.phase with
    | .writeLog n => Old log s0 s ∧ s.lh = s0.lh ∧ s.dirty = s0.dirty ∧ Copied log s0 s n
    | .writeHead =>
        Old log s0 s ∧ s.lh = s0.lh ∧ s.dirty = s0.dirty ∧ Copied log s0 s s0.lh.length
    | .readHead | .installTrans _ | .clearHead | .idle =>
        (Old log s0 s ∨ New log s0 s) ∧ s.lh = [] ∧ ∀ b, s.dirty b = none

def Committed (log : Log) (s0 s : State) : Prop :=
  (s.disk log.start).logheader = s0.lh ∧ Copied log s0 s s0.lh.length ∧
    (∀ b, b ∉ s0.lh → s.dirty b = none) ∧
    match s.phase with
    | .installTrans n => Between log s0 s ∧ s.lh = s0.lh ∧
        ∀ i b, i < n → s0.lh[i]? = some b → s.disk b = new s0 b ∧ s.dirty b = none
    | .clearHead => New log s0 s ∧ s.lh = [] ∧ ∀ b, s.dirty b = none
    | .readHead => Between log s0 s ∧ ∀ b, s.dirty b = none
    | .idle | .writeLog _ | .writeHead => False

theorem Ready.new_eq (h : Ready log s0) {b : Nat} (hb : b ∉ s0.lh) : new s0 b = s0.disk b :=
  bread_of_clean (h.dirty b hb)

theorem Ready.apart (h : Ready log s0) {i : Nat} {b : Nat} (hi : s0.lh[i]? = some b) :
    log.start + i + 1 < log.start + log.size ∧ log.Outside b ∧ b ≠ log.start := by
  obtain ⟨hlt, -⟩ := List.getElem?_eq_some_iff.mp hi
  have hroom := h.room.2
  have hout := h.outside b (List.mem_of_getElem? hi)
  refine ⟨by omega, hout, ?_⟩
  rintro rfl
  unfold Outside at hout
  omega

theorem Outside.ne {a b : Nat} (h : log.Outside b) (hlow : log.start ≤ a)
    (hhigh : a < log.start + log.size) : b ≠ a := by
  unfold Outside at h
  omega

theorem Old.between (hready : Ready log s0) (h : Old log s0 s) : Between log s0 s := by
  intro b hb
  by_cases hmem : b ∈ s0.lh
  · exact .inr ⟨hmem, h b hb⟩
  · rw [h b hb, hready.new_eq hmem]
    exact .inl rfl

theorem New.between (h : New log s0 s) : Between log s0 s := fun b hb => .inl (h b hb)

theorem Clear.crash (h : Clear log s0 s) : Clear log s0 (crash s) := by
  obtain ⟨hclear, hphase⟩ := h
  refine ⟨hclear, ?_, rfl, fun _ => rfl⟩
  split at hphase
  · exact .inl hphase.1
  · exact .inl hphase.1
  all_goals exact hphase.1

theorem Committed.crash (h : Committed log s0 s) : Committed log s0 (crash s) := by
  obtain ⟨hheader, hcopied, -, hphase⟩ := h
  refine ⟨hheader, hcopied, fun _ _ => rfl, ?_, fun _ => rfl⟩
  split at hphase
  · exact hphase.1
  · exact hphase.1.between
  · exact hphase.1
  all_goals exact hphase.elim

theorem Clear.writeLog (hready : Ready log s0) (h : Clear log s0 s) {n : Nat}
    (hphase : s.phase = .writeLog n) : Clear log s0 (log.step s) := by
  obtain ⟨hclear, hrest⟩ := h
  rw [hphase] at hrest
  obtain ⟨hold, hlh, hdirty, hcopied⟩ := hrest
  unfold step
  rw [hphase, hlh]
  dsimp only
  cases hn : s0.lh[n]? with
  | none =>
    refine ⟨hclear, hold, hlh, hdirty, fun i b hi hb => hcopied i b ?_ hb⟩
    have hlen := List.getElem?_eq_none_iff.mp hn
    omega
  | some b =>
    obtain ⟨hin, hout, -⟩ := hready.apart hn
    have hinside : ∀ b, log.Outside b → b ≠ log.start + n + 1 := fun b hb =>
      hb.ne (by omega) hin
    have hbread : s.bread b = new s0 b := by
      rw [bread, hdirty, hold b hout]
      rfl
    have hkept : ∀ b', log.Outside b' →
        (s.bwrite (log.start + n + 1) (s.bread b)).disk b' = s.disk b' :=
      fun b' hb' => disk_bwrite_of_ne s _ (hinside b' hb')
    have hclean : s.dirty (log.start + n + 1) = none := by
      rw [hdirty]
      exact hready.dirty _ fun hmem => hinside _ (hready.outside _ hmem) rfl
    refine ⟨?_, fun b' hb' => (hkept b' hb').trans (hold b' hb'), hlh, ?_, fun i b' hi hb' => ?_⟩
    · have hstart : (s.bwrite (log.start + n + 1) (s.bread b)).disk log.start =
          s.disk log.start := disk_bwrite_of_ne s _ (by omega)
      exact (congrArg Block.logheader hstart).trans hclear
    · rw [← hdirty]
      exact Function.update_eq_self_iff.mpr hclean.symm
    · by_cases heq : i = n
      · subst heq
        rw [hn] at hb'
        cases hb'
        rw [← hbread]
        exact disk_bwrite_self ..
      · rw [← hcopied i b' (by omega) hb']
        exact disk_bwrite_of_ne _ _ (by omega)

theorem writeHead_spec (log : Log) (s : State) (hlen : s.lh.length ≤ logsize)
    (hsmall : ∀ b ∈ s.lh, b < fssize) :
    ((log.writeHead s).disk log.start).logheader = s.lh ∧
    (∀ a, a ≠ log.start → (log.writeHead s).disk a = s.disk a) ∧
    ∀ a, s.dirty a = none → (log.writeHead s).dirty a = none := by
  refine ⟨?_, fun a ha => disk_bwrite_of_ne s _ ha, fun a ha => dirty_bwrite _ _ ha⟩
  unfold writeHead
  rw [disk_bwrite_self]
  exact Block.logheader_setLogheader _ hlen fun b hb => (hsmall b hb).trans (by decide)

theorem Clear.writeHead (hready : Ready log s0) (h : Clear log s0 s)
    (hphase : s.phase = .writeHead) : Committed log s0 (log.step s) := by
  obtain ⟨-, hrest⟩ := h
  rw [hphase] at hrest
  obtain ⟨hold, hlh, hdirty, hcopied⟩ := hrest
  unfold step
  rw [hphase]
  dsimp only
  obtain ⟨hheader, hdisk, hclean⟩ := writeHead_spec log s (by rw [hlh]; exact hready.room.1)
    (by rw [hlh]; exact hready.small)
  refine ⟨hheader.trans hlh, fun i b hi hb => ?_, fun b hb => hclean b ?_, ?_, hlh,
    fun i b hi => absurd hi (Nat.not_lt_zero _)⟩
  · rw [← hcopied i b hi hb]
    exact hdisk _ (by omega)
  · rw [hdirty]
    exact hready.dirty b hb
  · refine Old.between hready fun b hb => ?_
    rw [← hold b hb]
    exact hdisk b (hb.ne le_rfl (Nat.lt_add_of_pos_right log.header))

theorem Clear.recovery (h : Clear log s0 s) (hphase : s.phase = .readHead ∨
      (∃ n, s.phase = .installTrans n) ∨ s.phase = .clearHead ∨ s.phase = .idle) :
    Clear log s0 (log.step s) := by
  obtain ⟨hclear, hrest⟩ := h
  unfold step
  rcases hphase with hphase | ⟨n, hphase⟩ | hphase | hphase
  · rw [hphase] at hrest ⊢
    obtain ⟨hdisk, -, hdirty⟩ := hrest
    refine ⟨hclear, hdisk.imp (fun hold b hb => hold b hb) (fun hnew b hb => hnew b hb), ?_, hdirty⟩
    dsimp only
    rw [bread_of_clean (hdirty log.start), hclear]
  · rw [hphase] at hrest ⊢
    obtain ⟨hdisk, hlh, hdirty⟩ := hrest
    rw [hlh]
    exact ⟨hclear, hdisk, rfl, hdirty⟩
  · rw [hphase] at hrest ⊢
    obtain ⟨hdisk, hlh, hdirty⟩ := hrest
    obtain ⟨hheader, hsame, hclean⟩ := writeHead_spec log s (by rw [hlh]; exact Nat.zero_le _)
      (by rw [hlh]; exact fun b hb => absurd hb List.not_mem_nil)
    have hkept : ∀ b, log.Outside b → (log.writeHead s).disk b = s.disk b := fun b hb =>
      hsame b (hb.ne le_rfl (Nat.lt_add_of_pos_right log.header))
    refine ⟨hheader.trans hlh, ?_, hlh, fun b => hclean b (hdirty b)⟩
    rcases hdisk with hold | hnew
    · exact .inl fun b hb => (hkept b hb).trans (hold b hb)
    · exact .inr fun b hb => (hkept b hb).trans (hnew b hb)
  · rw [hphase] at hrest ⊢
    exact ⟨hclear, by rw [hphase]; exact hrest⟩

theorem Committed.installTrans (hready : Ready log s0) (h : Committed log s0 s) {n : Nat}
    (hphase : s.phase = .installTrans n) : Committed log s0 (log.step s) := by
  obtain ⟨hheader, hcopied, hclean, hrest⟩ := h
  rw [hphase] at hrest
  obtain ⟨hbetween, hlh, hdone⟩ := hrest
  unfold step
  rw [hphase, hlh]
  dsimp only
  cases hn : s0.lh[n]? with
  | none =>
    have hlen := List.getElem?_eq_none_iff.mp hn
    have hall : ∀ b, b ∈ s0.lh → s.disk b = new s0 b ∧ s.dirty b = none := by
      intro b hb
      obtain ⟨i, hi⟩ := List.mem_iff_getElem?.mp hb
      obtain ⟨hlt, -⟩ := List.getElem?_eq_some_iff.mp hi
      exact hdone i b (by omega) hi
    refine ⟨hheader, hcopied, hclean, fun b hb => ?_, rfl, fun b => ?_⟩
    · rcases hbetween b hb with hnew | ⟨hmem, -⟩
      · exact hnew
      · exact (hall b hmem).1
    · by_cases hmem : b ∈ s0.lh
      · exact (hall b hmem).2
      · exact hclean b hmem
  | some b =>
    obtain ⟨hin, hout, hne⟩ := hready.apart hn
    obtain ⟨hlt, -⟩ := List.getElem?_eq_some_iff.mp hn
    have hlog : ∀ i, i < s0.lh.length → log.start + i + 1 ≠ b := fun i hi =>
      (hout.ne (by omega) (by have := hready.room.2; omega)).symm
    have hbread : s.bread (log.start + n + 1) = new s0 b := by
      rw [bread_of_clean, hcopied n b hlt hn]
      exact hclean _ fun hmem => (hready.outside _ hmem).ne (by omega) hin rfl
    rw [hbread]
    have hdisk : ∀ a, s.disk a = new s0 a → (s.bwrite b (new s0 b)).disk a = new s0 a := by
      intro a ha
      by_cases hab : a = b
      · rw [hab, disk_bwrite_self]
      · rw [disk_bwrite_of_ne s _ hab, ha]
    refine ⟨?_, fun i b' hi hb' => ?_, fun b' hb' => dirty_bwrite b (new s0 b) (hclean b' hb'),
      fun b' hb' => ?_, hlh, fun i b' hi hb' => ?_⟩
    · have hstart := disk_bwrite_of_ne s (new s0 b) hne.symm
      exact (congrArg Block.logheader hstart).trans hheader
    · rw [← hcopied i b' hi hb']
      exact disk_bwrite_of_ne s _ (hlog i hi)
    · rcases hbetween b' hb' with hnew | ⟨hmem, hold⟩
      · exact .inl (hdisk b' hnew)
      · by_cases hb : b' = b
        · rw [hb]
          exact .inl (disk_bwrite_self ..)
        · exact .inr ⟨hmem, (disk_bwrite_of_ne s (new s0 b) hb).trans hold⟩
    · by_cases heq : i = n
      · subst heq
        rw [hn] at hb'
        cases hb'
        exact ⟨disk_bwrite_self .., dirty_bwrite_self s b (new s0 b)⟩
      · obtain ⟨hnew, hnone⟩ := hdone i b' (by omega) hb'
        exact ⟨hdisk b' hnew, dirty_bwrite b (new s0 b) hnone⟩

theorem Committed.clearHead (h : Committed log s0 s) (hphase : s.phase = .clearHead) :
    Clear log s0 (log.step s) := by
  obtain ⟨-, -, -, hrest⟩ := h
  rw [hphase] at hrest
  obtain ⟨hnew, hlh, hdirty⟩ := hrest
  unfold step
  rw [hphase]
  obtain ⟨hheader, hsame, hclean⟩ := writeHead_spec log s (by rw [hlh]; exact Nat.zero_le _)
    (by rw [hlh]; exact fun b hb => absurd hb List.not_mem_nil)
  refine ⟨hheader.trans hlh, .inr fun b hb => ?_, hlh, fun b => hclean b (hdirty b)⟩
  rw [← hnew b hb]
  exact hsame b (hb.ne le_rfl (Nat.lt_add_of_pos_right log.header))

theorem Committed.readHead (h : Committed log s0 s) (hphase : s.phase = .readHead) :
    Committed log s0 (log.step s) := by
  obtain ⟨hheader, hcopied, hclean, hrest⟩ := h
  rw [hphase] at hrest
  obtain ⟨hbetween, hdirty⟩ := hrest
  unfold step
  rw [hphase]
  refine ⟨hheader, fun i b hi hb => hcopied i b hi hb, hclean, fun b hb => hbetween b hb, ?_,
    fun i b hi => absurd hi (Nat.not_lt_zero _)⟩
  dsimp only
  rw [bread_of_clean (hdirty log.start), hheader]

def Reachable (log : Log) (s0 s : State) : Prop := Clear log s0 s ∨ Committed log s0 s

theorem Reachable.step (hready : Ready log s0) (h : Reachable log s0 s) :
    Reachable log s0 (log.step s) := by
  rcases h with h | h
  · cases hphase : s.phase with
    | idle => exact .inl (h.recovery (.inr (.inr (.inr hphase))))
    | writeLog n => exact .inl (h.writeLog hready hphase)
    | writeHead => exact .inr (h.writeHead hready hphase)
    | installTrans n => exact .inl (h.recovery (.inr (.inl ⟨n, hphase⟩)))
    | clearHead => exact .inl (h.recovery (.inr (.inr (.inl hphase))))
    | readHead => exact .inl (h.recovery (.inl hphase))
  · cases hphase : s.phase with
    | installTrans n => exact .inr (h.installTrans hready hphase)
    | clearHead => exact .inl (h.clearHead hphase)
    | readHead => exact .inr (h.readHead hphase)
    | idle | writeLog n | writeHead =>
      have hnone := h.2.2.2
      rw [hphase] at hnone
      exact hnone.elim

theorem Reachable.crash (h : Reachable log s0 s) : Reachable log s0 (crash s) :=
  h.imp Clear.crash Committed.crash

theorem Ready.reachable_commit (h : Ready log s0) (hidle : s0.phase = .idle) :
    Reachable log s0 (commit s0) := by
  unfold commit
  split
  · exact .inl ⟨h.clear, fun _ _ => rfl, rfl, rfl, fun i b hi => absurd hi (Nat.not_lt_zero _)⟩
  · rename_i hnil
    have hlh : s0.lh = [] := List.length_eq_zero_iff.mp (by omega)
    refine .inl ⟨h.clear, ?_⟩
    rw [hidle]
    exact ⟨.inl fun _ _ => rfl, hlh, fun b => h.dirty b (by rw [hlh]; exact List.not_mem_nil)⟩

theorem Ready.reachable_crash (h : Ready log s0) : Reachable log s0 (crash s0) :=
  .inl ⟨h.clear, .inl fun _ _ => rfl, rfl, fun _ => rfl⟩

theorem Reachable.idle (h : Reachable log s0 s) (hidle : s.phase = .idle) :
    Ready log s ∧ s.lh = [] ∧ (Old log s0 s ∨ New log s0 s) := by
  rcases h with ⟨hclear, hrest⟩ | ⟨-, -, -, hrest⟩
  · rw [hidle] at hrest
    obtain ⟨hdisk, hlh, hdirty⟩ := hrest
    refine ⟨⟨hclear, fun b _ => hdirty b, ?_, ?_, ?_, ?_⟩, hlh, hdisk⟩
    · rw [hlh]
      exact List.nodup_nil
    · rw [hlh]
      exact fun b hb => absurd hb List.not_mem_nil
    · rw [hlh]
      exact fun b hb => absurd hb List.not_mem_nil
    · rw [hlh]
      exact ⟨Nat.zero_le _, Nat.zero_le _⟩
  · rw [hidle] at hrest
    exact hrest.elim

theorem Ready.absorb (h : Ready log s) {b : Nat} (data : Block) (hout : log.Outside b)
    (hsmall : b < fssize) (hroom : ¬ log.Full s) : Ready log (absorb s b data) := by
  have hlen : s.lh.length < logsize ∧ s.lh.length < log.size - 1 := by
    unfold Full at hroom
    omega
  refine ⟨h.clear, fun a ha => ?_, ?_, fun a ha => ?_, fun a ha => ?_, ?_⟩
  · rw [mem_absorb] at ha
    have hne : a ≠ b := fun heq => ha (.inl heq)
    rw [← h.dirty a fun hin => ha (.inr hin)]
    exact Function.update_of_ne hne ..
  · unfold Log.absorb
    dsimp only
    split
    · exact h.nodup
    · rename_i hb
      exact List.nodup_append'.mpr ⟨h.nodup, List.nodup_singleton b,
        List.disjoint_singleton.mpr hb⟩
  · rcases (mem_absorb s a b data).mp ha with rfl | ha
    · exact hout
    · exact h.outside a ha
  · rcases (mem_absorb s a b data).mp ha with rfl | ha
    · exact hsmall
    · exact h.small a ha
  · rw [length_absorb]
    split
    · exact ⟨hlen.1.le, hlen.2.le⟩
    · exact hlen

def Steady (log : Log) (s : State) : Prop :=
  s.phase = .idle ∧ Ready log s ∨ ∃ s0, Ready log s0 ∧ Reachable log s0 s

theorem Steady.ready (h : Steady log s) (hidle : s.phase = .idle) : Ready log s := by
  rcases h with ⟨-, hready⟩ | ⟨s0, -, hreachable⟩
  · exact hready
  · exact (hreachable.idle hidle).1

theorem steady_powerOn {disk : Nat → Block} (h : disk log.start = Block.zero) :
    Steady log (powerOn disk) := by
  refine .inr ⟨powerOn disk, ?_, .inl ⟨?_, .inl fun _ _ => rfl, rfl, fun _ => rfl⟩⟩
  · refine ⟨?_, fun _ _ => rfl, List.nodup_nil, ?_, ?_, Nat.zero_le _, Nat.zero_le _⟩
    · exact Block.logheader_eq_nil (congrArg (Block.word · 0) h)
    · exact fun b hb => absurd hb List.not_mem_nil
    · exact fun b hb => absurd hb List.not_mem_nil
  · exact Block.logheader_eq_nil (congrArg (Block.word · 0) h)

theorem steady_step {a : Act} {out : Unit} (h : Steady log s) (henabled : log.Enabled s a)
    (hstep : log.machine s a = .ok (s', out)) : Steady log s' := by
  cases a with
  | logWrite b data =>
    obtain ⟨hidle, hout, hsmall⟩ := henabled
    obtain ⟨s1, hwrite, heq⟩ := Fallible.map_eq_ok.mp hstep
    cases heq
    unfold Log.logWrite at hwrite
    split at hwrite
    · cases hwrite
    · rename_i hroom
      cases Except.ok.inj hwrite
      exact .inl ⟨hidle, (h.ready hidle).absorb data hout hsmall hroom⟩
  | commit =>
    cases Except.ok.inj hstep
    exact .inr ⟨s, h.ready henabled, (h.ready henabled).reachable_commit henabled⟩
  | step =>
    cases Except.ok.inj hstep
    rcases h with ⟨hidle, -⟩ | ⟨s0, hready, hreachable⟩
    · exact absurd hidle henabled
    · exact .inr ⟨s0, hready, hreachable.step hready⟩
  | crash =>
    cases Except.ok.inj hstep
    rcases h with ⟨-, hready⟩ | ⟨s0, hready, hreachable⟩
    · exact .inr ⟨s, hready, hready.reachable_crash⟩
    · exact .inr ⟨s0, hready, hreachable.crash⟩

theorem Reachable.interrupted (hready : Ready log s0) (h : Reachable log s0 s)
    (hrun : Reaches log.machine Interrupted s s') : Reachable log s0 s' := by
  refine hrun.invariant (Reachable log s0) h fun s1 a s2 out h1 hallowed hstep => ?_
  cases a with
  | step =>
    cases Except.ok.inj hstep
    exact h1.step hready
  | crash =>
    cases Except.ok.inj hstep
    exact h1.crash
  | logWrite b data => exact hallowed.elim
  | commit => exact hallowed.elim

theorem installTrans_ends (log : Log) {n : Nat} (hphase : s.phase = .installTrans n) :
    ∃ k, (log.step^[k] s).phase = .idle := by
  -- the blocks that are left to install, then two more steps
  generalize hleft : s.lh.length - n = left
  induction left generalizing s n with
  | zero =>
    have hend : s.lh[n]? = none := List.getElem?_eq_none (by omega)
    refine ⟨2, ?_⟩
    rw [Function.iterate_succ_apply, Function.iterate_one, step.eq_def log s, hphase]
    dsimp only
    rw [hend]
    rfl
  | succ left ih =>
    have hlt : n < s.lh.length := by omega
    have hnext : log.step s = (s.bwrite s.lh[n] (s.bread (log.start + n + 1))).goto
        (.installTrans (n + 1)) := by
      rw [step, hphase]
      dsimp only
      rw [List.getElem?_eq_getElem hlt]
    obtain ⟨k, hk⟩ := ih (s := log.step s) (n := n + 1) (by rw [hnext]; rfl) (by
      rw [hnext]
      change s.lh.length - (n + 1) = left
      omega)
    exact ⟨k + 1, by rw [Function.iterate_succ_apply]; exact hk⟩

theorem recovery_ends (log : Log) (s : State) :
    ∃ k, (log.step^[k] (crash s)).phase = .idle := by
  have hphase : (log.step (crash s)).phase = .installTrans 0 := rfl
  obtain ⟨k, hk⟩ := installTrans_ends log hphase
  exact ⟨k + 1, by rw [Function.iterate_succ_apply]; exact hk⟩

/-- All or nothing: what is on the disk in `s` when the transaction of `s0` was committed. -/
structure Atomic (log : Log) (s0 s : State) : Prop where
  home : (∀ b ∈ s0.lh, s.disk b = s0.bread b) ∨ ∀ b ∈ s0.lh, s.disk b = s0.disk b
  rest : ∀ b, log.Outside b → b ∉ s0.lh → s.disk b = s0.disk b
  again : ∀ s', Reaches log.machine Interrupted s s' →
    ∀ b, log.Outside b → s'.disk b = s.disk b

theorem Reachable.atomic (hready : Ready log s0) (h : Reachable log s0 s)
    (hidle : s.phase = .idle) : Atomic log s0 s := by
  obtain ⟨hready', hlh, hdisk⟩ := h.idle hidle
  refine ⟨?_, fun b hb hmem => ?_, fun s' hrun b hb => ?_⟩
  · rcases hdisk with hold | hnew
    · exact .inr fun b hb => hold b (hready.outside b hb)
    · exact .inl fun b hb => hnew b (hready.outside b hb)
  · rcases hdisk with hold | hnew
    · exact hold b hb
    · rw [hnew b hb, hready.new_eq hmem]
  · -- the transaction of `s` is empty, so that old and new are the same
    have hsame : ∀ b, b ∉ s.lh := fun b => by rw [hlh]; exact List.not_mem_nil
    have hstart : Reachable log s s := by
      refine .inl ⟨hready'.clear, ?_⟩
      rw [hidle]
      exact ⟨.inl fun _ _ => rfl, hlh, fun b => hready'.dirty b (hsame b)⟩
    rcases hstart.interrupted hready' hrun with ⟨-, hrest⟩ | ⟨-, -, -, hrest⟩
    · split at hrest
      · exact hrest.1 b hb
      · exact hrest.1 b hb
      all_goals
        rcases hrest.1 with hold | hnew
        · exact hold b hb
        · rw [hnew b hb, hready'.new_eq (hsame b)]
    · split at hrest
      · rcases hrest.1 b hb with hnew | ⟨hmem, -⟩
        · rw [hnew, hready'.new_eq (hsame b)]
        · exact absurd hmem (hsame b)
      · rw [hrest.1 b hb, hready'.new_eq (hsame b)]
      · rcases hrest.1 b hb with hnew | ⟨hmem, -⟩
        · rw [hnew, hready'.new_eq (hsame b)]
        · exact absurd hmem (hsame b)
      all_goals exact hrest.elim

/-- However often a commit and the recoveries after it are cut short, the transaction is on
the disk as a whole or not at all once a recovery has ended, and a recovery ends when it is
left alone. -/
theorem crash_atomic {disk : Nat → Block} (hzero : disk log.start = Block.zero)
    (hreaches : Reaches log.machine log.Enabled (powerOn disk) s0) (hidle : s0.phase = .idle)
    (hrun : Reaches log.machine Interrupted (commit s0) s) :
    (s.phase = .idle → Atomic log s0 s) ∧ ∃ k, (log.step^[k] (crash s)).phase = .idle := by
  have hsteady : Steady log s0 := hreaches.invariant (Steady log) (steady_powerOn hzero)
    fun _ _ _ _ h henabled hstep => steady_step h henabled hstep
  have hready := hsteady.ready hidle
  have hreachable := (hready.reachable_commit hidle).interrupted hready hrun
  exact ⟨hreachable.atomic hready, recovery_ends log s⟩

/-- Two blocks; the machine stops after one of them is installed, and again in the recovery. -/
theorem crash_atomic_twice : ∃ s0 s, (fun _ => Block.zero : Nat → Block) 2 = Block.zero ∧
    Reaches ofMkfs.machine ofMkfs.Enabled (powerOn fun _ => Block.zero) s0 ∧
    s0.phase = .idle ∧ s0.lh = [100, 70] ∧
    Reaches ofMkfs.machine Interrupted (commit s0) s ∧ s.phase = .idle ∧
    s.disk 70 0 = 8 ∧ Atomic ofMkfs s0 s := by
  obtain ⟨s0, hreaches, htest⟩ := exists_reaches ofMkfs.machine ofMkfs.Enabled
    (powerOn fun _ => Block.zero)
    [.step, .step, .step, .logWrite 100 fun _ => 7, .logWrite 70 fun _ => 8]
    (fun s0 => decide (s0.phase = .idle ∧ s0.lh = [100, 70]) &&
      (replay ofMkfs.machine Interrupted
        [.step, .step, .step, .step, .step, .crash, .step, .step, .crash, .step, .step, .step,
          .step, .step] [] (commit s0)).any
        fun r : List (State × Act × Unit) × State =>
          decide (r.2.phase = .idle ∧ r.2.disk 70 0 = 8)) (by decide +kernel)
  obtain ⟨hfirst, hsecond⟩ := Bool.and_eq_true_iff.mp htest
  obtain ⟨hidle, hlh⟩ := of_decide_eq_true hfirst
  obtain ⟨s, hrun, hend⟩ := exists_reaches _ _ _ _
    (fun s : State => decide (s.phase = .idle ∧ s.disk 70 0 = 8))
    hsecond
  obtain ⟨hdone, hbyte⟩ := of_decide_eq_true hend
  exact ⟨s0, s, rfl, hreaches, hidle, hlh, hrun, hdone, hbyte,
    (crash_atomic rfl hreaches hidle hrun).1 hdone⟩

end Xv6.Log

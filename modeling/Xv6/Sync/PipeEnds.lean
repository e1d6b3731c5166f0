import Xv6.Sync.Pipe

/-! The two ends of a pipe. An end stays open as long as a thread holds a descriptor for it,
and a thread in a call holds one, so that no call ever finds the page of the pipe given back;
with that a pipe is a lossless queue in every run. -/
namespace Xv6.Pipes

open Fallible Ring Transition

variable {T : Type}

/-- The end whose descriptor a call in progress was made on. -/
def Pc.uses : Pc → Option End
  | .writing .. => some .write
  | .reading .. => some .read
  | .user | .closing _ => none

theorem Pc.wakeReader_uses (pc : Pc) : pc.wakeReader.uses = pc.uses := by
  cases pc <;> rfl

theorem Pc.wakeWriter_uses (pc : Pc) : pc.wakeWriter.uses = pc.uses := by
  cases pc <;> rfl

theorem Pc.wakeReader_closing {pc : Pc} {e : End} :
    pc.wakeReader = .closing e ↔ pc = .closing e := by
  cases pc <;> simp [Pc.wakeReader]

theorem Pc.wakeWriter_closing {pc : Pc} {e : End} :
    pc.wakeWriter = .closing e ↔ pc = .closing e := by
  cases pc <;> simp [Pc.wakeWriter]

theorem close_isOpen (s : State T) (e e' : End) :
    (s.close e).pipe.isOpen e' = if e' = e then false else s.pipe.isOpen e' := by
  cases e <;> cases e' <;> rfl

theorem close_closing (s : State T) (e e' : End) (u : T) :
    ((s.close e).thread u).pc = .closing e' ↔ (s.thread u).pc = .closing e' := by
  cases e
  · exact Pc.wakeWriter_closing
  · exact Pc.wakeReader_closing

theorem close_uses (s : State T) (e : End) (u : T) :
    ((s.close e).thread u).pc.uses = (s.thread u).pc.uses := by
  cases e
  · exact Pc.wakeWriter_uses _
  · exact Pc.wakeReader_uses _

theorem close_rest (s : State T) (e : End) :
    (s.close e).ref = s.ref ∧ (s.close e).freed = s.freed ∧
      ∀ u, ((s.close e).thread u).fds = (s.thread u).fds := by
  cases e
  · exact ⟨rfl, rfl, fun _ => rfl⟩
  · exact ⟨rfl, rfl, fun _ => rfl⟩

theorem writeLoop_open (addr : Nat → UInt8) (left i : Nat) (p : Pipe) (e : End) :
    (writeLoop addr left i p).1.isOpen e = p.isOpen e := by
  induction left generalizing i p with
  | zero => rfl
  | succ left ih =>
    unfold writeLoop
    split
    · rfl
    · rw [ih]
      cases e <;> rfl

theorem readLoop_open (left : Nat) (p : Pipe) (e : End) :
    (readLoop left p).1.isOpen e = p.isOpen e := by
  induction left generalizing p with
  | zero => rfl
  | succ left ih =>
    unfold readLoop
    split
    · rfl
    · rw [ih]
      cases e <;> rfl

section

variable [DecidableEq T]

theorem setFds_pc (s : State T) (t u : T) (e : End) (ref fds : Nat) :
    ((s.setFds t e ref fds).thread u).pc = (s.thread u).pc := by
  by_cases hut : u = t
  · subst hut
    simp [State.setFds, State.modify]
  · simp [State.setFds, State.modify, hut]

theorem setFds_fds_ne (s : State T) {t u : T} {e e' : End} (ref fds : Nat)
    (hne : u ≠ t ∨ e' ≠ e) :
    ((s.setFds t e ref fds).thread u).fds e' = (s.thread u).fds e' := by
  by_cases hut : u = t
  · subst hut
    have he : e' ≠ e := hne.resolve_left fun h => h rfl
    simp [State.setFds, State.modify, he]
  · simp [State.setFds, State.modify, hut]

theorem setFds_ref_ne (s : State T) (t : T) {e e' : End} (ref fds : Nat) (he : e' ≠ e) :
    (s.setFds t e ref fds).ref e' = s.ref e' :=
  Function.update_of_ne he _ _

end

section

variable [Fintype T]

/-- The reference counts are those of the descriptors; an end is open until the thread that
closed its last descriptor has run `pipeclose`; and a call in progress holds a descriptor. -/
structure Sound (s : State T) : Prop where
  refs : ∀ e, s.ref e = Threads.total s.thread fun th => th.fds e
  shut : ∀ e, s.pipe.isOpen e = false → s.ref e = 0 ∧ ∀ t, (s.thread t).pc ≠ .closing e
  closing : ∀ e t, (s.thread t).pc = .closing e →
    s.ref e = 0 ∧ ∀ u, (s.thread u).pc = .closing e → u = t
  busy : ∀ t e, (s.thread t).pc.uses = some e → 0 < (s.thread t).fds e
  freed : s.freed = true → ∀ e, s.pipe.isOpen e = false

variable {s s' : State T}

theorem Sound.ref_pos (h : Sound s) {t : T} {e : End} (hfds : 0 < (s.thread t).fds e) :
    0 < s.ref e := by
  have hle : (s.thread t).fds e ≤ Threads.total s.thread fun th => th.fds e :=
    Finset.single_le_sum (f := fun u => (s.thread u).fds e) (fun u _ => Nat.zero_le _)
      (Finset.mem_univ t)
  rw [h.refs e]
  omega

theorem Sound.open_of_ref (h : Sound s) {e : End} (href : 0 < s.ref e) :
    s.pipe.isOpen e = true := by
  cases hopen : s.pipe.isOpen e with
  | true => rfl
  | false =>
    have hzero := (h.shut e hopen).1
    omega

theorem Sound.not_freed (h : Sound s) {e : End} (hopen : s.pipe.isOpen e = true) :
    s.freed = false := by
  cases hfreed : s.freed with
  | false => rfl
  | true =>
    have hshut := h.freed hfreed e
    rw [hopen] at hshut
    cases hshut

theorem Sound.keep (h : Sound s) (hopen : ∀ e, s'.pipe.isOpen e = s.pipe.isOpen e)
    (hfreed : s'.freed = s.freed) (href : s'.ref = s.ref)
    (hfds : ∀ u, (s'.thread u).fds = (s.thread u).fds)
    (hclosing : ∀ u e, (s'.thread u).pc = .closing e → (s.thread u).pc = .closing e)
    (huses : ∀ u e, (s'.thread u).pc.uses = some e → 0 < (s.thread u).fds e) : Sound s' where
  refs := by
    intro e
    rw [href, h.refs e]
    exact (Threads.total_congr fun u => by rw [hfds u]).symm
  shut := by
    intro e hshut
    rw [hopen e] at hshut
    rw [href]
    exact ⟨(h.shut e hshut).1, fun u hu => (h.shut e hshut).2 u (hclosing u e hu)⟩
  closing := by
    intro e t ht
    rw [href]
    obtain ⟨hzero, honly⟩ := h.closing e t (hclosing t e ht)
    exact ⟨hzero, fun u hu => honly u (hclosing u e hu)⟩
  busy := by
    intro u e hu
    rw [hfds u]
    exact huses u e hu
  freed := by
    intro hf e
    rw [hopen e]
    rw [hfreed] at hf
    exact h.freed hf e

theorem Sound.setPipe (h : Sound s) {p : Pipe} (hopen : ∀ e, p.isOpen e = s.pipe.isOpen e) :
    Sound { s with pipe := p } :=
  h.keep hopen rfl rfl (fun _ => rfl) (fun _ _ hu => hu) h.busy

theorem Sound.wakeReaders (h : Sound s) : Sound s.wakeReaders := by
  refine h.keep (fun _ => rfl) rfl rfl (fun _ => rfl) (fun u e hu => ?_) fun u e hu => ?_
  · exact Pc.wakeReader_closing.mp hu
  · change (s.thread u).pc.wakeReader.uses = some e at hu
    rw [Pc.wakeReader_uses] at hu
    exact h.busy u e hu

theorem Sound.wakeWriters (h : Sound s) : Sound s.wakeWriters := by
  refine h.keep (fun _ => rfl) rfl rfl (fun _ => rfl) (fun u e hu => ?_) fun u e hu => ?_
  · exact Pc.wakeWriter_closing.mp hu
  · change (s.thread u).pc.wakeWriter.uses = some e at hu
    rw [Pc.wakeWriter_uses] at hu
    exact h.busy u e hu

variable [DecidableEq T]

theorem sound_pipealloc (data : Nat → UInt8) (owner : T) : Sound (pipealloc data owner) where
  refs := by
    intro e
    simp [pipealloc, Threads.total]
  shut := by
    intro e h
    cases e <;> cases h
  closing := by
    intro e t h
    cases h
  busy := by
    intro t e h
    cases h
  freed := by
    intro h
    cases h

theorem Sound.setPc (h : Sound s) (t : T) {pc : Pc} (hpc : ∀ e, pc ≠ .closing e)
    (huses : ∀ e, pc.uses = some e → 0 < (s.thread t).fds e) : Sound (s.setPc t pc) := by
  refine h.keep (fun _ => rfl) rfl rfl (fun u => ?_) (fun u e hu => ?_) (fun u e hu => ?_)
  · by_cases hut : u = t
    · subst hut
      simp [State.setPc, State.modify]
    · simp [State.setPc, State.modify, hut]
  · by_cases hut : u = t
    · subst hut
      simp only [State.setPc, State.modify, Function.update_self] at hu
      exact absurd hu (hpc e)
    · simpa [State.setPc, State.modify, hut] using hu
  · by_cases hut : u = t
    · subst hut
      simp only [State.setPc, State.modify, Function.update_self] at hu
      exact huses e hu
    · simp only [State.setPc, State.modify, Function.update_of_ne hut] at hu
      exact h.busy u e hu

theorem Sound.writeFrom (h : Sound s) {t : T} (hfds : 0 < (s.thread t).fds .write)
    (addr : Nat → UInt8) (i : Nat) (n : Int) : Sound (s.writeFrom t addr i n).1 := by
  have hloop := h.setPipe (writeLoop_open addr (n.toNat - i) i s.pipe)
  unfold State.writeFrom
  dsimp only
  split
  · exact hloop.wakeReaders.setPc t (by simp) (by simp [Pc.uses])
  · split
    · exact hloop.setPc t (by simp) (by simp [Pc.uses])
    · refine hloop.wakeReaders.setPc t (by simp) fun e he => ?_
      cases Option.some.inj he
      exact hfds

theorem Sound.readFrom (h : Sound s) {t : T} (hfds : 0 < (s.thread t).fds .read) (n : Int) :
    Sound (s.readFrom t n).1 := by
  unfold State.readFrom
  split
  · split
    · exact h.setPc t (by simp) (by simp [Pc.uses])
    · refine h.setPc t (by simp) fun e he => ?_
      cases Option.some.inj he
      exact hfds
  · have hloop := h.setPipe (readLoop_open n.toNat s.pipe)
    exact hloop.wakeWriters.setPc t (by simp) (by simp [Pc.uses])

theorem Sound.kill (h : Sound s) (t : T) : Sound (s.kill t) := by
  refine h.keep (fun _ => rfl) rfl rfl (fun u => ?_) (fun u e hu => ?_) (fun u e hu => ?_)
  · by_cases hut : u = t
    · subst hut
      simp [State.kill, State.modify]
    · simp [State.kill, State.modify, hut]
  · by_cases hut : u = t
    · subst hut
      simp only [State.kill, State.modify, Function.update_self] at hu
      exact Pc.wakeReader_closing.mp (Pc.wakeWriter_closing.mp hu)
    · simpa [State.kill, State.modify, hut] using hu
  · by_cases hut : u = t
    · subst hut
      simp only [State.kill, State.modify, Function.update_self, Pc.wakeWriter_uses,
        Pc.wakeReader_uses] at hu
      exact h.busy u e hu
    · simp only [State.kill, State.modify, Function.update_of_ne hut] at hu
      exact h.busy u e hu

theorem setFds_refs (h : Sound s) (t : T) {e : End} {ref fds : Nat}
    (hmoves : ref + (s.thread t).fds e = s.ref e + fds) (e' : End) :
    (s.setFds t e ref fds).ref e' =
      Threads.total (s.setFds t e ref fds).thread fun th => th.fds e' := by
  have htotal := Threads.total_update s.thread t
    { s.thread t with fds := Function.update (s.thread t).fds e fds } fun th => th.fds e'
  have hrefs := h.refs e'
  change Function.update s.ref e ref e' = Threads.total (Function.update s.thread t _) _
  by_cases he : e' = e
  · subst he
    simp only [Function.update_self] at htotal ⊢
    omega
  · simp only [Function.update_of_ne he] at htotal ⊢
    omega

theorem Sound.setFds (h : Sound s) {t : T} {e : End} {ref fds : Nat} (href : 0 < s.ref e)
    (hmoves : ref + (s.thread t).fds e = s.ref e + fds) (hpc : (s.thread t).pc = .user) :
    Sound (s.setFds t e ref fds) where
  refs := setFds_refs h t hmoves
  shut := by
    intro e' hshut
    have hshut' : s.pipe.isOpen e' = false := hshut
    obtain ⟨hzero, hnone⟩ := h.shut e' hshut'
    have he : e' ≠ e := by
      rintro rfl
      omega
    rw [setFds_ref_ne _ _ _ _ he]
    refine ⟨hzero, fun u => ?_⟩
    rw [setFds_pc]
    exact hnone u
  closing := by
    intro e' u hu
    rw [setFds_pc] at hu
    obtain ⟨hzero, honly⟩ := h.closing e' u hu
    have he : e' ≠ e := by
      rintro rfl
      omega
    rw [setFds_ref_ne _ _ _ _ he]
    refine ⟨hzero, fun v hv => honly v ?_⟩
    rwa [setFds_pc] at hv
  busy := by
    intro u e' hu
    rw [setFds_pc] at hu
    have hut : u ≠ t := by
      rintro rfl
      rw [hpc] at hu
      cases hu
    rw [setFds_fds_ne _ _ _ (.inl hut)]
    exact h.busy u e' hu
  freed := h.freed

theorem Sound.startClose (h : Sound s) {t : T} {e : End} (hopen : s.pipe.isOpen e = true)
    (href : s.ref e = 0) (hnone : ∀ u, (s.thread u).pc ≠ .closing e)
    (hpc : (s.thread t).pc = .user) : Sound (s.setPc t (.closing e)) := by
  have hsame : ∀ u, u ≠ t → (s.setPc t (.closing e)).thread u = s.thread u := by
    intro u hut
    simp [State.setPc, State.modify, hut]
  have hself : ((s.setPc t (.closing e)).thread t).pc = .closing e := by
    simp [State.setPc, State.modify]
  have hfds : ∀ u, ((s.setPc t (.closing e)).thread u).fds = (s.thread u).fds := by
    intro u
    by_cases hut : u = t
    · subst hut
      simp [State.setPc, State.modify]
    · rw [hsame u hut]
  constructor
  · intro e'
    exact (h.refs e').trans (Threads.total_congr fun u => by rw [hfds u]).symm
  · intro e' hshut
    have hshut' : s.pipe.isOpen e' = false := hshut
    obtain ⟨hzero, hclosing⟩ := h.shut e' hshut'
    refine ⟨hzero, fun u hu => ?_⟩
    by_cases hut : u = t
    · subst hut
      rw [hself] at hu
      cases hu
      rw [hopen] at hshut'
      cases hshut'
    · rw [hsame u hut] at hu
      exact hclosing u hu
  · intro e' u hu
    by_cases hut : u = t
    · subst hut
      rw [hself] at hu
      cases hu
      refine ⟨href, fun v hv => ?_⟩
      by_contra hvu
      rw [hsame v hvu] at hv
      exact hnone v hv
    · rw [hsame u hut] at hu
      have he : e' ≠ e := by
        rintro rfl
        exact hnone u hu
      obtain ⟨hzero, honly⟩ := h.closing e' u hu
      refine ⟨hzero, fun v hv => honly v ?_⟩
      by_cases hvt : v = t
      · subst hvt
        rw [hself] at hv
        cases hv
        exact absurd rfl he
      · rwa [hsame v hvt] at hv
  · intro u e' hu
    rw [hfds u]
    by_cases hut : u = t
    · subst hut
      rw [hself] at hu
      cases hu
    · rw [hsame u hut] at hu
      exact h.busy u e' hu
  · exact h.freed

theorem Sound.filedup {u : T} {e : End} (h : Sound s) (hpc : (s.thread u).pc = .user)
    (hdup : s.filedup u e = .ok s') : Sound s' := by
  unfold State.filedup at hdup
  split at hdup
  · cases hdup
  · rename_i href
    cases Except.ok.inj hdup
    exact h.setFds (by omega) (by omega) hpc

theorem Sound.fileclose {t : T} {e : End} (h : Sound s) (hpc : (s.thread t).pc = .user)
    (hfds : 0 < (s.thread t).fds e) (hclose : s.fileclose t e = .ok s') : Sound s' := by
  have href := h.ref_pos hfds
  have hopen := h.open_of_ref href
  unfold State.fileclose at hclose
  rw [if_neg (by omega)] at hclose
  dsimp only at hclose
  have hless : Sound (s.setFds t e (s.ref e - 1) ((s.thread t).fds e - 1)) :=
    h.setFds href (by omega) hpc
  split at hclose
  · cases Except.ok.inj hclose
    exact hless
  · rename_i hlast
    cases Except.ok.inj hclose
    refine hless.startClose hopen (by omega) (fun u hu => ?_) ?_
    · rw [setFds_pc] at hu
      have hzero := (h.closing e u hu).1
      omega
    · rw [setFds_pc]
      exact hpc

theorem Sound.pipeclose {t : T} {e : End} (h : Sound s) (hpc : (s.thread t).pc = .closing e) :
    Sound (s.pipeclose t e) := by
  obtain ⟨hzero, honly⟩ := h.closing e t hpc
  obtain ⟨href, hfreed, hfds⟩ := close_rest s e
  have hnotFreed : s.freed = false := by
    cases hopen : s.pipe.isOpen e with
    | true => exact h.not_freed hopen
    | false => exact absurd hpc ((h.shut e hopen).2 t)
  have hpc' : ∀ u, ((s.pipeclose t e).thread u).pc =
      if u = t then .user else ((s.close e).thread u).pc := by
    intro u
    unfold State.pipeclose
    by_cases hut : u = t
    · subst hut
      dsimp only
      split <;> simp [State.setPc, State.modify]
    · dsimp only
      split <;> simp [State.setPc, State.modify, hut]
  have hfds' : ∀ u, ((s.pipeclose t e).thread u).fds = (s.thread u).fds := by
    intro u
    rw [← hfds u]
    unfold State.pipeclose
    by_cases hut : u = t
    · subst hut
      dsimp only
      split <;> simp [State.setPc, State.modify]
    · dsimp only
      split <;> simp [State.setPc, State.modify, hut]
  have href' : (s.pipeclose t e).ref = s.ref := by
    rw [← href]
    unfold State.pipeclose
    dsimp only
    split <;> rfl
  have hopen' : ∀ e', (s.pipeclose t e).pipe.isOpen e' = (s.close e).pipe.isOpen e' := by
    intro e'
    unfold State.pipeclose
    dsimp only
    split <;> rfl
  have hclosing : ∀ u e', ((s.pipeclose t e).thread u).pc = .closing e' →
      u ≠ t ∧ (s.thread u).pc = .closing e' := by
    intro u e' hu
    rw [hpc' u] at hu
    split at hu
    · cases hu
    · rename_i hut
      exact ⟨hut, (close_closing s e e' u).mp hu⟩
  constructor
  · intro e'
    rw [href']
    exact (h.refs e').trans (Threads.total_congr fun u => by rw [hfds' u]).symm
  · intro e' hshut
    rw [hopen' e', close_isOpen] at hshut
    rw [href']
    split at hshut
    · rename_i he
      subst he
      exact ⟨hzero, fun u hu => (hclosing u e' hu).1 (honly u (hclosing u e' hu).2)⟩
    · exact ⟨(h.shut e' hshut).1, fun u hu => (h.shut e' hshut).2 u (hclosing u e' hu).2⟩
  · intro e' u hu
    rw [href']
    obtain ⟨hzero', honly'⟩ := h.closing e' u (hclosing u e' hu).2
    exact ⟨hzero', fun v hv => honly' v (hclosing v e' hv).2⟩
  · intro u e' hu
    rw [hfds' u]
    rw [hpc' u] at hu
    split at hu
    · cases hu
    · rw [close_uses] at hu
      exact h.busy u e' hu
  · intro hf
    unfold State.pipeclose at hf
    dsimp only at hf
    split at hf
    · rename_i hboth
      intro e'
      rw [hopen' e']
      cases e' with
      | read => exact hboth.1
      | write => exact hboth.2
    · change (s.close e).freed = true at hf
      rw [hfreed, hnotFreed] at hf
      cases hf

theorem sound_step {a : Act T} {out : Out} (h : Sound s) (henabled : s.Enabled a)
    (hstep : s.perform a = .ok (s', out)) : Sound s' := by
  cases a with
  | pipewrite t n addr =>
    have hsound := h.writeFrom henabled.2 addr 0 n
    rwa [← onPipe_ok hstep] at hsound
  | piperead t n =>
    have hsound := h.readFrom henabled.2 n
    rwa [← onPipe_ok hstep] at hsound
  | resume t addr =>
    simp only [State.perform] at hstep
    split at hstep
    · rename_i i n asleep hpc
      have hsound := h.writeFrom (h.busy t .write (by rw [hpc]; rfl)) addr i n
      rwa [← onPipe_ok hstep] at hsound
    · rename_i n asleep hpc
      have hsound := h.readFrom (h.busy t .read (by rw [hpc]; rfl)) n
      rwa [← onPipe_ok hstep] at hsound
    · cases Except.ok.inj hstep
      exact h
  | kill t =>
    cases Except.ok.inj hstep
    exact h.kill t
  | filedup t u e =>
    obtain ⟨s1, hdup, heq⟩ := map_eq_ok.mp hstep
    cases heq
    exact h.filedup henabled.2.2 hdup
  | fileclose t e =>
    obtain ⟨s1, hclose, heq⟩ := map_eq_ok.mp hstep
    cases heq
    exact h.fileclose henabled.1 henabled.2 hclose
  | pipeclose t =>
    simp only [State.perform] at hstep
    split at hstep
    · rename_i e hpc
      cases onPipe_ok hstep
      exact h.pipeclose hpc
    · cases Except.ok.inj hstep
      exact h

theorem Sound.total {a : Act T} (h : Sound s) (henabled : s.Enabled a) :
    ∃ r, s.perform a = .ok r := by
  have hpipe : ∀ {t : T} {e : End} (r : State T × Out), 0 < (s.thread t).fds e →
      ∃ r', s.onPipe r = .ok r' := by
    intro t e r hfds
    have hfreed := h.not_freed (h.open_of_ref (h.ref_pos hfds))
    unfold State.onPipe
    rw [hfreed]
    exact ⟨r, rfl⟩
  cases a with
  | pipewrite t n addr => exact hpipe _ henabled.2
  | piperead t n => exact hpipe _ henabled.2
  | resume t addr =>
    simp only [State.perform]
    split
    · rename_i i n asleep hpc
      exact hpipe _ (h.busy t .write (by rw [hpc]; rfl))
    · rename_i n asleep hpc
      exact hpipe _ (h.busy t .read (by rw [hpc]; rfl))
    · exact ⟨_, rfl⟩
  | kill t => exact ⟨_, rfl⟩
  | filedup t u e =>
    have href := h.ref_pos henabled.2.1
    simp only [State.perform, State.filedup]
    rw [if_neg (by omega)]
    exact ⟨_, rfl⟩
  | fileclose t e =>
    have href := h.ref_pos henabled.2
    simp only [State.perform, State.fileclose]
    rw [if_neg (by omega)]
    exact ⟨_, rfl⟩
  | pipeclose t =>
    simp only [State.perform]
    split
    · rename_i e hpc
      have hfreed : s.freed = false := by
        cases hopen : s.pipe.isOpen e with
        | true => exact h.not_freed hopen
        | false => exact absurd hpc ((h.shut e hopen).2 t)
      unfold State.onPipe
      rw [hfreed]
      exact ⟨_, rfl⟩
    · exact ⟨_, rfl⟩

theorem sound_run {data : Nat → UInt8} {owner : T} {trace : List (State T × Act T × Out)}
    (run : Run State.perform State.Enabled (pipealloc data owner) trace s) : Sound s :=
  run.invariant (fun _ s => Sound s) (sound_pipealloc data owner)
    fun _ _ _ _ _ h henabled hstep => sound_step h henabled hstep

/-- A pipe is a lossless queue of at most `PIPESIZE` bytes, whoever reads, writes, closes or is
killed, and no call in a run ever finds its page given back. -/
theorem pipe_fifo {data : Nat → UInt8} {owner : T} {trace : List (State T × Act T × Out)}
    (run : Run State.perform State.Enabled (pipealloc data owner) trace s) :
    (s.pipe.nwrite + (uintMod - s.pipe.nread)) % uintMod ≤ pipesize ∧
      deliveredBy trace <+: storedBy trace ∧
      (deliveredBy trace).length + (s.pipe.nwrite + (uintMod - s.pipe.nread)) % uintMod =
        (storedBy trace).length ∧
      ∀ a, s.Enabled a → ∃ r, s.perform a = .ok r := by
  obtain ⟨l, hholds, hstored⟩ := conveys_run run
  have hlength := Buffer.Holds.length_eq hholds pipesize_lt
  refine ⟨?_, ⟨l, hstored.symm⟩, ?_, fun a => (sound_run run).total⟩
  · rw [hlength]
    exact Buffer.Holds.length_le hholds
  · rw [hlength, hstored, List.length_append]

end

/-- A writer and the reader it forked; the reader is asleep when the first bytes come. -/
theorem pipe_fifo_forked : ∃ (trace : List (State (Fin 2) × Act (Fin 2) × Out))
    (s : State (Fin 2)), Run State.perform State.Enabled (pipealloc (fun _ => 0) 0) trace s ∧
      storedBy trace = [7, 8, 9] ∧ deliveredBy trace = [7, 8] ∧
      deliveredBy trace <+: storedBy trace := by
  obtain ⟨trace, s, run, htest⟩ := exists_run State.perform State.Enabled
    (pipealloc (fun _ => 0) (0 : Fin 2))
    [.filedup 0 1 .read, .piperead 1 2, .pipewrite 0 3 fun i => UInt8.ofNat (i + 7),
      .resume 1 fun _ => 0]
    (fun trace _ => decide (storedBy trace = [7, 8, 9] ∧ deliveredBy trace = [7, 8]))
    (by decide +kernel)
  obtain ⟨hstored, hdelivered⟩ := of_decide_eq_true htest
  exact ⟨trace, s, run, hstored, hdelivered, (pipe_fifo run).2.1⟩

end Xv6.Pipes

import Xv6.Fs.Call
import Xv6.Fs.Content
import Xv6.Lib.Transition

/-! Guarded file access: `pread` and `pwrite` of `file.c` between the lock operations of
`thread_safe_pread` and `thread_safe_pwrite`. A `pwrite` gives the inode up between its
transactions; the lock is taken as given, with what a readers-writer lock promises. -/
namespace Xv6

open Word Fallible Transition

structure OpenFile where
  readable : Bool
  writable : Bool
  ip : Iref

/-- Where a `pwrite` of `src` at `off` stands: `i` bytes are written, or it has returned. -/
inductive Progress where
  | writing (i : Nat)
  | returned (r : Int)
  deriving DecidableEq

namespace Fs

def pread (fs : Fs) (f : OpenFile) (off : Int) (n : Nat) :
    Except Panic (Fs × Io (List UInt8)) :=
  if f.readable then do
    let fs ← fs.ilock f.ip
    fs.readi f.ip (u32OfInt off) n
  else .ok (fs, .fail)

/-- One turn of the loop of `pwrite`, or its end. The driver writes all it is given. -/
def pwriteTurn (fs : Fs) (f : OpenFile) (src : List UInt8) (off : Int) (i : Nat) :
    Except Panic (Fs × Progress) :=
  if ¬ f.writable then .ok (fs, .returned (-1))
  else if src.length ≤ i then .ok (fs, .returned src.length)
  else do
    let n1 := min (src.length - i) chunkMax
    let (fs, r) ← fs.writeChunk f.ip ((src.drop i).take n1) (u32OfInt (off + i))
    match r with
    | .fail => return (fs, .returned (-1))
    | .device => return (fs, .writing (i + n1))
    | .done r => if r = n1 then return (fs, .writing (i + r)) else .error .shortPwrite

end Fs

namespace FileState

def pwriteLoop (src : List UInt8) (off : Int) : Nat → FileState → Nat → FileState × Int
  | 0, st, _ => (st, -1)
  | fuel + 1, st, i =>
      if src.length ≤ i then (st, src.length)
      else
        let n1 := min (src.length - i) Fs.chunkMax
        let (st, r) := st.writei ((src.drop i).take n1) (u32OfInt (off + i))
        if r = .fail then (st, -1) else pwriteLoop src off fuel st (i + n1)

def pwrite (st : FileState) (f : OpenFile) (src : List UInt8) (off : Int) : FileState × Int :=
  if f.writable then pwriteLoop src off (src.length + 1) st 0 else (st, -1)

def pread (st : FileState) (f : OpenFile) (off : Int) (n : Nat) : Io (List UInt8) :=
  if f.readable then st.readi (u32OfInt off) n else .fail

end FileState

namespace Guarded

/-- A thread outside the two calls, inside `thread_safe_pread` with the read lock, or inside
`thread_safe_pwrite` with the write lock. -/
inductive Pc where
  | idle
  | reading (off : Int) (n : Nat)
  | read
  | writing (src : List UInt8) (off : Int) (progress : Progress)
  deriving DecidableEq

namespace Pc

def isReading : Pc → Bool
  | .reading .. => true
  | _ => false

def holdsWrite : Pc → Bool
  | .writing .. => true
  | _ => false

def inLoop : Pc → Bool
  | .writing _ _ (.writing _) => true
  | _ => false

end Pc

structure State (n : Nat) where
  fs : Fs
  pc : Fin n → Pc

inductive Act (n : Nat) where
  | acquireRead (t : Fin n) (off : Int) (len : Nat)
  | pread (t : Fin n)
  | releaseRead (t : Fin n)
  | acquireWrite (t : Fin n) (src : List UInt8) (off : Int)
  | turn (t : Fin n)
  | releaseWrite (t : Fin n)

def State.set {n : Nat} (s : State n) (fs : Fs) (t : Fin n) (pc : Pc) : State n :=
  ⟨fs, Function.update s.pc t pc⟩

def step {n : Nat} (f : OpenFile) (s : State n) :
    Act n → Except Panic (State n × Option (Io (List UInt8)))
  | .acquireRead t off len => .ok (s.set s.fs t (.reading off len), none)
  | .pread t =>
      match s.pc t with
      | .reading off len => do
          let (fs, answer) ← s.fs.pread f off len
          return (s.set fs t .read, some answer)
      | _ => .ok (s, none)
  | .releaseRead t => .ok (s.set s.fs t .idle, none)
  | .acquireWrite t src off => .ok (s.set s.fs t (.writing src off (.writing 0)), none)
  | .turn t =>
      match s.pc t with
      | .writing src off (.writing i) => do
          let (fs, progress) ← s.fs.pwriteTurn f src off i
          return (s.set fs t (.writing src off progress), none)
      | _ => .ok (s, none)
  | .releaseWrite t => .ok (s.set s.fs t .idle, none)

/-- The lock lets in readers while nobody writes, and a writer while nobody else is in. -/
def Enabled {n : Nat} (s : State n) : Act n → Prop
  | .acquireRead t _ _ => s.pc t = .idle ∧ ∀ u, (s.pc u).holdsWrite = false
  | .pread t => (s.pc t).isReading = true
  | .releaseRead t => s.pc t = .read
  | .acquireWrite .. => ∀ u, s.pc u = .idle
  | .turn t => (s.pc t).inLoop = true
  | .releaseWrite t => (s.pc t).holdsWrite = true ∧ (s.pc t).inLoop = false

instance {n : Nat} (s : State n) : (a : Act n) → Decidable (Enabled s a)
  | .acquireRead .. | .releaseWrite _ => inferInstanceAs (Decidable (_ ∧ _))
  | .pread _ | .releaseRead _ | .turn _ => inferInstanceAs (Decidable (_ = _))
  | .acquireWrite .. => inferInstanceAs (Decidable (∀ _, _))

variable {n : Nat}

def completed : List (State n × Act n × Option (Io (List UInt8))) → List (List UInt8 × Int)
  | [] => []
  | (s, .releaseWrite t, _) :: rest =>
      match s.pc t with
      | .writing src off _ => (src, off) :: completed rest
      | _ => completed rest
  | _ :: rest => completed rest

def after (f : OpenFile) (st : FileState) (calls : List (List UInt8 × Int)) : FileState :=
  calls.foldr (fun call st => (st.pwrite f call.1 call.2).1) st

/-- Every `pread` answers for the file after the calls that had completed. -/
def ReadsWhole (f : OpenFile) (st : FileState) :
    List (State n × Act n × Option (Io (List UInt8))) → Prop
  | [] => True
  | (s, .pread t, answer) :: rest =>
      (∀ off len, s.pc t = .reading off len →
        answer = some ((after f st (completed rest)).pread f off len)) ∧ ReadsWhole f st rest
  | _ :: rest => ReadsWhole f st rest

/-- `open` has left the inode loaded, and the blocks of the file are its own. -/
structure Opened (fs : Fs) (ip : Iref) : Prop where
  sound : fs.Sound ip
  valid : (fs.icache ip).valid = true

theorem Opened.ilock {fs fs' : Fs} {ip : Iref} (h : Opened fs ip) (hok : fs.ilock ip = .ok fs') :
    fs' = fs := by
  unfold Fs.ilock at hok
  dsimp only at hok
  split at hok
  · cases hok
  · rw [if_pos h.valid] at hok
    cases Except.ok.inj hok
    rfl

theorem Opened.pread {fs fs' : Fs} {f : OpenFile} {off : Int} {len : Nat} {a : Io (List UInt8)}
    (h : Opened fs f.ip) (hok : fs.pread f off len = .ok (fs', a)) :
    Opened fs' f.ip ∧ fs'.file f.ip = fs.file f.ip ∧ a = (fs.file f.ip).pread f off len := by
  unfold Fs.pread at hok
  unfold FileState.pread
  split at hok
  · rename_i hreadable
    obtain ⟨fs1, hlock, hread⟩ := bind_eq_ok.mp hok
    cases h.ilock hlock
    obtain ⟨hfills, rfl⟩ := Fs.readi_spec h.sound hread
    rw [if_pos hreadable]
    exact ⟨⟨hfills.sound, hfills.sameEntry.valid.trans h.valid⟩, hfills.file, rfl⟩
  · rename_i hreadable
    cases Except.ok.inj hok
    rw [if_neg hreadable]
    exact ⟨h, rfl, rfl⟩

def EndsWith (f : OpenFile) (src : List UInt8) (off : Int) (st : FileState) :
    Progress → FileState × Int → Prop
  | .writing i, result => i ≤ src.length ∧
      if f.writable then ∃ fuel, src.length < i + fuel ∧
        FileState.pwriteLoop src off fuel st i = result
      else (st, -1) = result
  | .returned r, result => (st, r) = result

theorem endsWith_start (f : OpenFile) (src : List UInt8) (off : Int) (st : FileState) :
    EndsWith f src off st (.writing 0) (st.pwrite f src off) := by
  refine ⟨Nat.zero_le _, ?_⟩
  unfold FileState.pwrite
  split
  · exact ⟨src.length + 1, by omega, rfl⟩
  · rfl

theorem Opened.turn {fs fs' : Fs} {f : OpenFile} {src : List UInt8} {off : Int} {i : Nat}
    {progress : Progress} {result : FileState × Int} (h : Opened fs f.ip)
    (hok : fs.pwriteTurn f src off i = .ok (fs', progress))
    (hends : EndsWith f src off (fs.file f.ip) (.writing i) result) :
    Opened fs' f.ip ∧ EndsWith f src off (fs'.file f.ip) progress result := by
  obtain ⟨hi, hends⟩ := hends
  unfold Fs.pwriteTurn at hok
  split at hok
  · rename_i hwritable
    cases Except.ok.inj hok
    rw [if_neg hwritable] at hends
    exact ⟨h, hends⟩
  rename_i hwritable
  rw [if_pos (not_not.mp hwritable)] at hends
  obtain ⟨fuel, hfuel, hloop⟩ := hends
  obtain ⟨fuel, rfl⟩ := Nat.exists_eq_succ_of_ne_zero (show fuel ≠ 0 by omega)
  unfold FileState.pwriteLoop at hloop
  split at hok
  · rename_i hdone
    cases Except.ok.inj hok
    rw [if_pos hdone] at hloop
    exact ⟨h, hloop⟩
  rename_i hmore
  rw [if_neg hmore] at hloop
  dsimp only at hok hloop
  generalize hn1 : min (src.length - i) Fs.chunkMax = n1 at hok hloop
  have hpos : 0 < n1 ∧ n1 ≤ src.length - i := by
    simp only [Fs.chunkMax, maxopblocks] at hn1
    omega
  obtain ⟨⟨fs1, r⟩, hchunk, hok⟩ := bind_eq_ok.mp hok
  obtain ⟨fs0, hlock, hwrite⟩ := bind_eq_ok.mp hchunk
  have hbegin : Opened fs.beginOp f.ip := ⟨h.sound, h.valid⟩
  cases hbegin.ilock hlock
  obtain ⟨hwrite, -⟩ := Fs.checkLog_eq_ok.mp hwrite
  obtain ⟨hsound, hsame, hwritei⟩ := Fs.writei_spec hbegin.sound hwrite
  change (fs.file f.ip).writei _ _ = _ at hwritei
  rw [hwritei] at hloop
  have hopened : Opened fs1 f.ip := ⟨hsound, hsame.valid.trans h.valid⟩
  have hnext : r ≠ .fail → EndsWith f src off (fs1.file f.ip) (.writing (i + n1)) result := by
    intro hr
    refine ⟨by omega, ?_⟩
    rw [if_pos (not_not.mp hwritable)]
    exact ⟨fuel, by omega, by rwa [if_neg hr] at hloop⟩
  cases r with
  | fail =>
    cases Except.ok.inj hok
    exact ⟨hopened, hloop⟩
  | device =>
    cases Except.ok.inj hok
    exact ⟨hopened, hnext (by simp)⟩
  | done r =>
    dsimp only at hok
    split at hok
    · rename_i hr
      cases Except.ok.inj hok
      rw [hr]
      exact ⟨hopened, hnext (by simp)⟩
    · cases hok

section

variable {f : OpenFile} {st : FileState} {s s' : State n} {out : Option (Io (List UInt8))}
  {trace : List (State n × Act n × Option (Io (List UInt8)))}

/-- The file is that after the completed calls, and while a thread writes it leads to that
after one call more. -/
structure Whole (f : OpenFile) (st : FileState)
    (trace : List (State n × Act n × Option (Io (List UInt8)))) (s : State n) : Prop where
  opened : Opened s.fs f.ip
  alone : ∀ t u, (s.pc t).holdsWrite = true → u ≠ t → s.pc u = .idle
  quiet : (∀ t, (s.pc t).holdsWrite = false) → s.fs.file f.ip = after f st (completed trace)
  writing : ∀ t src off progress, s.pc t = .writing src off progress →
    EndsWith f src off (s.fs.file f.ip) progress
      ((after f st (completed trace)).pwrite f src off)
  reads : ReadsWhole f st trace

theorem set_pc (s : State n) (fs : Fs) (t u : Fin n) (pc : Pc) :
    (s.set fs t pc).pc u = if u = t then pc else s.pc u := Function.update_apply ..

theorem Whole.no_writer (h : Whole f st trace s) {t : Fin n} (hidle : s.pc t ≠ .idle)
    (hwrite : (s.pc t).holdsWrite = false) (u : Fin n) : (s.pc u).holdsWrite = false := by
  by_contra hu
  by_cases heq : u = t
  · rw [heq] at hu
    exact hu hwrite
  · exact hidle (h.alone u t (Bool.not_eq_false _ ▸ hu) (Ne.symm heq))

theorem Whole.reader {fs : Fs} {t : Fin n} {pc : Pc} {a : Act n} (h : Whole f st trace s)
    (hnone : ∀ u, (s.pc u).holdsWrite = false) (hpc : pc.holdsWrite = false)
    (hopened : Opened fs f.ip) (hfile : fs.file f.ip = s.fs.file f.ip)
    (hcompleted : completed ((s, a, out) :: trace) = completed trace)
    (hreads : ReadsWhole f st ((s, a, out) :: trace)) :
    Whole f st ((s, a, out) :: trace) (s.set fs t pc) := by
  have hstill : ∀ u, ((s.set fs t pc).pc u).holdsWrite = false := by
    intro u
    rw [set_pc]
    split
    · exact hpc
    · exact hnone u
  refine ⟨hopened, fun u v hu => ?_, fun _ => ?_, fun u src off progress hu => ?_, hreads⟩
  · rw [hstill u] at hu
    cases hu
  · rw [hcompleted]
    exact hfile.trans (h.quiet hnone)
  · have hcontra := hstill u
    rw [hu] at hcontra
    cases hcontra

theorem Whole.writer {fs : Fs} {t : Fin n} {src : List UInt8} {off : Int} {progress : Progress}
    {a : Act n} (halone : ∀ u, u ≠ t → s.pc u = .idle) (hopened : Opened fs f.ip)
    (hends : EndsWith f src off (fs.file f.ip) progress
      ((after f st (completed trace)).pwrite f src off))
    (hcompleted : completed ((s, a, out) :: trace) = completed trace)
    (hreads : ReadsWhole f st ((s, a, out) :: trace)) :
    Whole f st ((s, a, out) :: trace) (s.set fs t (.writing src off progress)) := by
  refine ⟨hopened, fun u v hu hne => ?_, fun hnone => ?_, fun u src' off' progress' hu => ?_,
    hreads⟩
  · rw [set_pc] at hu ⊢
    split at hu
    · rename_i heq
      rw [if_neg (heq ▸ hne)]
      exact halone v (heq ▸ hne)
    · rename_i heq
      rw [halone u heq] at hu
      cases hu
  · have hcontra := hnone t
    rw [set_pc, if_pos rfl] at hcontra
    cases hcontra
  · rw [set_pc] at hu
    rw [hcompleted]
    split at hu
    · cases hu
      exact hends
    · rename_i heq
      rw [halone u heq] at hu
      cases hu

theorem Whole.step {a : Act n} (h : Whole f st trace s) (henabled : Enabled s a)
    (hstep : step f s a = .ok (s', out)) : Whole f st ((s, a, out) :: trace) s' := by
  cases a with
  | acquireRead t off len =>
    cases Except.ok.inj hstep
    exact h.reader henabled.2 rfl h.opened rfl rfl h.reads
  | releaseRead t =>
    cases Except.ok.inj hstep
    have ht : s.pc t = .read := henabled
    exact h.reader (h.no_writer (t := t) (by simp [ht]) (by rw [ht]; rfl)) rfl h.opened rfl rfl
      h.reads
  | pread t =>
    cases hpc : s.pc t with
    | reading off len =>
      simp only [Guarded.step, hpc] at hstep
      obtain ⟨⟨fs, answer⟩, hread, hstep⟩ := bind_eq_ok.mp hstep
      cases Except.ok.inj hstep
      obtain ⟨hopened, hfile, rfl⟩ := h.opened.pread hread
      have hnone := h.no_writer (t := t) (by simp [hpc]) (by rw [hpc]; rfl)
      refine h.reader hnone rfl hopened hfile rfl ⟨fun off' len' hpc' => ?_, h.reads⟩
      rw [hpc] at hpc'
      cases hpc'
      rw [h.quiet hnone]
    | idle | read | writing _ _ _ => simp [Enabled, hpc, Pc.isReading] at henabled
  | acquireWrite t src off =>
    cases Except.ok.inj hstep
    have hidle : ∀ u, s.pc u = .idle := henabled
    refine Whole.writer (fun u _ => hidle u) h.opened ?_ rfl h.reads
    rw [h.quiet fun u => by rw [hidle u]; rfl]
    exact endsWith_start f src off _
  | turn t =>
    cases hpc : s.pc t with
    | writing src off progress =>
      cases progress with
      | writing i =>
        simp only [Guarded.step, hpc] at hstep
        obtain ⟨⟨fs, progress⟩, hturn, hstep⟩ := bind_eq_ok.mp hstep
        cases Except.ok.inj hstep
        obtain ⟨hopened, hends⟩ := h.opened.turn hturn (h.writing t src off _ hpc)
        exact Whole.writer (fun u hu => h.alone t u (by rw [hpc]; rfl) hu) hopened hends rfl h.reads
      | returned r => simp [Enabled, hpc, Pc.inLoop] at henabled
    | idle | read | reading _ _ => simp [Enabled, hpc, Pc.inLoop] at henabled
  | releaseWrite t =>
    cases Except.ok.inj hstep
    cases hpc : s.pc t with
    | writing src off progress =>
      cases progress with
      | writing i => simp [Enabled, hpc, Pc.inLoop] at henabled
      | returned r =>
        have hends : (s.fs.file f.ip, r) = _ := h.writing t src off _ hpc
        have hidle : ∀ u, (s.set s.fs t .idle).pc u = .idle := by
          intro u
          rw [set_pc]
          split
          · rfl
          · rename_i hne
            exact h.alone t u (by rw [hpc]; rfl) hne
        refine ⟨h.opened, fun u v hu => ?_, fun _ => ?_, fun u src' off' progress' hu => ?_,
          h.reads⟩
        · rw [hidle u] at hu
          cases hu
        · simp only [completed, hpc]
          exact congrArg Prod.fst hends
        · rw [hidle u] at hu
          cases hu
    | idle | read | reading _ _ => simp [Enabled, hpc, Pc.holdsWrite] at henabled

end

/-- No `pread` sees a part of a `pwrite`: each answers for the file after the whole calls
that have completed before it, in the order of their completion. -/
theorem reads_see_whole_writes (f : OpenFile) {fs : Fs} (hopened : Opened fs f.ip) {s : State n}
    {trace : List (State n × Act n × Option (Io (List UInt8)))}
    (run : Run (step f) Enabled ⟨fs, fun _ => .idle⟩ trace s) :
    ReadsWhole f (fs.file f.ip) trace := by
  have hwhole : Whole f (fs.file f.ip) trace s := by
    refine run.invariant (Whole f (fs.file f.ip)) ⟨hopened, ?_, fun _ => rfl, ?_, trivial⟩
      fun _ _ _ _ _ hwhole henabled hstep => hwhole.step henabled hstep
    · intro t u ht
      cases ht
    · intro t src off progress ht
      cases ht
  exact hwhole.reads

def freshFile : Fs where
  bitmap b := decide (b < nmeta)
  dinode _ := Dinode.zero
  data _ := Block.zero
  icache ip := ⟨2, if ip = 0 then 1 else 0, true, { Dinode.zero with type := .file, nlink := 1 }⟩
  logged := []

theorem opened_freshFile : Opened freshFile 0 := by
  have hblock : ∀ slot js, (freshFile.tree 0).block slot js = 0 :=
    fun slot js => BlockTree.follow_zero _ js
  refine ⟨⟨rfl, fun slot js _ => ?_, fun slot js slot' js' _ _ hne => ?_⟩, rfl⟩
  · rw [hblock]
    rfl
  · exact absurd (hblock slot js) hne

/-- A `pwrite` in two transactions and a `pread` across their boundary. -/
theorem reads_see_whole_writes_chunks : ∃ trace, ∃ s : State 2,
    Run (step ⟨true, true, 0⟩) Enabled ⟨freshFile, fun _ => .idle⟩ trace s ∧
    trace.filterMap (fun e => e.2.2) = [.done [7, 7, 7, 7]] ∧
    ReadsWhole ⟨true, true, 0⟩ (freshFile.file 0) trace := by
  obtain ⟨trace, s, run, htest⟩ := exists_run (step ⟨true, true, 0⟩) Enabled
    (⟨freshFile, fun _ => .idle⟩ : State 2)
    [.acquireWrite 0 (List.replicate 1600 7) 0, .turn 0, .turn 0, .turn 0, .releaseWrite 0,
      .acquireRead 1 1534 4, .pread 1]
    (fun trace _ => trace.filterMap (fun e => e.2.2) = [.done [7, 7, 7, 7]]) (by decide +kernel)
  exact ⟨trace, s, run, of_decide_eq_true htest,
    reads_see_whole_writes ⟨true, true, 0⟩ opened_freshFile run⟩

end Guarded

end Xv6

import Xv6.Proc.Inversion

/-! Page directories of process groups. An LWP shares the directory of its manager, and
`wait` and `exec` free a directory whoever else uses it. -/
namespace Xv6.Kernel

open Word Fallible Transition

def Childless (k : Kernel) (p : Slot) : Prop :=
  ∀ i, (k.proc i).Live → (k.proc i).tid ≠ 0 → (k.proc i).manager ≠ some p

instance (k : Kernel) (p : Slot) : Decidable (k.Childless p) :=
  inferInstanceAs (Decidable (∀ _, _))

def DirKept (k : Kernel) : Act → Prop
  | .wait p | .resumeWait p =>
      ∀ z, (k.proc z).state = .zombie → (k.proc z).parent = some p → k.Childless z
  | .threadJoin p thread => ∀ z, (k.proc z).state = .zombie → (k.proc z).manager = some p →
      (k.proc z).tid = thread → k.Childless z
  | .resumeJoin p => ∀ z, (k.proc z).state = .zombie → (k.proc z).manager = some p →
      k.joining p = some (k.proc z).tid → k.Childless z
  | .exit p | .exitBegin p =>
      ∀ z, (k.proc z).state = .zombie → (k.proc z).manager = k.swept p → k.Childless z
  | .exec p _ _ => (k.proc p).tid = 0 → k.Childless p
  | .threadCreate p _ => ∀ mgr, k.manager? p = .ok (some mgr) → (k.proc mgr).nexttid ≠ 0
  | _ => True

instance (k : Kernel) : (a : Act) → Decidable (k.DirKept a)
  | .wait _ | .resumeWait _ | .threadJoin .. | .resumeJoin _ | .exit _ | .exitBegin _
  | .threadCreate .. => inferInstanceAs (Decidable (∀ _, _))
  | .exec .. => inferInstanceAs (Decidable (_ → _))
  | .visit .. | .yield _ | .sleepOn .. | .wakeup _ | .charge .. | .kill .. | .fork _ | .sbrk ..
  | .threadExit .. | .exitEnd _ | .setCpuShare .. => inferInstanceAs (Decidable True)

def DirAllowed (k : Kernel) (a : Act) : Prop := k.Enabled a ∧ k.DirKept a

instance (k : Kernel) (a : Act) : Decidable (k.DirAllowed a) :=
  inferInstanceAs (Decidable (_ ∧ _))

/-- Who may use which directory. A process that is not an LWP shares its directory only
with its own LWPs, and such a directory, like those of live LWPs, is not freed. -/
structure DirsOwned (k : Kernel) : Prop where
  known : ∀ i d, (k.proc i).state ≠ .unused → (k.proc i).pgdir = some d → d < k.nextdir
  freed : ∀ d ∈ k.freed, d < k.nextdir
  shared : ∀ i j d, i ≠ j → (k.proc i).state ≠ .unused → (k.proc j).state ≠ .unused →
    (k.proc i).tid = 0 → (k.proc i).pgdir = some d → (k.proc j).pgdir = some d →
    (k.proc j).tid ≠ 0 ∧ (k.proc j).manager = some i
  parents : ∀ i, (k.proc i).state = .unused ∨ (k.proc i).tid ≠ 0 → (k.proc i).parent = none
  managers : ∀ i m, (k.proc i).Live → (k.proc i).tid ≠ 0 → (k.proc i).manager = some m →
    (k.proc m).state ≠ .unused ∧ (k.proc m).tid = 0
  intact : ∀ i d, (k.proc i).state ≠ .unused → (k.proc i).Live ∨ (k.proc i).tid = 0 →
    (k.proc i).pgdir = some d → d ∉ k.freed

theorem dirsOwned_boot (free : Nat) : (boot free).DirsOwned := by
  have hzero : ((boot free).proc 0).pgdir = some 0 := rfl
  have htid : ∀ i, ((boot free).proc i).tid = 0 := by
    intro i
    by_cases hi : i = 0
    · subst hi; rfl
    · simp [boot, hi, Proc.zero]
  have hunused : ∀ i, i ≠ 0 → ((boot free).proc i).state = .unused := by
    intro i hi
    simp [boot, hi, Proc.zero]
  have honly : ∀ i, ((boot free).proc i).state ≠ .unused → i = 0 := by
    intro i hi
    by_contra hne
    exact hi (hunused i hne)
  refine ⟨?_, ?_, ?_, ?_, ?_, ?_⟩
  · intro i d hi hd
    rw [honly i hi, hzero] at hd
    cases hd
    exact Nat.zero_lt_one
  · intro d hd
    exact absurd hd (Finset.notMem_empty d)
  · intro i j d hne hi hj
    exact absurd ((honly i hi).trans (honly j hj).symm) hne
  · intro i _
    by_cases hi : i = 0
    · subst hi; rfl
    · simp [boot, hi, Proc.zero]
  · intro i m _ hne
    exact absurd (htid i) hne
  · intro i d _ _ _
    exact Finset.notMem_empty d

/-- A slot that keeps its directory, manager and handle, or is given back. -/
structure Kept (p q : Proc) : Prop where
  live : q.Live → p.Live
  used : q.state ≠ .unused → p.state ≠ .unused
  tid : q.state ≠ .unused → q.tid = p.tid
  manager : q.state ≠ .unused → q.manager = p.manager
  pgdir : q.state ≠ .unused → q.pgdir = p.pgdir
  parent : p.parent = none → q.parent = none
  empty : q.state = .unused → p.state = .unused ∨ q.parent = none

theorem kept_of_identity {p q : Proc} (hlive : q.Live → p.Live) (hp : p.state ≠ .unused)
    (hq : q.state ≠ .unused) (hparent : p.parent = none → q.parent = none)
    (htid : q.tid = p.tid) (hmanager : q.manager = p.manager) (hpgdir : q.pgdir = p.pgdir) :
    Kept p q :=
  ⟨hlive, fun _ => hp, fun _ => htid, fun _ => hmanager, fun _ => hpgdir, hparent,
    fun h => absurd h hq⟩

theorem kept_of_settled {p q : Proc} (h : Proc.Settled p q) : Kept p q := by
  cases h with
  | quiet h =>
    have hid : q.state ≠ .unused → q.identity = p.identity :=
      fun hq => h.identity (mt h.unused.mpr hq)
    exact ⟨h.live.mp, mt h.unused.mpr, fun hq => congrArg Identity.tid (hid hq),
      fun hq => congrArg Identity.manager (hid hq), fun hq => congrArg Identity.pgdir (hid hq),
      h.parent.mpr, fun hq => .inl (h.unused.mp hq)⟩
  | reaped _ hafter hparent _ =>
    exact ⟨fun hq => absurd hafter hq.1, absurd hafter, absurd hafter, absurd hafter,
      absurd hafter, fun _ => hparent, fun _ => .inr hparent⟩

/-- A step that creates no directory: slots are kept or given back, a slot that live LWPs
need is not given back, and what is newly freed is in nobody's way. -/
theorem DirsOwned.kept {k k' : Kernel} (h : k.DirsOwned)
    (hproc : ∀ i, Kept (k.proc i) (k'.proc i)) (hnext : k'.nextdir = k.nextdir)
    (hgone : ∀ m, (k.proc m).state ≠ .unused → (k'.proc m).state = .unused → k.Childless m)
    (hknown : ∀ d ∈ k'.freed, d < k.nextdir)
    (hfreed : ∀ i d, (k'.proc i).state ≠ .unused → (k.proc i).Live ∨ (k.proc i).tid = 0 →
      (k.proc i).pgdir = some d → d ∈ k'.freed → d ∈ k.freed) : k'.DirsOwned where
  known := by
    intro i d hi hd
    rw [hnext]
    rw [(hproc i).pgdir hi] at hd
    exact h.known i d ((hproc i).used hi) hd
  freed := by
    rw [hnext]
    exact hknown
  shared := by
    intro i j d hne hi hj htid hdi hdj
    rw [(hproc i).tid hi] at htid
    rw [(hproc i).pgdir hi] at hdi
    rw [(hproc j).pgdir hj] at hdj
    rw [(hproc j).tid hj, (hproc j).manager hj]
    exact h.shared i j d hne ((hproc i).used hi) ((hproc j).used hj) htid hdi hdj
  parents := by
    intro i hi
    by_cases hu : (k'.proc i).state = .unused
    · rcases (hproc i).empty hu with hbefore | hparent
      · exact (hproc i).parent (h.parents i (.inl hbefore))
      · exact hparent
    · rcases hi with hi | hi
      · exact absurd hi hu
      · rw [(hproc i).tid hu] at hi
        exact (hproc i).parent (h.parents i (.inr hi))
  managers := by
    intro i m hlive htid hmgr
    rw [(hproc i).tid hlive.1] at htid
    rw [(hproc i).manager hlive.1] at hmgr
    have hbefore := (hproc i).live hlive
    obtain ⟨hm, hzero⟩ := h.managers i m hbefore htid hmgr
    have hstays : (k'.proc m).state ≠ .unused :=
      fun hu => hgone m hm hu i hbefore htid hmgr
    exact ⟨hstays, ((hproc m).tid hstays).trans hzero⟩
  intact := by
    intro i d hi hor hd
    rw [(hproc i).pgdir hi] at hd
    have hbefore : (k.proc i).Live ∨ (k.proc i).tid = 0 := by
      rcases hor with hlive | hzero
      · exact .inl ((hproc i).live hlive)
      · exact .inr ((hproc i).tid hi ▸ hzero)
    intro hmem
    exact h.intact i d ((hproc i).used hi) hbefore hd (hfreed i d hi hbefore hd hmem)

theorem DirsOwned.manager {k : Kernel} (h : k.DirsOwned) {cur mgr : Slot}
    (hcur : (k.proc cur).Live) (hmgr : k.manager? cur = .ok (some mgr)) :
    (k.proc mgr).state ≠ .unused ∧ (k.proc mgr).tid = 0 := by
  unfold manager? at hmgr
  split at hmgr
  · rename_i htid
    obtain ⟨m, hm, heq⟩ := map_eq_ok.mp hmgr
    cases heq
    exact h.managers cur mgr hcur (by omega) (deref_eq_ok hm)
  · split at hmgr
    · rename_i htid
      cases Except.ok.inj hmgr
      exact ⟨hcur.1, htid⟩
    · cases hmgr

/-- `cur` gets a directory while all other slots are quiet. As a process of its own it must
be alone with it, and as an LWP it may share it only with its manager's group. -/
theorem DirsOwned.assigned {k k' : Kernel} (h : k.DirsOwned) (cur : Slot)
    (others : ∀ i, i ≠ cur → Proc.Quiet (k.proc i) (k'.proc i))
    (hused : (k'.proc cur).state ≠ .unused) (hnext : k.nextdir ≤ k'.nextdir)
    (hdir : ∀ d, (k'.proc cur).pgdir = some d → d < k'.nextdir ∧ d ∉ k'.freed)
    (halone : ∀ i d, (k'.proc cur).tid = 0 → (k.proc i).state ≠ .unused →
      (k'.proc cur).pgdir = some d → (k.proc i).pgdir = some d → i = cur)
    (hshared : ∀ i d, i ≠ cur → (k.proc i).state ≠ .unused → (k.proc i).tid = 0 →
      (k.proc i).pgdir = some d → (k'.proc cur).pgdir = some d →
      (k'.proc cur).tid ≠ 0 ∧ (k'.proc cur).manager = some i)
    (hparent : (k'.proc cur).tid ≠ 0 → (k'.proc cur).parent = none)
    (hmanager : ∀ m, (k'.proc cur).tid ≠ 0 → (k'.proc cur).manager = some m →
      m ≠ cur ∧ (k.proc m).state ≠ .unused ∧ (k.proc m).tid = 0)
    (hnamed : ∀ i, (k.proc i).Live → (k.proc i).tid ≠ 0 → (k.proc i).manager = some cur →
      (k'.proc cur).tid = 0)
    (hknown : ∀ d ∈ k'.freed, d < k'.nextdir)
    (hfreed : ∀ i d, i ≠ cur → (k.proc i).state ≠ .unused → (k.proc i).Live ∨ (k.proc i).tid = 0 →
      (k.proc i).pgdir = some d → d ∈ k'.freed → d ∈ k.freed) : k'.DirsOwned := by
  have hkept : ∀ i, i ≠ cur → Kept (k.proc i) (k'.proc i) :=
    fun i hi => kept_of_settled (.quiet (others i hi))
  refine ⟨?_, hknown, ?_, ?_, ?_, ?_⟩
  · intro i d hi hd
    by_cases hcur : i = cur
    · subst hcur
      exact (hdir d hd).1
    · rw [(hkept i hcur).pgdir hi] at hd
      exact (h.known i d ((hkept i hcur).used hi) hd).trans_le hnext
  · intro i j d hij hi hj hti hdi hdj
    by_cases hicur : i = cur
    · subst hicur
      have hj' := (hkept j hij.symm).used hj
      rw [(hkept j hij.symm).pgdir hj] at hdj
      exact absurd (halone j d hti hj' hdi hdj) hij.symm
    · have hi' := (hkept i hicur).used hi
      rw [(hkept i hicur).tid hi] at hti
      rw [(hkept i hicur).pgdir hi] at hdi
      by_cases hjcur : j = cur
      · subst hjcur
        exact hshared i d hicur hi' hti hdi hdj
      · rw [(hkept j hjcur).pgdir hj] at hdj
        rw [(hkept j hjcur).tid hj, (hkept j hjcur).manager hj]
        exact h.shared i j d hij hi' ((hkept j hjcur).used hj) hti hdi hdj
  · intro i hi
    by_cases hcur : i = cur
    · subst hcur
      exact hparent (hi.resolve_left hused)
    · apply (hkept i hcur).parent
      by_cases hu : (k'.proc i).state = .unused
      · exact h.parents i (.inl ((others i hcur).unused.mp hu))
      · have hti := hi.resolve_left hu
        rw [(hkept i hcur).tid hu] at hti
        exact h.parents i (.inr hti)
  · intro i m hlive hti hm
    have hother : m ≠ cur → (k.proc m).state ≠ .unused → (k.proc m).tid = 0 →
        (k'.proc m).state ≠ .unused ∧ (k'.proc m).tid = 0 := by
      intro hmcur hmused hmzero
      have hmused' := mt (others m hmcur).unused.mp hmused
      exact ⟨hmused', ((hkept m hmcur).tid hmused').trans hmzero⟩
    by_cases hcur : i = cur
    · subst hcur
      obtain ⟨hne, hmused, hmzero⟩ := hmanager m hti hm
      exact hother hne hmused hmzero
    · have hbefore := (hkept i hcur).live hlive
      rw [(hkept i hcur).tid hlive.1] at hti
      rw [(hkept i hcur).manager hlive.1] at hm
      by_cases hmcur : m = cur
      · subst hmcur
        exact ⟨hused, hnamed i hbefore hti hm⟩
      · obtain ⟨hmused, hmzero⟩ := h.managers i m hbefore hti hm
        exact hother hmcur hmused hmzero
  · intro i d hi hor hd hmem
    by_cases hcur : i = cur
    · subst hcur
      exact (hdir d hd).2 hmem
    · have hused' := (hkept i hcur).used hi
      have hor' : (k.proc i).Live ∨ (k.proc i).tid = 0 := by
        rcases hor with hlive | hti
        · exact .inl ((hkept i hcur).live hlive)
        · exact .inr ((hkept i hcur).tid hi ▸ hti)
      rw [(hkept i hcur).pgdir hi] at hd
      exact h.intact i d hused' hor' hd (hfreed i d hcur hused' hor' hd hmem)

theorem DirsOwned.creates {k k' : Kernel} (h : k.DirsOwned) {cur np mgr : Slot}
    (hcreates : Creates k k' cur np mgr) (hmgr : (k.proc mgr).state ≠ .unused)
    (hzero : (k.proc mgr).tid = 0) (hnexttid : (k.proc mgr).nexttid ≠ 0) : k'.DirsOwned := by
  have hunused := hcreates.spawning.before
  have hne : mgr ≠ np := by
    rintro rfl
    exact hmgr hunused
  have hid := hcreates.identity
  rw [if_neg hne] at hid
  have htid : (k'.proc np).tid ≠ 0 := by
    have htid' : (k'.proc np).tid = (k.proc mgr).nexttid := congrArg Identity.tid hid
    rwa [htid']
  have hmanager : (k'.proc np).manager = some mgr := congrArg Identity.manager hid
  have hpgdir : (k'.proc np).pgdir = (k.proc mgr).pgdir := congrArg Identity.pgdir hid
  have hfreed := hcreates.spawning.freed
  refine h.assigned np hcreates.spawning.others (by simp [hcreates.state])
    hcreates.nextdir.ge ?_ (fun _ _ hti => absurd hti htid) ?_ ?_ ?_ ?_ ?_ ?_
  · intro d hd
    rw [hpgdir] at hd
    rw [hcreates.nextdir, hfreed]
    exact ⟨h.known mgr d hmgr hd, h.intact mgr d hmgr (.inr hzero) hd⟩
  · intro i d _ hi hti hdi hdnp
    rw [hpgdir] at hdnp
    have heq : mgr = i := by
      by_contra hdiff
      exact (h.shared i mgr d (Ne.symm hdiff) hi hmgr hti hdi hdnp).1 hzero
    exact ⟨htid, heq ▸ hmanager⟩
  · intro _
    rw [hcreates.parent]
    exact h.parents np (.inl hunused)
  · intro m _ hm
    rw [hmanager] at hm
    cases hm
    exact ⟨hne, hmgr, hzero⟩
  · intro i hlive hti hm
    exact absurd hunused (h.managers i np hlive hti hm).1
  · rw [hfreed, hcreates.nextdir]
    exact h.freed
  · intro i d _ _ _ _ hmem
    rwa [hfreed] at hmem

theorem DirsOwned.fresh {k k' : Kernel} (h : k.DirsOwned) (cur : Slot)
    (others : ∀ i, i ≠ cur → Proc.Quiet (k.proc i) (k'.proc i))
    (hused : (k'.proc cur).state ≠ .unused) (hdir : (k'.proc cur).pgdir = some k.nextdir)
    (hnext : k'.nextdir = k.nextdir + 1)
    (hparent : (k'.proc cur).tid ≠ 0 → (k'.proc cur).parent = none)
    (hmanager : ∀ m, (k'.proc cur).tid ≠ 0 → (k'.proc cur).manager = some m →
      m ≠ cur ∧ (k.proc m).state ≠ .unused ∧ (k.proc m).tid = 0)
    (hnamed : ∀ i, (k.proc i).Live → (k.proc i).tid ≠ 0 → (k.proc i).manager = some cur →
      (k'.proc cur).tid = 0)
    (hknown : ∀ d ∈ k'.freed, d < k.nextdir)
    (hfreed : ∀ i d, i ≠ cur → (k.proc i).state ≠ .unused → (k.proc i).Live ∨ (k.proc i).tid = 0 →
      (k.proc i).pgdir = some d → d ∈ k'.freed → d ∈ k.freed) : k'.DirsOwned := by
  -- whatever is in use is older than the new directory
  have hnew : ∀ i d, (k.proc i).state ≠ .unused → (k'.proc cur).pgdir = some d →
      (k.proc i).pgdir ≠ some d := by
    intro i d hi hd hdi
    rw [hdir] at hd
    cases hd
    exact lt_irrefl _ (h.known i _ hi hdi)
  refine h.assigned cur others hused (hnext ▸ Nat.le_succ _) ?_
    (fun i d _ hi hd hdi => absurd hdi (hnew i d hi hd))
    (fun i d _ hi _ hdi hd => absurd hdi (hnew i d hi hd)) hparent hmanager hnamed ?_ hfreed
  · intro d hd
    rw [hdir] at hd
    cases hd
    exact ⟨hnext ▸ Nat.lt_succ_self _, fun hmem => lt_irrefl _ (hknown _ hmem)⟩
  · intro d hd
    rw [hnext]
    exact Nat.lt_succ_of_lt (hknown d hd)

theorem DirsOwned.forks {k k' : Kernel} (h : k.DirsOwned) {np : Slot} (hforks : Forks k k' np) :
    k'.DirsOwned := by
  have htid : (k'.proc np).tid = 0 := congrArg Identity.tid hforks.identity
  have hfreed := hforks.spawning.freed
  refine h.fresh np hforks.spawning.others (by simp [hforks.state])
    (congrArg Identity.pgdir hforks.identity) hforks.nextdir (fun hne => absurd htid hne)
    (fun _ hne => absurd htid hne) (fun _ _ _ _ => htid) ?_ ?_
  · rw [hfreed]
    exact h.freed
  · intro i d _ _ _ _ hmem
    rwa [hfreed] at hmem

theorem DirsOwned.execs {k k' : Kernel} (h : k.DirsOwned) {cur : Slot} (hexecs : Execs k k' cur)
    (hcur : (k.proc cur).Live) (hkept : (k.proc cur).tid = 0 → k.Childless cur) :
    k'.DirsOwned := by
  have htid : (k'.proc cur).tid = (k.proc cur).tid := congrArg Identity.tid hexecs.identity
  have hmgr : (k'.proc cur).manager = (k.proc cur).manager :=
    congrArg Identity.manager hexecs.identity
  refine h.fresh cur hexecs.others hexecs.live.1 (congrArg Identity.pgdir hexecs.identity)
    hexecs.nextdir ?_ ?_ ?_ ?_ ?_
  · intro hne
    rw [hexecs.parent]
    exact h.parents cur (.inr (htid ▸ hne))
  · intro m hne hm
    rw [htid] at hne
    obtain ⟨hused, hzero⟩ := h.managers cur m hcur hne (hmgr ▸ hm)
    refine ⟨?_, hused, hzero⟩
    rintro rfl
    exact hne hzero
  · intro i hlive hne hm
    rw [htid]
    exact (h.managers i cur hlive hne hm).2
  · rcases hexecs.freed with ⟨_, d, hd, hfreed⟩ | ⟨_, hfreed⟩
    · intro d' hd'
      rw [hfreed] at hd'
      rcases Finset.mem_insert.mp hd' with rfl | hmem
      · exact h.known cur d' hcur.1 hd
      · exact h.freed d' hmem
    · rw [hfreed]
      exact h.freed
  · intro i d' hne hused hor hd' hmem
    rcases hexecs.freed with ⟨hzero, d, hd, hfreed⟩ | ⟨_, hfreed⟩
    · rw [hfreed] at hmem
      rcases Finset.mem_insert.mp hmem with rfl | hmem
      · obtain ⟨hti, hmi⟩ := h.shared cur i d' hne.symm hcur.1 hused hzero hd hd'
        exact absurd hmi (hkept hzero i (hor.resolve_right hti) hti)
      · exact hmem
    · rwa [hfreed] at hmem

theorem kept_of_dies {k k' : Kernel} {cur : Slot} {retval : Nat} (h : Dies k k' cur retval)
    (hcur : (k.proc cur).Live) (i : Slot) : Kept (k.proc i) (k'.proc i) := by
  by_cases hi : i = cur
  · subst hi
    exact kept_of_identity (fun hlive => absurd h.state hlive.2) hcur.1 (by simp [h.state])
      h.parent.mpr (congrArg Identity.tid h.identity) (congrArg Identity.manager h.identity)
      (congrArg Identity.pgdir h.identity)
  · exact kept_of_settled (.quiet (h.others i hi))

theorem DirsOwned.still {k k' : Kernel} (h : k.DirsOwned)
    (hproc : ∀ i, Kept (k.proc i) (k'.proc i)) (hnext : k'.nextdir = k.nextdir)
    (hfreed : k'.freed = k.freed)
    (hgone : ∀ m, (k.proc m).state ≠ .unused → (k'.proc m).state = .unused → k.Childless m) :
    k'.DirsOwned := by
  refine h.kept hproc hnext hgone ?_ ?_
  · rw [hfreed]
    exact h.freed
  · intro i d _ _ _ hmem
    rwa [hfreed] at hmem

theorem DirsOwned.dies {k k' : Kernel} {cur : Slot} {retval : Nat} (h : k.DirsOwned)
    (hdies : Dies k k' cur retval) (hcur : (k.proc cur).Live) : k'.DirsOwned := by
  refine h.still (kept_of_dies hdies hcur) hdies.nextdir hdies.freed fun m hm hu => ?_
  by_cases hi : m = cur
  · rw [hi, hdies.state] at hu
    cases hu
  · exact absurd ((hdies.others m hi).unused.mp hu) hm

theorem DirsOwned.touches {k k' : Kernel} (h : k.DirsOwned) (cur : Slot)
    (others : ∀ i, i ≠ cur → Proc.Settled (k.proc i) (k'.proc i))
    (hsame : ∀ i, (k'.proc i).state = .unused → (k.proc i).state = .unused)
    (hcur : Kept (k.proc cur) (k'.proc cur)) (hnext : k'.nextdir = k.nextdir)
    (hfreed : k'.freed = k.freed) : k'.DirsOwned := by
  refine h.still (fun i => ?_) hnext hfreed fun m hm hu => absurd (hsame m hu) hm
  by_cases hi : i = cur
  · subst hi
    exact hcur
  · exact kept_of_settled (others i hi)

theorem DirsOwned.selects {k k' : Kernel} {c : Fin ncpu} {p mgr : Slot} (h : k.DirsOwned)
    (hselects : Selects k k' c p mgr) : k'.DirsOwned := by
  have hused : (k'.proc mgr).state ≠ .unused → (k.proc mgr).state ≠ .unused :=
    mt hselects.unused.mpr
  have hid := fun hq => hselects.identity (hused hq)
  refine h.touches mgr (fun i hi => .quiet (hselects.others i hi)) ?_ ?_ hselects.nextdir
    hselects.freed
  · intro i hu
    by_cases hi : i = mgr
    · subst hi
      exact hselects.unused.mp hu
    · exact (hselects.others i hi).unused.mp hu
  · exact ⟨fun hlive => ⟨mt hselects.unused.mpr hlive.1, mt hselects.zombie.mpr hlive.2⟩, hused,
      fun hq => congrArg Identity.tid (hid hq), fun hq => congrArg Identity.manager (hid hq),
      fun hq => congrArg Identity.pgdir (hid hq), hselects.parent.mpr,
      fun hq => .inl (hselects.unused.mp hq)⟩

theorem kept_refl (p : Proc) : Kept p p := kept_of_settled (.refl p)

theorem DirsOwned.begins {k : Kernel} (h : k.DirsOwned) (cur : Slot) :
    (k.modify cur fun p => { p with context := .exit }).DirsOwned := by
  refine h.touches cur (fun i hi => ?_) (fun i hu => ?_) ?_ rfl rfl
  · rw [modify_proc_ne _ _ hi]
    exact .refl _
  · by_cases hi : i = cur
    · subst hi
      rwa [modify_proc_same] at hu
    · rwa [modify_proc_ne _ _ hi] at hu
  · rw [modify_proc_same]
    obtain ⟨hlive, hused, htid, hmanager, hpgdir, hparent, hempty⟩ := kept_refl (k.proc cur)
    exact ⟨hlive, hused, htid, hmanager, hpgdir, hparent, hempty⟩

theorem DirsOwned.grants {k k' : Kernel} {cur : Slot} {percent : Int} (h : k.DirsOwned)
    (hgrants : Grants k k' cur percent) : k'.DirsOwned := by
  refine h.touches cur (fun i hi => ?_) (fun i hu => ?_) ?_ hgrants.nextdir hgrants.freed
  · rw [hgrants.others i hi]
    exact .refl _
  · by_cases hi : i = cur
    · subst hi
      rwa [hgrants.same] at hu
    · rwa [hgrants.others i hi] at hu
  · rw [hgrants.same]
    obtain ⟨hlive, hused, htid, hmanager, hpgdir, hparent, hempty⟩ := kept_refl (k.proc cur)
    exact ⟨hlive, hused, htid, hmanager, hpgdir, hparent, hempty⟩

theorem DirsOwned.leaves {k k' : Kernel} {cur : Slot} {go : Bool} (h : k.DirsOwned)
    (hleaves : Leaves k k' cur go)
    (hkept : ∀ z, (k.proc z).state = .zombie → (k.proc z).manager = k.swept cur →
      k.Childless z) : k'.DirsOwned := by
  obtain ⟨shared, hshare, hsettles⟩ := hleaves.settled
  obtain ⟨hproc, hfreed, hnext, -⟩ := returnShare_proc hshare
  have hsettled : ∀ i, Proc.Settled (k.proc i) (k'.proc i) := by
    intro i
    rw [← hproc]
    exact hsettles.proc i
  refine h.still (fun i => kept_of_settled (hsettled i)) (hsettles.nextdir.trans hnext)
    (hsettles.freed.trans hfreed) fun m hm hu => ?_
  cases hsettled m with
  | quiet hquiet => exact absurd (hquiet.unused.mp hu) hm
  | reaped hzombie _ _ _ => exact hkept m hzombie (hleaves.reaped m hzombie hu)

theorem DirsOwned.reaps {k k' : Kernel} {p : Slot} (h : k.DirsOwned) (hreaps : Reaps k k' p)
    (hfreed : k'.freed = k.freed) (hchildless : k.Childless p) : k'.DirsOwned := by
  refine h.still (fun i => kept_of_settled (hreaps.settled i)) hreaps.nextdir hfreed
    fun m hm hu => ?_
  by_cases hi : m = p
  · rw [hi]
    exact hchildless
  · exact absurd ((hreaps.others m hi).unused.mp hu) hm

theorem DirsOwned.waits {k k' : Kernel} {p : Slot} {d : DirId} (h : k.DirsOwned)
    (hreaps : Reaps k k' p) (hparent : (k.proc p).parent ≠ none)
    (hdir : (k.proc p).pgdir = some d) (hfreed : k'.freed = insert d k.freed)
    (hchildless : k.Childless p) : k'.DirsOwned := by
  have hused : (k.proc p).state ≠ .unused := by simp [hreaps.before]
  -- an LWP has no parent, so the child that is waited for is none
  have hzero : (k.proc p).tid = 0 := by
    by_contra hne
    exact hparent (h.parents p (.inr hne))
  refine h.kept (fun i => kept_of_settled (hreaps.settled i)) hreaps.nextdir ?_ ?_ ?_
  · intro m hm hu
    by_cases hi : m = p
    · rw [hi]
      exact hchildless
    · exact absurd ((hreaps.others m hi).unused.mp hu) hm
  · intro d' hd'
    rw [hfreed] at hd'
    rcases Finset.mem_insert.mp hd' with rfl | hmem
    · exact h.known p d' hused hdir
    · exact h.freed d' hmem
  · intro i d' hi hor hd' hmem
    rw [hfreed] at hmem
    rcases Finset.mem_insert.mp hmem with rfl | hmem
    · have hip : i ≠ p := by
        rintro rfl
        exact hi hreaps.after
      have hused' := mt (hreaps.others i hip).unused.mpr hi
      obtain ⟨hti, hmi⟩ := h.shared p i d' hip.symm hused hused' hzero hdir hd'
      exact absurd hmi (hchildless i (hor.resolve_right hti) hti)
    · exact hmem

theorem dirsOwned_of_effect {k k' : Kernel} {a : Act} {out : Out} (henabled : k.Enabled a)
    (hkept : k.DirKept a) (hinv : k.DirsOwned) (h : Effect k a k' out) : k'.DirsOwned := by
  cases h with
  | quiet h =>
    exact hinv.still (fun i => kept_of_settled (.quiet (h.proc i))) h.nextdir h.freed
      fun m hm hu => absurd ((h.proc m).unused.mp hu) hm
  | selects mgr h => exact hinv.selects h
  | forks np h => exact hinv.forks h
  | creates np mgr h =>
    obtain ⟨hmgr, hzero⟩ := hinv.manager (At.live henabled) h.manager
    exact hinv.creates h hmgr hzero (hkept mgr h.manager)
  | execs h => exact hinv.execs h (At.live henabled) hkept
  | @waits _ cur _ _ p d ha h hparent hdir hfreed =>
    have hchildless : k.Childless p := by
      rcases ha with rfl | rfl
      · exact hkept p h.before hparent
      · exact hkept p h.before hparent
    exact hinv.waits h (by simp [hparent]) hdir hfreed hchildless
  | joins p ha h hfreed hmanager htid =>
    refine hinv.reaps h hfreed ?_
    rcases ha with rfl | ⟨rfl, hjoining⟩
    · exact hkept p h.before hmanager htid
    · exact hkept p h.before hmanager (htid ▸ hjoining)
  | threadExits htid h => exact hinv.dies h (At.live henabled)
  | @exits cur _ left h hdies =>
    exact (hinv.leaves h hkept).dies hdies ((h.live cur).mpr (At.live henabled))
  | returns ha h =>
    rcases ha with rfl | rfl
    · exact hinv.leaves h hkept
    · exact hinv.leaves h hkept
  | @begins cur left h => exact (hinv.leaves h hkept).begins cur
  | ends h => exact hinv.dies h (At.live henabled)
  | grants h => exact hinv.grants h

theorem pgdir_not_freed (free : Nat) {finish : Kernel}
    (h : Reaches perform DirAllowed (boot free) finish) (i : Slot)
    (hstate : (finish.proc i).state = .runnable ∨ (finish.proc i).state = .running ∨
      (finish.proc i).state = .sleeping) (d : DirId) (hdir : (finish.proc i).pgdir = some d) :
    d ∉ finish.freed := by
  have hinv : finish.DirsOwned := h.invariant DirsOwned (dirsOwned_boot free)
    fun _ _ _ _ hk hallowed hstep =>
      dirsOwned_of_effect hallowed.1 hallowed.2 hk (perform_effect hallowed.1 hstep)
  have hlive : (finish.proc i).Live := by
    rcases hstate with hs | hs | hs <;> exact ⟨by simp [hs], by simp [hs]⟩
  exact hinv.intact i d hlive.1 (.inl hlive) hdir

/-- A process and its LWP die, the LWP is joined, and the parent waits for the process. -/
theorem pgdir_not_freed_waited : ∃ k, Reaches perform DirAllowed (boot 1000) k ∧
    k.freed = {1} ∧ (k.proc 0).state = .running ∧ (k.proc 0).pgdir = some 0 ∧ 0 ∉ k.freed := by
  obtain ⟨k, hreach, htest⟩ := exists_reaches perform DirAllowed (boot 1000)
    [.visit 0 0, .fork 0, .yield 0, .visit 0 1, .threadCreate 1 5, .yield 1, .visit 0 2,
      .threadExit 2 7, .visit 0 1, .threadJoin 1 1, .exit 1, .visit 0 0, .wait 0]
    (fun k => k.freed = {1} ∧ (k.proc 0).state = .running ∧ (k.proc 0).pgdir = some 0)
    (by decide +kernel)
  obtain ⟨hfreed, hstate, hdir⟩ := of_decide_eq_true htest
  exact ⟨k, hreach, hfreed, hstate, hdir,
    pgdir_not_freed 1000 hreach 0 (.inr (.inl hstate)) 0 hdir⟩

/-- The same without the join: the LWP is still runnable when the parent waits. -/
theorem pgdir_freed_in_use : ∃ k, Reaches perform Enabled (boot 1000) k ∧
    (k.proc 2).state = .runnable ∧ ∃ d, (k.proc 2).pgdir = some d ∧ d ∈ k.freed := by
  obtain ⟨k, hreach, htest⟩ := exists_reaches perform Enabled (boot 1000)
    [.visit 0 0, .fork 0, .yield 0, .visit 0 1, .threadCreate 1 5, .exit 1, .visit 0 0, .wait 0]
    (fun k => (k.proc 2).state = .runnable ∧ (k.proc 2).pgdir = some 1 ∧ 1 ∈ k.freed)
    (by decide +kernel)
  obtain ⟨hstate, hdir, hfreed⟩ := of_decide_eq_true htest
  exact ⟨k, hreach, hstate, 1, hdir, hfreed⟩

end Xv6.Kernel

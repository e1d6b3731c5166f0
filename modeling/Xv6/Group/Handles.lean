import Xv6.Proc.Inversion

/-! Handles of LWPs. `nexttid` goes up with every `thread_create` and down with every
`thread_join`, so a handle can be given out while it is still in use. The book of the
calls made so far says which LWP a handle stands for. -/
namespace Xv6

/-- An entry of the book: the LWP that a successful `thread_create` put into `slot`, and
the value it passed to `thread_exit`. -/
structure Lwp where
  manager : Slot
  tid : Int
  slot : Slot
  value : Option Nat

def Lwp.named (manager : Slot) (tid : Int) (lwp : Lwp) : Bool :=
  lwp.manager = manager ∧ lwp.tid = tid

def Lwp.leave (slot : Slot) (value : Nat) (lwp : Lwp) : Lwp :=
  if lwp.slot = slot then { lwp with value := some value } else lwp

theorem Lwp.named_leave (manager slot : Slot) (tid : Int) (value : Nat) :
    Lwp.named manager tid ∘ Lwp.leave slot value = Lwp.named manager tid := by
  funext lwp
  simp only [Function.comp, Lwp.leave]
  split <;> rfl

theorem find_eraseP_of_ne {α : Type} (l : List α) {p q : α → Bool}
    (h : ∀ x, p x = true → q x = false) : (l.eraseP p).find? q = l.find? q := by
  induction l with
  | nil => rfl
  | cons x rest ih =>
    by_cases hx : p x = true
    · rw [List.eraseP_cons_of_pos hx, List.find?_cons, h x hx]
    · rw [List.eraseP_cons_of_neg hx, List.find?_cons, List.find?_cons, ih]

namespace Kernel

open Fallible Transition

def Unjoined (k : Kernel) (i : Slot) : Prop := (k.proc i).state ≠ .unused ∧ (k.proc i).tid ≠ 0

instance (k : Kernel) (i : Slot) : Decidable (k.Unjoined i) :=
  inferInstanceAs (Decidable (_ ∧ _))

def joinTarget (k : Kernel) : Act → Option (Slot × Int)
  | .threadJoin cur thread => some (cur, thread)
  | .resumeJoin cur => (k.joining cur).map fun thread => (cur, thread)
  | _ => none

def enroll (k : Kernel) (cur : Slot) (tid : Int) (lwps : List Lwp) : List Lwp :=
  match k.manager? cur, k.findSlot fun _ p => p.state = .unused with
  | .ok (some mgr), some np => ⟨mgr, tid, np, none⟩ :: lwps
  | _, _ => lwps

/-- The LWPs not yet joined, the latest first, after one more action. -/
def book (k : Kernel) (lwps : List Lwp) : Act → Out → List Lwp
  | .threadCreate cur _, .created c =>
      if c.ret = 0 then k.enroll cur (c.thread.getD 0) lwps else lwps
  | .threadExit cur retval, .answer .gone => lwps.map (Lwp.leave cur retval)
  | a, .joined (.delivered _) =>
      match k.joinTarget a with
      | some (cur, thread) => lwps.eraseP (Lwp.named cur thread)
      | none => lwps
  | _, _ => lwps

def ledger : List (Kernel × Act × Out) → List Lwp
  | [] => []
  | (k, a, out) :: rest => k.book (ledger rest) a out

theorem book_uneventful (k : Kernel) (lwps : List Lwp) (a : Act) {out : Out}
    (h : out.Uneventful) : k.book lwps a out = lwps := by
  unfold book
  split
  · rename_i c
    have hret : c.ret = -1 := h
    rw [if_neg (by rw [hret]; decide)]
  · exact h.elim
  · exact h.elim
  · rfl

theorem book_enroll (k k' : Kernel) {cur np mgr : Slot} (h : Creates k k' cur np mgr)
    (lwps : List Lwp) (start : Nat) (tid : Int) :
    k.book lwps (.threadCreate cur start) (.created ⟨0, some tid⟩) =
      ⟨mgr, tid, np, none⟩ :: lwps := by
  simp [book, enroll, h.manager, h.found]

structure SameLwp (p q : Proc) : Prop where
  used : q.state ≠ .unused → p.state ≠ .unused
  zombie : q.state ≠ .unused → (q.state = .zombie ↔ p.state = .zombie)
  tid : q.state ≠ .unused → q.tid = p.tid
  manager : q.state ≠ .unused → q.manager = p.manager
  retval : q.state ≠ .unused → q.retval = p.retval
  live : p.Live → q.Live

theorem sameLwp_of_settled {p q : Proc} (h : Proc.Settled p q) : SameLwp p q := by
  cases h with
  | quiet h =>
    have hid : q.state ≠ .unused → q.identity = p.identity :=
      fun hq => h.identity (mt h.unused.mpr hq)
    exact ⟨mt h.unused.mpr, fun _ => h.zombie, fun hq => congrArg Identity.tid (hid hq),
      fun hq => congrArg Identity.manager (hid hq), fun hq => congrArg Identity.retval (hid hq),
      h.live.mpr⟩
  | reaped hbefore hafter _ _ =>
    exact ⟨absurd hafter, absurd hafter, absurd hafter, absurd hafter, absurd hafter,
      fun hp => absurd hbefore hp.2⟩

def entry (p : Proc) (manager slot : Slot) : Lwp :=
  ⟨manager, p.tid, slot, if p.state = .zombie then some p.retval else none⟩

theorem SameLwp.entry_eq {p q : Proc} (h : SameLwp p q) (hq : q.state ≠ .unused)
    (manager slot : Slot) : entry q manager slot = entry p manager slot := by
  unfold entry
  rw [h.tid hq, h.retval hq]
  congr 1
  exact if_congr (h.zombie hq) rfl rfl

structure HandlesSound (lwps : List Lwp) (k : Kernel) : Prop where
  managers : ∀ i, k.Unjoined i →
    ∃ m, (k.proc i).manager = some m ∧ (k.proc m).Live ∧ (k.proc m).tid = 0
  zombies : ∀ i, (k.proc i).state = .zombie → (k.proc i).tid ≠ 0
  unique : ∀ i j, k.Unjoined i → k.Unjoined j → (k.proc i).manager = (k.proc j).manager →
    (k.proc i).tid = (k.proc j).tid → i = j
  booked : ∀ i m, k.Unjoined i → (k.proc i).manager = some m →
    lwps.find? (Lwp.named m (k.proc i).tid) = some (entry (k.proc i) m i)

theorem handlesSound_boot (free : Nat) : HandlesSound [] (boot free) := by
  have htid : ∀ i, ((boot free).proc i).tid = 0 := by
    intro i
    by_cases hi : i = 0
    · subst hi; rfl
    · simp [boot, hi, Proc.zero]
  have hstate : ∀ i, ((boot free).proc i).state ≠ .zombie := by
    intro i
    by_cases hi : i = 0
    · subst hi; simp [boot]
    · simp [boot, hi, Proc.zero]
  exact ⟨fun i hi => absurd (htid i) hi.2, fun i hi => absurd hi (hstate i),
    fun i _ hi => absurd (htid i) hi.2, fun i _ hi => absurd (htid i) hi.2⟩

theorem SameLwp.unjoined {k k' : Kernel} {i : Slot} (h : SameLwp (k.proc i) (k'.proc i))
    (hi : k'.Unjoined i) : k.Unjoined i :=
  ⟨h.used hi.1, by rw [← h.tid hi.1]; exact hi.2⟩

theorem SameLwp.manages {k k' : Kernel} {m : Slot} (h : SameLwp (k.proc m) (k'.proc m))
    (hm : (k.proc m).Live ∧ (k.proc m).tid = 0) : (k'.proc m).Live ∧ (k'.proc m).tid = 0 := by
  have hlive := h.live hm.1
  exact ⟨hlive, (h.tid hlive.1).trans hm.2⟩

theorem HandlesSound.same {lwps : List Lwp} {k k' : Kernel} (h : HandlesSound lwps k)
    (hproc : ∀ i, SameLwp (k.proc i) (k'.proc i)) : HandlesSound lwps k' where
  managers := by
    intro i hi
    obtain ⟨m, hm, hmanages⟩ := h.managers i ((hproc i).unjoined hi)
    exact ⟨m, ((hproc i).manager hi.1).trans hm, (hproc m).manages hmanages⟩
  zombies := by
    intro i hi
    have hused : (k'.proc i).state ≠ .unused := by simp [hi]
    rw [(hproc i).tid hused]
    exact h.zombies i (((hproc i).zombie hused).mp hi)
  unique := by
    intro i j hi hj hmgr htid
    rw [(hproc i).manager hi.1, (hproc j).manager hj.1] at hmgr
    rw [(hproc i).tid hi.1, (hproc j).tid hj.1] at htid
    exact h.unique i j ((hproc i).unjoined hi) ((hproc j).unjoined hj) hmgr htid
  booked := by
    intro i m hi hm
    rw [(hproc i).manager hi.1] at hm
    rw [(hproc i).tid hi.1, (hproc i).entry_eq hi.1]
    exact h.booked i m ((hproc i).unjoined hi) hm

theorem HandlesSound.eq_of_named {lwps : List Lwp} {k : Kernel} (h : HandlesSound lwps k)
    {i j m : Slot} (hi : k.Unjoined i) (hj : k.Unjoined j) (hmi : (k.proc i).manager = some m)
    (hmj : (k.proc j).manager = some m) (htid : (k.proc i).tid = (k.proc j).tid) : i = j :=
  h.unique i j hi hj (hmi.trans hmj.symm) htid

theorem HandlesSound.forks {lwps : List Lwp} {k k' : Kernel} {np : Slot}
    (h : HandlesSound lwps k) (hforks : Forks k k' np) : HandlesSound lwps k' := by
  have hunused := hforks.spawning.before
  have htid : (k'.proc np).tid = 0 := congrArg Identity.tid hforks.identity
  have hother : ∀ i, i ≠ np → SameLwp (k.proc i) (k'.proc i) :=
    fun i hi => sameLwp_of_settled (.quiet (hforks.spawning.others i hi))
  have hne : ∀ i, k'.Unjoined i → i ≠ np := by
    rintro i hi rfl
    exact hi.2 htid
  refine ⟨?_, ?_, ?_, ?_⟩
  · intro i hi
    have hsame := hother i (hne i hi)
    obtain ⟨m, hm, hmanages⟩ := h.managers i (hsame.unjoined hi)
    have hmnp : m ≠ np := by
      rintro rfl
      exact hmanages.1.1 hunused
    exact ⟨m, (hsame.manager hi.1).trans hm, (hother m hmnp).manages hmanages⟩
  · intro i hi
    have hinp : i ≠ np := by
      rintro rfl
      rw [hforks.state] at hi
      cases hi
    have hused : (k'.proc i).state ≠ .unused := by simp [hi]
    rw [(hother i hinp).tid hused]
    exact h.zombies i (((hother i hinp).zombie hused).mp hi)
  · intro i j hi hj hmgr hti
    have hsi := hother i (hne i hi)
    have hsj := hother j (hne j hj)
    rw [hsi.manager hi.1, hsj.manager hj.1] at hmgr
    rw [hsi.tid hi.1, hsj.tid hj.1] at hti
    exact h.unique i j (hsi.unjoined hi) (hsj.unjoined hj) hmgr hti
  · intro i m hi hm
    have hsi := hother i (hne i hi)
    rw [hsi.manager hi.1] at hm
    rw [hsi.tid hi.1, hsi.entry_eq hi.1]
    exact h.booked i m (hsi.unjoined hi) hm

theorem HandlesSound.creates {lwps : List Lwp} {k k' : Kernel} {cur np mgr : Slot}
    (h : HandlesSound lwps k) (hcreates : Creates k k' cur np mgr)
    (hmanages : (k.proc mgr).Live ∧ (k.proc mgr).tid = 0)
    (hfresh : ∀ i, k.Unjoined i → (k.proc i).manager = some mgr →
      (k.proc i).tid ≠ (k.proc mgr).nexttid) :
    HandlesSound (⟨mgr, (k'.proc np).tid, np, none⟩ :: lwps) k' := by
  have hunused := hcreates.spawning.before
  have hnp : ∀ m, (k.proc m).Live → m ≠ np := by
    rintro m hm rfl
    exact hm.1 hunused
  have hid := hcreates.identity
  rw [if_neg (hnp mgr hmanages.1)] at hid
  have htid : (k'.proc np).tid = (k.proc mgr).nexttid := congrArg Identity.tid hid
  have hmgr : (k'.proc np).manager = some mgr := congrArg Identity.manager hid
  have hother : ∀ i, i ≠ np → SameLwp (k.proc i) (k'.proc i) :=
    fun i hi => sameLwp_of_settled (.quiet (hcreates.spawning.others i hi))
  -- no other LWP of the manager carries the handle that is given out
  have hdistinct : ∀ i, i ≠ np → k'.Unjoined i → (k'.proc i).manager = some mgr →
      (k'.proc i).tid ≠ (k'.proc np).tid := by
    intro i hi hu hm
    have hsame := hother i hi
    rw [hsame.manager hu.1] at hm
    rw [hsame.tid hu.1, htid]
    exact hfresh i (hsame.unjoined hu) hm
  refine ⟨?_, ?_, ?_, ?_⟩
  · intro i hi
    by_cases hinp : i = np
    · subst hinp
      exact ⟨mgr, hmgr, (hother mgr (hnp mgr hmanages.1)).manages hmanages⟩
    · have hsame := hother i hinp
      obtain ⟨m, hm, hmm⟩ := h.managers i (hsame.unjoined hi)
      exact ⟨m, (hsame.manager hi.1).trans hm, (hother m (hnp m hmm.1)).manages hmm⟩
  · intro i hi
    have hinp : i ≠ np := by
      rintro rfl
      rw [hcreates.state] at hi
      cases hi
    have hused : (k'.proc i).state ≠ .unused := by simp [hi]
    rw [(hother i hinp).tid hused]
    exact h.zombies i (((hother i hinp).zombie hused).mp hi)
  · intro i j hi hj hm hti
    by_cases hinp : i = np
    · by_cases hjnp : j = np
      · exact hinp.trans hjnp.symm
      · rw [hinp, hmgr] at hm
        rw [hinp] at hti
        exact absurd hti.symm (hdistinct j hjnp hj hm.symm)
    · by_cases hjnp : j = np
      · rw [hjnp, hmgr] at hm
        rw [hjnp] at hti
        exact absurd hti (hdistinct i hinp hi hm)
      · have hsi := hother i hinp
        have hsj := hother j hjnp
        rw [hsi.manager hi.1, hsj.manager hj.1] at hm
        rw [hsi.tid hi.1, hsj.tid hj.1] at hti
        exact h.unique i j (hsi.unjoined hi) (hsj.unjoined hj) hm hti
  · intro i m hi hm
    by_cases hinp : i = np
    · subst hinp
      rw [hmgr] at hm
      cases hm
      simp [Lwp.named, entry, hcreates.state]
    · have hsi := hother i hinp
      have hskip : Lwp.named m (k'.proc i).tid ⟨mgr, (k'.proc np).tid, np, none⟩ = false := by
        simp only [Lwp.named, decide_eq_false_iff_not]
        rintro ⟨rfl, heq⟩
        exact hdistinct i hinp hi hm heq.symm
      rw [List.find?_cons, hskip]
      rw [hsi.manager hi.1] at hm
      rw [hsi.tid hi.1, hsi.entry_eq hi.1]
      exact h.booked i m (hsi.unjoined hi) hm

theorem HandlesSound.joins {lwps : List Lwp} {k k' : Kernel} {p cur : Slot}
    (h : HandlesSound lwps k) (hreaps : Reaps k k' p) (hmanager : (k.proc p).manager = some cur) :
    HandlesSound (lwps.eraseP (Lwp.named cur (k.proc p).tid)) k' := by
  have hproc : ∀ i, SameLwp (k.proc i) (k'.proc i) :=
    fun i => sameLwp_of_settled (hreaps.settled i)
  obtain ⟨hmanagers, hzombies, hunique, hbooked⟩ := h.same hproc
  refine ⟨hmanagers, hzombies, hunique, fun i m hi hm => ?_⟩
  rw [find_eraseP_of_ne]
  · exact hbooked i m hi hm
  · intro lwp hlwp
    simp only [Lwp.named, decide_eq_true_eq] at hlwp
    simp only [Lwp.named, decide_eq_false_iff_not, hlwp.1, hlwp.2]
    rintro ⟨rfl, htid⟩
    have hp : k.Unjoined p := ⟨by simp [hreaps.before], h.zombies p hreaps.before⟩
    rw [(hproc i).manager hi.1] at hm
    rw [(hproc i).tid hi.1] at htid
    have heq := h.eq_of_named hp ((hproc i).unjoined hi) hmanager hm htid
    exact hi.1 (heq ▸ hreaps.after)

theorem HandlesSound.threadExits {lwps : List Lwp} {k k' : Kernel} {cur : Slot} {retval : Nat}
    (h : HandlesSound lwps k) (hdies : Dies k k' cur retval) (hcur : (k.proc cur).Live)
    (hlwp : (k.proc cur).tid ≠ 0) : HandlesSound (lwps.map (Lwp.leave cur retval)) k' := by
  have htid : (k'.proc cur).tid = (k.proc cur).tid := congrArg Identity.tid hdies.identity
  have hmgr : (k'.proc cur).manager = (k.proc cur).manager :=
    congrArg Identity.manager hdies.identity
  have hretval : (k'.proc cur).retval = retval := congrArg Identity.retval hdies.identity
  have hother : ∀ i, i ≠ cur → SameLwp (k.proc i) (k'.proc i) :=
    fun i hi => sameLwp_of_settled (.quiet (hdies.others i hi))
  have hunjoined : ∀ i, k'.Unjoined i → k.Unjoined i := by
    intro i hi
    by_cases heq : i = cur
    · rw [heq]
      exact ⟨hcur.1, hlwp⟩
    · exact (hother i heq).unjoined hi
  have hkey : ∀ i, k'.Unjoined i → (k'.proc i).tid = (k.proc i).tid ∧
      (k'.proc i).manager = (k.proc i).manager := by
    intro i hi
    by_cases heq : i = cur
    · rw [heq]
      exact ⟨htid, hmgr⟩
    · exact ⟨(hother i heq).tid hi.1, (hother i heq).manager hi.1⟩
  refine ⟨?_, ?_, ?_, ?_⟩
  · intro i hi
    obtain ⟨m, hm, hmanages⟩ := h.managers i (hunjoined i hi)
    have hne : m ≠ cur := by
      rintro rfl
      exact hlwp hmanages.2
    exact ⟨m, (hkey i hi).2.trans hm, (hother m hne).manages hmanages⟩
  · intro i hi
    by_cases heq : i = cur
    · rw [heq, htid]
      exact hlwp
    · have hused : (k'.proc i).state ≠ .unused := by simp [hi]
      rw [(hother i heq).tid hused]
      exact h.zombies i (((hother i heq).zombie hused).mp hi)
  · intro i j hi hj hm hti
    rw [(hkey i hi).2, (hkey j hj).2] at hm
    rw [(hkey i hi).1, (hkey j hj).1] at hti
    exact h.unique i j (hunjoined i hi) (hunjoined j hj) hm hti
  · intro i m hi hm
    rw [(hkey i hi).2] at hm
    rw [(hkey i hi).1, List.find?_map, Lwp.named_leave, h.booked i m (hunjoined i hi) hm,
      Option.map_some]
    congr 1
    by_cases heq : i = cur
    · subst heq
      simp [entry, Lwp.leave, hdies.state, htid, hretval]
    · rw [(hother i heq).entry_eq hi.1]
      simp [entry, Lwp.leave, heq]

def HandleKept (k : Kernel) : Act → Prop
  | .threadCreate p _ => ∀ mgr, k.manager? p = .ok (some mgr) → (k.proc mgr).nexttid ≠ 0 ∧
      ∀ i, k.Unjoined i → (k.proc i).manager = some mgr →
        (k.proc i).tid ≠ (k.proc mgr).nexttid
  | .exit _ | .exitBegin _ | .exitEnd _ => False
  | _ => True

instance (k : Kernel) : (a : Act) → Decidable (k.HandleKept a)
  | .threadCreate .. => inferInstanceAs (Decidable (∀ _, _))
  | .exit _ | .exitBegin _ | .exitEnd _ => inferInstanceAs (Decidable False)
  | .visit .. | .yield _ | .sleepOn .. | .wakeup _ | .charge .. | .kill .. | .fork _ | .exec ..
  | .sbrk .. | .wait _ | .resumeWait _ | .threadExit .. | .threadJoin .. | .resumeJoin _
  | .setCpuShare .. => inferInstanceAs (Decidable True)

def HandleAllowed (k : Kernel) (a : Act) : Prop := k.Enabled a ∧ k.HandleKept a

instance (k : Kernel) (a : Act) : Decidable (k.HandleAllowed a) :=
  inferInstanceAs (Decidable (_ ∧ _))

theorem HandlesSound.manager {lwps : List Lwp} {k : Kernel} (h : HandlesSound lwps k)
    {cur mgr : Slot} (hcur : (k.proc cur).Live) (hmgr : k.manager? cur = .ok (some mgr)) :
    (k.proc mgr).Live ∧ (k.proc mgr).tid = 0 := by
  unfold manager? at hmgr
  split at hmgr
  · rename_i htid
    obtain ⟨m, hm, heq⟩ := map_eq_ok.mp hmgr
    cases heq
    obtain ⟨m', hm', hmanages⟩ := h.managers cur ⟨hcur.1, by omega⟩
    rw [deref_eq_ok hm] at hm'
    cases hm'
    exact hmanages
  · split at hmgr
    · rename_i htid
      cases Except.ok.inj hmgr
      exact ⟨hcur, htid⟩
    · cases hmgr

theorem joinTarget_of_joins {k : Kernel} {a : Act} {cur : Slot} {thread : Int}
    (h : a = .threadJoin cur thread ∨ a = .resumeJoin cur ∧ k.joining cur = some thread) :
    k.joinTarget a = some (cur, thread) := by
  rcases h with rfl | ⟨rfl, hjoining⟩
  · rfl
  · simp [joinTarget, hjoining]

theorem book_delivered {k : Kernel} {a : Act} {cur : Slot} {thread : Int} (lwps : List Lwp)
    (r : Nat) (h : k.joinTarget a = some (cur, thread)) :
    k.book lwps a (.joined (.delivered r)) = lwps.eraseP (Lwp.named cur thread) := by
  cases a with
  | threadJoin p t => simp [book, h]
  | resumeJoin p => simp [book, h]
  | _ => cases h

theorem book_other (k : Kernel) (lwps : List Lwp) {a : Act} (out : Out)
    (hjoin : k.joinTarget a = none) (hcreate : ∀ p start, a ≠ .threadCreate p start)
    (hexit : ∀ p retval, a ≠ .threadExit p retval) : k.book lwps a out = lwps := by
  unfold book
  split
  · exact absurd rfl (hcreate _ _)
  · exact absurd rfl (hexit _ _)
  · rw [hjoin]
  · rfl

theorem handlesSound_of_effect {lwps : List Lwp} {k k' : Kernel} {a : Act} {out : Out}
    (henabled : k.Enabled a) (hkept : k.HandleKept a) (hinv : HandlesSound lwps k)
    (h : Effect k a k' out) : HandlesSound (k.book lwps a out) k' := by
  cases h with
  | quiet h hout =>
    rw [book_uneventful k lwps a hout]
    exact hinv.same fun i => sameLwp_of_settled (.quiet (h.proc i))
  | selects mgr h =>
    rw [book_other k lwps _ rfl (by simp) (by simp)]
    refine hinv.same fun i => ?_
    by_cases hi : i = mgr
    · subst hi
      have hused := mt h.unused.mpr
      have hid := fun hq => h.identity (hused hq)
      exact ⟨hused, fun _ => h.zombie, fun hq => congrArg Identity.tid (hid hq),
        fun hq => congrArg Identity.manager (hid hq), fun hq => congrArg Identity.retval (hid hq),
        fun hlive => ⟨mt h.unused.mp hlive.1, mt h.zombie.mp hlive.2⟩⟩
    · exact sameLwp_of_settled (.quiet (h.others i hi))
  | forks np h =>
    rw [book_other k lwps _ rfl (by simp) (by simp)]
    exact hinv.forks h
  | creates np mgr h =>
    rw [book_enroll k k' h]
    obtain ⟨-, hfresh⟩ := hkept mgr h.manager
    exact hinv.creates h (hinv.manager (At.live henabled) h.manager) hfresh
  | @execs cur _ _ _ _ h =>
    rw [book_other k lwps _ rfl (by simp) (by simp)]
    refine hinv.same fun i => ?_
    by_cases hi : i = cur
    · subst hi
      have hcur := At.live henabled
      exact ⟨fun _ => hcur.1, fun _ => iff_of_false h.live.2 hcur.2,
        fun _ => congrArg Identity.tid h.identity, fun _ => congrArg Identity.manager h.identity,
        fun _ => congrArg Identity.retval h.identity, fun _ => h.live⟩
    · exact sameLwp_of_settled (.quiet (h.others i hi))
  | waits p d ha h =>
    rw [book_other k lwps _ (by rcases ha with rfl | rfl <;> rfl)
      (by rcases ha with rfl | rfl <;> simp) (by rcases ha with rfl | rfl <;> simp)]
    exact hinv.same fun i => sameLwp_of_settled (h.settled i)
  | joins p ha h _ hmanager htid hout =>
    have htarget := joinTarget_of_joins ha
    rcases hout with rfl | rfl
    · rw [book_delivered lwps _ htarget, ← htid]
      exact hinv.joins h hmanager
    · rw [book_uneventful k lwps a (show Out.Uneventful (.joined .failed) from trivial)]
      exact hinv.same fun i => sameLwp_of_settled (h.settled i)
  | threadExits htid h => exact hinv.threadExits h (At.live henabled) htid
  | exits left h hdies => exact hkept.elim
  | returns ha h =>
    rcases ha with rfl | rfl
    · exact hkept.elim
    · exact hkept.elim
  | begins left h => exact hkept.elim
  | ends h => exact hkept.elim
  | @grants cur _ _ h =>
    rw [book_other k lwps _ rfl (by simp) (by simp)]
    refine hinv.same fun i => ?_
    by_cases hi : i = cur
    · subst hi
      rw [h.same]
      exact ⟨id, fun _ => Iff.rfl, fun _ => rfl, fun _ => rfl, fun _ => rfl, id⟩
    · rw [h.others i hi]
      exact sameLwp_of_settled (.refl _)

theorem HandlesSound.delivered {lwps : List Lwp} {k k' : Kernel} {a : Act} {r : Nat}
    (hinv : HandlesSound lwps k) (h : Effect k a k' (.joined (.delivered r))) :
    ∃ cur thread lwp, k.joinTarget a = some (cur, thread) ∧
      lwps.find? (Lwp.named cur thread) = some lwp ∧ lwp.value = some r := by
  cases h with
  | quiet _ hout => exact hout.elim
  | @joins _ cur thread _ _ p ha hreaps _ hmanager htid hout =>
    refine ⟨cur, thread, entry (k.proc p) cur p, joinTarget_of_joins ha, ?_, ?_⟩
    · rw [← htid]
      exact hinv.booked p cur ⟨by simp [hreaps.before], hinv.zombies p hreaps.before⟩ hmanager
    · rcases hout with hout | hout
      · cases hout
        simp [entry, hreaps.before]
      · cases hout

theorem thread_handles_sound (free : Nat) {trace : List (Kernel × Act × Out)} {finish : Kernel}
    (run : Run perform HandleAllowed (boot free) trace finish) :
    (∀ i j, finish.Unjoined i → finish.Unjoined j →
      (finish.proc i).manager = (finish.proc j).manager →
      (finish.proc i).tid = (finish.proc j).tid → i = j) ∧
    ∀ a next r, finish.Enabled a → finish.perform a = .ok (next, .joined (.delivered r)) →
      ∃ cur thread lwp, finish.joinTarget a = some (cur, thread) ∧
        (ledger trace).find? (Lwp.named cur thread) = some lwp ∧ lwp.value = some r := by
  have hinv : HandlesSound (ledger trace) finish :=
    run.invariant (fun trace k => HandlesSound (ledger trace) k) (handlesSound_boot free)
      fun _ _ _ _ _ hk hallowed hstep =>
        handlesSound_of_effect hallowed.1 hallowed.2 hk (perform_effect hallowed.1 hstep)
  exact ⟨hinv.unique, fun a next r henabled hjoin =>
    hinv.delivered (perform_effect henabled hjoin)⟩

/-- Two LWPs, joined in the order of their creation. -/
theorem thread_handles_sound_joined : ∃ trace k, Run perform HandleAllowed (boot 100) trace k ∧
    (∃ next, k.perform (.threadJoin 0 1) = .ok (next, .joined (.delivered 7))) ∧
    ∃ lwp, (ledger trace).find? (Lwp.named 0 1) = some lwp ∧ lwp.value = some 7 := by
  obtain ⟨k, ⟨trace, run⟩, htest⟩ := exists_reaches perform HandleAllowed (boot 100)
    [.visit 0 0, .threadCreate 0 5, .threadCreate 0 5, .yield 0, .visit 0 2, .threadExit 2 8,
      .visit 0 1, .threadExit 1 7, .visit 0 0]
    (fun k => k.Enabled (.threadJoin 0 1) ∧
      succeeds perform k (.threadJoin 0 1) (fun _ out => out = .joined (.delivered 7)))
    (by decide +kernel)
  obtain ⟨henabled, hjoin⟩ := of_decide_eq_true htest
  obtain ⟨next, out, hperform, hout⟩ := exists_of_succeeds hjoin
  cases of_decide_eq_true hout
  obtain ⟨cur, thread, lwp, htarget, hfind, hvalue⟩ :=
    (thread_handles_sound 100 run).2 _ next 7 henabled hperform
  cases htarget
  exact ⟨trace, k, run, ⟨next, hperform⟩, lwp, hfind, hvalue⟩

/-- Joining the first of two LWPs hands the handle of the second out again. -/
theorem thread_handles_clash : ∃ k, Reaches perform Enabled (boot 100) k ∧ ∃ i j, i ≠ j ∧
    k.Unjoined i ∧ k.Unjoined j ∧ (k.proc i).manager = (k.proc j).manager ∧
    (k.proc i).tid = (k.proc j).tid := by
  obtain ⟨k, hreach, htest⟩ := exists_reaches perform Enabled (boot 100)
    [.visit 0 0, .threadCreate 0 5, .threadCreate 0 5, .yield 0, .visit 0 1, .threadExit 1 7,
      .visit 0 0, .threadJoin 0 1, .threadCreate 0 5]
    (fun k => k.Unjoined 1 ∧ k.Unjoined 2 ∧ (k.proc 1).manager = (k.proc 2).manager ∧
      (k.proc 1).tid = (k.proc 2).tid) (by decide +kernel)
  exact ⟨k, hreach, 1, 2, by decide, of_decide_eq_true htest⟩

end Kernel

end Xv6

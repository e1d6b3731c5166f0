import Xv6.Proc.Records

/-! What the scheduler goes by: the level of a process and its share. Apart from the clock, from a
stride selection and from an accepted `set_cpu_share`, a slot keeps these or is back at those of a
new process. -/
namespace Xv6

open Word Fallible

structure Standing where
  level : Int
  passValue : Int
  stride : Int
  portion : Int
  deriving DecidableEq

def Standing.fresh : Standing := ⟨0, -1, 0, 0⟩

def Proc.standing (p : Proc) : Standing := ⟨p.level, p.passValue, p.stride, p.portion⟩

namespace Kernel

def Standings (k k' : Kernel) : Prop :=
  ∀ i, (k'.proc i).standing = (k.proc i).standing ∨ (k'.proc i).standing = .fresh

variable {k k' k'' : Kernel} {cur mgr np p : Slot}

theorem Standings.refl (k : Kernel) : Standings k k := fun _ => .inl rfl

theorem Standings.trans (h : Standings k k') (h' : Standings k' k'') : Standings k k'' := by
  intro i
  rcases h' i with hsame | hfresh
  · rw [hsame]
    exact h i
  · exact .inr hfresh

theorem SameRecords.standing (h : SameRecords k k') (i : Slot) :
    (k'.proc i).standing = (k.proc i).standing :=
  congrArg (fun r : Record => (⟨r.level, r.passValue, r.stride, r.portion⟩ : Standing)) (h i)

theorem SameRecords.standings (h : SameRecords k k') : Standings k k' :=
  fun i => .inl (h.standing i)

theorem standings_of_proc (h : k'.proc = k.proc) : Standings k k' := by
  intro i
  rw [h]
  exact .inl rfl

theorem standings_modify (k : Kernel) (slot : Slot) (f : Proc → Proc)
    (h : (f (k.proc slot)).standing = (k.proc slot).standing ∨
      (f (k.proc slot)).standing = .fresh) :
    Standings k (k.modify slot f) := by
  intro i
  rw [modify_proc]
  split
  · rename_i hi
    rw [hi]
    exact h
  · exact .inl rfl

theorem standings_allocproc {slot : Option Slot} (h : k.allocproc = (k', slot)) :
    Standings k k' := by
  unfold allocproc at h
  split at h
  · cases h
    exact .refl k
  · rename_i np hfind
    have halloc : Standings k
        { k.modify np (allocFields k.nextpid) with nextpid := i32 (k.nextpid + 1) } :=
      (standings_modify k np _ (.inr rfl)).trans (standings_of_proc rfl)
    dsimp only at h
    split at h
    · cases h
      exact halloc.trans (standings_modify _ np _ (.inl rfl))
    · cases h
      exact halloc.trans
        ((standings_of_proc rfl).trans (standings_modify (setFree ..) np _ (.inl rfl)))

theorem standings_reap {pushed : Bool} (h : k.reap mgr p = .ok (k', pushed)) : Standings k k' := by
  obtain ⟨d, -, h⟩ := bind_eq_ok.mp h
  obtain ⟨⟨s, result⟩, -, h⟩ := bind_eq_ok.mp h
  have hcleared : Standings k (((k.setFree (k.free + 1)).modify p reapFields).setSpace d s) :=
    (standings_modify (k.setFree (k.free + 1)) p _ (.inr rfl)).trans (standings_of_proc rfl)
  dsimp only at h
  split at h
  · cases Except.ok.inj h
    exact hcleared
  split at h
  · cases h
  · cases Except.ok.inj h
    exact hcleared.trans (standings_modify _ mgr _ (.inl rfl))

theorem standings_sweep {lwp : Option Slot} {go : Bool} {rest : List Slot}
    (h : sweep mgr lwp rest k = .ok (k', go)) : Standings k k' := by
  induction rest generalizing k with
  | nil =>
    cases Except.ok.inj h
    exact .refl _
  | cons p rest ih =>
    obtain ⟨⟨k1, go1⟩, hone, h⟩ := bind_eq_ok.mp h
    have hfirst : Standings k k1 := by
      unfold sweepOne at hone
      split at hone
      · cases Except.ok.inj hone
        exact .refl _
      split at hone
      · cases Except.ok.inj hone
        exact standings_modify k p _ (.inl rfl)
      · exact standings_reap hone
    cases go1 with
    | false =>
      cases Except.ok.inj h
      exact hfirst
    | true => exact hfirst.trans (ih h)

theorem standings_linkLwp (k : Kernel) (mgr np : Slot) : Standings k (k.linkLwp mgr np) := by
  unfold linkLwp
  dsimp only
  refine Standings.trans (standings_modify k np _ ?_)
    (Standings.trans (standings_modify _ mgr _ ?_) (standings_modify _ np _ ?_)) <;> exact .inl rfl

theorem standings_takeStack (k : Kernel) (mgr : Slot) : Standings k (k.takeStack mgr).1 := by
  unfold takeStack
  split
  · dsimp only
    refine standings_modify k mgr _ (.inl ?_)
    simp only [Proc.standing]
  · dsimp only
    refine standings_modify k mgr _ ?_
    exact .inl rfl

theorem Rewrites.standings (h : Rewrites k k') : Standings k k' := by
  cases h with
  | same h => exact h.standings
  | allocates k0 slot halloc hafter => exact (standings_allocproc halloc).trans hafter.standings
  | creates k0 k1 np mgr halloc hlinked hafter =>
    exact (((standings_allocproc halloc).trans (standings_linkLwp k0 mgr np)).trans
      hlinked.standings).trans ((standings_takeStack k1 mgr).trans hafter.standings)
  | reaps k0 k1 mgr p pushed hbefore _ hreap hafter =>
    exact (hbefore.standings.trans (standings_reap hreap)).trans hafter.standings
  | sweeps k0 k1 mgr lwp go hbefore hsweep hafter =>
    exact (hbefore.standings.trans (standings_sweep hsweep)).trans hafter.standings

structure Advances (k k' : Kernel) (c : Fin ncpu) (p mgr : Slot) : Prop where
  chosen : k.Chosen c p mgr
  heap : ∃ popped, k.heap.pop = .ok popped ∧
    popped.2.push (i32 ((k.proc mgr).passValue + (k.proc mgr).stride)) = .ok k'.heap
  same : (k'.proc mgr).standing = { (k.proc mgr).standing with
    passValue := i32 ((k.proc mgr).passValue + (k.proc mgr).stride) }
  others : ∀ i, i ≠ mgr → (k'.proc i).standing = (k.proc i).standing

theorem advancePass_standing (h : k.advancePass mgr = .ok k') :
    (k'.proc mgr).standing = { (k.proc mgr).standing with
      passValue := i32 ((k.proc mgr).passValue + (k.proc mgr).stride) } ∧
    ∀ i, i ≠ mgr → (k'.proc i).standing = (k.proc i).standing := by
  obtain ⟨popped, -, h⟩ := bind_eq_ok.mp h
  obtain ⟨heap, -, h⟩ := bind_eq_ok.mp h
  cases Except.ok.inj h
  constructor
  · rw [modify_proc_same]
    rfl
  · intro i hi
    rw [modify_proc_ne k _ hi]

theorem visit_standing {c : Fin ncpu} {how : Visit} (h : k.visit c p = .ok (k', how)) :
    ((∀ i, (k'.proc i).standing = (k.proc i).standing) ∧ how ≠ .stride) ∨
      how = .stride ∧ ∃ mgr, Advances k k' c p mgr := by
  have heffect := visit_effect h
  unfold visit at h
  split at h
  · cases Except.ok.inj h
    exact .inl ⟨fun i => rfl, by decide⟩
  split at h
  · exact .inl ⟨fun i => (records_execution h).standing i, by simp [← execution_how h]⟩
  dsimp only at h
  split at h
  · obtain ⟨mgr, hmgr, h⟩ := bind_eq_ok.mp h
    split at h
    · obtain ⟨k1, hadvance, h⟩ := bind_eq_ok.mp h
      obtain ⟨-, hother⟩ | ⟨hhow, mgr', hselects⟩ := heffect
      · exact absurd (execution_how h).symm hother
      · obtain rfl : mgr = mgr' := Except.ok.inj (hmgr.symm.trans hselects.chosen.manager)
        obtain ⟨hsame, hothers⟩ := advancePass_standing hadvance
        refine .inr ⟨hhow, mgr, hselects.chosen, hselects.heap, ?_, fun i hi => ?_⟩
        · rw [(records_execution h).standing, hsame]
          rfl
        · rw [(records_execution h).standing, hothers i hi]
          rfl
    · cases Except.ok.inj h
      exact .inl ⟨fun i => rfl, by decide⟩
  split at h
  · cases Except.ok.inj h
    exact .inl ⟨fun i => rfl, by decide⟩
  split at h
  · cases Except.ok.inj h
    exact .inl ⟨fun i => rfl, by decide⟩
  · exact .inl ⟨fun i => (records_execution h).standing i, by simp [← execution_how h]⟩

def movesShares : Act → Out → Bool
  | .visit .., .visited .stride => true
  | .setCpuShare .., .ret 0 => true
  | _, _ => false

inductive Restands (k : Kernel) : Act → Kernel → Out → Prop where
  | keeps {a k' out} (h : Standings k k') (hout : movesShares a out = false) : Restands k a k' out
  | advances {c p k'} (mgr : Slot) (h : Advances k k' c p mgr) :
      Restands k (.visit c p) k' (.visited .stride)
  | grants {p percent k'} (h : Grants k k' p percent) :
      Restands k (.setCpuShare p percent) k' (.ret 0)
  | charges (p : Slot) (level ticks runtime : Int) :
      Restands k (.charge p level ticks runtime) (k.charge p level ticks runtime) .done

theorem perform_restands {a : Act} {out : Out} (h : k.perform a = .ok (k', out)) :
    Restands k a k' out := by
  have hkeeps : ranks a = false → movesShares a out = false → Restands k a k' out :=
    fun ha hout => .keeps (perform_rewrites ha h).standings hout
  cases a with
  | visit c p =>
    obtain ⟨⟨k1, how⟩, hop, heq⟩ := map_eq_ok.mp h
    cases heq
    obtain ⟨hsame, hhow⟩ | ⟨hhow, mgr, hadvances⟩ := visit_standing hop
    · refine .keeps (fun i => .inl (hsame i)) ?_
      cases how with
      | stride => exact absurd rfl hhow
      | _ => rfl
    · cases hhow
      exact .advances mgr hadvances
  | charge p level ticks runtime =>
    cases Except.ok.inj h
    exact .charges p level ticks runtime
  | setCpuShare p percent =>
    obtain ⟨⟨k1, r⟩, hop, heq⟩ := map_eq_ok.mp h
    cases heq
    obtain ⟨rfl, rfl⟩ | ⟨hgrants, rfl⟩ := setCpuShare_effect hop
    · exact .keeps (.refl _) rfl
    · exact .grants hgrants
  | _ => exact hkeeps rfl rfl

end Kernel

end Xv6

import Xv6.Proc.Standing
import Xv6.Share.Fair
import Xv6.Share.Heap

/-! The range of the pass values. A selection adds a stride to one of them and nothing takes them
down again, so they last as long as the strides of all selections stay below the largest `int`. -/
namespace Xv6

open Word Fallible Transition

namespace Kernel

variable {k k' : Kernel} {a : Act} {out : Out} {b : Int} {trace : List (Kernel × Act × Out)}

def EachShare (k : Kernel) (P : Int → Int → Int → Prop) : Prop :=
  ∀ i, P (k.proc i).passValue (k.proc i).stride (k.proc i).portion

theorem Restands.eachShare {P P' : Int → Int → Int → Prop} (h : Restands k a k' out)
    (hk : k.EachShare P) (hkeeps : ∀ {pass stride portion}, P pass stride portion →
      P' pass stride portion) (hfresh : P' (-1) 0 0)
    (hadvances : ∀ {c p mgr}, a = .visit c p → out = .visited .stride → Advances k k' c p mgr →
      P' (i32 ((k.proc mgr).passValue + (k.proc mgr).stride)) (k.proc mgr).stride
        (k.proc mgr).portion)
    (hgrants : ∀ {p percent}, Grants k k' p percent →
      P' (k'.heap.cells 1) (1000 / percent) percent) : k'.EachShare P' := by
  have hsame : ∀ i, (k'.proc i).passValue = (k.proc i).passValue →
      (k'.proc i).stride = (k.proc i).stride → (k'.proc i).portion = (k.proc i).portion →
      P' (k'.proc i).passValue (k'.proc i).stride (k'.proc i).portion := by
    intro i hpass hstride hportion
    rw [hpass, hstride, hportion]
    exact hkeeps (hk i)
  have hstanding : ∀ i, (k'.proc i).standing = (k.proc i).standing →
      P' (k'.proc i).passValue (k'.proc i).stride (k'.proc i).portion := fun i heq =>
    hsame i (congrArg Standing.passValue heq) (congrArg Standing.stride heq)
      (congrArg Standing.portion heq)
  intro i
  cases h with
  | keeps h _ =>
    rcases h i with heq | heq
    · exact hstanding i heq
    · have hpass : (k'.proc i).passValue = -1 := congrArg Standing.passValue heq
      have hstride : (k'.proc i).stride = 0 := congrArg Standing.stride heq
      have hportion : (k'.proc i).portion = 0 := congrArg Standing.portion heq
      rw [hpass, hstride, hportion]
      exact hfresh
  | advances mgr h =>
    by_cases hi : i = mgr
    · subst hi
      have hpass := congrArg Standing.passValue h.same
      have hstride := congrArg Standing.stride h.same
      have hportion := congrArg Standing.portion h.same
      dsimp only [Proc.standing] at hpass hstride hportion
      rw [hpass, hstride, hportion]
      exact hadvances rfl rfl h
    · exact hstanding i (h.others i hi)
  | @grants p percent _ h =>
    by_cases hi : i = p
    · subst hi
      rw [h.same]
      exact hgrants h
    · rw [h.others i hi]
      exact hkeeps (hk i)
  | charges p level ticks runtime =>
    refine hsame i ?_ ?_ ?_ <;>
    · unfold charge
      rw [modify_proc]
      split
      · rename_i hi
        rw [hi]
      · rfl

def Within (b pass portion : Int) : Prop :=
  pass = -1 ∧ portion = 0 ∨ 0 ≤ pass ∧ pass ≤ b

structure InRange (k : Kernel) (b : Int) : Prop where
  cells : ∀ i, 0 ≤ k.heap.cells i ∧ k.heap.cells i ≤ b
  proc : k.EachShare fun pass _ portion => Within b pass portion

theorem returnShare_cells {P : Int → Prop} {cur : Slot} (h : k.returnShare cur = .ok k')
    (hcells : ∀ i, P (k.heap.cells i)) : ∀ i, P (k'.heap.cells i) := by
  obtain ⟨-, -, popped, hpop, hheap, -⟩ | ⟨-, rfl⟩ := returnShare_cases h
  · rw [hheap]
    exact StrideHeap.all_pop hpop hcells
  · exact hcells

theorem Leaves.cells {P : Int → Prop} {cur : Slot} {go : Bool} (h : Leaves k k' cur go)
    (hcells : ∀ i, P (k.heap.cells i)) : ∀ i, P (k'.heap.cells i) := by
  obtain ⟨shared, hshare, hsettles⟩ := h.settled
  rw [hsettles.shares.heap]
  exact returnShare_cells hshare hcells

theorem Effect.cells {P : Int → Prop} (h : Effect k a k' out) (hcells : ∀ i, P (k.heap.cells i))
    (hzero : P 0) (hselect : ∀ {c p mgr}, a = .visit c p → out = .visited .stride →
      k.Chosen c p mgr → P (i32 ((k.proc mgr).passValue + (k.proc mgr).stride))) :
    ∀ i, P (k'.heap.cells i) := by
  have hsame : SameShares k k' → ∀ i, P (k'.heap.cells i) := fun hshares => by
    rw [hshares.heap]
    exact hcells
  cases h with
  | quiet hquiet _ => exact hsame hquiet.shares
  | selects mgr hselects =>
    obtain ⟨popped, hpop, hpush⟩ := hselects.heap
    exact StrideHeap.all_push hpush (StrideHeap.all_pop hpop hcells)
      (hselect rfl rfl hselects.chosen)
  | forks np hforks => exact hsame hforks.spawning.shares
  | creates np mgr hcreates => exact hsame hcreates.spawning.shares
  | execs hexecs => exact hsame hexecs.shares
  | waits p d _ hreaps => exact hsame hreaps.shares
  | joins p _ hreaps => exact hsame hreaps.shares
  | threadExits _ hdies => exact hsame hdies.shares
  | exits left hleaves hdies =>
    rw [hdies.shares.heap]
    exact hleaves.cells hcells
  | returns _ hleaves => exact hleaves.cells hcells
  | begins left hleaves => exact hleaves.cells hcells
  | ends hdies => exact hsame hdies.shares
  | grants hgrants =>
    refine StrideHeap.all_push hgrants.heap hcells ?_
    split
    · exact hzero
    · exact hcells 1

def distance : List (Kernel × Act × Out) → Int
  | [] => 0
  | step :: trace =>
      match moveOf step with
      | .select mgr => distance trace + (step.1.proc mgr).stride
      | _ => distance trace

theorem Chosen.moveOf {c : Fin ncpu} {p mgr : Slot} (h : k.Chosen c p mgr) :
    moveOf (k, .visit c p, .visited .stride) = .select mgr := by
  dsimp only [Kernel.moveOf]
  rw [h.manager]

theorem Chosen.distance {c : Fin ncpu} {p mgr : Slot} (h : k.Chosen c p mgr) :
    Kernel.distance ((k, .visit c p, .visited .stride) :: trace) =
      Kernel.distance trace + (k.proc mgr).stride := by
  rw [Kernel.distance, h.moveOf]

def Strides (k : Kernel) : Prop := k.EachShare fun _ stride _ => 0 ≤ stride ∧ stride ≤ 1000

theorem distance_le (hstrides : k.Strides) : distance trace ≤ distance ((k, a, out) :: trace) := by
  rw [distance]
  split
  · rename_i mgr _
    have := (hstrides mgr).1
    dsimp only
    omega
  · exact le_rfl

theorem strides_step (hk : k.Strides) (h : k.perform a = .ok (k', out)) : k'.Strides := by
  refine (perform_restands h).eachShare hk id ⟨le_rfl, by decide⟩
    (fun {c p mgr} _ _ _ => hk mgr) ?_
  intro p percent hgrants
  have hpositive := hgrants.positive
  have hdividend : (0 : Int) ≤ 1000 := by decide
  exact ⟨Int.ediv_nonneg hdividend hpositive.le, Int.ediv_le_self percent hdividend⟩

theorem InRange.advance {c : Fin ncpu} {p mgr : Slot} (hk : k.InRange (distance trace))
    (hstrides : k.Strides) (hchosen : k.Chosen c p mgr)
    (hfits : distance ((k, .visit c p, .visited .stride) :: trace) < 2147483648) :
    i32 ((k.proc mgr).passValue + (k.proc mgr).stride) =
        (k.proc mgr).passValue + (k.proc mgr).stride ∧
      0 ≤ (k.proc mgr).passValue ∧
      (k.proc mgr).passValue + (k.proc mgr).stride ≤
        distance ((k, .visit c p, .visited .stride) :: trace) := by
  have hroot := hk.cells 1
  have hstride := (hstrides mgr).1
  rw [hchosen.distance] at hfits ⊢
  rw [← hchosen.minimum] at hroot
  refine ⟨i32_eq_self ⟨by omega, by omega⟩, hroot.1, by omega⟩

theorem inRange_step (hk : k.InRange (distance trace)) (hstrides : k.Strides)
    (henabled : k.Enabled a) (h : k.perform a = .ok (k', out))
    (hfits : distance ((k, a, out) :: trace) < 2147483648) :
    k'.InRange (distance ((k, a, out) :: trace)) := by
  have hmore : distance trace ≤ distance ((k, a, out) :: trace) := distance_le hstrides
  have hnonneg : 0 ≤ distance trace := (hk.cells 1).1.trans (hk.cells 1).2
  have hchosen : ∀ {c p mgr}, a = .visit c p → out = .visited .stride → k.Chosen c p mgr →
      0 ≤ i32 ((k.proc mgr).passValue + (k.proc mgr).stride) ∧
        i32 ((k.proc mgr).passValue + (k.proc mgr).stride) ≤ distance ((k, a, out) :: trace) := by
    rintro c p mgr rfl rfl hchosen
    obtain ⟨hexact, hpass, hbound⟩ := hk.advance hstrides hchosen hfits
    have hstride := (hstrides mgr).1
    rw [hexact]
    exact ⟨by omega, hbound⟩
  have hcells : ∀ i, 0 ≤ k'.heap.cells i ∧
      k'.heap.cells i ≤ distance ((k, a, out) :: trace) := by
    refine (perform_effect henabled h).cells
      (P := fun x => 0 ≤ x ∧ x ≤ distance ((k, a, out) :: trace)) ?_ ⟨le_rfl, by omega⟩ hchosen
    intro i
    exact ⟨(hk.cells i).1, (hk.cells i).2.trans hmore⟩
  refine ⟨hcells, (perform_restands h).eachShare hk.proc ?_ (.inl ⟨rfl, rfl⟩) ?_ ?_⟩
  · intro pass stride portion hwithin
    exact hwithin.imp_right fun hpass => ⟨hpass.1, hpass.2.trans hmore⟩
  · intro c p mgr ha hout hadvances
    exact .inr (hchosen ha hout hadvances.chosen)
  · intro p percent hgrants
    exact .inr (hcells 1)

end Kernel

end Xv6

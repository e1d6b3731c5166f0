import Xv6.Proc.Inversion
import Mathlib.Algebra.Order.BigOperators.Group.Finset
import Mathlib.Tactic.Abel

/-! Sums over the holders of a CPU share. What a holder counts for is a function of
its pass value and its portion; a step changes such a sum only at the slots whose
share it touches. -/
namespace Xv6

open Kernel

namespace Proc

/-- A live process under stride scheduling that `exit` has not yet taken off the heap. -/
def Holds (p : Proc) : Prop := p.Live ∧ p.passValue ≠ -1 ∧ p.context ≠ .exit

instance (p : Proc) : Decidable p.Holds := inferInstanceAs (Decidable (_ ∧ _ ∧ _))

variable {M : Type} [AddCommMonoid M] (w : Int → Int → M)

def stake (p : Proc) : M := if p.Holds then w p.passValue p.portion else 0

theorem holds_congr {p q : Proc} (hlive : q.Live ↔ p.Live) (hpass : q.passValue = p.passValue)
    (hexiting : q.context = .exit ↔ p.context = .exit) : q.Holds ↔ p.Holds := by
  unfold Holds
  rw [hlive, hpass]
  exact and_congr_right fun _ => and_congr_right fun _ => not_congr hexiting

theorem stake_of_not_holds {p : Proc} (h : ¬ p.Holds) : p.stake w = 0 := if_neg h

theorem stake_of_holds {p : Proc} (h : p.Holds) : p.stake w = w p.passValue p.portion := if_pos h

theorem stake_congr {p q : Proc} (hlive : q.Live ↔ p.Live) (hpass : q.passValue = p.passValue)
    (hportion : q.portion = p.portion) (hexiting : q.context = .exit ↔ p.context = .exit) :
    q.stake w = p.stake w := by
  unfold stake
  rw [hpass, hportion]
  exact if_congr (holds_congr hlive hpass hexiting) rfl rfl

theorem Settled.stake {p q : Proc} (h : Settled p q) : q.stake w = p.stake w := by
  by_cases hq : q.Live
  · have hid := h.identity hq
    have hexiting := congrArg Identity.exiting hid
    simp only [Proc.identity, decide_eq_decide] at hexiting
    exact stake_congr w h.live (congrArg Identity.passValue hid) (congrArg Identity.portion hid)
      hexiting
  · have hp : ¬ p.Live := mt h.live.mpr hq
    rw [stake_of_not_holds w fun hh => hq hh.1, stake_of_not_holds w fun hh => hp hh.1]

theorem not_holds_of_unused {p : Proc} (h : p.state = .unused) : ¬ p.Holds :=
  fun hp => hp.1.1 h

theorem not_holds_of_zombie {p : Proc} (h : p.state = .zombie) : ¬ p.Holds :=
  fun hp => hp.1.2 h

theorem not_holds_of_pass {p : Proc} (h : p.passValue = -1) : ¬ p.Holds :=
  fun hp => hp.2.1 h

end Proc

namespace Kernel

variable {M : Type} [AddCommMonoid M] (w : Int → Int → M)

def total (k : Kernel) : M := ∑ i, (k.proc i).stake w

theorem total_settled {k k' : Kernel} (h : ∀ i, Proc.Settled (k.proc i) (k'.proc i)) :
    k'.total w = k.total w :=
  Finset.sum_congr rfl fun i _ => (h i).stake w

theorem total_change {k k' : Kernel} (cur : Slot)
    (h : ∀ i, i ≠ cur → Proc.Settled (k.proc i) (k'.proc i)) :
    k'.total w + (k.proc cur).stake w = k.total w + (k'.proc cur).stake w := by
  have hrest : ∑ i ∈ Finset.univ.erase cur, (k'.proc i).stake w =
      ∑ i ∈ Finset.univ.erase cur, (k.proc i).stake w :=
    Finset.sum_congr rfl fun i hi => (h i (Finset.ne_of_mem_erase hi)).stake w
  unfold total
  rw [← Finset.add_sum_erase _ _ (Finset.mem_univ cur), hrest,
    ← Finset.add_sum_erase _ (fun i => (k.proc i).stake w) (Finset.mem_univ cur)]
  abel

theorem total_boot (free : Nat) : (boot free).total w = 0 := by
  apply Finset.sum_eq_zero
  intro i _
  apply Proc.stake_of_not_holds
  by_cases hi : i = 0
  · subst hi
    exact Proc.not_holds_of_pass rfl
  · apply Proc.not_holds_of_unused
    simp [boot, hi, Proc.zero]

theorem stake_le_total {k : Kernel} {w : Int → Int → Int} (h : ∀ i, 0 ≤ (k.proc i).stake w)
    (cur : Slot) : (k.proc cur).stake w ≤ k.total w :=
  Finset.single_le_sum (fun i _ => h i) (Finset.mem_univ cur)

end Kernel

end Xv6

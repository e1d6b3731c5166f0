import Mathlib.Data.Set.Card

/-! Directories that name nodes, and a count of links for each node. Every directory but the
root is named once, by the directory that it has for its parent; other nodes may have any
number of names. A link is a name or a child. -/
namespace LinkGraph

section Tally

variable {α β : Type}

noncomputable def tally (f : α → Option β) (b : β) : Nat := {a | f a = some b}.ncard

def Sparse (f : α → Option β) : Prop := {a | f a ≠ none}.Finite

variable {f : α → Option β} {a : α} {b : β}

theorem Sparse.at (h : Sparse f) (b : β) : {a | f a = some b}.Finite :=
  h.subset fun _ ha hnone => Option.some_ne_none b (ha.symm.trans hnone)

theorem tally_pos (h : Sparse f) (ha : f a = some b) : 0 < tally f b :=
  (Set.ncard_pos (h.at b)).mpr ⟨a, ha⟩

theorem tally_eq_zero (h : ∀ a, f a ≠ some b) : tally f b = 0 := by
  have hnone : {a | f a = some b} = ∅ := Set.eq_empty_of_forall_notMem h
  rw [tally, hnone, Set.ncard_empty]

theorem tally_eq_one (ha : f a = some b) (hone : ∀ a', f a' = some b → a' = a) :
    tally f b = 1 := by
  have hsingle : {a | f a = some b} = {a} := by
    ext a'
    exact ⟨hone a', fun h => h ▸ ha⟩
  rw [tally, hsingle, Set.ncard_singleton]

variable [DecidableEq α]

theorem Sparse.update (h : Sparse f) (a : α) (v : Option β) : Sparse (Function.update f a v) := by
  refine (h.insert a).subset fun x hx => ?_
  by_cases hxa : x = a
  · exact .inl hxa
  · have hx : Function.update f a v x ≠ none := hx
    rw [Function.update_of_ne hxa] at hx
    exact .inr hx

theorem tally_update [DecidableEq β] (h : Sparse f) (a : α) (v : Option β) (b : β) :
    tally (Function.update f a v) b + (if f a = some b then 1 else 0) =
      tally f b + if v = some b then 1 else 0 := by
  -- both sides count the places other than `a`, and then `a`
  have hsplit : ∀ g : α → Option β, Sparse g → (∀ x, x ≠ a → g x = f x) →
      tally g b = ({x | f x = some b} \ {a}).ncard + if g a = some b then 1 else 0 := by
    intro g hg hsame
    have hrest : {x | g x = some b} \ {a} = {x | f x = some b} \ {a} := by
      ext x
      refine ⟨fun hx => ⟨?_, hx.2⟩, fun hx => ⟨?_, hx.2⟩⟩
      · exact (hsame x hx.2).symm.trans hx.1
      · exact (hsame x hx.2).trans hx.1
    rw [← hrest]
    have hmem : a ∈ {x | g x = some b} ↔ g a = some b := Iff.rfl
    split
    · rename_i hhere
      exact (Set.ncard_sdiff_singleton_add_one (hmem.mpr hhere) (hg.at b)).symm
    · rename_i hhere
      rw [Set.sdiff_singleton_eq_self (hmem.not.mpr hhere)]
      rfl
  rw [hsplit _ (h.update a v) fun x hx => Function.update_of_ne hx .., hsplit f h fun _ _ => rfl,
    Function.update_self]
  omega

end Tally

end LinkGraph

/-- The entries of each directory, and the parent of each node that is a directory. -/
structure LinkGraph (N : Type) where
  links : N → Int
  entry : N × Nat → Option N
  parent : N → Option N

namespace LinkGraph

variable {N : Type} {g : LinkGraph N} {root d n : N} {due : N → Int} {x : N × Nat}

structure Counted (g : LinkGraph N) (due : N → Int) : Prop where
  entries : Sparse g.entry
  parents : Sparse g.parent
  counts : ∀ n, g.links n = tally g.entry n + tally g.parent n + due n

structure Shaped (g : LinkGraph N) (root : N) : Prop where
  top : g.parent root = some root
  rootless : ∀ x, g.entry x ≠ some root
  held : ∀ x n, g.entry x = some n → g.parent x.1 ≠ none
  above : ∀ x n, g.entry x = some n → g.parent n ≠ none → g.parent n = some x.1
  named : ∀ d n, g.parent n = some d → n ≠ root → ∃ e, g.entry (d, e) = some n
  once : ∀ x y n, g.entry x = some n → g.entry y = some n → g.parent n ≠ none → x = y

theorem Counted.links_empty (h : g.Counted due) (hshape : g.Shaped root)
    (hentry : g.entry x = some n) (hdir : g.parent n ≠ none)
    (hempty : ∀ e, g.entry (n, e) = none) : g.links n = 1 + due n := by
  have hname : tally g.entry n = 1 :=
    tally_eq_one hentry fun y hy => hshape.once y x n hy hentry hdir
  have hchild : tally g.parent n = 0 := by
    refine tally_eq_zero fun m hm => ?_
    by_cases hroot : m = root
    · rw [hroot, hshape.top] at hm
      exact hshape.rootless x (hentry.trans hm.symm)
    · obtain ⟨k, hk⟩ := hshape.named n m hm hroot
      rw [hempty] at hk
      cases hk
  rw [h.counts, hname, hchild]
  omega

theorem Counted.links_parent (h : g.Counted due) (hshape : g.Shaped root)
    (hparent : g.parent n = some d) (hn : n ≠ root) (hdir : g.parent d ≠ none) :
    2 + due d ≤ g.links d := by
  rw [h.counts]
  by_cases hroot : d = root
  · have hself : g.parent root = some d := hroot ▸ hshape.top
    have htwo : 1 < tally g.parent d :=
      (Set.one_lt_ncard (h.parents.at d)).mpr ⟨n, hparent, root, hself, hn⟩
    omega
  · obtain ⟨p, hp⟩ := Option.ne_none_iff_exists'.mp hdir
    obtain ⟨k, hk⟩ := hshape.named p d hp hroot
    have hname := tally_pos h.entries hk
    have hchild := tally_pos h.parents hparent
    omega

theorem Counted.links_le (h : g.Counted due) (hshape : g.Shaped root) (hdir : g.parent d ≠ none) :
    g.links d ≤ 1 + tally g.parent d + due d := by
  have hname : tally g.entry d ≤ 1 :=
    (Set.ncard_le_one (h.entries.at d)).mpr fun x hx y hy => hshape.once x y d hx hy hdir
  rw [h.counts]
  omega

theorem Counted.links_named (h : g.Counted due) (hentry : g.entry x = some n) :
    1 + due n ≤ g.links n := by
  have hname := tally_pos h.entries hentry
  rw [h.counts]
  omega

theorem Counted.congr {due' : N → Int} (h : g.Counted due) (hdue : ∀ n, due' n = due n) :
    g.Counted due' := (funext hdue : due' = due) ▸ h

variable [DecidableEq N]

def relink (g : LinkGraph N) (n : N) (k : Int) : LinkGraph N :=
  { g with links := Function.update g.links n (g.links n + k) }

def setEntry (g : LinkGraph N) (x : N × Nat) (v : Option N) : LinkGraph N :=
  { g with entry := Function.update g.entry x v }

def setParent (g : LinkGraph N) (n : N) (v : Option N) : LinkGraph N :=
  { g with parent := Function.update g.parent n v }

theorem relink_apply (g : LinkGraph N) (n m : N) (k : Int) :
    (g.relink n k).links m = if m = n then g.links n + k else g.links m :=
  Function.update_apply ..

theorem setEntry_apply (g : LinkGraph N) (x y : N × Nat) (v : Option N) :
    (g.setEntry x v).entry y = if y = x then v else g.entry y := Function.update_apply ..

theorem setParent_apply (g : LinkGraph N) (n m : N) (v : Option N) :
    (g.setParent n v).parent m = if m = n then v else g.parent m := Function.update_apply ..

def lone (root : N) : LinkGraph N where
  links n := if n = root then 1 else 0
  entry _ := none
  parent n := if n = root then some root else none

theorem lone_parent {m : N} (h : (lone root).parent m = some n) : m = root ∧ n = root := by
  simp only [lone] at h
  split at h
  · rename_i heq
    exact ⟨heq, (Option.some.inj h).symm⟩
  · cases h

theorem counted_lone (root : N) : (lone root).Counted fun _ => 0 := by
  refine ⟨?_, ?_, fun n => ?_⟩
  · exact Set.finite_empty.subset fun x hx => hx rfl
  · refine (Set.finite_singleton root).subset fun m hm => ?_
    obtain ⟨p, hp⟩ := Option.ne_none_iff_exists'.mp hm
    exact (lone_parent hp).1
  · have hentry : tally (lone root).entry n = 0 :=
      tally_eq_zero fun _ => (Option.some_ne_none n).symm
    rw [hentry]
    simp only [lone]
    by_cases heq : n = root
    · rw [heq]
      have htop : (lone root).parent root = some root := if_pos rfl
      have hparent := tally_eq_one htop fun m hm => (lone_parent hm).1
      rw [show tally (fun n => if n = root then some root else none) root = 1 from hparent,
        if_pos rfl]
      rfl
    · have hparent : tally (lone root).parent n = 0 :=
        tally_eq_zero fun m hm => heq (lone_parent hm).2
      rw [show tally (fun n => if n = root then some root else none) n = 0 from hparent, if_neg heq]
      rfl

theorem shaped_lone (root : N) : (lone root).Shaped root where
  top := if_pos rfl
  rootless := fun _ => (Option.some_ne_none root).symm
  held := fun _ n hentry => absurd hentry.symm (Option.some_ne_none n)
  above := fun _ n hentry => absurd hentry.symm (Option.some_ne_none n)
  named := fun _ _ hparent hne => absurd (lone_parent hparent).1 hne
  once := fun _ _ n hentry => absurd hentry.symm (Option.some_ne_none n)

theorem Counted.relink (h : g.Counted due) (n : N) (k : Int) :
    (g.relink n k).Counted fun m => due m + if n = m then k else 0 := by
  refine ⟨h.entries, h.parents, fun m => ?_⟩
  have hcount := h.counts m
  by_cases hm : n = m
  · subst hm
    simp only [LinkGraph.relink, Function.update_self, if_pos]
    omega
  · simp only [LinkGraph.relink, Function.update_of_ne (Ne.symm hm), if_neg hm]
    omega

theorem Counted.setEntry (h : g.Counted due) (x : N × Nat) (v : Option N) :
    (g.setEntry x v).Counted fun m =>
      due m + (if g.entry x = some m then 1 else 0) - if v = some m then 1 else 0 := by
  refine ⟨h.entries.update x v, h.parents, fun m => ?_⟩
  have hcount := h.counts m
  have htally := tally_update h.entries x v m
  simp only [LinkGraph.setEntry]
  split_ifs at htally ⊢ <;> omega

theorem Counted.setParent (h : g.Counted due) (n : N) (v : Option N) :
    (g.setParent n v).Counted fun m =>
      due m + (if g.parent n = some m then 1 else 0) - if v = some m then 1 else 0 := by
  refine ⟨h.entries, h.parents.update n v, fun m => ?_⟩
  have hcount := h.counts m
  have htally := tally_update h.parents n v m
  simp only [LinkGraph.setParent]
  split_ifs at htally ⊢ <;> omega

theorem Shaped.relink (h : g.Shaped root) (n : N) (k : Int) : (g.relink n k).Shaped root :=
  ⟨h.top, h.rootless, h.held, h.above, h.named, h.once⟩

theorem Shaped.link (h : g.Shaped root) (hdir : g.parent x.1 ≠ none)
    (hempty : g.entry x = none) (hleaf : g.parent n = none) :
    (g.setEntry x (some n)).Shaped root where
  top := h.top
  rootless := by
    intro y
    rw [setEntry_apply]
    split
    · intro heq
      rw [Option.some.inj heq, h.top] at hleaf
      cases hleaf
    · exact h.rootless y
  held := by
    intro y m hy
    rw [setEntry_apply] at hy
    split at hy
    · rename_i heq
      rw [heq]
      exact hdir
    · exact h.held y m hy
  above := by
    intro y m hy hm
    rw [setEntry_apply] at hy
    split at hy
    · rw [← Option.some.inj hy] at hm
      exact absurd hleaf hm
    · exact h.above y m hy hm
  named := by
    intro p m hp hm
    obtain ⟨k, hk⟩ := h.named p m hp hm
    refine ⟨k, ?_⟩
    rw [setEntry_apply, if_neg]
    · exact hk
    · intro heq
      rw [heq, hempty] at hk
      cases hk
  once := by
    intro y z m hy hz hm
    rw [setEntry_apply] at hy hz
    split at hy
    · rw [← Option.some.inj hy] at hm
      exact absurd hleaf hm
    · split at hz
      · rw [← Option.some.inj hz] at hm
        exact absurd hleaf hm
      · exact h.once y z m hy hz hm

theorem Shaped.unlink (h : g.Shaped root) (hentry : g.entry x = some n)
    (hleaf : g.parent n = none) : (g.setEntry x none).Shaped root where
  top := h.top
  rootless := by
    intro y
    rw [setEntry_apply]
    split
    · exact (Option.some_ne_none root).symm
    · exact h.rootless y
  held := by
    intro y m hy
    rw [setEntry_apply] at hy
    split at hy
    · cases hy
    · exact h.held y m hy
  above := by
    intro y m hy hm
    rw [setEntry_apply] at hy
    split at hy
    · cases hy
    · exact h.above y m hy hm
  named := by
    intro p m hp hm
    obtain ⟨k, hk⟩ := h.named p m hp hm
    refine ⟨k, ?_⟩
    rw [setEntry_apply, if_neg]
    · exact hk
    · intro heq
      rw [heq, hentry] at hk
      have hp : g.parent m = some p := hp
      rw [← Option.some.inj hk, hleaf] at hp
      cases hp
  once := by
    intro y z m hy hz hm
    rw [setEntry_apply] at hy hz
    split at hy
    · cases hy
    · split at hz
      · cases hz
      · exact h.once y z m hy hz hm

theorem Shaped.plant (h : g.Shaped root) (hdir : g.parent x.1 ≠ none)
    (hempty : g.entry x = none) (hnew : g.parent n = none) (hunnamed : ∀ y, g.entry y ≠ some n) :
    ((g.setEntry x (some n)).setParent n (some x.1)).Shaped root := by
  have hroot : root ≠ n := by
    rintro rfl
    rw [h.top] at hnew
    cases hnew
  have hkeep : ∀ m, g.parent m ≠ none →
      ((g.setEntry x (some n)).setParent n (some x.1)).parent m = g.parent m := by
    intro m hm
    rw [setParent_apply, if_neg]
    · rfl
    · rintro rfl
      exact hm hnew
  have hentry : ∀ y m, ((g.setEntry x (some n)).setParent n (some x.1)).entry y = some m →
      y = x ∧ m = n ∨ y ≠ x ∧ g.entry y = some m ∧ m ≠ n := by
    intro y m hy
    have hy : (g.setEntry x (some n)).entry y = some m := hy
    rw [setEntry_apply] at hy
    split at hy
    · rename_i heq
      exact .inl ⟨heq, (Option.some.inj hy).symm⟩
    · rename_i hne
      exact .inr ⟨hne, hy, fun heq => hunnamed y (heq ▸ hy)⟩
  refine ⟨?_, ?_, ?_, ?_, ?_, ?_⟩
  · rw [hkeep root (by rw [h.top]; exact Option.some_ne_none root)]
    exact h.top
  · intro y hy
    rcases hentry y root hy with ⟨-, heq⟩ | ⟨-, hold, -⟩
    · exact hroot heq
    · exact h.rootless y hold
  · intro y m hy
    rcases hentry y m hy with ⟨rfl, -⟩ | ⟨-, hold, -⟩
    · rw [hkeep _ hdir]
      exact hdir
    · have hheld := h.held y m hold
      rw [hkeep _ hheld]
      exact hheld
  · intro y m hy hm
    rcases hentry y m hy with ⟨rfl, rfl⟩ | ⟨-, hold, hne⟩
    · rw [setParent_apply, if_pos rfl]
    · rw [setParent_apply, if_neg hne] at hm ⊢
      exact h.above y m hold hm
  · intro p m hp hm
    rw [setParent_apply] at hp
    split at hp
    · rename_i heq
      refine ⟨x.2, ?_⟩
      change (g.setEntry x (some n)).entry (p, x.2) = some m
      rw [setEntry_apply, ← Option.some.inj hp, if_pos rfl, heq]
    · obtain ⟨k, hk⟩ := h.named p m hp hm
      refine ⟨k, ?_⟩
      change (g.setEntry x (some n)).entry (p, k) = some m
      rw [setEntry_apply, if_neg]
      · exact hk
      · intro heq
        rw [heq, hempty] at hk
        cases hk
  · intro y z m hy hz hm
    rcases hentry y m hy with ⟨rfl, rfl⟩ | ⟨-, holdy, hne⟩
    · rcases hentry z m hz with ⟨rfl, -⟩ | ⟨-, -, hne⟩
      · rfl
      · exact absurd rfl hne
    · rcases hentry z m hz with ⟨-, rfl⟩ | ⟨-, holdz, -⟩
      · exact absurd rfl hne
      · rw [setParent_apply, if_neg hne] at hm
        exact h.once y z m holdy holdz hm

theorem Shaped.prune (h : g.Shaped root) (hentry : g.entry x = some n)
    (hempty : ∀ e, g.entry (n, e) = none) :
    ((g.setEntry x none).setParent n none).Shaped root := by
  have hroot : root ≠ n := by
    rintro rfl
    exact h.rootless x hentry
  have hold : ∀ y m, ((g.setEntry x none).setParent n none).entry y = some m →
      y ≠ x ∧ g.entry y = some m ∧ y.1 ≠ n := by
    intro y m hy
    have hy : (g.setEntry x none).entry y = some m := hy
    rw [setEntry_apply] at hy
    split at hy
    · cases hy
    · rename_i hne
      refine ⟨hne, hy, fun heq => ?_⟩
      have hnone := hempty y.2
      rw [← heq] at hnone
      rw [show (y.1, y.2) = y from rfl, hy] at hnone
      cases hnone
  have hdirs : ∀ m, ((g.setEntry x none).setParent n none).parent m ≠ none →
      m ≠ n ∧ g.parent m ≠ none := by
    intro m hm
    rw [setParent_apply] at hm
    split at hm
    · exact absurd rfl hm
    · rename_i hne
      exact ⟨hne, hm⟩
  have hkeep : ∀ m, m ≠ n →
      ((g.setEntry x none).setParent n none).parent m = g.parent m := by
    intro m hm
    rw [setParent_apply, if_neg hm]
    rfl
  refine ⟨(hkeep root hroot).trans h.top, fun y hy => h.rootless y (hold y root hy).2.1, ?_, ?_,
    ?_, ?_⟩
  · intro y m hy
    obtain ⟨-, hy, hne⟩ := hold y m hy
    rw [hkeep _ hne]
    exact h.held y m hy
  · intro y m hy hm
    obtain ⟨hne, hdir⟩ := hdirs m hm
    rw [hkeep m hne]
    exact h.above y m (hold y m hy).2.1 hdir
  · intro p m hp hm
    have hne := (hdirs m (by rw [hp]; exact Option.some_ne_none p)).1
    rw [hkeep m hne] at hp
    obtain ⟨k, hk⟩ := h.named p m hp hm
    refine ⟨k, ?_⟩
    change (g.setEntry x none).entry (p, k) = some m
    rw [setEntry_apply, if_neg]
    · exact hk
    · intro heq
      rw [heq, hentry] at hk
      exact hne (Option.some.inj hk).symm
  · intro y z m hy hz hm
    exact h.once y z m (hold y m hy).2.1 (hold z m hz).2.1 (hdirs m hm).2

def mkdir (g : LinkGraph N) (x : N × Nat) (n : N) : LinkGraph N :=
  (((g.relink n 1).relink x.1 1).setParent n (some x.1)).setEntry x (some n)

theorem Counted.mkdir (h : g.Counted due) (hempty : g.entry x = none)
    (hnew : g.parent n = none) : (g.mkdir x n).Counted due := by
  refine ((((h.relink n 1).relink x.1 1).setParent n (some x.1)).setEntry x (some n)).congr
    fun m => ?_
  have hentry : (((g.relink n 1).relink x.1 1).setParent n (some x.1)).entry x = none := hempty
  have hparent : ((g.relink n 1).relink x.1 1).parent n = none := hnew
  rw [hentry, hparent]
  simp only [Option.some.injEq, reduceCtorEq, if_false]
  split_ifs <;> omega

def rmdir (g : LinkGraph N) (x : N × Nat) (n : N) : LinkGraph N :=
  (((g.setEntry x none).relink x.1 (-1)).relink n (-1)).setParent n none

theorem Counted.rmdir (h : g.Counted due) (hentry : g.entry x = some n)
    (hparent : g.parent n = some x.1) : (g.rmdir x n).Counted due := by
  refine ((((h.setEntry x none).relink x.1 (-1)).relink n (-1)).setParent n none).congr
    fun m => ?_
  have hparent : (((g.setEntry x none).relink x.1 (-1)).relink n (-1)).parent n = some x.1 :=
    hparent
  rw [hentry, hparent]
  simp only [Option.some.injEq, reduceCtorEq, if_false]
  split_ifs <;> omega

theorem Shaped.mkdir (h : g.Shaped root) (hdir : g.parent x.1 ≠ none) (hempty : g.entry x = none)
    (hnew : g.parent n = none) (hunnamed : ∀ y, g.entry y ≠ some n) : (g.mkdir x n).Shaped root :=
  ((h.plant hdir hempty hnew hunnamed).relink n 1).relink x.1 1

theorem Shaped.rmdir (h : g.Shaped root) (hentry : g.entry x = some n)
    (hempty : ∀ e, g.entry (n, e) = none) : (g.rmdir x n).Shaped root :=
  ((h.prune hentry hempty).relink x.1 (-1)).relink n (-1)

end LinkGraph

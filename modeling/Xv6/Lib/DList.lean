import Mathlib.Data.List.Nodup
import Mathlib.Logic.Function.Basic
import Mathlib.Tactic.Common

/-! Circular doubly linked lists with a head. Nodes are the elements and the head, `none`;
the links are assigned one after the other, as a program does it. -/
namespace DList

variable {ι : Type}

structure Links (ι : Type) where
  next : Option ι → Option ι
  prev : Option ι → Option ι

/-- From node `a` the links lead through `l` to node `z`. -/
def Seg (f : Option ι → Option ι) : Option ι → List ι → Option ι → Prop
  | a, [], z => f a = z
  | a, x :: l, z => f a = some x ∧ Seg f (some x) l z

structure Linked (k : Links ι) (l : List ι) : Prop where
  nodup : l.Nodup
  next : Seg k.next none l none
  prev : Seg k.prev none l.reverse none

def findFrom (f : Option ι → Option ι) (p : ι → Bool) : Nat → Option ι → Option ι
  | 0, _ | _ + 1, none => none
  | fuel + 1, some x => if p x then some x else findFrom f p fuel (f (some x))

def last : Option ι → List ι → Option ι
  | a, [] => a
  | _, x :: l => last (some x) l

def first : List ι → Option ι → Option ι
  | [], z => z
  | x :: _, _ => some x

variable {f g : Option ι → Option ι} {a z : Option ι} {l l₁ l₂ : List ι} {x : ι}

theorem Seg.first (h : Seg f a l z) : f a = DList.first l z := by
  cases l with
  | nil => exact h
  | cons x l => exact h.1

theorem seg_append (l₁ : List ι) :
    Seg f a (l₁ ++ x :: l₂) z ↔ Seg f a l₁ (some x) ∧ Seg f (some x) l₂ z := by
  induction l₁ generalizing a with
  | nil => exact Iff.rfl
  | cons y l₁ ih => exact (and_congr_right fun _ => ih).trans and_assoc.symm

theorem Seg.congr {b : Option ι} (h : Seg f a l z) (hstart : g b = f a)
    (hsame : ∀ x ∈ l, g (some x) = f (some x)) : Seg g b l z := by
  induction l generalizing a b with
  | nil => exact hstart.trans h
  | cons x l ih =>
    refine ⟨hstart.trans h.1, ih h.2 (hsame x List.mem_cons_self) fun y hy => ?_⟩
    exact hsame y (List.mem_cons_of_mem x hy)

theorem first_append_singleton (l : List ι) (x : ι) (z : Option ι) :
    first (l ++ [x]) z = first l (some x) := by
  cases l with
  | nil => rfl
  | cons y l => rfl

theorem last_eq (a : Option ι) (l : List ι) : last a l = first l.reverse a := by
  induction l generalizing a with
  | nil => rfl
  | cons x l ih => rw [last, ih, List.reverse_cons, first_append_singleton]

theorem first_eq (l : List ι) (z : Option ι) : first l z = last z l.reverse := by
  rw [last_eq, List.reverse_reverse]

theorem last_mem (a : Option ι) (l : List ι) : last a l ∈ a :: l.map some := by
  induction l generalizing a with
  | nil => exact List.mem_cons_self
  | cons x l ih => exact List.mem_cons_of_mem a (ih (some x))

theorem findFrom_eq {p : ι → Bool} {fuel : Nat} (h : Seg f a l none) (hfuel : l.length < fuel) :
    findFrom f p fuel (f a) = l.find? p := by
  induction l generalizing a fuel with
  | nil =>
    have hend : f a = none := h
    rw [hend]
    cases fuel with
    | zero => rfl
    | succ fuel => rfl
  | cons x l ih =>
    obtain ⟨fuel, rfl⟩ : ∃ n, fuel = n + 1 := ⟨fuel - 1, by omega⟩
    rw [h.1, findFrom, List.find?_cons]
    cases p x with
    | true => rfl
    | false =>
      rw [List.length_cons] at hfuel
      exact ih h.2 (by omega)

theorem nodup_none (h : l.Nodup) : ((none : Option ι) :: l.map some).Nodup :=
  List.nodup_cons.mpr ⟨by simp, h.map fun _ _ heq => Option.some.inj heq⟩

variable [DecidableEq ι]

/-- `b->next->prev = b->prev; b->prev->next = b->next`. -/
def Links.unlink (k : Links ι) (b : ι) : Links ι :=
  let k := { k with prev := Function.update k.prev (k.next (some b)) (k.prev (some b)) }
  { k with next := Function.update k.next (k.prev (some b)) (k.next (some b)) }

/-- `b->next = head.next; b->prev = &head; head.next->prev = b; head.next = b`. -/
def Links.pushFront (k : Links ι) (b : ι) : Links ι :=
  let k := { k with next := Function.update k.next (some b) (k.next none) }
  let k := { k with prev := Function.update k.prev (some b) none }
  let k := { k with prev := Function.update k.prev (k.next none) (some b) }
  { k with next := Function.update k.next none (some b) }

theorem Seg.retarget (h : Seg f a l z) (hnodup : (a :: l.map some).Nodup) (z' : Option ι) :
    Seg (Function.update f (last a l) z') a l z' := by
  induction l generalizing a with
  | nil => exact Function.update_self ..
  | cons x l ih =>
    obtain ⟨ha, hrest⟩ := List.nodup_cons.mp hnodup
    have hne : a ≠ last (some x) l := fun heq => ha (heq ▸ last_mem (some x) l)
    refine ⟨?_, ih h.2 hrest⟩
    change Function.update f (last (some x) l) z' a = some x
    rw [Function.update_of_ne hne]
    exact h.1

theorem Seg.join {b y : Option ι} (h₁ : Seg f a l₁ y) (h₂ : Seg f b l₂ z)
    (hnodup : (a :: (l₁ ++ l₂).map some).Nodup) :
    Seg (Function.update f (last a l₁) (DList.first l₂ z)) a (l₁ ++ l₂) z := by
  have hfirst : (a :: l₁.map some).Nodup :=
    hnodup.sublist (List.cons_sublist_cons.mpr
      (List.Sublist.map some (List.sublist_append_left l₁ l₂)))
  have hlead := h₁.retarget hfirst (DList.first l₂ z)
  cases l₂ with
  | nil =>
    rw [List.append_nil]
    exact hlead
  | cons x l₂ =>
    refine (seg_append l₁).mpr ⟨hlead, h₂.2.congr ?_ fun w hw => ?_⟩
    · refine Function.update_of_ne (fun heq => ?_) _ _
      rw [List.map_append, ← List.cons_append, List.nodup_append] at hnodup
      exact hnodup.2.2 _ (last_mem a l₁) _ (List.mem_map_of_mem List.mem_cons_self) heq.symm
    · refine Function.update_of_ne (fun heq => ?_) _ _
      rw [List.map_append, ← List.cons_append, List.nodup_append] at hnodup
      exact hnodup.2.2 _ (last_mem a l₁) _
        (List.mem_map_of_mem (List.mem_cons_of_mem x hw)) heq.symm

theorem Linked.unlink {k : Links ι} (h : Linked k (l₁ ++ x :: l₂)) :
    Linked (k.unlink x) (l₁ ++ l₂) := by
  obtain ⟨hnodup, hnext, hprev⟩ := h
  have hrest : (l₁ ++ l₂).Nodup := hnodup.sublist
    (List.Sublist.append_left (List.sublist_cons_self x l₂) l₁)
  obtain ⟨hnext₁, hnext₂⟩ := (seg_append l₁).mp hnext
  rw [List.reverse_append, List.reverse_cons, List.append_assoc, List.singleton_append] at hprev
  obtain ⟨hprev₂, hprev₁⟩ := (seg_append l₂.reverse).mp hprev
  have hnextx : k.next (some x) = first l₂ none := hnext₂.first
  have hprevx : k.prev (some x) = last none l₁ := by rw [hprev₁.first, last_eq]
  have hx : x ∉ l₂ := by
    have htail := (List.nodup_append.mp hnodup).2.1
    exact (List.nodup_cons.mp htail).1
  have hne : some x ≠ first l₂ none := by
    cases l₂ with
    | nil => exact Option.some_ne_none x
    | cons y l₂ =>
      intro heq
      cases Option.some.inj heq
      exact hx List.mem_cons_self
  have hlinks : k.unlink x = ⟨Function.update k.next (last none l₁) (first l₂ none),
      Function.update k.prev (first l₂ none) (last none l₁)⟩ := by
    simp only [Links.unlink, hnextx, hprevx, Function.update_of_ne hne]
  rw [hlinks]
  refine ⟨hrest, hnext₁.join hnext₂ (nodup_none hrest), ?_⟩
  have hjoin := hprev₂.join hprev₁ (nodup_none (by
    rw [← List.reverse_append]
    exact List.nodup_reverse.mpr hrest))
  rw [← first_eq, ← last_eq, ← List.reverse_append] at hjoin
  exact hjoin

theorem Linked.pushFront {k : Links ι} (h : Linked k l) (hx : x ∉ l) :
    Linked (k.pushFront x) (x :: l) := by
  obtain ⟨hnodup, hnext, hprev⟩ := h
  have hfirst : k.next none = first l none := hnext.first
  have hne : some x ≠ first l none := by
    cases l with
    | nil => exact Option.some_ne_none x
    | cons y l =>
      intro heq
      cases Option.some.inj heq
      exact hx List.mem_cons_self
  have hlinks : k.pushFront x =
      ⟨Function.update (Function.update k.next (some x) (first l none)) none (some x),
        Function.update (Function.update k.prev (some x) none) (first l none) (some x)⟩ := by
    simp only [Links.pushFront, hfirst, Function.update_of_ne (Option.some_ne_none x).symm]
  rw [hlinks]
  refine ⟨List.nodup_cons.mpr ⟨hx, hnodup⟩, ⟨?_, ?_⟩, ?_⟩
  · dsimp only
    rw [Function.update_self]
  · refine hnext.congr ?_ fun y hy => ?_
    · dsimp only
      rw [Function.update_of_ne (Option.some_ne_none x), Function.update_self, hfirst]
    · have hyx : some y ≠ some x := fun heq => hx (Option.some.inj heq ▸ hy)
      dsimp only
      rw [Function.update_of_ne (Option.some_ne_none y), Function.update_of_ne hyx]
  · rw [List.reverse_cons]
    refine (seg_append l.reverse).mpr ⟨?_, ?_⟩
    · have hframe : Seg (Function.update k.prev (some x) none) none l.reverse none := by
        refine hprev.congr (Function.update_of_ne (Option.some_ne_none x).symm _ _) fun y hy => ?_
        have hyx : some y ≠ some x :=
          fun heq => hx (Option.some.inj heq ▸ List.mem_reverse.mp hy)
        exact Function.update_of_ne hyx _ _
      have hlead := hframe.retarget (nodup_none (List.nodup_reverse.mpr hnodup)) (some x)
      rwa [← first_eq] at hlead
    · change Function.update (Function.update k.prev (some x) none) (first l none) (some x)
        (some x) = none
      rw [Function.update_of_ne hne, Function.update_self]

theorem Linked.foldl_pushFront {k : Links ι} (xs : List ι) (h : Linked k l)
    (hnodup : (xs.reverse ++ l).Nodup) :
    Linked (xs.foldl Links.pushFront k) (xs.reverse ++ l) := by
  induction xs generalizing k l with
  | nil => exact h
  | cons x xs ih =>
    rw [List.reverse_cons, List.append_assoc, List.singleton_append] at hnodup ⊢
    have hx : x ∉ l := (List.nodup_cons.mp (List.nodup_append.mp hnodup).2.1).1
    exact ih (h.pushFront hx) hnodup

end DList

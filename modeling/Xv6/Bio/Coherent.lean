import Xv6.Bio.Cache
import Mathlib.Data.Fintype.Card

/-! The buffer cache in agreement with a flat block store. The cache holds a block in at most
one buffer, and what it holds, or the disk has, of a block that nobody uses is what the store
has. Every operation touches one buffer and one process. -/
namespace Xv6.Bio

open DList Fallible Transition

variable {T D : Type}

/-- Does the process count in the `refcnt` of `b` without holding its lock? -/
def Pc.refers (b : Fin nbuf) : Pc → Bool
  | .waiting c | .releasing c => c = b
  | .idle | .locked _ => false

theorem Pc.refers_of_target {pc : Pc} {b : Fin nbuf} (h : pc.target ≠ some b) :
    pc.refers b = false := by
  cases pc with
  | idle => rfl
  | locked c => rfl
  | waiting c => exact decide_eq_false fun heq => h (congrArg some heq)
  | releasing c => exact decide_eq_false fun heq => h (congrArg some heq)

def State.Owned (s : State T D) (b : Fin nbuf) : Prop :=
  ∃ t, (s.buf b).holder = some t ∧ s.pc t ≠ .locked b

structure Good (x : Buf T D) (owned : Prop) (touched : Bool) (disk store : D) : Prop where
  invalid : x.valid = false → x.dirty = false ∧ disk = store
  clean : x.valid = true → x.dirty = false → touched = false → x.data = disk
  free : x.valid = true → ¬ owned → x.data = store
  valid : owned → x.valid = true
  inUse : touched = true → owned

theorem target_ne_of_idle {pc : Pc} (h : pc = .idle) (c : Fin nbuf) : pc.target ≠ some c := by
  rw [h]
  intro heq
  cases heq

theorem some_ne {b c : Fin nbuf} (hc : c ≠ b) : some b ≠ some c :=
  fun heq => hc (Option.some.inj heq).symm

theorem owned_iff [DecidableEq T] {s s' : State T D} {b : Fin nbuf} {t : T} {pc : Pc}
    (hholder : (s'.buf b).holder = (s.buf b).holder) (hpc : s'.pc = Function.update s.pc t pc)
    (hbefore : s.pc t ≠ .locked b) (hafter : pc ≠ .locked b) : s'.Owned b ↔ s.Owned b := by
  unfold State.Owned
  rw [hholder, hpc]
  refine exists_congr fun u => and_congr_right fun _ => not_congr ?_
  by_cases hu : u = t
  · subst hu
    rw [Function.update_self]
    exact iff_of_false hafter hbefore
  · rw [Function.update_of_ne hu]

theorem locked_of_update [DecidableEq T] {s : State T D} {b : Fin nbuf} {t u : T} {pc : Pc}
    (hpc : pc ≠ .locked b)
    (h : Function.update s.pc t pc u = .locked b) : u ≠ t ∧ s.pc u = .locked b := by
  by_cases hut : u = t
  · subst hut
    rw [Function.update_self] at h
    exact absurd h hpc
  · rw [Function.update_of_ne hut] at h
    exact ⟨hut, h⟩

theorem Good.congr {x : Buf T D} {owned owned' : Prop} {touched : Bool} {disk store : D}
    (h : Good x owned touched disk store) (hiff : owned' ↔ owned) :
    Good x owned' touched disk store :=
  ⟨h.invalid, h.clean, fun hvalid hnot => h.free hvalid (mt hiff.mpr hnot),
    fun ho => h.valid (hiff.mp ho), fun ht => hiff.mpr (h.inUse ht)⟩

theorem iderw_read {s : State T D} {b : Fin nbuf} (hvalid : (s.buf b).valid = false)
    (hdirty : (s.buf b).dirty = false) :
    s.iderw b = .ok (s.setBuf b
      { s.buf b with valid := true, data := s.disk (s.buf b).blockno }) := by
  unfold State.iderw
  dsimp only
  rw [hvalid, hdirty, if_neg (fun hboth => Bool.false_ne_true hboth.1), if_neg Bool.false_ne_true]

theorem iderw_write {s : State T D} {b : Fin nbuf} (hdirty : (s.buf b).dirty = true) :
    s.iderw b = .ok { s.setBuf b { s.buf b with valid := true, dirty := false } with
      disk := Function.update s.disk (s.buf b).blockno (s.buf b).data } := by
  unfold State.iderw
  dsimp only
  rw [hdirty, if_neg (fun hboth => Bool.false_ne_true hboth.2.symm), if_pos rfl]

variable [Fintype T]

/-- The cache agrees with the flat store `store`. -/
structure Coherent (s : State T D) (store : Nat → D) : Prop where
  linked : ∃ l, Linked s.links l ∧ ∀ b, b ∈ l
  unique : ∀ b c, (s.buf b).dev = rootdev → (s.buf c).dev = rootdev →
    (s.buf b).blockno = (s.buf c).blockno → b = c
  fresh : ∀ b, (s.buf b).dev ≠ rootdev →
    (s.buf b).refcnt = 0 ∧ (s.buf b).dirty = false ∧ s.touched b = false
  refs : ∀ b, (s.buf b).refcnt =
    Threads.count s.pc (Pc.refers b) + (s.buf b).holder.isSome.toNat
  locked : ∀ t b, s.pc t = .locked b → (s.buf b).holder = some t
  good : ∀ b, (s.buf b).dev = rootdev → Good (s.buf b) (s.Owned b) (s.touched b)
    (s.disk (s.buf b).blockno) (store (s.buf b).blockno)
  absent : ∀ n, (∀ b, (s.buf b).dev = rootdev → (s.buf b).blockno ≠ n) → s.disk n = store n

section

variable {s s' : State T D} {store store' : Nat → D}

theorem Coherent.dev_of_refcnt (h : Coherent s store) {b : Fin nbuf}
    (hrefcnt : 0 < (s.buf b).refcnt) : (s.buf b).dev = rootdev := by
  by_contra hdev
  have hzero := (h.fresh b hdev).1
  omega

theorem Coherent.refcnt_pos (h : Coherent s store) {b : Fin nbuf} {t : T}
    (hholder : (s.buf b).holder = some t) : 0 < (s.buf b).refcnt := by
  have hrefs := h.refs b
  rw [hholder] at hrefs
  simp only [Option.isSome_some, Bool.toNat_true] at hrefs
  omega

theorem Coherent.refcnt_pos_of_refers (h : Coherent s store) {b : Fin nbuf} {t : T}
    (hpc : (s.pc t).refers b = true) : 0 < (s.buf b).refcnt := by
  have hrefs := h.refs b
  have hcount := Threads.count_pos hpc
  omega

theorem Coherent.disk_eq_of_unused (h : Coherent s store) {b : Fin nbuf}
    (hdev : (s.buf b).dev = rootdev) (hrefcnt : (s.buf b).refcnt = 0)
    (hdirty : (s.buf b).dirty = false) :
    s.disk (s.buf b).blockno = store (s.buf b).blockno := by
  have hgood := h.good b hdev
  have hnone : (s.buf b).holder = none := by
    cases hholder : (s.buf b).holder with
    | none => rfl
    | some t =>
      have hpos := h.refcnt_pos hholder
      omega
  have hfree : ¬ s.Owned b := by
    rintro ⟨t, ht, -⟩
    rw [hnone] at ht
    cases ht
  have htouched : s.touched b = false := by
    cases htouched : s.touched b with
    | false => rfl
    | true => exact absurd (hgood.inUse htouched) hfree
  cases hvalid : (s.buf b).valid with
  | false => exact (hgood.invalid hvalid).2
  | true => exact (hgood.clean hvalid hdirty htouched).symm.trans (hgood.free hvalid hfree)

theorem Coherent.findCached (h : Coherent s store) (dev n : Nat) :
    (∀ b, s.findCached dev n = some b → (s.buf b).dev = dev ∧ (s.buf b).blockno = n) ∧
      (s.findCached dev n = none ↔ ∀ b, ¬ ((s.buf b).dev = dev ∧ (s.buf b).blockno = n)) := by
  obtain ⟨l, hlinked, hall⟩ := h.linked
  have hlength : l.length < nbuf + 1 := by
    have hcard := List.Nodup.length_le_card hlinked.nodup
    rw [Fintype.card_fin] at hcard
    omega
  have hfind : s.findCached dev n = l.find? fun b => (s.buf b).caches dev n :=
    findFrom_eq hlinked.next hlength
  rw [hfind]
  refine ⟨fun b hb => ?_, ?_⟩
  · have hfound := List.find?_some hb
    exact of_decide_eq_true hfound
  · rw [List.find?_eq_none]
    refine ⟨fun hnone b hcaches => hnone b (hall b) (decide_eq_true hcaches),
      fun hnone b _ hb => ?_⟩
    exact hnone b (of_decide_eq_true hb)

theorem Coherent.findUnused (h : Coherent s store) :
    (∀ b, s.findUnused = some b → (s.buf b).refcnt = 0 ∧ (s.buf b).dirty = false) ∧
      (s.findUnused = none ↔ ∀ b, (s.buf b).refcnt ≠ 0 ∨ (s.buf b).dirty = true) := by
  obtain ⟨l, hlinked, hall⟩ := h.linked
  have hlength : l.reverse.length < nbuf + 1 := by
    have hcard := List.Nodup.length_le_card hlinked.nodup
    rw [Fintype.card_fin] at hcard
    rw [List.length_reverse]
    omega
  have hfind : s.findUnused = l.reverse.find? fun b => (s.buf b).unused :=
    findFrom_eq hlinked.prev hlength
  rw [hfind]
  refine ⟨fun b hb => ?_, ?_⟩
  · have hfound := List.find?_some hb
    exact of_decide_eq_true hfound
  · rw [List.find?_eq_none]
    constructor
    · intro hnone b
      by_contra hnot
      rw [not_or, not_not, Bool.not_eq_true] at hnot
      exact hnone b (List.mem_reverse.mpr (hall b)) (decide_eq_true hnot)
    · intro hbusy b _ hb
      have hunused : (s.buf b).refcnt = 0 ∧ (s.buf b).dirty = false := of_decide_eq_true hb
      rcases hbusy b with hrefcnt | hdirty
      · exact hrefcnt hunused.1
      · rw [hdirty] at hunused
        cases hunused.2

theorem Coherent.owned_valid (h : Coherent s store) {t : T} {b : Fin nbuf} (ht : s.pc t = .idle)
    (hholder : (s.buf b).holder = some t) : (s.buf b).valid = true := by
  have hdev : (s.buf b).dev = rootdev := h.dev_of_refcnt (h.refcnt_pos hholder)
  refine (h.good b hdev).valid ⟨t, hholder, ?_⟩
  rw [ht]
  exact Pc.noConfusion

variable [DecidableEq T]

/-- A step of process `t` at buffer `b`. For every other buffer nothing changes, so that all
that is left to show is about `b`. -/
theorem Coherent.step (h : Coherent s store) (b : Fin nbuf) (t : T) {pc : Pc}
    (hbuf : ∀ c, c ≠ b → s'.buf c = s.buf c) (hpc : s'.pc = Function.update s.pc t pc)
    (htouched : ∀ c, c ≠ b → s'.touched c = s.touched c)
    (hlinked : ∃ l, Linked s'.links l ∧ ∀ c, c ∈ l)
    (hbefore : ∀ c, c ≠ b → (s.pc t).target ≠ some c) (hafter : ∀ c, c ≠ b → pc.target ≠ some c)
    (hdev : (s'.buf b).dev = rootdev)
    (hunique : ∀ c, c ≠ b → (s.buf c).dev = rootdev →
      (s.buf c).blockno ≠ (s'.buf b).blockno)
    (hdisk : ∀ n, n ≠ (s'.buf b).blockno → s'.disk n = s.disk n)
    (hstore : ∀ n, n ≠ (s'.buf b).blockno → store' n = store n)
    (hleft : (s.buf b).dev = rootdev → (s.buf b).blockno ≠ (s'.buf b).blockno →
      s.disk (s.buf b).blockno = store (s.buf b).blockno)
    (hcount : (s'.buf b).refcnt + ((s.pc t).refers b).toNat + (s.buf b).holder.isSome.toNat =
      (s.buf b).refcnt + (pc.refers b).toNat + (s'.buf b).holder.isSome.toNat)
    (hlocked : ∀ u, s'.pc u = .locked b → (s'.buf b).holder = some u)
    (hgood : Good (s'.buf b) (s'.Owned b) (s'.touched b) (s'.disk (s'.buf b).blockno)
      (store' (s'.buf b).blockno)) : Coherent s' store' := by
  have hpcSame : ∀ u c, c ≠ b → (s'.pc u = .locked c ↔ s.pc u = .locked c) := by
    intro u c hc
    rw [hpc]
    by_cases hu : u = t
    · subst hu
      rw [Function.update_self]
      refine iff_of_false (fun heq => ?_) fun heq => ?_
      · exact hafter c hc (by rw [heq]; rfl)
      · exact hbefore c hc (by rw [heq]; rfl)
    · rw [Function.update_of_ne hu]
  have howned : ∀ c, c ≠ b → (s'.Owned c ↔ s.Owned c) := by
    intro c hc
    unfold State.Owned
    rw [hbuf c hc]
    exact exists_congr fun u => and_congr_right fun _ => not_congr (hpcSame u c hc)
  refine ⟨hlinked, ?_, ?_, ?_, ?_, ?_, ?_⟩
  · intro c c' hc hc' heq
    by_cases hcb : c = b
    · by_cases hcb' : c' = b
      · rw [hcb, hcb']
      · rw [hbuf c' hcb'] at hc' heq
        rw [hcb] at heq
        exact absurd heq.symm (hunique c' hcb' hc')
    · rw [hbuf c hcb] at hc heq
      by_cases hcb' : c' = b
      · rw [hcb'] at heq
        exact absurd heq (hunique c hcb hc)
      · rw [hbuf c' hcb'] at hc' heq
        exact h.unique c c' hc hc' heq
  · intro c hc
    by_cases hcb : c = b
    · subst hcb
      exact absurd hdev hc
    · rw [hbuf c hcb] at hc ⊢
      rw [htouched c hcb]
      exact h.fresh c hc
  · intro c
    have hupdate := Threads.count_update s.pc t pc (Pc.refers c)
    have hrefs := h.refs c
    rw [hpc]
    by_cases hcb : c = b
    · subst hcb
      omega
    · rw [Pc.refers_of_target (hbefore c hcb), Pc.refers_of_target (hafter c hcb)] at hupdate
      rw [hbuf c hcb]
      omega
  · intro u c hu
    by_cases hcb : c = b
    · subst hcb
      exact hlocked u hu
    · rw [hbuf c hcb]
      exact h.locked u c ((hpcSame u c hcb).mp hu)
  · intro c hc
    by_cases hcb : c = b
    · subst hcb
      exact hgood
    · rw [hbuf c hcb] at hc ⊢
      have hne := hunique c hcb hc
      rw [htouched c hcb, hdisk _ hne, hstore _ hne]
      have hc' := h.good c hc
      exact ⟨hc'.invalid, hc'.clean,
        fun hvalid hnot => hc'.free hvalid (mt (howned c hcb).mpr hnot),
        fun ho => hc'.valid ((howned c hcb).mp ho), fun ht => (howned c hcb).mpr (hc'.inUse ht)⟩
  · intro n hn
    have hb : n ≠ (s'.buf b).blockno := fun heq => hn b hdev heq.symm
    rw [hdisk n hb, hstore n hb]
    by_cases hold : (s.buf b).dev = rootdev ∧ (s.buf b).blockno = n
    · obtain ⟨hdevb, rfl⟩ := hold
      exact hleft hdevb hb
    · refine h.absent n fun c hc heq => ?_
      by_cases hcb : c = b
      · subst hcb
        exact hold ⟨hc, heq⟩
      · have hc' := hn c (by rw [hbuf c hcb]; exact hc)
        rw [hbuf c hcb] at hc'
        exact hc' heq

theorem Coherent.reference (h : Coherent s store) {t : T} {b : Fin nbuf} (ht : s.pc t = .idle)
    (hdev : (s.buf b).dev = rootdev) :
    Coherent ((s.setBuf b { s.buf b with refcnt := (s.buf b).refcnt + 1 }).setPc t (.waiting b))
      store := by
  have hb : ((s.setBuf b { s.buf b with refcnt := (s.buf b).refcnt + 1 }).setPc t
      (.waiting b)).buf b = { s.buf b with refcnt := (s.buf b).refcnt + 1 } :=
    Function.update_self ..
  refine h.step b t (fun c hc => Function.update_of_ne hc _ _) rfl (fun _ _ => rfl) h.linked
    (fun c _ => target_ne_of_idle ht c) (fun c hc => some_ne hc) ?_ ?_ (fun _ _ => rfl)
    (fun _ _ => rfl) ?_ ?_ ?_ ?_
  · rw [hb]
    exact hdev
  · intro c hc hcdev heq
    rw [hb] at heq
    exact hc (h.unique c b hcdev hdev heq)
  · intro _ hne
    rw [hb] at hne
    exact absurd rfl hne
  · rw [hb, ht]
    simp [Pc.refers]
  · intro u hu
    rw [hb]
    exact h.locked u b (locked_of_update Pc.noConfusion hu).2
  · have hgood := h.good b hdev
    rw [hb]
    refine Good.congr ⟨hgood.invalid, hgood.clean, hgood.free, hgood.valid, hgood.inUse⟩ ?_
    exact owned_iff (by rw [hb]) rfl (by rw [ht]; exact Pc.noConfusion) Pc.noConfusion

theorem Coherent.recycle (h : Coherent s store) {t : T} {b : Fin nbuf} {n : Nat}
    (ht : s.pc t = .idle) (hrefcnt : (s.buf b).refcnt = 0) (hdirty : (s.buf b).dirty = false)
    (hmiss : ∀ c, ¬ ((s.buf c).dev = rootdev ∧ (s.buf c).blockno = n)) :
    Coherent ((s.setBuf b { s.buf b with
      dev := rootdev, blockno := n, valid := false, dirty := false, refcnt := 1 }).setPc t
        (.waiting b)) store := by
  have hb : ((s.setBuf b { s.buf b with
      dev := rootdev, blockno := n, valid := false, dirty := false, refcnt := 1 }).setPc t
        (.waiting b)).buf b = { s.buf b with
      dev := rootdev, blockno := n, valid := false, dirty := false, refcnt := 1 } :=
    Function.update_self ..
  have hnone : (s.buf b).holder = none := by
    cases hholder : (s.buf b).holder with
    | none => rfl
    | some u =>
      have hpos := h.refcnt_pos hholder
      omega
  have htouched : s.touched b = false := by
    by_cases hdev : (s.buf b).dev = rootdev
    · cases htouched : s.touched b with
      | false => rfl
      | true =>
        obtain ⟨u, hu, -⟩ := (h.good b hdev).inUse htouched
        rw [hnone] at hu
        cases hu
    · exact (h.fresh b hdev).2.2
  refine h.step b t (fun c hc => Function.update_of_ne hc _ _) rfl (fun _ _ => rfl) h.linked
    (fun c _ => target_ne_of_idle ht c) (fun c hc => some_ne hc) ?_ ?_ (fun _ _ => rfl)
    (fun _ _ => rfl) ?_ ?_ ?_ ?_
  · rw [hb]
  · intro c _ hcdev heq
    rw [hb] at heq
    exact hmiss c ⟨hcdev, heq⟩
  · intro hdev _
    exact h.disk_eq_of_unused hdev hrefcnt hdirty
  · rw [hb, ht, hrefcnt, hnone]
    simp [Pc.refers]
  · intro u hu
    have hholder := h.locked u b (locked_of_update Pc.noConfusion hu).2
    rw [hnone] at hholder
    cases hholder
  · have hfree : ¬ ((s.setBuf b { s.buf b with
        dev := rootdev, blockno := n, valid := false, dirty := false, refcnt := 1 }).setPc t
          (.waiting b)).Owned b := by
      rintro ⟨u, hu, -⟩
      rw [hb] at hu
      change (s.buf b).holder = some u at hu
      rw [hnone] at hu
      cases hu
    have habsent : s.disk n = store n :=
      h.absent n fun c hcdev heq => hmiss c ⟨hcdev, heq⟩
    rw [hb]
    refine ⟨fun _ => ⟨rfl, habsent⟩, fun hvalid => ?_, fun hvalid => ?_, fun ho => ?_, fun hu => ?_⟩
    · cases hvalid
    · cases hvalid
    · exact absurd ho hfree
    · change s.touched b = true at hu
      rw [htouched] at hu
      cases hu

theorem Coherent.bget (h : Coherent s store) {t : T} {n : Nat} (ht : s.pc t = .idle)
    (hstep : s.bget t rootdev n = .ok s') : Coherent s' store := by
  unfold State.bget at hstep
  split at hstep
  · rename_i b hfound
    cases Except.ok.inj hstep
    exact h.reference ht ((h.findCached rootdev n).1 b hfound).1
  · rename_i hmiss
    split at hstep
    · rename_i b hfound
      cases Except.ok.inj hstep
      obtain ⟨hrefcnt, hdirty⟩ := h.findUnused.1 b hfound
      exact h.recycle ht hrefcnt hdirty ((h.findCached rootdev n).2.mp hmiss)
    · cases hstep

theorem Coherent.acquiresleep (h : Coherent s store) {t : T} {b : Fin nbuf}
    (ht : s.pc t = .waiting b) (hnone : (s.buf b).holder = none) :
    Coherent ((s.setBuf b { s.buf b with holder := some t }).setPc t (.locked b)) store := by
  have hb : ((s.setBuf b { s.buf b with holder := some t }).setPc t (.locked b)).buf b =
      { s.buf b with holder := some t } := Function.update_self ..
  have hdev : (s.buf b).dev = rootdev := by
    refine h.dev_of_refcnt (h.refcnt_pos_of_refers (t := t) ?_)
    rw [ht]
    exact decide_eq_true rfl
  have hfree : ¬ s.Owned b := by
    rintro ⟨u, hu, -⟩
    rw [hnone] at hu
    cases hu
  have hfree' : ¬ ((s.setBuf b { s.buf b with holder := some t }).setPc t (.locked b)).Owned b := by
    rintro ⟨u, hu, hpc⟩
    rw [hb] at hu
    cases Option.some.inj hu
    exact hpc (Function.update_self ..)
  refine h.step b t (fun c hc => Function.update_of_ne hc _ _) rfl (fun _ _ => rfl) h.linked
    (fun c hc => ?_) (fun c hc => some_ne hc) ?_ ?_ (fun _ _ => rfl) (fun _ _ => rfl) ?_ ?_ ?_ ?_
  · rw [ht]
    exact some_ne hc
  · rw [hb]
    exact hdev
  · intro c hc hcdev heq
    rw [hb] at heq
    exact hc (h.unique c b hcdev hdev heq)
  · intro _ hne
    rw [hb] at hne
    exact absurd rfl hne
  · rw [hb, ht, hnone]
    simp [Pc.refers]
  · intro u hu
    rw [hb]
    by_cases hut : u = t
    · rw [hut]
    · change Function.update s.pc t (.locked b) u = .locked b at hu
      rw [Function.update_of_ne hut] at hu
      have hholder := h.locked u b hu
      rw [hnone] at hholder
      cases hholder
  · have hgood := h.good b hdev
    rw [hb]
    refine Good.congr ⟨hgood.invalid, hgood.clean, hgood.free, hgood.valid, hgood.inUse⟩ ?_
    exact iff_of_false hfree' hfree

theorem Coherent.give (h : Coherent s store) {t : T} {b : Fin nbuf} (data : D)
    (ht : s.pc t = .locked b)
    (hclean : (s.buf b).dirty = false → s.touched b = false →
      data = s.disk (s.buf b).blockno) :
    Coherent ((s.setBuf b { s.buf b with valid := true, data }).setPc t .idle) store := by
  have hb : ((s.setBuf b { s.buf b with valid := true, data }).setPc t .idle).buf b =
      { s.buf b with valid := true, data } := Function.update_self ..
  have hholder := h.locked t b ht
  have hdev : (s.buf b).dev = rootdev := h.dev_of_refcnt (h.refcnt_pos hholder)
  have howned : ((s.setBuf b { s.buf b with valid := true, data }).setPc t .idle).Owned b := by
    refine ⟨t, ?_, ?_⟩
    · rw [hb]
      exact hholder
    · change Function.update s.pc t .idle t ≠ .locked b
      rw [Function.update_self]
      exact Pc.noConfusion
  refine h.step b t (fun c hc => Function.update_of_ne hc _ _) rfl (fun _ _ => rfl) h.linked
    (fun c hc => ?_) (fun c _ => target_ne_of_idle rfl c) ?_ ?_ (fun _ _ => rfl) (fun _ _ => rfl)
    ?_ ?_ ?_ ?_
  · rw [ht]
    exact some_ne hc
  · rw [hb]
    exact hdev
  · intro c hc hcdev heq
    rw [hb] at heq
    exact hc (h.unique c b hcdev hdev heq)
  · intro _ hne
    rw [hb] at hne
    exact absurd rfl hne
  · rw [hb, ht]
    simp [Pc.refers]
  · intro u hu
    rw [hb]
    exact h.locked u b (locked_of_update Pc.noConfusion hu).2
  · rw [hb]
    refine ⟨fun hvalid => ?_, fun _ => hclean, fun _ hnot => absurd howned hnot, fun _ => rfl,
      fun _ => howned⟩
    cases hvalid

theorem Coherent.load (h : Coherent s store) {t : T} {b : Fin nbuf} {out : Out D}
    (ht : s.pc t = .locked b) (hstep : s.load t b = .ok (s', out)) :
    Coherent s' store ∧ out = .returned (s.buf b).blockno (store (s.buf b).blockno) := by
  have hholder := h.locked t b ht
  have hdev : (s.buf b).dev = rootdev := h.dev_of_refcnt (h.refcnt_pos hholder)
  have hgood := h.good b hdev
  have hfree : ¬ s.Owned b := by
    rintro ⟨u, hu, hpc⟩
    rw [hholder] at hu
    cases Option.some.inj hu
    exact hpc ht
  obtain ⟨s1, hload, heq⟩ := map_eq_ok.mp hstep
  cases heq
  cases hvalid : (s.buf b).valid with
  | true =>
    rw [hvalid, if_pos rfl] at hload
    cases Except.ok.inj hload
    have hgive := h.give (s.buf b).data ht (hgood.clean hvalid)
    have hsame : s.setBuf b { s.buf b with valid := true, data := (s.buf b).data } = s := by
      have hbuf : { s.buf b with valid := true, data := (s.buf b).data } = s.buf b := by
        rw [← hvalid]
      unfold State.setBuf
      rw [hbuf, Function.update_eq_self]
    rw [hsame] at hgive
    exact ⟨hgive, by rw [hgood.free hvalid hfree]⟩
  | false =>
    obtain ⟨hdirty, hdisk⟩ := hgood.invalid hvalid
    rw [hvalid, if_neg Bool.false_ne_true] at hload
    rw [iderw_read hvalid hdirty] at hload
    cases Except.ok.inj hload
    refine ⟨h.give _ ht fun _ _ => rfl, ?_⟩
    simp only [State.setBuf, Function.update_self]
    rw [hdisk]

theorem Coherent.own (h : Coherent s store) {t : T} {b : Fin nbuf} {x : Buf T D} {touched : Bool}
    (ht : s.pc t = .idle) (hholder : (s.buf b).holder = some t)
    (hbuf : s'.buf = Function.update s.buf b x)
    (htouched : s'.touched = Function.update s.touched b touched) (hlinks : s'.links = s.links)
    (hpc : s'.pc = s.pc) (hx : x = { s.buf b with valid := true, dirty := x.dirty, data := x.data })
    (hdisk : ∀ n, n ≠ (s.buf b).blockno → s'.disk n = s.disk n)
    (hclean : x.dirty = false → touched = false → x.data = s'.disk (s.buf b).blockno) :
    Coherent s' store := by
  have hdev : (s.buf b).dev = rootdev := h.dev_of_refcnt (h.refcnt_pos hholder)
  have hb : s'.buf b = x := by rw [hbuf, Function.update_self]
  have hblockno : x.blockno = (s.buf b).blockno := by rw [hx]
  have hholder' : x.holder = (s.buf b).holder := by rw [hx]
  have howned : s'.Owned b := by
    refine ⟨t, by rw [hb, hholder', hholder], ?_⟩
    rw [hpc, ht]
    exact Pc.noConfusion
  refine h.step b t (fun c hc => ?_) (hpc.trans (Function.update_eq_self t s.pc).symm)
    (fun c hc => ?_) ?_ (fun c _ => target_ne_of_idle ht c) (fun c _ => target_ne_of_idle ht c)
    ?_ ?_ ?_ (fun _ _ => rfl) ?_ ?_ ?_ ?_
  · rw [hbuf, Function.update_of_ne hc]
  · rw [htouched, Function.update_of_ne hc]
  · rw [hlinks]
    exact h.linked
  · rw [hb, hx]
    exact hdev
  · intro c hc hcdev heq
    rw [hb, hblockno] at heq
    exact hc (h.unique c b hcdev hdev heq)
  · intro n hn
    rw [hb, hblockno] at hn
    exact hdisk n hn
  · intro _ hne
    rw [hb, hblockno] at hne
    exact absurd rfl hne
  · rw [hb, hholder', hx]
  · intro u hu
    rw [hb, hholder']
    rw [hpc] at hu
    exact h.locked u b hu
  · have hvalid : x.valid = true := by rw [hx]
    rw [hb, htouched, Function.update_self, hblockno]
    refine ⟨fun hinvalid => ?_, fun _ => hclean, fun _ hnot => absurd howned hnot,
      fun _ => hvalid, fun _ => howned⟩
    rw [hvalid] at hinvalid
    cases hinvalid

theorem Coherent.modify (h : Coherent s store) {t : T} {b : Fin nbuf} (ht : s.pc t = .idle)
    (hholder : (s.buf b).holder = some t) (data : D) :
    Coherent ((s.setBuf b { s.buf b with data }).touch b true) store := by
  refine h.own ht hholder rfl rfl rfl rfl ?_ (fun _ _ => rfl) fun _ htouched => ?_
  · rw [← h.owned_valid ht hholder]
  · cases htouched

theorem Coherent.logWrite (h : Coherent s store) {t : T} {b : Fin nbuf} (ht : s.pc t = .idle)
    (hholder : (s.buf b).holder = some t) :
    Coherent ((s.setBuf b { s.buf b with dirty := true }).touch b false) store := by
  refine h.own ht hholder rfl rfl rfl rfl ?_ (fun _ _ => rfl) fun hdirty _ => ?_
  · rw [← h.owned_valid ht hholder]
  · cases hdirty

theorem Coherent.bwrite (h : Coherent s store) {t : T} {b : Fin nbuf} (ht : s.pc t = .idle)
    (hholder : (s.buf b).holder = some t) (hstep : s.bwrite t b = .ok s') :
    Coherent s' store := by
  unfold State.bwrite at hstep
  rw [if_neg (not_not.mpr hholder)] at hstep
  have hb : ((s.setBuf b { s.buf b with dirty := true }).touch b false).buf b =
      { s.buf b with dirty := true } := Function.update_self ..
  rw [iderw_write (by rw [hb]), hb] at hstep
  cases Except.ok.inj hstep
  have hbuf : Function.update (Function.update s.buf b { s.buf b with dirty := true }) b
      { s.buf b with valid := true, dirty := false } =
      Function.update s.buf b { s.buf b with valid := true, dirty := false } :=
    Function.update_idem ..
  exact h.own ht hholder hbuf rfl rfl rfl rfl (fun n hn => Function.update_of_ne hn _ _)
    fun _ _ => (Function.update_self (s.buf b).blockno (s.buf b).data s.disk).symm

theorem Coherent.brelse (h : Coherent s store) {t : T} {b : Fin nbuf} (ht : s.pc t = .idle)
    (hholder : (s.buf b).holder = some t) (htouched : s.touched b = false)
    (hstep : s.brelse t b = .ok s') :
    Coherent s' (Function.update store (s.buf b).blockno (s.buf b).data) := by
  unfold State.brelse at hstep
  rw [if_neg (not_not.mpr hholder)] at hstep
  cases Except.ok.inj hstep
  have hdev : (s.buf b).dev = rootdev := h.dev_of_refcnt (h.refcnt_pos hholder)
  have hb : ((s.setBuf b { s.buf b with holder := none }).setPc t (.releasing b)).buf b =
      { s.buf b with holder := none } := Function.update_self ..
  have hfree : ¬ ((s.setBuf b { s.buf b with holder := none }).setPc t (.releasing b)).Owned b := by
    rintro ⟨u, hu, -⟩
    rw [hb] at hu
    cases hu
  refine h.step b t (fun c hc => Function.update_of_ne hc _ _) rfl (fun _ _ => rfl) h.linked
    (fun c _ => target_ne_of_idle ht c) (fun c hc => some_ne hc) ?_ ?_ (fun _ _ => rfl) ?_ ?_ ?_ ?_
    ?_
  · rw [hb]
    exact hdev
  · intro c hc hcdev heq
    rw [hb] at heq
    exact hc (h.unique c b hcdev hdev heq)
  · intro n hn
    rw [hb] at hn
    exact Function.update_of_ne hn _ _
  · intro _ hne
    rw [hb] at hne
    exact absurd rfl hne
  · rw [hb, ht, hholder]
    simp [Pc.refers]
  · intro u hu
    obtain ⟨hut, hlocked⟩ := locked_of_update Pc.noConfusion hu
    have hsame := h.locked u b hlocked
    rw [hholder] at hsame
    exact absurd (Option.some.inj hsame).symm hut
  · have hvalid := h.owned_valid ht hholder
    have hgood := h.good b hdev
    rw [hb]
    refine ⟨fun hinvalid => ?_, hgood.clean, fun _ _ => ?_, fun ho => absurd ho hfree,
      fun htrue => ?_⟩
    · change (s.buf b).valid = false at hinvalid
      rw [hvalid] at hinvalid
      cases hinvalid
    · exact (Function.update_self (s.buf b).blockno (s.buf b).data store).symm
    · change s.touched b = true at htrue
      rw [htouched] at htrue
      cases htrue

theorem Coherent.unref (h : Coherent s store) {t : T} {b : Fin nbuf} (ht : s.pc t = .releasing b) :
    Coherent (s.unref t b) store := by
  have hpos : 0 < (s.buf b).refcnt := by
    refine h.refcnt_pos_of_refers (t := t) ?_
    rw [ht]
    exact decide_eq_true rfl
  have hdev : (s.buf b).dev = rootdev := h.dev_of_refcnt hpos
  have hlinked : ∃ l, Linked (s.unref t b).links l ∧ ∀ c, c ∈ l := by
    obtain ⟨l, hl, hall⟩ := h.linked
    unfold State.unref
    dsimp only
    split
    · obtain ⟨l₁, l₂, rfl⟩ := List.append_of_mem (hall b)
      have hb : b ∉ l₁ ++ l₂ := (List.nodup_middle.mp hl.nodup).notMem
      refine ⟨b :: (l₁ ++ l₂), hl.unlink.pushFront hb, fun c => ?_⟩
      have hc := hall c
      simp only [List.mem_append, List.mem_cons] at hc ⊢
      tauto
    · exact ⟨l, hl, hall⟩
  have hsame : (s.unref t b).buf =
        Function.update s.buf b { s.buf b with refcnt := (s.buf b).refcnt - 1 } ∧
      (s.unref t b).pc = Function.update s.pc t .idle ∧
      (s.unref t b).disk = s.disk ∧ (s.unref t b).touched = s.touched := by
    unfold State.unref
    dsimp only
    split
    · exact ⟨rfl, rfl, rfl, rfl⟩
    · exact ⟨rfl, rfl, rfl, rfl⟩
  obtain ⟨hbuf, hpc, hdisk, htouched⟩ := hsame
  have hb : (s.unref t b).buf b = { s.buf b with refcnt := (s.buf b).refcnt - 1 } := by
    rw [hbuf, Function.update_self]
  refine h.step b t (fun c hc => ?_) hpc (fun c _ => by rw [htouched]) hlinked (fun c hc => ?_)
    (fun c _ => target_ne_of_idle rfl c) ?_ ?_ (fun n _ => by rw [hdisk]) (fun _ _ => rfl) ?_ ?_ ?_
    ?_
  · rw [hbuf, Function.update_of_ne hc]
  · rw [ht]
    exact some_ne hc
  · rw [hb]
    exact hdev
  · intro c hc hcdev heq
    rw [hb] at heq
    exact hc (h.unique c b hcdev hdev heq)
  · intro _ hne
    rw [hb] at hne
    exact absurd rfl hne
  · rw [hb, ht]
    simp only [Pc.refers, decide_true, Bool.toNat_true, Bool.toNat_false]
    omega
  · intro u hu
    rw [hpc] at hu
    rw [hb]
    exact h.locked u b (locked_of_update Pc.noConfusion hu).2
  · have hgood := h.good b hdev
    rw [hb, hdisk, htouched]
    refine Good.congr ⟨hgood.invalid, hgood.clean, hgood.free, hgood.valid, hgood.inUse⟩ ?_
    exact owned_iff (by rw [hb]) hpc (by rw [ht]; exact Pc.noConfusion) Pc.noConfusion

end

end Xv6.Bio

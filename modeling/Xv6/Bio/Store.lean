import Xv6.Bio.Coherent

/-! The buffer cache as a flat block store: `brelse` writes the store and `bread` reads it. -/
namespace Xv6.Bio

open Fallible Transition DList

variable {T D : Type}

variable [Fintype T]

theorem coherent_binit (disk : Nat → D) (zero : D) :
    Coherent (binit disk zero : State T D) disk where
  linked := by
    have hempty : Linked (⟨fun _ => none, fun _ => none⟩ : Links (Fin nbuf)) [] :=
      ⟨List.nodup_nil, rfl, rfl⟩
    refine ⟨_, hempty.foldl_pushFront (List.finRange nbuf) ?_, fun b => ?_⟩
    · rw [List.append_nil, List.nodup_reverse]
      exact List.nodup_finRange nbuf
    · simp
  unique := by
    intro b c hb
    cases hb
  fresh := fun _ _ => ⟨rfl, rfl, rfl⟩
  refs := by
    intro b
    rw [Threads.count_eq_zero fun _ => rfl]
    rfl
  locked := by
    intro t b ht
    cases ht
  good := by
    intro b hb
    cases hb
  absent := fun _ _ => rfl

section

variable [DecidableEq T]

def asked (t : T) : List (State T D × Act T D × Out D) → Option Nat
  | [] => none
  | (_, .bread u n, _) :: trace => if u = t then some n else asked t trace
  | _ :: trace => asked t trace

def handedOut (b : Fin nbuf) : List (State T D × Act T D × Out D) → Option Nat
  | [] => none
  | (s, .load t, _) :: trace => if s.pc t = .locked b then asked t trace else handedOut b trace
  | _ :: trace => handedOut b trace

/-- A step of the flat store: `bread` returns what it has of the block that was asked for, and
`brelse` puts the data of a buffer there. -/
def Answers (trace : List (State T D × Act T D × Out D)) (store : Nat → D) (a : Act T D)
    (out : Out D) (store' : Nat → D) : Prop :=
  match a, out with
  | .load t, .returned n data => asked t trace = some n ∧ data = store n ∧ store' = store
  | .brelse _ b, .released n data =>
      handedOut b trace = some n ∧ store' = Function.update store n data
  | .load _, _ | .brelse _ _, _ => False
  | _, .silent => store' = store
  | _, _ => False

inductive Serves (disk : Nat → D) : List (State T D × Act T D × Out D) → (Nat → D) → Prop where
  | start : Serves disk [] disk
  | step {trace store store'} (s : State T D) (a : Act T D) (out : Out D) :
      Serves disk trace store → Answers trace store a out store' →
      Serves disk ((s, a, out) :: trace) store'

/-- Whoever is in `bread` has the buffer of the block that it asked for, and a buffer that was
handed out is still that of its block. -/
structure Told (trace : List (State T D × Act T D × Out D)) (s : State T D) : Prop where
  reading : ∀ t b, s.pc t = .waiting b ∨ s.pc t = .locked b →
    asked t trace = some (s.buf b).blockno
  holding : ∀ b, s.Owned b → handedOut b trace = some (s.buf b).blockno

omit [Fintype T] in
theorem told_binit (disk : Nat → D) (zero : D) : Told [] (binit disk zero : State T D) where
  reading := by
    rintro t b (hpc | hpc)
    · cases hpc
    · cases hpc
  holding := by
    rintro b ⟨t, hholder, -⟩
    cases hholder

variable {s s' : State T D} {store store' : Nat → D}

variable {trace : List (State T D × Act T D × Out D)}

theorem Coherent.perform (h : Coherent s store) (htold : Told trace s) {a : Act T D} {out : Out D}
    (henabled : s.Enabled a) (hstep : s.perform a = .ok (s', out)) :
    ∃ store', Answers trace store a out store' ∧ Coherent s' store' := by
  cases a with
  | bread t n =>
    obtain ⟨s1, hget, heq⟩ := map_eq_ok.mp hstep
    cases heq
    exact ⟨store, rfl, h.bget henabled hget⟩
  | acquiresleep t =>
    obtain ⟨b, hpc, hnone⟩ := henabled
    simp only [State.perform, hpc] at hstep
    cases Except.ok.inj hstep
    exact ⟨store, rfl, h.acquiresleep hpc hnone⟩
  | load t =>
    obtain ⟨b, hpc⟩ := henabled
    simp only [State.perform, hpc] at hstep
    obtain ⟨hcoherent, rfl⟩ := h.load hpc hstep
    exact ⟨store, ⟨htold.reading t b (.inr hpc), rfl, rfl⟩, hcoherent⟩
  | modify t b data =>
    cases Except.ok.inj hstep
    exact ⟨store, rfl, h.modify henabled.1 henabled.2 data⟩
  | logWrite t b =>
    cases Except.ok.inj hstep
    exact ⟨store, rfl, h.logWrite henabled.1 henabled.2⟩
  | bwrite t b =>
    obtain ⟨s1, hwrite, heq⟩ := map_eq_ok.mp hstep
    cases heq
    exact ⟨store, rfl, h.bwrite henabled.1 henabled.2 hwrite⟩
  | brelse t b =>
    obtain ⟨s1, hrelse, heq⟩ := map_eq_ok.mp hstep
    cases heq
    have howned : s.Owned b := ⟨t, henabled.2.1, by rw [henabled.1]; exact nofun⟩
    exact ⟨_, ⟨htold.holding b howned, rfl⟩,
      h.brelse henabled.1 henabled.2.1 henabled.2.2 hrelse⟩
  | unref t =>
    obtain ⟨b, hpc⟩ := henabled
    simp only [State.perform, hpc] at hstep
    cases Except.ok.inj hstep
    exact ⟨store, rfl, h.unref hpc⟩

/-- A block that is not cached when every buffer is referenced or dirty. -/
def State.Exhausted (s : State T D) : Act T D → Prop
  | .bread _ n => (∀ b, ¬ ((s.buf b).dev = rootdev ∧ (s.buf b).blockno = n)) ∧
      ∀ b, (s.buf b).refcnt ≠ 0 ∨ (s.buf b).dirty = true
  | _ => False

theorem Coherent.bget_total (h : Coherent s store) (t : T) (n : Nat) :
    (∃ r, s.perform (.bread t n) = .ok r) ↔ ¬ s.Exhausted (.bread t n) := by
  have hcached := (h.findCached rootdev n).2
  have hunused := h.findUnused.2
  simp only [State.perform, State.bget, State.Exhausted]
  cases hfound : s.findCached rootdev n with
  | some b =>
    refine iff_of_true ⟨_, rfl⟩ fun hnot => ?_
    rw [hcached.mpr hnot.1] at hfound
    cases hfound
  | none =>
    cases hspare : s.findUnused with
    | some b =>
      refine iff_of_true ⟨_, rfl⟩ fun hnot => ?_
      rw [hunused.mpr hnot.2] at hspare
      cases hspare
    | none =>
      refine iff_of_false ?_ (not_not.mpr ⟨hcached.mp hfound, hunused.mp hspare⟩)
      rintro ⟨r, hr⟩
      cases hr

theorem Coherent.total (h : Coherent s store) {a : Act T D} (henabled : s.Enabled a) :
    (∃ r, s.perform a = .ok r) ↔ ¬ s.Exhausted a := by
  cases a with
  | bread t n => exact h.bget_total t n
  | acquiresleep t =>
    obtain ⟨b, hpc, -⟩ := henabled
    refine iff_of_true ?_ id
    simp only [State.perform, hpc]
    exact ⟨_, rfl⟩
  | load t =>
    obtain ⟨b, hpc⟩ := henabled
    have hdev : (s.buf b).dev = rootdev := h.dev_of_refcnt (h.refcnt_pos (h.locked t b hpc))
    refine iff_of_true ?_ id
    simp only [State.perform, hpc, State.load]
    cases hvalid : (s.buf b).valid with
    | true => exact ⟨_, rfl⟩
    | false =>
      rw [if_neg Bool.false_ne_true, iderw_read hvalid ((h.good b hdev).invalid hvalid).1]
      exact ⟨_, rfl⟩
  | modify t b data => exact iff_of_true ⟨_, rfl⟩ id
  | logWrite t b => exact iff_of_true ⟨_, rfl⟩ id
  | bwrite t b =>
    refine iff_of_true ?_ id
    have hb : ((s.setBuf b { s.buf b with dirty := true }).touch b false).buf b =
        { s.buf b with dirty := true } := Function.update_self ..
    simp only [State.perform, State.bwrite]
    rw [if_neg (not_not.mpr henabled.2), iderw_write (by rw [hb])]
    exact ⟨_, rfl⟩
  | brelse t b =>
    refine iff_of_true ?_ id
    simp only [State.perform, State.brelse]
    rw [if_neg (not_not.mpr henabled.2.1)]
    exact ⟨_, rfl⟩
  | unref t =>
    obtain ⟨b, hpc⟩ := henabled
    refine iff_of_true ?_ id
    simp only [State.perform, hpc]
    exact ⟨_, rfl⟩

theorem Coherent.keeps_block (h : Coherent s store) {a : Act T D} {out : Out D}
    (hstep : s.perform a = .ok (s', out)) {b : Fin nbuf}
    (hbusy : (s.buf b).refcnt ≠ 0 ∨ (s.buf b).dirty = true) :
    (s'.buf b).dev = (s.buf b).dev ∧ (s'.buf b).blockno = (s.buf b).blockno := by
  have hset : ∀ {c : Fin nbuf} {x : Buf T D}, x.dev = (s.buf c).dev →
      x.blockno = (s.buf c).blockno →
      (Function.update s.buf c x b).dev = (s.buf b).dev ∧
        (Function.update s.buf c x b).blockno = (s.buf b).blockno := by
    intro c x hdev hblockno
    by_cases hbc : b = c
    · subst hbc
      rw [Function.update_self]
      exact ⟨hdev, hblockno⟩
    · rw [Function.update_of_ne hbc]
      exact ⟨rfl, rfl⟩
  cases a with
  | bread t n =>
    obtain ⟨s1, hget, heq⟩ := map_eq_ok.mp hstep
    cases heq
    unfold State.bget at hget
    split at hget
    · cases Except.ok.inj hget
      exact hset rfl rfl
    split at hget
    · rename_i c hfound
      cases Except.ok.inj hget
      obtain ⟨hrefcnt, hdirty⟩ := h.findUnused.1 c hfound
      have hbc : b ≠ c := by
        rintro rfl
        rcases hbusy with hne | htrue
        · exact hne hrefcnt
        · rw [hdirty] at htrue
          cases htrue
      have hsame : Function.update s.buf c { s.buf c with
          dev := rootdev, blockno := n, valid := false, dirty := false, refcnt := 1 } b = s.buf b :=
        Function.update_of_ne hbc _ _
      exact ⟨congrArg Buf.dev hsame, congrArg Buf.blockno hsame⟩
    · cases hget
  | acquiresleep t =>
    simp only [State.perform] at hstep
    split at hstep
    · cases Except.ok.inj hstep
      exact hset rfl rfl
    · cases Except.ok.inj hstep
      exact ⟨rfl, rfl⟩
  | load t =>
    simp only [State.perform] at hstep
    split at hstep
    · obtain ⟨s1, hload, heq⟩ := map_eq_ok.mp hstep
      cases heq
      split at hload
      · cases Except.ok.inj hload
        exact ⟨rfl, rfl⟩
      · unfold State.iderw at hload
        dsimp only at hload
        split at hload
        · cases hload
        split at hload
        · cases Except.ok.inj hload
          exact hset rfl rfl
        · cases Except.ok.inj hload
          exact hset rfl rfl
    · cases Except.ok.inj hstep
      exact ⟨rfl, rfl⟩
  | modify t c data =>
    cases Except.ok.inj hstep
    exact hset rfl rfl
  | logWrite t c =>
    cases Except.ok.inj hstep
    exact hset rfl rfl
  | bwrite t c =>
    obtain ⟨s1, hwrite, heq⟩ := map_eq_ok.mp hstep
    cases heq
    unfold State.bwrite at hwrite
    split at hwrite
    · cases hwrite
    · have hc : ((s.setBuf c { s.buf c with dirty := true }).touch c false).buf c =
          { s.buf c with dirty := true } := Function.update_self ..
      rw [iderw_write (by rw [hc]), hc] at hwrite
      cases Except.ok.inj hwrite
      have hidem : Function.update (Function.update s.buf c { s.buf c with dirty := true }) c
          { s.buf c with valid := true, dirty := false } =
          Function.update s.buf c { s.buf c with valid := true, dirty := false } :=
        Function.update_idem ..
      change (Function.update (Function.update s.buf c _) c _ b).dev = _ ∧
        (Function.update (Function.update s.buf c _) c _ b).blockno = _
      rw [hidem]
      exact hset rfl rfl
  | brelse t c =>
    obtain ⟨s1, hrelse, heq⟩ := map_eq_ok.mp hstep
    cases heq
    unfold State.brelse at hrelse
    split at hrelse
    · cases hrelse
    · cases Except.ok.inj hrelse
      exact hset rfl rfl
  | unref t =>
    simp only [State.perform] at hstep
    split at hstep
    · cases Except.ok.inj hstep
      unfold State.unref
      dsimp only
      split
      · exact hset rfl rfl
      · exact hset rfl rfl
    · cases Except.ok.inj hstep
      exact ⟨rfl, rfl⟩

/-- Who comes to be in `bread`, and which buffers come to be owned. -/
structure Steps (s : State T D) (a : Act T D) (s' : State T D) : Prop where
  reading : ∀ u b, s'.pc u = .waiting b ∨ s'.pc u = .locked b →
    (s.pc u = .waiting b ∨ s.pc u = .locked b) ∨ a = .bread u (s'.buf b).blockno
  owned : ∀ b, s'.Owned b → s.Owned b ∨ ∃ t, a = .load t ∧ s.pc t = .locked b

omit [Fintype T] in
theorem steps_of_update {a : Act T D} {c : Fin nbuf} {x : Buf T D} {t : T} {pc : Pc}
    (hbuf : s'.buf = Function.update s.buf c x) (hpc : s'.pc = Function.update s.pc t pc)
    (hreading : ∀ b, pc = .waiting b ∨ pc = .locked b →
      (s.pc t = .waiting b ∨ s.pc t = .locked b) ∨ a = .bread t (s'.buf b).blockno)
    (hlocked : ∀ b, s.pc t = .locked b → a = .load t)
    (hholder : ∀ u, x.holder = some u → (s.buf c).holder = some u ∨ u = t ∧ pc = .locked c) :
    Steps s a s' := by
  constructor
  · intro u b hu
    by_cases hut : u = t
    · subst hut
      rw [hpc, Function.update_self] at hu
      exact hreading b hu
    · rw [hpc, Function.update_of_ne hut] at hu
      exact .inl hu
  · rintro b ⟨u, hheld, hout⟩
    have hbefore : (s.buf b).holder = some u := by
      rw [hbuf] at hheld
      by_cases hb : b = c
      · subst hb
        rw [Function.update_self] at hheld
        rcases hholder u hheld with hsame | ⟨rfl, hnow⟩
        · exact hsame
        · exact absurd (by rw [hpc, Function.update_self, hnow]) hout
      · rwa [Function.update_of_ne hb] at hheld
    by_cases hu : s.pc u = .locked b
    · have hut : u = t := by
        by_contra hut
        rw [hpc, Function.update_of_ne hut] at hout
        exact hout hu
      subst hut
      exact .inr ⟨u, hlocked b hu, hu⟩
    · exact .inl ⟨u, hbefore, hu⟩

omit [Fintype T] in
/-- A step of a process outside of `bread` that does not bring it there. -/
theorem steps_of_idle {a : Act T D} {c : Fin nbuf} {x : Buf T D} {t : T} {pc : Pc}
    (hbuf : s'.buf = Function.update s.buf c x) (hpc : s'.pc = Function.update s.pc t pc)
    (hbefore : ∀ b, s.pc t ≠ .locked b) (hafter : ∀ b, pc ≠ .waiting b ∧ pc ≠ .locked b)
    (hholder : ∀ u, x.holder = some u → (s.buf c).holder = some u) : Steps s a s' :=
  steps_of_update hbuf hpc (fun b hb => absurd hb (not_or.mpr (hafter b)))
    (fun b hb => absurd hb (hbefore b)) fun u hu => .inl (hholder u hu)

theorem Coherent.steps (h : Coherent s store) {a : Act T D} {out : Out D}
    (henabled : s.Enabled a) (hstep : s.perform a = .ok (s', out)) : Steps s a s' := by
  have hstay : ∀ t, s.pc = Function.update s.pc t (s.pc t) := by
    intro t
    rw [Function.update_eq_self]
  have hidle : ∀ {t : T}, s.pc t = .idle → ∀ b, s.pc t ≠ .waiting b ∧ s.pc t ≠ .locked b := by
    intro t ht b
    rw [ht]
    exact ⟨nofun, nofun⟩
  cases a with
  | bread t n =>
    obtain ⟨s1, hget, heq⟩ := map_eq_ok.mp hstep
    cases heq
    have hreading : ∀ c b, Pc.waiting c = .waiting b ∨ Pc.waiting c = .locked b → b = c := by
      rintro c b (hb | hb)
      · exact (Pc.waiting.inj hb).symm
      · cases hb
    unfold State.bget at hget
    split at hget
    · rename_i c hfound
      cases Except.ok.inj hget
      refine steps_of_update rfl rfl (fun b hb => .inr ?_)
        (fun b hb => absurd hb (hidle henabled b).2) fun u hu => .inl hu
      obtain rfl := hreading c b hb
      change _ = Act.bread t (Function.update s.buf b _ b).blockno
      rw [Function.update_self, ((h.findCached rootdev n).1 b hfound).2]
    split at hget
    · rename_i c _
      cases Except.ok.inj hget
      refine steps_of_update rfl rfl (fun b hb => .inr ?_)
        (fun b hb => absurd hb (hidle henabled b).2) fun u hu => .inl hu
      obtain rfl := hreading c b hb
      change _ = Act.bread t (Function.update s.buf b _ b).blockno
      rw [Function.update_self]
    · cases hget
  | acquiresleep t =>
    obtain ⟨b, hpc, -⟩ := henabled
    simp only [State.perform, hpc] at hstep
    cases Except.ok.inj hstep
    refine steps_of_update rfl rfl (fun c hc => ?_) (fun c hc => ?_) fun u hu => ?_
    · rcases hc with hc | hc
      · cases hc
      · exact .inl (.inl (hpc.trans (congrArg Pc.waiting (Pc.locked.inj hc))))
    · rw [hpc] at hc
      cases hc
    · exact .inr ⟨(Option.some.inj hu).symm, rfl⟩
  | load t =>
    obtain ⟨b, hpc⟩ := henabled
    simp only [State.perform, hpc] at hstep
    obtain ⟨s1, hread, heq⟩ := map_eq_ok.mp hstep
    cases heq
    have hread : ∃ x, s1.buf = Function.update s.buf b x ∧ x.holder = (s.buf b).holder ∧
        s1.pc = s.pc := by
      split at hread
      · cases Except.ok.inj hread
        exact ⟨s.buf b, (Function.update_eq_self b s.buf).symm, rfl, rfl⟩
      · unfold State.iderw at hread
        dsimp only at hread
        split at hread
        · cases hread
        split at hread
        · cases Except.ok.inj hread
          exact ⟨_, rfl, rfl, rfl⟩
        · cases Except.ok.inj hread
          exact ⟨_, rfl, rfl, rfl⟩
    obtain ⟨x, hbuf, hholder, hsame⟩ := hread
    refine steps_of_update hbuf (show Function.update s1.pc t .idle = _ by rw [hsame])
      (fun c hc => ?_) (fun _ _ => rfl) fun u hu => .inl (hholder ▸ hu)
    rcases hc with hc | hc
    · cases hc
    · cases hc
  | modify t b data =>
    cases Except.ok.inj hstep
    exact steps_of_idle rfl (hstay t) (fun c => (hidle henabled.1 c).2) (hidle henabled.1)
      fun _ => id
  | logWrite t b =>
    cases Except.ok.inj hstep
    exact steps_of_idle rfl (hstay t) (fun c => (hidle henabled.1 c).2) (hidle henabled.1)
      fun _ => id
  | bwrite t b =>
    obtain ⟨s1, hwrite, heq⟩ := map_eq_ok.mp hstep
    cases heq
    rw [State.bwrite, if_neg (not_not.mpr henabled.2)] at hwrite
    have hb : ((s.setBuf b { s.buf b with dirty := true }).touch b false).buf b =
        { s.buf b with dirty := true } := Function.update_self ..
    rw [iderw_write (by rw [hb]), hb] at hwrite
    cases Except.ok.inj hwrite
    exact steps_of_idle (Function.update_idem ..) (hstay t) (fun c => (hidle henabled.1 c).2)
      (hidle henabled.1) fun _ => id
  | brelse t b =>
    obtain ⟨s1, hrelse, heq⟩ := map_eq_ok.mp hstep
    cases heq
    rw [State.brelse, if_neg (not_not.mpr henabled.2.1)] at hrelse
    cases Except.ok.inj hrelse
    exact steps_of_idle rfl rfl (fun c => (hidle henabled.1 c).2) (fun _ => ⟨nofun, nofun⟩)
      (fun _ hu => nomatch hu)
  | unref t =>
    obtain ⟨b, hpc⟩ := henabled
    simp only [State.perform, hpc] at hstep
    cases Except.ok.inj hstep
    have hlinks : (s.unref t b).buf =
        Function.update s.buf b { s.buf b with refcnt := (s.buf b).refcnt - 1 } ∧
        (s.unref t b).pc = Function.update s.pc t .idle := by
      unfold State.unref
      dsimp only
      split
      · exact ⟨rfl, rfl⟩
      · exact ⟨rfl, rfl⟩
    exact steps_of_idle hlinks.1 hlinks.2 (fun c => by rw [hpc]; exact nofun)
      (fun _ => ⟨nofun, nofun⟩) fun _ => id

omit [Fintype T] in
theorem asked_cons {a : Act T D} {u : T} (out : Out D) (h : ∀ n, a ≠ .bread u n) :
    asked u ((s, a, out) :: trace) = asked u trace := by
  cases a with
  | bread t n => exact if_neg fun heq => h n (by rw [heq])
  | _ => rfl

omit [Fintype T] in
theorem handedOut_cons {a : Act T D} {b : Fin nbuf} (out : Out D)
    (h : ∀ t, a = .load t → s.pc t ≠ .locked b) :
    handedOut b ((s, a, out) :: trace) = handedOut b trace := by
  cases a with
  | load t => exact if_neg (h t rfl)
  | _ => rfl

theorem Told.step (h : Told trace s) (hc : Coherent s store) {a : Act T D} {out : Out D}
    (henabled : s.Enabled a) (hstep : s.perform a = .ok (s', out)) :
    Told ((s, a, out) :: trace) s' := by
  have hsteps := hc.steps henabled hstep
  have hkept : ∀ b, 0 < (s.buf b).refcnt → (s'.buf b).blockno = (s.buf b).blockno :=
    fun b hb => (hc.keeps_block hstep (.inl hb.ne')).2
  constructor
  · intro u b hu
    rcases hsteps.reading u b hu with hbefore | rfl
    · have hbusy : 0 < (s.buf b).refcnt := by
        rcases hbefore with hwaits | hlocked
        · exact hc.refcnt_pos_of_refers (t := u) (by rw [hwaits]; exact decide_eq_true rfl)
        · exact hc.refcnt_pos (hc.locked u b hlocked)
      rw [hkept b hbusy, ← h.reading u b hbefore]
      apply asked_cons
      rintro n rfl
      rw [show s.pc u = .idle from henabled] at hbefore
      rcases hbefore with hbefore | hbefore
      · cases hbefore
      · cases hbefore
    · exact if_pos rfl
  · intro b hb
    rcases hsteps.owned b hb with ⟨u, hheld, hout⟩ | ⟨t, rfl, ht⟩
    · rw [hkept b (hc.refcnt_pos hheld), ← h.holding b ⟨u, hheld, hout⟩]
      apply handedOut_cons
      rintro t rfl ht
      have hholder := hc.locked t b ht
      rw [hheld] at hholder
      cases Option.some.inj hholder
      exact hout ht
    · rw [hkept b (hc.refcnt_pos (hc.locked t b ht)), handedOut, if_pos ht]
      exact h.reading t b (.inr ht)

theorem serves_run {disk : Nat → D} {zero : D}
    (run : Run State.perform State.Enabled (binit disk zero) trace s) :
    ∃ store, Serves disk trace store ∧ Coherent s store ∧ Told trace s := by
  refine run.invariant (fun trace s => ∃ store, Serves disk trace store ∧ Coherent s store ∧
    Told trace s) ⟨disk, .start, coherent_binit disk zero, told_binit disk zero⟩ ?_
  rintro trace s a s' out ⟨store, hserves, hcoherent, htold⟩ henabled hstep
  obtain ⟨store', hanswer, hcoherent'⟩ := hcoherent.perform htold henabled hstep
  exact ⟨store', hserves.step s a out hanswer, hcoherent', htold.step hcoherent henabled hstep⟩

/-- The buffer cache is a flat block store in every run of any number of processes: a block is
in at most one buffer, the list is one of all buffers, no referenced or dirty buffer is
recycled, the answers are those of the store for the block that was asked for, whose buffer is
the one that is waited for, and the machine stops only in a `bget` for which no buffer is left. -/
theorem cache_refines {disk : Nat → D} {zero : D}
    (run : Run State.perform State.Enabled (binit disk zero) trace s) :
    (∀ b c, (s.buf b).dev = rootdev → (s.buf c).dev = rootdev →
        (s.buf b).blockno = (s.buf c).blockno → b = c) ∧
      (∃ l, Linked s.links l ∧ l.Perm (List.finRange nbuf)) ∧
      (∀ a s' out, s.perform a = .ok (s', out) → ∀ b,
        (s.buf b).refcnt ≠ 0 ∨ (s.buf b).dirty = true →
        (s'.buf b).dev = (s.buf b).dev ∧ (s'.buf b).blockno = (s.buf b).blockno) ∧
      (∃ store, Serves disk trace store) ∧
      (∀ t b, s.pc t = .waiting b ∨ s.pc t = .locked b →
        asked t trace = some (s.buf b).blockno) ∧
      (∀ b, s.Owned b → handedOut b trace = some (s.buf b).blockno) ∧
      ∀ a, s.Enabled a → ((∃ r, s.perform a = .ok r) ↔ ¬ s.Exhausted a) := by
  obtain ⟨store, hserves, hcoherent, htold⟩ := serves_run run
  obtain ⟨l, hlinked, hall⟩ := hcoherent.linked
  refine ⟨hcoherent.unique, ⟨l, hlinked, ?_⟩, fun a s' out hstep b => hcoherent.keeps_block hstep,
    ⟨store, hserves⟩, htold.reading, htold.holding, fun a => hcoherent.total⟩
  refine (List.perm_ext_iff_of_nodup hlinked.nodup (List.nodup_finRange nbuf)).mpr fun b => ?_
  exact iff_of_true (hall b) (List.mem_finRange b)

end

/-- A block modified and logged by one process and read by another, which waits for it. -/
theorem cache_refines_logged :
    ∃ (trace : List (State (Fin 2) Nat × Act (Fin 2) Nat × Out Nat)) (s : State (Fin 2) Nat),
      Run State.perform State.Enabled (binit (fun n => n) 0) trace s ∧
      trace.map (fun step => step.2.2) = [.returned 5 99, .silent, .silent, .released 5 99,
        .silent, .silent, .silent, .returned 5 5, .silent, .silent] ∧
      (∃ store, Serves (fun n => n) trace store) ∧
      ∀ b, s.Owned b → handedOut b trace = some (s.buf b).blockno := by
  obtain ⟨trace, s, run, htest⟩ := exists_run State.perform State.Enabled
    (binit (fun n => n) 0 : State (Fin 2) Nat)
    [.bread 0 5, .acquiresleep 0, .load 0, .modify 0 0 99, .bread 1 5, .logWrite 0 0, .brelse 0 0,
      .acquiresleep 1, .unref 0, .load 1]
    (fun trace _ => decide (trace.map (fun step => step.2.2) = [.returned 5 99, .silent, .silent,
      .released 5 99, .silent, .silent, .silent, .returned 5 5, .silent, .silent]))
    (by decide +kernel)
  obtain ⟨-, -, -, hserves, -, hholding, -⟩ := cache_refines run
  exact ⟨trace, s, run, of_decide_eq_true htest, hserves, hholding⟩

/-- A buffer counts the processes that use it, and what no process has is as in the store, in
its buffer or else on the disk. -/
theorem cache_exact [DecidableEq T] {s : State T D} {disk : Nat → D} {zero : D}
    {trace : List (State T D × Act T D × Out D)}
    (run : Run State.perform State.Enabled (binit disk zero) trace s) :
    (∀ b, (s.buf b).refcnt =
        Threads.count s.pc (Pc.refers b) + (s.buf b).holder.isSome.toNat) ∧
      ∃ store, Serves disk trace store ∧
        (∀ b, (s.buf b).dev = rootdev → (s.buf b).valid = true → ¬ s.Owned b →
          (s.buf b).data = store (s.buf b).blockno) ∧
        ∀ n, (∀ b, (s.buf b).dev = rootdev → (s.buf b).blockno ≠ n) → s.disk n = store n := by
  obtain ⟨store, hserves, hcoherent, -⟩ := serves_run run
  exact ⟨hcoherent.refs, store, hserves, fun b hdev => (hcoherent.good b hdev).free,
    hcoherent.absent⟩

/-- One process has the buffer of a block and another waits for it. -/
theorem cache_exact_shared : ∃ (trace : List (State (Fin 2) Nat × Act (Fin 2) Nat × Out Nat))
    (s : State (Fin 2) Nat), Run State.perform State.Enabled (binit (fun n => n) 0) trace s ∧
      2 = Threads.count s.pc (Pc.refers 0) + (s.buf 0).holder.isSome.toNat := by
  obtain ⟨trace, s, run, htest⟩ := exists_run State.perform State.Enabled
    (binit (fun n => n) 0 : State (Fin 2) Nat)
    [.bread 0 5, .acquiresleep 0, .load 0, .bread 1 5]
    (fun _ s => decide ((s.buf 0).refcnt = 2)) (by decide +kernel)
  exact ⟨trace, s, run, (of_decide_eq_true htest).symm.trans ((cache_exact run).1 0)⟩

end Xv6.Bio

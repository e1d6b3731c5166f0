import Xv6.Param
import Xv6.Lib.Fallible
import Mathlib.Data.Finset.Card

/-! The user half of a page directory (`vm.c`). A page is named by its virtual
page number. What the kernel reads of an entry is its presence, `PTE_P`, and
whether user code may touch it, `PTE_U`; a page table exists once its directory
entry is present. `tables` lists these, `pages` the pages with `PTE_P` and `guards`
those that lost `PTE_U`. Frames are counted, not named: no modelled function
depends on which frame `kalloc` hands out. -/
namespace Xv6

open Word Fallible

structure PageDir where
  tables : Finset Nat
  pages : Finset Nat
  guards : Finset Nat
  deriving DecidableEq

def PageDir.empty : PageDir := ⟨∅, ∅, ∅⟩

structure Space where
  dir : PageDir
  free : Nat

/-- The kernel part is the same in every directory: the direct map of `PHYSTOP`
bytes at `KERNBASE`, and the devices from `DEVSPACE` on. -/
def KernelMapped (page : Nat) : Prop :=
  kernpage ≤ page ∧ (page < kernpage + 57344 ∨ 1040384 ≤ page)

instance (page : Nat) : Decidable (KernelMapped page) := inferInstanceAs (Decidable (_ ∧ _))

def PageDir.Present (dir : PageDir) (page : Nat) : Prop :=
  page < kernpage ∧ page ∈ dir.pages ∨ KernelMapped page

instance (dir : PageDir) (page : Nat) : Decidable (dir.Present page) :=
  inferInstanceAs (Decidable (_ ∨ _))

def PageDir.HasEntry (dir : PageDir) (page : Nat) : Prop :=
  page < kernpage ∧ page / nptentries ∈ dir.tables ∨ KernelMapped page

instance (dir : PageDir) (page : Nat) : Decidable (dir.HasEntry page) :=
  inferInstanceAs (Decidable (_ ∨ _))

def PageDir.User (dir : PageDir) (page : Nat) : Prop :=
  page < kernpage ∧ page ∈ dir.pages ∧ page ∉ dir.guards

instance (dir : PageDir) (page : Nat) : Decidable (dir.User page) :=
  inferInstanceAs (Decidable (_ ∧ _ ∧ _))

def kalloc (space : Space) : Option Space :=
  if space.free = 0 then none else some { space with free := space.free - 1 }

def kfree (space : Space) : Space := { space with free := space.free + 1 }

/-- `walkpgdir(pgdir, va, 1)` for a user page; `HasEntry` is the lookup without
allocation. A missing page table takes a frame. -/
def walkpgdir (space : Space) (page : Nat) : Option Space :=
  if page / nptentries ∈ space.dir.tables then some space
  else (kalloc space).map fun s =>
    { s with dir := { s.dir with tables := insert (page / nptentries) s.dir.tables } }

def mappages (space : Space) (page : Nat) (user : Bool) : Except Fault (Option Space) :=
  match walkpgdir space page with
  | none => .ok none
  | some s =>
      if page ∈ s.dir.pages then .error .remap
      else .ok (some { s with dir := { s.dir with
        pages := insert page s.dir.pages
        guards := if user then s.dir.guards.erase page else insert page s.dir.guards } })

/-- The loop of `deallocuvm` from page `page` up to byte `oldsz`. A directory entry
that is not present skips the rest of its 1024 pages. -/
def deallocLoop (space : Space) (page oldsz : Nat) : Nat → Except Fault Space
  | 0 => .ok space
  | fuel + 1 =>
      if page * pgsize < oldsz then
        if KernelMapped page then .error .kernelPage
        else if page / nptentries ∉ space.dir.tables then
          deallocLoop space ((page / nptentries + 1) * nptentries) oldsz fuel
        else if page ∈ space.dir.pages then
          deallocLoop { dir := { space.dir with pages := space.dir.pages.erase page },
                        free := space.free + 1 } (page + 1) oldsz fuel
        else deallocLoop space (page + 1) oldsz fuel
      else .ok space

def deallocuvm (space : Space) (oldsz newsz : Nat) : Except Fault (Space × Nat) :=
  if oldsz ≤ newsz then .ok (space, oldsz)
  else (deallocLoop space (pgroundup newsz / pgsize) oldsz (oldsz / pgsize + 1)).map
    fun s => (s, newsz)

theorem deallocuvm_result {s s' : Space} {oldsz newsz r : Nat}
    (h : deallocuvm s oldsz newsz = .ok (s', r)) : r = min oldsz newsz := by
  unfold deallocuvm at h
  split at h
  · cases Except.ok.inj h
    omega
  · obtain ⟨s1, -, heq⟩ := map_eq_ok.mp h
    cases heq
    omega

/-- The loop of `allocuvm`. The second component is false when memory ran out; the
frame taken for a page that could not be mapped has been given back. -/
def allocLoop (space : Space) (page newsz : Nat) : Nat → Except Fault (Space × Bool)
  | 0 => .ok (space, true)
  | fuel + 1 =>
      if page * pgsize < newsz then
        match kalloc space with
        | none => .ok (space, false)
        | some s =>
            match mappages s page true with
            | .error fault => .error fault
            | .ok none => .ok (kfree s, false)
            | .ok (some s') => allocLoop s' (page + 1) newsz fuel
      else .ok (space, true)

def allocuvm (space : Space) (oldsz newsz : Nat) : Except Fault (Space × Nat) :=
  if kernbase ≤ newsz then .ok (space, 0)
  else if newsz < oldsz then .ok (space, oldsz)
  else
    match allocLoop space (pgroundup oldsz / pgsize) newsz (newsz / pgsize + 1) with
    | .error fault => .error fault
    | .ok (s, true) => .ok (s, newsz)
    | .ok (s, false) => (deallocuvm s newsz oldsz).map fun result => (result.1, 0)

def setupkvm (free : Nat) : Option Space :=
  if free < kvmFrames then none else some ⟨.empty, free - kvmFrames⟩

def freevm (space : Space) : Except Fault Nat :=
  (deallocuvm space kernbase 0).map fun result =>
    result.1.free + result.1.dir.tables.card + kvmFrames

/-- `clearpteu`; clearing a flag of an entry that is zero leaves it zero. -/
def clearpteu (space : Space) (page : Nat) : Except Fault Space :=
  if ¬ space.dir.HasEntry page then .error .clearpteu
  else if page < kernpage ∧ page ∈ space.dir.pages then
    .ok { space with dir := { space.dir with guards := insert page space.dir.guards } }
  else .ok space

def copyLoop (parent : PageDir) (child : Space) (page sz : Nat) :
    Nat → Except Fault (Space × Bool)
  | 0 => .ok (child, true)
  | fuel + 1 =>
      if page * pgsize < sz then
        if ¬ parent.HasEntry page then .error .copyuvmPte
        else if ¬ parent.Present page then .error .copyuvmPage
        else
          match kalloc child with
          | none => .ok (child, false)
          | some s =>
              if kernpage ≤ page then .error .remap
              else
                match mappages s page (decide (page ∉ parent.guards)) with
                | .error fault => .error fault
                | .ok none => .ok (kfree s, false)
                | .ok (some s') => copyLoop parent s' (page + 1) sz fuel
      else .ok (child, true)

def copyuvm (parent : PageDir) (free sz : Nat) : Except Fault (Option PageDir × Nat) :=
  match setupkvm free with
  | none => .ok (none, free)
  | some fresh =>
      match copyLoop parent fresh 0 sz (sz / pgsize + 1) with
      | .error fault => .error fault
      | .ok (s, true) => .ok (some s.dir, s.free)
      | .ok (s, false) => (freevm s).map fun left => (none, left)

/-- Do all pages of `[va, va + len)` pass the tests of `uva2ka` in `copyout`? A page
without a directory entry makes `uva2ka` read through a null pointer. -/
def copyoutLoop (dir : PageDir) (page : Nat) : Nat → Except Fault Bool
  | 0 => .ok true
  | count + 1 =>
      if ¬ dir.HasEntry page then .error .nullPointer
      else if dir.User page then copyoutLoop dir (page + 1) count
      else .ok false

def copyout (dir : PageDir) (va len : Nat) : Except Fault Bool :=
  copyoutLoop dir (va / pgsize) ((va % pgsize + len + (pgsize - 1)) / pgsize)

end Xv6

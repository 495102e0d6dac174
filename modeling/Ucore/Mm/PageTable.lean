import Ucore.Lib.Comp
import Ucore.Libs.Error

set_option autoImplicit false

/-!
# Page tables (`lab8/kern/mm/pmm.c`)

The functions on three-level page tables, over a physical memory of frames with 512 words each. A
page directory and the tables below it are frames like those that are mapped; nothing in the memory
says which is which. The page allocator is any that hands out frames which it has to give.

## Main definitions

* `pteCreate`, `ptePpn` — page table entries.
* `FrameAllocator` — what is assumed of `alloc_page` and `free_page`.
* `PmState` — the memory, the reference counts and the allocator.
* `getPte`, `getPage`, `pageInsert`, `pageRemove`, `pgdirAllocPage`,
  `unmapRange`, `copyRange` — the functions of the source.
-/

namespace Ucore

open Function

/-! ## Addresses and entries (`mmu.h`, `memlayout.h`) -/

/-- `PGSIZE` -/
def pgSize : ℕ := 4096

/-- `PTSIZE` -/
def ptSize : ℕ := 2 ^ 21

/-- `PDSIZE` -/
def pdSize : ℕ := 2 ^ 30

/-- `USERBASE` -/
def userBase : ℕ := 0x200000

/-- `USERTOP` -/
def userTop : ℕ := 0x80000000

/-- `PDX1` -/
def pdx1 (la : ℕ) : ℕ := la / 2 ^ 30 % 512

/-- `PDX0` -/
def pdx0 (la : ℕ) : ℕ := la / 2 ^ 21 % 512

/-- `PTX` -/
def ptx (la : ℕ) : ℕ := la / 2 ^ 12 % 512

/-- `ROUNDDOWN` -/
def roundDown (a n : ℕ) : ℕ := a - a % n

/-- `USER_ACCESS` -/
def UserAccess (s e : ℕ) : Prop := userBase ≤ s ∧ s < e ∧ e ≤ userTop

instance (s e : ℕ) : Decidable (UserAccess s e) := inferInstanceAs (Decidable (_ ∧ _ ∧ _))

/-- `PTE_V` -/
def pteV : BitVec 10 := 0x001

/-- `PTE_W` -/
def pteW : BitVec 10 := 0x004

/-- `PTE_U` -/
def pteU : BitVec 10 := 0x010

/-- `PTE_USER` -/
def pteUser : BitVec 10 := 0x01f

/-- `pte_create` -/
def pteCreate (ppn : ℕ) (type : BitVec 10) : BitVec 64 :=
  (BitVec.ofNat 64 ppn <<< 10) ||| (pteV ||| type).setWidth 64

/-- `*ptep & PTE_V` -/
def pteValid (pte : BitVec 64) : Bool := pte.getLsbD 0

/-- `PPN(PTE_ADDR(pte))`, the frame of an entry. -/
def ptePpn (pte : BitVec 64) : ℕ := (((pte &&& ~~~0x3ff#64) <<< 2) >>> 12).toNat

/-- The flags of an entry. -/
def pteFlags (pte : BitVec 64) : BitVec 10 := pte.setWidth 10

/-! ## The state -/

/-- **A page allocator**: the frames that are free in each of its states, and what `alloc_page` and
`free_page` do to them. `alloc_page` may fail. -/
structure FrameAllocator (A : Type) where
  free : A → Finset ℕ
  alloc : A → Option (ℕ × A)
  release : ℕ → A → A
  npage : ℕ
  npage_le : npage ≤ 2 ^ 44
  lt_npage : ∀ a p, p ∈ free a → p < npage
  alloc_free : ∀ a p a', alloc a = some (p, a') → p ∈ free a ∧ free a' = (free a).erase p
  release_free : ∀ a p, p < npage → p ∉ free a → free (release p a) = insert p (free a)

/-- The words of the frames, the reference counts of the frames, the allocator, and the calls of
`free_page` so far, each with the words of the frame at that time. -/
structure PmState (A : Type) where
  mem : ℕ → ℕ → BitVec 64
  ref : ℕ → ℤ
  alloc : A
  freed : List (ℕ × (ℕ → BitVec 64))

/-- Failed assertions, and a loop that does not end. -/
inductive PtPanic
  /-- `assert(start % PGSIZE == 0 && end % PGSIZE == 0)` -/
  | unaligned
  /-- `assert(USER_ACCESS(start, end))` -/
  | notUser
  /-- `assert(npage != NULL)` in `copy_range` -/
  | noPage
  /-- `assert(ret == 0)` in `copy_range` -/
  | notInserted
  /-- `assert(page_ref(page) == 1)` in `pgdir_alloc_page` -/
  | refCount
  /-- a loop that does not end -/
  | diverges
  deriving DecidableEq

/-- Computations on page tables. -/
abbrev Pt (A : Type) := Comp PtPanic (PmState A)

namespace PmState

variable {A : Type}

/-- Write an entry. -/
def setEntry (s : PmState A) (f k : ℕ) (w : BitVec 64) : PmState A :=
  { s with mem := update s.mem f (update (s.mem f) k w) }

/-- Write a whole frame. -/
def setFrame (s : PmState A) (f : ℕ) (words : ℕ → BitVec 64) : PmState A :=
  { s with mem := update s.mem f words }

/-- `set_page_ref` -/
def setRef (s : PmState A) (p : ℕ) (n : ℤ) : PmState A := { s with ref := update s.ref p n }

/-- The state after `free_page`. -/
def release (al : FrameAllocator A) (s : PmState A) (p : ℕ) : PmState A :=
  { s with ref := update s.ref p 0, alloc := al.release p s.alloc,
           freed := s.freed ++ [(p, s.mem p)] }

end PmState

section Functions

variable {A : Type} (al : FrameAllocator A)

/-! ## The functions -/

/-- `alloc_page` -/
def allocPage : Pt A (Option ℕ) := do
  let s ← Comp.read
  match al.alloc s.alloc with
  | some (p, a) => do
    Comp.modify fun s => { s with alloc := a }
    pure (some p)
  | none => pure none

/-- `free_page` -/
def freePage (p : ℕ) : Pt A Unit := Comp.modify fun s => s.release al p

/-- One level of `get_pte`: the table to which the entry `k` of the frame `f` points. If there is
none and `create` holds, a frame is allocated for it. -/
def getTable (f k : ℕ) (create : Bool) : Pt A (Option ℕ) := do
  let s ← Comp.read
  if pteValid (s.mem f k) then pure (some (ptePpn (s.mem f k)))
  else if create then do
    let page ← allocPage al
    match page with
    | none => pure none
    | some p => do
      Comp.modify fun s =>
        ((s.setRef p 1).setFrame p fun _ => 0).setEntry f k (pteCreate p (pteU ||| pteV))
      pure (some p)
  else pure none

/-- `get_pte`: the frame and the index of an entry. -/
def getPte (pgdir la : ℕ) (create : Bool) : Pt A (Option (ℕ × ℕ)) := do
  let pd0 ← getTable al pgdir (pdx1 la) create
  match pd0 with
  | none => pure none
  | some pd0 => do
    let pt ← getTable al pd0 (pdx0 la) create
    match pt with
    | none => pure none
    | some pt => pure (some (pt, ptx la))

/-- `get_page` -/
def getPage (pgdir la : ℕ) : Pt A (Option ℕ) := do
  let ptep ← getPte al pgdir la false
  match ptep with
  | none => pure none
  | some (pt, k) => do
    let s ← Comp.read
    pure (if pteValid (s.mem pt k) then some (ptePpn (s.mem pt k)) else none)

/-- `page_ref_inc` -/
def pageRefInc (p : ℕ) : Pt A Unit := Comp.modify fun s => s.setRef p (s.ref p + 1)

/-- `page_ref_dec` -/
def pageRefDec (p : ℕ) : Pt A Unit := Comp.modify fun s => s.setRef p (s.ref p - 1)

/-- `if (page_ref(page) == 0) free_page(page);` -/
def freeIfUnused (p : ℕ) : Pt A Unit := do
  let s ← Comp.read
  if s.ref p = 0 then freePage al p else pure ()

/-- `page_remove_pte` -/
def pageRemovePte (pt k : ℕ) : Pt A Unit := do
  let s ← Comp.read
  if pteValid (s.mem pt k) then do
    pageRefDec (ptePpn (s.mem pt k))
    freeIfUnused al (ptePpn (s.mem pt k))
    Comp.modify fun s => s.setEntry pt k 0
  else pure ()

/-- `page_remove` -/
def pageRemove (pgdir la : ℕ) : Pt A Unit := do
  let ptep ← getPte al pgdir la false
  match ptep with
  | none => pure ()
  | some (pt, k) => pageRemovePte al pt k

/-- The part of `page_insert` that removes what the entry maps. -/
def pageReplace (page pt k : ℕ) : Pt A Unit := do
  let s ← Comp.read
  if pteValid (s.mem pt k) then
    if ptePpn (s.mem pt k) = page then pageRefDec page else pageRemovePte al pt k
  else pure ()

/-- `page_insert` -/
def pageInsert (pgdir page la : ℕ) (perm : BitVec 10) : Pt A (Except Errno Unit) := do
  let ptep ← getPte al pgdir la true
  match ptep with
  | none => pure (.error .noMem)
  | some (pt, k) => do
    pageRefInc page
    pageReplace al page pt k
    Comp.modify fun s => s.setEntry pt k (pteCreate page (pteV ||| perm))
    pure (.ok ())

/-- `pgdir_alloc_page` -/
def pgdirAllocPage (pgdir la : ℕ) (perm : BitVec 10) : Pt A (Option ℕ) := do
  let page ← allocPage al
  match page with
  | none => pure none
  | some p => do
    let ret ← pageInsert al pgdir p la perm
    match ret with
    | .error _ => do
      freePage al p
      pure none
    | .ok () => do
      let s ← Comp.read
      Comp.ensure (s.ref p = 1) .refCount
      pure (some p)

/-- Where `unmap_range` and `copy_range` go on: at the next page, or at the next table if there is
none. -/
def nextAddr (start : ℕ) : Option (ℕ × ℕ) → ℕ
  | none => roundDown (start + ptSize) ptSize
  | some _ => start + pgSize

/-- `assert(start % PGSIZE == 0 && end % PGSIZE == 0); assert(USER_ACCESS(start, end));` -/
def checkRange (start stop : ℕ) : Pt A Unit := do
  Comp.ensure (start % pgSize = 0 ∧ stop % pgSize = 0) .unaligned
  Comp.ensure (UserAccess start stop) .notUser

/-- The body of the loop of `unmap_range`. -/
def unmapPage (ptep : Option (ℕ × ℕ)) : Pt A Unit :=
  match ptep with
  | none => pure ()
  | some (pt, k) => do
    let s ← Comp.read
    if s.mem pt k ≠ 0 then pageRemovePte al pt k else pure ()

/-- The loop of `unmap_range`, of at most `n` rounds. -/
def unmapLoop (pgdir stop : ℕ) : ℕ → ℕ → Pt A Unit
  | 0, _ => Comp.halt .diverges
  | n + 1, start => do
    let ptep ← getPte al pgdir start false
    unmapPage al ptep
    if nextAddr start ptep ≠ 0 ∧ nextAddr start ptep < stop then
      unmapLoop pgdir stop n (nextAddr start ptep)
    else pure ()

/-- `unmap_range` -/
def unmapRange (pgdir start stop : ℕ) : Pt A Unit := do
  checkRange start stop
  unmapLoop al pgdir stop (stop - start) start

/-- `copy_range` for one page that is mapped: whether it succeeds. -/
def copyPage (dst start : ℕ) (pte : BitVec 64) : Pt A Bool := do
  let nptep ← getPte al dst start true
  match nptep with
  | none => pure false
  | some _ => do
    let npage ← allocPage al
    match npage with
    | none => Comp.halt .noPage
    | some p => do
      Comp.modify fun s => s.setFrame p (s.mem (ptePpn pte))
      let ret ← pageInsert al dst p start (pteFlags pte &&& pteUser)
      match ret with
      | .error _ => Comp.halt .notInserted
      | .ok () => pure true

/-- The body of the loop of `copy_range`. -/
def copyEntry (dst start : ℕ) (ptep : Option (ℕ × ℕ)) : Pt A Bool :=
  match ptep with
  | none => pure true
  | some (pt, k) => do
    let s ← Comp.read
    if pteValid (s.mem pt k) then copyPage al dst start (s.mem pt k) else pure true

/-- The loop of `copy_range`, of at most `n` rounds. -/
def copyLoop (dst src stop : ℕ) : ℕ → ℕ → Pt A (Except Errno Unit)
  | 0, _ => Comp.halt .diverges
  | n + 1, start => do
    let ptep ← getPte al src start false
    let done ← copyEntry al dst start ptep
    if done then
      if nextAddr start ptep ≠ 0 ∧ nextAddr start ptep < stop then
        copyLoop dst src stop n (nextAddr start ptep)
      else pure (.ok ())
    else pure (.error .noMem)

/-- `copy_range` with `share = 0` -/
def copyRange (dst src start stop : ℕ) : Pt A (Except Errno Unit) := do
  checkRange start stop
  copyLoop al dst src stop (stop - start) start

/-- `setup_pgdir` (`proc.c`): a copy of the boot directory, whose words are `boot`. -/
def setupPgdir (boot : ℕ → BitVec 64) : Pt A (Option ℕ) := do
  let page ← allocPage al
  match page with
  | none => pure none
  | some p => do
    Comp.modify fun s => s.setFrame p boot
    pure (some p)

end Functions

end Ucore

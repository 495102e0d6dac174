import Ucore.Lib.Comp
import Ucore.Lib.Sll

set_option autoImplicit false

/-!
# `kmalloc` (`lab8/kern/mm/kmalloc.c`)

Small requests are served from a heap of units of 16 bytes, whose free blocks form a singly linked
ring in increasing order of their addresses; large ones get pages of their own. The ring begins with
the static block `arena`. A block that has been handed out is preceded by a header, the pages of a
large one are recorded in a `bigblock_t`, which comes from the heap itself.

Addresses are numbers of bytes. The fields `units` and `next` of a `slob_t` are stored by address;
the fields of a `bigblock_t` lie over them.

## Main definitions

* `Slob.PageAllocator` — `alloc_pages` and `free_pages`, and when they do what they should.
* `Slob.Kmem` — the heap.
* `Slob.slobAlloc`, `Slob.slobFree`, `Slob.findOrder`, `Slob.kmalloc`, `Slob.kfree`.
-/

namespace Ucore.Slob

open Function

/-- `PAGE_SIZE` -/
def pageSize : ℕ := 4096

/-- `SLOB_UNIT`: the size of a `slob_t`, an `int` and a pointer -/
def slobUnit : ℕ := 16

/-- `SLOB_UNITS` -/
def slobUnits (size : ℕ) : ℕ := (size + slobUnit - 1) / slobUnit

/-- `sizeof(bigblock_t)`: an `int` and two pointers -/
def bigblockSize : ℕ := 24

/-- **A page allocator under `kmalloc`**, with the states in which its calls do what they should and
the frees that lead to such states again: `alloc_pages` gives out pages that are free or `NULL`,
`free_pages` takes them back, and neither panics. The pages lie above the static block `arena` of
the kernel. -/
structure PageAllocator (A : Type) where
  Good : A → Prop
  free : A → Set ℕ
  /-- `alloc_pages`; `none` is a panic -/
  alloc : ℕ → A → Option (Option ℕ × A)
  /-- `free_pages`; `none` is a panic -/
  release : ℕ → ℕ → A → Option A
  CanRelease : ℕ → ℕ → A → Prop
  /-- the first page -/
  first : ℕ
  /-- the end of the pages -/
  npage : ℕ
  /-- the address of page 0 -/
  base : ℕ
  /-- the address of `arena` -/
  arena : ℕ
  base_aligned : pageSize ∣ base
  above : arena + slobUnit < base + first * pageSize
  free_subset : ∀ a, free a ⊆ Set.Ico first npage
  alloc_spec : ∀ n a, Good a → 0 < n → alloc n a = some (none, a) ∨
    ∃ p a', alloc n a = some (some p, a') ∧ Good a' ∧ Set.Ico p (p + n) ⊆ free a ∧
      free a' = free a \ Set.Ico p (p + n)
  release_spec : ∀ p n a, Good a → 0 < n → Set.Ico p (p + n) ⊆ Set.Ico first npage \ free a →
    CanRelease p n a → ∃ a', release p n a = some a' ∧ Good a' ∧
    free a' = free a ∪ Set.Ico p (p + n)

/-- `struct bigblock`, with its own address -/
structure BigBlock where
  addr : ℕ
  order : ℕ
  pages : ℕ
  deriving DecidableEq

/-- The heap: the fields `units` and `next` at all addresses, `slobfree`, the list `bigblocks` and
the page allocator. The pages that this module has got and not returned are remembered to state what
it owns. -/
structure Kmem (A : Type) where
  units : ℕ → ℕ
  next : ℕ → ℕ
  slobfree : ℕ
  bigblocks : List BigBlock
  alloc : A
  taken : Finset ℕ

/-- The assertion of `slob_alloc`, a loop that does not end, or a panic of the page allocator. -/
inductive KmPanic
  /-- `assert((size + SLOB_UNIT) < PAGE_SIZE)` in `slob_alloc` -/
  | slobSize
  | loop
  | pages
  deriving DecidableEq

/-- Computations on the heap. -/
abbrev Km (A α : Type) : Type := Comp KmPanic (Kmem A) α

section Functions

variable {A : Type} (al : PageAllocator A)

/-- `page2kva` -/
def PageAllocator.page2kva (p : ℕ) : ℕ := al.base + p * pageSize

/-- `kva2page` -/
def PageAllocator.kva2page (kva : ℕ) : ℕ := (kva - al.base) / pageSize

/-- A bound for the loops along the ring: there are not more blocks than bytes. -/
def PageAllocator.fuel : ℕ := al.npage * pageSize + 2

/-- `__slob_get_free_pages` -/
def slobGetFreePages (order : ℕ) : Km A (Option ℕ) := do
  let s ← Comp.read
  match al.alloc (2 ^ order) s.alloc with
  | none => Comp.halt .pages
  | some (none, a) => do
    Comp.modify fun s => { s with alloc := a }
    pure none
  | some (some p, a) => do
    Comp.modify fun s => { s with alloc := a, taken := s.taken ∪ Finset.Ico p (p + 2 ^ order) }
    pure (some (al.page2kva p))

/-- `__slob_free_pages` -/
def slobFreePages (kva order : ℕ) : Km A Unit := do
  let s ← Comp.read
  let p := al.kva2page kva
  match al.release p (2 ^ order) s.alloc with
  | none => Comp.halt .pages
  | some a => Comp.modify fun s =>
      { s with alloc := a, taken := s.taken \ Finset.Ico p (p + 2 ^ order) }

/-! ## `slob_free` -/

/-- The loop of `slob_free` ends at `cur`. -/
def freeStop (s : Kmem A) (b cur : ℕ) : Bool :=
  (cur < b ∧ b < s.next cur) ∨ (s.next cur ≤ cur ∧ (cur < b ∨ b < s.next cur))

/-- The block is merged with the next one if it ends there. -/
def joinNext (b nxt : ℕ) (s : Kmem A) : Kmem A :=
  if b + s.units b * slobUnit = nxt then
    { s with units := update s.units b (s.units b + s.units nxt),
             next := update s.next b (s.next nxt) }
  else { s with next := update s.next b nxt }

/-- The block is merged with the previous one if it begins at its end. -/
def joinPrev (b cur : ℕ) (s : Kmem A) : Kmem A :=
  if cur + s.units cur * slobUnit = b then
    { s with units := update s.units cur (s.units cur + s.units b),
             next := update s.next cur (s.next b) }
  else { s with next := update s.next cur b }

/-- `slob_free` from the search for the insertion point on -/
def slobInsert (b : ℕ) : Km A Unit := do
  let s ← Comp.read
  match Sll.seek s.next (freeStop s b) al.fuel s.slobfree with
  | none => Comp.halt .loop
  | some cur => do
    Comp.modify (joinNext b (s.next cur))
    Comp.modify (joinPrev b cur)
    Comp.modify fun s => { s with slobfree := cur }

/-- `slob_free` -/
def slobFree (block size : ℕ) : Km A Unit :=
  if block = 0 then pure ()
  else do
    Comp.modify fun s =>
      if size ≠ 0 then { s with units := update s.units block (slobUnits size) } else s
    slobInsert al block

/-! ## `slob_alloc` -/

/-- The block `cur` behind `prev` is taken, or its first part. -/
def slobTake (units prev cur : ℕ) (s : Kmem A) : Kmem A :=
  if s.units cur = units then { s with next := update s.next prev (s.next cur), slobfree := prev }
  else
    let rest := cur + units * slobUnit
    let s := { s with next := update s.next prev rest }
    let s := { s with units := update s.units rest (s.units cur - units) }
    let s := { s with next := update s.next rest (s.next cur) }
    { s with units := update s.units cur units, slobfree := prev }

/-- The loop of `slob_alloc`, which goes once along the ring and begins again when it has got a
page; `again` bounds how often it does. -/
def slobLoop (size units : ℕ) : ℕ → Km A (Option ℕ)
  | 0 => Comp.halt .loop
  | again + 1 => do
    let s ← Comp.read
    match Sll.seekPair s.next (fun cur => units ≤ s.units cur ∨ cur = s.slobfree) al.fuel s.slobfree
        (s.next s.slobfree) with
    | none => Comp.halt .loop
    | some (prev, cur) =>
      if units ≤ s.units cur then do
        Comp.modify (slobTake units prev cur)
        pure (some cur)
      else if size = pageSize then pure none
      else do
        let page ← slobGetFreePages al 0
        match page with
        | none => pure none
        | some page => do
          slobFree al page pageSize
          slobLoop size units again

/-- `slob_alloc` with `align = 0` -/
def slobAlloc (size : ℕ) : Km A (Option ℕ) := do
  Comp.ensure (size + slobUnit < pageSize) .slobSize
  slobLoop al size (slobUnits size) al.fuel

/-! ## `kmalloc` and `kfree` -/

/-- The loop of `find_order`, with a bound for the number of rounds -/
def orderLoop : ℕ → ℤ → ℕ
  | 0, _ => 0
  | rounds + 1, size => if 4096 < size then orderLoop rounds (size / 2) + 1 else 0

/-- `find_order`; an `int` has 31 value bits -/
def findOrder (size : ℤ) : ℕ := orderLoop 31 size

/-- The conversion of a `size_t` to the `int` that `find_order` takes. -/
def intOfSize (size : ℕ) : ℤ := (BitVec.ofNat 32 size).toInt

/-- A `bigblock_t` is filled in: `order` lies over `units`, `pages` over `next`. -/
def setOrder (bb order : ℕ) (s : Kmem A) : Kmem A := { s with units := update s.units bb order }

/-- `bb->pages = …` -/
def setPages (bb pages : ℕ) (s : Kmem A) : Kmem A := { s with next := update s.next bb pages }

/-- The `bigblock_t` is put in front of the list; its field `next` lies over the `units` of the next
unit. -/
def pushBigBlock (bb order pages : ℕ) (s : Kmem A) : Kmem A :=
  { s with
    units := update s.units (bb + slobUnit) (((s.bigblocks.map BigBlock.addr).headD 0) % 2 ^ 32)
    bigblocks := ⟨bb, order, pages⟩ :: s.bigblocks }

/-- The part of `__kmalloc` for large requests, after the `bigblock_t` has been allocated. -/
def kmallocBig (size bb : ℕ) : Km A (Option ℕ) := do
  let order := findOrder (intOfSize size)
  Comp.modify (setOrder bb order)
  let pages ← slobGetFreePages al order
  Comp.modify (setPages bb (pages.getD 0))
  match pages with
  | some pages => do
    Comp.modify (pushBigBlock bb order pages)
    pure (some pages)
  | none => do
    slobFree al bb bigblockSize
    pure none

/-- `kmalloc` -/
def kmalloc (size : ℕ) : Km A (Option ℕ) :=
  if size < pageSize - slobUnit then do
    let m ← slobAlloc al (size + slobUnit)
    pure (m.map (· + slobUnit))
  else do
    let bb ← slobAlloc al bigblockSize
    match bb with
    | none => pure none
    | some bb => kmallocBig al size bb

/-- `kfree` -/
def kfree (block : ℕ) : Km A Unit := do
  let s ← Comp.read
  if block = 0 then pure ()
  else
    match (if block % pageSize = 0 then s.bigblocks.find? (·.pages = block) else none) with
    | some bb => do
      Comp.modify fun s => { s with bigblocks := s.bigblocks.erase bb }
      slobFreePages al block bb.order
      slobFree al bb.addr bigblockSize
    | none => slobFree al (block - slobUnit) 0

end Functions

end Ucore.Slob

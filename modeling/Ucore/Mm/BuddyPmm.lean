import Ucore.Lib.Comp
import Ucore.Libs.ListH
import Ucore.Mm.Memlayout

set_option autoImplicit false

/-!
# The buddy allocator (`lab2/kern/mm/buddy_pmm.c`)

Page descriptors are numbered by their index in `pages[]`. Blocks of `2 ^ k` pages are kept in the
circular list of `page_link` entries behind the head `free_area[k].free_list`; the field `property`
of the first page of a block is the order `k`.

## Main definitions

* `BuddyPmm` — the allocator's state.
* `buddyInit`, `buddyInitMemmap`, `buddyAllocPages`, `buddyFreePages`.
-/

namespace Ucore

open Function

/-- `MAX_ORDER` -/
def maxOrder : ℕ := 11

/-- The list entries: the head of the list of each order, and the `page_link` of each
descriptor. -/
inductive BuddyLink
  | head (order : ℕ)
  | page (idx : ℕ)
  deriving DecidableEq, Repr

/-- `free_area[]` and the descriptors it manages. -/
structure BuddyPmm where
  links : Links BuddyLink
  pages : ℕ → Page
  nrFree : ℕ → ℕ

namespace BuddyPmm

/-- Change one descriptor. -/
def modPage (s : BuddyPmm) (i : ℕ) (f : Page → Page) : BuddyPmm :=
  { s with pages := update s.pages i (f (s.pages i)) }

/-- The loop over descriptors of `init_memmap` and `free_pages`. -/
def forPages (ok : Page → Bool) (why : PmmPanic) (reset : Page → Page) (base n : ℕ) :
    Comp PmmPanic BuddyPmm Unit := do
  let s ← Comp.read
  match Ucore.forPages ok why reset base n s.pages with
  | .ok pages => Comp.modify fun s => { s with pages := pages }
  | .error p => Comp.halt p

/-- `page->property = order; SetPageProperty(page);` -/
def markBlock (s : BuddyPmm) (page order : ℕ) : BuddyPmm :=
  (s.modPage page fun p => { p with property := order }).modPage page setPageProperty

/-- `list_add(&free_list(order), &(page->page_link)); nr_free(order)++;` -/
def pushBlock (s : BuddyPmm) (page order : ℕ) : BuddyPmm :=
  { s with links := listAdd s.links (.head order) (.page page),
           nrFree := update s.nrFree order ((s.nrFree order + 1) % uintRange) }

/-- `list_add_before(&free_list(order), &(page->page_link)); nr_free(order)++;` -/
def appendBlock (s : BuddyPmm) (page order : ℕ) : BuddyPmm :=
  { s with links := listAddBefore s.links (.head order) (.page page),
           nrFree := update s.nrFree order ((s.nrFree order + 1) % uintRange) }

/-- `list_del(&(page->page_link)); nr_free(order)--;` -/
def dropBlock (s : BuddyPmm) (page order : ℕ) : BuddyPmm :=
  { s with links := listDel s.links (.page page),
           nrFree := update s.nrFree order ((s.nrFree order + uintRange - 1) % uintRange) }

end BuddyPmm

/-- The loop of `log2_ceil`, in 64 bits. -/
def log2CeilLoop (n : ℕ) : ℕ → ℕ → ℕ → Option ℕ
  | 0, _, _ => none
  | fuel + 1, order, size =>
    if size < n then log2CeilLoop n fuel (order + 1) (size * 2 % 2 ^ 64) else some order

/-- `log2_ceil`. After 64 rounds `size` is `0` and stays so: the loop does not end. -/
def log2Ceil (n : ℕ) : Option ℕ := log2CeilLoop n 65 0 1

/-- `pow2` -/
def pow2 (order : ℕ) : ℕ := 2 ^ order

/-- `buddy_idx` -/
def buddyIdx (pageIdx order : ℕ) : ℕ := pageIdx ^^^ 2 ^ order

/-- `buddy_init` -/
def buddyInit (s : BuddyPmm) : BuddyPmm :=
  (List.range maxOrder).foldl (fun s i =>
    { s with links := listInit s.links (.head i), nrFree := update s.nrFree i 0 }) s

/-- The inner loop of `buddy_init_memmap`: the greatest order of a block that fits. -/
def initOrder (remaining : ℕ) : ℕ → ℕ → ℕ
  | 0, order => order
  | fuel + 1, order =>
    if pow2 (order + 1) ≤ remaining ∧ order + 1 < maxOrder then initOrder remaining fuel (order + 1)
    else order

/-- The outer loop of `buddy_init_memmap`, which makes at most `remaining` rounds. -/
def initBlocks (base : ℕ) : ℕ → ℕ → ℕ → BuddyPmm → BuddyPmm
  | 0, _, _, s => s
  | fuel + 1, offset, remaining, s =>
    if 0 < remaining then
      let order := initOrder remaining maxOrder 0
      let blockSize := pow2 order
      let block := base + offset
      initBlocks base fuel (offset + blockSize) (remaining - blockSize)
        ((s.markBlock block order).appendBlock block order)
    else s

/-- `buddy_init_memmap` -/
def buddyInitMemmap (base n : ℕ) : Comp PmmPanic BuddyPmm Unit := do
  Comp.ensure (0 < n) .zeroPages
  BuddyPmm.forPages (·.pgReserved) .notReserved
    (fun _ => { ref := 0, pgReserved := false, pgProperty := false, property := 0 }) base n
  Comp.modify (initBlocks base n 0 n)

/-- The search of `buddy_alloc_pages`: the first order from `order` on whose list is not empty,
among `k` orders. -/
def findOrder (l : Links BuddyLink) : ℕ → ℕ → Option ℕ
  | 0, _ => none
  | k + 1, order => if listEmpty l (.head order) then findOrder l k (order + 1) else some order

/-- The loop of `buddy_alloc_pages` that splits a block of order `order + k`: the upper halves go to
their lists. -/
def splitLoop (page order : ℕ) : ℕ → BuddyPmm → BuddyPmm
  | 0, s => s
  | k + 1, s =>
    let current := order + k
    let buddy := page + pow2 current
    splitLoop page order k ((s.markBlock buddy current).pushBlock buddy current)

/-- `buddy_alloc_pages` -/
def buddyAllocPages (n : ℕ) : Comp PmmPanic BuddyPmm (Option ℕ) := do
  Comp.ensure (0 < n) .zeroPages
  match log2Ceil n with
  | none => Comp.halt .diverges
  | some order =>
    if maxOrder ≤ order then pure none
    else do
      let s ← Comp.read
      match findOrder s.links (maxOrder - order) order with
      | none => pure none
      | some current =>
        match listNext s.links (.head current) with
        -- not the entry of a page: `le2page` is undefined
        | .head _ => Comp.halt .badLink
        | .page page => do
          Comp.modify (·.dropBlock page current)
          Comp.modify (splitLoop page order (current - order))
          Comp.modify (·.modPage page clearPageProperty)
          Comp.modify (·.modPage page fun p => { p with property := order })
          pure (some page)

/-- One round of the loop of `buddy_free_pages`, the buddy being free: the block becomes part of one
of order `order + 1`. -/
def mergeBuddy (base buddy order : ℕ) (s : BuddyPmm) : ℕ × BuddyPmm :=
  let s := s.dropBlock buddy order
  let base := if buddy < base then buddy else base
  -- `base` has been changed already when the two are compared again
  let s := s.modPage (if buddy < base then base else buddy) clearPageProperty
  (base, s.modPage base fun p => { p with property := order + 1 })

/-- The loop of `buddy_free_pages`, for at most `k` rounds: the first page and the order of the
merged block. -/
def mergeLoop (npage : ℕ) : ℕ → ℕ → ℕ → BuddyPmm → ℕ × ℕ × BuddyPmm
  | 0, base, order, s => (base, order, s)
  | k + 1, base, order, s =>
    let buddy := buddyIdx base order
    if npage ≤ buddy then (base, order, s)
    else if (s.pages buddy).pgProperty = false ∨ (s.pages buddy).property ≠ order then
      (base, order, s)
    else
      let (base, s) := mergeBuddy base buddy order s
      mergeLoop npage k base (order + 1) s

/-- `buddy_free_pages` -/
def buddyFreePages (npage base n : ℕ) : Comp PmmPanic BuddyPmm Unit := do
  Comp.ensure (0 < n) .zeroPages
  match log2Ceil n with
  | none => Comp.halt .diverges
  | some order =>
    if maxOrder ≤ order then pure ()
    else do
      BuddyPmm.forPages (fun p => !p.pgReserved && !p.pgProperty) .notAllocated
        (fun p => { p with ref := 0, pgReserved := false, pgProperty := false }) base (pow2 order)
      Comp.modify (·.markBlock base order)
      Comp.modify fun s =>
        let (base, order, s) := mergeLoop npage (maxOrder - 1 - order) base order s
        s.pushBlock base order

end Ucore

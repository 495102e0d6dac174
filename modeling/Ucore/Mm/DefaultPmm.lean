import Ucore.Lib.Comp
import Ucore.Libs.ListH
import Ucore.Mm.Memlayout

set_option autoImplicit false

/-!
# The first-fit page allocator (`lab8/kern/mm/default_pmm.c`)

Page descriptors are numbered by their index in `pages[]`; the free list is the circular list of
`page_link` entries behind the head `free_area.free_list`, at the level of its pointers.

A loop over the free list is modelled with fuel: `PmmPanic.diverges` stands for a loop that has
not come back to the head after that many entries.

## Main definitions

* `Pmm` — the allocator's state.
* `defaultInitMemmap`, `defaultAllocPages`, `defaultFreePages`.
-/

namespace Ucore

/-- The list entries: the list head `free_list` and the `page_link` of each descriptor. -/
inductive PageLink
  | head
  | page (idx : ℕ)
  deriving DecidableEq, Repr

/-- `free_area` and the descriptors it manages. -/
structure Pmm where
  links : Links PageLink
  pages : ℕ → Page
  nrFree : ℕ

namespace Pmm

/-- Change one descriptor. -/
def modPage (s : Pmm) (i : ℕ) (f : Page → Page) : Pmm :=
  { s with pages := Function.update s.pages i (f (s.pages i)) }

/-- The loop over descriptors of `init_memmap` and `free_pages`. -/
def forPages (ok : Page → Bool) (why : PmmPanic) (reset : Page → Page) (base n : ℕ) :
    Comp PmmPanic Pmm Unit := do
  let s ← Comp.read
  match Ucore.forPages ok why reset base n s.pages with
  | .ok pages => Comp.modify fun s => { s with pages := pages }
  | .error p => Comp.halt p

end Pmm

/-- The loop that looks for the place of `base` in a nonempty free list. After `list_add` behind
the last entry the source goes on with the loop. -/
def insertLoop (base : ℕ) : ℕ → PageLink → Links PageLink → Option (Links PageLink)
  | 0, _, _ => none
  | fuel + 1, le, l =>
    match listNext l le with
    | .head => some l
    | .page p =>
      if base < p then some (listAddBefore l (.page p) (.page base))
      else if listNext l (.page p) = .head then
        insertLoop base fuel (.page p) (listAdd l (.page p) (.page base))
      else insertLoop base fuel (.page p) l

/-- Link the block at `base` into the free list. -/
def insertBlock (fuel base : ℕ) : Comp PmmPanic Pmm Unit := do
  let s ← Comp.read
  if listEmpty s.links .head then
    Comp.modify fun s => { s with links := listAdd s.links .head (.page base) }
  else
    match insertLoop base fuel .head s.links with
    | some l => Comp.modify fun s => { s with links := l }
    | none => Comp.halt .diverges

/-- `default_init` -/
def defaultInit (s : Pmm) : Pmm := { s with links := listInit s.links .head, nrFree := 0 }

/-- `default_init_memmap` -/
def defaultInitMemmap (fuel base n : ℕ) : Comp PmmPanic Pmm Unit := do
  Comp.ensure (0 < n) .zeroPages
  Pmm.forPages (·.pgReserved) .notReserved
    (fun _ => { ref := 0, pgReserved := false, pgProperty := false, property := 0 }) base n
  Comp.modify (·.modPage base fun p => { p with property := n % uintRange })
  Comp.modify (·.modPage base setPageProperty)
  Comp.modify fun s => { s with nrFree := (s.nrFree + n) % uintRange }
  insertBlock fuel base

/-- The search of `default_alloc_pages`: the first block of at least `n` pages. The outer option is
the loop's fuel, the inner one the variable `page`. -/
def findLoop (s : Pmm) (n : ℕ) : ℕ → PageLink → Option (Option ℕ)
  | 0, _ => none
  | fuel + 1, le =>
    match listNext s.links le with
    | .head => some none
    | .page p => if n ≤ (s.pages p).property then some (some p) else findLoop s n fuel (.page p)

/-- What `default_alloc_pages` does with the block `page` it has found: unlink it and put what
remains of it in its place. -/
def takeBlock (s : Pmm) (page n : ℕ) : Pmm :=
  let prev := listPrev s.links (.page page)
  let s := { s with links := listDel s.links (.page page) }
  let s :=
    if n < (s.pages page).property then
      let p := page + n
      let s := s.modPage p fun q => { q with property := (s.pages page).property - n }
      let s := s.modPage p setPageProperty
      { s with links := listAdd s.links prev (.page p) }
    else s
  let s := { s with nrFree := (s.nrFree + uintRange - n % uintRange) % uintRange }
  s.modPage page clearPageProperty

/-- `default_alloc_pages` -/
def defaultAllocPages (fuel n : ℕ) : Comp PmmPanic Pmm (Option ℕ) := do
  Comp.ensure (0 < n) .zeroPages
  let s ← Comp.read
  if s.nrFree < n then
    pure none
  else
    match findLoop s n fuel .head with
    | none => Comp.halt .diverges
    | some none => pure none
    | some (some page) => do
      Comp.modify (takeBlock · page n)
      pure (some page)

/-- The three statements by which `default_free_pages` merges the block at `q` into the block at
`p` right below it. -/
def absorb (s : Pmm) (p q : ℕ) : Pmm :=
  let s := s.modPage p fun x =>
    { x with property := (x.property + (s.pages q).property) % uintRange }
  let s := s.modPage q clearPageProperty
  { s with links := listDel s.links (.page q) }

/-- Merge the block at `base` into the block that precedes it in the list, if they touch. The
result is the head of the block that contains `base`. -/
def mergePrev (s : Pmm) (base : ℕ) : Pmm × ℕ :=
  match listPrev s.links (.page base) with
  | .head => (s, base)
  | .page p => if p + (s.pages p).property = base then (absorb s p base, p) else (s, base)

/-- Merge the block that follows `base` in the list into the block at `base`, if they touch. -/
def mergeNext (s : Pmm) (base : ℕ) : Pmm :=
  match listNext s.links (.page base) with
  | .head => s
  | .page p => if base + (s.pages base).property = p then absorb s base p else s

/-- The second half of `default_free_pages`: link the block at `base` in, then merge it with its
neighbours. -/
def linkAndMerge (fuel base : ℕ) : Comp PmmPanic Pmm Unit := do
  insertBlock fuel base
  Comp.modify fun s =>
    let (s, base) := mergePrev s base
    mergeNext s base

/-- `default_free_pages` -/
def defaultFreePages (fuel base n : ℕ) : Comp PmmPanic Pmm Unit := do
  Comp.ensure (0 < n) .zeroPages
  Pmm.forPages (fun p => !p.pgReserved && !p.pgProperty) .notAllocated
    (fun p => { p with ref := 0, pgReserved := false, pgProperty := false }) base n
  Comp.modify (·.modPage base fun p => { p with property := n % uintRange })
  Comp.modify (·.modPage base setPageProperty)
  Comp.modify fun s => { s with nrFree := (s.nrFree + n) % uintRange }
  linkAndMerge fuel base

end Ucore

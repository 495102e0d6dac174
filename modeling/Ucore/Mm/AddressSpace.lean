import Ucore.Mm.PageView

set_option autoImplicit false

/-!
# Address spaces with their pages

`kern/mm/vmm.c` and `kern/mm/pmm.c` together: an address space that is being built or copied, the
page tables and frames, and the heap, whose answers to `kmalloc` are given from outside.

## Main definitions

* `MmState` — the state; `MmPanic` — the failed assertions.
* `onPm`, `onMm` — calls of the page tables' and of the areas' functions.
* `kmalloc`, `kfree` — the heap.
* `mmMapVma`, `dupMmap` — `mm_map` and `dup_mmap`.
-/

namespace Ucore

open Function

/-! ## The state -/

/-- The kinds of heap objects. -/
inductive HeapKind
  /-- `struct mm_struct` -/
  | mm
  /-- `struct vma_struct` -/
  | vma
  /-- the buffer for the program headers in `load_icode` -/
  | headers
  deriving DecidableEq

/-- The page tables, an address space, the next answers of `kmalloc`, after which there is always
memory, and the number of live objects of each kind. -/
structure MmState (A : Type) where
  pm : PmState A
  mm : MmStruct
  grants : List Bool
  heap : HeapKind → ℤ

/-- Failed assertions, and a store that does not complete. -/
inductive MmPanic
  | pt (e : PtPanic)
  | vm (e : VmPanic)
  /-- `assert(mm_count(mm) == 0)` in `exit_mmap` and `mm_destroy` -/
  | inUse
  /-- `panic("load_icode: current->mm must be empty.\n")` -/
  | notEmpty
  /-- `assert(pgdir_alloc_page(...) != NULL)` in `load_icode` -/
  | noStack
  /-- a store to a page that is not mapped or not writable: the handler of the page fault prints a
line and
  returns to the store -/
  | fault
  deriving DecidableEq

/-- Computations on an address space with its pages. -/
abbrev MmComp (A : Type) := Comp MmPanic (MmState A)

section Functions

variable {A α : Type}

/-- A call that works on page tables. -/
def onPm (m : Pt A α) : MmComp A α := Comp.zoom MmState.pm (fun pm s => { s with pm }) .pt m

/-- A call that works on the list of areas. -/
def onMm (m : Mm α) : MmComp A α := Comp.zoom MmState.mm (fun mm s => { s with mm }) .vm m

lemma onPm_of_ok {m : Pt A α} {s : MmState A} {a : α} {pm : PmState A} (h : m s.pm = .ok (a, pm)) :
    onPm m s = .ok (a, { s with pm }) := Comp.zoom_of_ok h

lemma onMm_of_ok {m : Mm α} {s : MmState A} {a : α} {mm : MmStruct} (h : m s.mm = .ok (a, mm)) :
    onMm m s = .ok (a, { s with mm }) := Comp.zoom_of_ok h

/-- `kmalloc`: whether there is memory for an object. -/
def kmalloc (k : HeapKind) : MmComp A Bool := do
  let s ← Comp.read
  let granted := s.grants.headD true
  Comp.modify fun s => { s with
    grants := s.grants.tail
    heap := if granted then update s.heap k (s.heap k + 1) else s.heap }
  pure granted

/-- `kfree` -/
def kfree (k : HeapKind) : MmComp A Unit :=
  Comp.modify fun s => { s with heap := update s.heap k (s.heap k - 1) }

/-- `mm_map` with `vma_create`. -/
def mmMapVma (addr len : ℕ) (flags : BitVec 32) : MmComp A (Except Errno VmaStruct) :=
  if ¬UserAccess (mapStart addr) (mapEnd addr len) then pure (.error .inval)
  else do
    let vma ← onMm (findVma (mapStart addr))
    if vma.any fun vma => decide (vma.vmStart < mapEnd addr len) then pure (.error .inval)
    else do
      let granted ← kmalloc .vma
      if granted then do
        onMm (insertVmaStruct ⟨mapStart addr, mapEnd addr len, flags⟩)
        pure (.ok ⟨mapStart addr, mapEnd addr len, flags⟩)
      else pure (.error .noMem)

variable (al : FrameAllocator A)

/-- The body of the loop of `dup_mmap`. -/
def dupArea (src : ℕ) (vma : VmaStruct) : MmComp A (Except Errno Unit) := do
  let granted ← kmalloc .vma
  if granted then do
    onMm (insertVmaStruct ⟨vma.vmStart, vma.vmEnd, vma.vmFlags⟩)
    let s ← Comp.read
    let ret ← onPm (copyRange al s.mm.pgdir src vma.vmStart vma.vmEnd)
    match ret with
    | .ok () => pure (.ok ())
    | .error _ => pure (.error .noMem)
  else pure (.error .noMem)

/-- The loop of `dup_mmap`. -/
def dupLoop (src : ℕ) : List VmaStruct → MmComp A (Except Errno Unit)
  | [] => pure (.ok ())
  | vma :: rest => (dupArea al src vma).andThen fun _ => dupLoop src rest

/-- `dup_mmap`: the areas of `parent` are copied from the last to the first. -/
def dupMmap (parent : MmStruct) : MmComp A (Except Errno Unit) :=
  dupLoop al parent.pgdir parent.mmapList.reverse

end Functions

end Ucore

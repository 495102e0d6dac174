import Ucore.Lib.Intervals
import Ucore.Mm.PageTable

set_option autoImplicit false

/-!
# Virtual memory areas (`lab8/kern/mm/vmm.c`)

The list of the areas of an address space, and the functions that search it, add to it and check
user addresses against it. Addresses are 64-bit numbers; sums of them wrap around. Two areas of a
list are never equal, so an area stands for the pointer to it.

## Main definitions

* `VmaStruct`, `MmStruct` — areas and address spaces.
* `findVma`, `insertVmaStruct`, `mmMap` — searching and adding areas.
* `userMemCheck` — the check of a range of user addresses.
-/

namespace Ucore

/-! ## Address spaces (`vmm.h`) -/

/-- `VM_READ` -/
def vmRead : BitVec 32 := 0x1

/-- `VM_WRITE` -/
def vmWrite : BitVec 32 := 0x2

/-- `VM_EXEC` -/
def vmExec : BitVec 32 := 0x4

/-- `VM_STACK` -/
def vmStack : BitVec 32 := 0x8

/-- `struct vma_struct` -/
structure VmaStruct where
  vmStart : ℕ
  vmEnd : ℕ
  vmFlags : BitVec 32
  deriving DecidableEq

/-- `struct mm_struct`: the areas in the order of `mmap_list`, the frame of the page directory, and
the number of processes that share it. -/
structure MmStruct where
  mmapList : List VmaStruct
  mmapCache : Option VmaStruct
  pgdir : ℕ
  mapCount : ℤ
  mmCount : ℤ

/-- What `mm_create` makes. -/
def mmCreate : MmStruct := ⟨[], none, 0, 0, 0⟩

/-- Failed assertions, and a loop that does not end. -/
inductive VmPanic
  /-- `assert(vma->vm_start < vma->vm_end)` in `insert_vma_struct` -/
  | emptyArea
  /-- an assertion of `check_vma_overlap` -/
  | overlap
  /-- a loop that does not end -/
  | diverges
  deriving DecidableEq

/-- Computations on an address space. -/
abbrev Mm := Comp VmPanic MmStruct

/-! ## Arithmetic of addresses -/

/-- The sum of two addresses. -/
def addAddr (a b : ℕ) : ℕ := (a + b) % 2 ^ 64

/-- `ROUNDUP` -/
def roundUp (a n : ℕ) : ℕ := roundDown (addAddr a (n - 1)) n

/-! ## The functions -/

/-- `vma->vm_start <= addr && addr < vma->vm_end` -/
abbrev VmaStruct.Has (vma : VmaStruct) (addr : ℕ) : Prop :=
  Intervals.At VmaStruct.vmStart VmaStruct.vmEnd addr vma

/-- `find_vma`: the cached area, or else the first one of the list that has the address; it is
cached. -/
def findVma (addr : ℕ) : Mm (Option VmaStruct) := do
  let mm ← Comp.read
  let found := mm.mmapList.find? fun vma => decide (vma.Has addr)
  let vma := match mm.mmapCache with
    | some vma => if vma.Has addr then some vma else found
    | none => found
  match vma with
  | some vma => do
    Comp.modify fun mm => { mm with mmapCache := some vma }
    pure (some vma)
  | none => pure none

/-- `check_vma_overlap` -/
def checkVmaOverlap (prev next : VmaStruct) : Mm Unit := do
  Comp.ensure (prev.vmStart < prev.vmEnd) .overlap
  Comp.ensure (prev.vmEnd ≤ next.vmStart) .overlap
  Comp.ensure (next.vmStart < next.vmEnd) .overlap

/-- `if (le_prev != list) check_vma_overlap(...)` -/
def checkPrev (front : List VmaStruct) (vma : VmaStruct) : Mm Unit :=
  match front.getLast? with
  | some prev => checkVmaOverlap prev vma
  | none => pure ()

/-- `if (le_next != list) check_vma_overlap(...)` -/
def checkNext (vma : VmaStruct) (back : List VmaStruct) : Mm Unit :=
  match back.head? with
  | some next => checkVmaOverlap vma next
  | none => pure ()

/-- `insert_vma_struct`: the area goes behind those that do not start after it. -/
def insertVmaStruct (vma : VmaStruct) : Mm Unit := do
  Comp.ensure (vma.vmStart < vma.vmEnd) .emptyArea
  let mm ← Comp.read
  let front := mm.mmapList.takeWhile fun v => decide (v.vmStart ≤ vma.vmStart)
  let back := mm.mmapList.dropWhile fun v => decide (v.vmStart ≤ vma.vmStart)
  checkPrev front vma
  checkNext vma back
  Comp.modify fun mm => { mm with mmapList := front ++ vma :: back, mapCount := mm.mapCount + 1 }

/-- The start of the area that `mm_map` makes. -/
def mapStart (addr : ℕ) : ℕ := roundDown addr pgSize

/-- Its end. -/
def mapEnd (addr len : ℕ) : ℕ := roundUp (addAddr addr len) pgSize

/-- `mm_map`, with the answer of `kmalloc` in `vma_create`; it returns the new area. -/
def mmMap (addr len : ℕ) (flags : BitVec 32) (granted : Bool) : Mm (Except Errno VmaStruct) :=
  if ¬UserAccess (mapStart addr) (mapEnd addr len) then pure (.error .inval)
  else do
    let vma ← findVma (mapStart addr)
    if vma.any fun vma => decide (vma.vmStart < mapEnd addr len) then pure (.error .inval)
    else if granted then do
      insertVmaStruct ⟨mapStart addr, mapEnd addr len, flags⟩
      pure (.ok ⟨mapStart addr, mapEnd addr len, flags⟩)
    else pure (.error .noMem)

/-- The flag that an access needs. -/
def accessFlag (write : Bool) : BitVec 32 := if write then vmWrite else vmRead

/-- The body of the loop of `user_mem_check` for an area that has been found: whether the loop goes
on. -/
def passArea (vma : VmaStruct) (start : ℕ) (write : Bool) : Bool :=
  if start < vma.vmStart then false
  else if vma.vmFlags &&& accessFlag write = 0 then false
  else if write && decide (vma.vmFlags &&& vmStack ≠ 0) then
    -- the first page of a stack is a guard
    decide (addAddr vma.vmStart pgSize ≤ start)
  else true

/-- The loop of `user_mem_check`, of at most `n` rounds. -/
def memCheckLoop (stop : ℕ) (write : Bool) : ℕ → ℕ → Mm Bool
  | 0, _ => Comp.halt .diverges
  | n + 1, start =>
    if start < stop then do
      let vma ← findVma start
      match vma with
      | none => pure false
      | some vma =>
        if passArea vma start write then memCheckLoop stop write n vma.vmEnd else pure false
    else pure true

/-- `user_mem_check` for an `mm` that is not `NULL`. -/
def userMemCheck (addr len : ℕ) (write : Bool) : Mm Bool :=
  if UserAccess addr (addAddr addr len) then
    memCheckLoop (addAddr addr len) write (addAddr addr len - addr + 1) addr
  else pure false

end Ucore

import Ucore.Mm.AddressSpace

set_option autoImplicit false

/-!
# Taking an address space down

`exit_range` (`kern/mm/pmm.c`), `exit_mmap` and `mm_destroy` (`kern/mm/vmm.c`), and `put_pgdir`
(`kern/process/proc.c`).

## Main definitions

* `exitRange` — `exit_range`, in three levels: `exitTable` for an entry of a table of the first
  level, `exitTables` for the entries of one such table, `exitDirs` for the entries of the
  directory.
* `exitMmap`, `putPgdir`, `mmDestroy` — the other functions.
-/

namespace Ucore

variable {A : Type}

/-- No entry of the table is valid: `free_pt`. -/
def PmState.noneValid (s : PmState A) (pt : ℕ) :
    Bool := (List.range 512).all fun i => !pteValid (s.mem pt i)

section Functions

variable (al : FrameAllocator A)

/-- `exit_range` for the entry `k` of the table `pd0`: whether it is valid. A table without valid
entries is freed. -/
def exitTable (pd0 k : ℕ) : Pt A Bool := do
  let s ← Comp.read
  if pteValid (s.mem pd0 k) then do
    if s.noneValid (ptePpn (s.mem pd0 k)) then do
      freePage al (ptePpn (s.mem pd0 k))
      Comp.modify fun s => s.setEntry pd0 k 0
      pure true
    else pure true
  else pure false

/-- The inner loop of `exit_range`, of at most `n` rounds: `free_pd0` at its end. -/
def exitTables (pd0 d1start stop : ℕ) : ℕ → ℕ → Bool → Pt A Bool
  | 0, _, _ => Comp.halt .diverges
  | n + 1, d0start, freePd0 => do
    let valid ← exitTable al pd0 (pdx0 d0start)
    -- an entry that is not valid keeps the table, one whose table stays does not
    if d0start + ptSize ≠ 0 ∧ d0start + ptSize < d1start + pdSize ∧ d0start + ptSize < stop then
      exitTables pd0 d1start stop n (d0start + ptSize) (freePd0 && valid)
    else pure (freePd0 && valid)

/-- `exit_range` for the entry of the directory at `d1start`. -/
def exitDir (pgdir d1start d0start stop : ℕ) : Pt A Unit := do
  let s ← Comp.read
  if pteValid (s.mem pgdir (pdx1 d1start)) then do
    let freePd0 ← exitTables al (ptePpn (s.mem pgdir (pdx1 d1start))) d1start stop 513 d0start true
    if freePd0 then do
      freePage al (ptePpn (s.mem pgdir (pdx1 d1start)))
      Comp.modify fun s => s.setEntry pgdir (pdx1 d1start) 0
    else pure ()
  else pure ()

/-- The outer loop of `exit_range`, of at most `n` rounds. -/
def exitDirs (pgdir stop : ℕ) : ℕ → ℕ → ℕ → Pt A Unit
  | 0, _, _ => Comp.halt .diverges
  | n + 1, d1start, d0start => do
    exitDir al pgdir d1start d0start stop
    if d1start + pdSize ≠ 0 ∧ d1start + pdSize < stop then
      exitDirs pgdir stop n (d1start + pdSize) (d1start + pdSize)
    else pure ()

/-- `exit_range` -/
def exitRange (pgdir start stop : ℕ) : Pt A Unit := do
  checkRange start stop
  exitDirs al pgdir stop (stop - start) (roundDown start pdSize) (roundDown start ptSize)

/-- `exit_mmap` -/
def exitMmap : MmComp A Unit := do
  let s ← Comp.read
  Comp.ensure (s.mm.mmCount = 0) .inUse
  Comp.forEach s.mm.mmapList fun vma => onPm (unmapRange al s.mm.pgdir vma.vmStart vma.vmEnd)
  Comp.forEach s.mm.mmapList fun vma => onPm (exitRange al s.mm.pgdir vma.vmStart vma.vmEnd)

/-- `put_pgdir` -/
def putPgdir : MmComp A Unit := do
  let s ← Comp.read
  onPm (freePage al s.mm.pgdir)

/-- `mm_destroy` -/
def mmDestroy : MmComp A Unit := do
  let s ← Comp.read
  Comp.ensure (s.mm.mmCount = 0) .inUse
  Comp.forEach s.mm.mmapList fun _ => kfree .vma
  kfree .mm

end Functions

end Ucore

import Ucore.Mm.ExitMmap

set_option autoImplicit false

/-!
# `load_icode`

`kern/process/proc.c`: a program is loaded into a new address space, with its arguments on the
stack. The file is given by its bytes; whether a read fails is given from outside, as are the
answers of `kmalloc`.

## Main definitions

* `ElfHdr`, `ProgHdr` — the headers, as they stand in the file.
* `LoadState` — the state: the new address space, whether it is the one of the process, and the trap
  frame.
* `filePages`, `zeroPages`, `loadSegment` — one segment.
* `copyToUser`, `pushStrings`, `pushArgs` — the arguments.
* `loadIcode` — the function, with its ladder of labels.
-/

namespace Ucore

open Function

/-! ## Constants and headers -/

/-- `ELF_MAGIC` -/
def elfMagic : ℕ := 0x464C457F

/-- `ELF_PT_LOAD` -/
def elfPtLoad : ℕ := 1

/-- `USTACKTOP` -/
def ustackTop : ℕ := userTop

/-- `USTACKSIZE` -/
def ustackSize : ℕ := 256 * pgSize

/-- `EXEC_MAX_ARG_NUM` -/
def execMaxArgNum : ℕ := 32

/-- `EXEC_MAX_ARG_LEN` -/
def execMaxArgLen : ℕ := 4095

/-- `PTE_R` -/
def pteR : BitVec 10 := 0x002

/-- `PTE_X` -/
def pteX : BitVec 10 := 0x008

/-- `struct elfhdr`, the fields that are read. -/
structure ElfHdr where
  eMagic : ℕ
  eEntry : ℕ
  ePhoff : ℕ
  ePhnum : ℕ

/-- `struct proghdr`, the fields that are read. -/
structure ProgHdr where
  pType : ℕ
  pFlags : ℕ
  pOffset : ℕ
  pVa : ℕ
  pFilesz : ℕ
  pMemsz : ℕ
deriving DecidableEq

/-- The header of a file. -/
def elfHdr (file : Bytes) : ElfHdr where
  eMagic := file.get32 0
  eEntry := file.get64 24
  ePhoff := file.get64 32
  ePhnum := file.get16 56

/-- The program header at an offset of the file. -/
def progHdr (file : Bytes) (o : ℕ) : ProgHdr where
  pType := file.get32 o
  pFlags := file.get32 (o + 4)
  pOffset := file.get64 (o + 8)
  pVa := file.get64 (o + 16)
  pFilesz := file.get64 (o + 32)
  pMemsz := file.get64 (o + 40)

/-- **The program headers** of a file. -/
def progHdrs (file : Bytes) : List ProgHdr :=
  (List.range (elfHdr file).ePhnum).map fun i => progHdr file ((elfHdr file).ePhoff + 56 * i)

/-- `p_flags & ELF_PF_X` and so on: the bit of a flag. -/
def ProgHdr.has (ph : ProgHdr) (flag : ℕ) : Bool := ph.pFlags / flag % 2 = 1

/-- `vm_flags` of a segment. -/
def ProgHdr.vmFlags (ph : ProgHdr) : BitVec 32 :=
  (if ph.has 1 then vmExec else 0) ||| (if ph.has 2 then vmWrite else 0) |||
    (if ph.has 4 then vmRead else 0)

/-- `perm` of a segment. -/
def ProgHdr.perm (ph : ProgHdr) : BitVec 10 :=
  pteU ||| pteV ||| (if ph.has 1 then pteX else 0) ||| (if ph.has 2 then pteW ||| pteR else 0) |||
    (if ph.has 4 then pteR else 0)

/-! ## The state -/

/-- `struct trapframe`, the registers that are set. -/
structure TrapFrame where
  sp : ℕ
  a0 : ℕ
  a1 : ℕ
  epc : ℕ
  status : BitVec 64

/-- The new address space, whether `current->mm` is that address space or `NULL`, the trap frame,
and the next answers of `load_icode_read`, after which it always succeeds. -/
structure LoadState (A : Type) where
  as : MmState A
  loaded : Bool
  tf : TrapFrame
  reads : List (Option Errno)

/-- Computations of `load_icode`. -/
abbrev Load (A : Type) := Comp MmPanic (LoadState A)

section Functions

variable {A α : Type}

/-- A call that works on the address space. -/
def onAs (m : MmComp A α) : Load A α := Comp.zoom LoadState.as (fun as s => { s with as }) id m

lemma onAs_of_ok {m : MmComp A α} {s : LoadState A} {a : α} {as : MmState A}
    (h : m s.as = .ok (a, as)) : onAs m s = .ok (a, { s with as }) := Comp.zoom_of_ok h

/-- The difference of two addresses. -/
def subAddr (a b : ℕ) : ℕ := (a + 2 ^ 64 - b) % 2 ^ 64

/-- `load_icode_read`: whether the bytes at the offset have been read. There are none at a negative
offset. -/
def loadIcodeRead (offset : ℕ) : Load A (Except Errno Unit) :=
  if 2 ^ 63 ≤ offset then pure (.error .inval)
  else do
    let s ← Comp.read
    Comp.modify fun s => { s with reads := s.reads.tail }
    match s.reads.headD none with
    | none => pure (.ok ())
    | some e => pure (.error e)

/-- `memcpy` and `memset` to a frame. -/
def writeFrame (p off : ℕ) (src : Bytes) (o len : ℕ) : Load A Unit :=
  onAs (onPm (Comp.modify fun s => s.writeFrame p off src o len))

variable (al : FrameAllocator A) (file : Bytes)

/-- `pgdir_alloc_page(mm->pgdir, la, perm)` -/
def allocAt (la : ℕ) (perm : BitVec 10) : Load A (Option ℕ) := do
  let s ← Comp.read
  onAs (onPm (pgdirAllocPage al s.as.mm.pgdir la perm))

/-! ## Segments -/

/-- How many bytes of the page at `la` are read, from `start` on. -/
def fileSize (start la stop : ℕ) : ℕ :=
  if stop < addAddr la pgSize then subAddr (subAddr pgSize (subAddr start la))
    (subAddr (addAddr la pgSize) stop)
  else subAddr pgSize (subAddr start la)

/-- The loop for the file part of a segment, of at most `n` rounds. -/
def filePages (ph : ProgHdr) (stop : ℕ) : ℕ → ℕ → ℕ → Load A (Except Errno Unit)
  | 0, _, _ => Comp.halt (.pt .diverges)
  | n + 1, start, la =>
    if start < stop then do
      let page ← allocAt al la ph.perm
      match page with
      | none => pure (.error .noMem)
      | some p =>
        (loadIcodeRead (addAddr ph.pOffset (subAddr start ph.pVa))).andThen fun _ => do
          writeFrame p (subAddr start la) file (addAddr ph.pOffset (subAddr start ph.pVa))
            (fileSize start la stop)
          filePages ph stop n (addAddr start (fileSize start la stop)) (addAddr la pgSize)
    else pure (.ok ())

/-- `zero_sz` for a new page. -/
def zeroSize (la stop : ℕ) : ℕ := if stop < addAddr la pgSize then subAddr stop la else pgSize

/-- The loop for the rest of a segment, of at most `n` rounds. -/
def zeroPages (perm : BitVec 10) (stop : ℕ) : ℕ → ℕ → ℕ → Load A (Except Errno Unit)
  | 0, _, _ => Comp.halt (.pt .diverges)
  | n + 1, start, la =>
    if start < stop then do
      let page ← allocAt al la perm
      match page with
      | none => pure (.error .noMem)
      | some p => do
        writeFrame p 0 Bytes.zero 0 (zeroSize la stop)
        zeroPages perm stop n (addAddr start (zeroSize la stop)) (addAddr la pgSize)
    else pure (.ok ())

/-- The part of a segment that is not in the file. -/
def zeroPart (ph : ProgHdr) : Load A (Except Errno Unit) :=
  let start := addAddr ph.pVa ph.pFilesz
  let stop := addAddr ph.pVa ph.pMemsz
  let la := roundDown start pgSize
  if start < stop then do
    let s ← Comp.read
    let page ← onAs (onPm (getPage al s.as.mm.pgdir la))
    match page with
    | some p => do
      writeFrame p (subAddr start la) Bytes.zero 0 (fileSize start la stop)
      zeroPages al ph.perm stop (stop + 1) (addAddr la pgSize) (addAddr la pgSize)
    | none => zeroPages al ph.perm stop (stop + 1) start la
  else pure (.ok ())

/-- One round of the loop over the program headers. -/
def loadSegment (ph : ProgHdr) : Load A (Except Errno Unit) :=
  if ph.pType ≠ elfPtLoad then pure (.ok ())
  else if ph.pMemsz < ph.pFilesz then pure (.error .invalElf)
  else (onAs (mmMapVma ph.pVa ph.pMemsz ph.vmFlags)).andThen fun _ =>
    let stop := addAddr ph.pVa ph.pFilesz
    (filePages al file ph stop (stop + 1) ph.pVa (roundDown ph.pVa pgSize)).andThen fun _ =>
      zeroPart al ph

/-- The loop over the program headers. -/
def loadSegments : List ProgHdr → Load A (Except Errno Unit)
  | [] => pure (.ok ())
  | ph :: rest => (loadSegment al file ph).andThen fun _ => loadSegments rest

/-! ## The stack -/

/-- `assert(pgdir_alloc_page(mm->pgdir, la, PTE_USER) != NULL)` -/
def stackPage (la : ℕ) : Load A Unit := do
  let page ← allocAt al la pteUser
  Comp.ensure (page ≠ none) .noStack

/-- The stack area and its first four pages. -/
def setupStack : Load A (Except Errno Unit) :=
  (onAs (mmMapVma (ustackTop - ustackSize) ustackSize (vmRead ||| vmWrite ||| vmStack))).andThen
    fun _ => do
    stackPage al (ustackTop - pgSize)
    stackPage al (ustackTop - 2 * pgSize)
    stackPage al (ustackTop - 3 * pgSize)
    stackPage al (ustackTop - 4 * pgSize)
    pure (.ok ())

/-- A store of one byte through the page table. -/
def storeByte (pgdir a : ℕ) (b : UInt8) : MmComp A Unit := do
  let s ← Comp.read
  let pte := s.pm.leaf pgdir (a / pgSize)
  if pteValid pte ∧ pteFlags pte &&& pteW ≠ 0 then
    onPm (Comp.modify fun s => s.writeFrame (ptePpn pte) (a % pgSize) (fun _ => b) 0 1)
  else Comp.halt .fault

/-- `memcpy` to the user's memory. -/
def storeBytes (pgdir : ℕ) : ℕ → List UInt8 → MmComp A Unit
  | _, [] => pure ()
  | a, b :: rest => do
    storeByte pgdir a b
    storeBytes pgdir (addAddr a 1) rest

/-- `copy_to_user` -/
def copyToUser (dst : ℕ) (src : List UInt8) : MmComp A Bool := do
  let ok ← onMm (userMemCheck dst src.length true)
  if ok then do
    let s ← Comp.read
    storeBytes s.mm.pgdir dst src
    pure true
  else pure false

/-- A string goes to the stack: the stack pointer and `uargv` after that. -/
def pushString (arg : List UInt8) (sp : ℕ) (uargv : List ℕ) :
    MmComp A (Except Errno (ℕ × List ℕ)) := do
  let sp := subAddr sp (arg.length + 1)
  let ok ← copyToUser sp (arg ++ [0])
  if ok then pure (.ok (sp, sp :: uargv)) else pure (.error .inval)

/-- The strings go to the stack, the last one first. -/
def pushStrings : List (List UInt8) → ℕ → List ℕ → MmComp A (Except Errno (ℕ × List ℕ))
  | [], sp, uargv => pure (.ok (sp, uargv))
  | arg :: rest, sp, uargv => (pushString arg sp uargv).andThen fun r => pushStrings rest r.1 r.2

/-- `uargv`, with a null pointer behind it, goes to the stack: the stack pointer after that. -/
def pushUargv (argc sp : ℕ) (uargv : List ℕ) : MmComp A (Except Errno ℕ) := do
  let sp := roundDown (subAddr sp ((argc + 1) * 8)) 8
  let ok ← copyToUser sp ((uargv ++ [0]).flatMap Bytes.le64)
  if ok then pure (.ok sp) else pure (.error .inval)

/-- The arguments go to the stack. -/
def pushArgs (args : List (List UInt8)) : MmComp A (Except Errno ℕ) :=
  (pushStrings args.reverse ustackTop []).andThen fun r => pushUargv args.length r.1 r.2

/-! ## The function -/

/-- `bad_pgdir_cleanup_mm` -/
def badPgdirCleanupMm (ret : Except Errno Unit) : Load A (Except Errno Unit) := do
  onAs mmDestroy
  pure ret

/-- `bad_elf_cleanup_pgdir` -/
def badElfCleanupPgdir (ret : Except Errno Unit) : Load A (Except Errno Unit) := do
  onAs (putPgdir al)
  badPgdirCleanupMm ret

/-- `bad_cleanup_mmap` -/
def badCleanupMmap (ret : Except Errno Unit) : Load A (Except Errno Unit) := do
  onAs (exitMmap al)
  badElfCleanupPgdir al ret

/-- `bad_free_ph` -/
def badFreePh (ret : Except Errno Unit) : Load A (Except Errno Unit) := do
  onAs (kfree .headers)
  pure ret

/-- `SSTATUS_SPP` and `SSTATUS_SPIE` -/
def userStatus (status : BitVec 64) : BitVec 64 := (status &&& ~~~0x100#64) ||| 0x20#64

/-- `mm_count_inc(mm); current->mm = mm;` and the new trap frame. -/
def enterMm : Load A Unit :=
  Comp.modify fun s => { s with
    as := { s.as with mm := { s.as.mm with mmCount := s.as.mm.mmCount + 1 } }
    loaded := true
    tf := ⟨ustackTop, 0, 0, (elfHdr file).eEntry, userStatus s.tf.status⟩ }

/-- The segments and the stack. -/
def loadImage : Load A (Except Errno Unit) :=
  (loadSegments al file (progHdrs file)).andThen fun _ => setupStack al

/-- From the arguments to the end. -/
def loadArgs (args : List (List UInt8)) : Load A (Except Errno Unit) := do
  let sp ← onAs (pushArgs args)
  match sp with
  | .error e => badCleanupMmap al (.error e)
  | .ok sp => do
    Comp.modify fun s => { s with tf := { s.tf with a0 := args.length, a1 := sp, sp } }
    badFreePh (.ok ())

/-- From the program headers to the end. -/
def loadProgram (args : List (List UInt8)) : Load A (Except Errno Unit) := do
  let ret ← loadImage al file
  match ret with
  | .error e => badCleanupMmap al (.error e)
  | .ok () => do
    enterMm file
    loadArgs al args

/-- From the program headers' buffer on. -/
def loadHeaders (args : List (List UInt8)) : Load A (Except Errno Unit) := do
  let granted ← onAs (kmalloc .headers)
  if granted then do
    let ret ← loadIcodeRead (elfHdr file).ePhoff
    match ret with
    | .error e => badFreePh (.error e)
    | .ok () => loadProgram al file args
  -- `ret` is that of the last read
  else badElfCleanupPgdir al (.ok ())

/-- From the header of the file on. -/
def loadElf (args : List (List UInt8)) : Load A (Except Errno Unit) := do
  let ret ← loadIcodeRead 0
  match ret with
  | .error e => badElfCleanupPgdir al (.error e)
  | .ok () =>
    if (elfHdr file).eMagic ≠ elfMagic then badElfCleanupPgdir al (.error .invalElf)
    else loadHeaders al file args

/-- `setup_pgdir(mm)` -/
def setupMmPgdir (boot : ℕ → BitVec 64) : Load A Bool := do
  let pgdir ← onAs (onPm (setupPgdir al boot))
  match pgdir with
  | none => pure false
  | some d => do
    onAs (onMm (Comp.modify fun mm => { mm with pgdir := d }))
    pure true

/-- **`load_icode`** -/
def loadIcode (boot : ℕ → BitVec 64) (args : List (List UInt8)) : Load A (Except Errno Unit) := do
  let s ← Comp.read
  Comp.ensure (s.loaded = false) .notEmpty
  let granted ← onAs (kmalloc .mm)
  if granted then do
    onAs (onMm (Comp.modify fun _ => mmCreate))
    let ready ← setupMmPgdir al boot
    if ready then loadElf al file args
    else badPgdirCleanupMm (.error .noMem)
  else pure (.error .noMem)

end Functions

end Ucore

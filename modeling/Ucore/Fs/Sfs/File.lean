import Ucore.Fs.Sfs.Bmap

set_option autoImplicit false

/-!
# Regular files of SFS (`lab8/kern/fs/sfs/sfs_inode.c`)

Reading, writing, resizing and seeking. `off_t` values are integers, `size_t` values natural
numbers; sums that may overflow are reduced to 64 bits.

## Main definitions

* `sfsIoNolock` — transfer between a buffer and a file, in a head, whole blocks and a tail.
* `sfsRead`, `sfsWrite` — its wrappers for I/O buffers.
* `sfsTruncfile`, `sfsTryseek` — resize a file; check a position.
* `sfsFsync`, `sfsClose`, `sfsReclaim` — write an inode back.
-/

namespace Ucore

/-- The local variables of `sfs_io_nolock`: the caller's buffer, the position that `buf` points to
in it, and the counters. -/
structure IoVars where
  buf : Bytes
  pos : ℕ
  alen : ℕ
  offset : ℕ
  blkno : ℕ
  nblks : ℕ

/-- `sfs_buf_op` -/
def sfsBufOp (write : Bool) (buf : Bytes) (pos len blkno offset : ℕ) : Sfs (Except Errno Bytes) :=
  if write then sfsWbuf buf pos len blkno offset else sfsRbuf buf pos len blkno offset

/-- `sfs_block_op` -/
def sfsBlockOp (write : Bool) (buf : Bytes) (pos blkno nblks : ℕ) : Sfs (Except Errno Bytes) :=
  if write then sfsWblock buf pos blkno nblks else sfsRblock buf pos blkno nblks

/-- What the three steps of `sfs_io_nolock` have in common: load the block `blkno` of the file and
transfer from or to it. With an error code the variables are as they were, for `goto out`. -/
def ioPiece (i : ℕ) (v : IoVars) (op : ℕ → Sfs (Except Errno Bytes)) (next : Bytes → IoVars) :
    Sfs (IoVars × Except Errno Unit) := do
  let found ← sfsBmapLoadNolock i v.blkno
  match found with
  | .error ret => pure (v, .error ret)
  | .ok ino => do
    let done ← op ino
    match done with
    | .error ret => pure (v, .error ret)
    | .ok buf => pure (next buf, .ok ())

/-- Step (1): the first partial block. -/
def ioHead (write : Bool) (i endpos : ℕ) (v : IoVars) : Sfs (IoVars × Except Errno Unit) :=
  let blkoff := v.offset % blkSize
  if blkoff ≠ 0 then
    let size := if v.nblks ≠ 0 then blkSize - blkoff else endpos - v.offset
    ioPiece i v (fun ino => sfsBufOp write v.buf v.pos size ino blkoff) fun buf =>
      { buf := buf, pos := v.pos + size, alen := v.alen + size, offset := v.offset + size,
        blkno := v.blkno + 1, nblks := if 0 < v.nblks then v.nblks - 1 else v.nblks }
  else pure (v, .ok ())

/-- Step (2): the aligned full blocks. -/
def ioBlocks (write : Bool) (i : ℕ) : ℕ → IoVars → Sfs (IoVars × Except Errno Unit)
  | 0, v => pure (v, .ok ())
  | nblks + 1, v => do
    let r ← ioPiece i v (fun ino => sfsBlockOp write v.buf v.pos ino 1) fun buf =>
      { v with buf := buf, pos := v.pos + blkSize, alen := v.alen + blkSize,
               blkno := v.blkno + 1, offset := v.offset + blkSize }
    match r with
    | (v, .ok ()) => ioBlocks write i nblks v
    | (v, .error ret) => pure (v, .error ret)

/-- Step (3): the tail partial block. -/
def ioTail (write : Bool) (i endpos : ℕ) (v : IoVars) : Sfs (IoVars × Except Errno Unit) :=
  if v.offset < endpos then
    let size := endpos - v.offset
    ioPiece i v (fun ino => sfsBufOp write v.buf v.pos size ino 0) fun buf =>
      { v with buf := buf, alen := v.alen + size }
  else pure (v, .ok ())

/-- The three steps of `sfs_io_nolock`, up to the label `out`. -/
def ioSteps (write : Bool) (i endpos : ℕ) (v : IoVars) : Sfs (IoVars × Except Errno Unit) := do
  let r ← ioHead write i endpos v
  match r with
  | (v, .error ret) => pure (v, .error ret)
  | (v, .ok ()) => do
    let r ← ioBlocks write i v.nblks v
    match r with
    | (v, .error ret) => pure (v, .error ret)
    | (v, .ok ()) => ioTail write i endpos v

/-- The label `out` of `sfs_io_nolock`: the size is raised to `offset + alen`. -/
def ioOut (i : ℕ) (v : IoVars) (ret : Except Errno Unit) : Sfs (Bytes × ℕ × Except Errno Unit) := do
  let sin ← getSin i
  if sin.din.size < v.offset + v.alen then
    Comp.modify (·.modSin i (·.setSize (v.offset + v.alen)))
  pure (v.buf, v.alen, ret)

/-- `sfs_io_nolock` from the choice of the operations on. -/
def ioTransfer (write : Bool) (i : ℕ) (buf : Bytes) (offset endpos : ℕ) :
    Sfs (Bytes × ℕ × Except Errno Unit) := do
  let blkno := offset / blkSize
  let nblks := endpos / blkSize - blkno
  let (v, ret) ← ioSteps write i endpos ⟨buf, 0, 0, offset, blkno, nblks⟩
  ioOut i v ret

/-- A sum of an `off_t` and a `size_t`, stored as `off_t`. -/
def offAdd (offset : ℤ) (len : ℕ) : ℤ := (offset + len).bmod (2 ^ 64)

/-- `sfs_io_nolock`: the buffer, `*alenp` and the return code. -/
def sfsIoNolock (write : Bool) (i : ℕ) (buf : Bytes) (offset : ℤ) (alen : ℕ) :
    Sfs (Bytes × ℕ × Except Errno Unit) := do
  let sin ← getSin i
  Comp.ensure (sin.din.type ≠ typeDir) .ioDir
  let endpos := offAdd offset alen
  if offset < 0 ∨ (maxFileSize : ℤ) ≤ offset ∨ endpos < offset then pure (buf, 0, .error .inval)
  else if offset = endpos then pure (buf, 0, .ok ())
  else
    let endpos := if (maxFileSize : ℤ) < endpos then (maxFileSize : ℤ) else endpos
    if write = false ∧ (sin.din.size : ℤ) ≤ offset then pure (buf, 0, .ok ())
    else
      let endpos :=
        if write = false ∧ (sin.din.size : ℤ) < endpos then (sin.din.size : ℤ) else endpos
      ioTransfer write i buf offset.toNat endpos.toNat

/-- `struct iobuf`: `base` are the contents of the memory from the buffer's start on, `ioBase` the
position that `io_base` points to. -/
structure Iobuf where
  base : Bytes
  ioBase : ℕ
  ioOffset : ℤ
  ioResid : ℕ

/-- `iobuf_skip` -/
def iobufSkip (iob : Iobuf) (n : ℕ) : Sfs Iobuf := do
  Comp.ensure (n ≤ iob.ioResid) .iobufSkip
  pure { iob with ioBase := iob.ioBase + n, ioOffset := iob.ioOffset + n,
                  ioResid := iob.ioResid - n }

/-- `sfs_io` -/
def sfsIo (write : Bool) (i : ℕ) (iob : Iobuf) : Sfs (Iobuf × Except Errno Unit) := do
  let (buf, alen, ret) ←
    sfsIoNolock write i (fun k => iob.base (iob.ioBase + k)) iob.ioOffset iob.ioResid
  let iob := { iob with base := iob.base.copy iob.ioBase buf 0 alen }
  if alen ≠ 0 then do
    let iob ← iobufSkip iob alen
    pure (iob, ret)
  else pure (iob, ret)

/-- `sfs_read` -/
def sfsRead (i : ℕ) (iob : Iobuf) : Sfs (Iobuf × Except Errno Unit) := sfsIo false i iob

/-- `sfs_write` -/
def sfsWrite (i : ℕ) (iob : Iobuf) : Sfs (Iobuf × Except Errno Unit) := sfsIo true i iob

/-- The loop of `sfs_truncfile` that adds `k` blocks. -/
def growFile (i : ℕ) : ℕ → ℕ → Sfs (Except Errno Unit)
  | 0, _ => pure (.ok ())
  | k + 1, nblks => (sfsBmapLoadNolock i nblks).andThen fun _ => growFile i k (nblks + 1)

/-- The loop of `sfs_truncfile` that frees `k` blocks. -/
def shrinkFile (i : ℕ) : ℕ → Sfs (Except Errno Unit)
  | 0 => pure (.ok ())
  | k + 1 => (sfsBmapTruncateNolock i).andThen fun _ => shrinkFile i k

/-- `ROUNDUP_DIV(len, SFS_BLKSIZE)` -/
def blocksFor (len : ℕ) : ℕ := (len + blkSize - 1) / blkSize

lemma blocksFor_le_iff {n m : ℕ} : blocksFor n ≤ m ↔ n ≤ m * blkSize := by
  unfold blocksFor blkSize
  omega

/-- `sfs_truncfile` -/
def sfsTruncfile (i : ℕ) (len : ℤ) : Sfs (Except Errno Unit) := do
  if len < 0 ∨ (maxFileSize : ℤ) < len then pure (.error .inval)
  else do
    let sin ← getSin i
    let tblks := blocksFor len.toNat
    if sin.din.size = len.toNat then do
      Comp.ensure (tblks = sin.din.blocks) .truncBlocks
      pure (.ok ())
    else
      let nblks := sin.din.blocks
      (if nblks < tblks then growFile i (tblks - nblks) nblks
        else shrinkFile i (nblks - tblks)).andThen fun _ => do
          let sin ← getSin i
          Comp.ensure (sin.din.blocks = tblks) .truncBlocks
          Comp.modify (·.modSin i (·.setSize len.toNat))
          pure (.ok ())

/-- `sfs_tryseek` -/
def sfsTryseek (i : ℕ) (pos : ℤ) : Sfs (Except Errno Unit) := do
  if pos < 0 ∨ (maxFileSize : ℤ) ≤ pos then pure (.error .inval)
  else do
    let sin ← getSin i
    if (sin.din.size : ℤ) < pos then sfsTruncfile i pos else pure (.ok ())

/-! ## Writing an inode back -/

/-- `sin->dirty = 0` -/
def SfsInode.clearDirty (sin : SfsInode) : SfsInode := { sin with dirty := false }

/-- `sfs_fsync` -/
def sfsFsync (i : ℕ) : Sfs (Except Errno Unit) := do
  let sin ← getSin i
  if sin.dirty then do
    Comp.modify (·.modSin i (·.clearDirty))
    let ret ← sfsWbuf (encodeInode sin.din) 0 diskInodeSize i 0
    match ret with
    | .ok _ => pure (.ok ())
    | .error e => do
      Comp.modify (·.modSin i (·.setDirty))
      pure (.error e)
  else pure (.ok ())

/-- `sfs_close` -/
def sfsClose (i : ℕ) : Sfs (Except Errno Unit) := sfsFsync i

/-- `vop_truncate`: directories do not have it. -/
def vopTruncate (i : ℕ) (len : ℤ) : Sfs (Except Errno Unit) := do
  let sin ← getSin i
  Comp.ensure (sin.din.type ≠ typeDir) .noVop
  sfsTruncfile i len

/-- `sfs_reclaim` -/
def sfsReclaim (i : ℕ) : Sfs (Except Errno Unit) := do
  let sin ← getSin i
  Comp.ensure (0 < sin.reclaimCount) .reclaimCount
  Comp.modify (·.modSin i fun sin => { sin with reclaimCount := sin.reclaimCount - 1 })
  if sin.reclaimCount - 1 ≠ 0 ∨ sin.refCount ≠ 0 then pure (.error .busy)
  else
    (if sin.din.nlinks = 0 then vopTruncate i 0 else pure (.ok ())).andThen fun _ => do
      let sin ← getSin i
      (if sin.dirty then sfsFsync i else pure (.ok ())).andThen fun _ => do
        Comp.modify fun s => { s with nodes := Function.update s.nodes i none }
        if sin.din.nlinks = 0 then do
          sfsBlockFree i
          if sin.din.indirect ≠ 0 then sfsBlockFree sin.din.indirect
        pure (.ok ())

end Ucore

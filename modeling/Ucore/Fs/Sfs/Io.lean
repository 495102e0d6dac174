import Ucore.Fs.Sfs.Defs

set_option autoImplicit false

/-!
# Block-level I/O of SFS (`lab8/kern/fs/sfs/sfs_io.c`)

A caller's buffer is passed as its contents and the position from which the function uses it; the
functions return the buffer's new contents.

## Main definitions

* `sfsRwblockNolock` — transfer of one block; `sfsRwblock` — of several blocks.
* `sfsRbuf`, `sfsWbuf` — transfer of a part of a block.
* `sfsClearBlock` — write zeros.
-/

namespace Ucore

/-- The device block that is addressed for block `blkno`: the offset `blkno * SFS_BLKSIZE` is
computed in 32 bits. -/
def devBlock (blkno : ℕ) : ℕ := blkno * blkSize % 2 ^ 32 / blkSize

/-- `dop_io` of one block: the device answers with an error or transfers the block from or to
`buf + pos`. -/
def dopIo (buf : Bytes) (pos blk : ℕ) (write : Bool) : Sfs (Except Errno Bytes) := do
  let s ← Comp.read
  Comp.modify fun s => { s with faults := s.faults.tail }
  match s.faults.head? with
  | some (some e) => pure (.error e)
  | _ =>
    if write then do
      Comp.modify fun s =>
        { s with disk := Function.update s.disk blk ((s.disk blk).copy 0 buf pos blkSize) }
      pure (.ok buf)
    else pure (.ok (buf.copy pos (s.disk blk) 0 blkSize))

/-- `sfs_rwblock_nolock` -/
def sfsRwblockNolock (buf : Bytes) (pos blkno : ℕ) (write check : Bool) :
    Sfs (Except Errno Bytes) := do
  let s ← Comp.read
  Comp.ensure ((blkno ≠ 0 ∨ check = false) ∧ blkno < s.super.blocks) .rwRange
  dopIo buf pos (devBlock blkno) write

/-- `sfs_rwblock` -/
def sfsRwblock (write : Bool) : Bytes → ℕ → ℕ → ℕ → Sfs (Except Errno Bytes)
  | buf, _, _, 0 => pure (.ok buf)
  | buf, pos, blkno, nblks + 1 =>
    (sfsRwblockNolock buf pos blkno write true).andThen fun buf =>
      sfsRwblock write buf (pos + blkSize) (blkno + 1) nblks

/-- `sfs_rblock` -/
def sfsRblock (buf : Bytes) (pos blkno nblks : ℕ) : Sfs (Except Errno Bytes) :=
  sfsRwblock false buf pos blkno nblks

/-- `sfs_wblock` -/
def sfsWblock (buf : Bytes) (pos blkno nblks : ℕ) : Sfs (Except Errno Bytes) :=
  sfsRwblock true buf pos blkno nblks

/-- `sfs_rbuf` -/
def sfsRbuf (buf : Bytes) (pos len blkno offset : ℕ) : Sfs (Except Errno Bytes) := do
  Comp.ensure (offset < blkSize ∧ offset + len ≤ blkSize) .bufRange
  (sfsRwblockNolock Bytes.zero 0 blkno false true).andThen fun block =>
    pure (.ok (buf.copy pos block offset len))

/-- `sfs_wbuf` -/
def sfsWbuf (buf : Bytes) (pos len blkno offset : ℕ) : Sfs (Except Errno Bytes) := do
  Comp.ensure (offset < blkSize ∧ offset + len ≤ blkSize) .bufRange
  (sfsRwblockNolock Bytes.zero 0 blkno false true).andThen fun block =>
    (sfsRwblockNolock (block.copy offset buf pos len) 0 blkno true true).andThen fun _ =>
      pure (.ok buf)

/-- `sfs_clear_block` -/
def sfsClearBlock : ℕ → ℕ → Sfs (Except Errno Unit)
  | _, 0 => pure (.ok ())
  | blkno, nblks + 1 =>
    (sfsRwblockNolock Bytes.zero 0 blkno true true).andThen fun _ => sfsClearBlock (blkno + 1) nblks

end Ucore

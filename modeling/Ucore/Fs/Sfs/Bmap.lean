import Ucore.Fs.Sfs.Io

set_option autoImplicit false

/-!
# Block allocation and the block map of SFS (`lab8/kern/fs/sfs/sfs_inode.c`)

The functions take the number of a cached inode. A function that stores a result through a pointer
returns it.

## Main definitions

* `sfsBlockInuse`, `sfsBlockAlloc`, `sfsBlockFree`.
* `sfsBmapGetNolock`, `sfsBmapFreeNolock` — look up, create and free the block of a
  logical index.
* `sfsBmapLoadNolock`, `sfsBmapTruncateNolock` — the same for the index up to which a
  file has blocks.
-/

namespace Ucore

/-- `sfs_block_inuse` -/
def sfsBlockInuse (ino : ℕ) : Sfs Bool := do
  let s ← Comp.read
  if ino ≠ 0 ∧ ino < s.super.blocks then do
    let free ← liftBitmap (bitmapTest s.freemap ino)
    pure !free
  else Comp.halt .inuseRange

/-- `assert(sfs_block_inuse(sfs, ino))` -/
def assertInuse (ino : ℕ) : Sfs Unit := do
  let inuse ← sfsBlockInuse ino
  Comp.ensure (inuse = true) .notInuse

/-- `sfs_block_alloc` -/
def sfsBlockAlloc : Sfs (Except Errno ℕ) := do
  let s ← Comp.read
  let found ← liftBitmap (bitmapAlloc s.freemap)
  match found with
  | none => pure (.error .noMem)
  | some (ino, freemap) => do
    Comp.modify fun s => { s with freemap := freemap }
    Comp.ensure (0 < s.super.unusedBlocks) .noUnused
    Comp.modify fun s =>
      { s with super.unusedBlocks := s.super.unusedBlocks - 1, superDirty := true }
    assertInuse ino
    (sfsClearBlock ino 1).andThen fun _ => pure (.ok ino)

/-- `sfs_block_free` -/
def sfsBlockFree (ino : ℕ) : Sfs Unit := do
  assertInuse ino
  let s ← Comp.read
  let freemap ← liftBitmap (bitmapFree s.freemap ino)
  Comp.modify fun s =>
    { s with freemap := freemap, super.unusedBlocks := s.super.unusedBlocks + 1,
             superDirty := true }

/-- The label `failed_cleanup` of `sfs_bmap_get_sub_nolock`: give back the entry block if it has
just been allocated. -/
def cleanupEntry (entp ent : ℕ) (ret : Errno) : Sfs (Except Errno (ℕ × ℕ)) := do
  if ent ≠ entp then sfsBlockFree ent
  pure (.error ret)

/-- The last part of `sfs_bmap_get_sub_nolock`: allocate a block and enter it into the entry
block `ent`. -/
def allocEntry (entp ent offset : ℕ) : Sfs (Except Errno (ℕ × ℕ)) := do
  let found ← sfsBlockAlloc
  match found with
  | .error ret => cleanupEntry entp ent ret
  | .ok ino => do
    let written ← sfsWbuf (Bytes.zero.put32 0 ino) 0 4 ent offset
    match written with
    | .error ret => do
      sfsBlockFree ino
      cleanupEntry entp ent ret
    | .ok _ => pure (.ok (ent, ino))

/-- `sfs_bmap_get_sub_nolock`: the entry block and the block. -/
def sfsBmapGetSubNolock (entp index : ℕ) (create : Bool) : Sfs (Except Errno (ℕ × ℕ)) := do
  Comp.ensure (index < blkNentry) .entryRange
  let offset := index * 4
  if entp ≠ 0 then
    (sfsRbuf Bytes.zero 0 4 entp offset).andThen fun buf =>
      let ino := buf.get32 0
      if ino ≠ 0 ∨ create = false then pure (.ok (entp, ino)) else allocEntry entp entp offset
  else if create = false then pure (.ok (entp, 0))
  else sfsBlockAlloc.andThen fun ent => allocEntry entp ent offset

/-- The label `out` of `sfs_bmap_get_nolock`. -/
def bmapGetOut (ino : ℕ) : Sfs (Except Errno ℕ) := do
  if ino ≠ 0 then assertInuse ino
  pure (.ok ino)

/-- `din->direct[index] = ino, sin->dirty = 1` -/
def SfsInode.setDirect (sin : SfsInode) (index : Fin nDirect) (ino : ℕ) : SfsInode :=
  { sin with din := { sin.din with direct := Function.update sin.din.direct index ino },
             dirty := true }

/-- `din->indirect = ent, sin->dirty = 1` -/
def SfsInode.setIndirect (sin : SfsInode) (ent : ℕ) : SfsInode :=
  { sin with din := { sin.din with indirect := ent }, dirty := true }

/-- `din->blocks = blocks` -/
def SfsInode.setBlocks (sin : SfsInode) (blocks : ℕ) : SfsInode :=
  { sin with din := { sin.din with blocks := blocks } }

/-- `din->size = size, sin->dirty = 1` -/
def SfsInode.setSize (sin : SfsInode) (size : ℕ) : SfsInode :=
  { sin with din := { sin.din with size := size }, dirty := true }

/-- `sin->dirty = 1` -/
def SfsInode.setDirty (sin : SfsInode) : SfsInode := { sin with dirty := true }

/-- `sfs_bmap_get_nolock` -/
def sfsBmapGetNolock (i index : ℕ) (create : Bool) : Sfs (Except Errno ℕ) := do
  let sin ← getSin i
  if h : index < nDirect then
    if sin.din.direct ⟨index, h⟩ = 0 ∧ create = true then
      sfsBlockAlloc.andThen fun ino => do
        Comp.modify (·.modSin i (·.setDirect ⟨index, h⟩ ino))
        bmapGetOut ino
    else bmapGetOut (sin.din.direct ⟨index, h⟩)
  else if index - nDirect < blkNentry then
    (sfsBmapGetSubNolock sin.din.indirect (index - nDirect) create).andThen fun (ent, ino) => do
      if ent ≠ sin.din.indirect then do
        Comp.ensure (sin.din.indirect = 0) .indirectSet
        Comp.modify (·.modSin i (·.setIndirect ent))
      bmapGetOut ino
  else Comp.halt .indexRange

/-- `sfs_bmap_free_sub_nolock` -/
def sfsBmapFreeSubNolock (ent index : ℕ) : Sfs (Except Errno Unit) := do
  assertInuse ent
  Comp.ensure (index < blkNentry) .entryRange
  let offset := index * 4
  (sfsRbuf Bytes.zero 0 4 ent offset).andThen fun buf =>
    let ino := buf.get32 0
    if ino ≠ 0 then
      (sfsWbuf (Bytes.zero.put32 0 0) 0 4 ent offset).andThen fun _ => do
        sfsBlockFree ino
        pure (.ok ())
    else pure (.ok ())

/-- `sfs_bmap_free_nolock` -/
def sfsBmapFreeNolock (i index : ℕ) : Sfs (Except Errno Unit) := do
  let sin ← getSin i
  if h : index < nDirect then
    if sin.din.direct ⟨index, h⟩ ≠ 0 then do
      sfsBlockFree (sin.din.direct ⟨index, h⟩)
      Comp.modify (·.modSin i (·.setDirect ⟨index, h⟩ 0))
      pure (.ok ())
    else pure (.ok ())
  else if index - nDirect < blkNentry then
    if sin.din.indirect ≠ 0 then sfsBmapFreeSubNolock sin.din.indirect (index - nDirect)
    else pure (.ok ())
  else pure (.ok ())

/-- `sfs_bmap_load_nolock` -/
def sfsBmapLoadNolock (i index : ℕ) : Sfs (Except Errno ℕ) := do
  let sin ← getSin i
  Comp.ensure (index ≤ sin.din.blocks) .loadIndex
  let create : Bool := index = sin.din.blocks
  (sfsBmapGetNolock i index create).andThen fun ino => do
    assertInuse ino
    if create then Comp.modify (·.modSin i fun sin => sin.setBlocks (sin.din.blocks + 1))
    pure (.ok ino)

/-- `sfs_bmap_truncate_nolock` -/
def sfsBmapTruncateNolock (i : ℕ) : Sfs (Except Errno Unit) := do
  let sin ← getSin i
  Comp.ensure (sin.din.blocks ≠ 0) .truncateEmpty
  (sfsBmapFreeNolock i (sin.din.blocks - 1)).andThen fun _ => do
    Comp.modify (·.modSin i fun sin => (sin.setBlocks (sin.din.blocks - 1)).setDirty)
    pure (.ok ())

end Ucore

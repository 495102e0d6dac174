import Ucore.Fs.Sfs.Bitmap
import Ucore.Lib.Bytes
import Ucore.Libs.Error

set_option autoImplicit false

/-!
# The simple file system: data model (`lab8/kern/fs/sfs/sfs.h`)

A mounted SFS: the super block and the freemap in memory, the cached inodes by inode number, and
the blocks of the device. The device may refuse transfers; `faults` says what it answers to the
next ones.

## Main definitions

* `SfsDiskInode`, `SfsInode`, `SfsSuper`, `SfsFs`.
* `encodeInode`, `decodeInode` — the inode's bytes on disk.
* `encodeSuper`, `decodeSuper` — the super block's bytes on disk.
* `SfsPanic` — the assertions and panics of the file system.

## Main results

* `decodeInode_encodeInode`, `decodeSuper_encodeSuper` — what has been written is read back.
-/

namespace Ucore

open Bytes

/-! ## Constants -/

/-- `SFS_BLKSIZE` -/
def blkSize : ℕ := 4096

/-- `SFS_NDIRECT` -/
def nDirect : ℕ := 12

/-- `SFS_BLK_NENTRY` -/
def blkNentry : ℕ := 1024

/-- `SFS_MAX_FILE_SIZE` -/
def maxFileSize : ℕ := 1024 * 1024 * 128

/-- `SFS_BLKBITS` -/
def blkBits : ℕ := blkSize * 8

/-- `SFS_MAGIC` -/
def sfsMagic : ℕ := 0x2f8dbe2a

/-- `SFS_TYPE_FILE` -/
def typeFile : ℕ := 1

/-- `SFS_TYPE_DIR` -/
def typeDir : ℕ := 2

/-- `SFS_TYPE_LINK` -/
def typeLink : ℕ := 3

/-- `SFS_MAX_FNAME_LEN` -/
def maxFnameLen : ℕ := 255

/-- `SFS_BLKN_SUPER` -/
def blknSuper : ℕ := 0

/-- `SFS_BLKN_ROOT` -/
def blknRoot : ℕ := 1

/-- `SFS_BLKN_FREEMAP` -/
def blknFreemap : ℕ := 2

/-- `sfs_freemap_blocks` -/
def freemapBlocks (blocks : ℕ) : ℕ := (blocks + blkBits - 1) / blkBits

/-! ## Inodes -/

/-- `struct sfs_disk_inode` -/
@[ext]
structure SfsDiskInode where
  size : ℕ
  type : ℕ
  nlinks : ℕ
  blocks : ℕ
  direct : Fin nDirect → ℕ
  indirect : ℕ

/-- The bytes of a disk inode: the fields in their order, little-endian. -/
def encodeInode (din : SfsDiskInode) : Bytes :=
  let m := Bytes.zero.put32 0 din.size
  let m := m.put16 4 din.type
  let m := m.put16 6 din.nlinks
  let m := m.put32 8 din.blocks
  let m := m.putWords 12 nDirect fun k => if h : k < nDirect then din.direct ⟨k, h⟩ else 0
  m.put32 60 din.indirect

/-- The disk inode at the start of a block. -/
def decodeInode (m : Bytes) : SfsDiskInode where
  size := m.get32 0
  type := m.get16 4
  nlinks := m.get16 6
  blocks := m.get32 8
  direct k := m.get32 (12 + 4 * k)
  indirect := m.get32 60

/-- `sizeof(struct sfs_disk_inode)` -/
def diskInodeSize : ℕ := 64

/-- `struct sfs_inode`, with the two counters of the `struct inode` that contains it. -/
structure SfsInode where
  din : SfsDiskInode
  dirty : Bool
  reclaimCount : ℤ
  refCount : ℤ
  openCount : ℤ

/-! ## The file system -/

/-- `struct sfs_super` -/
structure SfsSuper where
  magic : ℕ
  blocks : ℕ
  unusedBlocks : ℕ

/-- The bytes of the super block, without the information text. -/
def encodeSuper (super : SfsSuper) : Bytes :=
  ((Bytes.zero.put32 0 super.magic).put32 4 super.blocks).put32 8 super.unusedBlocks

/-- The super block at the start of a block. -/
def decodeSuper (m : Bytes) : SfsSuper := ⟨m.get32 0, m.get32 4, m.get32 8⟩

/-- `sizeof(struct sfs_super)` -/
def superSize : ℕ := 44

/-- `struct sfs_fs`: the super block and the freemap, the cached inodes, and the device's blocks.
`faults` are the device's answers to the next transfers; once they are used up every transfer
succeeds. -/
structure SfsFs where
  super : SfsSuper
  freemap : Bitmap
  superDirty : Bool
  nodes : ℕ → Option SfsInode
  disk : ℕ → Bytes
  faults : List (Option Errno)

/-- The assertions and panics of the file system. -/
inductive SfsPanic
  /-- an assertion of the freemap -/
  | bitmap (p : BitmapPanic)
  /-- `sfs_block_inuse: called out of range` -/
  | inuseRange
  /-- `assert(sfs_block_inuse(sfs, ino))` -/
  | notInuse
  /-- `assert(sfs->super.unused_blocks > 0)` -/
  | noUnused
  /-- `assert((blkno != 0 || !check) && blkno < sfs->super.blocks)` in `sfs_rwblock_nolock` -/
  | rwRange
  /-- the assertion on offset and length in `sfs_rbuf` and `sfs_wbuf` -/
  | bufRange
  /-- `assert(index < SFS_BLK_NENTRY)` in `sfs_bmap_get_sub_nolock` and
  `sfs_bmap_free_sub_nolock` -/
  | entryRange
  /-- `assert(din->indirect == 0)` in `sfs_bmap_get_nolock` -/
  | indirectSet
  /-- `sfs_bmap_get_nolock - index out of range` -/
  | indexRange
  /-- `assert(index <= din->blocks)` in `sfs_bmap_load_nolock` -/
  | loadIndex
  /-- `assert(din->blocks != 0)` in `sfs_bmap_truncate_nolock` -/
  | truncateEmpty
  /-- `assert(din->type != SFS_TYPE_DIR)` in `sfs_io_nolock` -/
  | ioDir
  /-- `assert(tblks == din->blocks)` and `assert(din->blocks == tblks)` in `sfs_truncfile` -/
  | truncBlocks
  /-- `assert(iob->io_resid >= n)` in `iobuf_skip` -/
  | iobufSkip
  /-- `assert(sin->reclaim_count > 0)` in `sfs_reclaim` -/
  | reclaimCount
  /-- the assertion of `__vop_op` that the inode has the operation -/
  | noVop
  /-- `assert(data != NULL && len == nblks * SFS_BLKSIZE)` in `sfs_init_freemap` -/
  | freemapLen
  /-- `assert(unused_blocks == sfs->super.unused_blocks)` in `sfs_do_mount` -/
  | unusedCount
  /-- `assert(din->nlinks != 0)` in `sfs_load_inode` -/
  | noLinks
  /-- `invalid file type` in `sfs_get_ops` -/
  | badType
  /-- the assertion on type and slot in `sfs_dirent_read_nolock` -/
  | direntSlot
  /-- `assert(strlen(name) <= SFS_MAX_FNAME_LEN)` in `sfs_dirent_search_nolock` -/
  | longName
  /-- an inode that is not cached -/
  | noInode
  deriving DecidableEq, Repr

/-- Computations on a mounted file system. -/
abbrev Sfs (α : Type) : Type := Comp SfsPanic SfsFs α

/-- Run a freemap function. -/
def liftBitmap {α : Type} : Except BitmapPanic α → Sfs α
  | .ok a => pure a
  | .error p => Comp.halt (.bitmap p)

/-- The cached inode `ino`. -/
def getSin (ino : ℕ) : Sfs SfsInode := do
  let s ← Comp.read
  match s.nodes ino with
  | some sin => pure sin
  | none => Comp.halt .noInode

/-- Change the cached inode `ino`. -/
def SfsFs.modSin (s : SfsFs) (ino : ℕ) (f : SfsInode → SfsInode) : SfsFs :=
  { s with nodes := Function.update s.nodes ino ((s.nodes ino).map f) }

/-! ## Reading back an inode -/

/-- The values fit into the fields' types. -/
structure SfsDiskInode.Fits (din : SfsDiskInode) : Prop where
  size : din.size < 2 ^ 32
  type : din.type < 2 ^ 16
  nlinks : din.nlinks < 2 ^ 16
  blocks : din.blocks < 2 ^ 32
  direct : ∀ k, din.direct k < 2 ^ 32
  indirect : din.indirect < 2 ^ 32

lemma decodeInode_fits (m : Bytes) : (decodeInode m).Fits :=
  ⟨get32_lt _ _, get16_lt _ _, get16_lt _ _, get32_lt _ _,
    fun _ => get32_lt _ _, get32_lt _ _⟩

/-- **The on-disk format**: an inode is read back as it was written. -/
lemma decodeInode_encodeInode {din : SfsDiskInode} (h : din.Fits) :
    decodeInode (encodeInode din) = din := by
  unfold decodeInode encodeInode
  ext1
  · rw [get32_put32_of_disjoint _ (by omega),
      get32_putWords_of_disjoint _ _ _ (by omega),
      get32_put32_of_disjoint _ (by omega), get32_put16_of_disjoint _ (by omega),
      get32_put16_of_disjoint _ (by omega), get32_put32 _ _ h.size]
  · rw [get16_put32_of_disjoint _ (by omega),
      get16_putWords_of_disjoint _ _ _ (by omega),
      get16_put32_of_disjoint _ (by omega), get16_put16_of_disjoint _ (by omega),
      get16_put16 _ _ h.type]
  · simp only
    rw [get16_put32_of_disjoint _ (by omega),
      get16_putWords_of_disjoint _ _ _ (by omega),
      get16_put32_of_disjoint _ (by omega), get16_put16 _ _ h.nlinks]
  · simp only
    rw [get32_put32_of_disjoint _ (by omega),
      get32_putWords_of_disjoint _ _ _ (by omega), get32_put32 _ _ h.blocks]
  · funext k
    have hk : (k : ℕ) < 12 := k.isLt
    simp only
    rw [get32_put32_of_disjoint _ (by omega), get32_putWords _ _ _ _ k.isLt]
    · simp
    · simpa using h.direct k
  · rw [get32_put32 _ _ h.indirect]

/-- **The super block** is read back as it was written. -/
lemma decodeSuper_encodeSuper {super : SfsSuper} (hm : super.magic < 2 ^ 32)
    (hb : super.blocks < 2 ^ 32) (hu : super.unusedBlocks < 2 ^ 32) :
    decodeSuper (encodeSuper super) = super := by
  obtain ⟨magic, blocks, unused⟩ := super
  simp only [decodeSuper, encodeSuper, SfsSuper.mk.injEq]
  refine ⟨?_, ?_, ?_⟩
  · rw [get32_put32_of_disjoint _ (by omega), get32_put32_of_disjoint _ (by omega),
      get32_put32 _ _ hm]
  · rw [get32_put32_of_disjoint _ (by omega), get32_put32 _ _ hb]
  · exact get32_put32 _ _ hu

lemma decodeSuper_congr {m m' : Bytes} (h : ∀ i < superSize, m i = m' i) :
    decodeSuper m = decodeSuper m' := by
  unfold superSize at h
  simp only [decodeSuper, SfsSuper.mk.injEq]
  refine ⟨?_, ?_, ?_⟩ <;> exact get32_congr fun k hk => h _ (by omega)

/-- An inode is read from the first bytes of its block. -/
lemma decodeInode_congr {m m' : Bytes} (h : ∀ i < diskInodeSize, m i = m' i) :
    decodeInode m = decodeInode m' := by
  unfold diskInodeSize at h
  ext1
  · exact get32_congr fun k hk => h _ (by omega)
  · exact get16_congr fun k hk => h _ (by omega)
  · exact get16_congr fun k hk => h _ (by omega)
  · exact get32_congr fun k hk => h _ (by omega)
  · funext j
    have hj : (j : ℕ) < 12 := j.isLt
    exact get32_congr fun k hk => h _ (by omega)
  · exact get32_congr fun k hk => h _ (by omega)

end Ucore

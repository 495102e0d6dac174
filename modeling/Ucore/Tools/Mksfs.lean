import Ucore.Fs.Sfs.Defs

set_option autoImplicit false

/-!
# The image builder (`lab8/tools/mksfs.c`)

`mksfs` copies a directory tree of the host into an SFS image. Blocks are handed out in increasing
order; inodes and blocks of block numbers are kept in memory, in hash lists, and written at the end.

A `struct cache_block` or `struct cache_inode` is identified by its block number `ino`. What the
host returns is data of the model: the tree of directory entries, and for each inode number of the
host the answers to the successive calls of `read`.

## Main definitions

* `MkSfs` — the builder's state; `Mk` — its computations.
* `Host`, `HostEntry` — the host's files and directories.
* `appendBlock`, `openFile`, `addEntry`, `openDir`, `closeSfs`.
* `createImg` — the whole program.
-/

namespace Ucore

open Function

/-! ## Constants -/

/-- `SFS_MAX_NBLKS` -/
def maxNblks : ℕ := 1024 * 512

/-- `HASH_SHIFT` -/
def hashShift : ℕ := 10

/-- `HASH_LIST_SIZE` -/
def hashListSize : ℕ := 2 ^ hashShift

/-- `SFS_L0_NBLKS` -/
abbrev l0Nblks : ℕ := nDirect

/-- `SFS_L1_NBLKS` -/
def l1Nblks : ℕ := blkNentry + l0Nblks

/-- `SFS_L2_NBLKS` -/
def l2Nblks : ℕ := blkNentry * blkNentry + l1Nblks

/-- `SFS_LN_NBLKS` -/
def lnNblks : ℕ := maxFileSize / blkSize

/-- `hash32` and `hash64`: the second takes the low 32 bits of its argument. -/
def hash32 (val : ℕ) : ℕ := val * 0x9e370001 % 2 ^ 32 / 2 ^ (32 - hashShift)

/-! ## The host -/

/-- The answer to a call of `read` before the end of the file: an error, or at most as many bytes as
a block has. -/
abbrev HostRead : Type := Option {bs : List UInt8 // 0 < bs.length ∧ bs.length ≤ blkSize}

/-- The bytes that were read. -/
def HostRead.bytes (r : HostRead) : List UInt8 := (r.map Subtype.val).getD []

/-- The return value of `read`, as a `size_t`. -/
def HostRead.ret : HostRead → ℕ
  | none => 2 ^ 64 - 1
  | some c => c.val.length

/-- The regular files of the host, by inode number. -/
structure Host where
  reads : ℕ → List HostRead

/-- An entry of a directory of the host: what `readdir`, `lstat` and `readlink` return. -/
inductive HostEntry
  | link (name : List UInt8) (real : ℕ) (target : Option (List UInt8))
  | dir (name : List UInt8) (real : ℕ) (entries : List HostEntry)
  | file (name : List UInt8) (real : ℕ)
  | other (name : List UInt8)

/-! ## The state -/

/-- `struct inode` of `mksfs` -/
structure MkInode extends SfsDiskInode where
  dbIndirect : ℕ

/-- `struct cache_inode`, without `ino` -/
structure CacheInode where
  inode : MkInode
  real : ℕ
  nblks : ℕ
  l1 : Option ℕ
  l2 : Option ℕ

/-- `struct sfs_fs` of `mksfs` and the image file. The cached inodes and the cached blocks are
functions of their block numbers; `inodes` and `blocks` are the hash lists. `entry` is the static
buffer of `add_entry`. The field `appended` is not part of the program: it records which blocks have
been appended to each inode. -/
structure MkSfs where
  super : SfsSuper
  ninos : ℕ
  nextIno : ℕ
  image : ℕ → Bytes
  inodeOf : ℕ → Option CacheInode
  cacheOf : ℕ → Option Bytes
  inodes : ℕ → List ℕ
  blocks : ℕ → List ℕ
  entry : Bytes
  appended : ℕ → List ℕ

/-- The assertions and error exits of `mksfs`. -/
inductive MkBug
  /-- `img file is too small` -/
  | tooSmall
  /-- `out of disk space` -/
  | outOfSpace
  /-- `assert(len <= SFS_BLKSIZE && ino < sfs->ninos)` in `write_block` -/
  | writeRange
  /-- `assert(cb != NULL && cb->ino == ino)` in `update_cache` -/
  | notCached
  /-- `assert(size <= SFS_BLKSIZE)` in `append_block` -/
  | appendSize
  /-- `file is too big` -/
  | tooBig
  /-- the assertion on type and name length in `add_entry` -/
  | badEntry
  /-- `assert(search_cache_inode(sfs, real) == NULL)` in `add_dir` -/
  | seenDir
  /-- `assert(last == SFS_BLKSIZE)` in `open_file` -/
  | shortRead
  /-- `read link failed` -/
  | readLink
  /-- `file name is too long` -/
  | longName
  /-- a pointer to no cached inode or block -/
  | badPointer
  deriving DecidableEq, Repr

/-- Computations of the builder. -/
abbrev Mk (α : Type) : Type := Comp MkBug MkSfs α

/-- The cached inode `f`. -/
def getInode (f : ℕ) : Mk CacheInode := do
  let s ← Comp.read
  match s.inodeOf f with
  | some ci => pure ci
  | none => Comp.halt .badPointer

/-- The contents of the cached block `b`. -/
def getCache (b : ℕ) : Mk Bytes := do
  let s ← Comp.read
  match s.cacheOf b with
  | some data => pure data
  | none => Comp.halt .badPointer

/-- Change the cached inode `f`. -/
def MkSfs.modInode (s : MkSfs) (f : ℕ) (g : CacheInode → CacheInode) : MkSfs :=
  { s with inodeOf := update s.inodeOf f ((s.inodeOf f).map g) }

/-- `data[k] = v` in the cached block `b`. -/
def MkSfs.putCache (s : MkSfs) (b k v : ℕ) : MkSfs :=
  { s with cacheOf := update s.cacheOf b ((s.cacheOf b).map (·.put32 (4 * k) v)) }

/-! ## Blocks and inodes -/

/-- `sfs_alloc_ino` -/
def sfsAllocIno : Mk ℕ := do
  let s ← Comp.read
  if s.nextIno < s.ninos then do
    Comp.modify fun s =>
      { s with super.unusedBlocks := s.super.unusedBlocks - 1, nextIno := s.nextIno + 1 }
    pure s.nextIno
  else Comp.halt .outOfSpace

/-- `(ino != 0) ? ino : sfs_alloc_ino(sfs)` -/
def orAllocIno (ino : ℕ) : Mk ℕ := if ino ≠ 0 then pure ino else sfsAllocIno

/-- `alloc_cache_block`. The block goes to the list of the argument `ino`, also if that is zero. -/
def allocCacheBlock (ino : ℕ) : Mk ℕ := do
  let b ← orAllocIno ino
  Comp.modify fun s =>
    { s with cacheOf := update s.cacheOf b (some Bytes.zero),
             blocks := update s.blocks (hash32 ino) (b :: s.blocks (hash32 ino)) }
  pure b

/-- `search_cache_block` -/
def MkSfs.searchCacheBlock (s : MkSfs) (ino : ℕ) : Option ℕ :=
  (s.blocks (hash32 ino)).find? (· = ino)

/-- The inode that `alloc_cache_inode` starts with. -/
def emptyInode (type : ℕ) : MkInode where
  size := 0
  type := type
  nlinks := 0
  blocks := 0
  direct _ := 0
  indirect := 0
  dbIndirect := 0

/-- `alloc_cache_inode` -/
def allocCacheInode (real ino type : ℕ) : Mk ℕ := do
  let f ← orAllocIno ino
  Comp.modify fun s =>
    { s with inodeOf := update s.inodeOf f (some ⟨emptyInode type, real, 0, none, none⟩),
             inodes := update s.inodes (hash32 real) (f :: s.inodes (hash32 real)) }
  pure f

/-- `search_cache_inode` -/
def MkSfs.searchCacheInode (s : MkSfs) (real : ℕ) : Option ℕ :=
  (s.inodes (hash32 real)).find? fun f => (s.inodeOf f).map CacheInode.real = some real

/-- `write_block` -/
def writeBlock (data : Bytes) (len ino : ℕ) : Mk Unit := do
  let s ← Comp.read
  Comp.ensure (len ≤ blkSize ∧ ino < s.ninos) .writeRange
  let data := if len ≠ blkSize then Bytes.zero.copy 0 data 0 len else data
  Comp.modify fun s => { s with image := update s.image ino (Bytes.zero.copy 0 data 0 blkSize) }

/-! ## Appending to an inode -/

/-- `update_cache` for the pointer `cbp` and the block number `inop`: the block that both refer to
afterwards. -/
def updateCache (cbp : Option ℕ) (inop : ℕ) : Mk ℕ := do
  if inop = 0 then allocCacheBlock 0
  else if cbp ≠ some inop then do
    let s ← Comp.read
    Comp.ensure (s.searchCacheBlock inop = some inop) .notCached
    pure inop
  else pure inop

/-- `inode->direct[k] = ino` -/
def CacheInode.setDirect (ci : CacheInode) (k : Fin nDirect) (ino : ℕ) : CacheInode :=
  { ci with inode.direct := update ci.inode.direct k ino }

/-- `file->l1` and `inode->indirect` after `update_cache` -/
def CacheInode.setIndirect (ci : CacheInode) (l1 : ℕ) : CacheInode :=
  { ci with l1 := some l1, inode.indirect := l1 }

/-- `file->l2` and `inode->db_indirect` after `update_cache` -/
def CacheInode.setDouble (ci : CacheInode) (l2 : ℕ) : CacheInode :=
  { ci with l2 := some l2, inode.dbIndirect := l2 }

/-- `file->nblks ++, inode->size += size, inode->blocks ++` -/
def CacheInode.count (ci : CacheInode) (size : ℕ) : CacheInode :=
  { ci with nblks := ci.nblks + 1, inode.size := (ci.inode.size + size) % 2 ^ 32,
            inode.blocks := ci.inode.blocks + 1 }

/-- `file->inode.nlinks ++` -/
def CacheInode.link (ci : CacheInode) : CacheInode :=
  { ci with inode.nlinks := (ci.inode.nlinks + 1) % 2 ^ 16 }

/-- The place of the block in `append_block`: a direct block, an entry of the indirect block, or an
entry of a block of the double indirect block. -/
def placeBlock (f ino : ℕ) : Mk Unit := do
  let ci ← getInode f
  if h : ci.nblks < l0Nblks then
    Comp.modify (·.modInode f (·.setDirect ⟨ci.nblks, h⟩ ino))
  else if ci.nblks < l1Nblks then do
    let l1 ← updateCache ci.l1 ci.inode.indirect
    Comp.modify (·.modInode f (·.setIndirect l1))
    Comp.modify (·.putCache l1 (ci.nblks - l0Nblks) ino)
  else if ci.nblks < l2Nblks then do
    let nblks := ci.nblks - l1Nblks
    let l2 ← updateCache ci.l2 ci.inode.dbIndirect
    Comp.modify (·.modInode f (·.setDouble l2))
    let data2 ← getCache l2
    let l1 ← updateCache ci.l1 (data2.get32 (4 * (nblks / blkNentry)))
    Comp.modify (·.putCache l2 (nblks / blkNentry) l1)
    Comp.modify (·.modInode f fun ci => { ci with l1 := some l1 })
    Comp.modify (·.putCache l1 (nblks % blkNentry) ino)

/-- `append_block` -/
def appendBlock (f size ino : ℕ) : Mk Unit := do
  Comp.ensure (size ≤ blkSize) .appendSize
  let ci ← getInode f
  if lnNblks ≤ ci.nblks then Comp.halt .tooBig
  else do
    placeBlock f ino
    Comp.modify (·.modInode f (·.count size))
    Comp.modify fun s => { s with appended := update s.appended f (s.appended f ++ [ino]) }

/-! ## Files, links and directories -/

/-- What `open_file` and `add_entry` do with a block: it is allocated, written and appended. -/
def storeBlock (f : ℕ) (data : Bytes) (len : ℕ) : Mk Unit := do
  let ino ← sfsAllocIno
  writeBlock data len ino
  appendBlock f len ino

/-- The loop of `open_file`; `last` is the number of bytes read before. A failed `read` enters the
loop like any other that does not return zero. -/
def openFileLoop (f : ℕ) : List HostRead → ℕ → Mk Unit
  | [], _ => pure ()
  | r :: reads, last => do
    Comp.ensure (last = blkSize) .shortRead
    storeBlock f (Bytes.ofList r.bytes) r.ret
    openFileLoop f reads r.ret

/-- `open_file` -/
def openFile (f : ℕ) (reads : List HostRead) : Mk Unit := openFileLoop f reads blkSize

/-- `open_link`; `target` is what `readlink` returns, with at most `SFS_BLKSIZE` bytes. -/
def openLink (f : ℕ) (target : Option (List UInt8)) : Mk Unit := do
  let ino ← sfsAllocIno
  match target with
  | none => Comp.halt .readLink
  | some path =>
    if blkSize ≤ path.length then Comp.halt .readLink
    else do
      writeBlock (Bytes.ofList path) path.length ino
      appendBlock f path.length ino

/-- The static buffer after `entry->ino = ino, strcpy(entry->name, name)`. -/
def fillEntry (entry : Bytes) (ino : ℕ) (name : List UInt8) : Bytes :=
  (entry.put32 0 ino).copy 4 (Bytes.ofList name) 0 (name.length + 1)

/-- `sizeof(entry->name)` -/
def entryNameSize : ℕ := maxFnameLen + 1

/-- `add_entry`. The number of bytes written is the size of the name, not of the entry. -/
def addEntry (current file : ℕ) (name : List UInt8) : Mk Unit := do
  let ci ← getInode current
  Comp.ensure (ci.inode.type = typeDir ∧ name.length ≤ maxFnameLen) .badEntry
  Comp.modify fun s => { s with entry := fillEntry s.entry file name }
  let s ← Comp.read
  storeBlock current s.entry entryNameSize
  Comp.modify (·.modInode file CacheInode.link)

/-- `add_file` -/
def addFile (host : Host) (current : ℕ) (filename : List UInt8) (real : ℕ) : Mk Unit := do
  let s ← Comp.read
  match s.searchCacheInode real with
  | some file => addEntry current file filename
  | none => do
    let file ← allocCacheInode real 0 typeFile
    openFile file (host.reads real)
    addEntry current file filename

/-- `add_link` -/
def addLink (current : ℕ) (filename : List UInt8) (real : ℕ) (target : Option (List UInt8)) :
    Mk Unit := do
  let file ← allocCacheInode real 0 typeLink
  openLink file target
  addEntry current file filename

/-- The name `.` -/
def dotName : List UInt8 := [46]

/-- The name `..` -/
def dotdotName : List UInt8 := [46, 46]

/-- What the loop of `open_dir` does with a name before it looks at the file: names that start with
a dot are skipped, long names are refused. -/
def withName (name : List UInt8) (m : Mk Unit) : Mk Unit :=
  if name.head? = some 46 then pure ()
  else if maxFnameLen < name.length then Comp.halt .longName
  else m

/-- `open_dir`, with its loop as an argument. -/
def openDirWith (current parent : ℕ) (loop : Mk Unit) : Mk Unit := do
  addEntry current current dotName
  addEntry current parent dotdotName
  loop

/-- `add_dir`, with the loop of `open_dir` as an argument. -/
def addDirWith (parent : ℕ) (dirname : List UInt8) (real : ℕ) (loop : ℕ → Mk Unit) : Mk Unit := do
  let s ← Comp.read
  Comp.ensure (s.searchCacheInode real = none) .seenDir
  let current ← allocCacheInode real 0 typeDir
  openDirWith current parent (loop current)
  addEntry parent current dirname

mutual

/-- One round of the loop of `open_dir`. -/
def addNode (host : Host) (current : ℕ) : HostEntry → Mk Unit
  | .link name real target => withName name (addLink current name real target)
  | .file name real => withName name (addFile host current name real)
  | .other name => withName name (pure ())
  | .dir name real entries =>
    withName name (addDirWith current name real fun child => addNodes host child entries)

/-- The loop of `open_dir`. -/
def addNodes (host : Host) (current : ℕ) : List HostEntry → Mk Unit
  | [] => pure ()
  | e :: es => do
    addNode host current e
    addNodes host current es

end

/-- `open_dir` -/
def openDir (host : Host) (current parent : ℕ) (entries : List HostEntry) : Mk Unit :=
  openDirWith current parent (addNodes host current entries)

/-! ## The image -/

/-- `create_sfs` for an image file of `imgSize` bytes. -/
def createSfs (imgSize : ℕ) (image : ℕ → Bytes) : Except MkBug MkSfs :=
  let ninos := imgSize / blkSize % 2 ^ 32
  let ninos := if maxNblks < ninos then maxNblks else ninos
  let nextIno := blknFreemap + freemapBlocks ninos
  if ninos ≤ nextIno then .error .tooSmall
  else
    let s : MkSfs :=
      { super := ⟨sfsMagic, ninos, ninos - nextIno⟩, ninos := ninos, nextIno := nextIno,
        image := image, inodeOf := fun _ => none, cacheOf := fun _ => none,
        inodes := fun _ => [], blocks := fun _ => [], entry := Bytes.zero,
        appended := fun _ => [] }
    match allocCacheInode 0 blknRoot typeDir s with
    | .ok (_, s) => .ok s
    | .error b => .error b

/-- The inner loop of `close_sfs`: set `k` bits from `j` on. -/
def setBits (data : Bytes) : ℕ → ℕ → Bytes
  | _, 0 => data
  | j, k + 1 =>
    setBits (data.put32 (4 * (j / 32)) (data.get32 (4 * (j / 32)) ||| 2 ^ (j % 32))) (j + 1) k

/-- The block of the freemap for the blocks from `i` on. -/
def freemapBlock (i nextIno ninos : ℕ) : Bytes :=
  if nextIno < i + blkBits then
    let first := if i < nextIno then nextIno - i else 0
    let last := if ninos < i + blkBits then ninos - i else blkBits
    setBits Bytes.zero first (last - first)
  else Bytes.zero

/-- `flush_cache_block` -/
def flushCacheBlock (b : ℕ) : Mk Unit := do
  let data ← getCache b
  writeBlock data blkSize b

/-- The bytes of an inode: those of the kernel's inode and then `db_indirect`. -/
def encodeMkInode (inode : MkInode) : Bytes :=
  (encodeInode inode.toSfsDiskInode).put32 diskInodeSize inode.dbIndirect

/-- `flush_cache_inode` -/
def flushCacheInode (f : ℕ) : Mk Unit := do
  let ci ← getInode f
  writeBlock (encodeMkInode ci.inode) (diskInodeSize + 4) f

/-- `close_sfs` -/
def closeSfs : Mk Unit := do
  let s ← Comp.read
  Comp.forEach (List.range (freemapBlocks s.ninos)) fun j =>
    writeBlock (freemapBlock (j * blkBits) s.nextIno s.ninos) blkSize (blknFreemap + j)
  writeBlock (encodeSuper s.super) superSize blknSuper
  Comp.forEach (List.range hashListSize) fun i => do
    Comp.forEach (s.blocks i) flushCacheBlock
    Comp.forEach (s.inodes i) flushCacheInode

/-- `create_img` -/
def createImg (host : Host) (imgSize : ℕ) (image : ℕ → Bytes) (home : List HostEntry) :
    Except MkBug MkSfs :=
  match createSfs imgSize image with
  | .error b => .error b
  | .ok s =>
    match (do openDir host blknRoot blknRoot home; closeSfs) s with
    | .ok (_, s) => .ok s
    | .error b => .error b

end Ucore

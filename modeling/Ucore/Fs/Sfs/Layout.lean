import Ucore.Fs.Sfs.Bmap
import Ucore.Lib.Owning

set_option autoImplicit false

/-!
# What a mounted SFS represents

Which blocks an inode refers to, who owns a block, and what the block-level functions do to a
mounted file system whose device works.

## Main definitions

* `SfsFs.dinOf`, `SfsFs.bmapAt` — the current disk inode of an inode number; the block
  of a logical index.
* `Mounted` — the super block, the freemap and the device fit together.
* `Slot`, `SfsFs.ref` — the places that refer to blocks, and the blocks they refer to.
* `Sound` — every block is owned at most once, and the freemap knows which are in use.

## Main results

* `sfsRbuf_apply`, `sfsWbuf_apply`, `sfsBlockOp_apply` — the transfers.
* `sfsBlockAlloc_apply`, `sfsBlockFree_apply` — allocation and release.
-/

namespace Ucore

open Function Comp Finset Bitmap

/-! ## The block map -/

/-- The block of the logical index `k` of a disk inode, `0` if there is none. -/
def SfsFs.mapAt (s : SfsFs) (din : SfsDiskInode) (k : ℕ) : ℕ :=
  if h : k < nDirect then din.direct ⟨k, h⟩
  else if k - nDirect < blkNentry ∧ din.indirect ≠ 0 then
    (s.disk din.indirect).get32 ((k - nDirect) * 4)
  else 0

/-- The disk inode `i`: the cached copy if there is one, the copy on disk otherwise. -/
def SfsFs.dinOf (s : SfsFs) (i : ℕ) : SfsDiskInode :=
  match s.nodes i with
  | some sin => sin.din
  | none => decodeInode (s.disk i)

/-- The block of the logical index `k` of the inode `i`. -/
def SfsFs.bmapAt (s : SfsFs) (i k : ℕ) : ℕ := s.mapAt (s.dinOf i) k

/-- The number of blocks a file can have: direct ones and those of the indirect block. -/
def maxBlocks : ℕ := nDirect + blkNentry

/-- A block of the volume that is marked in use. -/
structure InUse (s : SfsFs) (b : ℕ) : Prop where
  ne_zero : b ≠ 0
  lt : b < s.super.blocks
  notFree : b ∉ s.freemap.free

/-- The parts of a mounted file system fit together, and the device works. The offset of every
block fits into 32 bits. -/
structure Mounted (s : SfsFs) : Prop where
  blocks_le : s.super.blocks ≤ 2 ^ 20
  nbits : s.super.blocks ≤ s.freemap.nbits
  nwords : s.freemap.nbits = s.freemap.nwords * wordBits
  free : ∀ b ∈ s.freemap.free, b ≠ 0 ∧ b < s.super.blocks
  device : s.faults = []

variable {s t : SfsFs} {din : SfsDiskInode} {sin : SfsInode} {i k b : ℕ}

section Map

variable {i k : ℕ}

lemma dinOf_of_node (h : s.nodes i = some sin) : s.dinOf i = sin.din := by
  rw [SfsFs.dinOf, h]

lemma bmapAt_of_node (h : s.nodes i = some sin) : s.bmapAt i k = s.mapAt sin.din k := by
  rw [SfsFs.bmapAt, dinOf_of_node h]

lemma mapAt_direct (h : k < nDirect) : s.mapAt din k = din.direct ⟨k, h⟩ := by
  rw [SfsFs.mapAt, dif_pos h]

lemma mapAt_entry (h : ¬k < nDirect) (hk : k - nDirect < blkNentry) (hi : din.indirect ≠ 0) :
    s.mapAt din k = (s.disk din.indirect).get32 ((k - nDirect) * 4) := by
  rw [SfsFs.mapAt, dif_neg h, if_pos ⟨hk, hi⟩]

lemma mapAt_no_entry (h : ¬k < nDirect) (hi : din.indirect = 0) : s.mapAt din k = 0 := by
  rw [SfsFs.mapAt, dif_neg h, if_neg (by simp [hi])]

lemma lt_of_mapAt_ne_zero (h : s.mapAt din k ≠ 0) : k < maxBlocks := by
  unfold SfsFs.mapAt at h
  unfold maxBlocks
  split_ifs at h with h1 h2
  · omega
  · omega
  · exact absurd rfl h

lemma indirect_ne_zero_of_mapAt (h : s.mapAt din k ≠ 0) (hk : ¬k < nDirect) :
    k - nDirect < blkNentry ∧ din.indirect ≠ 0 := by
  unfold SfsFs.mapAt at h
  rw [dif_neg hk] at h
  by_contra hc
  rw [if_neg hc] at h
  exact h rfl

lemma mapAt_congr (h : din.indirect ≠ 0 → t.disk din.indirect = s.disk din.indirect) :
    t.mapAt din k = s.mapAt din k := by
  unfold SfsFs.mapAt
  split_ifs with h1 h2
  · rfl
  · rw [h h2.2]
  · rfl

end Map

/-! ## Ownership -/

/-- The places that refer to blocks: inode numbers, indirect pointers and logical indices. -/
inductive Slot
  | inode (i : ℕ)
  | indirect (i : ℕ)
  | data (i k : ℕ)
  deriving DecidableEq

/-- The block a slot refers to, for the inodes `I` of the volume; `0` if there is none. -/
def SfsFs.ref (s : SfsFs) (I : Finset ℕ) : Slot → ℕ
  | .inode i => if i ∈ I then i else 0
  | .indirect i => if i ∈ I then (s.dinOf i).indirect else 0
  | .data i k => if i ∈ I then s.bmapAt i k else 0

/-- Every block of the volume is owned at most once, what is owned is in use, the counter is the
number of free blocks, and only inodes of the volume are cached. -/
structure Sound (I : Finset ℕ) (s : SfsFs) : Prop extends Mounted s where
  owning : Owning s.freemap.free (s.ref I)
  range : ∀ x, s.ref I x < s.super.blocks
  unused : s.super.unusedBlocks = s.freemap.free.card
  cached : ∀ i sin, s.nodes i = some sin → i ∈ I

section Ref

variable {I : Finset ℕ} {x : Slot}

lemma Sound.inUse (h : Sound I s) (hx : s.ref I x ≠ 0) : InUse s (s.ref I x) :=
  ⟨hx, h.range x, h.owning.inUse x hx⟩

lemma ref_data (hi : i ∈ I) : s.ref I (.data i k) = s.bmapAt i k := if_pos hi

lemma bmapAt_of_ref (hi : i ∈ I) (h : t.ref I = s.ref I) (k : ℕ) : t.bmapAt i k = s.bmapAt i k := by
  rw [← ref_data hi, ← ref_data hi, h]

lemma ref_indirect (hi : i ∈ I) : s.ref I (.indirect i) = (s.dinOf i).indirect := if_pos hi

lemma ref_inode (hi : i ∈ I) : s.ref I (.inode i) = i := if_pos hi

/-- Two states with the same disk inodes and the same contents of indirect blocks have the same
references. -/
lemma ref_congr (hdin : ∀ i ∈ I, t.dinOf i = s.dinOf i)
    (hdisk : ∀ i ∈ I, (s.dinOf i).indirect ≠ 0 →
      t.disk (s.dinOf i).indirect = s.disk (s.dinOf i).indirect) :
    t.ref I = s.ref I := by
  funext x
  cases x with
  | inode i => rfl
  | indirect i =>
    simp only [SfsFs.ref]
    by_cases hi : i ∈ I
    · rw [if_pos hi, if_pos hi, hdin i hi]
    · rw [if_neg hi, if_neg hi]
  | data i k =>
    simp only [SfsFs.ref]
    by_cases hi : i ∈ I
    · rw [if_pos hi, if_pos hi, SfsFs.bmapAt, hdin i hi, mapAt_congr (hdisk i hi), SfsFs.bmapAt]
    · rw [if_neg hi, if_neg hi]

lemma dinOf_congr (hn : t.nodes i = s.nodes i) (hd : s.nodes i = none → t.disk i = s.disk i) :
    t.dinOf i = s.dinOf i := by
  unfold SfsFs.dinOf
  rw [hn]
  cases h : s.nodes i with
  | none => simp only [hd h]
  | some sin => rfl

end Ref

/-! ## Transfers -/

/-- The file system after `len` bytes from `buf + pos` are written to block `b` at offset `off`. -/
def SfsFs.writeDisk (s : SfsFs) (b off : ℕ) (buf : Bytes) (pos len : ℕ) : SfsFs :=
  { s with disk := update s.disk b ((s.disk b).copy off buf pos len) }

/-- The answer to the next transfer. -/
def SfsFs.answer (s : SfsFs) : Option Errno := s.faults.head?.join

/-- The volume after a transfer that has changed nothing. -/
def SfsFs.answered (s : SfsFs) : SfsFs := { s with faults := s.faults.tail }

section Transfer

variable {buf : Bytes} {pos len b off : ℕ}

lemma devBlock_of_lt (h : b < 2 ^ 20) : devBlock b = b := by
  unfold devBlock blkSize
  omega

lemma faults_nil (h : s.faults = []) : { s with faults := [] } = s := by
  rw [← h]

lemma Mounted.answer (h : Mounted s) : s.answer = none := by
  rw [SfsFs.answer, h.device]
  rfl

lemma Mounted.answered (h : Mounted s) : s.answered = s := by
  rw [SfsFs.answered, h.device]
  exact faults_nil h.device

/-- Copying a whole block and then a part of it is copying the part. -/
lemma copy_copy_read (dst block : Bytes) (h : off + len ≤ blkSize) :
    dst.copy pos (Bytes.zero.copy 0 block 0 blkSize) off len = dst.copy pos block off len := by
  funext j
  unfold Bytes.copy
  by_cases hj : pos ≤ j ∧ j < pos + len
  · rw [if_pos hj, if_pos hj, if_pos (by omega)]
    congr 1
    omega
  · rw [if_neg hj, if_neg hj]

/-- Reading a block, changing a part of it and writing it back changes the part. -/
lemma copy_copy_write (block : Bytes) (h : off + len ≤ blkSize) :
    block.copy 0 ((Bytes.zero.copy 0 block 0 blkSize).copy off buf pos len) 0 blkSize =
      block.copy off buf pos len := by
  funext j
  unfold Bytes.copy
  by_cases h1 : off ≤ j ∧ j < off + len
  · rw [if_pos (by omega), if_pos (by omega), if_pos h1, Nat.sub_zero, Nat.zero_add]
  · by_cases h2 : j < blkSize
    · rw [if_pos (by omega), if_neg (by omega), if_pos (by omega), if_neg h1]
      congr 1
      omega
    · rw [if_neg (by omega), if_neg h1]

/-- **One block** is transferred, or the device refuses. -/
lemma sfsRwblockNolock_answer (check : Bool) (h0 : b ≠ 0 ∨ check = false) (hlt : b < s.super.blocks)
    (hmax : s.super.blocks ≤ 2 ^ 20) (buf : Bytes) (pos : ℕ) (write : Bool) :
    sfsRwblockNolock buf pos b write check s =
      match s.answer with
      | some e => .ok (.error e, s.answered)
      | none => if write then .ok (.ok buf, s.answered.writeDisk b 0 buf pos blkSize)
        else .ok (.ok (buf.copy pos (s.disk b) 0 blkSize), s.answered) := by
  have hdev := devBlock_of_lt (lt_of_lt_of_le hlt hmax)
  rw [sfsRwblockNolock, read_bind_apply, ensure_bind_apply, if_pos ⟨h0, hlt⟩, hdev, dopIo,
    read_bind_apply, modify_bind_apply, SfsFs.answer]
  rcases hf : s.faults with _ | ⟨a | e, f⟩
  · cases write <;> simp [SfsFs.answered, SfsFs.writeDisk, hf]
  · cases write <;> simp [SfsFs.answered, SfsFs.writeDisk, hf]
  · simp [SfsFs.answered, hf]

section

variable (h : Mounted s) (hb : b ≠ 0) (hlt : b < s.super.blocks)
include h hb hlt

lemma sfsRwblockNolock_read :
    sfsRwblockNolock buf pos b false true s = .ok (.ok (buf.copy pos (s.disk b) 0 blkSize), s) := by
  rw [sfsRwblockNolock_answer true (Or.inl hb) hlt h.blocks_le, h.answer, h.answered]
  rfl

lemma sfsRwblockNolock_write :
    sfsRwblockNolock buf pos b true true s = .ok (.ok buf, s.writeDisk b 0 buf pos blkSize) := by
  rw [sfsRwblockNolock_answer true (Or.inl hb) hlt h.blocks_le, h.answer, h.answered]
  rfl

/-- **`sfs_rbuf`** copies a part of a block. -/
lemma sfsRbuf_apply (hoff : off < blkSize) (hlen : off + len ≤ blkSize) :
    sfsRbuf buf pos len b off s = .ok (.ok (buf.copy pos (s.disk b) off len), s) := by
  rw [sfsRbuf, ensure_bind_apply, if_pos ⟨hoff, hlen⟩,
    andThen_of_ok (sfsRwblockNolock_read h hb hlt), copy_copy_read _ _ hlen]
  rfl

/-- **`sfs_wbuf`** changes a part of a block. -/
lemma sfsWbuf_apply (hoff : off < blkSize) (hlen : off + len ≤ blkSize) :
    sfsWbuf buf pos len b off s = .ok (.ok buf, s.writeDisk b off buf pos len) := by
  rw [sfsWbuf, ensure_bind_apply, if_pos ⟨hoff, hlen⟩,
    andThen_of_ok (sfsRwblockNolock_read h hb hlt),
    andThen_of_ok (sfsRwblockNolock_write h hb hlt)]
  simp only [Comp.pure_apply, SfsFs.writeDisk, copy_copy_write _ hlen]

lemma sfsRblock_one :
    sfsRblock buf pos b 1 s = .ok (.ok (buf.copy pos (s.disk b) 0 blkSize), s) := by
  rw [sfsRblock, sfsRwblock, andThen_of_ok (sfsRwblockNolock_read h hb hlt)]
  rfl

lemma sfsWblock_one : sfsWblock buf pos b 1 s = .ok (.ok buf, s.writeDisk b 0 buf pos blkSize) := by
  rw [sfsWblock, sfsRwblock, andThen_of_ok (sfsRwblockNolock_write h hb hlt)]
  rfl

end

lemma writeDisk_disk_self :
    (s.writeDisk b off buf pos len).disk b = (s.disk b).copy off buf pos len := update_self ..

lemma writeDisk_disk_of_ne {c : ℕ} (hc : c ≠ b) :
    (s.writeDisk b off buf pos len).disk c = s.disk c := update_of_ne hc ..

lemma Mounted.writeDisk (h : Mounted s) : Mounted (s.writeDisk b off buf pos len) := { h with }

end Transfer

/-! ## Allocation and release -/

/-- Take a block out of the freemap. -/
def SfsFs.claim (s : SfsFs) (b : ℕ) : SfsFs :=
  { s with freemap := s.freemap.take b, super.unusedBlocks := s.super.unusedBlocks - 1,
           superDirty := true }

/-- The file system after block `b` is allocated: it is in use and zero. -/
def SfsFs.allocBlock (s : SfsFs) (b : ℕ) : SfsFs := (s.claim b).writeDisk b 0 Bytes.zero 0 blkSize

/-- The file system after block `b` is released. -/
def SfsFs.freeBlock (s : SfsFs) (b : ℕ) : SfsFs :=
  { s with freemap := s.freemap.give b, super.unusedBlocks := s.super.unusedBlocks + 1,
           superDirty := true }

section Alloc

variable {b c : ℕ}

lemma InUse.of_eq {t : SfsFs} (h : InUse s b) (hs : t.super.blocks = s.super.blocks)
    (hf : t.freemap.free = s.freemap.free) : InUse t b :=
  ⟨h.ne_zero, hs ▸ h.lt, hf ▸ h.notFree⟩

lemma Mounted.lt_bits (h : Mounted s) (hb : b < s.super.blocks) :
    b < s.freemap.nbits ∧ b < s.freemap.nwords * wordBits := by
  have h1 := h.nbits
  have h2 := h.nwords
  omega

lemma InUse.bit (h : Mounted s) (hu : InUse s b) : s.freemap.bit b = false := by
  by_contra hb
  exact hu.notFree (mem_free.mpr ⟨(h.lt_bits hu.lt).2, by simpa using hb⟩)

lemma assertInuse_of_bit (h0 : b ≠ 0) (hlt : b < s.super.blocks) (hn : b < s.freemap.nbits)
    (hbit : s.freemap.bit b = false) : assertInuse b s = .ok ((), s) := by
  simp [assertInuse, sfsBlockInuse, bind_apply, h0, hlt, bitmapTest_apply hn, liftBitmap, hbit]

lemma assertInuse_apply (h : Mounted s) (hu : InUse s b) : assertInuse b s = .ok ((), s) :=
  assertInuse_of_bit hu.ne_zero hu.lt (h.lt_bits hu.lt).1 (hu.bit h)

lemma assertInuse_zero : assertInuse 0 s = .error .inuseRange := by
  simp [assertInuse, sfsBlockInuse, bind_apply]

lemma claim_free (hb : b ∈ s.freemap.free) : (s.claim b).freemap.free = s.freemap.free.erase b :=
  free_take hb

section

variable (h : Mounted s) (hb : b ∈ s.freemap.free)
include h hb

lemma Mounted.claim : Mounted (s.claim b) := by
  refine { h with free := fun c hc => ?_ }
  rw [claim_free hb] at hc
  exact h.free c (mem_of_mem_erase hc)

lemma Mounted.allocBlock : Mounted (s.allocBlock b) :=
  (h.claim hb).writeDisk

lemma InUse.claim : InUse (s.claim b) b := by
  obtain ⟨h1, h2⟩ := h.free b hb
  refine ⟨h1, h2, ?_⟩
  rw [claim_free hb]
  exact notMem_erase b _

end

/-- The freemap and the super block fit together; the device may refuse transfers. -/
structure Fitted (s : SfsFs) : Prop where
  blocks_le : s.super.blocks ≤ 2 ^ 20
  free : ∀ b ∈ s.freemap.free, b ≠ 0 ∧ b < s.super.blocks ∧ b < s.freemap.nbits
  unused : s.super.unusedBlocks = s.freemap.free.card

lemma Mounted.fitted (h : Mounted s) (hun : s.super.unusedBlocks = s.freemap.free.card) :
    Fitted s :=
  ⟨h.blocks_le, fun b hb => ⟨(h.free b hb).1, (h.free b hb).2, (h.lt_bits (h.free b hb).2).1⟩, hun⟩

lemma claim_bit (hb : b ∈ s.freemap.free) : (s.claim b).freemap.bit b = false := by
  change (s.freemap.take b).bit b = false
  rw [bit_take, if_pos rfl, (mem_free.mp hb).2]
  rfl

/-- **Allocation** takes a free block and clears it; a block that the device does not clear remains
taken. -/
lemma sfsBlockAlloc_answer (h : Fitted s) :
    (s.freemap.free = ∅ ∧ sfsBlockAlloc s = .ok (.error .noMem, s)) ∨
    ∃ b ∈ s.freemap.free, sfsBlockAlloc s = match s.answer with
      | some e => .ok (.error e, (s.claim b).answered)
      | none => .ok (.ok b, (s.allocBlock b).answered) := by
  rcases bitmapAlloc_spec s.freemap with ⟨he, e⟩ | ⟨b, hb, -, e⟩
  · left
    refine ⟨he, ?_⟩
    simp [sfsBlockAlloc, liftBitmap, e]
  · right
    refine ⟨b, hb, ?_⟩
    obtain ⟨h0, hlt, hn⟩ := h.free b hb
    have hpos : 0 < s.super.unusedBlocks := by
      rw [h.unused]
      exact card_pos.mpr ⟨b, hb⟩
    have h1 := assertInuse_of_bit (s := s.claim b) h0 hlt hn (claim_bit hb)
    have h2 := sfsRwblockNolock_answer (s := s.claim b) true (.inl h0) hlt h.blocks_le
      Bytes.zero 0 true
    simp only [sfsBlockAlloc, read_bind_apply, liftBitmap, e, Comp.pure_bind',
      modify_bind_apply, ensure_bind_apply, hpos, if_true]
    change (assertInuse b >>= fun _ => (sfsClearBlock b 1).andThen fun _ => pure (.ok b))
      (s.claim b) = _
    rw [bind_of_ok h1, sfsClearBlock]
    change _ = (match s.answer with | some e => _ | none => _) at h2
    cases ha : s.answer with
    | some err =>
      rw [ha] at h2
      rw [andThen_of_fail (andThen_of_fail h2 _)]
    | none =>
      rw [ha] at h2
      rw [andThen_of_ok (andThen_of_ok h2 _)]
      rfl

/-- On a device that works, allocation fails only if no block is free. -/
lemma sfsBlockAlloc_apply (h : Mounted s) (hun : s.super.unusedBlocks = s.freemap.free.card) :
    (s.freemap.free = ∅ ∧ sfsBlockAlloc s = .ok (.error .noMem, s)) ∨
    ∃ b ∈ s.freemap.free, sfsBlockAlloc s = .ok (.ok b, s.allocBlock b) := by
  refine (sfsBlockAlloc_answer (h.fitted hun)).imp_right fun ⟨b, hb, e⟩ => ⟨b, hb, ?_⟩
  rw [h.answer] at e
  rw [e, (h.allocBlock hb).answered]

lemma sfsBlockFree_of_bit (h0 : b ≠ 0) (hlt : b < s.super.blocks) (hn : b < s.freemap.nbits)
    (hbit : s.freemap.bit b = false) : sfsBlockFree b s = .ok ((), s.freeBlock b) := by
  rw [sfsBlockFree, bind_of_ok (assertInuse_of_bit h0 hlt hn hbit)]
  simp [liftBitmap, bitmapFree_apply hn hbit, SfsFs.freeBlock]

/-- **Release** of a block in use. -/
lemma sfsBlockFree_apply (h : Mounted s) (hu : InUse s b) :
    sfsBlockFree b s = .ok ((), s.freeBlock b) :=
  sfsBlockFree_of_bit hu.ne_zero hu.lt (h.lt_bits hu.lt).1 (hu.bit h)

lemma freeBlock_free (h : Mounted s) (hu : InUse s b) :
    (s.freeBlock b).freemap.free = insert b s.freemap.free :=
  free_give (h.lt_bits hu.lt).2

lemma Mounted.freeBlock (h : Mounted s) (hu : InUse s b) : Mounted (s.freeBlock b) := by
  refine { h with free := fun c hc => ?_ }
  rw [freeBlock_free h hu, mem_insert] at hc
  rcases hc with rfl | hc
  · exact ⟨hu.ne_zero, hu.lt⟩
  · exact h.free c hc

end Alloc

/-! ## Volumes of 32 blocks with one file -/

/-- A volume of 32 blocks, free according to `w`, on which the inode `2` is cached. -/
def oneFile (w : BitVec 32) (din : SfsDiskInode) : SfsFs where
  super := ⟨sfsMagic, 32, (Bitmap.mk 32 1 fun _ => w).free.card⟩
  freemap := ⟨32, 1, fun _ => w⟩
  superDirty := false
  nodes := fun i => if i = 2 then some ⟨din, false, 1, 1, 1⟩ else none
  disk := fun _ => Bytes.zero
  faults := []

section OneFile

variable {w : BitVec 32}

lemma oneFile_node : (oneFile w din).nodes 2 = some ⟨din, false, 1, 1, 1⟩ := rfl

lemma mem_free_oneFile : b ∈ (oneFile w din).freemap.free ↔ b < 32 ∧ w.getLsbD b = true := by
  rw [mem_free]
  change b < 1 * 32 ∧ w.getLsbD (b % 32) = true ↔ _
  by_cases hb : b < 32
  · rw [Nat.mod_eq_of_lt hb, Nat.one_mul]
  · simp [hb]

lemma oneFile_mounted (h0 : w.getLsbD 0 = false) : Mounted (oneFile w din) where
  blocks_le := (by decide : 32 ≤ 2 ^ 20)
  nbits := le_rfl
  nwords := rfl
  free b hb := by
    obtain ⟨hlt, hb⟩ := mem_free_oneFile.mp hb
    refine ⟨?_, hlt⟩
    rintro rfl
    rw [h0] at hb
    cases hb
  device := rfl

/-- The references of a file without an indirect block. -/
lemma ref_single {s : SfsFs} {sin : SfsInode} (hn : s.nodes i = some sin)
    (hind : sin.din.indirect = 0) (x : Slot) (hx : s.ref {i} x ≠ 0) :
    (x = .inode i ∧ s.ref {i} x = i) ∨
    ∃ k : Fin nDirect, x = .data i k ∧ s.ref {i} x = sin.din.direct k := by
  have hdin : s.dinOf i = sin.din := dinOf_of_node hn
  cases x with
  | inode j =>
    left
    have hj : j ∈ ({i} : Finset ℕ) := by
      by_contra hj
      exact hx (if_neg hj)
    rw [ref_inode hj]
    rw [mem_singleton] at hj
    rw [hj]
    exact ⟨rfl, rfl⟩
  | indirect j =>
    refine absurd ?_ hx
    by_cases hj : j ∈ ({i} : Finset ℕ)
    · rw [ref_indirect hj, mem_singleton.mp hj, hdin, hind]
    · exact if_neg hj
  | data j k =>
    right
    have hj : j ∈ ({i} : Finset ℕ) := by
      by_contra hj
      exact hx (if_neg hj)
    rw [ref_data hj] at hx ⊢
    obtain rfl := mem_singleton.mp hj
    rw [SfsFs.bmapAt, hdin] at hx ⊢
    have hk : k < nDirect := by
      by_contra hk
      exact (indirect_ne_zero_of_mapAt hx hk).2 hind
    exact ⟨⟨k, hk⟩, rfl, mapAt_direct hk⟩

/-- A volume with one file without an indirect block is sound, if the blocks it refers to are
different and in use. -/
lemma sound_single {s : SfsFs} {sin : SfsInode} (hm : Mounted s) (hn : s.nodes i = some sin)
    (hone : ∀ j sin', s.nodes j = some sin' → j = i) (hind : sin.din.indirect = 0) (hu : InUse s i)
    (hd : ∀ k, sin.din.direct k ≠ i ∧ sin.din.direct k < s.super.blocks ∧
      sin.din.direct k ∉ s.freemap.free)
    (hinj : ∀ k l, sin.din.direct k ≠ 0 → sin.din.direct k = sin.din.direct l → k = l)
    (hun : s.super.unusedBlocks = s.freemap.free.card) : Sound {i} s := by
  refine { hm with owning := ⟨?_, ?_⟩, range := ?_, unused := hun, cached := ?_ }
  · intro x hx
    rcases ref_single hn hind x hx with ⟨-, e⟩ | ⟨k, -, e⟩
    · rw [e]
      exact hu.notFree
    · rw [e]
      exact (hd k).2.2
  · intro x y hx e
    rcases ref_single hn hind x hx with ⟨rfl, ex⟩ | ⟨k, rfl, ex⟩ <;>
      rcases ref_single hn hind y (e ▸ hx) with ⟨rfl, ey⟩ | ⟨l, rfl, ey⟩
    · rfl
    · rw [ex, ey] at e
      exact absurd e.symm (hd l).1
    · rw [ex, ey] at e
      exact absurd e (hd k).1
    · rw [ex] at hx
      rw [ex, ey] at e
      rw [hinj k l hx e]
  · intro x
    by_cases hx : s.ref {i} x = 0
    · rw [hx]
      exact Nat.zero_lt_of_lt hu.lt
    · rcases ref_single hn hind x hx with ⟨-, e⟩ | ⟨k, -, e⟩
      · rw [e]
        exact hu.lt
      · rw [e]
        exact (hd k).2.1
  · intro j sin' hj
    rw [hone j sin' hj]
    exact mem_singleton_self i

lemma oneFile_sound (hind : din.indirect = 0) (h0 : w.getLsbD 0 = false)
    (h2 : w.getLsbD 2 = false)
    (hd : ∀ k, din.direct k ≠ 2 ∧ din.direct k < 32 ∧ w.getLsbD (din.direct k) = false)
    (hinj : ∀ k l, din.direct k ≠ 0 → din.direct k = din.direct l → k = l) :
    Sound {2} (oneFile w din) := by
  have hfree : ∀ {b}, w.getLsbD b = false → b ∉ (oneFile w din).freemap.free := fun h hb => by
    rw [(mem_free_oneFile.mp hb).2] at h
    cases h
  refine sound_single (oneFile_mounted h0) oneFile_node (fun j sin hj => ?_) hind
    ⟨by decide, (by decide : 2 < 32), hfree h2⟩ (fun k => ⟨(hd k).1, (hd k).2.1, hfree (hd k).2.2⟩)
    hinj rfl
  by_contra hi
  simp only [oneFile, if_neg hi] at hj
  cases hj

/-- A regular file with `n` direct blocks, from block `3` on. -/
def directFile (n size : ℕ) : SfsDiskInode where
  size := size
  type := typeFile
  nlinks := 1
  blocks := n
  direct k := if k.val < n then 3 + k.val else 0
  indirect := 0

lemma directFile_sound {n size : ℕ} (hn : n ≤ nDirect) (hw : ∀ b < 3 + n, w.getLsbD b = false) :
    Sound {2} (oneFile w (directFile n size)) := by
  unfold nDirect at hn
  refine oneFile_sound rfl (hw 0 (by omega)) (hw 2 (by omega)) (fun k => ?_) fun k l h0 e => ?_
  · simp only [directFile]
    split_ifs with hk
    · exact ⟨by omega, by omega, hw _ (by omega)⟩
    · exact ⟨by omega, by omega, hw 0 (by omega)⟩
  · simp only [directFile] at h0 e
    ext
    split_ifs at h0 e <;> omega

end OneFile

end Ucore

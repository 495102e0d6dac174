import Ucore.Fs.Sfs.Mount
import Ucore.Tools.MksfsBuild

set_option autoImplicit false

/-!
# The image that the builder writes

`close_sfs` writes the freemap, the super block and everything that has been kept in memory. No
block is written twice, and the blocks that have been written before are left. The kernel then
mounts the image: its freemap has exactly the blocks that have not been handed out.

## Main definitions

* `writeAll` — a sequence of writes of blocks; `closeWrites` — the writes of `close_sfs`.
* `allocInos` — calls of `sfs_alloc_ino`.

## Main results

* `closeSfs_apply` — `close_sfs` returns.
* `Closed` — what is in the image then; `MkInv.closed`.
* `MkInv.mounts` — the image is mounted, with the right freemap.
* `built_image_mounts` — the same for every image size and every number of allocations.
-/

namespace Ucore

open Function Comp List Bytes

/-! ## Sequences of writes -/

/-- The blocks after a sequence of writes. -/
def writeAll (image : ℕ → Bytes) (ws : List (ℕ × Bytes)) : ℕ → Bytes :=
  ws.foldl (fun image w => update image w.1 w.2) image

variable {image : ℕ → Bytes} {data : Bytes} {s : MkSfs}

section WriteAll

variable {ws : List (ℕ × Bytes)} {b : ℕ}

lemma writeAll_append (image : ℕ → Bytes) (ws vs : List (ℕ × Bytes)) :
    writeAll image (ws ++ vs) = writeAll (writeAll image ws) vs := foldl_append ..

lemma writeAll_of_forall_ne (h : ∀ w ∈ ws, w.1 ≠ b) : writeAll image ws b = image b := by
  induction ws generalizing image with
  | nil => rfl
  | cons w ws ih =>
    have hw : w.1 ≠ b := h w (by simp)
    rw [writeAll, foldl_cons, ← writeAll, ih fun v hv => h v (by simp [hv])]
    exact update_of_ne hw.symm ..

/-- A block to which one content is written has it then. -/
lemma writeAll_of_mem (hm : (b, data) ∈ ws) (hu : ∀ w ∈ ws, w.1 = b → w.2 = data) :
    writeAll image ws b = data := by
  induction ws generalizing image with
  | nil => cases hm
  | cons w ws ih =>
    rw [writeAll, foldl_cons, ← writeAll]
    by_cases hin : (b, data) ∈ ws
    · exact ih hin fun v hv => hu v (by simp [hv])
    · -- the last write to the block
      have hw : w = (b, data) := by
        rcases mem_cons.mp hm with h | h
        · exact h.symm
        · exact absurd h hin
      rw [writeAll_of_forall_ne, hw, update_self]
      intro v hv hvb
      have : v = (b, data) := Prod.ext hvb (hu v (by simp [hv]) hvb)
      exact hin (this ▸ hv)

end WriteAll

/-! ## The writes of `close_sfs` -/

/-- What `write_block` writes. -/
def padded (data : Bytes) (len : ℕ) : Bytes := Bytes.zero.copy 0 data 0 len

/-- The image file after a sequence of writes. -/
def MkSfs.written (s : MkSfs) (ws : List (ℕ × Bytes)) :
    MkSfs := { s with image := writeAll s.image ws }

/-- The blocks of the freemap. -/
def freemapWrites (s : MkSfs) : List (ℕ × Bytes) :=
  (List.range (freemapBlocks s.ninos)).map fun j =>
    (blknFreemap + j, padded (freemapBlock (j * blkBits) s.nextIno s.ninos) blkSize)

/-- The cached blocks of the hash list `i`. -/
def blockWrites (s : MkSfs) (i : ℕ) : List (ℕ × Bytes) :=
  (s.blocks i).map fun b => (b, padded ((s.cacheOf b).getD Bytes.zero) blkSize)

/-- The cached inodes of the hash list `i`. -/
def inodeWrites (s : MkSfs) (i : ℕ) : List (ℕ × Bytes) :=
  (s.inodes i).map fun f =>
    (f, padded (((s.inodeOf f).map fun ci => encodeMkInode ci.inode).getD Bytes.zero)
      (diskInodeSize + 4))

/-- The writes of `close_sfs`. -/
def closeWrites (s : MkSfs) : List (ℕ × Bytes) :=
  freemapWrites s ++ [(blknSuper, padded (encodeSuper s.super) superSize)] ++
    (List.range hashListSize).flatMap fun i => blockWrites s i ++ inodeWrites s i

section Close

variable {b f i : ℕ} {ci : CacheInode}

lemma writeBlock_written (data : Bytes) {len : ℕ} (hlen : len ≤ blkSize) (hb : b < s.ninos)
    (ws : List (ℕ × Bytes)) :
    writeBlock data len b (s.written ws) = .ok ((), s.written (ws ++ [(b, padded data len)])) := by
  rw [writeBlock_apply, if_pos ⟨hlen, hb⟩, MkSfs.writeImage]
  simp only [MkSfs.written, writeAll_append]
  rfl

namespace MkInv

lemma cache_bounds (h : MkInv s) (hb : s.cacheOf b ≠ none) :
    b ≠ 0 ∧ s.Handed b ∧ b < s.ninos := by
  obtain ⟨h0, x, -, rfl⟩ := h.cached b hb
  exact ⟨h0, h.handed x h0, (h.ref_lt x).trans_le h.next⟩

/-- So are the inodes. -/
lemma inode_bounds (h : MkInv s) (hf : s.inodeOf f ≠ none) :
    f ≠ 0 ∧ s.Handed f ∧ f < s.ninos := by
  obtain ⟨ci, hci⟩ := Option.ne_none_iff_exists'.mp hf
  have h0 := h.node f hf
  have hr : s.ref (.inode f) = f := ref_inode_of_node hci
  have hh := h.handed (.inode f) (by rwa [hr])
  have hlt := h.ref_lt (.inode f)
  rw [hr] at hh hlt
  exact ⟨h0, hh, hlt.trans_le h.next⟩

lemma not_handed_freemap {j : ℕ} (hj : j < freemapBlocks s.ninos) :
    ¬s.Handed (blknFreemap + j) := by
  rintro (e | ⟨hle, -⟩)
  · unfold blknFreemap blknRoot at e
    omega
  · unfold firstIno at hle
    omega

lemma freemap_lt (h : MkInv s) {j : ℕ} (hj : j < freemapBlocks s.ninos) :
    blknFreemap + j < s.ninos := by
  have h1 := h.first
  have h2 := h.next
  unfold firstIno at h1
  omega

end MkInv

/-- **`close_sfs`** returns, and writes these blocks. -/
lemma closeSfs_apply (h : MkInv s) : closeSfs s = .ok ((), s.written (closeWrites s)) := by
  have hfree := forEach_apply (g := s.written) (List.range (freemapBlocks s.ninos))
    (w := fun j => [(blknFreemap + j,
      padded (freemapBlock (j * blkBits) s.nextIno s.ninos) blkSize)])
    (fun j hj done => writeBlock_written _ le_rfl (h.freemap_lt (mem_range.mp hj)) done) []
  have hsuper := writeBlock_written (encodeSuper s.super) (by decide : superSize ≤ blkSize)
    (by have := h.first; have := h.next; unfold firstIno blknFreemap at *; unfold blknSuper; omega :
      blknSuper < s.ninos) (freemapWrites s)
  have hblocks : ∀ i < hashListSize, ∀ b ∈ s.blocks i, ∀ done, flushCacheBlock b (s.written done) =
      .ok ((), s.written (done ++ [(b, padded ((s.cacheOf b).getD Bytes.zero) blkSize)])) := by
    intro i hi b hb done
    have hc := (h.blocks b).mp ⟨i, hi, hb⟩
    obtain ⟨data, hd⟩ := Option.ne_none_iff_exists'.mp hc
    have hd' : (s.written done).cacheOf b = some data := hd
    rw [flushCacheBlock, bind_of_ok (getCache_apply hd'), hd]
    exact writeBlock_written data le_rfl (h.cache_bounds hc).2.2 done
  have hinodes : ∀ i < hashListSize, ∀ f ∈ s.inodes i, ∀ done, flushCacheInode f (s.written done) =
      .ok ((), s.written (done ++ [(f, padded (((s.inodeOf f).map fun ci =>
        encodeMkInode ci.inode).getD Bytes.zero) (diskInodeSize + 4))])) := by
    intro i hi f hf done
    have hc := (h.inodes f).mp ⟨i, hi, hf⟩
    obtain ⟨ci, hd⟩ := Option.ne_none_iff_exists'.mp hc
    have hd' : (s.written done).inodeOf f = some ci := hd
    rw [flushCacheInode, bind_of_ok (getInode_apply hd'), hd]
    exact writeBlock_written _ (by decide) (h.inode_bounds hc).2.2 done
  have hcaches := forEach_apply (g := s.written) (List.range hashListSize)
    (w := fun i => blockWrites s i ++ inodeWrites s i)
    (f := fun i => Comp.forEach (s.blocks i) flushCacheBlock >>= fun _ =>
      Comp.forEach (s.inodes i) flushCacheInode) (fun i hi done => by
        have hi := mem_range.mp hi
        rw [bind_of_ok (forEach_apply (g := s.written) _ (hblocks i hi) done),
          forEach_apply (g := s.written) _ (hinodes i hi), append_assoc,
          ← map_eq_flatMap, ← map_eq_flatMap]
        rfl)
    (freemapWrites s ++ [(blknSuper, padded (encodeSuper s.super) superSize)])
  rw [nil_append, ← map_eq_flatMap] at hfree
  rw [closeSfs, read_bind_apply]
  exact (bind_of_ok hfree _).trans ((bind_of_ok hsuper _).trans hcaches)

lemma mem_closeWrites {w : ℕ × Bytes} : w ∈ closeWrites s ↔
    (∃ j < freemapBlocks s.ninos,
      w = (blknFreemap + j, padded (freemapBlock (j * blkBits) s.nextIno s.ninos) blkSize)) ∨
    w = (blknSuper, padded (encodeSuper s.super) superSize) ∨
    ∃ i < hashListSize, w ∈ blockWrites s i ∨ w ∈ inodeWrites s i := by
  simp only [closeWrites, freemapWrites, mem_append, mem_map, mem_range,
    mem_singleton, mem_flatMap, or_assoc, eq_comm]

lemma mem_blockWrites {w : ℕ × Bytes} (h : MkInv s) :
    (∃ i < hashListSize, w ∈ blockWrites s i) ↔
      ∃ b data, s.cacheOf b = some data ∧ w = (b, padded data blkSize) := by
  simp only [blockWrites, mem_map]
  constructor
  · rintro ⟨i, hi, b, hb, rfl⟩
    obtain ⟨data, hd⟩ := Option.ne_none_iff_exists'.mp ((h.blocks b).mp ⟨i, hi, hb⟩)
    exact ⟨b, data, hd, by rw [hd]; rfl⟩
  · rintro ⟨b, data, hd, rfl⟩
    obtain ⟨i, hi, hb⟩ := (h.blocks b).mpr (by simp [hd])
    exact ⟨i, hi, b, hb, by rw [hd]; rfl⟩

lemma mem_inodeWrites {w : ℕ × Bytes} (h : MkInv s) :
    (∃ i < hashListSize, w ∈ inodeWrites s i) ↔
      ∃ f ci, s.inodeOf f = some ci ∧
      w = (f, padded (encodeMkInode ci.inode) (diskInodeSize + 4)) := by
  simp only [inodeWrites, mem_map]
  constructor
  · rintro ⟨i, hi, f, hf, rfl⟩
    obtain ⟨ci, hd⟩ := Option.ne_none_iff_exists'.mp ((h.inodes f).mp ⟨i, hi, hf⟩)
    exact ⟨f, ci, hd, by rw [hd]; rfl⟩
  · rintro ⟨f, ci, hd, rfl⟩
    obtain ⟨i, hi, hf⟩ := (h.inodes f).mpr (by simp [hd])
    exact ⟨i, hi, f, hf, by rw [hd]; rfl⟩

/-- **The writes of `close_sfs`**, by kind. -/
lemma closeWrites_cases (h : MkInv s) {w : ℕ × Bytes} (hw : w ∈ closeWrites s) :
    (∃ j < freemapBlocks s.ninos,
      w = (blknFreemap + j, padded (freemapBlock (j * blkBits) s.nextIno s.ninos) blkSize)) ∨
    w = (blknSuper, padded (encodeSuper s.super) superSize) ∨
    (∃ b data, s.cacheOf b = some data ∧ w = (b, padded data blkSize)) ∨
    ∃ f ci, s.inodeOf f = some ci ∧
      w = (f, padded (encodeMkInode ci.inode) (diskInodeSize + 4)) := by
  rcases mem_closeWrites.mp hw with h1 | h1 | ⟨i, hi, h1 | h1⟩
  · exact .inl h1
  · exact .inr (.inl h1)
  · exact .inr (.inr (.inl ((mem_blockWrites h).mp ⟨i, hi, h1⟩)))
  · exact .inr (.inr (.inr ((mem_inodeWrites h).mp ⟨i, hi, h1⟩)))

/-- **The image after `close_sfs`.** -/
structure Closed (s : MkSfs) (image : ℕ → Bytes) : Prop where
  super : image blknSuper = padded (encodeSuper s.super) superSize
  freemap : ∀ j < freemapBlocks s.ninos,
    image (blknFreemap + j) = padded (freemapBlock (j * blkBits) s.nextIno s.ninos) blkSize
  cache : ∀ b data, s.cacheOf b = some data → image b = padded data blkSize
  inode : ∀ f ci, s.inodeOf f = some ci →
    image f = padded (encodeMkInode ci.inode) (diskInodeSize + 4)
  data : ∀ f k, s.ref (.data f k) ≠ 0 → image (s.ref (.data f k)) = s.image (s.ref (.data f k))

namespace MkInv

lemma not_handed_zero : ¬s.Handed blknSuper := by
  rintro (e | ⟨hle, -⟩)
  · cases e
  · unfold firstIno blknSuper blknFreemap at hle
    omega

lemma cache_ne_inode (h : MkInv s) (hb : s.cacheOf b ≠ none) (hf : s.inodeOf f = some ci) :
    b ≠ f := by
  obtain ⟨h0, x, hx, rfl⟩ := h.cached b hb
  rw [← ref_inode_of_node hf]
  refine h.ref_inj h0 ?_
  rintro rfl
  exact hx

/-- **Every block has one content** in the writes of `close_sfs`. -/
lemma closed (h : MkInv s) : Closed s (writeAll s.image (closeWrites s)) := by
  constructor
  · refine writeAll_of_mem (mem_closeWrites.mpr (.inr (.inl rfl))) fun w hw hwb => ?_
    rcases closeWrites_cases h hw with ⟨j, hj, rfl⟩ | rfl | ⟨b, data, hd, rfl⟩ | ⟨f, ci, hf, rfl⟩
    · change blknFreemap + j = 0 at hwb
      unfold blknFreemap at hwb
      omega
    · rfl
    · exact absurd hwb (h.cache_bounds (by simp [hd])).1
    · exact absurd hwb (h.inode_bounds (by simp [hf])).1
  · intro j hj
    refine writeAll_of_mem (mem_closeWrites.mpr (.inl ⟨j, hj, rfl⟩)) fun w hw hwb => ?_
    have hnot : ¬s.Handed (blknFreemap + j) := not_handed_freemap hj
    rcases closeWrites_cases h hw with ⟨k, hk, rfl⟩ | rfl | ⟨b, data, hd, rfl⟩ | ⟨f, ci, hf, rfl⟩
    · have : k = j := Nat.add_left_cancel hwb
      rw [this]
    · change 0 = blknFreemap + j at hwb
      unfold blknFreemap at hwb
      omega
    · exact absurd (h.cache_bounds (by simp [hd])).2.1 (hwb ▸ hnot)
    · exact absurd (h.inode_bounds (by simp [hf])).2.1 (hwb ▸ hnot)
  · intro b data hd
    have hb := h.cache_bounds (b := b) (by simp [hd])
    obtain ⟨i, hi, hmem⟩ := (mem_blockWrites h).mpr ⟨b, data, hd, rfl⟩
    refine writeAll_of_mem (mem_closeWrites.mpr (.inr (.inr ⟨i, hi, .inl hmem⟩))) fun w hw hwb => ?_
    rcases closeWrites_cases h hw with ⟨j, hj, rfl⟩ | rfl | ⟨c, data', hd', rfl⟩ | ⟨f, ci, hf, rfl⟩
    · exact (not_handed_freemap hj ((show blknFreemap + j = _ from hwb) ▸ hb.2.1)).elim
    · exact (not_handed_zero ((show blknSuper = _ from hwb) ▸ hb.2.1)).elim
    · change c = b at hwb
      rw [hwb, hd] at hd'
      cases hd'
      rfl
    · exact absurd hwb.symm (h.cache_ne_inode (by simp [hd]) hf)
  · intro f ci hf
    have hb := h.inode_bounds (f := f) (by simp [hf])
    obtain ⟨i, hi, hmem⟩ := (mem_inodeWrites h).mpr ⟨f, ci, hf, rfl⟩
    refine writeAll_of_mem (mem_closeWrites.mpr (.inr (.inr ⟨i, hi, .inr hmem⟩))) fun w hw hwb => ?_
    rcases closeWrites_cases h hw
      with ⟨j, hj, rfl⟩ | rfl | ⟨c, data', hd', rfl⟩ | ⟨g, ci', hf', rfl⟩
    · exact (not_handed_freemap hj ((show blknFreemap + j = _ from hwb) ▸ hb.2.1)).elim
    · exact (not_handed_zero ((show blknSuper = _ from hwb) ▸ hb.2.1)).elim
    · exact absurd hwb (h.cache_ne_inode (by simp [hd']) hf)
    · change g = f at hwb
      rw [hwb, hf] at hf'
      cases hf'
      rfl
  · intro f k h0
    refine writeAll_of_forall_ne fun w hw hwb => ?_
    have hh := h.handed (.data f k) h0
    rcases closeWrites_cases h hw
      with ⟨j, hj, rfl⟩ | rfl | ⟨c, data', hd', rfl⟩ | ⟨g, ci', hf', rfl⟩
    · exact not_handed_freemap hj ((show blknFreemap + j = _ from hwb) ▸ hh)
    · exact not_handed_zero ((show blknSuper = _ from hwb) ▸ hh)
    · obtain ⟨-, x, hx, hr⟩ := h.cached c (by simp [hd'])
      refine h.ref_inj (x := x) (y := .data f k) ?_ ?_ (hr.trans hwb)
      · rw [hr]
        exact (show c = _ from hwb) ▸ h0
      · rintro rfl
        exact hx
    · refine h.ref_inj (x := .data f k) (y := .inode g) h0 (by simp) ?_
      rw [ref_inode_of_node hf']
      exact hwb.symm

end MkInv

end Close

/-! ## Mounting the image -/

/-- The bits that the inner loop of `close_sfs` sets. -/
lemma setBits_bit (k : ℕ) (data : Bytes) (j i : ℕ) :
    (setBits data j k).bit i = (decide (j ≤ i ∧ i < j + k) || data.bit i) := by
  induction k generalizing data j with
  | zero =>
    rw [setBits, decide_eq_false (by omega), Bool.false_or]
  | succ k ih =>
    rw [setBits, ih, bit_setBit, ← Bool.or_assoc, ← Bool.decide_or]
    congr 1
    rw [decide_eq_decide]
    omega

/-- **A block of the freemap** has the bits of the blocks that have not been handed out. -/
lemma freemapBlock_bit (i next ninos : ℕ) {q : ℕ} (hq : q < blkBits) :
    (freemapBlock i next ninos).bit q = decide (next ≤ i + q ∧ i + q < ninos) := by
  unfold freemapBlock
  split_ifs with h1 h2 h3 h4
  · rw [setBits_bit, bit_zero, Bool.or_false, decide_eq_decide]
    omega
  · rw [setBits_bit, bit_zero, Bool.or_false, decide_eq_decide]
    omega
  · rw [setBits_bit, bit_zero, Bool.or_false, decide_eq_decide]
    omega
  · rw [setBits_bit, bit_zero, Bool.or_false, decide_eq_decide]
    omega
  · rw [bit_zero, eq_comm, decide_eq_false]
    omega

lemma padded_bit (data : Bytes) {q : ℕ} (hq : q < blkBits) :
    (padded data blkSize).bit q = data.bit q := by
  unfold Bytes.bit padded
  rw [get32_copy _ _ (Nat.zero_le _)]
  · congr 2
    omega
  · unfold blkBits at hq
    unfold blkSize at *
    omega

lemma le_freemapBlocks_mul (n : ℕ) : n ≤ freemapBlocks n * blkBits := by
  unfold freemapBlocks blkBits blkSize
  omega

lemma Closed.freemapBit (hc : Closed s image) {i : ℕ} (hi : i < freemapBlocks s.ninos * blkBits) :
    freemapBit image i = decide (s.nextIno ≤ i ∧ i < s.ninos) := by
  have hj : i / blkBits < freemapBlocks s.ninos := Nat.div_lt_of_lt_mul (by rwa [mul_comm])
  have hq : i % blkBits < blkBits := Nat.mod_lt _ (by decide)
  have hi' : i / blkBits * blkBits + i % blkBits = i := Nat.div_add_mod' i blkBits
  rw [Ucore.freemapBit, hc.freemap _ hj, padded_bit _ hq, freemapBlock_bit _ _ _ hq, hi']

/-- **The image is mounted**, and its freemap has the blocks that have not been handed out. -/
lemma MkInv.mounts (h : MkInv s) (hc : Closed s image) {dev : SfsDevice}
    (hs : dev.dBlocksize = blkSize) (hf : dev.faults = []) (hle : s.ninos ≤ dev.dBlocks)
    (hd : ∀ b < s.ninos, dev.disk b = image b) :
    ∃ fs, sfsDoMount dev = .ok (.ok fs, dev) ∧ fs.super = s.super ∧ fs.disk = dev.disk ∧
      fs.nodes = (fun _ => none) ∧ fs.faults = [] ∧
      fs.freemap.nbits = freemapBlocks s.ninos * blkBits ∧
      fs.freemap.nwords = freemapBlocks s.ninos * blkNentry ∧
      fs.freemap.free = Finset.Ico s.nextIno s.ninos := by
  have hmax := h.ninos
  have hfirst := h.first
  have hnext := h.next
  have hblocks : s.super.blocks = s.ninos := by rw [h.super]
  have hunused : s.super.unusedBlocks = s.ninos - s.nextIno := by rw [h.super]
  unfold maxNblks at hmax
  unfold firstIno at hfirst
  have h0 : blknSuper < s.ninos := by
    unfold blknSuper blknFreemap at *
    omega
  have hmagic : s.super.magic = sfsMagic := by rw [h.super]
  have hround : decodeSuper (encodeSuper s.super) = s.super :=
    decodeSuper_encodeSuper (by rw [hmagic]; decide) (by omega) (by omega)
  have hsup : decodeSuper (dev.disk blknSuper) = s.super := by
    rw [hd _ h0, hc.super, ← hround]
    refine decodeSuper_congr fun i hi => ?_
    rw [padded, copy_of_mem _ _ (Nat.zero_le i) (by omega), hround]
    congr 1
    omega
  obtain ⟨fm, hbits, hwords, hbit, e⟩ := sfsDoMount_apply hs hf hsup hmagic
    (by omega) (by omega) (by rw [hblocks]; omega)
  rw [hblocks] at hbits hwords hbit
  have hbw : freemapBlocks s.ninos * blkNentry * wordBits = freemapBlocks s.ninos * blkBits := by
    unfold blkBits blkSize wordBits blkNentry
    omega
  have hcover : s.ninos ≤ freemapBlocks s.ninos * blkBits := le_freemapBlocks_mul _
  have hfree : fm.free = Finset.Ico s.nextIno s.ninos := by
    ext i
    rw [Bitmap.mem_free, hwords, hbw, Finset.mem_Ico]
    constructor
    · rintro ⟨hi, hb⟩
      have hblk : i / blkBits < freemapBlocks s.ninos := Nat.div_lt_of_lt_mul (by rwa [mul_comm])
      rw [hbit i hi, Ucore.freemapBit, hd _ (h.freemap_lt hblk), ← Ucore.freemapBit,
        hc.freemapBit hi] at hb
      exact of_decide_eq_true hb
    · rintro ⟨h1, h2⟩
      have hi : i < freemapBlocks s.ninos * blkBits := by omega
      have hblk : i / blkBits < freemapBlocks s.ninos := Nat.div_lt_of_lt_mul (by rwa [mul_comm])
      refine ⟨hi, ?_⟩
      rw [hbit i hi, Ucore.freemapBit, hd _ (h.freemap_lt hblk), ← Ucore.freemapBit,
        hc.freemapBit hi]
      exact decide_eq_true ⟨h1, h2⟩
  have hcard : fm.free.card = s.super.unusedBlocks := by rw [hfree, Nat.card_Ico, hunused]
  rw [if_pos hcard] at e
  exact ⟨_, e, rfl, rfl, rfl, rfl, hbits, hwords, hfree⟩

/-! ## Every image size, every number of allocations -/

/-- Successive calls of `sfs_alloc_ino`, with what they return. -/
def allocInos : ℕ → Mk (List ℕ)
  | 0 => pure []
  | n + 1 => do
    let ino ← sfsAllocIno
    let inos ← allocInos n
    pure (ino :: inos)

/-- The calls return consecutive blocks. -/
lemma allocInos_post (n : ℕ) : ∀ s : MkSfs, MkInv s →
    Post (allocInos n) s fun inos t => MkInv t ∧ t.ninos = s.ninos ∧ s.nextIno ≤ t.nextIno ∧
      ∀ i, i ∈ inos ↔ s.nextIno ≤ i ∧ i < t.nextIno := by
  induction n with
  | zero => exact fun s h => .pure ⟨h, rfl, le_rfl, fun i => by simp⟩
  | succ n ih =>
    intro s h
    refine .bind (R := fun ino t => ino = s.nextIno ∧ t = s.bump ∧ s.nextIno < s.ninos) ?_ ?_
    · intro ino t e
      rw [sfsAllocIno_apply] at e
      split_ifs at e with hlt
      cases e
      exact ⟨rfl, rfl, hlt⟩
    · rintro ino t ⟨rfl, rfl, hlt⟩
      refine (ih s.bump (h.bump hlt)).bind ?_
      rintro inos u ⟨hu, hn, hle, hmem⟩
      have hb : s.bump.nextIno = s.nextIno + 1 := rfl
      rw [hb] at hle hmem
      refine .pure ⟨hu, hn, by omega, fun i => ?_⟩
      rw [mem_cons, hmem]
      omega

/-- **Every built image is mounted.** For every size that `create_sfs` accepts and every number of
calls of `sfs_alloc_ino` that return, `close_sfs` returns, and every device that holds the image is
mounted: the assertion on the number of unused blocks holds, and a bit of the freemap is set iff it
belongs to a block of the volume that is neither reserved nor handed out. -/
theorem built_image_mounts {imgSize n : ℕ} {image : ℕ → Bytes} {s t : MkSfs} {inos : List ℕ}
    (hc : createSfs imgSize image = .ok s) (ha : allocInos n s = .ok (inos, t)) :
    ∃ u, closeSfs t = .ok ((), u) ∧ ∀ dev : SfsDevice, dev.dBlocksize = blkSize → dev.faults = [] →
      t.super.blocks ≤ dev.dBlocks → (∀ b < t.super.blocks, dev.disk b = u.image b) →
      ∃ fs, sfsDoMount dev = .ok (.ok fs, dev) ∧ fs.super = t.super ∧
        countUnused fs.freemap (freemapBits t.super.blocks) = .ok t.super.unusedBlocks ∧
        ∀ i < freemapBits t.super.blocks, bitmapTest fs.freemap i =
          .ok (decide (i < t.super.blocks ∧ firstIno t.super.blocks ≤ i ∧ i ∉ inos)) := by
  obtain ⟨⟨h, -⟩, -⟩ := createSfs_built hc ⟨fun _ => []⟩
  obtain ⟨ht, hn, -, hmem⟩ := allocInos_post n s h inos t ha
  have hs : s.nextIno = firstIno s.ninos := by
    rw [createSfs_eq] at hc
    split_ifs at hc
    cases hc
    rfl
  have hblocks : t.super.blocks = t.ninos := by rw [ht.super]
  have hmax := ht.ninos
  unfold maxNblks at hmax
  refine ⟨_, closeSfs_apply ht, fun dev h1 h2 h3 h4 => ?_⟩
  rw [hblocks] at h3 h4 ⊢
  obtain ⟨fs, e, hsup, -, -, -, hbits, hwords, hfree⟩ := ht.mounts ht.closed h1 h2 h3 h4
  have hfb : freemapBits t.ninos = fs.freemap.nbits := by rw [freemapBits_eq (by omega), hbits]
  have hbw : fs.freemap.nbits = fs.freemap.nwords * wordBits := by
    rw [hbits, hwords]
    unfold blkBits blkSize wordBits blkNentry
    omega
  refine ⟨fs, e, hsup, ?_, fun i hi => ?_⟩
  · rw [hfb, countUnused_apply le_rfl, hbw]
    change Except.ok fs.freemap.free.card = _
    rw [hfree, Nat.card_Ico, ht.super]
  · rw [hfb] at hi
    rw [bitmapTest_apply hi]
    have hiff : fs.freemap.bit i = true ↔ t.nextIno ≤ i ∧ i < t.ninos := by
      rw [← Finset.mem_Ico, ← hfree, Bitmap.mem_free, ← hbw]
      exact ⟨fun h => ⟨hi, h⟩, fun h => h.2⟩
    have hfirst := ht.first
    rw [hn, ← hs] at hfirst
    congr 1
    rw [Bool.eq_iff_iff, hiff, decide_eq_true_iff, hmem, hn, ← hs]
    omega

/-- An image of five blocks with one allocation: block 3 is in use, block 4 is free, and the bits
behind them belong to no block. -/
theorem built_image_mounts_five :
    ∃ s t u fs, createSfs 20480 (fun _ => Bytes.zero) = .ok s ∧ allocInos 1 s = .ok ([3], t) ∧
      closeSfs t = .ok ((), u) ∧
      sfsDoMount ⟨5, 4096, u.image, []⟩ = .ok (.ok fs, ⟨5, 4096, u.image, []⟩) ∧
      bitmapTest fs.freemap 3 = .ok false ∧ bitmapTest fs.freemap 4 = .ok true ∧
      bitmapTest fs.freemap 5 = .ok false := by
  obtain ⟨s, hs⟩ : ∃ s, createSfs 20480 (fun _ => Bytes.zero) = .ok s := ⟨_, rfl⟩
  obtain ⟨t, ht, hb⟩ : ∃ t, allocInos 1 s = .ok ([3], t) ∧ t.super.blocks = 5 := by
    cases hs
    exact ⟨_, rfl, rfl⟩
  obtain ⟨u, hu, hm⟩ := built_image_mounts hs ht
  obtain ⟨fs, e, -, -, hbits⟩ := hm ⟨5, 4096, u.image, []⟩ rfl rfl hb.le fun _ _ => rfl
  rw [hb] at hbits
  exact ⟨s, t, u, fs, hs, ht, hu, e, hbits 3 (by decide), hbits 4 (by decide), hbits 5 (by decide)⟩

end Ucore

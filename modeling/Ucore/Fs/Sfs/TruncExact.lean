import Ucore.Fs.Sfs.FileRun

set_option autoImplicit false

/-!
# Truncating is exact

What `sfs_truncfile`, and `sfs_tryseek` behind the end of a file, do to the contents of the file.
Blocks that are added are cleared, but the rest of the last block is not: bytes that an earlier
truncation has cut off come back. And blocks that have been added are not given back when the disk
is full.

## Main definitions

* `Truncates` — a call truncates or enlarges a file, or changes nothing.
* `TruncClean` — the condition for that.

## Main results

* `truncate_exact_iff` — a call truncates exactly iff it is clean.
* `truncate_not_exact` — on a volume with one free block a file keeps it.
-/

namespace Ucore

open Comp

/-- The call `m` truncates the file `i` to `len` bytes: if it returns `0` the size is `len`, the
bytes up to the smaller one of the two sizes are the same, and those behind the old size are zero;
and if it fails for lack of blocks, the inode, the block map and the freemap are as before. -/
def Truncates (m : Sfs (Except Errno Unit)) (i len : ℕ) (s : SfsFs) : Prop :=
  (∀ t, m s = .ok (.ok (), t) → (t.dinOf i).size = len ∧
    (∀ q < min (s.dinOf i).size len, t.bytes i q = s.bytes i q) ∧
    ∀ q, (s.dinOf i).size ≤ q → q < len → t.bytes i q = 0) ∧
  ∀ t, m s = .ok (.error .noMem, t) → t.dinOf i = s.dinOf i ∧
    (∀ k, t.bmapAt i k = s.bmapAt i k) ∧ t.freemap.free = s.freemap.free

/-- If the file can have the blocks that are needed, what stands behind its end is zero; and if not,
it can have no further block. -/
def TruncClean (i len : ℕ) (s : SfsFs) : Prop :=
  if blocksFor len ≤ cap s i then ∀ q, (s.dinOf i).size ≤ q → q < len → s.bytes i q = 0
  else cap s i = (s.dinOf i).blocks

variable {I : Finset ℕ} {i len : ℕ} {s t : SfsFs} {sin : SfsInode} {m : Sfs (Except Errno Unit)}

/-- A call that returns `0`. -/
lemma truncates_of_ok (e : m s = .ok (.ok (), t)) (hsize : (t.dinOf i).size = len)
    (hbytes : ∀ q < len, t.bytes i q = s.bytes i q) :
    Truncates m i len s ↔ ∀ q, (s.dinOf i).size ≤ q → q < len → s.bytes i q = 0 := by
  constructor
  · intro h q hq hlt
    rw [← hbytes q hlt]
    exact (h.1 t e).2.2 q hq hlt
  · refine fun h => ⟨fun u hu => ?_, fun u hu => ?_⟩
    · cases e.symm.trans hu
      refine ⟨hsize, fun q hq => hbytes q (lt_of_lt_of_le hq (min_le_right _ _)),
        fun q hq hlt => ?_⟩
      rw [hbytes q hlt, h q hq hlt]
    · cases e.symm.trans hu

/-- A file that can have no further block is not enlarged. -/
lemma growFile_full (h : Sound I s) (hm : Mapped s i) (hn : s.nodes i = some sin)
    (hlim : limit s i < maxBlocks) (hcap : cap s i = sin.din.blocks) (k : ℕ) :
    ∃ t, growFile i (k + 1) sin.din.blocks s = .ok (.error .noMem, t) ∧ Kept I i s t := by
  have hcap' : cap s i = min (limit s i) maxBlocks := rfl
  obtain ⟨t, e, hkept⟩ := load_full (k := sin.din.blocks) h hn (by omega)
    (hm.unmapped _ (by rw [dinOf_of_node hn])) rfl (by omega)
  exact ⟨t, by rw [growFile, andThen_of_fail e], hkept⟩

/-- **`sfs_truncfile`** on a file in order.

**Proof sketch.** If the file can have the blocks it needs, all bytes below the new size are those
of the old file, the new blocks counting as zero. If it cannot, it gets the blocks that it can have,
and keeps them; only if there are none is everything as before. -/
lemma truncfile_truncates (h : Sound I s) (hf : FileInv s i) (hn : s.nodes i = some sin)
    (hlen : len ≤ maxBlocks * blkSize) :
    Truncates (sfsTruncfile i len) i len s ↔ TruncClean i len s := by
  have hdin := dinOf_of_node hn
  have hm := hf.toMapped
  have hle : blocksFor len ≤ maxBlocks := blocksFor_le_iff.mpr hlen
  have hmax : len ≤ maxFileSize := hlen.trans (by decide)
  have hcap : cap s i = min (limit s i) maxBlocks := rfl
  unfold TruncClean
  by_cases hs : sin.din.size = len
  · have hb := hf.blocks
    rw [hdin, hs] at hb
    have hblocks := hm.blocks_le_cap
    rw [hdin] at hblocks
    rw [if_pos (by omega)]
    refine truncates_of_ok ?_ (by rw [hdin, hs]) fun _ _ => rfl
    rw [truncfile_same hn hmax hs, if_pos hb.symm]
  · by_cases htop : blocksFor len ≤ cap s i
    · rw [if_pos htop]
      obtain ⟨t, e, x⟩ := truncfile_ok h hm hn hmax hs htop
      obtain ⟨-, -, -, hsize, -, hbytes⟩ := x.setSize hn len
      refine truncates_of_ok e hsize fun q hq => hbytes q ?_
      unfold blocksFor blkSize
      omega
    · rw [if_neg htop]
      obtain ⟨t, e, x⟩ := truncfile_stops h hm hn hmax hs (by omega) (by omega)
      constructor
      · intro ht
        rw [← x.blocks, ((ht.2 t e).1)]
      · intro hc
        obtain ⟨heq, hlt⟩ := truncfile_grows hm hn hmax hs (by omega)
        rw [hdin] at hc
        obtain ⟨u, e', hkept⟩ := growFile_full h hm hn (by omega) hc
          (blocksFor len - sin.din.blocks - 1)
        rw [show blocksFor len - sin.din.blocks - 1 + 1 = blocksFor len - sin.din.blocks by omega]
          at e'
        have heu := heq.trans (andThen_of_fail e' _)
        refine ⟨fun v hv => ?_, fun v hv => ?_⟩
        · cases heu.symm.trans hv
        · cases heu.symm.trans hv
          exact ⟨(hkept.extended hm hn).2, hkept.bmapAt, hkept.free⟩

/-- **Truncating is exact iff it is clean**: for every file in order on a sound volume and every
size that the block map can address, `sfs_truncfile`, and `sfs_tryseek` to a position behind the end
of the file, truncate or enlarge the file exactly iff the bytes between the old end and the new one
are zero, or, if the disk is full, the file can have no further block. -/
theorem truncate_exact_iff (h : Sound I s) (hf : FileInv s i) (hn : s.nodes i = some sin)
    (hlen : len ≤ maxBlocks * blkSize) :
    (Truncates (sfsTruncfile i len) i len s ↔ TruncClean i len s) ∧
    (sin.din.size < len → (Truncates (sfsTryseek i len) i len s ↔ TruncClean i len s)) := by
  refine ⟨truncfile_truncates h hf hn hlen, fun hlt => ?_⟩
  rw [← truncfile_truncates h hf hn hlen]
  have hmax : maxBlocks * blkSize < maxFileSize := by decide
  rcases sfsTryseek_eq hn len with ⟨-, -, e⟩ | ⟨hno, -⟩
  · unfold Truncates
    rw [e]
  · omega

/-- An empty file gets a block. -/
theorem truncate_exact_one_block :
    Truncates (sfsTruncfile 2 4096) 2 4096 (oneFile 0xFFFFFFF8#32 (directFile 0 0)) := by
  have hw : ∀ b < 3 + 0, (0xFFFFFFF8#32).getLsbD b = false := by decide
  refine (truncate_exact_iff (directFile_sound (by decide) hw)
    (directFile_filesInv (by decide) hw rfl 2 (by simp) rfl) oneFile_node (by decide)).1.mpr ?_
  unfold TruncClean
  rw [if_pos (by decide)]
  exact fun q _ _ => rfl

/-- **Truncating is not exact**: on a volume with one free block an empty file is to get two. The
call fails, and the file has got the free block. -/
theorem truncate_not_exact :
    ¬Truncates (sfsTruncfile 2 8192) 2 8192 (oneFile 0x8#32 (directFile 0 0)) := by
  have hw : ∀ b < 3 + 0, (0x8#32).getLsbD b = false := by decide
  intro h
  have hc : TruncClean 2 8192 _ := (truncfile_truncates (directFile_sound (by decide) hw)
    (directFile_filesInv (by decide) hw rfl 2 (by simp) rfl) oneFile_node (by decide)).mp h
  rw [TruncClean, if_neg (by decide)] at hc
  exact absurd hc (by decide)

end Ucore

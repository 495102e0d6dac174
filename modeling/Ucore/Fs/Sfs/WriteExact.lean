import Ucore.Fs.Sfs.FileSpec

set_option autoImplicit false

/-!
# Writing is exact

What a write does to the file, to its size and to the other files of the volume. The bytes are
always written where they belong; but as for reads the exit of `sfs_io_nolock` counts the bytes of
the head and of the whole blocks twice when it raises the size.

## Main definitions

* `WriteExact` — a write replaces the bytes it covers and changes nothing else.
* `WriteHarmless` — the size is not raised beyond the last byte written.

## Main results

* `write_exact_iff` — a write is exact iff it is harmless.
* `write_not_exact` — writing a block to an empty file makes it two blocks long.
-/

namespace Ucore

/-- Writing the `len` bytes of `buf` at position `off` is exact: with `alen` the number of bytes
written, which is `len` if the write returns `0` and less if the disk is full, the size becomes
`max size (off + alen)`, the contents are the old ones with `[off, off + alen)` replaced, and the
size and the contents of the other files stay as they are. -/
def WriteExact (I : Finset ℕ) (s : SfsFs) (i : ℕ) (buf : Bytes) (off len : ℕ) : Prop :=
  ∃ alen ret s', sfsIoNolock true i buf off len s = .ok ((buf, alen, ret), s') ∧
    (ret = .ok () ∧ alen = len ∨ ret = .error .noMem ∧ alen < len) ∧
    (s'.dinOf i).size = max (s.dinOf i).size (off + alen) ∧
    (∀ q < max (s.dinOf i).size (off + alen), s'.bytes i q =
      if off ≤ q ∧ q < off + alen then buf (q - off) else s.bytes i q) ∧
    ∀ j ∈ I, j ≠ i → (s.dinOf j).type = typeFile → (s'.dinOf j).size = (s.dinOf j).size ∧
      ∀ q < (s.dinOf j).size, s'.bytes j q = s.bytes j q

/-- The requests for which writing is exact: those that write nothing; if the file can have the
blocks that are needed, those for which the start of the tail plus the number of bytes written does
not exceed the size of the file and the end of the request; and if it cannot, those that start
behind the last block that the file can have. -/
def WriteHarmless (s : SfsFs) (i off len : ℕ) : Prop :=
  len = 0 ∨ if topBlock off len ≤ limit s i then
      tailStart off (off + len) + len ≤ max (s.dinOf i).size (off + len)
    else limit s i * blkSize ≤ off

section Write

variable {I : Finset ℕ} {i j off len n g : ℕ} {s t : SfsFs} {buf buf' : Bytes}

lemma Transferred.bytes_other {write : Bool} (x : Transferred write I i s buf off n g t buf')
    (hj : j ∈ I) (hji : j ≠ i) (hf : FileInv s j) (q : ℕ) : t.bytes j q = s.bytes j q := by
  unfold SfsFs.bytes
  rw [x.frame.dinOf j hj hji]
  split_ifs with hq
  · rw [x.frame.data j hj hji _ (hf.mapped _ hq).ne_zero]
  · rfl

/-- A write that has transferred `n` bytes and raised the size to `g` is exact iff `g` lies inside
the file as it should be. -/
lemma writeExact_of_transferred {ret : Except Errno Unit} (hfs : FilesInv I s)
    (e : sfsIoNolock true i buf off len s = .ok ((buf', n, ret), t))
    (x : Transferred true I i s buf off n g t buf') (hg : off + n ≤ g)
    (hret : ret = .ok () ∧ n = len ∨ ret = .error .noMem ∧ n < len) :
    WriteExact I s i buf off len ↔ g ≤ max (s.dinOf i).size (off + n) := by
  have hbuf : buf' = buf := by
    funext p
    rw [x.buffer p, if_neg (by simp)]
  subst hbuf
  constructor
  · rintro ⟨a, r, t', e', -, hsize, -⟩
    rw [e, Except.ok.injEq, Prod.mk.injEq, Prod.mk.injEq, Prod.mk.injEq] at e'
    obtain ⟨⟨-, rfl, -⟩, rfl⟩ := e'
    rw [x.size] at hsize
    omega
  · intro hle
    refine ⟨n, ret, t, e, hret, by rw [x.size]; omega, fun q _ => ?_, fun j hj hji ht => ?_⟩
    · rw [x.bytes q]
      simp
    · exact ⟨by rw [x.frame.dinOf j hj hji], fun q _ => x.bytes_other hj hji (hfs j hj ht) q⟩

end Write

/-- **When writing is exact.** On a sound volume whose files satisfy their representation
invariant, for every regular file, every position up to its end and every length such that the
block map can address the end of the request: the write returns, and it is exact iff it is
harmless.

**Proof sketch.** Either nothing is to be written, or the file can have the blocks it needs, or the
transfer stops at the first block it cannot have. In the last two cases the size is raised to the
start of the last piece plus the number of bytes written. -/
theorem write_exact_iff {I : Finset ℕ} {s : SfsFs} {i : ℕ} {sin : SfsInode} (h : Sound I s)
    (hfs : FilesInv I s) (hn : s.nodes i = some sin) (ht : sin.din.type = typeFile) (buf : Bytes)
    {off len : ℕ} (hoff : off ≤ sin.din.size) (hlen : off + len ≤ maxBlocks * blkSize) :
    WriteExact I s i buf off len ↔ WriteHarmless s i off len := by
  have hdin := dinOf_of_node hn
  have hf : FileInv s i := hfs i (h.cached i sin hn) (by rwa [hdin])
  have hblk : off / blkSize ≤ (s.dinOf i).blocks := hf.div_le (by rwa [hdin])
  have hsize := hf.size_le_blocks
  have hcap := hf.toMapped.blocks_le_cap
  have hmax : maxBlocks * blkSize < maxFileSize := by decide
  rw [hdin] at hblk hsize hcap
  have hM : maxFileSize = 134217728 := rfl
  have hl : len < 2 ^ 64 := by omega
  have hio := sfsIoNolock_eq true hn (by rw [ht]; decide) buf off hl
  have hc : ¬((off : ℤ) < 0 ∨ (maxFileSize : ℤ) ≤ off ∨ 2 ^ 63 ≤ (off : ℤ) + len) := by omega
  have hend : ioEnd true sin.din.size off len = off + len := by
    rw [ioEnd, if_pos rfl]
    omega
  rw [if_neg hc, Int.toNat_natCast, hend] at hio
  unfold WriteHarmless
  rw [hdin]
  by_cases h0 : len = 0
  · rw [if_pos (Or.inl h0)] at hio
    refine iff_of_true ⟨0, _, s, hio, .inl ⟨rfl, h0.symm⟩, by rw [hdin]; omega, fun q _ => ?_,
      fun j _ _ _ => ⟨rfl, fun q _ => rfl⟩⟩ (.inl h0)
    rw [if_neg (by omega)]
  · have hc' : ¬(len = 0 ∨ true = false ∧ (sin.din.size : ℤ) ≤ off) := by simp [h0]
    rw [if_neg hc'] at hio
    have hlt : off < off + len := by omega
    have htop : topBlock off len ≤ maxBlocks := by
      rw [topBlock, if_neg h0]
      unfold blkSize at *
      omega
    have hsub : off + len - off = len := by omega
    by_cases hlim : topBlock off len ≤ limit s i
    · -- the file can have the blocks it needs
      obtain ⟨t, buf', e, x⟩ := ioTransfer_complete true h hf.toMapped hn hblk hlt
        (by rw [hsub, cap]; omega) buf
      rw [hsub] at e x
      have hstart := le_tailStart hlt.le
      rw [writeExact_of_transferred hfs (hio.trans e) x (by omega) (Or.inl ⟨rfl, rfl⟩),
        hdin, if_pos hlim]
      simp [h0]
    · -- the transfer stops behind the last block that the file can have
      have hcap' : cap s i = limit s i := by
        rw [cap]
        omega
      obtain ⟨t, buf', e, x⟩ := ioTransfer_stops true h hf.toMapped hn hblk hlt
        (by rw [hsub]; omega) (by omega) buf
      rw [hcap'] at e x hcap
      have hn' : limit s i * blkSize - off < len := by
        rw [topBlock, if_neg h0] at hlim
        unfold blkSize at *
        omega
      rw [writeExact_of_transferred hfs (hio.trans e) x (by omega) (Or.inr ⟨rfl, hn'⟩),
        hdin, if_neg hlim]
      have := Nat.mul_le_mul_right blkSize hcap
      omega

/-- Writing a hundred bytes to an empty file. -/
theorem write_exact_hundred :
    WriteHarmless (oneFile 0xFFFFFFF8#32 (directFile 0 0)) 2 0 100 ∧
    WriteExact {2} (oneFile 0xFFFFFFF8#32 (directFile 0 0)) 2 Bytes.zero 0 100 := by
  have hw : ∀ b < 3 + 0, (0xFFFFFFF8#32).getLsbD b = false := by decide
  have hc : WriteHarmless (oneFile 0xFFFFFFF8#32 (directFile 0 0)) 2 0 100 := by
    refine .inr ?_
    rw [if_pos (by decide)]
    decide
  exact ⟨hc, (write_exact_iff (directFile_sound (by decide) hw)
    (directFile_filesInv (by decide) hw rfl) oneFile_node rfl Bytes.zero (Nat.zero_le _)
    (by decide)).mpr hc⟩

/-- **Writing is not exact**: writing one block to an empty file returns `0` and makes the file two
blocks long. -/
theorem write_not_exact :
    let s := oneFile 0xFFFFFFF8#32 (directFile 0 0)
    Sound {2} s ∧ FilesInv {2} s ∧ ¬WriteExact {2} s 2 Bytes.zero 0 4096 ∧
    ∃ buf t, sfsIoNolock true 2 Bytes.zero 0 4096 s = .ok ((buf, 4096, .ok ()), t) ∧
      (t.dinOf 2).size = 8192 := by
  intro s
  have hw : ∀ b < 3 + 0, (0xFFFFFFF8#32).getLsbD b = false := by decide
  have hs : Sound {2} s := directFile_sound (by decide) hw
  have hf : FilesInv {2} s := directFile_filesInv (by decide) hw rfl
  have hn : s.nodes 2 = some ⟨directFile 0 0, false, 1, 1, 1⟩ := oneFile_node
  obtain ⟨t, buf', e, x⟩ := ioTransfer_complete true hs (directFile_mapped (by decide)) hn
    (by decide) (by decide : 0 < 4096) (by decide) Bytes.zero
  have hlen : 4096 < 2 ^ 64 := by omega
  have hio := sfsIoNolock_eq true hn (by decide) Bytes.zero 0 hlen
  rw [if_neg (by decide), if_neg (by decide)] at hio
  have hio' := hio.trans e
  refine ⟨hs, hf, ?_, buf', t, hio', x.size⟩
  rw [writeExact_of_transferred hf hio' x (by decide) (Or.inl ⟨rfl, rfl⟩)]
  decide

end Ucore

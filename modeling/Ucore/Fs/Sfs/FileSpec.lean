import Ucore.Fs.Sfs.IoSpec

set_option autoImplicit false

/-!
# Reading and writing files

`sfs_io_nolock` as a whole: the checks on its arguments, the transfer, and what becomes of the size.

## Main definitions

* `FileInv` — the representation invariant of a file: its blocks are those its size needs.
* `ioEnd` — where a transfer ends after the checks.
* `Transferred` — the file system and the buffer after a transfer.

## Main results

* `sfsIoNolock_eq` — the checks of `sfs_io_nolock`.
* `ioTransfer_complete`, `ioTransfer_stops`, `ioTransfer_panics` — how a transfer
  on a sound file system ends: it depends on the number of blocks that the file can have.
* `ioTransfer_panics_beyond` — a transfer that starts beyond the blocks of the file panics.
-/

namespace Ucore

open Function Comp

/-- The representation invariant of the file `i`: it has as many blocks as its size needs, the
indices below are mapped to blocks in use, and no other index is mapped. -/
structure FileInv (s : SfsFs) (i : ℕ) : Prop where
  blocks : (s.dinOf i).blocks = blocksFor (s.dinOf i).size
  mapped : ∀ k < (s.dinOf i).blocks, InUse s (s.bmapAt i k)
  unmapped : ∀ k, (s.dinOf i).blocks ≤ k → s.bmapAt i k = 0
  indirect : (s.dinOf i).indirect ≠ 0 → InUse s (s.dinOf i).indirect

/-- All regular files of the volume satisfy their representation invariant. -/
def FilesInv (I : Finset ℕ) (s : SfsFs) : Prop :=
  ∀ i ∈ I, (s.dinOf i).type = typeFile → FileInv s i

/-- Where a transfer of `len` bytes at `off` ends: at the maximal file size at the latest, and a
read at the end of the file. -/
def ioEnd (write : Bool) (size off len : ℕ) : ℕ :=
  if write then min (off + len) maxFileSize else min (min (off + len) maxFileSize) size

variable {sin : SfsInode} {buf : Bytes} {s t : SfsFs} {write : Bool}

section Checks

variable {i off len : ℕ} {s : SfsFs} {offset : ℤ}

lemma FileInv.toMapped (h : FileInv s i) : Mapped s i :=
  ⟨fun k hk => (h.mapped k hk).ne_zero, h.unmapped⟩

lemma FileInv.size_le (hf : FileInv s i) : (s.dinOf i).size ≤ maxBlocks * blkSize := by
  have hb : (s.dinOf i).blocks ≤ maxBlocks := by
    by_contra hc
    exact absurd (lt_of_mapAt_ne_zero (hf.mapped maxBlocks (by omega)).ne_zero) (lt_irrefl _)
  rw [hf.blocks] at hb
  unfold blocksFor blkSize at *
  omega

/-- On a sound volume what is mapped is in use. -/
lemma Mapped.fileInv {I : Finset ℕ} (hm : Mapped s i) (h : Sound I s) (hi : i ∈ I)
    (hb : (s.dinOf i).blocks = blocksFor (s.dinOf i).size) : FileInv s i where
  blocks := hb
  mapped k hk := by
    have hu := h.inUse (x := .data i k) (by rw [ref_data hi]; exact hm.mapped k hk)
    rwa [ref_data hi] at hu
  unmapped := hm.unmapped
  indirect h0 := by
    have hu := h.inUse (x := .indirect i) (by rwa [ref_indirect hi])
    rwa [ref_indirect hi] at hu

lemma FileInv.div_le (h : FileInv s i) (hoff : off ≤ (s.dinOf i).size) :
    off / blkSize ≤ (s.dinOf i).blocks := by
  rw [h.blocks]
  unfold blocksFor blkSize
  omega

lemma FileInv.size_le_blocks (h : FileInv s i) :
    (s.dinOf i).size ≤ (s.dinOf i).blocks * blkSize := by
  rw [h.blocks]
  unfold blocksFor blkSize
  omega

lemma directFile_mapped {w : BitVec 32} {n size : ℕ} (hle : n ≤ nDirect) :
    Mapped (oneFile w (directFile n size)) 2 := by
  refine ⟨fun k hk => ?_, fun k hk => ?_⟩ <;> rw [dinOf_of_node oneFile_node] at hk <;>
    rw [bmapAt_of_node oneFile_node]
  · change k < n at hk
    rw [mapAt_direct (by omega)]
    simp [directFile, hk]
  · change n ≤ k at hk
    by_cases hk' : k < nDirect
    · rw [mapAt_direct hk']
      simp [directFile, hk]
    · exact mapAt_no_entry hk' rfl

section

variable {w : BitVec 32} {n size : ℕ} (hle : n ≤ nDirect) (hw : ∀ b < 3 + n, w.getLsbD b = false)
  (hs : n = blocksFor size)
include hle hw hs

lemma directFile_fileInv : FileInv (oneFile w (directFile n size)) 2 := by
  refine (directFile_mapped hle).fileInv (directFile_sound hle hw) (by decide) ?_
  rw [dinOf_of_node oneFile_node]
  exact hs

lemma directFile_filesInv : FilesInv {2} (oneFile w (directFile n size)) := by
  intro i hi _
  rw [Finset.mem_singleton.mp hi]
  exact directFile_fileInv hle hw hs

end

lemma offAdd_of_lt (h : off + len < 2 ^ 63) : offAdd off len = (off + len : ℕ) := by
  unfold offAdd
  rw [Int.bmod_eq_of_le (by omega) (by omega)]
  rfl

lemma offAdd_overflow (hoff : off < maxFileSize) (hlen : len < 2 ^ 64) (h : 2 ^ 63 ≤ off + len) :
    offAdd off len < off := by
  unfold maxFileSize at hoff
  unfold offAdd
  rw [Int.bmod_def]
  split_ifs <;> omega

/-- **The checks of `sfs_io_nolock`**: which requests are rejected, which transfer nothing, and
what the others transfer. -/
lemma sfsIoNolock_eq (write : Bool) (hn : s.nodes i = some sin) (ht : sin.din.type ≠ typeDir)
    (buf : Bytes) (offset : ℤ) (hlen : len < 2 ^ 64) :
    sfsIoNolock write i buf offset len s =
      if offset < 0 ∨ (maxFileSize : ℤ) ≤ offset ∨ 2 ^ 63 ≤ offset + len then
        .ok ((buf, 0, .error .inval), s)
      else if len = 0 ∨ (write = false ∧ (sin.din.size : ℤ) ≤ offset) then
        .ok ((buf, 0, .ok ()), s)
      else ioTransfer write i buf offset.toNat
        (ioEnd write sin.din.size offset.toNat len) s := by
  rw [sfsIoNolock, bind_of_ok (getSin_apply hn), ensure_bind_apply, if_pos ht]
  by_cases h1 : offset < 0 ∨ (maxFileSize : ℤ) ≤ offset
  · rw [if_pos (by tauto), if_pos (by tauto)]
    rfl
  · obtain ⟨off, rfl⟩ : ∃ off : ℕ, offset = off := ⟨offset.toNat, by omega⟩
    have hoff : off < maxFileSize := by omega
    by_cases h2 : off + len < 2 ^ 63
    · have hend := offAdd_of_lt h2
      have hc : ¬((off : ℤ) < 0 ∨ (maxFileSize : ℤ) ≤ off ∨ ((off + len : ℕ) : ℤ) < off) := by
        omega
      have hc' : ¬((off : ℤ) < 0 ∨ (maxFileSize : ℤ) ≤ off ∨ (2 : ℤ) ^ 63 ≤ off + len) := by
        omega
      rw [hend, if_neg hc, if_neg hc']
      by_cases h3 : len = 0
      · have he : (off : ℤ) = (off + len : ℕ) := by omega
        rw [if_pos he, if_pos (Or.inl h3)]
        rfl
      · have he : ¬(off : ℤ) = (off + len : ℕ) := by omega
        rw [if_neg he]
        by_cases h4 : write = false ∧ (sin.din.size : ℤ) ≤ off
        · rw [if_pos h4, if_pos (Or.inr h4)]
          rfl
        · rw [if_neg h4, if_neg (not_or.mpr ⟨h3, h4⟩)]
          refine congrArg (fun e => ioTransfer write i buf off e s) ?_
          unfold ioEnd
          cases write
          · simp only [true_and, Bool.false_eq_true, if_false]
            split_ifs <;> omega
          · simp only [Bool.true_eq_false, false_and, if_false, if_true]
            split_ifs <;> omega
    · have hend := offAdd_overflow hoff hlen (by omega)
      have hc : (off : ℤ) < 0 ∨ (maxFileSize : ℤ) ≤ off ∨ offAdd off len < off := by omega
      have hc' : (off : ℤ) < 0 ∨ (maxFileSize : ℤ) ≤ off ∨ (2 : ℤ) ^ 63 ≤ off + len := by omega
      rw [if_pos hc, if_pos hc']
      rfl

/-- The requests that transfer something. -/
def IoActive (write : Bool) (size : ℕ) (offset : ℤ) (len : ℕ) : Prop :=
  0 ≤ offset ∧ offset < maxFileSize ∧ offset + len < 2 ^ 63 ∧ len ≠ 0 ∧
    (write = false → offset < size)

instance (write : Bool) (size : ℕ) (offset : ℤ) (len : ℕ) :
    Decidable (IoActive write size offset len) := by
  unfold IoActive
  infer_instance

/-- A transfer that is active is not empty. -/
lemma IoActive.lt_ioEnd {write : Bool} {size : ℕ} (ha : IoActive write size offset len) :
    offset.toNat < ioEnd write size offset.toNat len := by
  obtain ⟨h1, h2, h3, h4, h5⟩ := ha
  unfold ioEnd
  cases write
  · have := h5 rfl
    simp only [Bool.false_eq_true, if_false]
    omega
  · simp only [if_true]
    omega

/-- The other requests change nothing. -/
lemma sfsIoNolock_idle {write : Bool} (hn : s.nodes i = some sin) (ht : sin.din.type ≠ typeDir)
    (hlen : len < 2 ^ 64) (h : ¬IoActive write sin.din.size offset len) (buf : Bytes) :
    ∃ ret, sfsIoNolock write i buf offset len s = .ok ((buf, 0, ret), s) := by
  rw [sfsIoNolock_eq write hn ht buf offset hlen]
  by_cases h1 : offset < 0 ∨ (maxFileSize : ℤ) ≤ offset ∨ 2 ^ 63 ≤ offset + len
  · exact ⟨_, if_pos h1⟩
  · rw [if_neg h1]
    by_cases h2 : len = 0 ∨ (write = false ∧ (sin.din.size : ℤ) ≤ offset)
    · exact ⟨_, if_pos h2⟩
    · refine absurd ⟨by omega, by omega, by omega, by tauto, fun hw => ?_⟩ h
      by_contra hlt
      exact h2 (.inr ⟨hw, by omega⟩)

/-- A request that transfers something is not empty. -/
lemma sfsIoNolock_active {write : Bool} (hn : s.nodes i = some sin) (ht : sin.din.type ≠ typeDir)
    (h : IoActive write sin.din.size offset len) (buf : Bytes) :
    sfsIoNolock write i buf offset len s =
      ioTransfer write i buf offset.toNat (ioEnd write sin.din.size offset.toNat len) s ∧
    offset.toNat < ioEnd write sin.din.size offset.toNat len := by
  have hlt := h.lt_ioEnd
  obtain ⟨h1, h2, h3, h4, h5⟩ := h
  have hc : ¬(offset < 0 ∨ (maxFileSize : ℤ) ≤ offset ∨ 2 ^ 63 ≤ offset + len) := by omega
  have hc' : ¬(len = 0 ∨ (write = false ∧ (sin.din.size : ℤ) ≤ offset)) := by
    rintro (h6 | ⟨h6, h7⟩)
    · exact h4 h6
    · have := h5 h6
      omega
  rw [sfsIoNolock_eq write hn ht buf offset (by omega), if_neg hc, if_neg hc']
  exact ⟨rfl, hlt⟩

end Checks

/-! ## The exit of `sfs_io_nolock` -/

/-- The size of the file `i` is raised to `n`. -/
def raiseSize (s : SfsFs) (i n : ℕ) : SfsFs :=
  if (s.dinOf i).size < n then s.modSin i (·.setSize n) else s

section Out

variable {i off e : ℕ} {v : IoVars} {ret : Except Errno Unit}

lemma ioOut_apply (hn : s.nodes i = some sin) (v : IoVars) (ret : Except Errno Unit) :
    ioOut i v ret s = .ok ((v.buf, v.alen, ret), raiseSize s i (v.offset + v.alen)) := by
  rw [ioOut, bind_of_ok (getSin_apply hn), raiseSize, dinOf_of_node hn]
  by_cases h : sin.din.size < v.offset + v.alen
  · rw [if_pos h, if_pos h]
    rfl
  · rw [if_neg h, if_neg h]
    rfl

lemma ioTransfer_of_steps (hn : t.nodes i = some sin)
    (h : ioSteps write i e ⟨buf, 0, 0, off, off / blkSize, e / blkSize - off / blkSize⟩ s =
      .ok ((v, ret), t)) :
    ioTransfer write i buf off e s =
      .ok ((v.buf, v.alen, ret), raiseSize t i (v.offset + v.alen)) := by
  rw [ioTransfer, bind_of_ok h]
  exact ioOut_apply hn v ret

lemma raiseSize_of_le {n : ℕ} (h : n ≤ (s.dinOf i).size) : raiseSize s i n = s := by
  rw [raiseSize, if_neg (by omega)]

lemma raiseSize_size {n : ℕ} (hn : s.nodes i = some sin) :
    ((raiseSize s i n).dinOf i).size = max (s.dinOf i).size n := by
  unfold raiseSize
  split_ifs with h
  · rw [modSin_dinOf hn, if_pos rfl]
    change n = _
    omega
  · omega

end Out

/-! ## How a transfer ends -/

/-- A transfer of `n` bytes between the buffer `buf₀` and the position `off` of the file `i` has
been made, and the size of the file has been raised to `g`. -/
structure Transferred (write : Bool) (I : Finset ℕ) (i : ℕ) (s₀ : SfsFs) (buf₀ : Bytes)
    (off n g : ℕ) (s : SfsFs) (buf : Bytes) : Prop where
  frame : Frame I i s₀ s
  node : ∀ sin₀, s₀.nodes i = some sin₀ →
    ∃ sin, s.nodes i = some sin ∧ sin.din.type = sin₀.din.type
  mapped : Mapped s i
  blocks : (s.dinOf i).blocks = max (s₀.dinOf i).blocks (topBlock off n)
  size : (s.dinOf i).size = max (s₀.dinOf i).size g
  bytes : ∀ q, s.bytes i q =
    if write = true ∧ off ≤ q ∧ q < off + n then buf₀ (q - off) else s₀.bytes i q
  buffer : ∀ p, buf p = if write = false ∧ p < n then s₀.bytes i (off + p) else buf₀ p

section Ends

variable {I : Finset ℕ} {i off e n g : ℕ} {buf buf₀ : Bytes}

/-- Raising the size changes neither the blocks nor the block map. -/
lemma raiseSize_frame (h : Sound I s) (hn : s.nodes i = some sin) (g : ℕ) :
    Frame I i s (raiseSize s i g) ∧ (∀ k, (raiseSize s i g).bmapAt i k = s.bmapAt i k) ∧
    (raiseSize s i g).disk = s.disk ∧ ∃ sin', (raiseSize s i g).nodes i = some sin' ∧
      sin'.din.type = sin.din.type ∧ sin'.din.blocks = sin.din.blocks := by
  unfold raiseSize
  split_ifs
  · obtain ⟨hf, hb⟩ := frame_modSin (f := (·.setSize g)) h hn rfl rfl
    exact ⟨hf, hb, rfl, _, modSin_nodes_self hn, rfl, rfl⟩
  · exact ⟨.refl h, fun _ => rfl, rfl, sin, hn, rfl, rfl⟩

/-- The exit after `n` bytes. -/
lemma Moved.raise (m : Moved write I i s buf₀ off n t buf) (hn : s.nodes i = some sin) (g : ℕ) :
    Transferred write I i s buf₀ off n g (raiseSize t i g) buf := by
  obtain ⟨sin', hn', hmeta⟩ := m.node sin hn
  obtain ⟨hf, hmap, hdisk, sin'', hn'', htype, hblocks⟩ := raiseSize_frame m.frame.sound hn' g
  have hb : ((raiseSize t i g).dinOf i).blocks = (t.dinOf i).blocks := by
    rw [dinOf_of_node hn'', dinOf_of_node hn', hblocks]
  have hbytes : ∀ q, (raiseSize t i g).bytes i q = t.bytes i q := by
    intro q
    simp only [SfsFs.bytes, SfsFs.data, hb, hmap, hdisk]
  refine ⟨m.frame.trans hf, fun sin₀ hn₀ => ?_, ⟨fun k hk => ?_, fun k hk => ?_⟩, ?_, ?_, ?_,
    m.buffer⟩
  · cases hn.symm.trans hn₀
    exact ⟨sin'', hn'', htype.trans hmeta.type⟩
  · rw [hmap]
    exact m.mapped.mapped k (by rwa [← hb])
  · rw [hmap]
    exact m.mapped.unmapped k (by rwa [← hb])
  · rw [hb, m.blocks]
  · rw [raiseSize_size hn', dinOf_of_node hn', dinOf_of_node hn, hmeta.size]
  · intro q
    rw [hbytes, m.bytes]

section

variable (write) (h : Sound I s) (hm : Mapped s i) (hn : s.nodes i = some sin)
  (hoff : off / blkSize ≤ sin.din.blocks) (hlt : off < e)
include write h hm hn hoff hlt

lemma ioSteps_moved (buf : Bytes) :
    Ends (cap s i) (topBlock off (e - off)) (e - off) (Moved write I i s buf off)
      (StoppedAtCap write I i s buf off) (fun v => v.offset = tailStart off e)
      (ioSteps write i e ⟨buf, 0, 0, off, off / blkSize, e / blkSize - off / blkSize⟩ s) :=
  (pieces_moved hn (by rwa [dinOf_of_node hn])).ioSteps (.start h hm) hlt

/-- **A complete transfer**: the file can have the blocks it needs. -/
lemma ioTransfer_complete (htop : topBlock off (e - off) ≤ cap s i) (buf : Bytes) :
    ∃ t buf', ioTransfer write i buf off e s = .ok ((buf', e - off, .ok ()), t) ∧
      Transferred write I i s buf off (e - off) (tailStart off e + (e - off)) t buf' := by
  rcases ioSteps_moved write h hm hn hoff hlt buf with ⟨-, v, t, e', m, ha, ho⟩ | ⟨hc, -⟩
  · obtain ⟨sin', hn', -⟩ := m.node sin hn
    refine ⟨_, v.buf, ?_, m.raise hn _⟩
    rw [ioTransfer_of_steps hn' e', ha, ho]
  · omega

/-- **A transfer that stops**: there is no free block for the next one that it needs. The bytes up
to there have been transferred. -/
lemma ioTransfer_stops (htop : cap s i < topBlock off (e - off)) (hlim : limit s i < maxBlocks)
    (buf : Bytes) : let n := cap s i * blkSize - off
    ∃ t buf', ioTransfer write i buf off e s = .ok ((buf', n, .error .noMem), t) ∧
      Transferred write I i s buf off n (off + n + n) t buf' := by
  intro n
  rcases ioSteps_moved write h hm hn hoff hlt buf with
    ⟨hc, -⟩ | ⟨-, ⟨-, v, t, e', m, ha, ho⟩ | ⟨hc, -⟩⟩
  · omega
  · obtain ⟨sin', hn', -⟩ := m.node sin hn
    refine ⟨_, v.buf, ?_, m.raise hn _⟩
    rw [ioTransfer_of_steps hn' e', ha, ho]
  · omega

/-- **A transfer that panics**: it needs more blocks than the block map can address, and there are
free blocks for them. -/
lemma ioTransfer_panics (htop : cap s i < topBlock off (e - off)) (hlim : maxBlocks ≤ limit s i)
    (buf : Bytes) : ∃ p, LoadPanic p ∧ ioTransfer write i buf off e s = .error p := by
  rcases ioSteps_moved write h hm hn hoff hlt buf with ⟨hc, -⟩ | ⟨-, ⟨hc, -⟩ | ⟨-, p, hp, e'⟩⟩
  · omega
  · omega
  · exact ⟨p, hp, by rw [ioTransfer, bind_of_error e']⟩

end

/-- **A transfer that starts beyond the blocks of the file** panics in its first piece. -/
lemma ioTransfer_panics_beyond (write : Bool) (hn : s.nodes i = some sin)
    (hoff : sin.din.blocks < off / blkSize) (hlt : off < e) (buf : Bytes) :
    ∃ p, LoadPanic p ∧ ioTransfer write i buf off e s = .error p := by
  obtain ⟨p, hp, e'⟩ := load_panics (k := off / blkSize) hn (.inl hoff)
  have hpiece : ∀ (v : IoVars) op next, v.blkno = off / blkSize →
      ioPiece i v op next s = .error p := by
    intro v op next hv
    rw [ioPiece, hv, bind_of_error e']
  refine ⟨p, hp, ?_⟩
  rw [ioTransfer]
  refine bind_of_error ?_ _
  rw [ioSteps]
  by_cases hal : off % blkSize = 0
  · have hhead : ioHead write i e ⟨buf, 0, 0, off, off / blkSize, e / blkSize - off / blkSize⟩ s =
        .ok ((⟨buf, 0, 0, off, off / blkSize, e / blkSize - off / blkSize⟩, .ok ()), s) := by
      simp [ioHead, hal]
    rw [bind_of_ok hhead]
    cases hk : e / blkSize - off / blkSize with
    | zero =>
      -- the transfer is the tail
      simp only [ioBlocks, Comp.pure_bind']
      rw [ioTail, if_pos hlt]
      exact hpiece _ _ _ rfl
    | succ k =>
      refine bind_of_error (bind_of_error ?_ _) _
      exact hpiece _ _ _ rfl
  · refine bind_of_error ?_ _
    simp only [ioHead, ne_eq, hal, not_false_eq_true, if_true]
    exact hpiece _ _ _ rfl

end Ends

end Ucore

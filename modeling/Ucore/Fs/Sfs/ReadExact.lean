import Ucore.Fs.Sfs.FileSpec

set_option autoImplicit false

/-!
# Reading is exact

What a read returns on a file that satisfies its representation invariant, and whether it leaves
the file system alone. At its exit `sfs_io_nolock` raises the size of the file to `offset + alen`,
where `offset` has already been advanced by the head and the whole blocks: those bytes count twice.

## Main definitions

* `ReadExact` — a read returns exactly the bytes of the file and changes nothing.
* `ReadHarmless` — the position up to which the size is raised lies inside the file.

## Main results

* `read_exact_iff` — a read is exact iff it is harmless.
* `read_not_exact` — reading the whole of a file of one block raises its size.
-/

namespace Ucore

open Function

/-- The bytes `[off, off + n)` of the file `i` are in the buffer, what follows is unchanged. -/
def Filled (s : SfsFs) (i : ℕ) (buf₀ : Bytes) (off n : ℕ) (buf : Bytes) : Prop :=
  ∀ p, buf p = if p < n then s.bytes i (off + p) else buf₀ p

/-- Reading `len` bytes at `offset` is exact: it returns `0`, the number of bytes up to the end of
the file and these bytes; and it leaves the size, the blocks, the block map, the freemap, the
number of unused blocks and the dirty flag alone. -/
def ReadExact (s : SfsFs) (i : ℕ) (sin : SfsInode) (buf : Bytes) (offset : ℤ) (len : ℕ) : Prop :=
  ∃ buf' alen ret s' sin', sfsIoNolock false i buf offset len s = .ok ((buf', alen, ret), s') ∧
    (0 ≤ offset → offset < maxFileSize → ret = .ok () ∧
      alen = min (offset.toNat + len) sin.din.size - offset.toNat ∧
      Filled s i buf offset.toNat alen buf') ∧
    s'.nodes i = some sin' ∧ sin'.din.size = sin.din.size ∧ sin'.din.blocks = sin.din.blocks ∧
    (∀ k, s'.bmapAt i k = s.bmapAt i k) ∧ s'.freemap = s.freemap ∧
    s'.super.unusedBlocks = s.super.unusedBlocks ∧ sin'.dirty = sin.dirty

/-- The requests for which reading is exact: those that are rejected for their offset; those that
read nothing; and those for which the start of the tail plus the number of bytes read does not
exceed the size. A request whose end does not fit into 63 bits is rejected. -/
def ReadHarmless (size : ℕ) (offset : ℤ) (len : ℕ) : Prop :=
  (offset < 0 ∨ (maxFileSize : ℤ) ≤ offset) ∨
  (offset + len < 2 ^ 63 ∧ (len = 0 ∨ (size : ℤ) ≤ offset ∨
    tailStart offset.toNat (min (offset.toNat + len) size) +
      (min (offset.toNat + len) size - offset.toNat) ≤ size))

section Read

variable {i off n e : ℕ} {s : SfsFs} {sin : SfsInode} {buf₀ : Bytes}

/-- The pieces of a read inside the blocks of the file. -/
lemma pieces_read (h : Mounted s) (hn : s.nodes i = some sin) (hf : FileInv s i) (buf₀ : Bytes)
    {T : ℕ} (hT : T ≤ sin.din.blocks) (hoff : off / blkSize ≤ sin.din.blocks) :
    Pieces false i off sin.din.blocks T
      (fun n s' buf => s' = s ∧ topBlock off n ≤ sin.din.blocks ∧ Filled s i buf₀ off n buf)
      (fun _ => False) where
  le := by
    rintro n s' buf ⟨-, htop, -⟩ hal
    by_cases h0 : n = 0
    · subst h0
      exact hoff
    · rw [topBlock, if_neg h0] at htop
      unfold blkSize at *
      omega
  ok := by
    rintro n s' v len op next ⟨rfl, -, hfill⟩ hv - hlen hfit hop hk
    have hdin := dinOf_of_node hn
    have hu := hf.mapped ((off + n) / blkSize) (by rwa [hdin])
    have hload : sfsBmapLoadNolock i v.blkno s' =
        .ok (.ok (s'.bmapAt i ((off + n) / blkSize)), s') := by
      rw [hv.blkno]
      exact load_mapped h hn hu (fun h0 => by rw [← hdin] at h0 ⊢; exact (hf.indirect h0).lt) hk
    refine ⟨s', xferBuf false s' (s'.bmapAt i ((off + n) / blkSize)) ((off + n) % blkSize) v.buf n
      len, ?_, rfl, ?_, ?_⟩
    · rw [ioPiece, Comp.bind_of_ok hload]
      simp only
      rw [Comp.bind_of_ok (hop s' _ h hu.ne_zero hu.lt)]
      rfl
    · rw [topBlock_add hlen hfit]
      omega
    · intro p
      change Bytes.copy _ _ _ _ _ p = _
      by_cases hp : n ≤ p ∧ p < n + len
      · rw [Bytes.copy_of_mem _ _ hp.1 hp.2, if_pos hp.2]
        obtain ⟨hq1, hq2⟩ := pos_in_piece (q := off + p) hfit (by omega) (by omega)
        rw [SfsFs.bytes, hq1, hq2, if_pos (by rwa [hdin]), SfsFs.data]
        congr 1
        omega
      · rw [Bytes.copy_of_notMem _ _ (by omega), hfill p]
        by_cases hp' : p < n
        · rw [if_pos hp', if_pos (by omega)]
        · rw [if_neg hp', if_neg (by omega)]
  stop := fun hc => absurd hT (by omega)
  halts := fun _ hr => hr.elim

lemma FileInv.topBlock_le (hf : FileInv s i) (hlt : off < e) (he : e ≤ (s.dinOf i).size) :
    topBlock off (e - off) ≤ (s.dinOf i).blocks ∧ off / blkSize ≤ (s.dinOf i).blocks := by
  rw [hf.blocks, topBlock, if_neg (by omega)]
  unfold blocksFor blkSize
  omega

/-- **A read inside the file** returns its bytes. Then the size is raised. -/
lemma ioTransfer_read (buf₀ : Bytes) (h : Mounted s) (hn : s.nodes i = some sin) (hf : FileInv s i)
    (hlt : off < e) (he : e ≤ sin.din.size) :
    ∃ buf', ioTransfer false i buf₀ off e s =
      .ok ((buf', e - off, .ok ()), raiseSize s i (tailStart off e + (e - off))) ∧
      Filled s i buf₀ off (e - off) buf' := by
  have hdin := dinOf_of_node hn
  have htop := hf.topBlock_le hlt (by rwa [hdin])
  rw [hdin] at htop
  have hstart : s = s ∧ topBlock off 0 ≤ sin.din.blocks ∧ Filled s i buf₀ off 0 buf₀ :=
    ⟨rfl, by simp [topBlock], fun p => by simp⟩
  rcases (pieces_read h hn hf buf₀ htop.1 htop.2).ioSteps hstart hlt
    with ⟨-, v, s', e', ⟨rfl, -, hfill⟩, ha, ho⟩ | ⟨-, hs⟩
  · refine ⟨v.buf, ?_, hfill⟩
    rw [ioTransfer_of_steps hn e', ha]
    rw [ho]
  · exact hs.elim

lemma FileInv.ioEnd_read (hf : FileInv s i) (off len : ℕ) :
    ioEnd false (s.dinOf i).size off len = min (off + len) (s.dinOf i).size := by
  have := hf.size_le
  unfold ioEnd
  unfold maxBlocks nDirect blkNentry blkSize at this
  unfold maxFileSize
  simp only [Bool.false_eq_true, if_false]
  omega

lemma readExact_of_nothing (hn : s.nodes i = some sin) {buf : Bytes} {offset : ℤ} {len : ℕ}
    {ret : Except Errno Unit} (e : sfsIoNolock false i buf offset len s = .ok ((buf, 0, ret), s))
    (hret : 0 ≤ offset → offset < maxFileSize → ret = .ok () ∧
      min (offset.toNat + len) sin.din.size - offset.toNat = 0) :
    ReadExact s i sin buf offset len := by
  refine ⟨buf, 0, ret, s, sin, e, fun h0 h1 => ?_, hn, rfl, rfl, fun _ => rfl, rfl, rfl, rfl⟩
  obtain ⟨h2, h3⟩ := hret h0 h1
  exact ⟨h2, h3.symm, fun p => by simp⟩

/-- A read that raises the size to `n` changes it iff `n` lies beyond the end of the file. -/
lemma readExact_of_raise (hn : s.nodes i = some sin) {buf buf' : Bytes} {offset : ℤ} {len n : ℕ}
    (e : sfsIoNolock false i buf offset len s =
      .ok ((buf', min (offset.toNat + len) sin.din.size - offset.toNat, .ok ()), raiseSize s i n))
    (hfill : Filled s i buf offset.toNat (min (offset.toNat + len) sin.din.size - offset.toNat)
      buf') :
    ReadExact s i sin buf offset len ↔ n ≤ sin.din.size := by
  have hdin := dinOf_of_node hn
  constructor
  · rintro ⟨b, a, r, t, sin', e', -, hn', hsize, -⟩
    rw [e, Except.ok.injEq, Prod.mk.injEq] at e'
    rw [← dinOf_of_node hn', ← e'.2, raiseSize_size hn, hdin] at hsize
    omega
  · intro hle
    rw [raiseSize_of_le (by rwa [hdin])] at e
    exact ⟨_, _, _, s, sin, e, fun _ _ => ⟨rfl, rfl, hfill⟩, hn, rfl, rfl, fun _ => rfl, rfl, rfl,
      rfl⟩

end Read

/-- **When reading is exact.** On a mounted file system, for a regular file that satisfies its
representation invariant, every offset and every length: reading is exact iff it is harmless.

**Proof sketch.** The checks leave three cases: the request is rejected, nothing is to be read, or
there is a transfer. The transfer returns the bytes of the file, and at its exit the size is raised
to the start of the tail plus the number of bytes read. -/
theorem read_exact_iff {s : SfsFs} {i : ℕ} {sin : SfsInode} (h : Mounted s)
    (hn : s.nodes i = some sin) (ht : sin.din.type = typeFile) (hf : FileInv s i) (buf : Bytes)
    (offset : ℤ) {len : ℕ} (hlen : len < 2 ^ 64) :
    ReadExact s i sin buf offset len ↔ ReadHarmless sin.din.size offset len := by
  have hdin := dinOf_of_node hn
  have hend := hf.ioEnd_read offset.toNat len
  rw [hdin] at hend
  have hio := sfsIoNolock_eq false hn (by rw [ht]; decide) buf offset hlen
  rw [hend] at hio
  by_cases h1 : offset < 0 ∨ (maxFileSize : ℤ) ≤ offset ∨ 2 ^ 63 ≤ offset + len
  · rw [if_pos h1] at hio
    by_cases h2 : offset < 0 ∨ (maxFileSize : ℤ) ≤ offset
    · exact iff_of_true (readExact_of_nothing hn hio (fun h3 h4 => by omega)) (.inl h2)
    · -- the end does not fit: the request is rejected although its offset is valid
      refine iff_of_false ?_ ?_
      · rintro ⟨b, a, r, t, sin', e, hret, -⟩
        rw [hio] at e
        cases e
        exact absurd (hret (by omega) (by omega)).1 (by simp)
      · rintro (h3 | ⟨h3, -⟩) <;> omega
  · rw [if_neg h1] at hio
    by_cases h2 : len = 0 ∨ (sin.din.size : ℤ) ≤ offset
    · rw [if_pos (h2.imp_right fun h3 => ⟨rfl, h3⟩)] at hio
      refine iff_of_true (readExact_of_nothing hn hio fun _ _ => ⟨rfl, by omega⟩) ?_
      exact .inr ⟨by omega, h2.imp_right .inl⟩
    · have hc : ¬(len = 0 ∨ false = false ∧ (sin.din.size : ℤ) ≤ offset) := by tauto
      rw [if_neg hc] at hio
      obtain ⟨buf', e, hfill⟩ := ioTransfer_read buf h hn hf
        (show offset.toNat < min (offset.toNat + len) sin.din.size by omega) (Nat.min_le_right _ _)
      rw [e] at hio
      rw [readExact_of_raise hn hio hfill]
      constructor
      · exact fun h3 => .inr ⟨by omega, .inr (.inr h3)⟩
      · rintro (h3 | ⟨-, h3 | h3 | h3⟩)
        · omega
        · omega
        · omega
        · exact h3

/-- Reading the first hundred bytes of a file of one block. -/
theorem read_exact_hundred :
    ReadHarmless 4096 0 100 ∧
    ReadExact (oneFile 0xFFFFFFF0#32 (directFile 1 4096)) 2 ⟨directFile 1 4096, false, 1, 1, 1⟩
      Bytes.zero 0 100 := by
  have hw : ∀ b < 3 + 1, (0xFFFFFFF0#32).getLsbD b = false := by decide
  have hc : ReadHarmless 4096 0 100 := by
    refine .inr ⟨by omega, .inr (.inr ?_)⟩
    decide
  exact ⟨hc, (read_exact_iff (directFile_sound (by decide) hw).toMounted oneFile_node rfl
    (directFile_fileInv (by decide) hw rfl) Bytes.zero 0 (by omega)).mpr hc⟩

/-- **Reading is not exact**: reading the whole of a file of one block returns its 4096 bytes and
raises its size to 8192. -/
theorem read_not_exact :
    let s := oneFile 0xFFFFFFF0#32 (directFile 1 4096)
    Mounted s ∧ FileInv s 2 ∧
    ¬ReadExact s 2 ⟨directFile 1 4096, false, 1, 1, 1⟩ Bytes.zero 0 4096 ∧
    ∃ buf, sfsIoNolock false 2 Bytes.zero 0 4096 s =
      .ok ((buf, 4096, .ok ()), s.modSin 2 (·.setSize 8192)) := by
  intro s
  have hw : ∀ b < 3 + 1, (0xFFFFFFF0#32).getLsbD b = false := by decide
  have hm : Mounted s := (directFile_sound (by decide) hw).toMounted
  have hf : FileInv s 2 := directFile_fileInv (by decide) hw rfl
  have hn : s.nodes 2 = some ⟨directFile 1 4096, false, 1, 1, 1⟩ := oneFile_node
  obtain ⟨buf', e, hfill⟩ := ioTransfer_read Bytes.zero hm hn hf (by decide : 0 < 4096) le_rfl
  have hlen : 4096 < 2 ^ 64 := by omega
  have hio := sfsIoNolock_eq false hn (by decide) Bytes.zero 0 hlen
  rw [if_neg (by decide), if_neg (by decide)] at hio
  have hio' := hio.trans e
  refine ⟨hm, hf, ?_, buf', hio'⟩
  rw [readExact_of_raise hn hio' hfill]
  decide

end Ucore

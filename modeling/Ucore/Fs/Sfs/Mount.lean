import Ucore.Fs.Sfs.Layout

set_option autoImplicit false

/-!
# Mounting SFS (`lab8/kern/fs/sfs/sfs_fs.c`)

`sfs_do_mount` reads the super block and the freemap from a device. There is memory for what it
allocates.

## Main definitions

* `SfsDevice` — a device; `sfsInitRead` — reading one of its blocks.
* `sfsInitFreemap`, `sfsDoMount`.
* `freemapBit` — the bit of a block in the freemap on a disk.
* `sfsLoadInode`, `SfsFs.loaded` — reading an inode from its block.

## Main results

* `sfsDoMount_apply` — a device with a right super block is mounted iff the number of bits that
  are set in the freemap is the one of the super block.
* `sfsLoadInode_apply` — an inode with links is loaded.
-/

namespace Ucore

open Function Comp Bytes

/-! ## The device -/

/-- `struct device`: the number of blocks and their size; the contents, and the answers to the next
transfers. -/
structure SfsDevice where
  dBlocks : ℕ
  dBlocksize : ℕ
  disk : ℕ → Bytes
  faults : List (Option Errno)

/-- Computations on a device. -/
abbrev Dev (α : Type) : Type := Comp SfsPanic SfsDevice α

/-- `sfs_init_read` to `blk_buffer + pos`. Blocks behind the end of the device are refused. -/
def sfsInitRead (buf : Bytes) (pos blkno : ℕ) : Dev (Except Errno Bytes) := do
  let dev ← Comp.read
  if dev.dBlocks < devBlock blkno + 1 then pure (.error .inval)
  else do
    Comp.modify fun dev => { dev with faults := dev.faults.tail }
    match dev.faults.head? with
    | some (some e) => pure (.error e)
    | _ => pure (.ok (buf.copy pos (dev.disk (devBlock blkno)) 0 blkSize))

/-! ## The freemap -/

/-- `sfs_freemap_bits` -/
def freemapBits (blocks : ℕ) : ℕ := (blocks + blkBits - 1) / blkBits * blkBits % 2 ^ 32

/-- What `bitmap_getdata` points to. -/
def Bitmap.data (b : Bitmap) : Bytes := Bytes.zero.putWords 0 b.nwords fun j => (b.map j).toNat

/-- The bitmap after the data has been overwritten. -/
def Bitmap.setData (b : Bitmap) (data : Bytes) : Bitmap :=
  { b with map := fun j => BitVec.ofNat 32 (data.get32 (4 * j)) }

/-- The loop of `sfs_init_freemap`. -/
def initFreemapLoop : ℕ → ℕ → Bytes → ℕ → Dev (Except Errno Bytes)
  | 0, _, data, _ => pure (.ok data)
  | nblks + 1, blkno, data, pos =>
    (sfsInitRead data pos blkno).andThen fun data =>
      initFreemapLoop nblks (blkno + 1) data (pos + blkSize)

/-- `sfs_init_freemap` -/
def sfsInitFreemap (freemap : Bitmap) (blkno nblks : ℕ) : Dev (Except Errno Bitmap) := do
  Comp.ensure (4 * freemap.nwords = nblks * blkSize) .freemapLen
  (initFreemapLoop nblks blkno freemap.data 0).andThen fun data => pure (.ok (freemap.setData data))

/-- The loop of `sfs_do_mount` that counts the free blocks. -/
def countUnused (freemap : Bitmap) : ℕ → Except BitmapPanic ℕ
  | 0 => .ok 0
  | i + 1 => do
    let n ← countUnused freemap i
    let free ← bitmapTest freemap i
    .ok (if free then n + 1 else n)

/-- Run a freemap function. -/
def liftBits {α : Type} : Except BitmapPanic α → Dev α
  | .ok a => pure a
  | .error p => Comp.halt (.bitmap p)

/-- The end of `sfs_do_mount`: the free blocks are counted, and the other fields are set. -/
def mountFreemap (super : SfsSuper) (freemap : Bitmap) : Dev (Except Errno SfsFs) := do
  let unused ← liftBits (countUnused freemap (freemapBits super.blocks))
  Comp.ensure (unused = super.unusedBlocks) .unusedCount
  let dev ← Comp.read
  pure (.ok { super := super, freemap := freemap, superDirty := false, nodes := fun _ => none,
              disk := dev.disk, faults := dev.faults })

/-- `sfs_do_mount` from the checks of the super block on. -/
def mountSuper (super : SfsSuper) : Dev (Except Errno SfsFs) := do
  let dev ← Comp.read
  if super.magic ≠ sfsMagic then pure (.error .inval)
  else if dev.dBlocks < super.blocks then pure (.error .inval)
  else do
    let freemap ← liftBits (bitmapCreate (freemapBits super.blocks))
    (sfsInitFreemap freemap blknFreemap (freemapBlocks super.blocks)).andThen (mountFreemap super)

/-- `sfs_do_mount` -/
def sfsDoMount : Dev (Except Errno SfsFs) := do
  let dev ← Comp.read
  if dev.dBlocksize ≠ blkSize then pure (.error .naDev)
  else (sfsInitRead Bytes.zero 0 blknSuper).andThen fun buf => mountSuper (decodeSuper buf)

/-! ## What is mounted -/

/-- The bit of block `i` in the freemap on a disk. -/
def freemapBit (disk : ℕ → Bytes) (i : ℕ) :
    Bool := (disk (blknFreemap + i / blkBits)).bit (i % blkBits)

section Mount

variable {dev : SfsDevice} {b : Bitmap} {n blkno pos : ℕ} {data : Bytes}

/-- Reading a block of a device that works. -/
lemma sfsInitRead_apply (hf : dev.faults = []) (hlt : blkno < dev.dBlocks) (hb : blkno < 2 ^ 20)
    (buf : Bytes) (pos : ℕ) :
    sfsInitRead buf pos blkno dev = .ok (.ok (buf.copy pos (dev.disk blkno) 0 blkSize), dev) := by
  have hdev := devBlock_of_lt hb
  have hfs : { dev with faults := [] } = dev := by rw [← hf]
  simp only [sfsInitRead, hdev, read_bind_apply, Comp.ite_apply, modify_bind_apply, hf,
    List.tail_nil, List.head?_nil, hfs]
  rw [if_neg (by omega)]
  rfl

/-- **The loop of `sfs_init_freemap`** reads consecutive blocks.

**Proof sketch.** Induction on the number of blocks. The first block is read to `pos`, where the
others do not reach; the byte `q` behind it is byte `q - blkSize` of what the others are read to. -/
lemma initFreemapLoop_apply (hf : dev.faults = []) (n : ℕ) :
    ∀ (blkno pos : ℕ) (data : Bytes), blkno + n ≤ dev.dBlocks → blkno + n ≤ 2 ^ 20 →
      ∃ data', initFreemapLoop n blkno data pos dev = .ok (.ok data', dev) ∧
        (∀ q < n * blkSize, data' (pos + q) = dev.disk (blkno + q / blkSize) (q % blkSize)) ∧
        ∀ q < pos, data' q = data q := by
  induction n with
  | zero =>
    intro blkno pos data _ _
    exact ⟨data, rfl, fun q hq => by omega, fun _ _ => rfl⟩
  | succ n ih =>
    intro blkno pos data h1 h2
    have e := sfsInitRead_apply hf (by omega : blkno < dev.dBlocks) (by omega) data pos
    obtain ⟨data', e', hq, hpos⟩ := ih (blkno + 1) (pos + blkSize)
      (data.copy pos (dev.disk blkno) 0 blkSize) (by omega) (by omega)
    refine ⟨data', ?_, fun q hlt => ?_, fun q hlt => ?_⟩
    · rw [initFreemapLoop, andThen_of_ok e, e']
    · rcases lt_or_ge q blkSize with hlt' | hge
      · rw [hpos _ (by omega), copy_of_mem _ _ (by omega) (by omega), Nat.div_eq_of_lt hlt',
          Nat.mod_eq_of_lt hlt']
        congr 1
        omega
      · obtain ⟨r, rfl⟩ := Nat.exists_eq_add_of_le hge
        have hr : r < n * blkSize := by
          rw [Nat.succ_mul] at hlt
          omega
        have := hq r hr
        rw [Nat.add_div_left _ (by decide), Nat.add_mod_left, ← Nat.add_assoc, this]
        congr 1
        omega
    · rw [hpos _ (by omega), copy_of_notMem _ _ (by omega)]

lemma setData_bit (i : ℕ) : (b.setData data).bit i = data.bit i := by
  unfold Bitmap.bit Bitmap.setData Bytes.bit wordBits
  rw [BitVec.getLsbD_ofNat, decide_eq_true (Nat.mod_lt _ (by decide)), Bool.true_and]

/-- The bits of a buffer that blocks have been read to. -/
lemma bit_of_blocks {disk : ℕ → Bytes} {n blkno i : ℕ}
    (h : ∀ q < n * blkSize, data q = disk (blkno + q / blkSize) (q % blkSize))
    (hi : i < n * blkBits) : data.bit i = (disk (blkno + i / blkBits)).bit (i % blkBits) := by
  unfold Bytes.bit
  have hmod : i % blkBits % 32 = i % 32 := Nat.mod_mod_of_dvd _ (by decide)
  rw [hmod]
  congr 1
  refine get32_congr fun k hk => ?_
  have hdiv : (4 * (i / 32) + k) / blkSize = i / blkBits := by
    unfold blkSize blkBits blkSize
    omega
  have hmod' : (4 * (i / 32) + k) % blkSize = 4 * (i % blkBits / 32) + k := by
    unfold blkSize blkBits blkSize
    omega
  rw [h _ ?_, hdiv, hmod']
  unfold blkBits at hi
  unfold blkSize at *
  omega

/-- **Counting the free blocks.** -/
lemma countUnused_apply (hn : n ≤ b.nbits) :
    countUnused b n = .ok ((Finset.range n).filter (b.bit ·)).card := by
  induction n with
  | zero => rfl
  | succ n ih =>
    rw [countUnused, ih (by omega), bitmapTest_apply (by omega)]
    change Except.ok (if b.bit n = true then _ else _) = _
    rw [Finset.range_add_one, Finset.filter_insert]
    split_ifs with hb
    · rw [Finset.card_insert_of_notMem (by simp)]
    · rfl

/-- `bitmap_create` for whole blocks of bits. -/
lemma bitmapCreate_blocks (hn : 0 < n) :
    ∃ map, bitmapCreate (n * blkBits) = .ok ⟨n * blkBits, n * blkNentry, map⟩ := by
  have hw : (n * blkBits + wordBits - 1) / wordBits = n * blkNentry := by
    unfold blkBits blkSize wordBits blkNentry
    omega
  obtain ⟨b, e, hb, hn, -⟩ := bitmapCreate_apply (Nat.mul_pos hn (by decide : 0 < blkBits))
  exact ⟨b.map, by rw [e, ← hb, ← hw, ← hn]⟩

lemma freemapBits_eq {blocks : ℕ} (h : blocks ≤ 2 ^ 20) :
    freemapBits blocks = freemapBlocks blocks * blkBits := by
  unfold freemapBits freemapBlocks blkBits blkSize
  omega

/-- **Mounting.** A device that works, with a super block that fits the device, is mounted iff its
freemap has as many bits set as the super block says. -/
lemma sfsDoMount_apply (hs : dev.dBlocksize = blkSize) (hf : dev.faults = []) {super : SfsSuper}
    (hd : decodeSuper (dev.disk blknSuper) = super) (hm : super.magic = sfsMagic)
    (hle : super.blocks ≤ dev.dBlocks) (hmax : super.blocks ≤ 2 ^ 20)
    (hblk : blknFreemap + freemapBlocks super.blocks ≤ super.blocks) :
    ∃ freemap : Bitmap, freemap.nbits = freemapBlocks super.blocks * blkBits ∧
      freemap.nwords = freemapBlocks super.blocks * blkNentry ∧
      (∀ i < freemapBlocks super.blocks * blkBits, freemap.bit i = freemapBit dev.disk i) ∧
      sfsDoMount dev = if freemap.free.card = super.unusedBlocks then
        .ok (.ok ⟨super, freemap, false, fun _ => none, dev.disk, []⟩, dev)
        else .error .unusedCount := by
  have hpos : 0 < freemapBlocks super.blocks := by
    unfold freemapBlocks blkBits blkSize blknFreemap at *
    omega
  have h0 : blknSuper < dev.dBlocks := by
    unfold blknFreemap blknSuper at *
    omega
  have e0 := sfsInitRead_apply hf h0 (by decide) Bytes.zero 0
  have hsup : decodeSuper (Bytes.zero.copy 0 (dev.disk blknSuper) 0 blkSize) = super := by
    rw [← hd]
    refine decodeSuper_congr fun i hi => ?_
    unfold superSize at hi
    rw [copy_of_mem _ _ (Nat.zero_le i) (by unfold blkSize; omega)]
    congr 1
    omega
  obtain ⟨map, ec⟩ := bitmapCreate_blocks hpos
  set n := freemapBlocks super.blocks with hn
  obtain ⟨data, el, hdata, -⟩ := initFreemapLoop_apply hf n blknFreemap 0
    (Bitmap.data ⟨n * blkBits, n * blkNentry, map⟩) (by omega) (by omega)
  have hlen : 4 * (n * blkNentry) = n * blkSize := by
    unfold blkNentry blkSize
    omega
  refine ⟨Bitmap.setData ⟨n * blkBits, n * blkNentry, map⟩ data, rfl, rfl, fun i hi => ?_, ?_⟩
  · rw [setData_bit, freemapBit]
    refine bit_of_blocks (n := n) (fun q hq => ?_) hi
    have := hdata q hq
    rwa [Nat.zero_add] at this
  · set fm := Bitmap.setData ⟨n * blkBits, n * blkNentry, map⟩ data with hfm
    have hinit : sfsInitFreemap ⟨n * blkBits, n * blkNentry, map⟩ blknFreemap n dev =
        .ok (.ok fm, dev) := by
      rw [sfsInitFreemap, ensure_bind_apply, if_pos hlen, andThen_of_ok el]
      rfl
    have hcount : countUnused fm (n * blkBits) = .ok fm.free.card := by
      have hbits : fm.nbits = fm.nwords * wordBits := by
        change n * blkBits = n * blkNentry * wordBits
        unfold blkBits blkSize wordBits blkNentry
        omega
      rw [Bitmap.free, ← hbits]
      exact countUnused_apply le_rfl
    have hcreate : liftBits (bitmapCreate (freemapBits super.blocks)) dev =
        .ok (⟨n * blkBits, n * blkNentry, map⟩, dev) := by
      rw [freemapBits_eq hmax, ← hn, ec]
      rfl
    have hunused : liftBits (countUnused fm (freemapBits super.blocks)) dev =
        .ok (fm.free.card, dev) := by
      rw [freemapBits_eq hmax, ← hn, hcount]
      rfl
    rw [sfsDoMount, read_bind_apply, if_neg (by simpa using hs), andThen_of_ok e0, hsup,
      mountSuper, read_bind_apply, if_neg (by simpa using hm), if_neg (by omega),
      bind_of_ok hcreate, ← hn, andThen_of_ok hinit, mountFreemap, bind_of_ok hunused,
      ensure_bind_apply]
    by_cases hc : fm.free.card = super.unusedBlocks
    · rw [if_pos hc, if_pos hc, ← hf]
      rfl
    · rw [if_neg hc, if_neg hc]

end Mount

/-! ## Loading an inode -/

/-- `lookup_sfs_nolock` on a cached inode: a reference more. -/
def SfsInode.refInc (sin : SfsInode) : SfsInode :=
  { sin with refCount := sin.refCount + 1,
             reclaimCount := if sin.refCount + 1 = 1 then sin.reclaimCount + 1
             else sin.reclaimCount }

/-- The volume after the inode `i` has been read from its block. -/
def SfsFs.loaded (s : SfsFs) (i : ℕ) : SfsFs :=
  { s with nodes := update s.nodes i (some ⟨decodeInode (s.disk i), false, 1, 1, 0⟩) }

/-- `sfs_load_inode` -/
def sfsLoadInode (i : ℕ) : Sfs (Except Errno Unit) := do
  let s ← Comp.read
  match s.nodes i with
  | some _ => do
    Comp.modify (·.modSin i SfsInode.refInc)
    pure (.ok ())
  | none => do
    assertInuse i
    (sfsRbuf Bytes.zero 0 diskInodeSize i 0).andThen fun buf => do
      let din := decodeInode buf
      Comp.ensure (din.nlinks ≠ 0) .noLinks
      Comp.ensure (din.type = typeDir ∨ din.type = typeFile) .badType
      Comp.modify fun s => { s with nodes := update s.nodes i (some ⟨din, false, 1, 1, 0⟩) }
      pure (.ok ())

section Load

variable {s : SfsFs} {i : ℕ}

lemma loaded_node (s : SfsFs) (i : ℕ) :
    (s.loaded i).nodes i = some ⟨decodeInode (s.disk i), false, 1, 1, 0⟩ := update_self ..

lemma Mounted.loaded (h : Mounted s) : Mounted (s.loaded i) := { h with }

/-- **Loading an inode** from its block. -/
lemma sfsLoadInode_eq (h : Mounted s) (hn : s.nodes i = none) (hu : InUse s i) :
    sfsLoadInode i s =
      if (decodeInode (s.disk i)).nlinks ≠ 0 then
        if (decodeInode (s.disk i)).type = typeDir ∨ (decodeInode (s.disk i)).type = typeFile then
          .ok (.ok (), s.loaded i)
        else .error .badType
      else .error .noLinks := by
  have hr : sfsRbuf Bytes.zero 0 diskInodeSize i 0 s =
      .ok (.ok (Bytes.zero.copy 0 (s.disk i) 0 diskInodeSize), s) :=
    sfsRbuf_apply h hu.ne_zero hu.lt (by decide) (by decide)
  have hdec : decodeInode (Bytes.zero.copy 0 (s.disk i) 0 diskInodeSize) =
      decodeInode (s.disk i) := by
    refine decodeInode_congr fun k hk => ?_
    rw [copy_of_mem _ _ (Nat.zero_le k) (by omega)]
    congr 1
    omega
  rw [sfsLoadInode, read_bind_apply, hn]
  simp only
  rw [bind_of_ok (assertInuse_apply h hu), andThen_of_ok hr, hdec, ensure_bind_apply]
  congr 1
  rw [ensure_bind_apply]
  rfl

lemma sfsLoadInode_apply (h : Mounted s) (hn : s.nodes i = none) (hu : InUse s i)
    (hl : (decodeInode (s.disk i)).nlinks ≠ 0)
    (ht : (decodeInode (s.disk i)).type = typeDir ∨ (decodeInode (s.disk i)).type = typeFile) :
    sfsLoadInode i s = .ok (.ok (), s.loaded i) := by
  rw [sfsLoadInode_eq h hn hu, if_pos hl, if_pos ht]

end Load

end Ucore

import Ucore.Fs.Sfs.Dirty
import Ucore.Fs.Sfs.Mount

set_option autoImplicit false

/-!
# Writing a volume back (`lab8/kern/fs/sfs/sfs_fs.c`, `sfs_io.c`)

`sfs_sync` writes the dirty inodes, and the super block and the freemap if these are dirty. Here the
device may refuse transfers: its answers are `SfsFs.faults`. The information text of the super block
is left out.

## Main definitions

* `sfsSyncSuper`, `sfsSyncFreemap`, `sfsSync`.
* `SfsFs.withAnswers` — a volume whose device gives certain answers.
* `SfsFs.tryFlush` — the volume after `sfs_fsync` of an inode.
* `Saved` — super block and freemap are on the disk.

## Main results

* `sfsFsync_answers` — `sfs_fsync` on a device that may refuse transfers.
* `syncVolume_post` — the super block and the freemap after `sfs_sync`.
-/

namespace Ucore

open Function Comp

/-! ## The functions -/

/-- `sfs_sync_super` -/
def sfsSyncSuper : Sfs (Except Errno Unit) := do
  let s ← Comp.read
  (sfsRwblockNolock (Bytes.zero.copy 0 (encodeSuper s.super) 0 superSize) 0 blknSuper true
    false).andThen fun _ => pure (.ok ())

/-- `sfs_sync_freemap` -/
def sfsSyncFreemap : Sfs (Except Errno Unit) := do
  let s ← Comp.read
  (sfsWblock s.freemap.data 0 blknFreemap (freemapBlocks s.super.blocks)).andThen fun _ =>
    pure (.ok ())

/-- The loop of `sfs_sync` over `inode_list`. What `vop_fsync` returns is not looked at. -/
def syncInodes (order : List ℕ) : Sfs Unit :=
  Comp.forEach order fun i => sfsFsync i >>= fun _ => pure ()

/-- `sfs_sync` after the loop: each of the two writes sets the flag again if it fails. -/
def syncVolume : Sfs (Except Errno Unit) := do
  let s ← Comp.read
  if s.superDirty then do
    Comp.modify fun s => { s with superDirty := false }
    let ret ← sfsSyncSuper.andThen fun _ => sfsSyncFreemap
    match ret with
    | .ok _ => pure (.ok ())
    | .error e => do
      Comp.modify fun s => { s with superDirty := true }
      pure (.error e)
  else pure (.ok ())

/-- `sfs_sync`, with the inodes in the order of `inode_list`. -/
def sfsSync (order : List ℕ) : Sfs (Except Errno Unit) := do
  syncInodes order
  syncVolume

/-! ## The answers of the device -/

/-- The volume with another list of answers. -/
def SfsFs.withAnswers (s : SfsFs) (answers : List (Option Errno)) :
    SfsFs := { s with faults := answers }

/-- The two transfers of `sfs_wbuf` succeed. -/
def Accepted (answers : List (Option Errno)) : Prop :=
  answers.head?.join = none ∧ answers.tail.head?.join = none

instance (answers : List (Option Errno)) :
    Decidable (Accepted answers) := inferInstanceAs (Decidable (_ ∧ _))

/-- The answers that `sfs_wbuf` leaves: if the block cannot be read, it is not written. -/
def afterWbuf (answers : List (Option Errno)) : List (Option Errno) :=
  if answers.head?.join = none then answers.tail.tail else answers.tail

/-- The volume after `sfs_fsync` of the inode `i`. -/
def SfsFs.tryFlush (s : SfsFs) (i : ℕ) (sin : SfsInode) : SfsFs :=
  if sin.dirty then
    (if Accepted s.faults then s.flushed i sin else s).withAnswers (afterWbuf s.faults)
  else s

section Answers

variable {s t : SfsFs} {i b pos off len : ℕ} {sin : SfsInode} {buf : Bytes}

@[simp] lemma withAnswers_withAnswers (f g : List (Option Errno)) :
    (s.withAnswers f).withAnswers g = s.withAnswers g := rfl

lemma withAnswers_flushed (f : List (Option Errno)) :
    (s.flushed i sin).withAnswers f = (s.withAnswers f).flushed i sin := by
  unfold SfsFs.flushed
  split_ifs <;> rfl

/-- **`sfs_wbuf`** reads a block and writes it, or the device refuses one of the two. -/
lemma sfsWbuf_answers (buf : Bytes) (pos len : ℕ) (hb : b ≠ 0) (hlt : b < s.super.blocks)
    (hmax : s.super.blocks ≤ 2 ^ 20) (hoff : off < blkSize) (hlen : off + len ≤ blkSize) :
    ∃ ret, sfsWbuf buf pos len b off s =
      .ok (ret, (if Accepted s.faults then s.writeDisk b off buf pos len else s).withAnswers
        (afterWbuf s.faults)) ∧ (Accepted s.faults ↔ ∃ x, ret = .ok x) := by
  have e1 := sfsRwblockNolock_answer true (.inl hb) hlt hmax Bytes.zero 0 false
  rw [sfsWbuf, ensure_bind_apply, if_pos ⟨hoff, hlen⟩]
  cases ha : s.answer with
  | some e =>
    have hno : s.faults.head?.join ≠ none := by
      change s.answer ≠ none
      rw [ha]
      simp
    rw [ha] at e1
    refine ⟨.error e, ?_, iff_of_false (fun h => hno h.1) (by simp)⟩
    rw [andThen_of_fail e1, if_neg (fun h => hno h.1), afterWbuf, if_neg hno]
    rfl
  | none =>
    rw [ha] at e1
    have hyes : s.faults.head?.join = none := ha
    have e2 := sfsRwblockNolock_answer (s := s.answered) true (.inl hb) hlt hmax
      ((Bytes.zero.copy 0 (s.disk b) 0 blkSize).copy off buf pos len) 0 true
    rw [andThen_of_ok e1, afterWbuf, if_pos hyes]
    cases ha' : s.answered.answer with
    | some e =>
      have hno : s.faults.tail.head?.join ≠ none := by
        change s.answered.answer ≠ none
        rw [ha']
        simp
      rw [ha'] at e2
      refine ⟨.error e, ?_, iff_of_false (fun h => hno h.2) (by simp)⟩
      rw [andThen_of_fail e2, if_neg (fun h => hno h.2)]
      rfl
    | none =>
      have hacc : Accepted s.faults := ⟨hyes, ha'⟩
      rw [ha'] at e2
      refine ⟨.ok buf, ?_, iff_of_true hacc ⟨buf, rfl⟩⟩
      rw [andThen_of_ok e2, if_pos hacc]
      simp only [pure_apply, SfsFs.writeDisk, SfsFs.answered, SfsFs.withAnswers,
        copy_copy_write _ hlen]

/-- **`sfs_fsync`** on a device that may refuse transfers. -/
lemma sfsFsync_answers (hn : s.nodes i = some sin) (h0 : i ≠ 0) (hlt : i < s.super.blocks)
    (hmax : s.super.blocks ≤ 2 ^ 20) : ∃ ret, sfsFsync i s = .ok (ret, s.tryFlush i sin) := by
  rw [sfsFsync, bind_of_ok (getSin_apply hn), SfsFs.tryFlush]
  cases hd : sin.dirty with
  | false => exact ⟨.ok (), rfl⟩
  | true =>
    have hlt' : i < (s.modSin i (·.clearDirty)).super.blocks := hlt
    obtain ⟨ret, e, hacc⟩ := sfsWbuf_answers (encodeInode sin.din) 0 diskInodeSize h0 hlt' hmax
      (show 0 < blkSize by decide) (by decide)
    rw [if_pos rfl, if_pos rfl, modify_bind_apply, bind_of_ok e]
    by_cases ha : Accepted s.faults
    · obtain ⟨x, rfl⟩ := hacc.mp ha
      refine ⟨.ok (), ?_⟩
      rw [if_pos ha, SfsFs.flushed, hd, if_pos rfl]
      simp only [pure_apply, if_pos (show Accepted (s.modSin i (·.clearDirty)).faults from ha)]
      rfl
    · cases ret with
      | ok x => exact absurd (hacc.mpr ⟨x, rfl⟩) ha
      | error err =>
        -- the flag is set again: the inode is as before
        have hsame : ((s.modSin i (·.clearDirty)).modSin i (·.setDirty)) = s := by
          rw [modSin_modSin, SfsFs.modSin, hn, Option.map_some]
          have : ((·.setDirty) ∘ (·.clearDirty) : SfsInode → SfsInode) sin = sin := by
            change { sin with dirty := true } = sin
            rw [← hd]
          rw [this, ← hn, update_eq_self]
        refine ⟨.error err, ?_⟩
        rw [if_neg ha]
        simp only [modify_bind_apply, pure_apply,
          if_neg (show ¬Accepted (s.modSin i (·.clearDirty)).faults from ha)]
        exact congrArg
          (fun u : SfsFs => Except.ok (Except.error err, u.withAnswers (afterWbuf s.faults))) hsame

end Answers

/-! ## Super block and freemap -/

/-- **Super block and freemap are on the disk.** -/
structure Saved (s : SfsFs) : Prop where
  super : decodeSuper (s.disk blknSuper) = s.super
  freemap : ∀ i < s.freemap.nbits, freemapBit s.disk i = s.freemap.bit i

/-- What is in memory, the flag of the super block apart, is the same. -/
structure SameMemory (s t : SfsFs) : Prop where
  super : t.super = s.super
  freemap : t.freemap = s.freemap
  nodes : t.nodes = s.nodes

section Volume

variable {s t : SfsFs} {buf : Bytes}

/-- The bits of the data of a bitmap. -/
lemma data_bit (b : Bitmap) {i : ℕ} (hi : i < b.nwords * wordBits) : b.data.bit i = b.bit i := by
  have hw : i / 32 < b.nwords := by
    unfold wordBits at hi
    omega
  have hget : b.data.get32 (4 * (i / 32)) = (b.map (i / 32)).toNat := by
    have := Bytes.get32_putWords Bytes.zero 0 b.nwords (fun j => (b.map j).toNat) hw
      (b.map (i / 32)).isLt
    rwa [Nat.zero_add] at this
  unfold Bytes.bit Bitmap.bit
  rw [hget]
  rfl

/-- **Writing consecutive blocks**: nothing else changes; if it succeeds they hold the buffer.

**Proof sketch.** Induction on the number of blocks. The first block is not touched by the writes of
the others. -/
lemma sfsRwblock_write_post (n : ℕ) : ∀ (pos blkno : ℕ) (s : SfsFs), blkno ≠ 0 →
    blkno + n ≤ s.super.blocks → s.super.blocks ≤ 2 ^ 20 →
    Post (sfsRwblock true buf pos blkno n) s fun ret t => SameMemory s t ∧
      t.superDirty = s.superDirty ∧ (∀ b, b < blkno ∨ blkno + n ≤ b → t.disk b = s.disk b) ∧
      ((∃ x, ret = .ok x) → ∀ j < n,
        ∀ q < blkSize, t.disk (blkno + j) q = buf (pos + j * blkSize + q)) := by
  induction n with
  | zero =>
    intro pos blkno s _ _ _ ret t e
    cases e
    exact ⟨⟨rfl, rfl, rfl⟩, rfl, fun _ _ => rfl, fun _ j hj => absurd hj (Nat.not_lt_zero j)⟩
  | succ n ih =>
    intro pos blkno s h0 hle hmax ret t e
    have e1 := sfsRwblockNolock_answer (s := s) true (.inl h0) (by omega) hmax buf pos true
    cases ha : s.answer with
    | some err =>
      rw [ha] at e1
      rw [sfsRwblock, andThen_of_fail e1] at e
      cases e
      exact ⟨⟨rfl, rfl, rfl⟩, rfl, fun _ _ => rfl, by simp⟩
    | none =>
      rw [ha] at e1
      rw [sfsRwblock, andThen_of_ok e1] at e
      obtain ⟨h1, h2, h3, h4⟩ := ih (pos + blkSize) (blkno + 1)
        (s.answered.writeDisk blkno 0 buf pos blkSize) (by omega)
        (show blkno + 1 + n ≤ s.super.blocks by omega) hmax ret t e
      refine ⟨⟨h1.super, h1.freemap, h1.nodes⟩, h2, fun b hb => ?_, fun hr j hj q hq => ?_⟩
      · rw [h3 b (by omega)]
        exact writeDisk_disk_of_ne (by omega)
      · cases j with
        | zero =>
          rw [h3 _ (Or.inl (by omega)), Nat.add_zero, writeDisk_disk_self,
            Bytes.copy_of_mem _ _ (Nat.zero_le q) (by omega), Nat.zero_mul, Nat.add_zero,
            Nat.sub_zero]
        | succ j =>
          have := h4 hr j (by omega) q hq
          rw [show blkno + (j + 1) = blkno + 1 + j by omega, this]
          congr 1
          rw [Nat.succ_mul]
          omega

/-- **`sfs_sync_super`.** -/
lemma sfsSyncSuper_post (hpos : 0 < s.super.blocks) (hmax : s.super.blocks ≤ 2 ^ 20)
    (hm : s.super.magic < 2 ^ 32) (hu : s.super.unusedBlocks < 2 ^ 32) :
    Post sfsSyncSuper s fun ret t => SameMemory s t ∧ t.superDirty = s.superDirty ∧
      (∀ b ≠ blknSuper, t.disk b = s.disk b) ∧
      (ret = .ok () → decodeSuper (t.disk blknSuper) = s.super) := by
  intro ret t e
  rw [sfsSyncSuper, read_bind_apply] at e
  have e1 := sfsRwblockNolock_answer (s := s) (b := blknSuper) false (.inr rfl) hpos hmax
    (Bytes.zero.copy 0 (encodeSuper s.super) 0 superSize) 0 true
  cases ha : s.answer with
  | some err =>
    rw [ha] at e1
    rw [andThen_of_fail e1] at e
    cases e
    exact ⟨⟨rfl, rfl, rfl⟩, rfl, fun _ _ => rfl, fun h => nomatch h⟩
  | none =>
    rw [ha] at e1
    rw [andThen_of_ok e1] at e
    cases e
    refine ⟨⟨rfl, rfl, rfl⟩, rfl, fun b hb => writeDisk_disk_of_ne hb, fun _ => ?_⟩
    rw [writeDisk_disk_self, ← decodeSuper_encodeSuper hm (by omega) hu]
    refine decodeSuper_congr fun k hk => ?_
    rw [decodeSuper_encodeSuper hm (by omega) hu, Bytes.copy_of_mem _ _ (Nat.zero_le k),
      Bytes.copy_of_mem _ _ (by omega)]
    · congr 1
      omega
    · omega
    · unfold superSize at hk
      unfold blkSize
      omega

section

variable (hle : blknFreemap + freemapBlocks s.super.blocks ≤ s.super.blocks)
  (hmax : s.super.blocks ≤ 2 ^ 20)
  (hbits : s.freemap.nbits = freemapBlocks s.super.blocks * blkBits)
  (hwords : s.freemap.nbits = s.freemap.nwords * wordBits)
include hle hmax hbits hwords

/-- **`sfs_sync_freemap`.** -/
lemma sfsSyncFreemap_post :
    Post sfsSyncFreemap s fun ret t => SameMemory s t ∧ t.superDirty = s.superDirty ∧
      (∀ b, b < blknFreemap ∨ blknFreemap + freemapBlocks s.super.blocks ≤ b → t.disk b =
        s.disk b) ∧
      (ret = .ok () → ∀ i < s.freemap.nbits, freemapBit t.disk i = s.freemap.bit i) := by
  intro ret t e
  rw [sfsSyncFreemap, read_bind_apply] at e
  obtain ⟨r, u, e1, e2⟩ := bind_eq_ok.mp e
  obtain ⟨h1, h2, h3, h4⟩ := sfsRwblock_write_post _ 0 blknFreemap s (by decide) hle hmax r u e1
  cases r with
  | error err =>
    cases e2
    exact ⟨h1, h2, h3, fun h => nomatch h⟩
  | ok x =>
    cases e2
    refine ⟨h1, h2, h3, fun _ i hi => ?_⟩
    have hblocks : ∀ q < freemapBlocks s.super.blocks * blkSize,
        s.freemap.data q = t.disk (blknFreemap + q / blkSize) (q % blkSize) := by
      intro q hq
      have hj : q / blkSize < freemapBlocks s.super.blocks := Nat.div_lt_of_lt_mul
        (by rwa [Nat.mul_comm])
      rw [h4 ⟨x, rfl⟩ _ hj _ (Nat.mod_lt _ (by decide)), Nat.zero_add, Nat.div_add_mod']
    rw [freemapBit, ← bit_of_blocks hblocks (by rwa [← hbits]), data_bit _ (by rwa [← hwords])]

/-- **Super block and freemap after `sfs_sync`.** -/
lemma syncVolume_post (hm : s.super.magic < 2 ^ 32) (hu : s.super.unusedBlocks < 2 ^ 32)
    (hsaved : s.superDirty = false → Saved s) : Post syncVolume s fun ret t => SameMemory s t ∧
      (∀ b ≠ blknSuper, b < blknFreemap ∨ blknFreemap + freemapBlocks s.super.blocks ≤ b →
        t.disk b = s.disk b) ∧
      (ret = .ok () → Saved t) ∧ (t.superDirty = false → Saved t) := by
  intro ret t e
  rw [syncVolume, read_bind_apply] at e
  cases hd : s.superDirty with
  | false =>
    rw [hd] at e
    cases e
    exact ⟨⟨rfl, rfl, rfl⟩, fun _ _ _ => rfl, fun _ => hsaved hd, hsaved⟩
  | true =>
    rw [hd, if_pos rfl, modify_bind_apply] at e
    obtain ⟨r, u, e1, e2⟩ := bind_eq_ok.mp e
    -- what the two writes do
    have hpost : SameMemory s u ∧ (∀ b ≠ blknSuper,
        b < blknFreemap ∨ blknFreemap + freemapBlocks s.super.blocks ≤ b → u.disk b = s.disk b) ∧
        (r = .ok () → Saved u) := by
      obtain ⟨r1, v, e3, e4⟩ := bind_eq_ok.mp e1
      obtain ⟨a1, -, a3, a4⟩ := sfsSyncSuper_post (s := { s with superDirty := false })
        (show 0 < s.super.blocks by unfold blknFreemap at hle; omega) hmax hm hu r1 v e3
      have hv : v.super = s.super := a1.super
      cases r1 with
      | error err =>
        cases e4
        exact ⟨⟨a1.super, a1.freemap, a1.nodes⟩, fun b hb _ => a3 b hb, fun h => nomatch h⟩
      | ok x =>
        have hfm : v.freemap = s.freemap := a1.freemap
        obtain ⟨b1, -, b3, b4⟩ := sfsSyncFreemap_post (s := v) (by rwa [hv]) (by rwa [hv])
          (by rw [hv, hfm]; exact hbits) (by rw [hfm]; exact hwords) r u e4
        refine ⟨⟨b1.super.trans hv, b1.freemap.trans hfm, b1.nodes.trans a1.nodes⟩,
          fun b hb hout => ?_, fun hr => ⟨?_, ?_⟩⟩
        · rw [b3 b (by rwa [hv]), a3 b hb]
        · rw [b3 _ (Or.inl (by decide)), b1.super, a4 rfl, hv]
        · intro i hi
          rw [b1.freemap] at hi ⊢
          exact b4 hr i hi
    obtain ⟨c1, c2, c3⟩ := hpost
    cases r with
    | ok x =>
      cases e2
      exact ⟨c1, c2, fun _ => c3 rfl, fun _ => c3 rfl⟩
    | error err =>
      cases e2
      refine ⟨⟨c1.super, c1.freemap, c1.nodes⟩, c2, fun h => ?_, fun h => ?_⟩
      · cases h
      · cases h

end

end Volume

end Ucore

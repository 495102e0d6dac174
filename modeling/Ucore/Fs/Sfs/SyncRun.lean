import Ucore.Fs.Sfs.Sync

set_option autoImplicit false

/-!
# Durability of `sfs_sync`

In every run of calls on a mounted volume, a super block or freemap that is not marked as dirty is
on the disk. So a call of `sfs_sync` that returns `0` leaves a disk that can be mounted, with the
same super block and freemap. For the inodes this is not so: the loop over `inode_list` does not
look at what `vop_fsync` returns.

## Main definitions

* `SyncVolume` — the invariant.
* `VolumeStep` — calls on the volume: reads, writes, truncations, seeks, `sfs_fsync`, loading and
  reclaiming of inodes, and `sfs_sync` on a device that may refuse transfers.
* `Durable` — mounting the disk gives what was in memory.
* `Written` — the inodes reach the disk.

## Main results

* `VolumeStep.volume` — the invariant is kept.
* `sync_durable_iff` — durability in all reachable states.
* `files_survive_remount` — the files after a reboot.
-/

namespace Ucore

open Function Comp Finset Relation

/-! ## The invariant -/

/-- **The volume in a run**: it is sound, the block maps are in order, the cached inodes have links,
and super block and freemap are on the disk unless they are marked. The blocks of the freemap are in
use, and nothing refers to them. -/
structure SyncVolume (I : Finset ℕ) (s : SfsFs) : Prop where
  sound : Sound I s
  mapped : FilesMapped I s
  fits : NodesFit s
  linked : ∀ i sin, s.nodes i = some sin → sin.din.nlinks ≠ 0
  zero : 0 ∉ I
  magic : s.super.magic = sfsMagic
  nbits : s.freemap.nbits = freemapBlocks s.super.blocks * blkBits
  room : blknFreemap + freemapBlocks s.super.blocks ≤ s.super.blocks
  area : ∀ j < freemapBlocks s.super.blocks, blknFreemap + j ∈ s.lost I
  recorded : s.superDirty = false → Saved s

/-- The list has each cached inode once. -/
structure Enumerates (order : List ℕ) (s : SfsFs) : Prop where
  nodup : order.Nodup
  mem : ∀ i, i ∈ order ↔ s.nodes i ≠ none

/-- **Calls on a volume.** An inode that is dropped from memory is as on the disk, unless it is
marked as dirty. The device may refuse transfers of `sfs_sync`. -/
inductive VolumeStep (I : Finset ℕ) (s : SfsFs) : SfsFs → Prop
  | call (op : InodeOp) {ret : Except Errno Unit} {t : SfsFs} (hl : op.Legit s)
      (e : op.run s = .ok (ret, t)) : VolumeStep I s t
  | load {i : ℕ} {ret : Except Errno Unit} {t : SfsFs} (hi : i ∈ I)
      (e : sfsLoadInode i s = .ok (ret, t)) : VolumeStep I s t
  | reclaim {i : ℕ} {sin : SfsInode} {ret : Except Errno Unit} {t : SfsFs}
      (hn : s.nodes i = some sin) (hb : sin.dirty = false → decodeInode (s.disk i) = sin.din)
      (e : sfsReclaim i s = .ok (ret, t)) : VolumeStep I s t
  | sync {order : List ℕ} {ret : Except Errno Unit} {t : SfsFs} (ho : Enumerates order s)
      (answers : List (Option Errno)) (e : sfsSync order (s.withAnswers answers) = .ok (ret, t)) :
      VolumeStep I s (t.withAnswers [])

variable {I : Finset ℕ} {i : ℕ} {s t : SfsFs} {sin : SfsInode}

namespace SyncVolume

section

variable (v : SyncVolume I s)
include v

lemma inode_ne (hi : i ∈ I) :
    i ≠ 0 ∧ i < s.super.blocks ∧ ∀ j < freemapBlocks s.super.blocks, i ≠ blknFreemap + j := by
  refine ⟨fun h => v.zero (h ▸ hi), v.sound.inode_lt hi, fun j hj h => ?_⟩
  have := (v.area j hj).2.2 (.inode i)
  rw [ref_inode hi] at this
  exact this h

lemma answers (answers : List (Option Errno)) :
    SyncVolume I ((s.withAnswers answers).withAnswers []) := by
  rw [withAnswers_withAnswers, SfsFs.withAnswers, faults_nil v.sound.device]
  exact v

lemma blocks_le : s.super.blocks ≤ 2 ^ 20 := v.sound.blocks_le

lemma unused_lt : s.super.unusedBlocks < 2 ^ 32 := by
  have hsub : s.freemap.free ⊆ Finset.range s.super.blocks := fun b hb =>
    mem_range.mpr (v.sound.free b hb).2
  have hcard := card_le_card hsub
  have := v.blocks_le
  rw [card_range] at hcard
  rw [v.sound.unused]
  omega

/-- What is saved depends on the disk outside the files only. -/
lemma saved_congr (h : Saved s) (hs : t.super = s.super) (hf : t.freemap = s.freemap)
    (hd : ∀ b, b = 0 ∨ b ∈ s.lost I → t.disk b = s.disk b) : Saved t := by
  refine ⟨?_, fun k hk => ?_⟩
  · rw [hs, ← h.super]
    exact congrArg decodeSuper (hd 0 (.inl rfl))
  · rw [hf] at hk ⊢
    have hj : k / blkBits < freemapBlocks s.super.blocks := by
      rw [v.nbits, Nat.mul_comm] at hk
      exact Nat.div_lt_of_lt_mul hk
    rw [← h.freemap k hk, freemapBit, freemapBit, hd _ (Or.inr (v.area _ hj))]

/-- **A change that leaves the files as they are.** -/
lemma of_same (hs : t.super = s.super) (hf : t.freemap = s.freemap) (hfa : t.faults = [])
    (hdin : ∀ j ∈ I, t.dinOf j = s.dinOf j)
    (hind : ∀ j ∈ I, (s.dinOf j).indirect ≠ 0 →
      t.disk (s.dinOf j).indirect = s.disk (s.dinOf j).indirect)
    (hn : ∀ j sin, t.nodes j = some sin → j ∈ I ∧ sin.din.Fits ∧ sin.din.nlinks ≠ 0)
    (hrec : t.superDirty = false → Saved t) : SyncVolume I t := by
  have href : t.ref I = s.ref I := ref_congr hdin hind
  have hm : Mounted t := by
    have h := v.sound.toMounted
    exact ⟨hs ▸ h.blocks_le, hs ▸ hf ▸ h.nbits, hf ▸ h.nwords, hs ▸ hf ▸ h.free, hfa⟩
  obtain ⟨hsound, hlost⟩ := v.sound.of_ref_eq hm (by rw [hf]) href hs
    fun j sin hj => (hn j sin hj).1
  refine ⟨hsound, v.mapped.congr hdin href, fun j sin hj => (hn j sin hj).2.1,
    fun j sin hj => (hn j sin hj).2.2, v.zero, by rw [hs]; exact v.magic, ?_, ?_, ?_, hrec⟩
  · rw [hs, hf]
    exact v.nbits
  · rw [hs]
    exact v.room
  · rw [hs, hlost]
    exact v.area

lemma indirect_ne {j : ℕ} (hi : i ∈ I) (hj : j ∈ I) (h0 : (s.dinOf j).indirect ≠ 0) :
    (s.dinOf j).indirect ≠ i := by
  intro e
  have hx : Slot.indirect j = Slot.inode i :=
    v.sound.owning.inj _ _ (by rwa [ref_indirect hj]) (by rw [ref_indirect hj, ref_inode hi, e])
  cases hx

/-- An inode is written back. -/
lemma flushed (hn : s.nodes i = some sin) : SyncVolume I (s.flushed i sin) := by
  have hi := v.sound.cached i sin hn
  have hsame : (s.flushed i sin).super = s.super ∧ (s.flushed i sin).freemap = s.freemap ∧
      (s.flushed i sin).faults = s.faults ∧ (s.flushed i sin).superDirty = s.superDirty := by
    unfold SfsFs.flushed
    split_ifs
    · exact ⟨rfl, rfl, rfl, rfl⟩
    · exact ⟨rfl, rfl, rfl, rfl⟩
  obtain ⟨h1, h2, h3, h4⟩ := hsame
  refine v.of_same h1 h2 (h3.trans v.sound.device) (fun j _ => flushed_dinOf hn j)
    (fun j hj h0 => flushed_disk_of_ne (v.indirect_ne hi hj h0)) (fun j sin' hj => ?_) fun hd => ?_
  · by_cases hji : j = i
    · subst hji
      cases (flushed_node hn).symm.trans hj
      exact ⟨hi, v.fits j sin hn, v.linked j sin hn⟩
    · rw [flushed_nodes_of_ne hji] at hj
      exact ⟨v.sound.cached j sin' hj, v.fits j sin' hj, v.linked j sin' hj⟩
  · refine v.saved_congr (v.recorded (h4 ▸ hd)) h1 h2 fun b hb => flushed_disk_of_ne fun e => ?_
    rcases hb with rfl | hb
    · exact v.zero (e ▸ hi)
    · have := hb.2.2 (.inode i)
      rw [ref_inode hi] at this
      exact this e.symm

/-- Counters of an inode change. -/
lemma modSin (hn : s.nodes i = some sin) {f : SfsInode → SfsInode} (hf : (f sin).din = sin.din) :
    SyncVolume I (s.modSin i f) := by
  have hi := v.sound.cached i sin hn
  refine v.of_same rfl rfl v.sound.device (fun j _ => ?_) (fun _ _ _ => rfl) (fun j sin' hj => ?_)
    fun hd => ?_
  · rw [modSin_dinOf hn]
    split_ifs with hji
    · rw [hf, hji, dinOf_of_node hn]
    · rfl
  · by_cases hji : j = i
    · subst hji
      cases (modSin_nodes_self hn).symm.trans hj
      rw [hf]
      exact ⟨hi, v.fits j sin hn, v.linked j sin hn⟩
    · rw [modSin_nodes_of_ne hji] at hj
      exact ⟨v.sound.cached j sin' hj, v.fits j sin' hj, v.linked j sin' hj⟩
  · exact v.saved_congr (v.recorded hd) rfl rfl fun _ _ => rfl

/-- **Reads, writes, truncations and seeks.** -/
lemma fileOp {op : FileOp} (hl : op.Legit s) {ret : Except Errno Unit} (e : op.run s = .ok (ret, t))
    : SyncVolume I t := by
  obtain ⟨-, x⟩ := FileOp.run_ok v.sound v.mapped hl e
  have hnoted := x.frame.noted
  refine ⟨x.frame.sound, x.filesMapped v.mapped, FileOp.run_nodesFit v.sound v.mapped v.fits hl e,
    fun j sin' hj => ?_, v.zero, hnoted.magic.trans v.magic, ?_, ?_, ?_, fun hd => ?_⟩
  · by_cases hji : j = op.ino
    · subst hji
      obtain ⟨⟨sin, hn, -⟩, -⟩ := hl
      obtain ⟨sin'', hn'', hrel⟩ := op.run_noted s ret t e sin hn
      cases hn''.symm.trans hj
      rw [hrel.nlinks]
      exact v.linked _ sin hn
    · rw [x.frame.nodes j hji] at hj
      exact v.linked j sin' hj
  · rw [hnoted.nbits, hnoted.blocks]
    exact v.nbits
  · rw [hnoted.blocks]
    exact v.room
  · rw [hnoted.blocks, x.frame.lost]
    exact v.area
  · obtain ⟨h1, h2, h3⟩ := hnoted.clean hd
    exact v.saved_congr (v.recorded h1) h2 h3 x.frame.kept

/-- **Loading an inode.** -/
lemma load (hi : i ∈ I) {ret : Except Errno Unit} (e : sfsLoadInode i s = .ok (ret, t)) :
    SyncVolume I t := by
  cases hn : s.nodes i with
  | some sin =>
    have e' : sfsLoadInode i s = .ok (.ok (), s.modSin i (·.refInc)) := by
      rw [sfsLoadInode, read_bind_apply, hn]
      rfl
    cases e.symm.trans e'
    exact v.modSin hn rfl
  | none =>
    have hr : s.ref I (.inode i) = i := ref_inode hi
    have hu : InUse s (s.ref I (.inode i)) := v.sound.inUse (by rw [hr]; exact (v.inode_ne hi).1)
    rw [hr] at hu
    rw [sfsLoadInode_eq v.sound.toMounted hn hu] at e
    split_ifs at e with hl ht
    cases e
    refine v.of_same rfl rfl v.sound.device (fun j _ => ?_) (fun _ _ _ => rfl) (fun j sin hj => ?_)
      fun hd => ?_
    · by_cases hji : j = i
      · rw [hji, dinOf_of_node (loaded_node s i), SfsFs.dinOf, hn]
      · exact dinOf_congr (update_of_ne hji ..) fun _ => rfl
    · by_cases hji : j = i
      · subst hji
        cases (loaded_node s j).symm.trans hj
        exact ⟨hi, decodeInode_fits _, hl⟩
      · have hj' : s.nodes j = some sin := (update_of_ne hji ..).symm.trans hj
        exact ⟨v.sound.cached j sin hj', v.fits j sin hj', v.linked j sin hj'⟩
    · exact v.saved_congr (v.recorded hd) rfl rfl fun _ _ => rfl

/-- An inode that is as on the disk is dropped from memory. -/
lemma dropped (hn : s.nodes i = some sin) (hd : decodeInode (s.disk i) = sin.din) :
    SyncVolume I (s.dropped i) := by
  refine v.of_same rfl rfl v.sound.device (fun j _ => ?_) (fun _ _ _ => rfl) (fun j sin' hj => ?_)
    fun h => ?_
  · by_cases hji : j = i
    · subst hji
      have : (s.dropped j).nodes j = none := update_self ..
      rw [SfsFs.dinOf, this, dinOf_of_node hn]
      exact hd
    · exact dinOf_congr (update_of_ne hji ..) fun _ => rfl
  · by_cases hji : j = i
    · subst hji
      have : (s.dropped j).nodes j = none := update_self ..
      rw [this] at hj
      cases hj
    · have hj' : s.nodes j = some sin' := (update_of_ne hji ..).symm.trans hj
      exact ⟨v.sound.cached j sin' hj', v.fits j sin' hj', v.linked j sin' hj'⟩
  · exact v.saved_congr (v.recorded h) rfl rfl fun _ _ => rfl

/-- **`sfs_reclaim`.** -/
lemma reclaim (hn : s.nodes i = some sin)
    (hb : sin.dirty = false → decodeInode (s.disk i) = sin.din) {ret : Except Errno Unit}
    (e : sfsReclaim i s = .ok (ret, t)) : SyncVolume I t := by
  by_cases hc : 0 < sin.reclaimCount
  · by_cases hbusy : sin.reclaimCount - 1 ≠ 0 ∨ sin.refCount ≠ 0
    · have e' : sfsReclaim i s = .ok (.error .busy, s.modSin i (·.reclaimDec)) := by
        rw [sfsReclaim, bind_of_ok (getSin_apply hn), ensure_bind_apply, if_pos hc,
          modify_bind_apply, if_pos hbusy]
        rfl
      cases e.symm.trans e'
      exact v.modSin hn rfl
    · cases e.symm.trans (sfsReclaim_apply v.sound v.zero hn (by omega) (by omega)
        (v.linked i sin hn))
      have hn' : (s.modSin i (·.reclaimDec)).nodes i = some sin.reclaimDec := modSin_nodes_self hn
      have hb' : sin.reclaimDec.dirty = false →
          decodeInode ((s.modSin i (·.reclaimDec)).disk i) = sin.reclaimDec.din := hb
      exact ((v.modSin hn rfl).flushed hn').dropped (flushed_node hn')
        (flushed_decode hb' (v.fits i sin hn))
  · rw [sfsReclaim, bind_of_ok (getSin_apply hn), ensure_bind_apply, if_neg hc] at e
    cases e

end

/-- **`sfs_fsync`** on a device that may refuse transfers. -/
lemma tryFlush {c : SfsFs} (v : SyncVolume I (c.withAnswers [])) (hn : c.nodes i = some sin) :
    SyncVolume I ((c.tryFlush i sin).withAnswers []) := by
  unfold SfsFs.tryFlush
  split_ifs with hd ha
  · rw [withAnswers_withAnswers, withAnswers_flushed]
    exact v.flushed hn
  · exact v
  · exact v

/-- **The super block and the freemap are written.** -/
lemma syncVolume {c : SfsFs} (v : SyncVolume I (c.withAnswers [])) {ret : Except Errno Unit}
    (e : syncVolume c = .ok (ret, t)) :
    SyncVolume I (t.withAnswers []) ∧ SameMemory c t ∧ (∀ j ∈ I, t.disk j = c.disk j) ∧
      (ret = .ok () → Saved t) := by
  have hm : c.super.magic < 2 ^ 32 := by
    rw [show c.super.magic = sfsMagic from v.magic]
    decide
  obtain ⟨h1, h2, h3, h4⟩ := syncVolume_post (s := c) v.room v.blocks_le v.nbits v.sound.nwords hm
    v.unused_lt (fun hd => ⟨(v.recorded hd).super, (v.recorded hd).freemap⟩) ret t e
  -- the blocks of the files are elsewhere
  have hout : ∀ b, b ≠ 0 → (∀ j < freemapBlocks c.super.blocks, b ≠ blknFreemap + j) →
      t.disk b = c.disk b := by
    intro b hb hj
    refine h2 b hb ?_
    by_contra hc
    exact hj (b - blknFreemap) (by omega) (by omega)
  have hinode : ∀ j ∈ I, t.disk j = c.disk j :=
    fun j hj => hout j (v.inode_ne hj).1 (v.inode_ne hj).2.2
  refine ⟨v.of_same h1.super h1.freemap rfl (fun j hj => ?_) (fun j hj h0 => ?_)
    (fun j sin hj => ?_) fun hd => ⟨(h4 hd).super, (h4 hd).freemap⟩, h1, hinode, h3⟩
  · exact dinOf_congr (congrFun h1.nodes j) fun _ => hinode j hj
  · refine hout _ h0 fun k hk hek => ?_
    have := (v.area k hk).2.2 (.indirect j)
    rw [ref_indirect hj] at this
    exact this hek
  · have hj' : c.nodes j = some sin := (congrFun h1.nodes j).symm.trans hj
    exact ⟨v.sound.cached j sin hj', v.fits j sin hj', v.linked j sin hj'⟩

end SyncVolume

/-! ## The inodes -/

/-- **The inodes of the list reach the disk**, given the answers of the device: an inode that is not
dirty is there already; a dirty one is written, or is there although the device refuses a
transfer. -/
def Written (s : SfsFs) : List ℕ → List (Option Errno) → Prop
  | [], _ => True
  | i :: order, answers =>
    match s.nodes i with
    | none => Written s order answers
    | some sin =>
      if sin.dirty then
        (Accepted answers ∨ decodeInode (s.disk i) = sin.din) ∧ Written s order (afterWbuf answers)
      else decodeInode (s.disk i) = sin.din ∧ Written s order answers

lemma Written.congr {order : List ℕ} (hn : ∀ i ∈ order, t.nodes i = s.nodes i)
    (hd : ∀ i ∈ order, t.disk i = s.disk i) (answers : List (Option Errno)) :
    Written t order answers ↔ Written s order answers := by
  induction order generalizing answers with
  | nil => exact Iff.rfl
  | cons i order ih =>
    have ih' := ih (fun j hj => hn j (by simp [hj])) fun j hj => hd j (by simp [hj])
    simp only [Written, hn i (by simp), hd i (by simp), ih']

lemma tryFlush_disk_of_ne {b : ℕ} (hb : b ≠ i) : (s.tryFlush i sin).disk b = s.disk b := by
  unfold SfsFs.tryFlush
  split_ifs
  · exact flushed_disk_of_ne hb
  · rfl
  · rfl

lemma tryFlush_nodes_of_ne {j : ℕ} (hj : j ≠ i) : (s.tryFlush i sin).nodes j = s.nodes j := by
  unfold SfsFs.tryFlush
  split_ifs
  · exact flushed_nodes_of_ne hj
  · rfl
  · rfl

lemma tryFlush_super :
    (s.tryFlush i sin).super = s.super ∧ (s.tryFlush i sin).freemap = s.freemap := by
  unfold SfsFs.tryFlush SfsFs.flushed
  split_ifs <;> exact ⟨rfl, rfl⟩

lemma tryFlush_faults :
    (s.tryFlush i sin).faults = if sin.dirty then afterWbuf s.faults else s.faults := by
  unfold SfsFs.tryFlush
  split_ifs <;> rfl

/-- The copy of the inode then. -/
lemma tryFlush_decode (hf : sin.din.Fits) :
    decodeInode ((s.tryFlush i sin).disk i) = sin.din ↔
      if sin.dirty then Accepted s.faults ∨ decodeInode (s.disk i) = sin.din
      else decodeInode (s.disk i) = sin.din := by
  unfold SfsFs.tryFlush
  cases hd : sin.dirty with
  | false => exact Iff.rfl
  | true =>
    rw [if_pos rfl, if_pos rfl]
    by_cases ha : Accepted s.faults
    · rw [if_pos ha]
      have := flushed_decode (s := s) (i := i) (fun h => by rw [hd] at h; cases h) hf
      exact iff_of_true this (.inl ha)
    · rw [if_neg ha]
      exact (or_iff_right ha).symm

/-- **The loop of `sfs_sync`** returns, and brings the inodes to the disk iff they are written.

**Proof sketch.** Induction on the list. The inode that comes first is not in the rest of the list,
so nothing after it touches its block, and what the rest needs has not been touched by it. -/
lemma syncInodes_apply (order : List ℕ) : ∀ c :
    SfsFs, SyncVolume I (c.withAnswers []) → order.Nodup → (∀ i ∈ order, c.nodes i ≠ none) →
    ∃ t, syncInodes order c = .ok ((), t) ∧ SyncVolume I (t.withAnswers []) ∧ t.super = c.super ∧
      t.freemap = c.freemap ∧ (∀ b ∉ order, t.disk b = c.disk b) ∧
      ((∀ i ∈ order, ∀ sin, c.nodes i = some sin → decodeInode (t.disk i) = sin.din) ↔
        Written c order c.faults) := by
  induction order with
  | nil =>
    intro c v _ _
    exact ⟨c, rfl, v, rfl, rfl, fun _ _ => rfl,
      iff_of_true (fun _ h => absurd h List.not_mem_nil) trivial⟩
  | cons i order ih =>
    intro c v hnd hc
    obtain ⟨hni, hnd'⟩ := List.nodup_cons.mp hnd
    obtain ⟨sin, hn⟩ := Option.ne_none_iff_exists'.mp (hc i (by simp))
    obtain ⟨h0, hlt, -⟩ := v.inode_ne (v.sound.cached i sin hn)
    obtain ⟨ret, e⟩ := sfsFsync_answers hn h0 hlt v.blocks_le
    have hne : ∀ j ∈ order, j ≠ i := fun j hj h => hni (h ▸ hj)
    obtain ⟨t, e', vt, h1, h2, h3, h4⟩ := ih (c.tryFlush i sin) (v.tryFlush hn) hnd' fun j hj => by
      rw [tryFlush_nodes_of_ne (hne j hj)]
      exact hc j (by simp [hj])
    have hrest : Written (c.tryFlush i sin) order (c.tryFlush i sin).faults ↔
        Written c order (c.tryFlush i sin).faults :=
      Written.congr (fun j hj => tryFlush_nodes_of_ne (hne j hj))
        (fun j hj => tryFlush_disk_of_ne (hne j hj)) _
    refine ⟨t, ?_, vt, h1.trans tryFlush_super.1, h2.trans tryFlush_super.2, fun b hb => ?_, ?_⟩
    · rw [syncInodes, forEach, bind_of_ok (by rw [bind_of_ok e]; rfl)]
      exact e'
    · rw [h3 b (fun h => hb (by simp [h])), tryFlush_disk_of_ne (fun h => hb (by simp [h]))]
    · have hself := tryFlush_decode (s := c) (i := i) (v.fits i sin hn)
      rw [← h3 i hni] at hself
      have htail : (∀ j ∈ order, ∀ sin, c.nodes j = some sin → decodeInode (t.disk j) = sin.din) ↔
          Written c order (c.tryFlush i sin).faults := by
        rw [← hrest, ← h4]
        refine forall₂_congr fun j hj => ?_
        rw [tryFlush_nodes_of_ne (hne j hj)]
      rw [tryFlush_faults] at htail
      rw [List.forall_mem_cons, htail, Written, hn]
      simp only [Option.some.injEq, forall_eq', hself]
      cases sin.dirty <;> simp

/-! ## Mounting what has been written -/

/-- **What is on the disk of `t` is what was in memory in `s`**: a working device with these blocks
is mounted, with the same super block and freemap, and each inode is read as it was in memory. -/
def Durable (s t : SfsFs) : Prop :=
  ∀ dev : SfsDevice, dev.dBlocksize = blkSize → dev.faults = [] → s.super.blocks ≤ dev.dBlocks →
    (∀ b < s.super.blocks, dev.disk b = t.disk b) →
    ∃ fs, sfsDoMount dev = .ok (.ok fs, dev) ∧ fs.super = s.super ∧
      fs.freemap.nbits = s.freemap.nbits ∧ fs.freemap.nwords = s.freemap.nwords ∧
      fs.freemap.free = s.freemap.free ∧
      ∀ i sin, s.nodes i = some sin → decodeInode (fs.disk i) = sin.din

/-- **A volume that has been saved** is mounted. -/
lemma SyncVolume.mounts (v : SyncVolume I s) (hs : Saved s) {dev : SfsDevice}
    (h1 : dev.dBlocksize = blkSize) (h2 : dev.faults = []) (h3 : s.super.blocks ≤ dev.dBlocks)
    (h4 : ∀ b < s.super.blocks, dev.disk b = s.disk b) :
    ∃ fs, sfsDoMount dev = .ok (.ok fs, dev) ∧ fs.super = s.super ∧
      fs.freemap.nbits = s.freemap.nbits ∧ fs.freemap.nwords = s.freemap.nwords ∧
      fs.freemap.free = s.freemap.free ∧ fs.disk = dev.disk := by
  have hroom := v.room
  have hsup : decodeSuper (dev.disk blknSuper) = s.super := by
    rw [h4 _ (by unfold blknSuper blknFreemap at *; omega), hs.super]
  obtain ⟨fm, hbits, hwords, hbit, e⟩ := sfsDoMount_apply h1 h2 hsup v.magic h3 v.blocks_le hroom
  have hw : fm.nwords = s.freemap.nwords := by
    apply Nat.eq_of_mul_eq_mul_right (m := wordBits) (by decide)
    rw [← v.sound.nwords, v.nbits, hwords, Nat.mul_assoc]
    rfl
  have hfree : fm.free = s.freemap.free := by
    ext k
    rw [Bitmap.mem_free, Bitmap.mem_free, hw]
    refine and_congr_right fun hk => ?_
    rw [← v.sound.nwords] at hk
    have hj : k / blkBits < freemapBlocks s.super.blocks := by
      rw [v.nbits, Nat.mul_comm] at hk
      exact Nat.div_lt_of_lt_mul hk
    rw [hbit k (by rwa [← v.nbits]), freemapBit, h4 _ (by omega), ← freemapBit, hs.freemap k hk]
  rw [if_pos (by rw [hfree, v.sound.unused])] at e
  exact ⟨_, e, rfl, hbits.trans v.nbits.symm, hw, hfree, rfl⟩

section

variable {order : List ℕ} {answers : List (Option Errno)} (v : SyncVolume I s)
  (ho : Enumerates order s) (e : sfsSync order (s.withAnswers answers) = .ok (.ok (), t))
include v ho e

/-- **After `sfs_sync` has returned `0`** super block and freemap are on the disk, and the inodes
are iff they are written. -/
lemma SyncVolume.sync_ok :
    SyncVolume I (t.withAnswers []) ∧ Saved t ∧ t.super = s.super ∧ t.freemap = s.freemap ∧
      ((∀ i sin, s.nodes i = some sin → decodeInode (t.disk i) = sin.din) ↔
        Written s order answers) := by
  obtain ⟨c, e1, vc, hsup, hfm, -, hw⟩ := syncInodes_apply order (s.withAnswers answers)
    (v.answers answers) ho.nodup fun i hi => (ho.mem i).mp hi
  rw [sfsSync, bind_of_ok e1] at e
  obtain ⟨vt, hmem, hinode, hsaved⟩ := vc.syncVolume e
  refine ⟨vt, hsaved rfl, hmem.super.trans hsup, hmem.freemap.trans hfm, ?_⟩
  have hsame : Written (s.withAnswers answers) order answers ↔ Written s order answers :=
    @Written.congr s (s.withAnswers answers) order (fun _ _ => rfl) (fun _ _ => rfl) answers
  refine Iff.trans ?_ (hw.trans hsame)
  constructor
  · intro h i _ sin hn
    rw [← hinode i (v.sound.cached i sin hn)]
    exact h i sin hn
  · intro h i sin hn
    rw [hinode i (v.sound.cached i sin hn)]
    exact h i ((ho.mem i).mpr (by simp [hn])) sin hn

/-- **`sfs_sync` that returns `0`** is durable iff the inodes are on the disk. -/
lemma SyncVolume.durable_iff_copies :
    Durable s t ↔ ∀ i sin, s.nodes i = some sin → decodeInode (t.disk i) = sin.din := by
  obtain ⟨vt, hsaved, hts, htf, -⟩ := v.sync_ok ho e
  have hblocks : t.super.blocks = s.super.blocks := by rw [hts]
  constructor
  · intro hd i sin hn
    let dev : SfsDevice := ⟨s.super.blocks, blkSize, t.disk, []⟩
    obtain ⟨fs, em, -, -, -, -, hi⟩ := hd dev rfl rfl le_rfl fun _ _ => rfl
    obtain ⟨fs', em', -, -, -, -, hdisk⟩ := @SyncVolume.mounts _ _ vt ⟨hsaved.super, hsaved.freemap⟩
      dev rfl rfl hblocks.le fun _ _ => rfl
    cases em.symm.trans em'
    rw [← hi i sin hn, hdisk]
  · intro hall dev h1 h2 h3 h4
    obtain ⟨fs, em, h5, h6, h7, h8, hdisk⟩ := vt.mounts ⟨hsaved.super, hsaved.freemap⟩ h1 h2
      (hblocks.le.trans h3) fun b hb => h4 b (hb.trans_le hblocks.le)
    refine ⟨fs, em, h5.trans hts, h6.trans (congrArg _ htf), h7.trans (congrArg _ htf),
      h8.trans (congrArg _ htf), fun i sin hn => ?_⟩
    rw [hdisk, h4 i (v.sound.inode_lt (v.sound.cached i sin hn)), hall i sin hn]

end

lemma SyncVolume.sync (v : SyncVolume I s) {order : List ℕ} (ho : Enumerates order s)
    {answers : List (Option Errno)} {ret : Except Errno Unit}
    (e : sfsSync order (s.withAnswers answers) = .ok (ret, t)) :
    SyncVolume I (t.withAnswers []) := by
  obtain ⟨c, e1, vc, -⟩ := syncInodes_apply order (s.withAnswers answers)
    (v.answers answers) ho.nodup fun i hi => (ho.mem i).mp hi
  rw [sfsSync, bind_of_ok e1] at e
  exact (vc.syncVolume e).1

/-- **One call** keeps the invariant. -/
lemma VolumeStep.volume (hstep : VolumeStep I s t) (v : SyncVolume I s) : SyncVolume I t := by
  cases hstep with
  | call op hl e =>
    cases op with
    | file op => exact v.fileOp hl e
    | fsync i =>
      obtain ⟨sin, hn⟩ := hl
      cases e.symm.trans (sfsFsync_apply v.sound v.zero hn)
      exact v.flushed hn
  | load hi e => exact v.load hi e
  | reclaim hn hb e => exact v.reclaim hn hb e
  | sync ho answers e => exact v.sync ho e

/-- **A run** keeps the invariant. -/
lemma SyncVolume.run (v : SyncVolume I s) (hr : ReflTransGen (VolumeStep I) s t) :
    SyncVolume I t := by
  induction hr with
  | refl => exact v
  | tail _ hstep ih => exact hstep.volume ih

/-- **Durability of `sfs_sync`.** In every state that calls on a volume lead to, for every order of
the inodes in `inode_list` and all answers of the device: if `sfs_sync` returns `0`, then mounting
the disk gives the super block, the freemap and the inodes that were in memory, iff every inode
reaches the disk. -/
theorem sync_durable_iff {I : Finset ℕ} {s t u : SfsFs} (v : SyncVolume I s)
    (hr : ReflTransGen (VolumeStep I) s t) {order : List ℕ} (ho : Enumerates order t)
    {answers : List (Option Errno)} (e : sfsSync order (t.withAnswers answers) = .ok (.ok (), u)) :
    Durable t u ↔ Written t order answers := by
  exact ((v.run hr).durable_iff_copies ho e).trans ((v.run hr).sync_ok ho e).2.2.2.2

/-! ## Mounting again -/

section

variable {order : List ℕ} {answers : List (Option Errno)} (v : SyncVolume I s)
  (ho : Enumerates order s) (e : sfsSync order (s.withAnswers answers) = .ok (.ok (), t))
include v ho e

/-- **`sfs_sync` changes no block of a file** but the cached inodes. -/
lemma SyncVolume.sync_disk {y : Slot} (hy : s.ref I y ≠ 0) (hne : ∀ i ∈ order, y ≠ .inode i) :
    t.disk (s.ref I y) = s.disk (s.ref I y) := by
  obtain ⟨c, e1, vc, hsup, -, hdisk, -⟩ := syncInodes_apply order (s.withAnswers answers)
    (v.answers answers) ho.nodup fun i hi => (ho.mem i).mp hi
  rw [sfsSync, bind_of_ok e1] at e
  have hm : c.super.magic < 2 ^ 32 := (show c.super.magic = sfsMagic from vc.magic) ▸ by decide
  have hpost := syncVolume_post (s := c) vc.room vc.blocks_le vc.nbits vc.sound.nwords hm
    vc.unused_lt (fun hd => ⟨(vc.recorded hd).super, (vc.recorded hd).freemap⟩) _ t e
  refine (hpost.2.1 _ hy ?_).trans (hdisk _ fun hi => ?_)
  · -- nothing refers to the blocks of the freemap
    rw [show c.super = s.super from hsup]
    by_contra hc
    exact (v.area (s.ref I y - blknFreemap) (by omega)).2.2 y (by omega)
  · obtain ⟨sin, hn⟩ := Option.ne_none_iff_exists'.mp ((ho.mem _).mp hi)
    exact hne _ hi (v.sound.owning.inj y _ hy (ref_inode (v.sound.cached _ sin hn)).symm)

/-- **Files survive a reboot.** If `sfs_sync` returns `0` and every inode reaches the disk, then a
device with that disk is mounted, every file has the inode, the block map and the contents that it
had, and the volume is in order in every run that follows. -/
theorem files_survive_remount (hw : Written s order answers) {d : SfsDevice}
    (h1 : d.dBlocksize = blkSize) (h2 : d.faults = []) (h3 : s.super.blocks ≤ d.dBlocks)
    (h4 : ∀ b < s.super.blocks, d.disk b = t.disk b) :
    ∃ fs, sfsDoMount d = .ok (.ok fs, d) ∧ (∀ i ∈ I, fs.dinOf i = s.dinOf i) ∧ fs.ref I = s.ref I ∧
      (∀ y, s.ref I y ≠ 0 → (∀ i ∈ order, y ≠ .inode i) →
        fs.disk (s.ref I y) = s.disk (s.ref I y)) ∧
      ∀ w, ReflTransGen (VolumeStep I) fs w → SyncVolume I w := by
  obtain ⟨-, hsaved, hsup, -, hiff⟩ := v.sync_ok ho e
  obtain ⟨fs, em, -, hb, hwd, hf, -⟩ := (v.durable_iff_copies ho e).mpr (hiff.mpr hw) d h1 h2 h3 h4
  have hroom := v.room
  have hd : decodeSuper (d.disk blknSuper) = s.super := by
    rw [h4 _ (by unfold blknSuper blknFreemap at *; omega), hsaved.super, hsup]
  obtain ⟨fm, hbits, -, hbit, em'⟩ := sfsDoMount_apply h1 h2 hd v.magic h3 v.blocks_le hroom
  rw [em] at em'
  split_ifs at em'
  cases em'
  set fs : SfsFs := ⟨s.super, fm, false, fun _ => none, d.disk, []⟩
  have hkeep : ∀ y, s.ref I y ≠ 0 → (∀ i ∈ order, y ≠ .inode i) →
      d.disk (s.ref I y) = s.disk (s.ref I y) :=
    fun y hy hne => (h4 _ (v.sound.range y)).trans (v.sync_disk ho e hy hne)
  have hdin : ∀ i ∈ I, fs.dinOf i = s.dinOf i := by
    intro i hi
    change decodeInode (d.disk i) = _
    cases hn : s.nodes i with
    | some sin => rw [h4 i (v.sound.inode_lt hi), dinOf_of_node hn, hiff.mpr hw i sin hn]
    | none =>
      have := hkeep (.inode i)
      rw [ref_inode hi] at this
      rw [SfsFs.dinOf, hn, this (v.inode_ne hi).1]
      rintro j hj ⟨⟩
      exact (ho.mem i).mp hj hn
  have href : fs.ref I = s.ref I := ref_congr hdin fun i hi => by
    simpa [ref_indirect hi] using hkeep (.indirect i)
  have hm := v.sound.toMounted
  obtain ⟨hsound, hlost⟩ := v.sound.of_ref_eq (t := fs) ⟨hm.blocks_le, hb ▸ hm.nbits,
    hb ▸ hwd ▸ hm.nwords, hf ▸ hm.free, rfl⟩ hf href rfl (by rintro _ _ ⟨⟩)
  exact ⟨fs, em, hdin, href, hkeep, fun w => SyncVolume.run ⟨hsound, v.mapped.congr hdin href,
    by rintro _ _ ⟨⟩, by rintro _ _ ⟨⟩, v.zero, v.magic, hbits, hroom, hlost ▸ v.area,
    fun _ => ⟨hd, fun i hi => (hbit i (hbits ▸ hi)).symm⟩⟩⟩

end

/-! ## A volume of eight blocks -/

/-- The freemap of a volume with the free blocks `4` to `7`. -/
def smallMap : Bitmap := ⟨32768, 1024, fun j => if j = 0 then 0xF0#32 else 0#32⟩

/-- A volume of eight blocks, with an empty file. Everything is on the disk. -/
def smallVolume : SfsFs where
  super := ⟨sfsMagic, 8, 4⟩
  freemap := smallMap
  superDirty := false
  nodes := fun i => if i = 3 then some ⟨directFile 0 0, false, 1, 1, 1⟩ else none
  disk := fun b =>
    if b = 0 then encodeSuper ⟨sfsMagic, 8, 4⟩
    else if b = 2 then smallMap.data
    else if b = 3 then encodeInode (directFile 0 0)
    else Bytes.zero
  faults := []

lemma smallVolume_node : smallVolume.nodes 3 = some ⟨directFile 0 0, false, 1, 1, 1⟩ := rfl

lemma smallVolume_cached {i : ℕ} {sin : SfsInode} (hn : smallVolume.nodes i = some sin) :
    i = 3 ∧ sin = ⟨directFile 0 0, false, 1, 1, 1⟩ := by
  have hi : i = 3 := by
    by_contra hi
    have : smallVolume.nodes i = none := if_neg hi
    rw [this] at hn
    cases hn
  subst hi
  exact ⟨rfl, (Option.some.inj hn).symm⟩

lemma smallMap_free : smallMap.free = {4, 5, 6, 7} := by
  have hword : ∀ k : Fin 32, (0xF0#32).getLsbD k = true ↔
    k.val ∈ ({4, 5, 6, 7} : Finset ℕ) := by decide
  ext k
  rw [Bitmap.mem_free]
  change k < 32768 ∧ (if k / 32 = 0 then 0xF0#32 else 0#32).getLsbD (k % 32) = true ↔ _
  by_cases hk : k < 32
  · rw [if_pos (Nat.div_eq_of_lt hk), Nat.mod_eq_of_lt hk]
    exact (and_iff_right (by omega)).trans (hword ⟨k, hk⟩)
  · rw [if_neg (by omega)]
    simp only [mem_insert, mem_singleton]
    refine iff_of_false (fun h => ?_) (by omega)
    simp at h

lemma smallVolume_unmapped (k : ℕ) : smallVolume.bmapAt 3 k = 0 := by
  rw [bmapAt_of_node smallVolume_node]
  by_cases hk : k < nDirect
  · rw [mapAt_direct hk]
    rfl
  · exact mapAt_no_entry hk rfl

/-- The only reference is the inode. -/
lemma smallVolume_ref (x : Slot) (hx : smallVolume.ref {3} x ≠ 0) : smallVolume.ref {3} x = 3 := by
  rcases ref_single smallVolume_node rfl x hx with ⟨-, e⟩ | ⟨k, -, e⟩
  · exact e
  · exact absurd e hx

lemma smallVolume_sound : Sound {3} smallVolume := by
  have hfree : smallVolume.freemap.free = {4, 5, 6, 7} := smallMap_free
  have hm : Mounted smallVolume := by
    refine ⟨by decide, by decide, rfl, fun b hb => ?_, rfl⟩
    rw [hfree] at hb
    simp only [mem_insert, mem_singleton] at hb
    change b ≠ 0 ∧ b < 8
    omega
  refine sound_single hm smallVolume_node (fun j sin hn => (smallVolume_cached hn).1) rfl
    ⟨by decide, by decide, by rw [hfree]; decide⟩ (fun k => ⟨?_, ?_, ?_⟩)
    (fun k l h => absurd rfl h) (by rw [hfree]; rfl)
  · exact (by decide : 0 ≠ 3)
  · exact (by decide : 0 < 8)
  · rw [hfree]
    exact (by decide : 0 ∉ ({4, 5, 6, 7} : Finset ℕ))

lemma smallVolume_volume : SyncVolume {3} smallVolume where
  sound := smallVolume_sound
  mapped i hi _ := by
    obtain rfl := mem_singleton.mp hi
    refine ⟨fun k hk => ?_, fun k _ => smallVolume_unmapped k⟩
    rw [dinOf_of_node smallVolume_node] at hk
    exact absurd hk (Nat.not_lt_zero k)
  fits i sin hn := by
    obtain ⟨-, rfl⟩ := smallVolume_cached hn
    exact ⟨by decide, by decide, by decide, by decide, by decide, by decide⟩
  linked i sin hn := by
    obtain ⟨-, rfl⟩ := smallVolume_cached hn
    decide
  zero := by decide
  magic := rfl
  nbits := by decide
  room := by decide
  area j hj := by
    obtain rfl : j = 0 := Nat.lt_one_iff.mp hj
    refine ⟨by decide, ?_, fun x hx => ?_⟩
    · change blknFreemap + 0 ∉ smallMap.free
      rw [smallMap_free]
      decide
    · have := smallVolume_ref x (by rw [hx]; decide)
      rw [hx] at this
      cases this
  recorded _ := by
    refine ⟨decodeSuper_encodeSuper (by decide) (by decide) (by decide), fun k hk => ?_⟩
    have hlt : k < blkBits := hk
    rw [freemapBit, Nat.div_eq_of_lt hlt, Nat.mod_eq_of_lt hlt]
    exact data_bit smallMap hk

/-- Truncate the file to one block and synchronise; and what is in memory and on the disk then. -/
def growThenSync (answers : List (Option Errno)) : Sfs (List ℤ × Bool × ℕ × ℕ) := do
  let a ← InodeOp.run (.file (.truncate 3 4096))
  let sin ← getSin 3
  Comp.modify (·.withAnswers answers)
  let b ← sfsSync [3]
  let s ← Comp.read
  pure ([a, b].map retCode, sin.dirty, sin.din.blocks, (decodeInode (s.disk 3)).blocks)

/-- The states on the way. -/
lemma growThenSync_states {answers : List (Option Errno)} {k : ℕ} {w : SfsFs}
    (e : growThenSync answers smallVolume = .ok (([0, 0], true, 1, k), w)) :
    ∃ t sin, ReflTransGen (VolumeStep {3}) smallVolume t ∧ Enumerates [3] t ∧
      sfsSync [3] (t.withAnswers answers) = .ok (.ok (), w) ∧ t.nodes 3 = some sin ∧
      sin.dirty = true ∧ sin.din.blocks = 1 ∧ (decodeInode (w.disk 3)).blocks = k := by
  unfold growThenSync at e
  simp only [bind_eq_ok] at e
  obtain ⟨ra, sa, ea, sin, sb, eb, _, sc, ec, rd, sd, ed, _, se, ee, ef⟩ := e
  obtain ⟨rfl, hn⟩ := getSin_post 3 sa sin sb eb
  cases ec
  cases ee
  injection ef with ef
  injection ef with hres hst
  subst hst
  simp only [List.map_cons, List.map_nil, Prod.mk.injEq, List.cons.injEq] at hres
  obtain ⟨⟨-, hret, -⟩, hdirty, hblocks, hdisk⟩ := hres
  have hr : ReflTransGen (VolumeStep {3}) smallVolume sb :=
    .single (.call (.file (.truncate 3 4096)) ⟨⟨_, smallVolume_node, rfl⟩, trivial⟩ ea)
  refine ⟨sb, sin, hr, ⟨by decide, fun i => ?_⟩, ?_, hn, hdirty, hblocks, hdisk⟩
  · rw [List.mem_singleton]
    constructor
    · rintro rfl
      simp [hn]
    · intro hi
      obtain ⟨sin', hn'⟩ := Option.ne_none_iff_exists'.mp hi
      exact mem_singleton.mp ((smallVolume_volume.run hr).sound.cached i sin' hn')
  · obtain ⟨_, rfl⟩ := retCode_eq_zero hret
    exact ed

/-- The file grows and the device takes everything. -/
lemma growThenSync_written : ∃ t u, ReflTransGen (VolumeStep {3}) smallVolume t ∧ Enumerates [3] t ∧
    sfsSync [3] (t.withAnswers []) = .ok (.ok (), u) ∧ Written t [3] [] ∧
      (t.dinOf 3).blocks = 1 := by
  obtain ⟨u, e⟩ : ∃ u, growThenSync [] smallVolume = .ok (([0, 0], true, 1, 1), u) :=
    exists_of_result (by decide +kernel)
  obtain ⟨t, sin, hr, ho, e, hn, hd, hb, -⟩ := growThenSync_states e
  refine ⟨t, u, hr, ho, e, ?_, by rw [dinOf_of_node hn, hb]⟩
  rw [Written, hn]
  simp only [hd, if_true]
  exact ⟨.inl ⟨rfl, rfl⟩, trivial⟩

/-- The volume with the grown file. -/
theorem sync_durable_small :
    ∃ t u, ReflTransGen (VolumeStep {3}) smallVolume t ∧ Enumerates [3] t ∧
      sfsSync [3] (t.withAnswers []) = .ok (.ok (), u) ∧ Durable t u := by
  obtain ⟨t, u, hr, ho, e, hw, -⟩ := growThenSync_written
  exact ⟨t, u, hr, ho, e, (sync_durable_iff smallVolume_volume hr ho e).mpr hw⟩

/-- **A refused write goes unnoticed**: the file has a block, the device refuses the write of its
inode, `sfs_sync` returns `0`, and the disk has the inode without the block. -/
theorem sync_not_durable :
    SyncVolume {3} smallVolume ∧
      ∃ t u, ReflTransGen (VolumeStep {3}) smallVolume t ∧ Enumerates [3] t ∧
        sfsSync [3] (t.withAnswers [none, some .inval]) = .ok (.ok (), u) ∧ ¬Durable t u := by
  obtain ⟨u, e⟩ : ∃ u, growThenSync [none, some .inval] smallVolume =
      .ok (([0, 0], true, 1, 0), u) :=
    exists_of_result (by decide +kernel)
  obtain ⟨t, sin, hr, ho, e, hn, hd, hb, hk⟩ := growThenSync_states e
  refine ⟨smallVolume_volume, t, u, hr, ho, e, fun hdur => ?_⟩
  have hdin := ((smallVolume_volume.run hr).durable_iff_copies ho e).mp hdur 3 sin hn
  rw [hdin, hb] at hk
  cases hk

/-- A device with the disk of that volume: the file has its block again. -/
theorem files_survive_remount_small : ∃ t u fs, ReflTransGen (VolumeStep {3}) smallVolume t ∧
    sfsSync [3] (t.withAnswers []) = .ok (.ok (), u) ∧ (t.dinOf 3).blocks = 1 ∧
    sfsDoMount ⟨t.super.blocks, 4096, u.disk, []⟩ =
      .ok (.ok fs, ⟨t.super.blocks, 4096, u.disk, []⟩) ∧
    fs.dinOf 3 = t.dinOf 3 ∧ fs.ref {3} = t.ref {3} := by
  obtain ⟨t, u, hr, ho, e, hw, hb⟩ := growThenSync_written
  obtain ⟨fs, em, hdin, href, -⟩ := files_survive_remount (smallVolume_volume.run hr) ho e hw
    (d := ⟨t.super.blocks, 4096, u.disk, []⟩) rfl rfl le_rfl fun _ _ => rfl
  exact ⟨t, u, fs, hr, e, hb, em, hdin 3 (mem_singleton_self 3), href⟩

end Ucore

import Ucore.Fs.Sfs.FileRun

set_option autoImplicit false

/-!
# Block ownership along runs

Reads, writes, truncations and seeks keep a volume sound, whatever the sizes and the numbers of
blocks of its files are: the counter of unused blocks stays right, what is referred to stays in use,
no block is referred to twice, and no block gets lost.

## Main definitions

* `KeepsOwners` — a change of a file that keeps the volume sound and loses no block.

## Main results

* `FileOp.run_keepsOwners` — one call.
* `block_ownership` — all runs.
-/

namespace Ucore

open Comp

/-- If the volume is sound and the inode `i` cached, so they are afterwards, and no block is
lost. -/
def KeepsOwners (I : Finset ℕ) (i : ℕ) (s t : SfsFs) : Prop :=
  ∀ sin, Sound I s → s.nodes i = some sin → Frame I i s t ∧ ∃ sin', t.nodes i = some sin'

variable {I : Finset ℕ} {i : ℕ} {s : SfsFs} {sin : SfsInode}

instance : Std.Refl (KeepsOwners I i) := ⟨fun _ sin h hn => ⟨.refl h, sin, hn⟩⟩

instance : IsTrans SfsFs (KeepsOwners I i) := by
  refine ⟨fun s t u hst htu sin h hn => ?_⟩
  obtain ⟨x, sin', hn'⟩ := hst sin h hn
  obtain ⟨y, hu⟩ := htu sin' x.sound hn'
  exact ⟨x.trans y, hu⟩

section Load

variable {i k : ℕ}

/-- **Looking up a block**: whatever the block map is like, the volume stays sound, and the block
that is returned is the one at the index. -/
lemma load_keepsOwners (h : Sound I s) (hn : s.nodes i = some sin) (k : ℕ) :
    Post (sfsBmapLoadNolock i k) s fun r t =>
      (Frame I i s t ∧ ∃ sin', t.nodes i = some sin') ∧ ∀ b, r = .ok b → t.bmapAt i k = b ∧
      b ≠ 0 := by
  intro r t e
  by_cases hpanic : sin.din.blocks < k ∨ maxBlocks ≤ k
  · obtain ⟨p, -, e'⟩ := load_panics hn hpanic
    cases e.symm.trans e'
  · by_cases hmap : s.bmapAt i k = 0
    · rcases lt_or_ge k sin.din.blocks with hk | hk
      · -- a hole: the assertion that the block is in use fails
        cases e.symm.trans (load_hole h hn (by omega) hmap hk)
      · have hbl : sin.din.blocks = k := by omega
        rcases lt_or_ge k (limit s i) with hlim | hlim
        · obtain ⟨b, u, e', g⟩ := load_grow h hn (by omega) hmap hbl hlim
          cases e.symm.trans e'
          obtain ⟨sin', hn', -⟩ := g.node sin hn
          refine ⟨⟨g.frame, sin', hn'⟩, fun c hc => ?_⟩
          cases hc
          exact ⟨by rw [g.bmapAt, if_pos rfl], g.ne_zero⟩
        · obtain ⟨u, e', g⟩ := load_full h hn (by omega) hmap hbl hlim
          cases e.symm.trans e'
          refine ⟨⟨g.frame, sin, by rw [g.nodes, hn]⟩, fun c hc => ?_⟩
          cases hc
    · have hu := h.inUse_data hn hmap
      rcases lt_or_ge k sin.din.blocks with hk | hk
      · have e' := load_mapped h.toMounted hn hu (fun h0 => (h.inUse_indirect hn h0).lt) hk
        cases e.symm.trans e'
        refine ⟨⟨.refl h, sin, hn⟩, fun c hc => ?_⟩
        cases hc
        exact ⟨rfl, hmap⟩
      · -- the block behind the last one is there already
        have hbl : sin.din.blocks = k := by omega
        subst hbl
        cases e.symm.trans (load_remap h hn hmap)
        obtain ⟨hf, hb⟩ := frame_modSin (f := fun sin => sin.setBlocks (sin.din.blocks + 1)) h hn
          rfl rfl
        refine ⟨⟨hf, _, modSin_nodes_self hn⟩, fun c hc => ?_⟩
        cases hc
        exact ⟨hb _, hmap⟩

/-- **Truncating by one block**: whatever the block map is like, the volume stays sound. -/
lemma truncate_keepsOwners : Within (KeepsOwners I i) (sfsBmapTruncateNolock i) := by
  intro s r t e sin h hn
  cases hbl : sin.din.blocks with
  | zero =>
    rw [sfsBmapTruncateNolock, bind_of_ok (getSin_apply hn), ensure_bind_apply,
      if_neg (by simp [hbl])] at e
    cases e
  | succ k =>
    by_cases hmap : s.bmapAt i k = 0
    · rw [truncate_hole h hn hbl hmap] at e
      cases e
      obtain ⟨hf, -⟩ := frame_modSin
        (f := fun sin => (sin.setBlocks (sin.din.blocks - 1)).setDirty) h hn rfl rfl
      exact ⟨hf, _, modSin_nodes_self hn⟩
    · obtain ⟨u, e', g⟩ := truncate_apply h hn hbl hmap
      cases e.symm.trans e'
      obtain ⟨sin', hn', -⟩ := g.node sin hn
      exact ⟨g.frame, sin', hn'⟩

end Load

/-! ## Reading and writing -/

section Io

variable {i b off pos len : ℕ} {buf : Bytes}

section

variable {k : ℕ} (write : Bool) (h : Sound I s) (hn : s.nodes i = some sin) (hb : s.bmapAt i k = b)
  (hb0 : b ≠ 0)
include write h hn hb hb0

lemma xferFs_frame (off : ℕ) (buf : Bytes) (pos len : ℕ) :
    Frame I i s (xferFs write s b off buf pos len) ∧
      ∃ sin', (xferFs write s b off buf pos len).nodes i = some sin' := by
  subst hb
  cases write
  · exact ⟨.refl h, sin, hn⟩
  · exact ⟨(frame_writeData h (h.cached i sin hn) hb0).1, sin, hn⟩

/-- `sfs_buf_op` on a block of the file. If the part is not inside the block, an assertion fails. -/
lemma sfsBufOp_frame : Post (sfsBufOp write buf pos len b off) s fun _ t =>
      Frame I i s t ∧ ∃ sin', t.nodes i = some sin' := by
  intro r t e
  have hlt : b < s.super.blocks := hb ▸ (h.inUse_data hn (hb ▸ hb0)).lt
  by_cases hfit : off < blkSize ∧ off + len ≤ blkSize
  · rw [sfsBufOp_apply write h.toMounted hb0 hlt hfit.1 hfit.2] at e
    cases e
    exact xferFs_frame write h hn hb hb0 off buf pos len
  · cases write
    · rw [sfsBufOp, if_neg (by decide), sfsRbuf, ensure_bind_apply, if_neg hfit] at e
      cases e
    · rw [sfsBufOp, if_pos rfl, sfsWbuf, ensure_bind_apply, if_neg hfit] at e
      cases e

/-- `sfs_block_op` on a block of the file. -/
lemma sfsBlockOp_frame : Post (sfsBlockOp write buf pos b 1) s fun _ t =>
      Frame I i s t ∧ ∃ sin', t.nodes i = some sin' := by
  intro r t e
  have hlt : b < s.super.blocks := hb ▸ (h.inUse_data hn (hb ▸ hb0)).lt
  rw [sfsBlockOp_apply write h.toMounted hb0 hlt] at e
  cases e
  exact xferFs_frame write h hn hb hb0 0 buf pos blkSize

end

/-- One piece of a transfer. -/
lemma ioPiece_keepsOwners (v : IoVars) {op : ℕ → Sfs (Except Errno Bytes)} (next : Bytes → IoVars)
    (hop : ∀ (b : ℕ) (s : SfsFs) (sin : SfsInode), Sound I s → s.nodes i = some sin →
      s.bmapAt i v.blkno = b → b ≠ 0 →
      Post (op b) s fun _ t => Frame I i s t ∧ ∃ sin', t.nodes i = some sin') :
    Within (KeepsOwners I i) (ioPiece i v op next) := by
  intro s r t e sin h hn
  have hpost : Post (ioPiece i v op next) s fun _ t => Frame I i s t ∧
      ∃ sin', t.nodes i = some sin' := by
    refine (load_keepsOwners h hn v.blkno).bind fun found t => ?_
    rintro ⟨⟨x, sin', hn'⟩, hfound⟩
    cases found with
    | error ret => exact .pure ⟨x, sin', hn'⟩
    | ok b =>
      obtain ⟨hb, hb0⟩ := hfound b rfl
      refine (hop b t sin' x.sound hn' hb hb0).bind fun done u => ?_
      rintro ⟨y, hu⟩
      cases done <;> exact .pure ⟨x.trans y, hu⟩
  exact hpost r t e

lemma fileFrame_keepsOwners : FileFrame i (KeepsOwners I i) where
  load k _ r t e _ h hn := (load_keepsOwners h hn k r t e).1
  buf write v _ _ next := ioPiece_keepsOwners v next fun _ _ _ h hn hb hb0 =>
    sfsBufOp_frame write h hn hb hb0
  block write v next := ioPiece_keepsOwners v next fun _ _ _ h hn hb hb0 =>
    sfsBlockOp_frame write h hn hb hb0
  truncate := truncate_keepsOwners
  size _ := .modify fun _ _ h hn => ⟨(frame_modSin h hn rfl rfl).1, _, modSin_nodes_self hn⟩

end Io

/-! ## Runs -/

/-- **One call** keeps the volume sound and loses no block. -/
lemma FileOp.run_keepsOwners (op : FileOp) : Within (KeepsOwners I op.ino) op.run :=
  op.run_within fileFrame_keepsOwners

/-- **All runs** keep the volume sound and lose no block. -/
lemma FileReach.sound {C : SfsFs → FileOp → Prop} {I : Finset ℕ} {s t : SfsFs}
    (hr : FileReach C s t) (h : Sound I s) : Sound I t ∧ t.lost I = s.lost I := by
  induction hr with
  | refl => exact ⟨h, rfl⟩
  | tail _ hstep ih =>
    obtain ⟨op, ret, ⟨⟨sin, hn, -⟩, -⟩, -, e⟩ := hstep
    obtain ⟨x, -⟩ := op.run_keepsOwners _ ret _ e sin ih.1 hn
    exact ⟨x.sound, x.lost.trans ih.2⟩

/-- **Block ownership.** After every sequence of reads, writes, truncations and seeks on the regular
files of a sound volume: the number of unused blocks is the number of free bits of the freemap;
every block that an inode refers to is marked in use; no block is referred to twice; and a block
that is marked in use without being referred to was so before. -/
theorem block_ownership {I : Finset ℕ} {s t : SfsFs} (h : Sound I s)
    (hr : FileReach (fun _ _ => True) s t) :
    t.super.unusedBlocks = t.freemap.free.card ∧
    (∀ x, t.ref I x ≠ 0 → InUse t (t.ref I x)) ∧
    (∀ x y, t.ref I x ≠ 0 → t.ref I x = t.ref I y → x = y) ∧
    ∀ b, b ≠ 0 → b ∉ t.freemap.free → (∀ x, t.ref I x ≠ b) →
      b ∉ s.freemap.free ∧ ∀ x, s.ref I x ≠ b := by
  obtain ⟨ht, hlost⟩ := hr.sound h
  refine ⟨ht.unused, fun x hx => ht.inUse hx, ht.owning.inj, fun b h0 h1 h2 => ?_⟩
  have hb : b ∈ t.lost I := ⟨h0, h1, h2⟩
  rw [hlost] at hb
  exact ⟨hb.2.1, hb.2.2⟩

/-- Truncating a file of one block to nothing gives its block back. -/
theorem block_ownership_after_truncate :
    let s := oneFile 0xFFFFFFF0#32 (directFile 1 4096)
    ∃ t, FileReach (fun _ _ => True) s t ∧ (t.dinOf 2).blocks = 0 ∧
      t.super.unusedBlocks = t.freemap.free.card := by
  obtain ⟨t, hr, -, -, hbl, -⟩ := truncate_oneBlock (C := fun _ _ => True) trivial
  exact ⟨t, hr, hbl, (block_ownership oneBlock_sound hr).1⟩

end Ucore

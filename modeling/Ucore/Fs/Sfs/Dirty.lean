import Ucore.Fs.Sfs.Noted

set_option autoImplicit false

/-!
# The dirty flag of an inode

`sfs_fsync` writes an inode to its block if the dirty flag is set, and `sfs_close` and `sfs_reclaim`
rely on it. So the flag has to be set whenever the cached inode differs from the copy in its block.
Reads, writes, truncations and seeks respect this as long as a clean inode whose pointers are all
set does not get a block without getting another size: `sfs_bmap_load_nolock` raises the number of
blocks, but leaves the flag to others.

## Main definitions

* `Backed` — the cached inodes that are not dirty are as on the disk.
* `InodeOp`, `InodeReach` — the calls, with `sfs_fsync`, and the states they reach.
* `FileOp.Noticed` — the calls that do not add blocks behind the flag's back.

## Main results

* `FileOp.run_backed_iff` — what one call does to the flag.
* `dirty_flag_sound` — all runs.
* `dirty_flag_lost` — a truncation that fails because the disk is full.
-/

namespace Ucore

open Comp

/-- **The dirty flags are right**: a cached inode that differs from the copy in its block is
dirty. -/
def Backed (s : SfsFs) : Prop :=
  ∀ i sin, s.nodes i = some sin → decodeInode (s.disk i) ≠ sin.din → sin.dirty = true

/-- The values of all cached inodes fit into their fields. -/
def NodesFit (s : SfsFs) : Prop := ∀ i sin, s.nodes i = some sin → sin.din.Fits

lemma Backed.din_eq {s : SfsFs} {i : ℕ} {sin : SfsInode} (h : Backed s) (hn : s.nodes i = some sin)
    (hc : sin.dirty = false) : decodeInode (s.disk i) = sin.din := by
  by_contra hne
  rw [h i sin hn hne] at hc
  cases hc

/-! ## Writing an inode back -/

/-- The volume after the dirty inode `i` has been written. -/
def SfsFs.flushed (s : SfsFs) (i : ℕ) (sin : SfsInode) : SfsFs :=
  if sin.dirty then
    (s.modSin i (·.clearDirty)).writeDisk i 0 (encodeInode sin.din) 0 diskInodeSize
  else s

variable {I : Finset ℕ} {s t : SfsFs}

section Fsync

variable {i j : ℕ} {sin : SfsInode}

lemma Sound.inode_lt (h : Sound I s) (hi : i ∈ I) : i < s.super.blocks := by
  have := h.range (.inode i)
  rwa [ref_inode hi] at this

/-- **`sfs_fsync`** writes a dirty inode. -/
lemma sfsFsync_apply (h : Sound I s) (h0 : 0 ∉ I) (hn : s.nodes i = some sin) :
    sfsFsync i s = .ok (.ok (), s.flushed i sin) := by
  have hi := h.cached i sin hn
  have hne : i ≠ 0 := fun e => h0 (e ▸ hi)
  rw [sfsFsync, bind_of_ok (getSin_apply hn), SfsFs.flushed]
  cases hd : sin.dirty with
  | false => rfl
  | true =>
    have hm : Mounted (s.modSin i (·.clearDirty)) := h.toMounted.modSin
    have hw : sfsWbuf (encodeInode sin.din) 0 diskInodeSize i 0 (s.modSin i (·.clearDirty)) =
        .ok (.ok (encodeInode sin.din),
          (s.modSin i (·.clearDirty)).writeDisk i 0 (encodeInode sin.din) 0 diskInodeSize) :=
      sfsWbuf_apply hm hne (h.inode_lt hi) (by decide) (by decide)
    rw [if_pos rfl, if_pos rfl, modify_bind_apply, bind_of_ok hw]
    rfl

lemma flushed_node (hn : s.nodes i = some sin) :
    (s.flushed i sin).nodes i = some sin.clearDirty := by
  unfold SfsFs.flushed
  cases hd : sin.dirty with
  | false =>
    rw [if_neg (by decide), hn, SfsInode.clearDirty, ← hd]
  | true =>
    rw [if_pos rfl]
    exact modSin_nodes_self hn

lemma flushed_nodes_of_ne (hj : j ≠ i) : (s.flushed i sin).nodes j = s.nodes j := by
  unfold SfsFs.flushed
  split_ifs
  · exact modSin_nodes_of_ne hj
  · rfl

lemma flushed_disk_of_ne (hj : j ≠ i) : (s.flushed i sin).disk j = s.disk j := by
  unfold SfsFs.flushed
  split_ifs
  · exact writeDisk_disk_of_ne hj
  · rfl

/-- The copy on the disk is the inode then. -/
lemma flushed_decode (hb : sin.dirty = false → decodeInode (s.disk i) = sin.din)
    (hf : sin.din.Fits) : decodeInode ((s.flushed i sin).disk i) = sin.din := by
  unfold SfsFs.flushed
  cases hd : sin.dirty with
  | false => exact hb hd
  | true =>
    rw [if_pos rfl, writeDisk_disk_self, ← decodeInode_encodeInode hf]
    refine decodeInode_congr fun k hk => ?_
    rw [Bytes.copy_of_mem _ _ (Nat.zero_le k) (by omega), decodeInode_encodeInode hf]
    congr 1
    omega

lemma flushed_dinOf (hn : s.nodes i = some sin) (j : ℕ) :
    (s.flushed i sin).dinOf j = s.dinOf j := by
  by_cases hj : j = i
  · subst hj
    rw [dinOf_of_node (flushed_node hn), dinOf_of_node hn]
    rfl
  · exact dinOf_congr (flushed_nodes_of_ne hj) fun _ => flushed_disk_of_ne hj

/-- **Writing an inode back** keeps the volume sound, and its block maps. -/
lemma flushed_sound (h : Sound I s) (hn : s.nodes i = some sin) :
    Sound I (s.flushed i sin) ∧ (s.flushed i sin).ref I = s.ref I := by
  have hi := h.cached i sin hn
  have href : (s.flushed i sin).ref I = s.ref I := by
    refine ref_congr (fun j _ => flushed_dinOf hn j) fun j hj hne => flushed_disk_of_ne fun e => ?_
    -- an indirect block is not an inode
    have hx : Slot.indirect j = Slot.inode i :=
      h.owning.inj _ _ (by rwa [ref_indirect hj]) (by rw [ref_indirect hj, ref_inode hi, e])
    cases hx
  have hm : Mounted (s.flushed i sin) ∧ (s.flushed i sin).freemap = s.freemap ∧
      (s.flushed i sin).super = s.super := by
    unfold SfsFs.flushed
    split_ifs
    · exact ⟨h.toMounted.modSin.writeDisk, rfl, rfl⟩
    · exact ⟨h.toMounted, rfl, rfl⟩
  refine ⟨(h.of_ref_eq hm.1 (by rw [hm.2.1]) href hm.2.2 fun j sin' hj => ?_).1, href⟩
  by_cases hji : j = i
  · rwa [hji]
  · rw [flushed_nodes_of_ne hji] at hj
    exact h.cached j sin' hj

/-- The same disk inodes and block maps are in order in the same way. -/
lemma FilesMapped.congr {t : SfsFs} (hm : FilesMapped I s) (hdin : ∀ j ∈ I, t.dinOf j = s.dinOf j)
    (href : t.ref I = s.ref I) : FilesMapped I t := by
  intro j hj ht
  have hb := bmapAt_of_ref hj href
  rw [hdin j hj] at ht
  obtain ⟨h1, h2⟩ := hm j hj ht
  refine ⟨fun k hk => ?_, fun k hk => ?_⟩ <;> rw [hdin j hj] at hk <;> rw [hb]
  · exact h1 k hk
  · exact h2 k hk

lemma flushed_filesMapped (h : Sound I s) (hn : s.nodes i = some sin) (hm : FilesMapped I s) :
    FilesMapped I (s.flushed i sin) :=
  hm.congr (fun j _ => flushed_dinOf hn j) (flushed_sound h hn).2

lemma flushed_nodesFit (hn : s.nodes i = some sin) (hf : NodesFit s) :
    NodesFit (s.flushed i sin) := by
  intro j sin' hj
  by_cases hji : j = i
  · subst hji
    cases (flushed_node hn).symm.trans hj
    exact hf j sin hn
  · rw [flushed_nodes_of_ne hji] at hj
    exact hf j sin' hj

lemma flushed_backed (hb : Backed s) (hn : s.nodes i = some sin) (hf : sin.din.Fits) :
    Backed (s.flushed i sin) := by
  intro j sin' hj hne
  by_cases hji : j = i
  · subst hji
    cases (flushed_node hn).symm.trans hj
    exact absurd (flushed_decode (hb.din_eq hn) hf) hne
  · rw [flushed_nodes_of_ne hji] at hj
    rw [flushed_disk_of_ne hji] at hne
    exact hb j sin' hj hne

/-- The volume after the inode `i` has been dropped from memory. -/
def SfsFs.dropped (s : SfsFs) (i : ℕ) : SfsFs := { s with nodes := Function.update s.nodes i none }

/-- `sin->reclaim_count --` -/
def SfsInode.reclaimDec (sin : SfsInode) :
    SfsInode := { sin with reclaimCount := sin.reclaimCount - 1 }

/-- **`sfs_reclaim`** of an inode that nobody uses any more and that has links. -/
lemma sfsReclaim_apply (h : Sound I s) (h0 : 0 ∉ I) (hn : s.nodes i = some sin)
    (hc : sin.reclaimCount = 1) (hr : sin.refCount = 0) (hl : sin.din.nlinks ≠ 0) :
    sfsReclaim i s =
      .ok (.ok (), ((s.modSin i (·.reclaimDec)).flushed i sin.reclaimDec).dropped i) := by
  have hn' : (s.modSin i (·.reclaimDec)).nodes i = some sin.reclaimDec := modSin_nodes_self hn
  have hs : Sound I (s.modSin i (·.reclaimDec)) := (frame_modSin h hn rfl rfl).1.sound
  have hflush : (if sin.reclaimDec.dirty then sfsFsync i else pure (.ok ()))
    (s.modSin i (·.reclaimDec)) =
      .ok (.ok (), (s.modSin i (·.reclaimDec)).flushed i sin.reclaimDec) := by
    cases hd : sin.reclaimDec.dirty with
    | false => simp [SfsFs.flushed, hd]
    | true => exact sfsFsync_apply hs h0 hn'
  rw [sfsReclaim, bind_of_ok (getSin_apply hn), ensure_bind_apply, if_pos (by omega),
    modify_bind_apply, if_neg (by omega), if_neg hl]
  change (getSin i >>= _) (s.modSin i (·.reclaimDec)) = _
  rw [bind_of_ok (getSin_apply hn'), andThen_of_ok hflush, modify_bind_apply]
  change (if sin.din.nlinks = 0 then _ else _ : Sfs (Except Errno Unit)) _ = _
  rw [if_neg hl]
  rfl

end Fsync

/-! ## The calls that are noticed -/

/-- A transfer of `[off, e)` that is noticed if all pointers are set: the file has all blocks that
it is to get, or its size is raised. If the file cannot have the blocks that are needed, it is to
get all that it can have. -/
def TransferTold (s : SfsFs) (i off e : ℕ) : Prop :=
  if topBlock off (e - off) ≤ cap s i then
    topBlock off (e - off) ≤ (s.dinOf i).blocks ∨
      (s.dinOf i).size < tailStart off e + (e - off)
  else cap s i ≤ (s.dinOf i).blocks ∨
    (s.dinOf i).size < cap s i * blkSize + (cap s i * blkSize - off)

/-- The calls that are noticed if all pointers are set. A truncation is noticed if the file can have
the blocks that are needed, or cannot get any block. -/
def FileOp.Told (s : SfsFs) : FileOp → Prop
  | .read i iob => IoActive false (s.dinOf i).size iob.ioOffset iob.ioResid →
      TransferTold s i iob.ioOffset.toNat
        (ioEnd false (s.dinOf i).size iob.ioOffset.toNat iob.ioResid)
  | .write i iob => IoActive true (s.dinOf i).size iob.ioOffset iob.ioResid →
      TransferTold s i iob.ioOffset.toNat
        (ioEnd true (s.dinOf i).size iob.ioOffset.toNat iob.ioResid)
  | .truncate i len => TruncFits s i len
  | .seek i pos => (s.dinOf i).size < pos → pos < maxFileSize → TruncFits s i pos

/-- **The calls that are noticed**: the inode is dirty already, or has a pointer that is not set, or
the file does not get a block without getting another size. -/
def FileOp.Noticed (s : SfsFs) (op : FileOp) : Prop :=
  ∀ sin, s.nodes op.ino = some sin → sin.dirty = false → sin.Full → op.Told s

section Told

variable {i off e len : ℕ} {write : Bool} {offset : ℤ}

/-- What a shape of the file `i` tells: if the size is the one before, so is the number of
blocks. -/
def Shape.Tells (s : SfsFs) (i : ℕ) (sh : Shape) : Prop :=
  sh.1 = (s.dinOf i).size → sh.2 = (s.dinOf i).blocks

lemma topBlock_stopped {c : ℕ} (h : off < c * blkSize) : topBlock off (c * blkSize - off) = c := by
  rw [topBlock, if_neg (by omega)]
  unfold blkSize at *
  omega

/-- The shape after a transfer. -/
lemma transferShape_tells (hm : Mapped s i) (hoff : off / blkSize ≤ (s.dinOf i).blocks)
    (hlt : off < e) : (transferShape s i off e).Tells s i ↔ TransferTold s i off e := by
  have hcap := hm.blocks_le_cap
  unfold transferShape TransferTold Shape.Tells
  by_cases hc : topBlock off (e - off) ≤ cap s i
  · rw [if_pos hc, if_pos hc]
    omega
  · rw [if_neg hc, if_neg hc]
    dsimp only
    rcases lt_or_ge off (cap s i * blkSize) with hlt' | hge
    · rw [topBlock_stopped hlt']
      omega
    · -- the transfer starts behind the blocks that the file can have: it has them all
      have hle : cap s i ≤ (s.dinOf i).blocks := by
        have : cap s i ≤ off / blkSize := (Nat.le_div_iff_mul_le (by decide)).mpr hge
        omega
      have h0 : cap s i * blkSize - off = 0 := by omega
      rw [h0, topBlock, if_pos rfl]
      omega

lemma ioShape_tells (hm : Mapped s i) (hs : IoSafe write s i offset len) :
    (ioShape write s i offset len).Tells s i ↔ (IoActive write (s.dinOf i).size offset len →
      TransferTold s i offset.toNat (ioEnd write (s.dinOf i).size offset.toNat len)) := by
  exact ite_iff_imp (fun _ => rfl) fun ha => transferShape_tells hm (hs ha).1 ha.lt_ioEnd

lemma truncShape_tells (len : ℤ) : (truncShape s i len).Tells s i ↔ TruncFits s i len := by
  rw [TruncFits, ← and_imp, ← and_imp, and_assoc]
  refine ite_iff_imp (fun _ => rfl) fun hc => ?_
  by_cases htop : blocksFor len.toNat ≤ cap s i
  · rw [if_pos htop]
    exact iff_of_true (fun h => absurd h.symm hc.2.2) (.inl htop)
  · rw [if_neg htop]
    simp only [Shape.Tells, htop, false_or, forall_const]
    exact eq_comm

/-- **The shape after a safe call** tells that the file has been enlarged iff the call does. -/
lemma FileOp.shapeAfter_tells {op : FileOp} (hm : Mapped s op.ino) (hs : op.Safe s) :
    (op.shapeAfter s).Tells s op.ino ↔ op.Told s := by
  cases op with
  | read i iob | write i iob => exact ioShape_tells hm hs
  | truncate i len => exact truncShape_tells len
  | seek i pos =>
    rw [FileOp.Told, ← and_imp]
    exact ite_iff_imp (fun _ => rfl) fun _ => truncShape_tells pos

lemma truncShape_blocks (hm : Mapped s i) (len : ℤ)
    (h : (truncShape s i len).1 = (s.dinOf i).size) :
    (s.dinOf i).blocks ≤ (truncShape s i len).2 := by
  have hcap := hm.blocks_le_cap
  unfold truncShape at *
  split_ifs at * with h1 h2
  · exact absurd h.symm h1.2.2
  · exact hcap
  · exact le_rfl

lemma ioShape_blocks : (s.dinOf i).blocks ≤ (ioShape write s i offset len).2 := by
  unfold ioShape transferShape
  split_ifs
  · exact le_max_left _ _
  · exact le_max_left _ _
  · exact le_rfl

/-- A call that leaves the size takes no blocks. -/
lemma FileOp.shapeAfter_blocks {op : FileOp} (hm : Mapped s op.ino)
    (h : (op.shapeAfter s).1 = (s.dinOf op.ino).size) :
    (s.dinOf op.ino).blocks ≤ (op.shapeAfter s).2 := by
  cases op with
  | read i iob | write i iob => exact ioShape_blocks
  | truncate i len => exact truncShape_blocks hm len h
  | seek i pos =>
    simp only [FileOp.shapeAfter, FileOp.ino] at *
    split_ifs at * with hc
    · exact truncShape_blocks hm pos h
    · exact le_rfl

/-- The sizes of files stay below twice the maximal size, or as they are. -/
lemma FileOp.shapeAfter_size {op : FileOp} :
    (op.shapeAfter s).1 ≤ max (s.dinOf op.ino).size (2 * maxFileSize) := by
  have htrunc : ∀ i len, (truncShape s i len).1 ≤ max (s.dinOf i).size (2 * maxFileSize) := by
    intro i len
    unfold truncShape
    split_ifs with h1 h2
    · omega
    · exact le_max_left _ _
    · exact le_max_left _ _
  have hio : ∀ write i offset len,
      (ioShape write s i offset len).1 ≤ max (s.dinOf i).size (2 * maxFileSize) := by
    intro write i offset len
    unfold ioShape
    by_cases ha : IoActive write (s.dinOf i).size offset len
    · have hlt := ha.lt_ioEnd
      have hend : ioEnd write (s.dinOf i).size offset.toNat len ≤ maxFileSize := by
        unfold ioEnd
        split_ifs <;> omega
      rw [if_pos ha]
      generalize ioEnd write (s.dinOf i).size offset.toNat len = e at *
      generalize offset.toNat = off at *
      unfold transferShape
      split_ifs with hc
      · have hts : tailStart off e ≤ e := by
          unfold tailStart
          split_ifs
          · exact le_rfl
          · exact Nat.div_mul_le_self e blkSize
        omega
      · have := stopped_le hlt (show cap s i < _ by omega)
        change max _ _ ≤ _
        omega
    · rw [if_neg ha]
      exact le_max_left _ _
  cases op with
  | read i iob | write i iob => exact hio ..
  | truncate i len => exact htrunc i len
  | seek i pos =>
    simp only [FileOp.shapeAfter, FileOp.ino]
    split_ifs
    · exact htrunc i pos
    · exact le_max_left _ _

end Told

/-! ## One call -/

section Call

variable {i : ℕ} {sin sin' : SfsInode} {op : FileOp} {ret : Except Errno Unit}

/-- A file that has more blocks with the same pointers: all pointers are set. -/
lemma Mapped.full_of_lt (hm : Mapped s i) (hm' : Mapped t i) (hn : s.nodes i = some sin)
    (hn' : t.nodes i = some sin') (hsb : SameBut sin sin')
    (hlt : sin.din.blocks < sin'.din.blocks) : sin.Full := by
  have hdir : sin'.din.direct = sin.din.direct := by rw [hsb.din]
  have hind : sin'.din.indirect = sin.din.indirect := by rw [hsb.din]
  have hnext : t.bmapAt i sin.din.blocks ≠ 0 := hm'.mapped _ (by rwa [dinOf_of_node hn'])
  rw [bmapAt_of_node hn'] at hnext
  have hge : ¬sin.din.blocks < nDirect := by
    intro hlt'
    -- the pointer to the next block was not set
    have h0 := hm.unmapped sin.din.blocks (by rw [dinOf_of_node hn])
    rw [bmapAt_of_node hn, mapAt_direct hlt'] at h0
    rw [mapAt_direct hlt', hdir] at hnext
    exact hnext h0
  refine ⟨fun k => ?_, ?_⟩
  · have hk := hm.mapped k.val (by rw [dinOf_of_node hn]; have := k.isLt; omega)
    rwa [bmapAt_of_node hn, mapAt_direct k.isLt] at hk
  · have := (indirect_ne_zero_of_mapAt hnext hge).2
    rwa [hind] at this

/-- A truncation that leaves the size adds blocks at most. -/
lemma sfsTruncfile_enlarged (h : Sound I s) (hm : Mapped s i) (hn : s.nodes i = some sin) {len : ℤ}
    (e : sfsTruncfile i len s = .ok (ret, t)) (hsize : (t.dinOf i).size = sin.din.size) :
    NodeRel i Enlarged s t := by
  by_cases hc : len < 0 ∨ (maxFileSize : ℤ) < len
  · rw [truncfile_inval hc] at e
    cases e
    exact Std.Refl.refl s
  · obtain ⟨n, rfl⟩ : ∃ n : ℕ, len = n := ⟨len.toNat, by omega⟩
    have hle : n ≤ maxFileSize := by omega
    by_cases hs : sin.din.size = n
    · rw [truncfile_same hn hle hs] at e
      split_ifs at e
      cases e
      exact Std.Refl.refl s
    · rcases lt_or_ge (cap s i) (blocksFor n) with hcap | hcap
      · -- the disk is full before the file has the blocks
        obtain ⟨heq, -⟩ := truncfile_grows hm hn hle hs hcap
        rw [heq] at e
        obtain ⟨r, u, e', er⟩ := bind_eq_ok.mp e
        have hu := ioFrame_enlarged.growFile _ _ s r u e'
        rcases growFile_spec (blocksFor n - sin.din.blocks) h hm hn with
          ⟨h1, -⟩ | ⟨-, -, v, e'', -⟩ | ⟨-, -, p, -, e''⟩
        · omega
        · cases e'.symm.trans e''
          cases er
          exact hu
        · cases e'.symm.trans e''
      · obtain ⟨u, e', x⟩ := truncfile_ok h hm hn hle hs hcap
        cases e.symm.trans e'
        exact absurd (hsize.symm.trans (x.setSize hn n).2.2.2.1) hs

/-- **A call that leaves the size** of a file whose pointers are all set changes nothing else in the
inode than the number of blocks, not even the flag. -/
lemma FileOp.run_sameBut (h : Sound I s) (hm : Mapped s op.ino) (hn : s.nodes op.ino = some sin)
    (hf : sin.Full) (e : op.run s = .ok (ret, t)) (hsize : (t.dinOf op.ino).size = sin.din.size) :
    ∃ sin', t.nodes op.ino = some sin' ∧ SameBut sin sin' := by
  have hof : ∀ {i : ℕ}, s.nodes i = some sin → NodeRel i Enlarged s t →
      ∃ sin', t.nodes i = some sin' ∧ SameBut sin sin' := by
    intro i hn hr
    obtain ⟨sin', hn', hE⟩ := hr sin hn
    exact ⟨sin', hn', hE.full hf⟩
  have hio : ∀ {write : Bool} {i : ℕ} {iob : Iobuf} {r : Iobuf × Except Errno Unit},
      s.nodes i = some sin → sfsIo write i iob s = .ok (r, t) →
      (t.dinOf i).size = sin.din.size → ∃ sin', t.nodes i = some sin' ∧ SameBut sin sin' := by
    intro write i iob r hn e hsize
    obtain ⟨u, g, hu, rfl⟩ := sfsIo_enlarged write iob r t e
    obtain ⟨sin', hn', hE⟩ := hu sin hn
    rw [raiseSize_size hn', dinOf_of_node hn', hE.size] at hsize
    rw [raiseSize_of_le (by rw [dinOf_of_node hn', hE.size]; omega)]
    exact ⟨sin', hn', hE.full hf⟩
  cases op with
  | read i iob =>
    obtain ⟨r, u, e', er⟩ := bind_eq_ok.mp e
    cases er
    exact hio hn e' hsize
  | write i iob =>
    obtain ⟨r, u, e', er⟩ := bind_eq_ok.mp e
    cases er
    exact hio hn e' hsize
  | truncate i len => exact hof hn (sfsTruncfile_enlarged h hm hn e hsize)
  | seek i pos =>
    rcases sfsTryseek_eq hn pos with ⟨-, -, e'⟩ | ⟨-, r, e'⟩
    · exact hof hn (sfsTruncfile_enlarged h hm hn (e'.symm.trans e) hsize)
    · cases e.symm.trans e'
      exact ⟨sin, hn, SameBut.refl sin⟩

/-- **The flag after a call** is set or the number of blocks is as before iff the call is
noticed. -/
lemma FileOp.noticed_iff (h : Sound I s) (hm : FilesMapped I s) (hl : op.Legit s)
    (e : op.run s = .ok (ret, t)) (hn : s.nodes op.ino = some sin)
    (hn' : t.nodes op.ino = some sin') :
    (sin'.dirty = true ∨ sin'.din.blocks = sin.din.blocks) ↔ op.Noticed s := by
  obtain ⟨hi, ht⟩ := hl.mem h
  have hmi := hm _ hi ht
  obtain ⟨hs, x⟩ := FileOp.run_ok h hm hl e
  have htold := FileOp.shapeAfter_tells hmi hs
  have hmono := FileOp.shapeAfter_blocks hmi
  rw [← x.shape] at htold hmono
  rw [Shape.Tells] at htold
  simp only [SfsFs.shape, dinOf_of_node hn, dinOf_of_node hn'] at htold hmono
  constructor
  · -- a call that is not noticed adds blocks and leaves the flag
    intro hor sin₀ hn₀ hc hf
    cases hn.symm.trans hn₀
    refine htold.mp fun hsize => ?_
    rcases hor with hd | hb
    · obtain ⟨sin₁, hn₁, hsb⟩ := op.run_sameBut h hmi hn hf e (by rw [dinOf_of_node hn', hsize])
      cases hn'.symm.trans hn₁
      rw [hsb.dirty, hc] at hd
      cases hd
    · exact hb
  · intro hnot
    obtain ⟨sin₁, hn₁, hN⟩ := op.run_noted s ret t e sin hn
    cases hn'.symm.trans hn₁
    rcases hN.noted with hd | hsb
    · exact .inl hd
    · cases hc : sin.dirty with
      | true => exact .inl (hsb.dirty.trans hc)
      | false =>
        right
        have hsize : sin'.din.size = sin.din.size := by rw [hsb.din]
        rcases (hmono hsize).lt_or_eq with hlt | heq
        · exact htold.mpr (hnot sin hn hc (hmi.full_of_lt x.mapped hn hn' hsb hlt)) hsize
        · exact heq.symm

/-- **One call** keeps the dirty flags right iff it is noticed. -/
lemma FileOp.run_backed_iff (h : Sound I s) (hm : FilesMapped I s) (hb : Backed s) (hl : op.Legit s)
    (e : op.run s = .ok (ret, t)) : Backed t ↔ op.Noticed s := by
  obtain ⟨hi, -⟩ := hl.mem h
  obtain ⟨-, x⟩ := FileOp.run_ok h hm hl e
  obtain ⟨⟨sin, hn, -⟩, -⟩ := id hl
  obtain ⟨sin', hn', hN⟩ := op.run_noted s ret t e sin hn
  rw [← FileOp.noticed_iff h hm hl e hn hn']
  have hdisk := x.frame.inodes _ hi
  constructor
  · intro hbt
    rcases hN.noted with hd | hsb
    · exact .inl hd
    · cases hc : sin'.dirty with
      | true => exact .inl rfl
      | false =>
        right
        rw [← hbt.din_eq hn' hc, ← hb.din_eq hn (hsb.dirty.symm.trans hc), hdisk]
  · intro hor j sin₁ hj hne
    by_cases hji : j = op.ino
    · subst hji
      cases hn'.symm.trans hj
      rcases hor with hd | hbl
      · exact hd
      · rcases hN.noted with hd | hsb
        · exact hd
        · have hdin : sin'.din = sin.din := by rw [hsb.din, hbl]
          rw [hdisk, hdin] at hne
          rw [hsb.dirty]
          exact hb _ sin hn hne
    · rw [x.frame.nodes j hji] at hj
      rw [x.frame.inodes j (h.cached j sin₁ hj)] at hne
      exact hb j sin₁ hj hne

/-- A call keeps the values inside their fields. -/
lemma FileOp.run_nodesFit (h : Sound I s) (hm : FilesMapped I s) (hf : NodesFit s) (hl : op.Legit s)
    (e : op.run s = .ok (ret, t)) : NodesFit t := by
  obtain ⟨hi, -⟩ := hl.mem h
  obtain ⟨-, x⟩ := FileOp.run_ok h hm hl e
  intro j sin₁ hj
  by_cases hji : j = op.ino
  · subst hji
    obtain ⟨⟨sin, hn, -⟩, -⟩ := id hl
    obtain ⟨sin', hn', hN⟩ := op.run_noted s ret t e sin hn
    cases hn'.symm.trans hj
    have hfs := hf _ sin hn
    have hdin := dinOf_of_node hn'
    have hsize : sin₁.din.size ≤ max sin.din.size (2 * maxFileSize) := by
      rw [← hdin, ← dinOf_of_node hn]
      have hle : (op.shapeAfter s).1 ≤ max (s.dinOf op.ino).size (2 * maxFileSize) :=
        FileOp.shapeAfter_size
      rwa [← x.shape] at hle
    have hbl := x.mapped.blocks_le
    rw [hdin] at hbl
    have href : ∀ y, t.ref I y < 2 ^ 20 := fun y =>
      lt_of_lt_of_le (x.frame.sound.range y) x.frame.sound.blocks_le
    refine ⟨?_, by rw [hN.type]; exact hfs.type, by rw [hN.nlinks]; exact hfs.nlinks, ?_,
      fun k => ?_, ?_⟩
    · have := hfs.size
      have : maxFileSize = 134217728 := rfl
      omega
    · have : maxBlocks = 1036 := rfl
      omega
    · have := href (.data op.ino k.val)
      rw [ref_data hi, bmapAt_of_node hn', mapAt_direct k.isLt] at this
      exact this.trans (by decide)
    · have := href (.indirect op.ino)
      rw [ref_indirect hi, hdin] at this
      omega
  · rw [x.frame.nodes j hji] at hj
    exact hf j sin₁ hj

end Call

/-! ## Runs -/

/-- The calls on inodes. -/
inductive InodeOp
  | file (op : FileOp)
  | fsync (i : ℕ)

namespace InodeOp

/-- The return code of a call. -/
def run : InodeOp → Sfs (Except Errno Unit)
  | file op => op.run
  | fsync i => sfsFsync i

/-- Calls on files are made on regular files, and all calls on inodes that are cached. -/
def Legit (s : SfsFs) : InodeOp → Prop
  | file op => op.Legit s
  | fsync i => ∃ sin, s.nodes i = some sin

/-- The calls that are noticed. -/
def Noticed (s : SfsFs) : InodeOp → Prop
  | file op => op.Noticed s
  | fsync _ => True

end InodeOp

/-- The states reached from `s` by calls that return and satisfy `C`. -/
def InodeReach (C : SfsFs → InodeOp → Prop) : SfsFs → SfsFs → Prop :=
  Relation.ReflTransGen fun s t =>
    ∃ (op : InodeOp) (ret : Except Errno Unit), op.Legit s ∧ C s op ∧ op.run s = .ok (ret, t)

/-- A sound volume whose block maps are in order and whose dirty flags are right. -/
structure BackedVolume (I : Finset ℕ) (s : SfsFs) : Prop where
  sound : Sound I s
  mapped : FilesMapped I s
  fits : NodesFit s
  backed : Backed s

/-- **One step** of a run of calls that are noticed. -/
lemma BackedVolume.step (v : BackedVolume I s) (h0 : 0 ∉ I) {op : InodeOp}
    {ret : Except Errno Unit} (hl : op.Legit s) (hc : op.Noticed s) (e : op.run s = .ok (ret, t)) :
    BackedVolume I t := by
  cases op with
  | file op =>
    obtain ⟨-, x⟩ := FileOp.run_ok v.sound v.mapped hl e
    exact ⟨x.frame.sound, x.filesMapped v.mapped, FileOp.run_nodesFit v.sound v.mapped v.fits hl e,
      (FileOp.run_backed_iff v.sound v.mapped v.backed hl e).mpr hc⟩
  | fsync i =>
    obtain ⟨sin, hn⟩ := hl
    cases e.symm.trans (sfsFsync_apply v.sound h0 hn)
    exact ⟨(flushed_sound v.sound hn).1, flushed_filesMapped v.sound hn v.mapped,
      flushed_nodesFit hn v.fits, flushed_backed v.backed hn (v.fits i sin hn)⟩

/-- **All runs** of calls that are noticed. -/
lemma InodeReach.backed (hr : InodeReach (fun s op => op.Noticed s) s t) (h0 : 0 ∉ I)
    (v : BackedVolume I s) : BackedVolume I t := by
  induction hr with
  | refl => exact v
  | tail _ hstep ih =>
    obtain ⟨op, ret, hl, hc, e⟩ := hstep
    exact ih.step h0 hl hc e

/-- **The dirty flag.** From a sound volume whose block maps are in order and whose dirty flags are
right, every run of calls that are noticed keeps the flags right. In every state of such a run,
`sfs_fsync` and `sfs_close` leave the inode on the disk, and so does `sfs_reclaim` when it drops an
inode with links; and the next call on a file that returns keeps the flags right iff it is
noticed. -/
theorem dirty_flag_sound {I : Finset ℕ} {s t : SfsFs} (h0 : 0 ∉ I) (h : Sound I s)
    (hm : FilesMapped I s) (hf : NodesFit s) (hb : Backed s)
    (hr : InodeReach (fun s op => op.Noticed s) s t) :
    Backed t ∧
    (∀ i sin, t.nodes i = some sin →
      (∃ u, sfsFsync i t = .ok (.ok (), u) ∧ sfsClose i t = .ok (.ok (), u) ∧
        decodeInode (u.disk i) = sin.din) ∧
      (sin.reclaimCount = 1 → sin.refCount = 0 → sin.din.nlinks ≠ 0 →
        ∃ u, sfsReclaim i t = .ok (.ok (), u) ∧ u.nodes i = none ∧
          decodeInode (u.disk i) = sin.din)) ∧
    ∀ (op : FileOp) (ret : Except Errno Unit) (u : SfsFs), op.Legit t → op.run t = .ok (ret, u) →
      (Backed u ↔ op.Noticed t) := by
  have v := hr.backed h0 ⟨h, hm, hf, hb⟩
  refine ⟨v.backed, fun i sin hn => ⟨?_, fun hc hr hl => ?_⟩, fun op ret u hl e => ?_⟩
  · have e := sfsFsync_apply v.sound h0 hn
    exact ⟨_, e, e, flushed_decode (v.backed.din_eq hn) (v.fits i sin hn)⟩
  · have hclean := v.backed.din_eq hn
    have hdin : sin.reclaimDec.dirty = false →
        decodeInode ((t.modSin i (·.reclaimDec)).disk i) = sin.reclaimDec.din := hclean
    exact ⟨_, sfsReclaim_apply v.sound h0 hn hc hr hl, Function.update_self ..,
      flushed_decode hdin (v.fits i sin hn)⟩
  · exact FileOp.run_backed_iff v.sound v.mapped v.backed hl e

/-! ## A full disk -/

/-- A volume on which the blocks `15`, `16` and `17` are free, with a dirty file of 12 blocks. -/
def nearlyFull : SfsFs := (oneFile 0x38000#32 (directFile 12 49152)).modSin 2 (·.setDirty)

lemma nearlyFull_node : nearlyFull.nodes 2 = some ⟨directFile 12 49152, true, 1, 1, 1⟩ := rfl

lemma nearlyFull_volume : BackedVolume {2} nearlyFull := by
  have hs : Sound {2} (oneFile 0x38000#32 (directFile 12 49152)) :=
    directFile_sound (by decide) (by decide)
  obtain ⟨hf, hmap⟩ := frame_modSin (f := (·.setDirty)) hs oneFile_node rfl rfl
  have honly : ∀ i sin, nearlyFull.nodes i = some sin →
      i = 2 ∧ sin = ⟨directFile 12 49152, true, 1, 1, 1⟩ := by
    intro i sin hn
    have hi : i = 2 := by simpa using hf.sound.cached i sin hn
    subst hi
    exact ⟨rfl, (Option.some.inj (nearlyFull_node.symm.trans hn)).symm⟩
  refine ⟨hf.sound, fun i hi _ => ?_, fun i sin hn => ?_, fun i sin hn _ => ?_⟩
  · have hi : i = 2 := by simpa using hi
    subst hi
    have hm : Mapped (oneFile 0x38000#32 (directFile 12 49152)) 2 := directFile_mapped (by decide)
    refine ⟨fun k hk => ?_, fun k hk => ?_⟩
    · rw [nearlyFull, hmap]
      exact hm.mapped k hk
    · rw [nearlyFull, hmap]
      exact hm.unmapped k hk
  · obtain ⟨-, rfl⟩ := honly i sin hn
    exact ⟨by decide, by decide, by decide, by decide, by decide, by decide⟩
  · obtain ⟨-, rfl⟩ := honly i sin hn
    rfl

/-- Truncating the file to 13 blocks and writing the inode back. -/
theorem dirty_flag_sound_nearlyFull :
    ∃ t, InodeReach (fun s op => op.Noticed s) nearlyFull t ∧ Backed t := by
  have v := nearlyFull_volume
  have hl : InodeOp.Legit nearlyFull (.file (.truncate 2 53248)) :=
    ⟨⟨_, nearlyFull_node, rfl⟩, trivial⟩
  have hc : InodeOp.Noticed nearlyFull (.file (.truncate 2 53248)) := by
    intro sin hn hd
    cases nearlyFull_node.symm.trans hn
    cases hd
  obtain ⟨ret, t, e, -⟩ := (FileOp.run_spec v.sound v.mapped hl).1
    (fun _ _ => .inl (by decide))
  have hr : InodeReach (fun s op => op.Noticed s) nearlyFull t :=
    .single ⟨_, ret, hl, hc, e⟩
  exact ⟨t, hr, (dirty_flag_sound (by decide) v.sound v.mapped v.fits v.backed hr).1⟩

/-- Truncate to 13 blocks, write the inode back, truncate to 20 blocks, write it back again; and
what is in memory and on the disk then. -/
def fillDisk : Sfs (List ℤ × Bool × ℕ × ℕ) := do
  let a ← InodeOp.run (.file (.truncate 2 53248))
  let b ← InodeOp.run (.fsync 2)
  let c ← InodeOp.run (.file (.truncate 2 81920))
  let sin ← getSin 2
  let d ← InodeOp.run (.fsync 2)
  let s ← Comp.read
  pure ([a, b, c, d].map retCode, sin.dirty, sin.din.blocks, (decodeInode (s.disk 2)).blocks)

lemma fillDisk_result :
    ∃ t, fillDisk nearlyFull = .ok (([0, 0, -4, 0], false, 14, 13), t) :=
  exists_of_result (by decide +kernel)

/-- **A change can be lost**: the truncation to 20 blocks fails for want of blocks, after it has
given the file a fourteenth block. The inode is not dirty, and `sfs_fsync` leaves 13 blocks on the
disk. -/
theorem dirty_flag_lost :
    BackedVolume {2} nearlyFull ∧ ∃ t sin, InodeReach (fun _ _ => True) nearlyFull t ∧
      t.nodes 2 = some sin ∧ sin.dirty = false ∧ decodeInode (t.disk 2) ≠ sin.din ∧
      ∃ u, sfsFsync 2 t = .ok (.ok (), u) ∧ decodeInode (u.disk 2) ≠ sin.din := by
  refine ⟨nearlyFull_volume, ?_⟩
  obtain ⟨w, e⟩ := fillDisk_result
  unfold fillDisk at e
  simp only [bind_eq_ok] at e
  obtain ⟨ra, sa, ea, rb, sb, eb, rc, sc, ec, sin, sd, ed, rd, se, ee, v, sf, ef, eg⟩ := e
  obtain ⟨rfl, hn⟩ := getSin_post 2 sc sin sd ed
  cases ef
  injection eg with eg
  injection eg with hres hst
  simp only [List.map_cons, List.map_nil, Prod.mk.injEq, List.cons.injEq] at hres
  obtain ⟨-, hdirty, hblocks, hdisk⟩ := hres
  have hsync : sfsFsync 2 sd = .ok (.ok (), sd) := by
    rw [sfsFsync, bind_of_ok (getSin_apply hn), hdirty]
    rfl
  cases hsync.symm.trans ee
  have hne : decodeInode (sd.disk 2) ≠ sin.din := by
    intro h
    rw [h, hblocks] at hdisk
    cases hdisk
  -- the file is cached all the time
  have hv := nearlyFull_volume
  have hla : FileOp.Legit nearlyFull (.truncate 2 53248) := ⟨⟨_, nearlyFull_node, rfl⟩, trivial⟩
  obtain ⟨-, x⟩ := FileOp.run_ok hv.sound hv.mapped hla ea
  obtain ⟨sina, hna, hta⟩ := x.node _ nearlyFull_node
  cases (sfsFsync_apply x.frame.sound (by decide) hna).symm.trans eb
  have hlc : FileOp.Legit (sa.flushed 2 sina) (.truncate 2 81920) :=
    ⟨⟨_, flushed_node hna, hta⟩, trivial⟩
  refine ⟨sd, sin, ?_, hn, hdirty, hne, sd, hsync, hne⟩
  exact ((Relation.ReflTransGen.single ⟨.file (.truncate 2 53248), ra, hla, trivial, ea⟩).tail
    ⟨.fsync 2, _, ⟨sina, hna⟩, trivial, eb⟩).tail ⟨.file (.truncate 2 81920), rc, hlc, trivial, ec⟩

end Ucore

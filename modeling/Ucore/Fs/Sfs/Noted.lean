import Ucore.Fs.Sfs.FileRun

set_option autoImplicit false

/-!
# What the calls do to a cached inode

The functions on files change a cached inode in four fields of its disk inode, and set its dirty
flag on most of the ways. The exception is the number of blocks: `sfs_bmap_load_nolock` raises it
and relies on others to set the flag, on `sfs_bmap_get_nolock` if a pointer of the inode is set, and
on the caller otherwise.

The relations below hold whatever the rest of the volume is like, and whether or not the device
works.

## Main definitions

* `SameBut` — nothing but the number of blocks has changed.
* `Noted` — all other changes have been noted in the dirty flag.
* `Enlarged` — the same for a file that is only enlarged: if all pointers of the inode are set,
  nothing is noted.
* `NodeRel` — a relation between the inode `i` before and after.

## Main results

* `load_enlarged`, `ioFrame_enlarged` — enlarging a file.
* `FileOp.run_noted` — all calls.
-/

namespace Ucore

open Comp

/-! ## Functions that do not touch the inodes -/

/-- The cached inodes are the same. -/
def SameNodes (s t : SfsFs) : Prop := t.nodes = s.nodes

instance : Std.Refl SameNodes := ⟨fun _ => rfl⟩

instance : IsTrans SfsFs SameNodes := ⟨fun _ _ _ h h' => h'.trans h⟩

lemma modify_sameNodes {f : SfsFs → SfsFs} (h : ∀ s, (f s).nodes = s.nodes) :
    Within SameNodes (Comp.modify f : Sfs Unit) := .modify h

variable {buf : Bytes} {write : Bool} {blkno ino pos offset : ℕ}

lemma dopIo_sameNodes {blk : ℕ} : Within SameNodes (dopIo buf pos blk write) := by
  refine Within.read.bind fun s => Within.bind (modify_sameNodes fun _ => ?_) fun _ => ?_
  · rfl
  · split
    · exact .pure _
    · refine .ite (.bind_pure (modify_sameNodes fun _ => ?_))
        (.pure _)
      rfl

lemma sfsRwblockNolock_sameNodes {check : Bool} :
    Within SameNodes (sfsRwblockNolock buf pos blkno write check) :=
  Within.read.bind fun _ => Within.ensure.bind fun _ => dopIo_sameNodes

lemma sfsRwblock_sameNodes {nblks : ℕ} :
    Within SameNodes (sfsRwblock write buf pos blkno nblks) := by
  induction nblks generalizing buf pos blkno with
  | zero => exact .pure _
  | succ nblks ih => exact sfsRwblockNolock_sameNodes.andThen fun _ => ih

lemma sfsRbuf_sameNodes {len : ℕ} : Within SameNodes (sfsRbuf buf pos len blkno offset) :=
  Within.ensure.bind fun _ => sfsRwblockNolock_sameNodes.andThen fun _ => Within.pure _

lemma sfsWbuf_sameNodes {len : ℕ} : Within SameNodes (sfsWbuf buf pos len blkno offset) :=
  Within.ensure.bind fun _ => sfsRwblockNolock_sameNodes.andThen fun _ =>
    sfsRwblockNolock_sameNodes.andThen fun _ => .pure _

lemma sfsClearBlock_sameNodes {nblks : ℕ} : Within SameNodes (sfsClearBlock blkno nblks) := by
  induction nblks generalizing blkno with
  | zero => exact .pure _
  | succ nblks ih => exact sfsRwblockNolock_sameNodes.andThen fun _ => ih

lemma liftBitmap_sameNodes {α : Type} {r : Except BitmapPanic α} :
    Within SameNodes (liftBitmap r) := by
  cases r with
  | ok a => exact .pure a
  | error p => exact .halt _

lemma assertInuse_sameNodes : Within SameNodes (assertInuse ino) := by
  refine Within.bind (Within.read.bind fun s => ?_) fun _ => Within.ensure
  exact Within.ite (liftBitmap_sameNodes.bind fun _ => Within.pure _) (Within.halt _)

lemma sfsBlockAlloc_sameNodes : Within SameNodes sfsBlockAlloc := by
  refine Within.read.bind fun s => liftBitmap_sameNodes.bind fun found => ?_
  cases found with
  | none => exact .pure _
  | some r =>
    refine Within.bind (modify_sameNodes fun _ => ?_) fun _ => Within.ensure.bind fun _ => ?_
    · rfl
    · refine Within.bind (modify_sameNodes fun _ => ?_) fun _ => assertInuse_sameNodes.bind
        fun _ => ?_
      · rfl
      · exact sfsClearBlock_sameNodes.andThen fun _ => .pure _

lemma sfsBlockFree_sameNodes : Within SameNodes (sfsBlockFree ino) :=
  assertInuse_sameNodes.bind fun _ => Within.read.bind fun _ =>
    liftBitmap_sameNodes.bind fun _ => modify_sameNodes fun _ => rfl

lemma cleanupEntry_sameNodes {entp ent : ℕ} {ret : Errno} :
    Within SameNodes (cleanupEntry entp ent ret) :=
  .ite (sfsBlockFree_sameNodes.bind fun _ => .pure _) (.pure _)

lemma allocEntry_sameNodes {entp ent : ℕ} : Within SameNodes (allocEntry entp ent offset) := by
  refine sfsBlockAlloc_sameNodes.bind fun found => ?_
  cases found with
  | error ret => exact cleanupEntry_sameNodes
  | ok ino =>
    refine sfsWbuf_sameNodes.bind fun written => ?_
    cases written with
    | error ret => exact sfsBlockFree_sameNodes.bind fun _ => cleanupEntry_sameNodes
    | ok _ => exact .pure _

lemma sfsBmapGetSubNolock_sameNodes {entp index : ℕ} {create : Bool} :
    Within SameNodes (sfsBmapGetSubNolock entp index create) := by
  refine Within.ensure.bind fun _ => Within.ite ?_ (Within.ite (Within.pure _) ?_)
  · refine sfsRbuf_sameNodes.andThen fun buf => ?_
    exact .ite (.pure _) allocEntry_sameNodes
  · exact sfsBlockAlloc_sameNodes.andThen fun _ => allocEntry_sameNodes

lemma sfsBmapFreeSubNolock_sameNodes {ent index : ℕ} :
    Within SameNodes (sfsBmapFreeSubNolock ent index) := by
  refine assertInuse_sameNodes.bind fun _ => Within.ensure.bind fun _ => ?_
  refine sfsRbuf_sameNodes.andThen fun buf => Within.ite ?_ (Within.pure _)
  exact sfsWbuf_sameNodes.andThen fun _ => sfsBlockFree_sameNodes.bind fun _ => .pure _

lemma bmapGetOut_sameNodes : Within SameNodes (bmapGetOut ino) :=
  .ite (assertInuse_sameNodes.bind fun _ => .pure _) (.pure _)

lemma sfsBufOp_sameNodes {len : ℕ} : Within SameNodes (sfsBufOp write buf pos len blkno offset) :=
  .ite sfsWbuf_sameNodes sfsRbuf_sameNodes

lemma sfsBlockOp_sameNodes {nblks : ℕ} : Within SameNodes (sfsBlockOp write buf pos blkno nblks) :=
  .ite sfsRwblock_sameNodes sfsRwblock_sameNodes

/-! ## Changes of an inode -/

/-- `sin'` is `sin` up to the number of blocks and the counters. -/
structure SameBut (sin sin' : SfsInode) : Prop where
  dirty : sin'.dirty = sin.dirty
  din : sin'.din = { sin.din with blocks := sin'.din.blocks }

/-- **All changes other than of the number of blocks have been noted** in the dirty flag. -/
structure Noted (sin sin' : SfsInode) : Prop where
  type : sin'.din.type = sin.din.type
  nlinks : sin'.din.nlinks = sin.din.nlinks
  noted : sin'.dirty = true ∨ SameBut sin sin'

/-- All pointers of an inode are set. -/
def SfsInode.Full (sin : SfsInode) : Prop := (∀ k, sin.din.direct k ≠ 0) ∧ sin.din.indirect ≠ 0

/-- **A file has been enlarged**: pointers that are not set may have been set, which has been
noted. -/
structure Enlarged (sin sin' : SfsInode) : Prop extends Noted sin sin' where
  size : sin'.din.size = sin.din.size
  full : sin.Full → SameBut sin sin'

lemma SameBut.refl (sin : SfsInode) : SameBut sin sin := ⟨rfl, rfl⟩

lemma SameBut.trans {a b c : SfsInode} (h : SameBut a b) (h' : SameBut b c) : SameBut a c := by
  refine ⟨h'.dirty.trans h.dirty, ?_⟩
  rw [h'.din, h.din]

lemma SameBut.full {a b : SfsInode} (h : SameBut a b) (hf : a.Full) : b.Full := by
  unfold SfsInode.Full
  rw [h.din]
  exact hf

instance : Std.Refl Noted := ⟨fun sin => ⟨rfl, rfl, Or.inr (SameBut.refl sin)⟩⟩

instance : IsTrans SfsInode Noted := by
  refine ⟨fun a b c h h' => ⟨h'.type.trans h.type, h'.nlinks.trans h.nlinks, ?_⟩⟩
  rcases h'.noted with hc | hc
  · exact Or.inl hc
  · rcases h.noted with hb | hb
    · exact Or.inl (hc.dirty.trans hb)
    · exact Or.inr (hb.trans hc)

instance : Std.Refl Enlarged := ⟨fun sin => ⟨Std.Refl.refl sin, rfl, fun _ => SameBut.refl sin⟩⟩

instance : IsTrans SfsInode Enlarged := by
  refine ⟨fun a b c h h' => ⟨IsTrans.trans a b c h.toNoted h'.toNoted, h'.size.trans h.size,
    fun hf => ?_⟩⟩
  exact (h.full hf).trans (h'.full ((h.full hf).full hf))

/-- The relation `R` holds between the cached inode `i` before and after. -/
def NodeRel (i : ℕ) (R : SfsInode → SfsInode → Prop) (s t : SfsFs) : Prop :=
  ∀ sin, s.nodes i = some sin → ∃ sin', t.nodes i = some sin' ∧ R sin sin'

variable {i : ℕ} {s t : SfsFs}

section NodeRel

variable {R : SfsInode → SfsInode → Prop} {sin sin' : SfsInode}

instance [Std.Refl R] : Std.Refl (NodeRel i R) := ⟨fun _ sin hn => ⟨sin, hn, Std.Refl.refl sin⟩⟩

instance [IsTrans SfsInode R] : IsTrans SfsFs (NodeRel i R) := by
  refine ⟨fun s t u h h' sin hn => ?_⟩
  obtain ⟨a, ha, hR⟩ := h sin hn
  obtain ⟨b, hb, hR'⟩ := h' a ha
  exact ⟨b, hb, IsTrans.trans sin a b hR hR'⟩

lemma SameNodes.nodeRel [Std.Refl R] (h : SameNodes s t) : NodeRel i R s t := fun sin hn =>
  ⟨sin, by rw [h, hn], Std.Refl.refl sin⟩

lemma NodeRel.mono {R' : SfsInode → SfsInode → Prop} (h : NodeRel i R s t)
    (hR : ∀ a b, R a b → R' a b) : NodeRel i R' s t := by
  intro sin hn
  obtain ⟨sin', hn', hr⟩ := h sin hn
  exact ⟨sin', hn', hR _ _ hr⟩

lemma NodeRel.of_nodes (hn : s.nodes i = some sin) (hn' : t.nodes i = some sin') (h : R sin sin') :
    NodeRel i R s t := by
  intro sin₀ h₀
  cases hn.symm.trans h₀
  exact ⟨sin', hn', h⟩

lemma NodeRel.modSin {f : SfsInode → SfsInode} (h : ∀ sin, R sin (f sin)) :
    NodeRel i R s (s.modSin i f) := fun sin hn => ⟨f sin, modSin_nodes_self hn, h sin⟩

lemma within_of_sameNodes [Std.Refl R] {α : Type} {m : Sfs α} (h : Within SameNodes m) :
    Within (NodeRel i R) m := h.mono fun _ _ hs => hs.nodeRel

end NodeRel

/-! ## Enlarging a file -/

section Enlarge

variable {sin : SfsInode}

lemma enlarged_setDirect {k : Fin nDirect} (h0 : sin.din.direct k = 0) (b : ℕ) :
    Enlarged sin (sin.setDirect k b) :=
  ⟨⟨rfl, rfl, .inl rfl⟩, rfl, fun hf => absurd h0 (hf.1 k)⟩

lemma enlarged_setIndirect (h0 : sin.din.indirect = 0) (b : ℕ) : Enlarged sin (sin.setIndirect b) :=
  ⟨⟨rfl, rfl, .inl rfl⟩, rfl, fun hf => absurd h0 hf.2⟩

lemma enlarged_setBlocks (sin : SfsInode) (n : ℕ) : Enlarged sin (sin.setBlocks n) :=
  ⟨⟨rfl, rfl, .inr ⟨rfl, rfl⟩⟩, rfl, fun _ => ⟨rfl, rfl⟩⟩

lemma sfsBmapGetNolock_enlarged (i index : ℕ) (create : Bool) :
    Within (NodeRel i Enlarged) (sfsBmapGetNolock i index create) := by
  intro s
  refine (getSin_post i s).bind ?_
  rintro sin t ⟨rfl, hn⟩
  have hout : ∀ (ino : ℕ) (u : SfsFs), NodeRel i Enlarged t u →
      Post (bmapGetOut ino) u fun _ v => NodeRel i Enlarged t v := fun ino u hu =>
    (within_of_sameNodes bmapGetOut_sameNodes u).mono fun _ v hv => IsTrans.trans t u v hu hv
  by_cases hd : index < nDirect
  · rw [dif_pos hd]
    refine Post.ite (fun hc => ?_) fun _ => hout _ t (Std.Refl.refl t)
    refine (sfsBlockAlloc_sameNodes t).andThen (fun ino u hu => ?_) fun _ u hu => hu.nodeRel
    have hn' : u.nodes i = some sin := by rw [hu, hn]
    exact hout ino _ (NodeRel.of_nodes hn (modSin_nodes_self hn') (enlarged_setDirect hc.1 ino))
  · rw [dif_neg hd]
    refine .ite (fun _ => ?_) fun _ => .halt _
    refine (sfsBmapGetSubNolock_sameNodes t).andThen (fun r u hu => ?_) fun _ u hu => hu.nodeRel
    have hn' : u.nodes i = some sin := by rw [hu, hn]
    obtain ⟨ent, ino⟩ := r
    refine .ite (fun _ => ?_) fun _ => hout ino u hu.nodeRel
    refine .ensure_bind fun h0 => ?_
    exact hout ino _ (NodeRel.of_nodes hn (modSin_nodes_self hn') (enlarged_setIndirect h0 ent))

/-- **Looking up a block, or adding one.** -/
lemma load_enlarged (i index : ℕ) : Within (NodeRel i Enlarged) (sfsBmapLoadNolock i index) := by
  refine getSin_within.bind fun sin => Within.ensure.bind fun _ => ?_
  refine (sfsBmapGetNolock_enlarged i index _).andThen fun ino => ?_
  refine (within_of_sameNodes assertInuse_sameNodes).bind fun _ => ?_
  refine .ite (.bind_pure (.modify fun s => ?_)) (.pure _)
  exact NodeRel.modSin fun sin => enlarged_setBlocks sin _

lemma ioPiece_enlarged (v : IoVars) {op : ℕ → Sfs (Except Errno Bytes)} (next : Bytes → IoVars)
    (hop : ∀ ino, Within SameNodes (op ino)) :
    Within (NodeRel i Enlarged) (ioPiece i v op next) := by
  refine (load_enlarged i v.blkno).bind fun found => ?_
  cases found with
  | error ret => exact .pure _
  | ok ino =>
    refine (within_of_sameNodes (hop ino)).bind fun done => ?_
    cases done <;> exact .pure _

lemma ioFrame_enlarged : IoFrame i (NodeRel i Enlarged) where
  load := load_enlarged i
  buf _ v _ _ next := ioPiece_enlarged v next fun _ => sfsBufOp_sameNodes
  block _ v next := ioPiece_enlarged v next fun _ => sfsBlockOp_sameNodes

end Enlarge

/-! ## All calls -/

lemma noted_of_dirty {sin sin' : SfsInode} (ht : sin'.din.type = sin.din.type)
    (hl : sin'.din.nlinks = sin.din.nlinks) (hd : sin'.dirty = true) : Noted sin sin' :=
  ⟨ht, hl, .inl hd⟩

lemma modSin_noted {f : SfsInode → SfsInode} (h : ∀ sin, Noted sin (f sin)) :
    Within (NodeRel i Noted) (Comp.modify (·.modSin i f) : Sfs Unit) := fun _ =>
  .modify (NodeRel.modSin h)

/-- **A transfer** enlarges the file at most, and raises its size at the exit. -/
lemma ioTransfer_enlarged (write : Bool) (buf : Bytes) (offset endpos : ℕ) :
    Post (ioTransfer write i buf offset endpos) s fun _ t =>
      ∃ u g, NodeRel i Enlarged s u ∧ t = raiseSize u i g := by
  refine (ioFrame_enlarged.ioSteps write endpos _ s).bind fun r u hu => ?_
  obtain ⟨v, ret⟩ := r
  intro a t e
  change ioOut i v ret u = _ at e
  cases hn : u.nodes i with
  | none =>
    rw [ioOut] at e
    obtain ⟨sin, u', hg, -⟩ := bind_eq_ok.mp e
    rw [(getSin_post i u sin u' hg).2] at hn
    cases hn
  | some sin =>
    rw [ioOut_apply hn] at e
    cases e
    exact ⟨u, _, hu, rfl⟩

lemma sfsBmapTruncateNolock_noted : Within (NodeRel i Noted) (sfsBmapTruncateNolock i) := by
  refine getSin_within.bind fun sin => Within.ensure.bind fun _ => ?_
  refine Within.andThen ?_ fun _ => ?_
  · refine getSin_within.bind fun sin => ?_
    split_ifs
    · refine (within_of_sameNodes sfsBlockFree_sameNodes).bind fun _ => ?_
      refine .bind_pure (modSin_noted fun _ => ?_)
      exact noted_of_dirty rfl rfl rfl
    · exact .pure _
    · exact within_of_sameNodes sfsBmapFreeSubNolock_sameNodes
    · exact .pure _
    · exact .pure _
  · refine .bind_pure (modSin_noted fun _ => ?_)
    exact noted_of_dirty rfl rfl rfl

/-- **Reading and writing** enlarge the file at most, and raise its size at the exit. -/
lemma sfsIo_enlarged (write : Bool) (iob : Iobuf) :
    Post (sfsIo write i iob) s fun _ t => ∃ u g, NodeRel i Enlarged s u ∧ t = raiseSize u i g := by
  have hrefl : ∃ u g, NodeRel i Enlarged s u ∧ s = raiseSize u i g :=
    ⟨s, 0, Std.Refl.refl s, (raiseSize_of_le (Nat.zero_le _)).symm⟩
  refine .bind (R := fun _ t => ∃ u g, NodeRel i Enlarged s u ∧ t = raiseSize u i g) ?_ ?_
  · refine (getSin_post i s).bind ?_
    rintro sin t ⟨rfl, -⟩
    refine .ensure_bind fun _ => .ite (fun _ => .pure hrefl) fun _ => .ite (fun _ => .pure hrefl)
      fun _ => ?_
    exact .ite (fun _ => .pure hrefl) fun _ => ioTransfer_enlarged write _ _ _
  · rintro ⟨buf, alen, ret⟩ t ht
    refine .ite (fun _ => ?_) fun _ => .pure ht
    refine .bind (R := fun _ u => u = t) (.ensure_bind fun _ => .pure rfl) ?_
    rintro _ u rfl
    exact .pure ht

lemma fileFrame_noted : FileFrame i (NodeRel i Noted) where
  load k := (load_enlarged i k).mono fun _ _ h => h.mono fun _ _ h => h.toNoted
  buf _ v _ _ next :=
    (ioFrame_enlarged.buf _ v _ _ next).mono fun _ _ h => h.mono fun _ _ h => h.toNoted
  block _ v next :=
    (ioFrame_enlarged.block _ v next).mono fun _ _ h => h.mono fun _ _ h => h.toNoted
  truncate := sfsBmapTruncateNolock_noted
  size _ := modSin_noted fun _ => noted_of_dirty rfl rfl rfl

/-- **All calls** note the changes that they make, but for the number of blocks. -/
lemma FileOp.run_noted (op : FileOp) : Within (NodeRel op.ino Noted) op.run :=
  op.run_within fileFrame_noted

end Ucore

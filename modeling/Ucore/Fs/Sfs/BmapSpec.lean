import Ucore.Fs.Sfs.Grow

set_option autoImplicit false

/-!
# The block map functions

What `sfs_bmap_load_nolock` and `sfs_bmap_truncate_nolock` do to a sound file system, in every case.

## Main results

* `load_mapped` — an index below the number of blocks is looked up.
* `load_grow` — at the number of blocks the file grows, unless the disk is full.
* `load_panics` — the indices at which `sfs_bmap_load_nolock` panics.
* `truncate_apply` — `sfs_bmap_truncate_nolock` takes the last block back.
-/

namespace Ucore

open Function Comp Finset

variable {I : Finset ℕ} {i k : ℕ} {s : SfsFs} {sin : SfsInode}

lemma getSin_apply (hn : s.nodes i = some sin) : getSin i s = .ok (sin, s) := by
  simp [getSin, hn]

/-! ## Looking up -/

lemma readEntry_apply (h : Mounted s) {ent index : ℕ} (he : ent ≠ 0) (hlt : ent < s.super.blocks)
    (hx : index < blkNentry) :
    ∃ buf : Bytes, sfsRbuf Bytes.zero 0 4 ent (index * 4) s = .ok (.ok buf, s) ∧
      buf.get32 0 = (s.disk ent).get32 (index * 4) := by
  unfold blkNentry at hx
  refine ⟨_, sfsRbuf_apply h he hlt (by unfold blkSize; omega) (by unfold blkSize; omega), ?_⟩
  rw [Bytes.get32_copy _ _ (le_refl _) (le_refl _), Nat.sub_self, Nat.add_zero]

lemma bmapGetOut_apply {b : ℕ} (h : Mounted s) (hu : InUse s b) :
    bmapGetOut b s = .ok (.ok b, s) := by
  simp only [bmapGetOut, ne_eq, hu.ne_zero, not_false_eq_true, if_true]
  rw [bind_of_ok (assertInuse_apply h hu)]
  rfl

section

variable (h : Mounted s) (hn : s.nodes i = some sin) (hu : InUse s (s.bmapAt i k))
  (hind : sin.din.indirect ≠ 0 → sin.din.indirect < s.super.blocks)
include h hn hu hind

/-- A mapped index is looked up, whether or not a block may be created. -/
lemma get_mapped (create : Bool) : sfsBmapGetNolock i k create s = .ok (.ok (s.bmapAt i k), s) := by
  have hb := bmapAt_of_node (k := k) hn
  rw [sfsBmapGetNolock, bind_of_ok (getSin_apply hn)]
  by_cases hk : k < nDirect
  · have h0 : sin.din.direct ⟨k, hk⟩ = s.bmapAt i k := by rw [hb, mapAt_direct hk]
    rw [dif_pos hk, h0, if_neg (by simp [hu.ne_zero])]
    exact bmapGetOut_apply h hu
  · obtain ⟨hk', hi0⟩ := indirect_ne_zero_of_mapAt (by rw [← hb]; exact hu.ne_zero) hk
    obtain ⟨buf, hr, hw⟩ := readEntry_apply h hi0 (hind hi0) hk'
    have hino : buf.get32 0 = s.bmapAt i k := by rw [hw, hb, mapAt_entry hk hk' hi0]
    have hsub : sfsBmapGetSubNolock sin.din.indirect (k - nDirect) create s =
        .ok (.ok (sin.din.indirect, s.bmapAt i k), s) := by
      rw [sfsBmapGetSubNolock, ensure_bind_apply, if_pos hk', if_pos hi0,
        andThen_of_ok hr]
      simp [hino, hu.ne_zero]
    rw [dif_neg hk, if_pos hk', andThen_of_ok hsub]
    simp only [ne_eq, not_true_eq_false, if_false]
    exact bmapGetOut_apply h hu

/-- **An index below the number of blocks** is looked up. -/
lemma load_mapped (hk : k < sin.din.blocks) :
    sfsBmapLoadNolock i k s = .ok (.ok (s.bmapAt i k), s) := by
  rw [sfsBmapLoadNolock, bind_of_ok (getSin_apply hn), ensure_bind_apply,
    if_pos (by omega), andThen_of_ok (get_mapped h hn hu hind _),
    bind_of_ok (assertInuse_apply h hu)]
  simp [Nat.ne_of_lt hk]

end

/-- An index at the number of blocks that is mapped nevertheless. -/
lemma load_remap (h : Sound I s) (hn : s.nodes i = some sin) (hu : s.bmapAt i sin.din.blocks ≠ 0) :
    sfsBmapLoadNolock i sin.din.blocks s = .ok (.ok (s.bmapAt i sin.din.blocks),
      s.modSin i fun sin => sin.setBlocks (sin.din.blocks + 1)) := by
  have hu' := h.inUse_data hn hu
  rw [sfsBmapLoadNolock, bind_of_ok (getSin_apply hn), ensure_bind_apply,
    if_pos (le_refl _), andThen_of_ok
      (get_mapped h.toMounted hn hu' (fun h0 => (h.inUse_indirect hn h0).lt) _),
    bind_of_ok (assertInuse_apply h.toMounted hu')]
  simp

/-! ## Growing -/

/-- `din->blocks ++` -/
def SfsInode.addBlock (sin : SfsInode) : SfsInode := sin.setBlocks (sin.din.blocks + 1)

/-- What `sfs_bmap_get_nolock` does when it is to create the block of index `k`: the file gets a
block and its limit is above `k`, or the disk is full and its limit is at most `k`. -/
def GetCreates (I : Finset ℕ) (i k : ℕ) (s : SfsFs) : Prop :=
  (k < limit s i ∧ ∃ b t, sfsBmapGetNolock i k true s = .ok (.ok b, t) ∧ Mounted t ∧ InUse t b ∧
    Grown I i k b s (t.modSin i SfsInode.addBlock)) ∨
  (limit s i ≤ k ∧ ∃ t, sfsBmapGetNolock i k true s = .ok (.error .noMem, t) ∧ Kept I i s t)

lemma InUse.allocBlock {b : ℕ} (h : Mounted s) (hb : b ∈ s.freemap.free) :
    InUse (s.allocBlock b) b := (InUse.claim h hb).of_eq rfl rfl

/-- The limit when the file has `k` blocks: at `k` exactly if the free blocks do not suffice. -/
lemma lt_limit_iff (hn : s.nodes i = some sin) (hbl : sin.din.blocks = k) :
    k < limit s i ↔ 0 < s.freemap.free.card ∧
      (sin.din.indirect = 0 → ¬k < nDirect → 1 < s.freemap.free.card) := by
  unfold limit
  rw [dinOf_of_node hn, hbl]
  by_cases hi : sin.din.indirect = 0
  · split_ifs <;> omega
  · simp only [hi, false_and, if_false, false_implies, and_true]
    omega

/-- Creating a block behind a direct pointer. -/
lemma getCreates_direct (h : Sound I s) (hn : s.nodes i = some sin) (hk : k < nDirect)
    (h0 : s.bmapAt i k = 0) (hbl : sin.din.blocks = k) : GetCreates I i k s := by
  have hd : sin.din.direct ⟨k, hk⟩ = 0 := by
    rw [bmapAt_of_node hn, mapAt_direct hk] at h0
    exact h0
  have hget : sfsBmapGetNolock i k true s = (sfsBlockAlloc.andThen fun ino => do
      Comp.modify (·.modSin i (·.setDirect ⟨k, hk⟩ ino))
      bmapGetOut ino) s := by
    rw [sfsBmapGetNolock, bind_of_ok (getSin_apply hn), dif_pos hk, if_pos ⟨hd, rfl⟩]
  rcases sfsBlockAlloc_apply h.toMounted h.unused with ⟨he, e⟩ | ⟨b, hb, e⟩
  · right
    refine ⟨?_, s, by rw [hget, andThen_of_fail e], Kept.refl h⟩
    rw [← not_lt, lt_limit_iff hn hbl, he]
    simp
  · left
    refine ⟨?_, b, (s.allocBlock b).modSin i (·.setDirect ⟨k, hk⟩ b), ?_, ?_, ?_, ?_⟩
    · rw [lt_limit_iff hn hbl]
      exact ⟨card_pos.mpr ⟨b, hb⟩, fun _ hk' => absurd hk hk'⟩
    · rw [hget, andThen_of_ok e, modify_bind_apply]
      exact bmapGetOut_apply (h.toMounted.allocBlock hb).modSin
        ((InUse.allocBlock h.toMounted hb).of_eq rfl rfl)
    · exact (h.toMounted.allocBlock hb).modSin
    · exact (InUse.allocBlock h.toMounted hb).of_eq rfl rfl
    · rw [modSin_modSin]
      exact grown_direct h hn hb hk hd hbl

/-- Allocating a block and entering it into an entry block. -/
lemma allocEntry_apply (entp : ℕ) {ent index : ℕ} (h : Mounted s)
    (hun : s.super.unusedBlocks = s.freemap.free.card) (hu : InUse s ent)
    (hx : index < blkNentry) :
    (s.freemap.free = ∅ ∧
      allocEntry entp ent (index * 4) s = cleanupEntry entp ent .noMem s) ∨
    ∃ b ∈ s.freemap.free,
      allocEntry entp ent (index * 4) s = .ok (.ok (ent, b), s.enter ent index b) := by
  unfold blkNentry at hx
  rcases sfsBlockAlloc_apply h hun with ⟨he, e⟩ | ⟨b, hb, e⟩
  · left
    refine ⟨he, ?_⟩
    rw [allocEntry, bind_of_ok e]
  · right
    refine ⟨b, hb, ?_⟩
    have hw : sfsWbuf (Bytes.zero.put32 0 b) 0 4 ent (index * 4) (s.allocBlock b) =
        .ok (.ok (Bytes.zero.put32 0 b), s.enter ent index b) :=
      sfsWbuf_apply (h.allocBlock hb) hu.ne_zero hu.lt (by unfold blkSize; omega)
        (by unfold blkSize; omega)
    rw [allocEntry, bind_of_ok e]
    simp only
    rw [bind_of_ok hw]
    rfl

/-- `sfs_bmap_get_nolock` after the lookup in the indirect block. -/
lemma get_of_sub {create : Bool} {r : Except Errno (ℕ × ℕ)} {t : SfsFs}
    (hn : s.nodes i = some sin) (hk : ¬k < nDirect) (hk' : k - nDirect < blkNentry)
    (e : sfsBmapGetSubNolock sin.din.indirect (k - nDirect) create s = .ok (r, t)) :
    sfsBmapGetNolock i k create s = match r with
      | .ok (ent, ino) => (do
          if ent ≠ sin.din.indirect then do
            Comp.ensure (sin.din.indirect = 0) .indirectSet
            Comp.modify (·.modSin i (·.setIndirect ent))
          bmapGetOut ino : Sfs _) t
      | .error e => .ok (.error e, t) := by
  rw [sfsBmapGetNolock, bind_of_ok (getSin_apply hn), dif_neg hk, if_pos hk']
  cases r with
  | ok p => rw [andThen_of_ok e]
  | error x => rw [andThen_of_fail e]

section

variable (h : Sound I s) (hn : s.nodes i = some sin)
include h hn

/-- Creating a block behind an entry of the indirect block. -/
lemma getCreates_entry (hk : ¬k < nDirect) (hk' : k - nDirect < blkNentry)
    (hi0 : sin.din.indirect ≠ 0) (h0 : s.bmapAt i k = 0) (hbl : sin.din.blocks = k) :
    GetCreates I i k s := by
  have hui := h.inUse_indirect hn hi0
  obtain ⟨buf, hr, hw⟩ := readEntry_apply h.toMounted hi0 hui.lt hk'
  have hino : buf.get32 0 = 0 := by
    rw [hw, ← mapAt_entry hk hk' hi0, ← bmapAt_of_node hn, h0]
  have hsub : sfsBmapGetSubNolock sin.din.indirect (k - nDirect) true s =
      allocEntry sin.din.indirect sin.din.indirect ((k - nDirect) * 4) s := by
    rw [sfsBmapGetSubNolock, ensure_bind_apply, if_pos hk', if_pos hi0,
      andThen_of_ok hr]
    simp [hino]
  rcases allocEntry_apply sin.din.indirect h.toMounted h.unused hui hk' with
    ⟨he, e⟩ | ⟨b, hb, e⟩
  · right
    refine ⟨?_, s, ?_, Kept.refl h⟩
    · rw [← not_lt, lt_limit_iff hn hbl, he]
      simp
    · have e' : sfsBmapGetSubNolock sin.din.indirect (k - nDirect) true s =
          .ok (.error .noMem, s) := by
        rw [hsub, e]
        simp [cleanupEntry]
      rw [get_of_sub hn hk hk' e']
  · left
    have hm : Mounted (s.enter sin.din.indirect (k - nDirect) b) :=
      (h.toMounted.allocBlock hb).writeDisk
    have hu : InUse (s.enter sin.din.indirect (k - nDirect) b) b :=
      (InUse.allocBlock h.toMounted hb).of_eq rfl rfl
    refine ⟨?_, b, s.enter sin.din.indirect (k - nDirect) b, ?_, hm, hu, ?_⟩
    · rw [lt_limit_iff hn hbl]
      exact ⟨card_pos.mpr ⟨b, hb⟩, fun hi => absurd hi hi0⟩
    · rw [get_of_sub hn hk hk' (hsub.trans e)]
      simp only [ne_eq, not_true_eq_false, if_false]
      exact bmapGetOut_apply hm hu
    · exact grown_entry h hn hb hk hk' hi0 h0 hbl

/-- Creating a block of a file that has no indirect block yet. -/
lemma getCreates_indirect (hk : ¬k < nDirect) (hk' : k - nDirect < blkNentry)
    (hi0 : sin.din.indirect = 0) (hbl : sin.din.blocks = k) : GetCreates I i k s := by
  have hi : i ∈ I := h.cached i sin hn
  have hsub : sfsBmapGetSubNolock sin.din.indirect (k - nDirect) true s =
      (sfsBlockAlloc.andThen fun ent =>
        allocEntry sin.din.indirect ent ((k - nDirect) * 4)) s := by
    rw [sfsBmapGetSubNolock, ensure_bind_apply, if_pos hk', if_neg (by simp [hi0])]
    simp
  rcases sfsBlockAlloc_apply h.toMounted h.unused with ⟨he, e1⟩ | ⟨a, ha, e1⟩
  · -- no block for the entry block
    right
    refine ⟨?_, s, ?_, Kept.refl h⟩
    · rw [← not_lt, lt_limit_iff hn hbl, he]
      simp
    · rw [get_of_sub hn hk hk' (hsub.trans (andThen_of_fail e1 _))]
  · have hma := h.toMounted.allocBlock ha
    have hua := InUse.allocBlock h.toMounted ha
    have hfree := allocBlock_free ha
    have hune : (s.allocBlock a).super.unusedBlocks = (s.allocBlock a).freemap.free.card := by
      rw [hfree, card_erase_of_mem ha, ← h.unused]
      rfl
    have hane : a ≠ sin.din.indirect := by
      rw [hi0]
      exact hua.ne_zero
    rw [andThen_of_ok e1] at hsub
    rcases allocEntry_apply sin.din.indirect hma hune hua hk' with ⟨he, e2⟩ | ⟨b, hb, e2⟩
    · -- a block for the entry block, but none behind it
      right
      refine ⟨?_, (s.allocBlock a).freeBlock a, ?_, kept_rollback h hi ha⟩
      · rw [hfree] at he
        have hcard := card_erase_of_mem ha
        rw [he, card_empty] at hcard
        rw [← not_lt, lt_limit_iff hn hbl]
        rintro ⟨-, h2⟩
        omega
      · have e3 : cleanupEntry sin.din.indirect a .noMem (s.allocBlock a) =
            .ok (.error .noMem, (s.allocBlock a).freeBlock a) := by
          simp only [cleanupEntry, ne_eq, hane, not_false_eq_true, if_true]
          rw [bind_of_ok (sfsBlockFree_apply hma hua)]
          rfl
        rw [get_of_sub hn hk hk' ((hsub.trans e2).trans e3)]
    · left
      have hm : Mounted ((s.allocBlock a).enter a (k - nDirect) b) := (hma.allocBlock hb).writeDisk
      have hu : InUse ((s.allocBlock a).enter a (k - nDirect) b) b :=
        (InUse.allocBlock hma hb).of_eq rfl rfl
      rw [hfree, mem_erase] at hb
      refine ⟨?_, b, ((s.allocBlock a).enter a (k - nDirect) b).modSin i (·.setIndirect a),
        ?_, hm.modSin, hu.of_eq rfl rfl, ?_⟩
      · rw [lt_limit_iff hn hbl]
        have hcard : 1 < s.freemap.free.card :=
          one_lt_card.mpr ⟨b, hb.2, a, ha, hb.1⟩
        exact ⟨by omega, fun _ _ => hcard⟩
      · rw [get_of_sub hn hk hk' (hsub.trans e2)]
        simp only
        rw [if_pos hane, ensure_bind_apply, if_pos hi0, modify_bind_apply]
        exact bmapGetOut_apply hm.modSin (hu.of_eq rfl rfl)
      · rw [modSin_modSin]
        exact grown_indirect h hn ha hb.2 hb.1 hk hk' hi0 hbl

section

variable (hk : k < maxBlocks) (h0 : s.bmapAt i k = 0)
include hk h0

/-- Creating the block of an index that is not mapped, in all cases. -/
lemma getCreates (hbl : sin.din.blocks = k) : GetCreates I i k s := by
  by_cases hd : k < nDirect
  · exact getCreates_direct h hn hd h0 hbl
  · have hk' : k - nDirect < blkNentry := by
      unfold maxBlocks at hk
      omega
    by_cases hi0 : sin.din.indirect = 0
    · exact getCreates_indirect h hn hd hk' hi0 hbl
    · exact getCreates_entry h hn hd hk' hi0 h0 hbl

/-- **At the number of blocks** a file grows by one cleared block if its limit allows it. -/
lemma load_grow (hbl : sin.din.blocks = k) (hlim : k < limit s i) :
    ∃ b t, sfsBmapLoadNolock i k s = .ok (.ok b, t) ∧ Grown I i k b s t := by
  rcases getCreates h hn hk h0 hbl with ⟨-, b, t, e, hm, hu, hg⟩ | ⟨hle, -⟩
  · refine ⟨b, t.modSin i SfsInode.addBlock, ?_, hg⟩
    have hc : (decide (k = sin.din.blocks)) = true := by simp [hbl]
    rw [sfsBmapLoadNolock, bind_of_ok (getSin_apply hn), ensure_bind_apply,
      if_pos (by omega)]
    simp only [hc]
    rw [andThen_of_ok e, bind_of_ok (assertInuse_apply hm hu)]
    rfl
  · omega

/-- **At the limit** nothing changes: the disk is full. -/
lemma load_full (hbl : sin.din.blocks = k) (hlim : limit s i ≤ k) :
    ∃ t, sfsBmapLoadNolock i k s = .ok (.error .noMem, t) ∧ Kept I i s t := by
  rcases getCreates h hn hk h0 hbl with ⟨hlt, -⟩ | ⟨-, t, e, hkept⟩
  · omega
  · refine ⟨t, ?_, hkept⟩
    have hc : (decide (k = sin.din.blocks)) = true := by simp [hbl]
    rw [sfsBmapLoadNolock, bind_of_ok (getSin_apply hn), ensure_bind_apply,
      if_pos (by omega)]
    simp only [hc]
    rw [andThen_of_fail e]

/-! ## Holes -/

/-- Looking up an index that is not mapped. -/
lemma get_hole : sfsBmapGetNolock i k false s = .ok (.ok 0, s) := by
  have hb := bmapAt_of_node (k := k) hn
  rw [sfsBmapGetNolock, bind_of_ok (getSin_apply hn)]
  by_cases hd : k < nDirect
  · have hd0 : sin.din.direct ⟨k, hd⟩ = 0 := by rw [← mapAt_direct hd, ← hb, h0]
    simp [hd, hd0, bmapGetOut]
  · unfold maxBlocks at hk
    have hk' : k - nDirect < blkNentry := by omega
    rw [dif_neg hd, if_pos hk']
    have hsub : sfsBmapGetSubNolock sin.din.indirect (k - nDirect) false s =
        .ok (.ok (sin.din.indirect, 0), s) := by
      rw [sfsBmapGetSubNolock, ensure_bind_apply, if_pos hk']
      by_cases hi0 : sin.din.indirect = 0
      · simp [hi0]
      · obtain ⟨buf, hr, hw⟩ := readEntry_apply h.toMounted hi0 (h.inUse_indirect hn hi0).lt hk'
        have hino : buf.get32 0 = 0 := by rw [hw, ← mapAt_entry hd hk' hi0, ← hb, h0]
        rw [if_pos hi0, andThen_of_ok hr]
        simp [hino]
    rw [andThen_of_ok hsub]
    simp [bmapGetOut]

lemma load_hole (hlt : k < sin.din.blocks) : sfsBmapLoadNolock i k s = .error .inuseRange := by
  have hc : (decide (k = sin.din.blocks)) = false := by simp [Nat.ne_of_lt hlt]
  rw [sfsBmapLoadNolock, bind_of_ok (getSin_apply hn), ensure_bind_apply,
    if_pos (by omega)]
  simp only [hc]
  rw [andThen_of_ok (get_hole h hn hk h0), bind_of_error assertInuse_zero]

end

/-- Truncating a file whose last index is a hole frees no block. -/
lemma truncate_hole (hbl : sin.din.blocks = k + 1) (h0 : s.bmapAt i k = 0) :
    sfsBmapTruncateNolock i s = .ok (.ok (),
      s.modSin i fun sin => (sin.setBlocks (sin.din.blocks - 1)).setDirty) := by
  have hb := bmapAt_of_node (k := k) hn
  have hpred : sin.din.blocks - 1 = k := by omega
  have hfree : sfsBmapFreeNolock i k s = .ok (.ok (), s) := by
    rw [sfsBmapFreeNolock, bind_of_ok (getSin_apply hn)]
    by_cases hd : k < nDirect
    · have hd0 : sin.din.direct ⟨k, hd⟩ = 0 := by rw [← mapAt_direct hd, ← hb, h0]
      simp [hd, hd0]
    · rw [dif_neg hd]
      by_cases hk' : k - nDirect < blkNentry
      · by_cases hi0 : sin.din.indirect = 0
        · simp [hk', hi0]
        · have hui := h.inUse_indirect hn hi0
          obtain ⟨buf, hr, hw⟩ := readEntry_apply h.toMounted hi0 hui.lt hk'
          have hino : buf.get32 0 = 0 := by rw [hw, ← mapAt_entry hd hk' hi0, ← hb, h0]
          rw [if_pos hk', if_pos hi0, sfsBmapFreeSubNolock,
            bind_of_ok (assertInuse_apply h.toMounted hui), ensure_bind_apply,
            if_pos hk', andThen_of_ok hr]
          simp [hino]
      · simp [hk']
  rw [sfsBmapTruncateNolock, bind_of_ok (getSin_apply hn), ensure_bind_apply,
    if_pos (by omega), hpred, andThen_of_ok hfree]
  rfl

end

/-! ## Panics -/

/-- The panics of `sfs_bmap_load_nolock`: the assertion `index <= din->blocks` and the panic
`index out of range` of `sfs_bmap_get_nolock`. -/
def LoadPanic (p : SfsPanic) : Prop := p = .loadIndex ∨ p = .indexRange

/-- Beyond the blocks of the file, or beyond what the block map can address, the lookup panics. -/
lemma load_panics (hn : s.nodes i = some sin) (hk : sin.din.blocks < k ∨ maxBlocks ≤ k) :
    ∃ p, LoadPanic p ∧ sfsBmapLoadNolock i k s = .error p := by
  rw [sfsBmapLoadNolock, bind_of_ok (getSin_apply hn), ensure_bind_apply]
  by_cases hle : k ≤ sin.din.blocks
  · rw [if_pos hle]
    have hmax : maxBlocks ≤ k := by omega
    unfold maxBlocks at hmax
    refine ⟨.indexRange, .inr rfl, andThen_of_error ?_ _⟩
    rw [sfsBmapGetNolock, bind_of_ok (getSin_apply hn), dif_neg (by omega),
      if_neg (by omega)]
    rfl
  · exact ⟨.loadIndex, .inl rfl, by rw [if_neg hle]⟩

/-! ## Shrinking -/

/-- **Taking the last block back.** -/
lemma truncate_apply (h : Sound I s) (hn : s.nodes i = some sin) (hbl : sin.din.blocks = k + 1)
    (h0 : s.bmapAt i k ≠ 0) :
    ∃ t, sfsBmapTruncateNolock i s = .ok (.ok (), t) ∧ Shrunk I i k s t := by
  have hb := bmapAt_of_node (k := k) hn
  have hu := h.inUse_data hn h0
  have hpred : sin.din.blocks - 1 = k := by omega
  by_cases hk : k < nDirect
  · refine ⟨_, ?_, shrunk_direct h hn hk h0 hbl⟩
    have hd : sin.din.direct ⟨k, hk⟩ = s.bmapAt i k := by rw [hb, mapAt_direct hk]
    have hfree : sfsBmapFreeNolock i k s =
        .ok (.ok (), (s.freeBlock (s.bmapAt i k)).modSin i (·.setDirect ⟨k, hk⟩ 0)) := by
      rw [sfsBmapFreeNolock, bind_of_ok (getSin_apply hn), dif_pos hk, hd, if_pos h0,
        bind_of_ok (sfsBlockFree_apply h.toMounted hu)]
      rfl
    rw [sfsBmapTruncateNolock, bind_of_ok (getSin_apply hn), ensure_bind_apply,
      if_pos (by omega), hpred, andThen_of_ok hfree, modify_bind_apply, modSin_modSin]
    rfl
  · refine ⟨_, ?_, shrunk_entry h hn hk h0 hbl⟩
    obtain ⟨hk', hi0⟩ := indirect_ne_zero_of_mapAt (by rwa [← hb]) hk
    have hui := h.inUse_indirect hn hi0
    obtain ⟨buf, hr, hw⟩ := readEntry_apply h.toMounted hi0 hui.lt hk'
    have hino : buf.get32 0 = s.bmapAt i k := by rw [hw, hb, mapAt_entry hk hk' hi0]
    have hw' : sfsWbuf (Bytes.zero.put32 0 0) 0 4 sin.din.indirect ((k - nDirect) * 4) s =
        .ok (.ok (Bytes.zero.put32 0 0), s.clearEntry sin.din.indirect (k - nDirect)) := by
      unfold blkNentry at hk'
      exact sfsWbuf_apply h.toMounted hi0 hui.lt (by unfold blkSize; omega)
        (by unfold blkSize; omega)
    have hmw : Mounted (s.clearEntry sin.din.indirect (k - nDirect)) := h.toMounted.writeDisk
    have huw : InUse (s.clearEntry sin.din.indirect (k - nDirect)) (s.bmapAt i k) :=
      hu.of_eq rfl rfl
    have hfree : sfsBmapFreeNolock i k s =
        .ok (.ok (), (s.clearEntry sin.din.indirect (k - nDirect)).freeBlock (s.bmapAt i k)) := by
      rw [sfsBmapFreeNolock, bind_of_ok (getSin_apply hn), dif_neg hk, if_pos hk',
        if_pos hi0, sfsBmapFreeSubNolock, bind_of_ok (assertInuse_apply h.toMounted hui),
        ensure_bind_apply, if_pos hk', andThen_of_ok hr, hino]
      rw [if_pos h0, andThen_of_ok hw', bind_of_ok (sfsBlockFree_apply hmw huw)]
      rfl
    rw [sfsBmapTruncateNolock, bind_of_ok (getSin_apply hn), ensure_bind_apply,
      if_pos (by omega), hpred, andThen_of_ok hfree]
    rfl

end Ucore

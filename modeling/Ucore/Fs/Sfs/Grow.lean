import Ucore.Fs.Sfs.Frame

set_option autoImplicit false

/-!
# Giving blocks to a file and taking them back

The effect on the whole file system of the block allocations and releases that the block map
functions make.

## Main definitions

* `limit` — the number of blocks up to which a file can grow.
* `Grown` — the file `i` has been given a cleared block at its logical index `k`.
* `Shrunk` — the file `i` has lost the block at its logical index `k`.
* `Kept` — nothing that a file refers to has changed.

## Main results

* `grown_direct`, `grown_entry`, `grown_indirect` — a file gets a block through
  a direct pointer, an entry of its indirect block, or a new indirect block.
* `kept_rollback` — an allocation that is taken back.
* `shrunk_direct`, `shrunk_entry` — a file loses a block.
-/

namespace Ucore

open Function Finset Bytes

/-- The number of blocks up to which the file `i` can grow: its blocks and the free ones, less one
if an indirect block is needed and missing. -/
def limit (s : SfsFs) (i : ℕ) : ℕ :=
  (s.dinOf i).blocks + s.freemap.free.card -
    if (s.dinOf i).indirect = 0 ∧ nDirect < (s.dinOf i).blocks + s.freemap.free.card then 1 else 0

/-- `sin'` is `sin` up to the block map and the dirty flag. -/
structure SameMeta (sin sin' : SfsInode) : Prop where
  size : sin'.din.size = sin.din.size
  type : sin'.din.type = sin.din.type
  nlinks : sin'.din.nlinks = sin.din.nlinks

/-- The file `i` of `s` has been given the cleared block `b` as its last block, at index `k`. -/
structure Grown (I : Finset ℕ) (i k b : ℕ) (s t : SfsFs) : Prop where
  frame : Frame I i s t
  node : ∀ sin, s.nodes i = some sin → ∃ sin', t.nodes i = some sin' ∧ SameMeta sin sin' ∧
    sin'.din.blocks = k + 1
  ne_zero : b ≠ 0
  bmapAt : ∀ m, t.bmapAt i m = if m = k then b else s.bmapAt i m
  fresh : ∀ q < blkSize, t.data i k q = 0
  data : ∀ m ≠ k, s.bmapAt i m ≠ 0 → t.data i m = s.data i m
  limit : Ucore.limit t i = Ucore.limit s i

/-- The file `i` of `s` has lost its last block, at index `k`. -/
structure Shrunk (I : Finset ℕ) (i k : ℕ) (s t : SfsFs) : Prop where
  frame : Frame I i s t
  node : ∀ sin, s.nodes i = some sin → ∃ sin', t.nodes i = some sin' ∧ SameMeta sin sin' ∧
    sin'.din.blocks = k
  bmapAt : ∀ m, t.bmapAt i m = if m = k then 0 else s.bmapAt i m
  data : ∀ m ≠ k, s.bmapAt i m ≠ 0 → t.data i m = s.data i m

/-- Nothing that the files refer to has changed. -/
structure Kept (I : Finset ℕ) (i : ℕ) (s t : SfsFs) : Prop where
  frame : Frame I i s t
  nodes : t.nodes = s.nodes
  free : t.freemap.free = s.freemap.free
  bmapAt : ∀ m, t.bmapAt i m = s.bmapAt i m
  data : ∀ m, s.bmapAt i m ≠ 0 → t.data i m = s.data i m

variable {I : Finset ℕ} {s t : SfsFs} {sin : SfsInode} {i k b e : ℕ}

section Alloc

variable {i k b c : ℕ} {x : Slot}

lemma allocBlock_disk_of_ne (hc : c ≠ b) : (s.allocBlock b).disk c = s.disk c :=
  writeDisk_disk_of_ne hc

lemma allocBlock_free (hb : b ∈ s.freemap.free) :
    (s.allocBlock b).freemap.free = s.freemap.free.erase b := claim_free hb

lemma allocBlock_disk_self {q : ℕ} (hq : q < blkSize) : (s.allocBlock b).disk b q = 0 := by
  rw [SfsFs.allocBlock, writeDisk_disk_self, copy_of_mem _ _ (Nat.zero_le q) (by omega)]
  rfl

lemma allocBlock_get32 {o : ℕ} (ho : o + 4 ≤ blkSize) : ((s.allocBlock b).disk b).get32 o = 0 := by
  rw [← get32_zero o]
  refine get32_congr fun j hj => ?_
  exact allocBlock_disk_self (by omega)

lemma Sound.ref_ne_free (h : Sound I s) (hb : b ∈ s.freemap.free) (x : Slot) : s.ref I x ≠ b :=
  h.owning.ne_of_free hb (h.free b hb).1 x

lemma Sound.cached_of_other (h : Sound I s) (hi : i ∈ I) (hn : ∀ j ≠ i, t.nodes j = s.nodes j) :
    ∀ j sin, t.nodes j = some sin → j ∈ I := by
  intro j sin hj
  by_cases hji : j = i
  · exact hji ▸ hi
  · exact h.cached j sin (by rw [← hn j hji, hj])

/-- A data block is not the indirect block. -/
lemma Sound.data_ne_indirect (h : Sound I s) (hn : s.nodes i = some sin) (hk : s.bmapAt i k ≠ 0) :
    s.bmapAt i k ≠ sin.din.indirect := by
  intro e
  have hi := h.cached i sin hn
  have : Slot.data i k = Slot.indirect i := h.owning.inj _ _ (by rwa [ref_data hi])
    (by rw [ref_data hi, ref_indirect hi, dinOf_of_node hn, e])
  cases this

lemma Sound.range_update (h : Sound I s) (hb : b < s.super.blocks) (y : Slot) :
    update (s.ref I) x b y < s.super.blocks := by
  rw [update_apply]
  split_ifs
  · exact hb
  · exact h.range y

/-- Giving a free block to an empty slot keeps the file system sound and loses no block. -/
lemma Sound.assign (h : Sound I s) (hb : b ∈ s.freemap.free) (hx : s.ref I x = 0) (hm : Mounted t)
    (hf : t.freemap.free = s.freemap.free.erase b) (hr : t.ref I = update (s.ref I) x b)
    (hu : t.super.unusedBlocks = s.super.unusedBlocks - 1)
    (hbl : t.super.blocks = s.super.blocks) (hc : ∀ i sin, t.nodes i = some sin → i ∈ I) :
    Sound I t ∧ t.lost I = s.lost I := by
  have hb0 := h.free b hb
  refine ⟨⟨hm, ?_, fun y => ?_, ?_, hc⟩, ?_⟩
  · rw [hf, hr]
    exact h.owning.assign hb hb0.1
  · rw [hr, hbl]
    exact h.range_update hb0.2 y
  · rw [hu, hf, h.unused, card_erase_of_mem hb]
  · rw [SfsFs.lost, hf, hr, Owning.lost_assign hx hb, SfsFs.lost]

/-- Taking the block of a slot back keeps the file system sound and loses no block. -/
lemma Sound.release (h : Sound I s) (hx : s.ref I x ≠ 0) (hm : Mounted t)
    (hf : t.freemap.free = insert (s.ref I x) s.freemap.free)
    (hr : t.ref I = update (s.ref I) x 0)
    (hu : t.super.unusedBlocks = s.super.unusedBlocks + 1)
    (hbl : t.super.blocks = s.super.blocks) (hc : ∀ i sin, t.nodes i = some sin → i ∈ I) :
    Sound I t ∧ t.lost I = s.lost I := by
  refine ⟨⟨hm, ?_, fun y => ?_, ?_, hc⟩, ?_⟩
  · rw [hf, hr]
    exact h.owning.release hx
  · rw [hr, hbl]
    exact h.range_update (Nat.zero_lt_of_lt (h.range x)) y
  · rw [hu, hf, h.unused, card_insert_of_notMem (h.owning.inUse x hx)]
  · rw [SfsFs.lost, hf, hr, Owning.lost_release, SfsFs.lost]

end Alloc

/-! ## The block map -/

section Map

variable {k b : ℕ} {din din' : SfsDiskInode}

/-- The block map after a direct pointer is set. -/
lemma mapAt_setDirect (hk : k < nDirect) (hd : din'.direct = update din.direct ⟨k, hk⟩ b)
    (hi : din'.indirect = din.indirect) (hc : t.disk din.indirect = s.disk din.indirect) (m : ℕ) :
    t.mapAt din' m = if m = k then b else s.mapAt din m := by
  by_cases hm : m < nDirect
  · rw [mapAt_direct hm, mapAt_direct hm, hd, update_apply]
    simp only [Fin.mk.injEq]
  · rw [if_neg (by omega)]
    simp only [SfsFs.mapAt, dif_neg hm, hi, hc]

/-- The block map after an entry of the indirect block is written. -/
lemma mapAt_setEntry (hk : ¬k < nDirect) (hk' : k - nDirect < blkNentry) (hi0 : din.indirect ≠ 0)
    (hd : din'.direct = din.direct) (hi : din'.indirect = din.indirect)
    (hw : ∀ j, (t.disk din.indirect).get32 (j * 4) =
      if j = k - nDirect then b else (s.disk din.indirect).get32 (j * 4)) (m : ℕ) :
    t.mapAt din' m = if m = k then b else s.mapAt din m := by
  by_cases hm : m < nDirect
  · rw [if_neg (by omega), mapAt_direct hm, mapAt_direct hm, hd]
  · by_cases hm' : m - nDirect < blkNentry
    · rw [mapAt_entry hm hm' (by rwa [hi]), mapAt_entry hm hm' hi0, hi, hw]
      by_cases hmk : m = k
      · rw [if_pos (by omega), if_pos hmk]
      · rw [if_neg (by omega), if_neg hmk]
    · have hmk : m ≠ k := by
        rintro rfl
        exact hm' hk'
      rw [if_neg hmk]
      simp only [SfsFs.mapAt, dif_neg hm, hm', false_and, if_false]

/-- The words of a block after an entry is written. -/
lemma get32_writeDisk {ent index m : ℕ} (hb : b < 2 ^ 32) :
    ((s.writeDisk ent (index * 4) (Bytes.zero.put32 0 b) 0 4).disk ent).get32 (m * 4) =
      if m = index then b else (s.disk ent).get32 (m * 4) := by
  rw [writeDisk_disk_self]
  by_cases hm : m = index
  · subst hm
    rw [if_pos rfl, get32_copy _ _ (le_refl _) (by omega), Nat.sub_self,
      get32_put32 _ _ hb]
  · rw [if_neg hm, get32_copy_of_disjoint _ _ (by omega)]

end Map

/-! ## Growing -/

/-- The references after the slot `x` of the file `i` has got the block `b`. -/
lemma ref_eq_update (h : Sound I s) (hn : ∀ j ≠ i, t.nodes j = s.nodes j)
    (hd : DiskChange I i s t) {x : Slot} (hx : x.owner = i) (hx' : x ≠ .inode i)
    (hind : t.ref I (.indirect i) = update (s.ref I) x b (.indirect i))
    (hmap : ∀ m, t.ref I (.data i m) = update (s.ref I) x b (.data i m)) :
    t.ref I = update (s.ref I) x b := by
  funext y
  by_cases hy : y.owner = i
  · cases y with
    | inode j =>
      change j = i at hy
      rw [hy, update_of_ne hx'.symm]
      rfl
    | indirect j =>
      change j = i at hy
      rw [hy, hind]
    | data j m =>
      change j = i at hy
      rw [hy, hmap]
  · rw [hd.ref_eq h hn hy, update_of_ne]
    rintro rfl
    exact hy hx

/-- The references after the file `i` has been given the block `b` at index `k`. -/
lemma ref_eq_update_data (h : Sound I s) (hi : i ∈ I) (hn : ∀ j ≠ i, t.nodes j = s.nodes j)
    (hd : DiskChange I i s t) (hind : (t.dinOf i).indirect = (s.dinOf i).indirect)
    (hmap : ∀ m, t.bmapAt i m = if m = k then b else s.bmapAt i m) :
    t.ref I = update (s.ref I) (.data i k) b := by
  refine ref_eq_update h hn hd rfl (by simp) ?_ fun m => ?_
  · rw [update_of_ne (by simp), ref_indirect hi, ref_indirect hi, hind]
  · rw [ref_data hi, hmap, update_apply, ref_data hi]
    simp only [Slot.data.injEq, true_and]

/-- A file whose pointers change keeps its limit if it gets a block for a free one. -/
lemma limit_of_grow (hb : b ∈ s.freemap.free) (hf : t.freemap.free = s.freemap.free.erase b)
    (hbl : (t.dinOf i).blocks = (s.dinOf i).blocks + 1)
    (hind : (t.dinOf i).indirect = (s.dinOf i).indirect) : limit t i = limit s i := by
  have hcard : s.freemap.free.card ≠ 0 := card_ne_zero_of_mem hb
  have hsum : (t.dinOf i).blocks + t.freemap.free.card =
      (s.dinOf i).blocks + s.freemap.free.card := by
    rw [hf, card_erase_of_mem hb, hbl]
    omega
  rw [limit, limit, hsum, hind]

section

variable (h : Sound I s) (hn : s.nodes i = some sin) (hb : b ∈ s.freemap.free)
include h hn hb

/-- **Growing**, from the change of the state: the new block `b` is cleared, nothing else on the
disk changes but the indirect block of the file, and the block map gets `b` at index `k`. -/
lemma Grown.of_alloc {sin' : SfsInode} (hx : s.bmapAt i k = 0) (hbl : sin.din.blocks = k)
    (hn' : t.nodes i = some sin') (hmeta : SameMeta sin sin') (hbl' : sin'.din.blocks = k + 1)
    (hind : sin'.din.indirect = sin.din.indirect) (hnodes : ∀ j ≠ i, t.nodes j = s.nodes j)
    (hdisk : ∀ c, c ≠ b → (c = sin.din.indirect → c = 0) → t.disk c = s.disk c)
    (hfresh : ∀ q < blkSize, t.disk b q = 0) (hm : Mounted t)
    (hfree : t.freemap.free = s.freemap.free.erase b)
    (hu : t.super.unusedBlocks = s.super.unusedBlocks - 1) (hsup : SuperNoted s t)
    (hmap : ∀ m, t.bmapAt i m = if m = k then b else s.bmapAt i m) : Grown I i k b s t := by
  have hi : i ∈ I := h.cached i sin hn
  have hb0 := h.free b hb
  have hdin := dinOf_of_node hn
  have hdin' := dinOf_of_node hn'
  have hdc : DiskChange I i s t := by
    intro c hc
    by_cases hcb : c = b
    · exact hcb ▸ ⟨hb0.1, .inl hb⟩
    · have hci : c = sin.din.indirect ∧ c ≠ 0 := by
        by_contra hne
        rw [not_and, not_not] at hne
        exact hc (hdisk c hcb hne)
      exact ⟨hci.2, .inr ⟨.indirect i, rfl, by simp, by rw [ref_indirect hi, hdin, hci.1]⟩⟩
  obtain ⟨hs, hl⟩ := h.assign hb (by rw [ref_data hi, hx]) hm hfree
    (ref_eq_update_data h hi hnodes hdc (by rw [hdin, hdin', hind]) hmap) hu hsup.blocks
    (h.cached_of_other hi hnodes)
  refine ⟨.of_change h hnodes hdc hs hl hsup, ?_, hb0.1, hmap, ?_, ?_, ?_⟩
  · intro sin'' hs'
    rw [hn] at hs'
    cases hs'
    exact ⟨sin', hn', hmeta, hbl'⟩
  · intro q hq
    rw [SfsFs.data, hmap, if_pos rfl]
    exact hfresh q hq
  · intro m hmk hm0
    rw [SfsFs.data, hmap, if_neg hmk]
    refine hdisk _ ?_ fun e => ?_
    · rw [← ref_data hi]
      exact h.ref_ne_free hb _
    · exact absurd e (h.data_ne_indirect hn hm0)
  · refine limit_of_grow hb hfree ?_ ?_
    · rw [hdin, hdin', hbl, hbl']
    · rw [hdin, hdin', hind]

lemma Sound.indirect_ne_free : sin.din.indirect ≠ b := by
  have := h.ref_ne_free hb (.indirect i)
  rwa [ref_indirect (h.cached i sin hn), dinOf_of_node hn] at this

/-- **Growing through a direct pointer.** -/
lemma grown_direct (hk : k < nDirect) (h0 : sin.din.direct ⟨k, hk⟩ = 0) (hbl : sin.din.blocks = k) :
    Grown I i k b s ((s.allocBlock b).modSin i fun sin =>
      (sin.setDirect ⟨k, hk⟩ b).setBlocks (sin.din.blocks + 1)) := by
  set f : SfsInode → SfsInode := fun sin =>
    (sin.setDirect ⟨k, hk⟩ b).setBlocks (sin.din.blocks + 1) with hf
  have hn' : ((s.allocBlock b).modSin i f).nodes i = some (f sin) := modSin_nodes_self hn
  have hind := h.indirect_ne_free hn hb
  refine .of_alloc h hn hb ?_ hbl hn' ⟨rfl, rfl, rfl⟩ (by simp [hf, SfsInode.setBlocks, hbl])
    rfl (fun j hj => modSin_nodes_of_ne hj) (fun c hc _ => allocBlock_disk_of_ne hc)
    (fun q hq => allocBlock_disk_self hq) (h.toMounted.allocBlock hb).modSin (allocBlock_free hb)
    rfl (.of_dirty rfl rfl rfl rfl) ?_
  · rw [bmapAt_of_node hn, mapAt_direct hk, h0]
  · intro m
    rw [bmapAt_of_node hn', bmapAt_of_node hn]
    exact mapAt_setDirect hk (by rfl) (by rfl) (by exact allocBlock_disk_of_ne hind) m

/-- The state after block `b` is allocated and entered into the entry block `ent` at `index`. -/
def SfsFs.enter (s : SfsFs) (ent index b : ℕ) : SfsFs :=
  (s.allocBlock b).writeDisk ent (index * 4) (Bytes.zero.put32 0 b) 0 4

/-- **Growing through an entry of the indirect block.** -/
lemma grown_entry (hk : ¬k < nDirect) (hk' : k - nDirect < blkNentry) (hi0 : sin.din.indirect ≠ 0)
    (h0 : s.bmapAt i k = 0) (hbl : sin.din.blocks = k) :
    Grown I i k b s ((s.enter sin.din.indirect (k - nDirect) b).modSin i fun sin =>
      sin.setBlocks (sin.din.blocks + 1)) := by
  set f : SfsInode → SfsInode := fun sin => sin.setBlocks (sin.din.blocks + 1) with hf
  have hn' : ((s.enter sin.din.indirect (k - nDirect) b).modSin i f).nodes i = some (f sin) :=
    modSin_nodes_self hn
  have hind := h.indirect_ne_free hn hb
  have hb0 := h.free b hb
  have hb32 : b < 2 ^ 32 := by
    have := h.blocks_le
    omega
  have hdisk : ∀ c, c ≠ b → c ≠ sin.din.indirect →
      (s.enter sin.din.indirect (k - nDirect) b).disk c = s.disk c := by
    intro c hc hci
    rw [SfsFs.enter, writeDisk_disk_of_ne hci, allocBlock_disk_of_ne hc]
  refine .of_alloc h hn hb h0 hbl hn' ⟨rfl, rfl, rfl⟩ (by simp [hf, SfsInode.setBlocks, hbl])
    rfl (fun j hj => modSin_nodes_of_ne hj) (fun c hc hci => ?_) (fun q hq => ?_)
    (h.toMounted.allocBlock hb).writeDisk.modSin (allocBlock_free hb) rfl
    (.of_dirty rfl rfl rfl rfl) ?_
  · exact hdisk c hc fun e => hi0 (e ▸ hci e)
  · rw [modSin_disk, SfsFs.enter, writeDisk_disk_of_ne hind.symm]
    exact allocBlock_disk_self hq
  · intro m
    rw [bmapAt_of_node hn', bmapAt_of_node hn]
    refine mapAt_setEntry hk hk' hi0 rfl rfl (fun j => ?_) m
    rw [modSin_disk, SfsFs.enter, get32_writeDisk hb32, allocBlock_disk_of_ne hind]

/-- **Attaching an indirect block** to a file without one. -/
lemma frame_attach (hi0 : sin.din.indirect = 0) :
    let t := (s.allocBlock b).modSin i (·.setIndirect b)
    Frame I i s t ∧ (∀ m, t.bmapAt i m = s.bmapAt i m) ∧
      ∀ m, s.bmapAt i m ≠ 0 → t.data i m = s.data i m := by
  intro t
  have hi : i ∈ I := h.cached i sin hn
  have hb0 := h.free b hb
  have hn' : t.nodes i = some (sin.setIndirect b) := modSin_nodes_self hn
  have hnodes : ∀ j ≠ i, t.nodes j = s.nodes j := fun j hj => modSin_nodes_of_ne hj
  have hdisk : ∀ c ≠ b, t.disk c = s.disk c := fun c hc => allocBlock_disk_of_ne hc
  have hdc : DiskChange I i s t := by
    intro c hc
    have hcb : c = b := by
      by_contra hne
      exact hc (hdisk c hne)
    exact hcb ▸ ⟨hb0.1, .inl hb⟩
  -- the entries of the new block are zero
  have hmap : ∀ m, t.bmapAt i m = s.bmapAt i m := by
    intro m
    rw [bmapAt_of_node hn', bmapAt_of_node hn]
    by_cases hm : m < nDirect
    · rw [mapAt_direct hm, mapAt_direct hm]
      rfl
    · rw [mapAt_no_entry hm hi0]
      by_cases hm' : m - nDirect < blkNentry
      · have hi1 : (sin.setIndirect b).din.indirect ≠ 0 := hb0.1
        rw [mapAt_entry hm hm' hi1]
        refine allocBlock_get32 ?_
        unfold blkNentry at hm'
        unfold blkSize
        omega
      · simp only [SfsFs.mapAt, dif_neg hm, hm', false_and, if_false]
  have hdin : t.dinOf i = (sin.setIndirect b).din := dinOf_of_node hn'
  obtain ⟨hs, hl⟩ := h.assign hb (by rw [ref_indirect hi, dinOf_of_node hn, hi0])
    (h.toMounted.allocBlock hb).modSin (allocBlock_free hb)
    (ref_eq_update (x := .indirect i) h hnodes hdc rfl (by simp)
      (by rw [ref_indirect hi, hdin, update_self]; rfl)
      fun m => by rw [ref_data hi, hmap, update_of_ne (by simp), ref_data hi]) rfl rfl
    (h.cached_of_other hi hnodes)
  refine ⟨.of_change h hnodes hdc hs hl (.of_dirty rfl rfl rfl rfl), hmap, fun m hm => ?_⟩
  rw [SfsFs.data, hmap]
  refine hdisk _ ?_
  rw [← ref_data hi]
  exact h.ref_ne_free hb _

end

/-- **Growing with a new indirect block** `e`. -/
lemma grown_indirect (h : Sound I s) (hn : s.nodes i = some sin) (he : e ∈ s.freemap.free)
    (hb : b ∈ s.freemap.free) (hbe : b ≠ e) (hk : ¬k < nDirect) (hk' : k - nDirect < blkNentry)
    (hi0 : sin.din.indirect = 0) (hbl : sin.din.blocks = k) :
    Grown I i k b s (((s.allocBlock e).enter e (k - nDirect) b).modSin i fun sin =>
      (sin.setIndirect e).setBlocks (sin.din.blocks + 1)) := by
  obtain ⟨hfr, hmap, hdata⟩ := frame_attach h hn he hi0
  set u := (s.allocBlock e).modSin i (·.setIndirect e) with hu
  have hnu : u.nodes i = some (sin.setIndirect e) := modSin_nodes_self hn
  have hfree : u.freemap.free = s.freemap.free.erase e := allocBlock_free he
  have hbu : b ∈ u.freemap.free := by
    rw [hfree]
    exact mem_erase.mpr ⟨hbe, hb⟩
  have h0 : s.bmapAt i k = 0 := by rw [bmapAt_of_node hn, mapAt_no_entry hk hi0]
  have g : Grown I i k b u ((u.enter e (k - nDirect) b).modSin i fun sin =>
      sin.setBlocks (sin.din.blocks + 1)) :=
    grown_entry hfr.sound hnu hbu hk hk' (h.free e he).1 (by rw [hmap, h0]) hbl
  -- setting the pointer before or after the second allocation is the same
  have hst : ((s.allocBlock e).enter e (k - nDirect) b).modSin i
        (fun sin => (sin.setIndirect e).setBlocks (sin.din.blocks + 1)) =
      (u.enter e (k - nDirect) b).modSin i fun sin => sin.setBlocks (sin.din.blocks + 1) := by
    have hcomm : u.enter e (k - nDirect) b =
        ((s.allocBlock e).enter e (k - nDirect) b).modSin i (·.setIndirect e) := rfl
    rw [hcomm, modSin_modSin]
    rfl
  rw [hst]
  refine ⟨hfr.trans g.frame, ?_, g.ne_zero, ?_, g.fresh, ?_, ?_⟩
  · intro sin' hs'
    rw [hn] at hs'
    cases hs'
    obtain ⟨sin'', h1, h2, h3⟩ := g.node _ hnu
    exact ⟨sin'', h1, ⟨h2.size, h2.type, h2.nlinks⟩, h3⟩
  · intro m
    rw [g.bmapAt, hmap]
  · intro m hm hm0
    rw [g.data m hm (by rwa [hmap]), hdata m hm0]
  · -- one block for the indirect block, as the limit foresees
    rw [g.limit]
    have hcard : 2 ≤ s.freemap.free.card := by
      have := card_pos.mpr ⟨b, mem_erase.mpr ⟨hbe, hb⟩⟩
      rw [card_erase_of_mem he] at this
      omega
    have hdu : u.dinOf i = (sin.setIndirect e).din := dinOf_of_node hnu
    unfold limit
    rw [hdu, dinOf_of_node hn, hfree, card_erase_of_mem he]
    rw [if_neg (by simp [SfsInode.setIndirect, (h.free e he).1]), if_pos ⟨hi0, by omega⟩]
    simp only [SfsInode.setIndirect]
    omega

/-! ## Failing and shrinking -/

section

variable (h : Sound I s)
include h

lemma Kept.refl : Kept I i s s :=
  ⟨.refl h, rfl, rfl, fun _ => rfl, fun _ _ => rfl⟩

/-- An allocation that is taken back. -/
lemma kept_rollback (hi : i ∈ I) (he : e ∈ s.freemap.free) :
    Kept I i s ((s.allocBlock e).freeBlock e) := by
  set t := (s.allocBlock e).freeBlock e with ht
  have he0 := h.free e he
  have hu : InUse (s.allocBlock e) e := (InUse.claim h.toMounted he).of_eq rfl rfl
  have hmt := h.toMounted.allocBlock he
  have hfree : t.freemap.free = s.freemap.free := by
    rw [ht, freeBlock_free hmt hu, allocBlock_free he, insert_erase he]
  have hsuper : t.super = s.super := by
    have hpos : s.super.unusedBlocks - 1 + 1 = s.super.unusedBlocks := by
      have := card_pos.mpr ⟨e, he⟩
      rw [h.unused]
      omega
    exact congrArg (fun n => { s.super with unusedBlocks := n }) hpos
  have hdisk : ∀ c ≠ e, t.disk c = s.disk c := fun c hc => allocBlock_disk_of_ne hc
  have hne : ∀ x, s.ref I x ≠ e := h.ref_ne_free he
  have hdin : ∀ j ∈ I, t.dinOf j = s.dinOf j := by
    intro j hj
    refine dinOf_congr rfl fun _ => hdisk j ?_
    have := hne (.inode j)
    rwa [ref_inode hj] at this
  have href : t.ref I = s.ref I := by
    refine ref_congr hdin fun j hj _ => hdisk _ ?_
    have := hne (.indirect j)
    rwa [ref_indirect hj] at this
  have hdc : DiskChange I i s t := by
    intro c hc
    have hce : c = e := by
      by_contra hne'
      exact hc (hdisk c hne')
    exact hce ▸ ⟨he0.1, .inl he⟩
  have hmap := bmapAt_of_ref hi href
  obtain ⟨hs, hl⟩ := h.of_ref_eq (hmt.freeBlock hu) hfree href hsuper h.cached
  refine ⟨.of_change h (fun _ _ => rfl) hdc hs hl (.of_dirty rfl rfl rfl rfl), rfl, hfree,
    hmap, fun m hm => ?_⟩
  rw [SfsFs.data, hmap]
  refine hdisk _ ?_
  rw [← ref_data hi]
  exact hne _

section

variable (hn : s.nodes i = some sin)
include hn

/-- **Shrinking**, from the change of the state: the block of index `k` is free again, nothing on
the disk changes but the indirect block of the file, and the index is unmapped. -/
lemma Shrunk.of_release {sin' : SfsInode} (hx : s.bmapAt i k ≠ 0) (hn' : t.nodes i = some sin')
    (hmeta : SameMeta sin sin') (hbl : sin'.din.blocks = k)
    (hind : sin'.din.indirect = sin.din.indirect) (hnodes : ∀ j ≠ i, t.nodes j = s.nodes j)
    (hdisk : ∀ c, (c = sin.din.indirect → c = 0) → t.disk c = s.disk c) (hm : Mounted t)
    (hfree : t.freemap.free = insert (s.bmapAt i k) s.freemap.free)
    (hu : t.super.unusedBlocks = s.super.unusedBlocks + 1) (hsup : SuperNoted s t)
    (hmap : ∀ m, t.bmapAt i m = if m = k then 0 else s.bmapAt i m) : Shrunk I i k s t := by
  have hi : i ∈ I := h.cached i sin hn
  have hdin := dinOf_of_node hn
  have hdin' := dinOf_of_node hn'
  have hdc : DiskChange I i s t := by
    intro c hc
    have hci : c = sin.din.indirect ∧ c ≠ 0 := by
      by_contra hne
      rw [not_and, not_not] at hne
      exact hc (hdisk c hne)
    exact ⟨hci.2, .inr ⟨.indirect i, rfl, by simp, by rw [ref_indirect hi, hdin, hci.1]⟩⟩
  obtain ⟨hs, hl⟩ := h.release (x := .data i k) (by rwa [ref_data hi]) hm
    (by rw [ref_data hi, hfree])
    (ref_eq_update_data h hi hnodes hdc (by rw [hdin, hdin', hind]) hmap) hu hsup.blocks
    (h.cached_of_other hi hnodes)
  refine ⟨.of_change h hnodes hdc hs hl hsup, ?_, hmap, ?_⟩
  · intro sin'' hs'
    rw [hn] at hs'
    cases hs'
    exact ⟨sin', hn', hmeta, hbl⟩
  · intro m hmk hm0
    rw [SfsFs.data, hmap, if_neg hmk]
    exact hdisk _ fun e => absurd e (h.data_ne_indirect hn hm0)

lemma Sound.inUse_data (hk : s.bmapAt i k ≠ 0) : InUse s (s.bmapAt i k) := by
  have hi := h.cached i sin hn
  have := h.inUse (x := .data i k) (by rwa [ref_data hi])
  rwa [ref_data hi] at this

lemma Sound.inUse_indirect (h0 : sin.din.indirect ≠ 0) : InUse s sin.din.indirect := by
  have hi := h.cached i sin hn
  have hr : s.ref I (.indirect i) = sin.din.indirect := by rw [ref_indirect hi, dinOf_of_node hn]
  have := h.inUse (x := .indirect i) (by rwa [hr])
  rwa [hr] at this

/-- **Shrinking through a direct pointer.** -/
lemma shrunk_direct (hk : k < nDirect) (h0 : s.bmapAt i k ≠ 0) (hbl : sin.din.blocks = k + 1) :
    Shrunk I i k s ((s.freeBlock (s.bmapAt i k)).modSin i fun sin =>
      ((sin.setDirect ⟨k, hk⟩ 0).setBlocks (sin.din.blocks - 1)).setDirty) := by
  set f : SfsInode → SfsInode := fun sin =>
    ((sin.setDirect ⟨k, hk⟩ 0).setBlocks (sin.din.blocks - 1)).setDirty with hf
  have hn' : ((s.freeBlock (s.bmapAt i k)).modSin i f).nodes i = some (f sin) :=
    modSin_nodes_self hn
  have hu := h.inUse_data hn h0
  refine .of_release h hn h0 hn' ⟨rfl, rfl, rfl⟩
    (by simp [hf, SfsInode.setBlocks, SfsInode.setDirty, hbl]) rfl
    (fun j hj => modSin_nodes_of_ne hj) (fun c _ => rfl) (h.toMounted.freeBlock hu).modSin
    (freeBlock_free h.toMounted hu) rfl (.of_dirty rfl rfl rfl rfl) fun m => ?_
  rw [bmapAt_of_node hn', bmapAt_of_node (k := m) hn]
  exact mapAt_setDirect hk (by rfl) (by rfl) (by rfl) m

/-- The state after the entry `index` of the entry block `ent` is cleared. -/
def SfsFs.clearEntry (s : SfsFs) (ent index : ℕ) : SfsFs :=
  s.writeDisk ent (index * 4) (Bytes.zero.put32 0 0) 0 4

/-- **Shrinking through an entry of the indirect block.** -/
lemma shrunk_entry (hk : ¬k < nDirect) (h0 : s.bmapAt i k ≠ 0) (hbl : sin.din.blocks = k + 1) :
    Shrunk I i k s (((s.clearEntry sin.din.indirect (k - nDirect)).freeBlock (s.bmapAt i k)).modSin
      i fun sin => (sin.setBlocks (sin.din.blocks - 1)).setDirty) := by
  set f : SfsInode → SfsInode := fun sin => (sin.setBlocks (sin.din.blocks - 1)).setDirty with hf
  have hn' : (((s.clearEntry sin.din.indirect (k - nDirect)).freeBlock
      (s.bmapAt i k)).modSin i f).nodes i = some (f sin) := modSin_nodes_self hn
  obtain ⟨hk', hi0⟩ := indirect_ne_zero_of_mapAt (by rwa [← bmapAt_of_node hn]) hk
  have hmw : Mounted (s.clearEntry sin.din.indirect (k - nDirect)) := h.toMounted.writeDisk
  have hu : InUse (s.clearEntry sin.din.indirect (k - nDirect)) (s.bmapAt i k) :=
    (h.inUse_data hn h0).of_eq rfl rfl
  refine .of_release h hn h0 hn' ⟨rfl, rfl, rfl⟩
    (by simp [hf, SfsInode.setBlocks, SfsInode.setDirty, hbl]) rfl
    (fun j hj => modSin_nodes_of_ne hj) (fun c hc => ?_) (hmw.freeBlock hu).modSin
    (freeBlock_free hmw hu) rfl (.of_dirty rfl rfl rfl rfl) fun m => ?_
  · exact writeDisk_disk_of_ne fun e => hi0 (e ▸ hc e)
  · rw [bmapAt_of_node hn', bmapAt_of_node (k := m) hn]
    exact mapAt_setEntry hk hk' hi0 rfl rfl (fun j => get32_writeDisk (by omega)) m

end

end

end Ucore

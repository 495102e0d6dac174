import Ucore.Fs.Sfs.ReadExact
import Ucore.Tools.MksfsClose

set_option autoImplicit false

/-!
# What the kernel reads from a built image

The kernel finds the inodes that the builder has written, and resolves the first blocks of each to
those that the builder has appended. Blocks behind the indirect block are not found: the builder
goes on with a double indirect block, which the kernel's inode does not have.

## Main definitions

* `Holding` — a mounted volume that holds what the builder has written.
* `ReadsBack` — the kernel reads back a file.

## Main results

* `Holding.din`, `Holding.bmapAt` — inodes and block maps.
* `image_agrees_iff` — a file is read back iff the indirect block suffices.
-/

namespace Ucore

open Function Comp List

/-- **A mounted volume with the image** of the builder's state `s`. -/
structure Holding (s : MkSfs) (fs : SfsFs) : Prop where
  mounted : Mounted fs
  blocks : fs.super.blocks = s.ninos
  free : fs.freemap.free = Finset.Ico s.nextIno s.ninos
  image : ∃ image, Closed s image ∧ ∀ b < s.ninos, fs.disk b = image b

variable {s : MkSfs} {fs : SfsFs} {ci : CacheInode} {chunks : List (List UInt8)}

section View

variable {f i : ℕ}

/-- **Mounting the image** gives such a volume. -/
lemma MkInv.holding (h : MkInv s) {image : ℕ → Bytes} (hc : Closed s image) {dev : SfsDevice}
    (hs : dev.dBlocksize = blkSize) (hf : dev.faults = []) (hle : s.ninos ≤ dev.dBlocks)
    (hd : ∀ b < s.ninos, dev.disk b = image b) :
    ∃ fs, sfsDoMount dev = .ok (.ok fs, dev) ∧ Holding s fs ∧ fs.nodes = fun _ => none := by
  obtain ⟨fs, e, hsup, hdisk, hn, hfa, hbits, hwords, hfree⟩ := h.mounts hc hs hf hle hd
  have hblocks : fs.super.blocks = s.ninos := by rw [hsup, h.super]
  have hmax := h.ninos
  have hfirst := h.first
  unfold maxNblks at hmax
  unfold firstIno blknFreemap at hfirst
  refine ⟨fs, e, ⟨⟨?_, ?_, ?_, fun b hb => ?_, hfa⟩, hblocks, hfree, image, hc, ?_⟩, hn⟩
  · rw [hblocks]
    omega
  · rw [hblocks, hbits]
    exact le_freemapBlocks_mul _
  · rw [hbits, hwords]
    unfold blkBits blkSize wordBits blkNentry
    omega
  · rw [hfree, Finset.mem_Ico] at hb
    rw [hblocks]
    omega
  · rw [hdisk]
    exact hd

namespace Holding

section

variable (x : Holding s fs) (h : MkInv s) (hf : s.inodeOf f = some ci)
include x h hf

/-- The inode on the disk is the builder's. -/
lemma din : decodeInode (fs.disk f) = ci.inode.toSfsDiskInode := by
  obtain ⟨image, hc, hd⟩ := x.image
  have hm := h.maps f ci hf
  have hlen := hm.le
  have hsize := hm.size
  have hword : ∀ y, s.ref y < 2 ^ 32 := fun y => h.lt_word ((h.ref_lt y).trans_le h.next).le
  unfold lnNblks maxFileSize blkSize at hlen
  unfold blkSize at hsize
  have hfits : ci.inode.toSfsDiskInode.Fits := by
    refine ⟨by omega, hm.type, hm.nlinks, by rw [hm.blocks]; omega, fun k => ?_, ?_⟩
    · rw [hm.direct]
      exact hword (.data f k)
    · have := hword (.indirect f)
      rwa [ref_indirect_of_node hf] at this
  rw [hd f (h.inode_bounds (by simp [hf])).2.2, hc.inode f ci hf, ← decodeInode_encodeInode hfits]
  refine decodeInode_congr fun k hk => ?_
  rw [padded, Bytes.copy_of_mem _ _ (Nat.zero_le k) (by omega), Nat.zero_add, Nat.sub_zero]
  exact if_neg (by omega)

lemma loaded_dinOf : (fs.loaded f).dinOf f = ci.inode.toSfsDiskInode := by
  rw [dinOf_of_node (loaded_node fs f)]
  exact x.din h hf

/-- **The kernel's block map** is what has been appended, as far as the indirect block reaches. -/
lemma bmapAt (hi : i < maxBlocks) : (fs.loaded f).bmapAt f i = (s.appended f).getD i 0 := by
  have hm := h.maps f ci hf
  rw [SfsFs.bmapAt, x.loaded_dinOf h hf]
  by_cases hd : i < nDirect
  · rw [mapAt_direct hd]
    exact hm.direct ⟨i, hd⟩
  · by_cases h0 : ci.inode.indirect = 0
    · have hle : ¬l0Nblks < (s.appended f).length := fun hc => hm.indirect hc h0
      rw [mapAt_no_entry hd h0, getD_eq_default]
      unfold l0Nblks at hle
      omega
    · obtain ⟨image, hc, hdisk⟩ := x.image
      obtain ⟨data, hdata, he⟩ := hm.entries h0
      have hj : i - nDirect < blkNentry := by
        unfold maxBlocks at hi
        omega
      rw [mapAt_entry hd hj h0]
      change (fs.disk ci.inode.indirect).get32 ((i - nDirect) * 4) = _
      rw [hdisk _ (h.cache_bounds (by simp [hdata])).2.2, hc.cache _ _ hdata, padded,
        Bytes.get32_copy _ _ (Nat.zero_le _)
          (by unfold blkNentry at hj; unfold blkSize; omega),
        show 0 + ((i - nDirect) * 4 - 0) = 4 * (i - nDirect) by omega, he _ hj]
      congr 1
      unfold l0Nblks
      omega

end

/-- The blocks of an inode are in use. -/
lemma inUse (x : Holding s fs) (h : MkInv s) {y : MkSlot} (hy : s.ref y ≠ 0) :
    InUse (fs.loaded f) (s.ref y) := by
  refine ⟨hy, ?_, ?_⟩
  · change _ < fs.super.blocks
    rw [x.blocks]
    exact (h.ref_lt y).trans_le h.next
  · change _ ∉ fs.freemap.free
    rw [x.free]
    exact h.owning.inUse y hy

lemma appended_ne_zero (h : MkInv s) (hi : i < (s.appended f).length) :
    s.ref (.data f i) ≠ 0 := by
  change (s.appended f).getD i 0 ≠ 0
  rw [getD_eq_getElem _ _ hi]
  exact h.stored f _ (getElem_mem hi)

section

variable (x : Holding s fs) (h : MkInv s) (hf : s.inodeOf f = some ci)
include x h hf

lemma inUse_bmapAt (hi : i < (s.appended f).length) (hmax : i < maxBlocks) :
    InUse (fs.loaded f) ((fs.loaded f).bmapAt f i) := by
  rw [x.bmapAt h hf hmax]
  exact x.inUse h (appended_ne_zero h hi)

lemma indirect_lt : (decodeInode (fs.disk f)).indirect < (fs.loaded f).super.blocks := by
  rw [x.din h hf]
  change _ < fs.super.blocks
  rw [x.blocks, ← ref_indirect_of_node hf]
  exact (h.ref_lt _).trans_le h.next

/-- **`sfs_bmap_get_nolock`** returns the block that has been appended. -/
lemma get_apply (hi : i < (s.appended f).length) (hmax : i < maxBlocks) (create : Bool) :
    sfsBmapGetNolock f i create (fs.loaded f) = .ok (.ok ((s.appended f).getD i 0),
      fs.loaded f) := by
  rw [get_mapped x.mounted.loaded (loaded_node fs f) (x.inUse_bmapAt h hf hi hmax)
    (fun _ => x.indirect_lt h hf) create, x.bmapAt h hf hmax]

lemma load_apply (hi : i < (s.appended f).length) (hmax : i < maxBlocks) :
    sfsBmapLoadNolock f i (fs.loaded f) = .ok (.ok ((s.appended f).getD i 0), fs.loaded f) := by
  have hblocks : (decodeInode (fs.disk f)).blocks = (s.appended f).length := by
    rw [x.din h hf]
    exact (h.maps f ci hf).blocks
  rw [load_mapped x.mounted.loaded (loaded_node fs f) (x.inUse_bmapAt h hf hi hmax)
    (fun _ => x.indirect_lt h hf) (by rw [hblocks]; exact hi), x.bmapAt h hf hmax]

/-- **`sfs_load_inode`** reads an inode that has links. -/
lemma load (hn : fs.nodes f = none) (hl : ci.inode.nlinks ≠ 0)
    (ht : ci.inode.type = typeDir ∨ ci.inode.type = typeFile) :
    sfsLoadInode f fs = .ok (.ok (), fs.loaded f) := by
  have hd := x.din h hf
  have href : s.ref (.inode f) = f := ref_inode_of_node hf
  have hu : InUse (fs.loaded f) (s.ref (.inode f)) :=
    x.inUse h (by rw [href]; exact h.node f (by simp [hf]))
  rw [href] at hu
  refine sfsLoadInode_apply x.mounted hn ⟨hu.1, hu.2, hu.3⟩ ?_ ?_
  · rwa [hd]
  · rwa [hd]

end

end Holding

lemma get_indexRange {k : SfsFs} {sin : SfsInode} (hn : k.nodes f = some sin) (hi : maxBlocks ≤ i)
    (create : Bool) : sfsBmapGetNolock f i create k = .error .indexRange := by
  unfold maxBlocks at hi
  rw [sfsBmapGetNolock, bind_of_ok (getSin_apply hn), dif_neg (by omega), if_neg (by omega)]
  rfl

end View

/-! ## Files -/

/-- The bytes of a file of the host. -/
def Host.content (host : Host) (real : ℕ) : List UInt8 := (host.chunks real).flatten

/-- **The kernel reads a file back**: its inode has the length of the file, every index is resolved
to the block that has been appended, and a read of the whole file returns its bytes. -/
structure ReadsBack (k : SfsFs) (f : ℕ) (appended : List ℕ) (content : List UInt8) : Prop where
  size : (k.dinOf f).size = content.length
  blocks : (k.dinOf f).blocks = appended.length
  map : ∀ i < (k.dinOf f).blocks, sfsBmapGetNolock f i false k = .ok (.ok (appended.getD i 0), k)
  read : ∀ buf, ∃ buf' t, sfsIoNolock false f buf 0 content.length k =
    .ok ((buf', content.length, .ok ()), t) ∧ ∀ p < content.length, buf' p = content.getD p 0

section Chunks

variable {n : ℕ}

/-- A byte of pieces that are whole but for the last one. -/
lemma getD_flatten (h0 : 0 < n) (hfull : ∀ k, k + 1 < chunks.length → (chunks.getD k []).length = n)
    (hle : ∀ c ∈ chunks, c.length ≤ n) (p : ℕ) :
    chunks.flatten.getD p 0 = (chunks.getD (p / n) []).getD (p % n) 0 := by
  induction chunks generalizing p with
  | nil => simp
  | cons c cs ih =>
    have hc : c.length ≤ n := hle c (by simp)
    rw [flatten_cons]
    rcases lt_or_ge p c.length with hlt | hge
    · rw [getD_append _ _ _ _ hlt, Nat.div_eq_of_lt (by omega), Nat.mod_eq_of_lt (by omega)]
      rfl
    · rw [getD_append_right _ _ _ _ hge]
      by_cases hcs : cs = []
      · -- the last piece: there is nothing behind it
        subst hcs
        rw [flatten_nil, getD_nil]
        rcases lt_or_ge p n with hlt | hge'
        · rw [Nat.div_eq_of_lt hlt, Nat.mod_eq_of_lt hlt]
          exact (getD_eq_default _ _ hge).symm
        · have : 1 ≤ p / n := (Nat.one_le_div_iff h0).mpr hge'
          obtain ⟨q, hq⟩ := Nat.exists_eq_add_of_le' this
          rw [hq]
          rfl
      · have hpos : 0 < cs.length := length_pos_iff.mpr hcs
        have hcn : c.length = n := hfull 0 (by simpa using hpos)
        obtain ⟨q, rfl⟩ := Nat.exists_eq_add_of_le (hcn ▸ hge : n ≤ p)
        rw [hcn, Nat.add_sub_cancel_left, Nat.add_div_left _ h0, Nat.add_mod_left,
          ih (fun k hk => hfull (k + 1) (by simpa using hk)) (fun d hd => hle d (by simp [hd]))]
        rfl

/-- The number of pieces is the one of blocks that the bytes need. -/
lemma blocksFor_flatten
    (hfull : ∀ k, k + 1 < chunks.length → (chunks.getD k []).length = blkSize)
    (hpiece : ∀ c ∈ chunks, 0 < c.length ∧ c.length ≤ blkSize) :
    blocksFor chunks.flatten.length = chunks.length := by
  induction chunks with
  | nil => rfl
  | cons c cs ih =>
    obtain ⟨h1, h2⟩ := hpiece c (by simp)
    rw [flatten_cons, length_append, length_cons]
    by_cases hcs : cs = []
    · subst hcs
      simp only [flatten_nil, length_nil, add_zero]
      unfold blocksFor blkSize at *
      omega
    · have hpos : 0 < cs.length := length_pos_iff.mpr hcs
      have hcn : c.length = blkSize := hfull 0 (by simpa using hpos)
      have := ih (fun k hk => hfull (k + 1) (by simpa using hk)) fun d hd => hpiece d (by simp [hd])
      rw [← this, hcn]
      unfold blocksFor blkSize
      omega

end Chunks

/-- **`create_img`**: the directory is built, then what is in memory is written. -/
lemma createImg_eq {host : Host} {imgSize : ℕ} {image : ℕ → Bytes} {home : List HostEntry}
    {u : MkSfs} (h : createImg host imgSize image home = .ok u) :
    ∃ s, Built host s ∧ u = s.written (closeWrites s) := by
  rw [createImg] at h
  cases hc : createSfs imgSize image with
  | error b =>
    rw [hc] at h
    cases h
  | ok r =>
    rw [hc] at h
    simp only at h
    split at h
    · rename_i _ t e
      obtain ⟨_, s, e1, e2⟩ := bind_eq_ok.mp e
      obtain ⟨hr, hroot⟩ := createSfs_built hc host
      have hb := openDir_built hr hroot hroot _ _ s e1
      rw [closeSfs_apply hb.inv] at e2
      cases e2
      cases h
      exact ⟨s, hb, rfl⟩
    · cases h

lemma createImg_of_ok {host : Host} {imgSize : ℕ} {image : ℕ → Bytes} {home : List HostEntry}
    {r s : MkSfs} (hc : createSfs imgSize image = .ok r)
    (e : openDir host blknRoot blknRoot home r = .ok ((), s)) (hs : Built host s) :
    createImg host imgSize image home = .ok (s.written (closeWrites s)) := by
  rw [createImg, hc]
  simp only
  rw [bind_of_ok e, closeSfs_apply hs.inv]

section Files

variable {f : ℕ}

section

variable (x : Holding s fs) (h : MkInv s) (hf : s.inodeOf f = some ci)
  (hh : Holds s f ci.inode.size chunks) (hle : chunks.length ≤ maxBlocks)
include x h hf hh hle

/-- The representation invariant of a file that the kernel can resolve. -/
lemma Holding.fileInv : FileInv (fs.loaded f) f := by
  have hm := h.maps f ci hf
  have hdin := x.loaded_dinOf h hf
  have hblocks : ((fs.loaded f).dinOf f).blocks = (s.appended f).length := by
    rw [hdin]
    exact hm.blocks
  refine ⟨?_, fun k hk => ?_, fun k hk => ?_, fun h0 => ?_⟩
  · rw [hblocks, hdin, hh.length]
    rw [hh.size, ← length_flatten, blocksFor_flatten hh.full hh.piece]
  · rw [hblocks] at hk
    exact x.inUse_bmapAt h hf hk (by rw [hh.length] at hk; omega)
  · rw [hblocks] at hk
    rcases lt_or_ge k maxBlocks with hlt | hge
    · rw [x.bmapAt h hf hlt]
      exact getD_eq_default _ _ hk
    · by_contra hne
      exact absurd (lt_of_mapAt_ne_zero hne) (not_lt.mpr hge)
  · rw [hdin] at h0 ⊢
    rw [← ref_indirect_of_node hf] at h0 ⊢
    exact x.inUse h h0

/-- The bytes of the file. -/
lemma Holding.bytes {p : ℕ} (hp : p < chunks.flatten.length) :
    (fs.loaded f).bytes f p = chunks.flatten.getD p 0 := by
  have hdin := x.loaded_dinOf h hf
  obtain ⟨image, hc, hdisk⟩ := x.image
  have hq : p / blkSize < chunks.length := by
    have := blocksFor_flatten hh.full hh.piece
    rw [← this]
    unfold blocksFor blkSize
    omega
  have hlen : p / blkSize < (s.appended f).length := by
    rw [hh.length]
    exact hq
  have h0 := Holding.appended_ne_zero h hlen
  have hlt := (h.ref_lt (.data f (p / blkSize))).trans_le h.next
  rw [SfsFs.bytes, hdin, if_pos, SfsFs.data, x.bmapAt h hf (by omega)]
  · change fs.disk (s.ref (.data f (p / blkSize))) _ = _
    rw [hdisk _ hlt, hc.data f _ h0]
    change s.image ((s.appended f).getD (p / blkSize) 0) _ = _
    rw [hh.image _ hq, getD_flatten (by decide) hh.full fun c hc => (hh.piece c hc).2]
    rfl
  · rw [(h.maps f ci hf).blocks]
    exact hlen

end

/-- **A file is read back** iff the indirect block suffices for its blocks. -/
lemma Holding.readsBack_iff (x : Holding s fs) (h : MkInv s) (hf : s.inodeOf f = some ci)
    (ht : ci.inode.type = typeFile) (hh : Holds s f ci.inode.size chunks) :
    ReadsBack (fs.loaded f) f (s.appended f) chunks.flatten ↔
      chunks.flatten.length ≤ maxBlocks * blkSize := by
  have hm := h.maps f ci hf
  have hdin := x.loaded_dinOf h hf
  have hn := loaded_node fs f
  have hcount := blocksFor_flatten hh.full hh.piece
  have hsize : ci.inode.size = chunks.flatten.length := by rw [hh.size, length_flatten]
  rw [← blocksFor_le_iff, hcount]
  constructor
  · intro hA
    by_contra hlt
    have hi : maxBlocks < ((fs.loaded f).dinOf f).blocks := by
      rw [hdin, hm.blocks, hh.length]
      omega
    have := hA.map maxBlocks hi
    rw [get_indexRange hn le_rfl] at this
    cases this
  · intro hle
    have hfi := x.fileInv h hf hh hle
    refine ⟨by rw [hdin]; exact hsize, by rw [hdin]; exact hm.blocks, fun i hi => ?_, fun buf => ?_⟩
    · rw [hdin] at hi
      rw [hm.blocks] at hi
      exact x.get_apply h hf hi (by rw [hh.length] at hi; omega) false
    · have hd := x.din h hf
      have hmax := blocksFor_le_iff.mp (hcount.trans_le hle)
      have hend := hfi.ioEnd_read 0 chunks.flatten.length
      rw [hdin] at hend
      unfold maxBlocks nDirect blkNentry blkSize at hmax
      have hio := sfsIoNolock_eq false hn (by rw [hd, ht]; decide) buf 0
        (show chunks.flatten.length < 2 ^ 64 by omega)
      rw [hio, if_neg (by unfold maxFileSize; omega), hd, hsize]
      rw [hsize, zero_add, min_self] at hend
      by_cases h0 : chunks.flatten.length = 0
      · rw [if_pos (Or.inl h0), h0]
        exact ⟨buf, _, rfl, fun p hp => absurd hp (Nat.not_lt_zero p)⟩
      · have hread : ¬(chunks.flatten.length = 0 ∨
            (false = false ∧ (chunks.flatten.length : ℤ) ≤ 0)) := by
          rintro (h1 | ⟨-, h2⟩)
          · exact h0 h1
          · omega
        rw [if_neg hread]
        obtain ⟨buf', e, hfill⟩ := ioTransfer_read buf x.mounted.loaded hn hfi
          (Nat.pos_of_ne_zero h0) (by rw [hd, hsize])
        refine ⟨buf', _, (congrArg (ioTransfer false f buf 0 · (fs.loaded f)) hend).trans e,
          fun p hp => ?_⟩
        rw [hfill p, if_pos (by omega), zero_add, x.bytes h hf hh hle hp]

end Files

/-- **Image builder and kernel agree on file contents** iff the indirect block suffices. The image
of any directory tree is built and mounted, and an inode is read from its block. For each regular
file the kernel has its length, resolves every index to the block that has been appended and reads
the bytes of the file, iff the file has at most `SFS_NDIRECT + SFS_BLK_NENTRY` blocks. -/
theorem image_agrees_iff {host : Host} {imgSize : ℕ} {image : ℕ → Bytes} {home : List HostEntry}
    {u : MkSfs} (h : createImg host imgSize image home = .ok u) {dev : SfsDevice}
    (hs : dev.dBlocksize = blkSize) (hf : dev.faults = []) (hle : u.super.blocks ≤ dev.dBlocks)
    (hd : ∀ b < u.super.blocks, dev.disk b = u.image b) :
    ∃ fs, sfsDoMount dev = .ok (.ok fs, dev) ∧
      ∀ f ci, u.inodeOf f = some ci → ci.inode.type = typeFile →
        (ci.inode.nlinks ≠ 0 → sfsLoadInode f fs = .ok (.ok (), fs.loaded f)) ∧
        (ReadsBack (fs.loaded f) f (u.appended f) (host.content ci.real) ↔
          (host.content ci.real).length ≤ maxBlocks * blkSize) := by
  obtain ⟨s, hbuilt, rfl⟩ := createImg_eq h
  have hblocks : s.super.blocks = s.ninos := by rw [hbuilt.inv.super]
  change s.super.blocks ≤ _ at hle
  change ∀ b < s.super.blocks, _ at hd
  rw [hblocks] at hle hd
  obtain ⟨fs, e, x, hnone⟩ := hbuilt.inv.holding hbuilt.inv.closed hs hf hle hd
  refine ⟨fs, e, fun f ci hn ht => ⟨fun hl => ?_, ?_⟩⟩
  · exact x.load hbuilt.inv hn (congrFun hnone f) hl (.inr ht)
  · exact x.readsBack_iff hbuilt.inv hn ht (hbuilt.files f ci hn ht)

/-- A host whose files have three bytes. -/
def shortHost : Host := ⟨fun _ => [some ⟨[1, 2, 3], by decide⟩]⟩

lemma shortHost_builds : ∃ s ci,
    openDir shortHost blknRoot blknRoot [.file [97] 1]
      (rootSfs 20 fun _ => Bytes.zero) = .ok ((), s) ∧
    s.super.blocks = 20 ∧ s.inodeOf 5 = some ci ∧ ci.inode.type = typeFile ∧ ci.inode.nlinks = 1 ∧
    ci.real = 1 :=
  ⟨_, _, rfl, rfl, rfl, rfl, rfl, rfl⟩

/-- An image with one file of three bytes. -/
theorem image_agrees_three : ∃ u fs f ci,
    createImg shortHost 81920 (fun _ => Bytes.zero) [.file [97] 1] = .ok u ∧
    sfsDoMount ⟨20, 4096, u.image, []⟩ = .ok (.ok fs, ⟨20, 4096, u.image, []⟩) ∧
    u.inodeOf f = some ci ∧ sfsLoadInode f fs = .ok (.ok (), fs.loaded f) ∧
    ReadsBack (fs.loaded f) f (u.appended f) [1, 2, 3] := by
  obtain ⟨s, ci, e, hb, hf, ht, hl, hreal⟩ := shortHost_builds
  have hs : Built shortHost s := openDir_built (rootSfs_built _ (by decide) (by decide))
    (by simp [rootSfs_self]) (by simp [rootSfs_self]) _ _ s e
  have hc : createSfs 81920 (fun _ => Bytes.zero) = .ok (rootSfs 20 fun _ => Bytes.zero) := by
    rw [createSfs_eq, if_neg (by decide)]
    rfl
  have hu := createImg_of_ok hc e hs
  let dev : SfsDevice := ⟨20, 4096, writeAll s.image (closeWrites s), []⟩
  obtain ⟨fs, em, hfs⟩ := image_agrees_iff hu (show dev.dBlocksize = blkSize from rfl) rfl hb.le
    fun _ _ => rfl
  obtain ⟨hload, hag⟩ := hfs 5 ci hf ht
  rw [hreal] at hag
  exact ⟨_, fs, 5, ci, hu, em, hf, hload (by rw [hl]; decide), hag.mpr (by decide)⟩

/-! ## A file that the kernel cannot read back -/

/-- A `read` of a whole block. -/
def wholeRead : HostRead :=
  some ⟨List.replicate blkSize 7, by rw [length_replicate]; decide, length_replicate.le⟩

lemma wholeRead_length : wholeRead.bytes.length = blkSize := length_replicate

/-- A host whose files have one whole block more than the kernel resolves. -/
def longHost : Host where
  reads _ := List.replicate (l1Nblks + 1) wholeRead

lemma longHost_length (real : ℕ) : (longHost.content real).length = (l1Nblks + 1) * blkSize := by
  rw [Host.content, length_flatten, Host.chunks, longHost, map_replicate, map_replicate,
    sum_replicate, wholeRead_length]
  rfl

/-- The file is copied into the image. -/
lemma longHost_builds : ∃ s ci,
    openDir longHost blknRoot blknRoot [.file [97] 1] (rootSfs 4096 fun _ => Bytes.zero) =
      .ok ((), s) ∧
    s.inodeOf 5 = some ci ∧ ci.inode.type = typeFile := by
  have h : ((openDir longHost blknRoot blknRoot [.file [97] 1]
      (rootSfs 4096 fun _ => Bytes.zero)).toOption.map fun r =>
      (r.2.inodeOf 5).map (·.inode.type)) = some (some typeFile) := by decide +kernel
  obtain ⟨⟨_, s⟩, hr, h⟩ := Comp.exists_ok h
  obtain ⟨ci, hci, h⟩ := Option.map_eq_some_iff.mp h
  exact ⟨s, ci, hr, hci, h⟩

/-- **A file that the kernel cannot read back**: it has one block more than direct blocks and the
indirect block hold. -/
theorem image_disagrees : ∃ u dev fs f ci,
    createImg longHost (16777216) (fun _ => Bytes.zero) [.file [97] 1] = .ok u ∧
    sfsDoMount dev = .ok (.ok fs, dev) ∧ (∀ b < u.super.blocks, dev.disk b = u.image b) ∧
    u.inodeOf f = some ci ∧ ci.inode.type = typeFile ∧
    (longHost.content ci.real).length ≤ maxFileSize ∧
    ¬ReadsBack (fs.loaded f) f (u.appended f) (longHost.content ci.real) := by
  obtain ⟨s, ci, e, hf, ht⟩ := longHost_builds
  have hs : Built longHost s := openDir_built (rootSfs_built _ (by decide) (by decide))
    (by simp [rootSfs_self]) (by simp [rootSfs_self]) _ _ s e
  have hlen := longHost_length ci.real
  let dev : SfsDevice := ⟨s.ninos, blkSize, writeAll s.image (closeWrites s), []⟩
  obtain ⟨fs, em, x, -⟩ := hs.inv.holding hs.inv.closed (show dev.dBlocksize = blkSize from rfl) rfl
    le_rfl fun _ _ => rfl
  refine ⟨s.written (closeWrites s), _, fs, 5, ci, ?_, em, fun _ _ => rfl, hf, ht, ?_, ?_⟩
  · exact createImg_of_ok (by rw [createSfs_eq, if_neg (by decide)]; rfl) e hs
  · rw [hlen]
    decide
  · change ¬ReadsBack (fs.loaded 5) 5 (s.appended 5) _
    rw [Host.content, x.readsBack_iff hs.inv hf ht (hs.files 5 ci hf ht)]
    change ¬(longHost.content ci.real).length ≤ _
    rw [hlen]
    decide

end Ucore

import Ucore.Lib.Owning
import Ucore.Tools.Mksfs

set_option autoImplicit false

/-!
# What the image builder keeps in memory

The block maps of the cached inodes represent the blocks that have been appended, and no block is
used for two purposes.

## Main definitions

* `MkSlot`, `MkSfs.ref` — the places that refer to blocks, and the blocks.
* `MapsAppended` — the block map of an inode consists of the blocks appended to it.
* `MkInv` — the invariant of the builder.

## Main results

* `MkInv.linkIndirect`, `MkInv.linkDouble`, `MkInv.linkEntry` — a new block of
  block numbers.
* `appendBlock_post` — appending a block.
* `MkInv.newInode` — a new inode.
-/

namespace Ucore

open Function Comp List Bytes

/-- The first block that is handed out. -/
def firstIno (ninos : ℕ) : ℕ := blknFreemap + freemapBlocks ninos

/-- The places that refer to blocks: inode numbers, pointers to blocks of block numbers, and the
blocks appended to an inode. -/
inductive MkSlot
  | inode (f : ℕ)
  | indirect (f : ℕ)
  | dbIndirect (f : ℕ)
  | dbEntry (f j : ℕ)
  | data (f k : ℕ)
  deriving DecidableEq

/-- The slots of the blocks that are kept in memory until the end. -/
def MkSlot.IsCache : MkSlot → Prop
  | .indirect _ => True
  | .dbIndirect _ => True
  | .dbEntry _ _ => True
  | _ => False

namespace MkSfs

/-- `inode->db_indirect` -/
def dbOf (s : MkSfs) (f : ℕ) : ℕ := ((s.inodeOf f).map (·.inode.dbIndirect)).getD 0

/-- The block a slot refers to, `0` if there is none. -/
def ref (s : MkSfs) : MkSlot → ℕ
  | .inode f => if s.inodeOf f = none then 0 else f
  | .indirect f => ((s.inodeOf f).map (·.inode.indirect)).getD 0
  | .dbIndirect f => s.dbOf f
  | .dbEntry f j =>
    if s.dbOf f ≠ 0 ∧ j < blkNentry then ((s.cacheOf (s.dbOf f)).getD Bytes.zero).get32 (4 * j)
    else 0
  | .data f k => (s.appended f).getD k 0

/-- The blocks that have been handed out, and the block of the root inode. -/
def Handed (s : MkSfs) (b : ℕ) : Prop :=
  b = blknRoot ∨ firstIno s.ninos ≤ b ∧ b < s.nextIno

end MkSfs

/-- **The block map of the inode `f`** consists of the blocks appended to it: direct blocks, and the
entries of the indirect block. -/
structure MapsAppended (s : MkSfs) (f : ℕ) (ci : CacheInode) : Prop where
  nblks : ci.nblks = (s.appended f).length
  blocks : ci.inode.blocks = (s.appended f).length
  le : (s.appended f).length ≤ lnNblks
  size : ci.inode.size ≤ (s.appended f).length * blkSize
  direct : ∀ k : Fin nDirect, ci.inode.direct k = (s.appended f).getD k 0
  indirect : l0Nblks < (s.appended f).length → ci.inode.indirect ≠ 0
  entries : ci.inode.indirect ≠ 0 → ∃ data, s.cacheOf ci.inode.indirect = some data ∧
    ∀ j < blkNentry, data.get32 (4 * j) = (s.appended f).getD (l0Nblks + j) 0
  pointer : l0Nblks < (s.appended f).length → (s.appended f).length ≤ l1Nblks →
    ci.l1 = some ci.inode.indirect
  type : ci.inode.type < 2 ^ 16
  nlinks : ci.inode.nlinks < 2 ^ 16

/-- **The invariant of the builder.** -/
structure MkInv (s : MkSfs) : Prop where
  ninos : s.ninos ≤ maxNblks
  super : s.super = ⟨sfsMagic, s.ninos, s.ninos - s.nextIno⟩
  first : firstIno s.ninos ≤ s.nextIno
  next : s.nextIno ≤ s.ninos
  owning : Owning (Finset.Ico s.nextIno s.ninos) s.ref
  handed : ∀ x, s.ref x ≠ 0 → s.Handed (s.ref x)
  node : ∀ f, s.inodeOf f ≠ none → f ≠ 0
  maps : ∀ f ci, s.inodeOf f = some ci → MapsAppended s f ci
  fresh : ∀ f, s.inodeOf f = none → s.appended f = []
  inodes : ∀ f, (∃ i < hashListSize, f ∈ s.inodes i) ↔ s.inodeOf f ≠ none
  blocks : ∀ b, (∃ i < hashListSize, b ∈ s.blocks i) ↔ s.cacheOf b ≠ none
  cached : ∀ b, s.cacheOf b ≠ none → b ≠ 0 ∧ ∃ x : MkSlot, x.IsCache ∧ s.ref x = b
  stored : ∀ f, ∀ b ∈ s.appended f, b ≠ 0

lemma hash32_lt (val : ℕ) : hash32 val < hashListSize := by
  unfold hash32 hashListSize hashShift
  omega

/-- The lists after an element has been put on one of them. -/
lemma exists_mem_update {l : ℕ → List ℕ} {i b n : ℕ} (hi : i < n) (c : ℕ) :
    (∃ j < n, c ∈ update l i (b :: l i) j) ↔ c = b ∨ ∃ j < n, c ∈ l j := by
  constructor
  · rintro ⟨j, hj, hc⟩
    by_cases hji : j = i
    · subst hji
      rw [update_self, mem_cons] at hc
      exact hc.imp_right fun hc => ⟨j, hj, hc⟩
    · rw [update_of_ne hji] at hc
      exact .inr ⟨j, hj, hc⟩
  · rintro (rfl | ⟨j, hj, hc⟩)
    · exact ⟨i, hi, by simp⟩
    · refine ⟨j, hj, ?_⟩
      by_cases hji : j = i
      · subst hji
        simp [hc]
      · rwa [update_of_ne hji]

/-! ## The slots of a state -/

variable {ci : CacheInode} {x : MkSlot} {s s' : MkSfs} {data : Bytes}

section Slots

variable {s : MkSfs} {f b : ℕ}

lemma dbOf_of_node (h : s.inodeOf f = some ci) : s.dbOf f = ci.inode.dbIndirect := by
  simp [MkSfs.dbOf, h]

lemma ref_indirect_of_node (h : s.inodeOf f = some ci) :
    s.ref (.indirect f) = ci.inode.indirect := by
  simp [MkSfs.ref, h]

lemma ref_inode_of_node (h : s.inodeOf f = some ci) : s.ref (.inode f) = f := by
  simp [MkSfs.ref, h]

namespace MkInv

lemma two_le_first (n : ℕ) : 2 ≤ firstIno n := Nat.le_add_right _ _

/-- The slots refer to blocks before the next one. -/
lemma ref_lt (h : MkInv s) (x : MkSlot) : s.ref x < s.nextIno := by
  have h2 := two_le_first s.ninos
  have h1 := h.first
  by_cases hx : s.ref x = 0
  · omega
  · rcases h.handed x hx with e | ⟨-, hlt⟩
    · rw [e]
      unfold blknRoot
      omega
    · exact hlt

lemma ref_ne_next (h : MkInv s) (x : MkSlot) : s.ref x ≠ s.nextIno := by
  have := h.ref_lt x
  omega

lemma next_ne_zero (h : MkInv s) : s.nextIno ≠ 0 := by
  have h2 := two_le_first s.ninos
  have h1 := h.first
  omega

lemma lt_word (h : MkInv s) (hb : b ≤ s.ninos) : b < 2 ^ 32 := by
  have := h.ninos
  unfold maxNblks at this
  omega

lemma inodeOf_next (h : MkInv s) : s.inodeOf s.nextIno = none := by
  cases hn : s.inodeOf s.nextIno with
  | none => rfl
  | some ci =>
    have := h.ref_ne_next (.inode s.nextIno)
    rw [ref_inode_of_node hn] at this
    exact absurd rfl this

lemma ref_inj (h : MkInv s) {x y : MkSlot} (hx : s.ref x ≠ 0) (hxy : x ≠ y) :
    s.ref x ≠ s.ref y :=
  fun e => hxy (h.owning.inj x y hx e)

end MkInv

end Slots

/-! ## Blocks of block numbers -/

/-- The state after a block is handed out. -/
def MkSfs.bump (s : MkSfs) : MkSfs :=
  { s with super.unusedBlocks := s.super.unusedBlocks - 1, nextIno := s.nextIno + 1 }

/-- The state after a new cached block is made. -/
def MkSfs.newCache (s : MkSfs) : MkSfs :=
  { s.bump with
    cacheOf := update s.cacheOf s.nextIno (some Bytes.zero),
    blocks := update s.blocks (hash32 0) (s.nextIno :: s.blocks (hash32 0)) }

section Link

variable {f g b j : ℕ} {ci ci' : CacheInode}

lemma sfsAllocIno_apply (s : MkSfs) :
    sfsAllocIno s = if s.nextIno < s.ninos then .ok (s.nextIno, s.bump)
      else .error .outOfSpace := by
  rw [sfsAllocIno, read_bind_apply]
  by_cases h : s.nextIno < s.ninos
  · rw [if_pos h, if_pos h]
    rfl
  · rw [if_neg h, if_neg h]
    rfl

lemma orAllocIno_bind {α : Type} (r : ℕ → Mk α) (s : MkSfs) :
    (orAllocIno 0 >>= r) s =
      if s.nextIno < s.ninos then r s.nextIno s.bump else .error .outOfSpace := by
  have ha : orAllocIno 0 s = _ := sfsAllocIno_apply s
  by_cases h : s.nextIno < s.ninos
  · rw [if_pos h] at ha ⊢
    exact bind_of_ok ha _
  · rw [if_neg h] at ha ⊢
    exact bind_of_error ha _

lemma allocCacheBlock_apply (s : MkSfs) :
    allocCacheBlock 0 s =
      if s.nextIno < s.ninos then .ok (s.nextIno, s.newCache) else .error .outOfSpace :=
  orAllocIno_bind _ s

variable {k : CacheInode → CacheInode}

lemma modInode_of_ne (h : g ≠ f) : (s.modInode f k).inodeOf g = s.inodeOf g := update_of_ne h ..

lemma modInode_self (h : s.inodeOf f = some ci) : (s.modInode f k).inodeOf f = some (k ci) := by
  simp [MkSfs.modInode, h]

lemma modInode_eq_none : (s.modInode f k).inodeOf g = none ↔ s.inodeOf g = none := by
  by_cases h : g = f
  · subst h
    simp [MkSfs.modInode]
  · rw [modInode_of_ne h]

section

variable (hf : s.inodeOf f = some ci) (hself : s'.inodeOf f = some ci')
  (hother : ∀ g, g ≠ f → s'.inodeOf g = s.inodeOf g)
include hf hself hother

/-- The inode that is changed keeps its double indirect block. -/
lemma dbOf_of_frame (hd : ci'.inode.dbIndirect = ci.inode.dbIndirect) (g : ℕ) :
    s'.dbOf g = s.dbOf g := by
  by_cases hg : g = f
  · rw [hg, dbOf_of_node hself, dbOf_of_node hf, hd]
  · simp only [MkSfs.dbOf, hother g hg]

/-- The inode that is changed keeps its indirect block. -/
lemma ref_indirect_of_frame (hi : ci'.inode.indirect = ci.inode.indirect) (g : ℕ) :
    s'.ref (.indirect g) = s.ref (.indirect g) := by
  by_cases hg : g = f
  · rw [hg, ref_indirect_of_node hself, ref_indirect_of_node hf, hi]
  · simp only [MkSfs.ref, hother g hg]

end

lemma ref_inode_congr (h : s'.inodeOf g = none ↔ s.inodeOf g = none) :
    s'.ref (.inode g) = s.ref (.inode g) := by
  simp only [MkSfs.ref, h]

lemma ref_dbEntry_congr (h : s'.dbOf g = s.dbOf g)
    (hc : s.dbOf g ≠ 0 → s'.cacheOf (s.dbOf g) = s.cacheOf (s.dbOf g)) (j : ℕ) :
    s'.ref (.dbEntry g j) = s.ref (.dbEntry g j) := by
  simp only [MkSfs.ref, h]
  by_cases h0 : s.dbOf g = 0
  · simp [h0]
  · rw [hc h0]

/-- The block map depends on the blocks appended and on the indirect block only: neither the double
indirect block nor the pointer to it matter. -/
lemma MapsAppended.of_eq (h : MapsAppended s f ci) (ha : s'.appended f = s.appended f)
    (hp : ci'.l1 = ci.l1) (hn : ci'.nblks = ci.nblks)
    (hd : ci'.inode.toSfsDiskInode = ci.inode.toSfsDiskInode)
    (hc : ci.inode.indirect ≠ 0 → s'.cacheOf ci.inode.indirect = s.cacheOf ci.inode.indirect) :
    MapsAppended s' f ci' := by
  refine ⟨?_, ?_, ?_, ?_, ?_, ?_, ?_, ?_, ?_, ?_⟩ <;> simp only [ha, hp, hn, hd]
  · exact h.nblks
  · exact h.blocks
  · exact h.le
  · exact h.size
  · exact h.direct
  · exact h.indirect
  · intro h0
    rw [hc h0]
    exact h.entries h0
  · exact h.pointer
  · exact h.type
  · exact h.nlinks

/-- A new inode has no blocks. -/
lemma MapsAppended.empty {type : ℕ} (ha : s.appended f = []) (htype : type < 2 ^ 16) (real : ℕ) :
    MapsAppended s f ⟨emptyInode type, real, 0, none, none⟩ := by
  refine ⟨?_, ?_, ?_, ?_, fun k => ?_, ?_, fun h0 => absurd rfl h0, ?_, htype,
    Nat.two_pow_pos 16⟩ <;>
    rw [ha]
  · rfl
  · rfl
  · exact Nat.zero_le _
  · exact Nat.zero_le _
  · rfl
  · exact fun h0 => absurd h0 (Nat.not_lt_zero _)
  · exact fun h0 => absurd h0 (Nat.not_lt_zero _)

/-- The block maps after a change of the inode `f`, which leaves the indirect blocks of the
others. -/
lemma MkInv.maps_of_frame (h : MkInv s) (hself : s'.inodeOf f = some ci')
    (hother : ∀ g, g ≠ f → s'.inodeOf g = s.inodeOf g) (hm : MapsAppended s' f ci')
    (ha : ∀ g, g ≠ f → s'.appended g = s.appended g)
    (hc : ∀ g cg, g ≠ f → s.inodeOf g = some cg → cg.inode.indirect ≠ 0 →
      s'.cacheOf cg.inode.indirect = s.cacheOf cg.inode.indirect)
    (g : ℕ) (cg : CacheInode) (hg : s'.inodeOf g = some cg) : MapsAppended s' g cg := by
  by_cases hgf : g = f
  · subst hgf
    obtain rfl := Option.some.inj (hself.symm.trans hg)
    exact hm
  · rw [hother g hgf] at hg
    exact (h.maps g cg hg).of_eq (ha g hgf) rfl rfl rfl (hc g cg hgf hg)

namespace MkInv

/-- Handing out a block. -/
lemma bump (h : MkInv s) (hlt : s.nextIno < s.ninos) : MkInv s.bump := by
  have hfirst := h.first
  refine { h with
    super := ?_, first := ?_, next := hlt, owning := h.owning.mono ?_, handed := fun x hx => ?_
    maps := fun f ci hf => (h.maps f ci hf).of_eq rfl rfl rfl rfl fun _ => rfl }
  · rw [MkSfs.bump]
    simp only [h.super]
    congr 1
  · exact Nat.le_succ_of_le hfirst
  · exact Finset.Ico_subset_Ico_left (Nat.le_succ _)
  · exact (h.handed x hx).imp_right fun h1 => ⟨h1.1, Nat.lt_succ_of_lt h1.2⟩

lemma handed_lt (h : MkInv s) (hb : s.Handed b) : b ≠ 0 ∧ b < s.nextIno := by
  have h1 := two_le_first s.ninos
  have h2 := h.first
  rcases hb with rfl | ⟨h3, h4⟩
  · unfold blknRoot
    omega
  · omega

/-- **A block is entered into a slot.** -/
lemma give (h : MkInv s) (hb : s.Handed b) (hne : ∀ y, s.ref y ≠ b) (hsuper : s'.super = s.super)
    (hninos : s'.ninos = s.ninos) (hnext : s'.nextIno = s.nextIno)
    (href : s'.ref = update s.ref x b) (hinodes : s'.inodes = s.inodes)
    (hnode : ∀ g, s'.inodeOf g = none ↔ s.inodeOf g = none)
    (hmaps : ∀ f ci, s'.inodeOf f = some ci → MapsAppended s' f ci)
    (hfresh : ∀ f, s.inodeOf f = none → s'.appended f = [])
    (hblocks : ∀ c, (∃ i < hashListSize, c ∈ s'.blocks i) ↔ s'.cacheOf c ≠ none)
    (hcached : ∀ c, s'.cacheOf c ≠ none → c ≠ 0 ∧ ∃ y : MkSlot, y.IsCache ∧ s'.ref y = c)
    (hstored : ∀ f, ∀ c ∈ s'.appended f, c ≠ 0) : MkInv s' := by
  refine ⟨by rw [hninos]; exact h.ninos, ?_, ?_, ?_, ?_, fun y hy => ?_, fun f hf => ?_, hmaps,
    fun f hf => hfresh f ((hnode f).mp hf), fun f => ?_, hblocks, hcached, hstored⟩
  · rw [hsuper, hninos, hnext]
    exact h.super
  · rw [hninos, hnext]
    exact h.first
  · rw [hninos, hnext]
    exact h.next
  · rw [hninos, hnext, href]
    refine h.owning.give ?_ hne
    rw [Finset.mem_Ico]
    have := (h.handed_lt hb).2
    omega
  · rw [MkSfs.Handed, hninos, hnext]
    rw [href] at hy ⊢
    by_cases hyx : y = x
    · subst hyx
      rw [update_self]
      exact hb
    · rw [update_of_ne hyx] at hy ⊢
      exact h.handed y hy
  · exact h.node f fun hn => hf ((hnode f).mpr hn)
  · rw [hinodes, h.inodes, ne_eq, ne_eq, hnode]

/-- **A new block of block numbers is entered into an empty slot.** -/
lemma assign (h : MkInv s) (hlt : s.nextIno < s.ninos) (hx : x.IsCache) (hx0 : s.ref x = 0)
    (hsuper : s'.super = s.bump.super) (hninos : s'.ninos = s.ninos)
    (hnext : s'.nextIno = s.nextIno + 1) (href : s'.ref = update s.ref x s.nextIno)
    (hinodes : s'.inodes = s.inodes) (hnode : ∀ g, s'.inodeOf g = none ↔ s.inodeOf g = none)
    (happ : s'.appended = s.appended) (hblocks : s'.blocks = s.newCache.blocks)
    (hcache : ∀ b, s'.cacheOf b = none ↔ s.newCache.cacheOf b = none)
    (hmaps : ∀ f ci, s'.inodeOf f = some ci → MapsAppended s' f ci) : MkInv s' := by
  refine (h.bump hlt).give (.inr ⟨h.first, Nat.lt_succ_self _⟩) h.ref_ne_next hsuper
    hninos hnext href hinodes hnode hmaps (by rw [happ]; exact h.fresh) (fun b => ?_)
    (fun b hc => ?_) (by rw [happ]; exact h.stored)
  · rw [hblocks, ne_eq, hcache]
    change (∃ i < hashListSize, b ∈ update s.blocks _ _ i) ↔ update s.cacheOf _ _ b ≠ none
    rw [exists_mem_update (hash32_lt 0), h.blocks]
    by_cases hbn : b = s.nextIno
    · subst hbn
      simp
    · simp [hbn]
  · rw [ne_eq, hcache] at hc
    change update s.cacheOf _ _ b ≠ none at hc
    rw [href]
    by_cases hbn : b = s.nextIno
    · subst hbn
      exact ⟨h.next_ne_zero, x, hx, update_self ..⟩
    · rw [update_of_ne hbn] at hc
      obtain ⟨hb0, y, hy, e⟩ := h.cached b hc
      refine ⟨hb0, y, hy, ?_⟩
      rw [update_of_ne, e]
      rintro rfl
      exact hb0 (e.symm.trans hx0)

lemma newCache_of_lt (hb : b < s.nextIno) : s.newCache.cacheOf b = s.cacheOf b :=
  update_of_ne (by omega) ..

lemma newCache_modInode (hf : s.inodeOf f = some ci) :
    (s.newCache.modInode f k).inodeOf f = some (k ci) :=
  modInode_self hf

section

variable (h : MkInv s)
include h

lemma indirect_lt (hf : s.inodeOf f = some ci) : ci.inode.indirect < s.nextIno := by
  have hlt := h.ref_lt (.indirect f)
  rwa [ref_indirect_of_node hf] at hlt

/-- The slots after a new indirect block. -/
lemma ref_linkIndirect (hf : s.inodeOf f = some ci) :
    (s.newCache.modInode f (·.setIndirect s.nextIno)).ref =
      update s.ref (.indirect f) s.nextIno := by
  have hself := newCache_modInode (k := (·.setIndirect s.nextIno)) hf
  have hdb := dbOf_of_frame hf hself (fun g hg => modInode_of_ne hg) rfl
  refine eq_update_iff.mpr ⟨ref_indirect_of_node hself, fun x hx => ?_⟩
  cases x with
  | inode g => exact ref_inode_congr modInode_eq_none
  | indirect g =>
    have hg : g ≠ f := by simpa using hx
    simp only [MkSfs.ref, modInode_of_ne hg]
    rfl
  | dbIndirect g => exact hdb g
  | dbEntry g j =>
    exact ref_dbEntry_congr (hdb g) (fun _ => newCache_of_lt (h.ref_lt (.dbIndirect g))) j
  | data g k => rfl

/-- A new indirect block. -/
lemma linkIndirect (hlt : s.nextIno < s.ninos) (hf : s.inodeOf f = some ci)
    (h0 : ci.inode.indirect = 0) : MkInv (s.newCache.modInode f (·.setIndirect s.nextIno)) := by
  have hmaps := h.maps f ci hf
  have hlen : (s.appended f).length ≤ l0Nblks := by
    by_contra hc
    exact hmaps.indirect (by omega) h0
  refine h.assign hlt (x := .indirect f) trivial (by rw [ref_indirect_of_node hf, h0]) rfl rfl rfl
    (h.ref_linkIndirect hf) rfl (fun g => ?_) rfl rfl (fun b => Iff.rfl)
    (h.maps_of_frame (newCache_modInode hf) (fun g hg => modInode_of_ne hg) ?_ (fun _ _ => rfl)
      fun g cg _ hg _ => newCache_of_lt (h.indirect_lt hg))
  · exact modInode_eq_none
  · refine { hmaps with indirect := fun _ => ?_, entries := fun _ => ?_, pointer := fun _ _ => rfl }
    · exact h.next_ne_zero
    · refine ⟨Bytes.zero, update_self .., fun j _ => ?_⟩
      change _ = (s.appended f).getD _ _
      rw [get32_zero, getD_eq_default _ _ (by omega)]

/-- The slots after a new double indirect block. -/
lemma ref_linkDouble (hf : s.inodeOf f = some ci) (h0 : ci.inode.dbIndirect = 0) :
    (s.newCache.modInode f (·.setDouble s.nextIno)).ref =
      update s.ref (.dbIndirect f) s.nextIno := by
  have hself := newCache_modInode (k := (·.setDouble s.nextIno)) hf
  refine eq_update_iff.mpr ⟨dbOf_of_node hself, fun x hx => ?_⟩
  cases x with
  | inode g => exact ref_inode_congr modInode_eq_none
  | indirect g => exact ref_indirect_of_frame hf hself (fun g hg => modInode_of_ne hg) rfl g
  | dbIndirect g =>
    have hg : g ≠ f := by simpa using hx
    simp only [MkSfs.ref, MkSfs.dbOf, modInode_of_ne hg]
    rfl
  | dbEntry g j =>
    by_cases hg : g = f
    · subst hg
      have hz : (s.newCache.modInode g (·.setDouble s.nextIno)).cacheOf s.nextIno =
          some Bytes.zero := update_self ..
      have hdb : (ci.setDouble s.nextIno).inode.dbIndirect = s.nextIno := rfl
      simp [MkSfs.ref, dbOf_of_node hself, dbOf_of_node hf, h0, hdb, hz]
    · refine ref_dbEntry_congr ?_ ?_ j
      · simp only [MkSfs.dbOf, modInode_of_ne hg]
        rfl
      · exact fun _ => newCache_of_lt (h.ref_lt (.dbIndirect g))
  | data g k => rfl

/-- A new double indirect block. -/
lemma linkDouble (hlt : s.nextIno < s.ninos) (hf : s.inodeOf f = some ci)
    (h0 : ci.inode.dbIndirect = 0) : MkInv (s.newCache.modInode f (·.setDouble s.nextIno)) := by
  refine h.assign hlt (x := .dbIndirect f) trivial (by simpa [MkSfs.ref, dbOf_of_node hf] using h0)
    rfl rfl rfl (h.ref_linkDouble hf h0) rfl (fun g => ?_) rfl rfl (fun b => Iff.rfl)
    (h.maps_of_frame (newCache_modInode hf) (fun g hg => modInode_of_ne hg) ?_ (fun _ _ => rfl)
      fun g cg _ hg _ => newCache_of_lt (h.indirect_lt hg))
  · exact modInode_eq_none
  · exact (h.maps f ci hf).of_eq rfl rfl rfl rfl fun _ => newCache_of_lt (h.indirect_lt hf)

/-- The cached blocks after a new block of the double indirect block. -/
lemma cacheOf_linkEntry (hdata : s.cacheOf (s.dbOf f) = some data) (j : ℕ) :
    (s.newCache.putCache (s.dbOf f) j s.nextIno).cacheOf (s.dbOf f) =
        some (data.put32 (4 * j) s.nextIno) ∧
      ∀ b, b < s.nextIno → b ≠ s.dbOf f →
        (s.newCache.putCache (s.dbOf f) j s.nextIno).cacheOf b = s.cacheOf b := by
  refine ⟨?_, fun b hb hne => ?_⟩
  · have hdb : s.newCache.cacheOf (s.dbOf f) = some data :=
      (newCache_of_lt (h.ref_lt (.dbIndirect f))).trans hdata
    simp [MkSfs.putCache, hdb]
  · rw [MkSfs.putCache]
    simp only [update_of_ne hne]
    exact newCache_of_lt hb

/-- The slots after a new block of the double indirect block. -/
lemma ref_linkEntry (hdb : s.dbOf f ≠ 0) (hdata : s.cacheOf (s.dbOf f) = some data)
    (hj : j < blkNentry) :
    (s.newCache.putCache (s.dbOf f) j s.nextIno).ref = update s.ref (.dbEntry f j) s.nextIno := by
  obtain ⟨hself, hcache⟩ := h.cacheOf_linkEntry hdata j
  have e : (s.newCache.putCache (s.dbOf f) j s.nextIno).dbOf f = s.dbOf f := rfl
  refine eq_update_iff.mpr ⟨?_, fun x hx => ?_⟩
  · simp only [MkSfs.ref, e, if_pos (And.intro hdb hj), hself, Option.getD_some]
    exact get32_put32 _ _ (h.lt_word h.next)
  cases x with
  | inode g | indirect g | dbIndirect g => rfl
  | dbEntry g k =>
    by_cases hg : g = f
    · subst hg
      have hk : k ≠ j := by simpa using hx
      simp only [MkSfs.ref, e, hself, hdata, Option.getD_some]
      by_cases hkn : k < blkNentry
      · rw [if_pos ⟨hdb, hkn⟩, if_pos ⟨hdb, hkn⟩]
        exact get32_put32_of_disjoint _ (by omega)
      · rw [if_neg (by simp [hkn]), if_neg (by simp [hkn])]
    · refine ref_dbEntry_congr ?_ ?_ k
      · rfl
      · refine fun h0 => hcache _ (h.ref_lt (.dbIndirect g)) ?_
        exact h.ref_inj (x := .dbIndirect g) (y := .dbIndirect f) h0 (by simpa using hg)
  | data g k => rfl

/-- A new block of the double indirect block. -/
lemma linkEntry (hlt : s.nextIno < s.ninos) (hdb : s.dbOf f ≠ 0)
    (hdata : s.cacheOf (s.dbOf f) = some data) (hj : j < blkNentry) (h0 : data.get32 (4 * j) = 0) :
    MkInv (s.newCache.putCache (s.dbOf f) j s.nextIno) := by
  obtain ⟨hself, hcache⟩ := h.cacheOf_linkEntry hdata j
  refine h.assign hlt (x := .dbEntry f j) trivial (by simp [MkSfs.ref, hdata, h0]) rfl rfl rfl
    (h.ref_linkEntry hdb hdata hj) rfl (fun g => Iff.rfl) rfl rfl (fun b => ?_) fun g cg hg => ?_
  · by_cases hb : b = s.dbOf f
    · have hdb' : s.newCache.cacheOf (s.dbOf f) = some data :=
        (newCache_of_lt (h.ref_lt (.dbIndirect f))).trans hdata
      rw [hb, hself, hdb']
      simp
    · rw [MkSfs.putCache]
      simp only [update_of_ne hb]
  · refine (h.maps g cg hg).of_eq rfl rfl rfl rfl fun hi => hcache _ (h.indirect_lt hg) ?_
    have hne := h.ref_inj (x := .indirect g) (y := .dbIndirect f)
      (by rwa [ref_indirect_of_node (s := s) hg]) (by simp)
    rwa [ref_indirect_of_node (s := s) hg] at hne

end

end MkInv

end Link

/-! ## Appending a block -/

/-- The state after the counters of `f` are raised and `b` is recorded as its last block. -/
def MkSfs.pushed (s : MkSfs) (f b size : ℕ) : MkSfs :=
  let t := s.modInode f (·.count size)
  { t with appended := update t.appended f (t.appended f ++ [b]) }

section Append

variable {f g b j n size : ℕ}

lemma getD_append_one {α : Type*} (l : List α) (b d : α) (k : ℕ) :
    (l ++ [b]).getD k d = if k = l.length then b else l.getD k d := by
  rcases lt_trichotomy k l.length with hk | rfl | hk
  · rw [if_neg (by omega), getD_append _ _ _ _ hk]
  · rw [if_pos rfl, getD_append_right _ _ _ _ le_rfl, Nat.sub_self]
    rfl
  · rw [if_neg (by omega), getD_eq_default _ _ (by simp; omega),
      getD_eq_default _ _ (by omega)]

lemma pushed_appended (s : MkSfs) (f b size : ℕ) :
    (s.pushed f b size).appended = update s.appended f (s.appended f ++ [b]) := rfl

lemma pushed_of_ne (h : g ≠ f) : (s.pushed f b size).inodeOf g = s.inodeOf g := modInode_of_ne h

lemma pushed_self (h : s.inodeOf f = some ci) :
    (s.pushed f b size).inodeOf f = some (ci.count size) := modInode_self h

namespace MkInv

/-- **A block is appended** to the inode `f`, in whatever place. -/
lemma append (h : MkInv s) (hf : s.inodeOf f ≠ none) (hb : s.Handed b) (hne : ∀ x, s.ref x ≠ b)
    (hsuper : s'.super = s.super) (hninos : s'.ninos = s.ninos) (hnext : s'.nextIno = s.nextIno)
    (hinodes : s'.inodes = s.inodes) (hblocks : s'.blocks = s.blocks)
    (hnode : ∀ g, s'.inodeOf g = none ↔ s.inodeOf g = none)
    (happ : s'.appended = update s.appended f (s.appended f ++ [b]))
    (hind : ∀ g, s'.ref (.indirect g) = s.ref (.indirect g)) (hdb : ∀ g, s'.dbOf g = s.dbOf g)
    (hentry : ∀ g j, s'.ref (.dbEntry g j) = s.ref (.dbEntry g j))
    (hcache : ∀ c, s'.cacheOf c = none ↔ s.cacheOf c = none)
    (hmaps : ∀ g cg, s'.inodeOf g = some cg → MapsAppended s' g cg) : MkInv s' := by
  have href : s'.ref = update s.ref (.data f (s.appended f).length) b := by
    refine eq_update_iff.mpr ⟨by simp [MkSfs.ref, happ], fun x hx => ?_⟩
    cases x with
    | inode g => exact ref_inode_congr (hnode g)
    | indirect g => exact hind g
    | dbIndirect g => exact hdb g
    | dbEntry g j => exact hentry g j
    | data g k =>
      by_cases hg : g = f
      · subst hg
        have hk : k ≠ (s.appended g).length := by simpa using hx
        simp only [MkSfs.ref, happ, update_self, getD_append_one, if_neg hk]
      · simp only [MkSfs.ref, happ, update_of_ne hg]
  refine h.give hb hne hsuper hninos hnext href hinodes hnode hmaps (fun g hg => ?_) (fun c => ?_)
    (fun c hc => ?_) fun g c hc => ?_
  · rw [happ, update_of_ne]
    · exact h.fresh g hg
    · rintro rfl
      exact hf hg
  · rw [hblocks, h.blocks, ne_eq, ne_eq, hcache]
  · rw [ne_eq, hcache] at hc
    obtain ⟨hc0, x, hx, e⟩ := h.cached c hc
    refine ⟨hc0, x, hx, ?_⟩
    rw [href, update_of_ne, e]
    rintro rfl
    exact hx
  · rw [happ] at hc
    by_cases hg : g = f
    · subst hg
      rw [update_self, mem_append, mem_singleton] at hc
      rcases hc with hc | rfl
      · exact h.stored g c hc
      · exact (h.handed_lt hb).1
    · rw [update_of_ne hg] at hc
      exact h.stored g c hc

end MkInv

/-- **The block map with one more block**, entered in its place. -/
lemma MapsAppended.append {ci' : CacheInode} (hm : MapsAppended s f ci)
    (happ : s'.appended f = s.appended f ++ [b]) (hlt : ci.nblks < lnNblks) (hsize : size ≤ blkSize)
    (hnblks : ci'.nblks = ci.nblks + 1) (hblocks : ci'.inode.blocks = ci.inode.blocks + 1)
    (hsz : ci'.inode.size = (ci.inode.size + size) % 2 ^ 32)
    (htype : ci'.inode.type = ci.inode.type) (hnlinks : ci'.inode.nlinks = ci.inode.nlinks)
    (hdirect : ∀ k : Fin nDirect,
      ci'.inode.direct k = if k = ci.nblks then b else ci.inode.direct k)
    (hind : l0Nblks ≤ ci.nblks → ci'.inode.indirect ≠ 0)
    (hentries : ci'.inode.indirect ≠ 0 → ∃ data, s'.cacheOf ci'.inode.indirect = some data ∧
      ∀ j < blkNentry, data.get32 (4 * j) =
        if l0Nblks + j = ci.nblks then b else (s.appended f).getD (l0Nblks + j) 0)
    (hpointer : l0Nblks ≤ ci.nblks → ci.nblks < l1Nblks → ci'.l1 = some ci'.inode.indirect) :
    MapsAppended s' f ci' := by
  have hlen : (s'.appended f).length = ci.nblks + 1 := by
    rw [happ, length_append, length_singleton, hm.nblks]
  have hget : ∀ k, (s'.appended f).getD k 0 =
      if k = ci.nblks then b else (s.appended f).getD k 0 := by
    intro k
    rw [happ, getD_append_one, hm.nblks]
  have hb := hm.blocks
  have hs := hm.size
  rw [← hm.nblks] at hb hs
  refine ⟨by rw [hnblks, hlen], by rw [hblocks, hb, hlen], by omega, ?_, fun k => ?_, fun hl => ?_,
    fun hi => ?_, fun h1 h2 => ?_, by rw [htype]; exact hm.type, by rw [hnlinks]; exact hm.nlinks⟩
  · rw [hsz, hlen]
    refine (Nat.mod_le _ _).trans ?_
    rw [Nat.add_mul, Nat.one_mul]
    omega
  · rw [hdirect, hget, hm.direct]
  · exact hind (by omega)
  · obtain ⟨data, hd, he⟩ := hentries hi
    exact ⟨data, hd, fun j hj => by rw [he j hj, hget]⟩
  · exact hpointer (by omega) (by omega)

namespace MkInv

lemma pushed_modInode (hf : s.inodeOf f = some ci) (k : CacheInode → CacheInode) (b size : ℕ) :
    ((s.modInode f k).pushed f b size).inodeOf f = some ((k ci).count size) ∧
      ∀ g, g ≠ f → ((s.modInode f k).pushed f b size).inodeOf g = s.inodeOf g :=
  ⟨pushed_self (modInode_self hf), fun _ hg => (pushed_of_ne hg).trans (modInode_of_ne hg)⟩

/-- Appending a direct block. -/
lemma appendDirect (h : MkInv s) (hf : s.inodeOf f = some ci) (hb : s.Handed b)
    (hne : ∀ x, s.ref x ≠ b) (hsize : size ≤ blkSize) (hn : ci.nblks < l0Nblks) :
    MkInv ((s.modInode f (·.setDirect ⟨ci.nblks, hn⟩ b)).pushed f b size) := by
  have hm := h.maps f ci hf
  obtain ⟨hself, hother⟩ := pushed_modInode hf (·.setDirect ⟨ci.nblks, hn⟩ b) b size
  have hdb := dbOf_of_frame hf hself hother rfl
  refine h.append (by simp [hf]) hb hne rfl rfl rfl rfl rfl (fun g => ?_) rfl
    (ref_indirect_of_frame hf hself hother rfl) hdb (fun g j => ?_) (fun c => Iff.rfl)
    (h.maps_of_frame hself hother ?_ (fun g hg => update_of_ne hg ..) fun _ _ _ _ _ => rfl)
  · exact modInode_eq_none.trans modInode_eq_none
  · exact ref_dbEntry_congr (hdb g) (fun _ => rfl) j
  · refine hm.append (by rw [pushed_appended, update_self]; rfl) ?_ hsize rfl rfl rfl rfl rfl
      (fun k => ?_) (fun hl => by omega) (fun hi => ?_) (fun hl => by omega)
    · unfold l0Nblks nDirect at hn
      unfold lnNblks maxFileSize blkSize
      omega
    · change update ci.inode.direct _ b k = _
      by_cases hk : k = ⟨ci.nblks, hn⟩
      · rw [hk, update_self, if_pos rfl]
      · rw [update_of_ne hk, if_neg fun e => hk (Fin.ext e)]
    · obtain ⟨data, hd, he⟩ := hm.entries hi
      exact ⟨data, hd, fun j hj => by rw [he j hj, if_neg (by omega)]⟩

lemma putCache_of_ne {c : ℕ} (hc : c ≠ b) : (s.putCache b j n).cacheOf c = s.cacheOf c :=
  update_of_ne hc ..

lemma putCache_self (hd : s.cacheOf b = some data) :
    (s.putCache b j n).cacheOf b = some (data.put32 (4 * j) n) := by
  simp [MkSfs.putCache, hd]

lemma putCache_eq_none {c : ℕ} : (s.putCache b j n).cacheOf c = none ↔ s.cacheOf c = none := by
  by_cases hc : c = b
  · subst hc
    simp [MkSfs.putCache]
  · rw [putCache_of_ne hc]

/-- Appending a block that is entered into a cached block: the indirect block, or a block of the
double indirect block. -/
lemma appendCached (h : MkInv s) (hf : s.inodeOf f = some ci) (hb : s.Handed b)
    (hne : ∀ x, s.ref x ≠ b) (hsize : size ≤ blkSize) (hlt : ci.nblks < lnNblks)
    (hn : l0Nblks ≤ ci.nblks) {c : ℕ} {k : CacheInode → CacheInode}
    (hinode : (k ci).inode = ci.inode) (hnblks : (k ci).nblks = ci.nblks) (hc0 : c ≠ 0)
    (hc : (c = ci.inode.indirect ∧ j = ci.nblks - l0Nblks ∧ ci.nblks < l1Nblks ∧
      (k ci).l1 = some c) ∨ ((∃ i, s.ref (.dbEntry f i) = c) ∧ l1Nblks ≤ ci.nblks)) :
    MkInv (((s.modInode f k).putCache c j b).pushed f b size) := by
  have hm := h.maps f ci hf
  have hself : (((s.modInode f k).putCache c j b).pushed f b size).inodeOf f =
      some ((k ci).count size) := pushed_self (s := (s.modInode f k).putCache c j b)
      (modInode_self hf)
  have hother : ∀ g, g ≠ f →
      (((s.modInode f k).putCache c j b).pushed f b size).inodeOf g = s.inodeOf g := fun g hg =>
    (pushed_of_ne hg).trans (modInode_of_ne hg)
  have hcache : ∀ b', b' ≠ c →
      (((s.modInode f k).putCache c j b).pushed f b size).cacheOf b' = s.cacheOf b' := fun b' hb' =>
    putCache_of_ne (s := s.modInode f k) hb'
  -- the block belongs to a slot of `f`, which is not the double indirect block itself
  obtain ⟨x, hxc, hxi, hxd⟩ : ∃ x, s.ref x = c ∧ (∀ g, g ≠ f → x ≠ .indirect g) ∧
      ∀ g, x ≠ .dbIndirect g := by
    rcases hc with ⟨e, -⟩ | ⟨⟨i, e⟩, -⟩
    · exact ⟨.indirect f, by rw [ref_indirect_of_node hf, e], fun g hg => by simpa using Ne.symm hg,
        fun g => by simp⟩
    · exact ⟨.dbEntry f i, e, fun g _ => by simp, fun g => by simp⟩
  have hdb := dbOf_of_frame hf hself hother (congrArg (·.dbIndirect) hinode)
  refine h.append (by simp [hf]) hb hne rfl rfl rfl rfl rfl (fun g => ?_) rfl
    (ref_indirect_of_frame hf hself hother (congrArg (·.indirect) hinode)) hdb (fun g i => ?_)
    (fun c' => putCache_eq_none)
    (h.maps_of_frame hself hother ?_ (fun g hg => update_of_ne hg ..) fun g cg hgf hg hi =>
      hcache _ fun e => ?_)
  · exact modInode_eq_none.trans modInode_eq_none
  · refine ref_dbEntry_congr (hdb g) (fun _ => hcache _ fun e => ?_) i
    exact h.ref_inj (by rwa [hxc]) (hxd g) (hxc.trans e.symm)
  · refine hm.append (by rw [pushed_appended, update_self]; rfl) hlt hsize (congrArg (· + 1) hnblks)
      (congrArg (·.blocks + 1) hinode) (congrArg (fun d => (d.size + size) % 2 ^ 32) hinode)
      (congrArg (·.type) hinode) (congrArg (·.nlinks) hinode) (fun i => ?_) (fun _ => ?_)
      (fun hi => ?_) (fun _ hl => ?_)
    · change (k ci).inode.direct i = _
      have hi : (i : ℕ) < l0Nblks := i.isLt
      have hin : ¬(i : ℕ) = ci.nblks := by omega
      rw [hinode, if_neg hin]
    · change (k ci).inode.indirect ≠ 0
      rw [hinode]
      rcases hc with ⟨e, -⟩ | ⟨-, hl⟩
      · rwa [← e]
      · refine hm.indirect ?_
        rw [← hm.nblks]
        exact lt_of_lt_of_le (by decide) hl
    · change (k ci).inode.indirect ≠ 0 at hi
      rw [show ((k ci).count size).inode.indirect = ci.inode.indirect from
        congrArg (·.indirect) hinode]
      rw [hinode] at hi
      obtain ⟨data, hd, he⟩ := hm.entries hi
      rcases hc with ⟨e, hj, -, -⟩ | ⟨⟨i, e⟩, hl⟩
      · -- the entry is in the indirect block
        subst e
        refine ⟨_, putCache_self (s := s.modInode f k) hd, fun j' hj' => ?_⟩
        by_cases hjj : j' = j
        · subst hjj
          rw [get32_put32 _ _ (h.lt_word (le_of_lt ((h.handed_lt hb).2.trans_le h.next))),
            if_pos (by omega)]
        · rw [get32_put32_of_disjoint _ (by omega), he j' hj', if_neg (by omega)]
      · refine ⟨data, ?_, fun j' hj' => ?_⟩
        · rw [hcache, hd]
          rw [← e, ← ref_indirect_of_node hf]
          exact h.ref_inj (by rwa [ref_indirect_of_node hf]) (by simp)
        · rw [he j' hj', if_neg]
          unfold l1Nblks at hl
          omega
    · rcases hc with ⟨e, -, -, hp⟩ | ⟨-, hl'⟩
      · change (k ci).l1 = some (k ci).inode.indirect
        rw [hp, hinode, e]
      · omega
  · refine h.ref_inj (y := .indirect g) (by rwa [hxc]) (hxi g hgf) ?_
    rw [hxc, ref_indirect_of_node hg, e]

end MkInv

end Append

/-! ## The functions -/

/-- What `append_block` does not change before it counts the block. -/
structure PlaceFrame (s : MkSfs) (f : ℕ) (ci : CacheInode) (t : MkSfs) : Prop where
  ninos : t.ninos = s.ninos
  next : s.nextIno ≤ t.nextIno
  image : t.image = s.image
  entry : t.entry = s.entry
  appended : t.appended = s.appended
  other : ∀ g, g ≠ f → t.inodeOf g = s.inodeOf g
  node : ∃ ci', t.inodeOf f = some ci' ∧ ci'.real = ci.real ∧ ci'.inode.size = ci.inode.size ∧
    ci'.inode.type = ci.inode.type ∧ ci'.inode.nlinks = ci.inode.nlinks

section Functions

variable {s t : MkSfs} {f g b size inop : ℕ} {cbp : Option ℕ}

lemma getInode_apply (hf : s.inodeOf f = some ci) : getInode f s = .ok (ci, s) := by
  simp [getInode, hf]

lemma getCache_apply (hd : s.cacheOf b = some data) : getCache b s = .ok (data, s) := by
  simp [getCache, hd]

lemma getInode_inv {c : CacheInode} (e : getInode f s = .ok (c, t)) :
    s.inodeOf f = some c ∧ s = t := by
  cases hf : s.inodeOf f with
  | none => simp [getInode, hf] at e
  | some c' => simpa [getInode, hf] using e

lemma getCache_inv (e : getCache b s = .ok (data, t)) : s.cacheOf b = some data ∧ s = t := by
  cases hd : s.cacheOf b with
  | none => simp [getCache, hd] at e
  | some data' => simpa [getCache, hd] using e

/-- **`update_cache`** makes a new block, or returns the block that is there. -/
lemma updateCache_post (cbp : Option ℕ) (inop : ℕ) (s : MkSfs) :
    Post (updateCache cbp inop) s fun b t =>
      (inop = 0 ∧ s.nextIno < s.ninos ∧ b = s.nextIno ∧ t = s.newCache) ∨
      (inop ≠ 0 ∧ b = inop ∧ t = s) := by
  intro b t e
  rw [updateCache] at e
  by_cases h0 : inop = 0
  · rw [if_pos h0, allocCacheBlock_apply] at e
    split_ifs at e with hlt
    cases e
    exact .inl ⟨h0, hlt, rfl, rfl⟩
  · rw [if_neg h0] at e
    right
    by_cases hc : cbp ≠ some inop
    · rw [if_pos hc, read_bind_apply, ensure_bind_apply] at e
      split_ifs at e
      cases e
      exact ⟨h0, rfl, rfl⟩
    · rw [if_neg hc] at e
      cases e
      exact ⟨h0, rfl, rfl⟩

lemma PlaceFrame.modInode {k : CacheInode → CacheInode} (h : PlaceFrame s f ci t)
    (hk : ∀ c, (k c).real = c.real ∧ (k c).inode.size = c.inode.size ∧
      (k c).inode.type = c.inode.type ∧ (k c).inode.nlinks = c.inode.nlinks) :
    PlaceFrame s f ci (t.modInode f k) := by
  obtain ⟨c, hc, h1, h2, h3, h4⟩ := h.node
  obtain ⟨k1, k2, k3, k4⟩ := hk c
  exact { h with
    other := fun g hg => (modInode_of_ne hg).trans (h.other g hg)
    node := ⟨k c, modInode_self hc, k1.trans h1, k2.trans h2, k3.trans h3, k4.trans h4⟩ }

lemma PlaceFrame.newCache (h : PlaceFrame s f ci t) : PlaceFrame s f ci t.newCache :=
  { h with next := Nat.le_succ_of_le h.next }

lemma PlaceFrame.putCache (h : PlaceFrame s f ci t) (c j n : ℕ) :
    PlaceFrame s f ci (t.putCache c j n) := { h with }

lemma PlaceFrame.refl (hf : s.inodeOf f = some ci) : PlaceFrame s f ci s :=
  ⟨rfl, le_rfl, rfl, rfl, rfl, fun _ _ => rfl, ci, hf, rfl, rfl, rfl, rfl⟩

lemma updateCache_frame (hf : s.inodeOf f = some ci) (cbp : Option ℕ) (inop : ℕ) :
    Post (updateCache cbp inop) s fun _ t => PlaceFrame s f ci t := by
  intro b t e
  rcases updateCache_post cbp inop s b t e with ⟨-, -, -, rfl⟩ | ⟨-, -, rfl⟩
  · exact (PlaceFrame.refl hf).newCache
  · exact .refl hf

lemma MkSfs.Handed.mono (hb : s.Handed b) (hninos : t.ninos = s.ninos)
    (hnext : s.nextIno ≤ t.nextIno) : t.Handed b :=
  hb.imp_right fun h => ⟨by rw [hninos]; exact h.1, h.2.trans_le hnext⟩

lemma modInode_id (s : MkSfs) (f : ℕ) : s.modInode f id = s := by
  rw [MkSfs.modInode, Option.map_id, id, update_eq_self]

lemma putCache_get32 (hd : s.cacheOf b = some data) (j : ℕ) :
    s.putCache b j (data.get32 (4 * j)) = s := by
  rw [MkSfs.putCache, hd, Option.map_some, put32_get32, ← hd, update_eq_self]

/-- A block that no slot refers to, after a new block of block numbers. -/
lemma MkInv.ne_of_assign (h : MkInv s) (hb : s.Handed b) (hne : ∀ x, s.ref x ≠ b) {y : MkSlot}
    (href : t.ref = update s.ref y s.nextIno) (x : MkSlot) : t.ref x ≠ b := by
  rw [href]
  by_cases hx : x = y
  · rw [hx, update_self]
    have := (h.handed_lt hb).2
    omega
  · rw [update_of_ne hx]
    exact hne x

section

variable (h : MkInv s) (hf : s.inodeOf f = some ci)
include h hf

/-- A change of an inode that leaves its block map and its pointers to blocks of block numbers. -/
lemma MkInv.relabel {k : CacheInode → CacheInode} (hm : MapsAppended s f (k ci))
    (hi : (k ci).inode.indirect = ci.inode.indirect)
    (hd : (k ci).inode.dbIndirect = ci.inode.dbIndirect) :
    MkInv (s.modInode f k) ∧ (s.modInode f k).ref = s.ref := by
  have hself : (s.modInode f k).inodeOf f = some (k ci) := modInode_self hf
  have hdb := dbOf_of_frame hf hself (fun g hg => modInode_of_ne hg) hd
  have href : (s.modInode f k).ref = s.ref := by
    funext x
    cases x with
    | inode g => exact ref_inode_congr modInode_eq_none
    | indirect g => exact ref_indirect_of_frame hf hself (fun g hg => modInode_of_ne hg) hi g
    | dbIndirect g => exact hdb g
    | dbEntry g j => exact ref_dbEntry_congr (hdb g) (fun _ => rfl) j
    | data g k => rfl
  refine ⟨⟨h.ninos, h.super, h.first, h.next, by rw [href]; exact h.owning, fun x hx => ?_,
    fun g hg => h.node g (mt modInode_eq_none.mpr hg),
    h.maps_of_frame hself (fun g hg => modInode_of_ne hg) (hm.of_eq rfl rfl rfl rfl fun _ => rfl)
      (fun _ _ => rfl) fun _ _ _ _ _ => rfl,
    fun g hg => h.fresh g (modInode_eq_none.mp hg), fun g => ?_, h.blocks,
    fun c hc => ?_, h.stored⟩, href⟩
  · rw [href] at hx ⊢
    exact h.handed x hx
  · rw [ne_eq, modInode_eq_none]
    exact h.inodes g
  · rw [href]
    exact h.cached c hc

section

variable (hb : s.Handed b) (hne : ∀ x, s.ref x ≠ b) (hsize : size ≤ blkSize)
  (hlt : ci.nblks < lnNblks)
include hb hne hsize hlt

/-- The indirect branch of `append_block`. -/
lemma placeIndirect_post (hn : l0Nblks ≤ ci.nblks) (hn1 : ci.nblks < l1Nblks) : Post (do
      let l1 ← updateCache ci.l1 ci.inode.indirect
      Comp.modify (·.modInode f (·.setIndirect l1))
      Comp.modify (·.putCache l1 (ci.nblks - l0Nblks) b)) s fun _ t =>
      PlaceFrame s f ci t ∧ MkInv (t.pushed f b size) := by
  intro _ t e
  obtain ⟨l1, u, e1, e2⟩ := bind_eq_ok.mp e
  cases e2
  refine ⟨.putCache ((updateCache_frame hf _ _ _ _ e1).modInode ?_) _ _ _, ?_⟩
  · exact fun _ => ⟨rfl, rfl, rfl, rfl⟩
  rcases updateCache_post _ _ s _ _ e1 with ⟨h0, hspace, rfl, rfl⟩ | ⟨h0, rfl, rfl⟩
  · have hl := h.linkIndirect hspace hf h0
    have := hl.appendCached (k := id) (j := ci.nblks - l0Nblks) (c := s.nextIno)
      (MkInv.newCache_modInode hf) (hb.mono rfl (Nat.le_succ _))
      (h.ne_of_assign hb hne (h.ref_linkIndirect hf)) hsize hlt hn rfl rfl h.next_ne_zero
      (.inl ⟨rfl, rfl, hn1, rfl⟩)
    rwa [modInode_id] at this
  · exact h.appendCached hf hb hne hsize hlt hn rfl rfl h0 (.inl ⟨rfl, rfl, hn1, rfl⟩)

/-- The last part of the double indirect branch of `append_block`, the double indirect block being
there. -/
lemma placeEntry_post (hn : l1Nblks ≤ ci.nblks) (hdb : s.dbOf f ≠ 0) (cbp : Option ℕ) (j : ℕ)
    {i : ℕ} (hi : i < blkNentry) : Post (do
      let data2 ← getCache (s.dbOf f)
      let l1 ← updateCache cbp (data2.get32 (4 * i))
      Comp.modify (·.putCache (s.dbOf f) i l1)
      Comp.modify (·.modInode f fun ci => { ci with l1 := some l1 })
      Comp.modify (·.putCache l1 j b)) s fun _ t =>
      PlaceFrame s f ci t ∧ MkInv (t.pushed f b size) := by
  intro _ t e
  obtain ⟨data, _, e0, e⟩ := bind_eq_ok.mp e
  obtain ⟨hd, rfl⟩ := getCache_inv e0
  obtain ⟨l1, u, e1, e2⟩ := bind_eq_ok.mp e
  cases e2
  have hn0 : l0Nblks ≤ ci.nblks := le_trans (by decide) hn
  refine ⟨.putCache (((updateCache_frame hf _ _ _ _ e1).putCache _ _ _).modInode ?_) _ _ _, ?_⟩
  · exact fun _ => ⟨rfl, rfl, rfl, rfl⟩
  rcases updateCache_post _ _ s _ _ e1 with ⟨h0, hspace, rfl, rfl⟩ | ⟨h0, rfl, rfl⟩
  · have hl := h.linkEntry hspace hdb hd hi h0
    have href := h.ref_linkEntry hdb hd hi
    refine hl.appendCached hf (hb.mono rfl (Nat.le_succ _)) (h.ne_of_assign hb hne href) hsize hlt
      hn0 rfl rfl h.next_ne_zero (.inr ⟨⟨i, ?_⟩, hn⟩)
    rw [href, update_self]
  · simp only [putCache_get32 hd]
    refine h.appendCached hf hb hne hsize hlt hn0 rfl rfl h0 (.inr ⟨⟨i, ?_⟩, hn⟩)
    simp only [MkSfs.ref, if_pos (And.intro hdb hi), hd, Option.getD_some]

/-- **The place of a block** in `append_block`. -/
lemma placeBlock_post :
    Post (placeBlock f b) s fun _ t => PlaceFrame s f ci t ∧ MkInv (t.pushed f b size) := by
  intro _ t e
  rw [placeBlock, bind_of_ok (getInode_apply hf)] at e
  by_cases h0 : ci.nblks < l0Nblks
  · rw [dif_pos h0] at e
    cases e
    refine ⟨.modInode ?_ ?_, h.appendDirect hf hb hne hsize h0⟩
    · exact .refl hf
    · exact fun _ => ⟨rfl, rfl, rfl, rfl⟩
  · rw [dif_neg h0] at e
    by_cases h1 : ci.nblks < l1Nblks
    · rw [if_pos h1] at e
      exact placeIndirect_post h hf hb hne hsize hlt (by omega) h1 _ t e
    · have h2 : ci.nblks < l2Nblks := lt_of_lt_of_le hlt (by decide)
      rw [if_neg h1, if_pos h2] at e
      have hi : (ci.nblks - l1Nblks) / blkNentry < blkNentry := by
        unfold lnNblks maxFileSize blkSize at hlt
        unfold blkNentry
        omega
      obtain ⟨l2, u, e1, e2⟩ := bind_eq_ok.mp e
      -- the double indirect block, a new one or the one that was there
      obtain ⟨hinv, hu, hl2, hb', hne', hnext⟩ : MkInv (u.modInode f (·.setDouble l2)) ∧
          u = { s with super := u.super, nextIno := u.nextIno, cacheOf := u.cacheOf,
                       blocks := u.blocks } ∧
          l2 ≠ 0 ∧ u.Handed b ∧ (∀ x, (u.modInode f (·.setDouble l2)).ref x ≠ b) ∧
          s.nextIno ≤ u.nextIno := by
        rcases updateCache_post _ _ s _ _ e1 with ⟨hz, hspace, rfl, rfl⟩ | ⟨hz, rfl, rfl⟩
        · exact ⟨h.linkDouble hspace hf hz, rfl, h.next_ne_zero, hb.mono rfl (Nat.le_succ _),
            h.ne_of_assign hb hne (h.ref_linkDouble hf hz), Nat.le_succ _⟩
        · obtain ⟨hd, href⟩ := h.relabel (k := (·.setDouble ci.inode.dbIndirect)) hf
            ((h.maps f ci hf).of_eq rfl rfl rfl rfl fun _ => rfl) rfl rfl
          exact ⟨hd, rfl, hz, hb, by rw [href]; exact hne, le_rfl⟩
      have hself : (u.modInode f (·.setDouble l2)).inodeOf f = some (ci.setDouble l2) :=
        modInode_self (by rw [hu]; exact hf)
      have hdb : (u.modInode f (·.setDouble l2)).dbOf f = l2 := dbOf_of_node hself
      have hpost := placeEntry_post hinv hself hb' hne' hsize hlt (not_lt.mp h1)
        (by rw [hdb]; exact hl2) ci.l1 ((ci.nblks - l1Nblks) % blkNentry) hi
      rw [hdb] at hpost
      obtain ⟨hframe, hinv⟩ := hpost _ t e2
      refine ⟨?_, hinv⟩
      rw [hu] at hframe
      exact { hframe with
        next := hnext.trans hframe.next
        other := fun g hg => (hframe.other g hg).trans (modInode_of_ne hg) }

end

end

/-- The state after the block `b` with `size` bytes is appended to the inode `f`. -/
structure AppendedTo (s : MkSfs) (f : ℕ) (ci : CacheInode) (b size : ℕ) (t : MkSfs) : Prop where
  inv : MkInv t
  ninos : t.ninos = s.ninos
  next : s.nextIno ≤ t.nextIno
  image : t.image = s.image
  entry : t.entry = s.entry
  appended : t.appended = update s.appended f (s.appended f ++ [b])
  other : ∀ g, g ≠ f → t.inodeOf g = s.inodeOf g
  node : ∃ ci', t.inodeOf f = some ci' ∧ ci'.real = ci.real ∧
    ci'.inode.size = ci.inode.size + size ∧ ci'.inode.type = ci.inode.type ∧
    ci'.inode.nlinks = ci.inode.nlinks

/-- The frame of the whole of `append_block`. -/
lemma PlaceFrame.appendedTo (h : PlaceFrame s f ci t) (hm : MapsAppended s f ci)
    (hsize : size ≤ blkSize) (hinv : MkInv (t.pushed f b size)) :
    AppendedTo s f ci b size (t.pushed f b size) := by
  obtain ⟨c, hc, h1, h2, h3, h4⟩ := h.node
  refine ⟨hinv, h.ninos, h.next, h.image, h.entry, ?_, fun g hg => ?_, c.count size,
    pushed_self hc, h1, ?_, h3, h4⟩
  · rw [pushed_appended, h.appended]
  · exact (pushed_of_ne hg).trans (h.other g hg)
  · change (c.inode.size + size) % 2 ^ 32 = _
    have hs := hm.size
    have hl := hm.le
    unfold lnNblks maxFileSize at hl
    unfold blkSize at *
    rw [h2]
    omega

lemma appendBlock_eq (hf : s.inodeOf f = some ci) (b : ℕ) (hsize : size ≤ blkSize)
    (hlt : ci.nblks < lnNblks) :
    appendBlock f size b s = (do
      placeBlock f b
      Comp.modify (·.pushed f b size)) s := by
  rw [appendBlock, ensure_bind_apply, if_pos hsize, bind_of_ok (getInode_apply hf),
    if_neg (by omega)]
  rfl

/-- **`append_block`.** -/
lemma appendBlock_post (h : MkInv s) (hf : s.inodeOf f = some ci) (hb : s.Handed b)
    (hne : ∀ x, s.ref x ≠ b) :
    Post (appendBlock f size b) s fun _ t =>
      size ≤ blkSize ∧ AppendedTo s f ci b size t := by
  intro _ t e
  have hsize : size ≤ blkSize := by
    by_contra hc
    rw [appendBlock, ensure_bind_apply, if_neg hc] at e
    cases e
  have hlt : ci.nblks < lnNblks := by
    by_contra hc
    rw [appendBlock, ensure_bind_apply, if_pos hsize, bind_of_ok (getInode_apply hf),
      if_pos (by omega)] at e
    cases e
  rw [appendBlock_eq hf b hsize hlt] at e
  obtain ⟨_, u, e1, e2⟩ := bind_eq_ok.mp e
  cases e2
  obtain ⟨hframe, hinv⟩ := placeBlock_post h hf hb hne hsize hlt _ u e1
  exact ⟨hsize, hframe.appendedTo (h.maps f ci hf) hsize hinv⟩

/-- The state after a new inode is made. -/
def MkSfs.newInode (s : MkSfs) (real type : ℕ) : MkSfs :=
  { s.bump with
    inodeOf := update s.inodeOf s.nextIno (some ⟨emptyInode type, real, 0, none, none⟩),
    inodes := update s.inodes (hash32 real) (s.nextIno :: s.inodes (hash32 real)) }

lemma allocCacheInode_apply (s : MkSfs) (real type : ℕ) :
    allocCacheInode real 0 type s =
      if s.nextIno < s.ninos then .ok (s.nextIno, s.newInode real type)
      else .error .outOfSpace := orAllocIno_bind _ s

lemma allocCacheInode_inv {real type f : ℕ} {t : MkSfs}
    (e : allocCacheInode real 0 type s = .ok (f, t)) :
    s.nextIno < s.ninos ∧ f = s.nextIno ∧ t = s.newInode real type := by
  rw [allocCacheInode_apply] at e
  split_ifs at e with hlt
  cases e
  exact ⟨hlt, rfl, rfl⟩

lemma newInode_self (s : MkSfs) (real type : ℕ) :
    (s.newInode real type).inodeOf s.nextIno = some ⟨emptyInode type, real, 0, none, none⟩ :=
  update_self ..

lemma newInode_of_ne (hg : g ≠ s.nextIno) (real type : ℕ) :
    (s.newInode real type).inodeOf g = s.inodeOf g := update_of_ne hg ..

/-- The slots after a new inode: its number is in use, and it has no blocks. -/
lemma MkInv.ref_newInode (h : MkInv s) (real type : ℕ) :
    (s.newInode real type).ref = update s.ref (.inode s.nextIno) s.nextIno := by
  have hself := newInode_self s real type
  have hnone := h.inodeOf_next
  have hdb : ∀ g, (s.newInode real type).dbOf g = s.dbOf g := by
    intro g
    by_cases hg : g = s.nextIno
    · rw [hg, dbOf_of_node hself, MkSfs.dbOf, hnone]
      rfl
    · simp only [MkSfs.dbOf, newInode_of_ne hg]
  refine eq_update_iff.mpr ⟨ref_inode_of_node hself, fun x hx => ?_⟩
  cases x with
  | inode g =>
    have hg : g ≠ s.nextIno := by simpa using hx
    simp only [MkSfs.ref, newInode_of_ne hg]
  | indirect g =>
    by_cases hg : g = s.nextIno
    · rw [hg, ref_indirect_of_node hself]
      simp [MkSfs.ref, hnone, emptyInode]
    · simp only [MkSfs.ref, newInode_of_ne hg]
  | dbIndirect g => exact hdb g
  | dbEntry g j => exact ref_dbEntry_congr (hdb g) (fun _ => rfl) j
  | data g k => rfl

/-- **A new inode.** -/
lemma MkInv.newInode (h : MkInv s) (hlt : s.nextIno < s.ninos) {type : ℕ} (htype : type < 2 ^ 16)
    (real : ℕ) : MkInv (s.newInode real type) := by
  have hb := h.bump hlt
  have href := h.ref_newInode real type
  have hnode : ∀ g, (s.newInode real type).inodeOf g ≠ none ↔ g = s.nextIno ∨
      s.inodeOf g ≠ none := by
    intro g
    by_cases hg : g = s.nextIno
    · rw [hg, newInode_self]
      simp
    · rw [newInode_of_ne hg]
      simp [hg]
  refine ⟨h.ninos, hb.super, hb.first, hb.next, ?_, fun x hx => ?_, fun g hg => ?_,
    fun g cg hg => ?_, fun g hg => ?_, fun g => ?_, h.blocks, fun c hc => ?_, h.stored⟩
  · rw [href]
    refine hb.owning.give ?_ h.ref_ne_next
    change s.nextIno ∉ Finset.Ico (s.nextIno + 1) s.ninos
    rw [Finset.mem_Ico]
    omega
  · rw [href] at hx ⊢
    by_cases hxi : x = .inode s.nextIno
    · rw [hxi, update_self]
      exact .inr ⟨h.first, Nat.lt_succ_self _⟩
    · rw [update_of_ne hxi] at hx ⊢
      exact hb.handed x hx
  · rcases (hnode g).mp hg with rfl | hg
    · exact h.next_ne_zero
    · exact h.node g hg
  · by_cases hgn : g = s.nextIno
    · subst hgn
      obtain rfl := Option.some.inj ((newInode_self s real type).symm.trans hg)
      exact .empty (by exact h.fresh _ h.inodeOf_next) htype real
    · rw [newInode_of_ne hgn] at hg
      exact (h.maps g cg hg).of_eq rfl rfl rfl rfl fun _ => rfl
  · exact h.fresh g (by
      by_contra hc
      exact (hnode g).mpr (.inr hc) hg)
  · rw [hnode, ← h.inodes]
    exact exists_mem_update (hash32_lt real) g
  · obtain ⟨hc0, x, hx, e⟩ := h.cached c hc
    refine ⟨hc0, x, hx, ?_⟩
    rw [href, update_of_ne, e]
    rintro rfl
    exact hx

end Functions

end Ucore

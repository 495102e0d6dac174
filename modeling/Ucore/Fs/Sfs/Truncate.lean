import Ucore.Fs.Sfs.FileSpec

set_option autoImplicit false

/-!
# Truncating files

`sfs_truncfile` adds blocks to a file or takes blocks from it until it has as many as the new size
needs, and sets the size then. If there is no free block it stops half way: the blocks it has added
stay, and the size is the old one.

## Main definitions

* `Resized` — the file system after the number of blocks of a file has been changed.

## Main results

* `growFile_spec`, `shrinkFile_spec` — the two loops of `sfs_truncfile`.
* `truncfile_ok`, `truncfile_stops`, `truncfile_panics`, `truncfile_same` —
  how `sfs_truncfile` ends.
-/

namespace Ucore

open Comp

/-- The file `i` of `s` has got `n` blocks, the bytes in them being the same. -/
structure Resized (I : Finset ℕ) (i n : ℕ) (s t : SfsFs) : Prop where
  frame : Frame I i s t
  node : ∀ sin, s.nodes i = some sin → ∃ sin', t.nodes i = some sin' ∧ SameMeta sin sin'
  mapped : Mapped t i
  blocks : (t.dinOf i).blocks = n
  bytes : ∀ q, q / blkSize < n → t.bytes i q = s.bytes i q

variable {I : Finset ℕ} {s t : SfsFs} {sin : SfsInode}

section Loops

variable {i k n : ℕ}

lemma Extended.resized (x : Extended I i s t) (h : (t.dinOf i).blocks = n) : Resized I i n s t :=
  ⟨x.frame, x.node, x.mapped, h, fun q _ => x.bytes q⟩

lemma Extended.cap_eq (x : Extended I i s t) : cap t i = cap s i := by
  rw [cap, cap, x.limit]

/-- **The loop that adds blocks**: it adds `k` blocks if the file can have them. Otherwise it adds
those that the file can have, and fails or panics.

**Proof sketch.** Induction on `k`. The next block is added if the number of blocks is below the
cap, which stays the same; at the cap the lookup fails. -/
lemma growFile_spec (k : ℕ) : ∀ {s : SfsFs} {sin : SfsInode}, Sound I s → Mapped s i →
    s.nodes i = some sin →
    (sin.din.blocks + k ≤ cap s i ∧ ∃ t, growFile i k sin.din.blocks s = .ok (.ok (), t) ∧
      Extended I i s t ∧ (t.dinOf i).blocks = sin.din.blocks + k) ∨
    (cap s i < sin.din.blocks + k ∧ limit s i < maxBlocks ∧
      ∃ t, growFile i k sin.din.blocks s = .ok (.error .noMem, t) ∧ Extended I i s t ∧
        (t.dinOf i).blocks = cap s i) ∨
    (cap s i < sin.din.blocks + k ∧ maxBlocks ≤ limit s i ∧
      ∃ p, LoadPanic p ∧ growFile i k sin.din.blocks s = .error p) := by
  induction k with
  | zero =>
    intro s sin h hm hn
    have hle := hm.blocks_le_cap
    have hdin := dinOf_of_node hn
    rw [hdin] at hle
    exact .inl ⟨hle, s, rfl, Extended.refl h hm, by rw [hdin]; rfl⟩
  | succ k ih =>
    intro s sin h hm hn
    have hle := hm.blocks_le_cap
    have hdin := dinOf_of_node hn
    rw [hdin] at hle
    have hcap : cap s i = min (limit s i) maxBlocks := rfl
    by_cases hlt : sin.din.blocks < cap s i
    · -- the next block is added
      obtain ⟨t, e, x, hbl⟩ := load_ok h hm hn (.inr ⟨rfl, by omega, by omega⟩)
      obtain ⟨sin', hn', -⟩ := x.node sin hn
      have hbl' : sin'.din.blocks = sin.din.blocks + 1 := by
        rw [← dinOf_of_node hn', hbl]
        omega
      have hstep : growFile i (k + 1) sin.din.blocks s = growFile i k sin'.din.blocks t := by
        rw [growFile, andThen_of_ok e, hbl']
      rw [hstep]
      have hrec := ih x.frame.sound x.mapped hn'
      rw [x.cap_eq, x.limit, hbl', Nat.add_right_comm] at hrec
      rw [hbl']
      rcases hrec with ⟨h1, u, e', y, h2⟩ | ⟨h1, h2, u, e', y, h3⟩ | hp
      · exact .inl ⟨h1, u, e', x.trans y, h2⟩
      · exact .inr (.inl ⟨h1, h2, u, e', x.trans y, h3⟩)
      · exact .inr (.inr hp)
    · rcases lt_or_ge (limit s i) maxBlocks with hlim | hlim
      · right; left
        obtain ⟨t, e, hkept⟩ := load_full (k := sin.din.blocks) h hn (by omega)
          (hm.unmapped _ (by rw [hdin])) rfl (by omega)
        obtain ⟨x, hd⟩ := hkept.extended hm hn
        refine ⟨by omega, hlim, t, ?_, x, by rw [hd, hdin]; omega⟩
        rw [growFile, andThen_of_fail e]
      · right; right
        obtain ⟨p, hp, e⟩ := load_panics (k := sin.din.blocks) hn (.inr (by omega))
        refine ⟨by omega, hlim, p, hp, ?_⟩
        rw [growFile, andThen_of_error e]

/-- A file that has lost its last block. -/
lemma Shrunk.resized (x : Shrunk I i k s t) (hm : Mapped s i) (hn : s.nodes i = some sin)
    (hbl : sin.din.blocks = k + 1) : Resized I i k s t := by
  obtain ⟨sin', hn', hmeta, hbl'⟩ := x.node sin hn
  have hs := dinOf_of_node hn
  have ht := dinOf_of_node hn'
  refine ⟨x.frame, fun sin₀ hn₀ => ?_, ⟨fun m hlt => ?_, fun m hle => ?_⟩, by rw [ht, hbl'],
    fun q hq => ?_⟩
  · cases hn.symm.trans hn₀
    exact ⟨sin', hn', hmeta⟩
  · rw [ht, hbl'] at hlt
    rw [x.bmapAt, if_neg (by omega)]
    exact hm.mapped m (by rw [hs, hbl]; omega)
  · rw [ht, hbl'] at hle
    rw [x.bmapAt]
    split_ifs
    · rfl
    · exact hm.unmapped m (by rw [hs, hbl]; omega)
  · unfold SfsFs.bytes
    rw [hs, ht, hbl, hbl', if_pos hq, if_pos (by omega),
      x.data _ (by omega) (hm.mapped _ (by rw [hs, hbl]; omega))]

/-- **The loop that frees blocks** frees the last `k` blocks. -/
lemma shrinkFile_spec (k : ℕ) : ∀ {s : SfsFs} {sin : SfsInode}, Sound I s → Mapped s i →
    s.nodes i = some sin → k ≤ sin.din.blocks →
    ∃ t, shrinkFile i k s = .ok (.ok (), t) ∧ Resized I i (sin.din.blocks - k) s t := by
  induction k with
  | zero =>
    intro s sin h hm hn _
    exact ⟨s, rfl, (Extended.refl h hm).resized (by rw [dinOf_of_node hn]; rfl)⟩
  | succ k ih =>
    intro s sin h hm hn hk
    obtain ⟨m, hbl⟩ : ∃ m, sin.din.blocks = m + 1 := ⟨sin.din.blocks - 1, by omega⟩
    obtain ⟨t, e, x⟩ := truncate_apply h hn hbl (hm.mapped m (by rw [dinOf_of_node hn]; omega))
    have y := x.resized hm hn hbl
    obtain ⟨sin', hn', hmeta⟩ := y.node sin hn
    have hbl' : sin'.din.blocks = m := by rw [← dinOf_of_node hn', y.blocks]
    obtain ⟨u, e', z⟩ := ih y.frame.sound y.mapped hn' (by omega)
    have hsub : sin'.din.blocks - k = sin.din.blocks - (k + 1) := by omega
    rw [hsub] at z
    refine ⟨u, ?_, y.frame.trans z.frame, fun sin₀ hn₀ => ?_, z.mapped, z.blocks, fun q hq => ?_⟩
    · rw [shrinkFile, andThen_of_ok e, e']
    · cases hn.symm.trans hn₀
      obtain ⟨sin'', hn'', hmeta'⟩ := z.node sin' hn'
      exact ⟨sin'', hn'', hmeta.trans hmeta'⟩
    · rw [z.bytes q hq, y.bytes q (by omega)]

end Loops

/-! ## `sfs_truncfile` -/

section Truncfile

variable {i len n : ℕ}

/-- Setting the size changes nothing else. -/
lemma Resized.setSize (x : Resized I i n s t) (hn : s.nodes i = some sin) (len : ℕ) :
    let u := t.modSin i (·.setSize len)
    Frame I i s u ∧ Mapped u i ∧ (u.dinOf i).blocks = n ∧ (u.dinOf i).size = len ∧
      (∃ sin', u.nodes i = some sin' ∧ sin'.din.type = sin.din.type) ∧
      ∀ q, q / blkSize < n → u.bytes i q = s.bytes i q := by
  intro u
  obtain ⟨sin', hn', hmeta⟩ := x.node sin hn
  obtain ⟨hf, hmap⟩ := frame_modSin (f := (·.setSize len)) x.frame.sound hn' rfl rfl
  have hnu : u.nodes i = some (sin'.setSize len) := modSin_nodes_self hn'
  have hdin : u.dinOf i = (sin'.setSize len).din := dinOf_of_node hnu
  have hbl : (u.dinOf i).blocks = (t.dinOf i).blocks := by
    rw [hdin, dinOf_of_node hn']
    rfl
  refine ⟨x.frame.trans hf, ⟨fun k hk => ?_, fun k hk => ?_⟩, hbl.trans x.blocks, by rw [hdin]; rfl,
    ⟨_, hnu, hmeta.type⟩, fun q hq => ?_⟩
  · rw [hmap]
    exact x.mapped.mapped k (by rwa [← hbl])
  · rw [hmap]
    exact x.mapped.unmapped k (by rwa [← hbl])
  · rw [← x.bytes q hq, SfsFs.bytes, SfsFs.bytes, hbl, SfsFs.data, SfsFs.data, hmap]
    rfl

lemma truncfile_inval {len : ℤ} (h : len < 0 ∨ (maxFileSize : ℤ) < len) :
    sfsTruncfile i len s = .ok (.error .inval, s) := by
  rw [sfsTruncfile, if_pos h]
  rfl

lemma truncfile_same (hn : s.nodes i = some sin) (hlen : len ≤ maxFileSize)
    (hs : sin.din.size = len) :
    sfsTruncfile i len s =
      if blocksFor len = sin.din.blocks then .ok (.ok (), s) else .error .truncBlocks := by
  have hc : ¬((len : ℤ) < 0 ∨ (maxFileSize : ℤ) < len) := by omega
  rw [sfsTruncfile, if_neg hc, bind_of_ok (getSin_apply hn), Int.toNat_natCast, if_pos hs,
    ensure_bind_apply]
  rfl

/-- The last part of `sfs_truncfile`: the file has the blocks it needs. -/
lemma truncfile_of_resized {m : Sfs (Except Errno Unit)} (hn : s.nodes i = some sin)
    (e : m s = .ok (.ok (), t)) (x : Resized I i n s t) (len : ℕ) :
    (m.andThen fun _ => do
      let sin ← getSin i
      Comp.ensure (sin.din.blocks = n) .truncBlocks
      Comp.modify (·.modSin i (·.setSize len))
      pure (.ok ())) s = .ok (.ok (), t.modSin i (·.setSize len)) := by
  obtain ⟨sin', hn', -⟩ := x.node sin hn
  have hbl : sin'.din.blocks = n := by rw [← dinOf_of_node hn', x.blocks]
  rw [andThen_of_ok e, bind_of_ok (getSin_apply hn'), ensure_bind_apply, if_pos hbl]
  rfl

/-- `sfs_truncfile` to another size runs one of the loops. -/
lemma truncfile_eq (hn : s.nodes i = some sin) (hlen : len ≤ maxFileSize)
    (hs : sin.din.size ≠ len) :
    sfsTruncfile i len s =
      ((if sin.din.blocks < blocksFor len then
          growFile i (blocksFor len - sin.din.blocks) sin.din.blocks
        else shrinkFile i (sin.din.blocks - blocksFor len)).andThen fun _ => do
          let sin ← getSin i
          Comp.ensure (sin.din.blocks = blocksFor len) .truncBlocks
          Comp.modify (·.modSin i (·.setSize len))
          pure (.ok ())) s := by
  have hc : ¬((len : ℤ) < 0 ∨ (maxFileSize : ℤ) < len) := by omega
  rw [sfsTruncfile, if_neg hc, bind_of_ok (getSin_apply hn), Int.toNat_natCast, if_neg hs]

/-- **A truncation that succeeds**: the file can have the blocks that the new size needs. -/
lemma truncfile_ok (h : Sound I s) (hm : Mapped s i) (hn : s.nodes i = some sin)
    (hlen : len ≤ maxFileSize) (hs : sin.din.size ≠ len) (hcap : blocksFor len ≤ cap s i) :
    ∃ t, sfsTruncfile i len s = .ok (.ok (), t.modSin i (·.setSize len)) ∧
      Resized I i (blocksFor len) s t := by
  rw [truncfile_eq hn hlen hs]
  by_cases hlt : sin.din.blocks < blocksFor len
  · rw [if_pos hlt]
    rcases growFile_spec (blocksFor len - sin.din.blocks) h hm hn with
      ⟨-, t, e, x, hbl⟩ | ⟨hc, -⟩ | ⟨hc, -⟩
    · have y := x.resized (n := blocksFor len) (by omega)
      exact ⟨t, truncfile_of_resized hn e y len, y⟩
    · omega
    · omega
  · rw [if_neg hlt]
    obtain ⟨t, e, y⟩ := shrinkFile_spec (sin.din.blocks - blocksFor len) h hm hn (by omega)
    have hsub : sin.din.blocks - (sin.din.blocks - blocksFor len) = blocksFor len := by omega
    rw [hsub] at y
    exact ⟨t, truncfile_of_resized hn e y len, y⟩

/-- A file that is to get more blocks than it can have has fewer blocks than that. -/
lemma truncfile_grows (hm : Mapped s i) (hn : s.nodes i = some sin) (hlen : len ≤ maxFileSize)
    (hs : sin.din.size ≠ len) (hcap : cap s i < blocksFor len) :
    sfsTruncfile i len s =
      ((growFile i (blocksFor len - sin.din.blocks) sin.din.blocks).andThen fun _ => do
          let sin ← getSin i
          Comp.ensure (sin.din.blocks = blocksFor len) .truncBlocks
          Comp.modify (·.modSin i (·.setSize len))
          pure (.ok ())) s ∧ sin.din.blocks < blocksFor len := by
  have hle := hm.blocks_le_cap
  rw [dinOf_of_node hn] at hle
  rw [truncfile_eq hn hlen hs, if_pos (by omega)]
  exact ⟨rfl, by omega⟩

section

variable (h : Sound I s) (hm : Mapped s i) (hn : s.nodes i = some sin) (hlen : len ≤ maxFileSize)
  (hs : sin.din.size ≠ len) (hcap : cap s i < blocksFor len)
include h hm hn hlen hs hcap

/-- **A truncation that stops half way**: the disk is full. The file has got all blocks that it can
have, and its size is the old one. -/
lemma truncfile_stops (hlim : limit s i < maxBlocks) :
    ∃ t, sfsTruncfile i len s = .ok (.error .noMem, t) ∧ Resized I i (cap s i) s t := by
  obtain ⟨heq, hlt⟩ := truncfile_grows hm hn hlen hs hcap
  rw [heq]
  rcases growFile_spec (blocksFor len - sin.din.blocks) h hm hn with
    ⟨hc, -⟩ | ⟨-, -, t, e, x, hbl⟩ | ⟨-, hc, -⟩
  · omega
  · exact ⟨t, andThen_of_fail e _, x.resized hbl⟩
  · omega

/-- **A truncation that panics**: the new size needs more blocks than the block map can address, and
there are free blocks for them. -/
lemma truncfile_panics (hlim : maxBlocks ≤ limit s i) :
    ∃ p, LoadPanic p ∧ sfsTruncfile i len s = .error p := by
  obtain ⟨heq, hlt⟩ := truncfile_grows hm hn hlen hs hcap
  rw [heq]
  rcases growFile_spec (blocksFor len - sin.din.blocks) h hm hn with
    ⟨hc, -⟩ | ⟨-, hc, -⟩ | ⟨-, -, p, hp, e⟩
  · omega
  · omega
  · exact ⟨p, hp, andThen_of_error e _⟩

end

end Truncfile

end Ucore

import Ucore.Fs.Sfs.BmapSpec
import Ucore.Fs.Sfs.IoSteps

set_option autoImplicit false

/-!
# Transfers between a buffer and a file

The three steps of `sfs_io_nolock` as one transfer that goes on piece by piece, each piece inside
one block, until it is complete or the disk is full.

## Main definitions

* `Mapped` — a file has exactly the blocks below its number of blocks.
* `SfsFs.bytes` — the bytes of a file, zero beyond its blocks.
* `Moved` — the first `n` bytes of a transfer have been made.

## Main results

* `load_ok` — `sfs_bmap_load_nolock` where it succeeds.
* `Moved.piece`, `Moved.piece_full`, `Moved.piece_panics` — one piece of a
  transfer.
* `pieces_moved` — the rule for the pieces of a transfer.
-/

namespace Ucore

open Function Comp

/-- The file `i` has blocks at exactly the indices below its number of blocks. -/
structure Mapped (s : SfsFs) (i : ℕ) : Prop where
  mapped : ∀ k < (s.dinOf i).blocks, s.bmapAt i k ≠ 0
  unmapped : ∀ k, (s.dinOf i).blocks ≤ k → s.bmapAt i k = 0

/-- The byte at position `q` of the file `i`, zero beyond its blocks. -/
def SfsFs.bytes (s : SfsFs) (i q : ℕ) : UInt8 :=
  if q / blkSize < (s.dinOf i).blocks then s.data i (q / blkSize) (q % blkSize) else 0

variable {I : Finset ℕ} {write : Bool} {buf₀ buf : Bytes}

section Load

variable {i k : ℕ} {s t : SfsFs} {sin : SfsInode}

lemma Mapped.blocks_le (h : Mapped s i) : (s.dinOf i).blocks ≤ maxBlocks := by
  by_contra hlt
  exact absurd (lt_of_mapAt_ne_zero (h.mapped maxBlocks (by omega))) (lt_irrefl _)

lemma SameMeta.refl (sin : SfsInode) : SameMeta sin sin := ⟨rfl, rfl, rfl⟩

lemma SameMeta.trans {a b c : SfsInode} (h : SameMeta a b) (h' : SameMeta b c) : SameMeta a c :=
  ⟨h'.size.trans h.size, h'.type.trans h.type, h'.nlinks.trans h.nlinks⟩

/-- A file system whose file `i` may have got further blocks, its bytes being the same. -/
structure Extended (I : Finset ℕ) (i : ℕ) (s t : SfsFs) : Prop where
  frame : Frame I i s t
  node : ∀ sin, s.nodes i = some sin → ∃ sin', t.nodes i = some sin' ∧ SameMeta sin sin'
  mapped : Mapped t i
  limit : Ucore.limit t i = Ucore.limit s i
  bytes : ∀ q, t.bytes i q = s.bytes i q

lemma Extended.refl (h : Sound I s) (hm : Mapped s i) : Extended I i s s :=
  ⟨.refl h, fun sin hn => ⟨sin, hn, SameMeta.refl sin⟩, hm, rfl, fun _ => rfl⟩

/-- A file that has grown has the same bytes. -/
lemma Grown.extended {b : ℕ} (g : Grown I i k b s t) (hm : Mapped s i) (hn : s.nodes i = some sin)
    (hbl : sin.din.blocks = k) : Extended I i s t ∧ (t.dinOf i).blocks = k + 1 := by
  obtain ⟨sin', hn', hmeta, hbl'⟩ := g.node sin hn
  have hs := dinOf_of_node hn
  have ht := dinOf_of_node hn'
  refine ⟨⟨g.frame, ?_, ?_, g.limit, fun q => ?_⟩, by rw [ht, hbl']⟩
  · intro sin'' hs''
    rw [hn] at hs''
    cases hs''
    exact ⟨sin', hn', hmeta⟩
  · constructor
    · intro m hlt
      rw [ht, hbl'] at hlt
      rw [g.bmapAt]
      by_cases hmk : m = k
      · rw [if_pos hmk]
        exact g.ne_zero
      · rw [if_neg hmk]
        exact hm.mapped m (by rw [hs, hbl]; omega)
    · intro m hle
      rw [ht, hbl'] at hle
      rw [g.bmapAt, if_neg (by omega)]
      exact hm.unmapped m (by rw [hs, hbl]; omega)
  · unfold SfsFs.bytes
    rw [hs, ht, hbl, hbl']
    by_cases hq : q / blkSize = k
    · rw [if_pos (by omega), if_neg (by omega), hq]
      exact g.fresh _ (Nat.mod_lt _ (by decide))
    · by_cases hlt : q / blkSize < k
      · rw [if_pos (by omega), if_pos hlt, g.data _ hq (hm.mapped _ (by rw [hs, hbl]; exact hlt))]
      · rw [if_neg (by omega), if_neg hlt]

lemma Extended.trans {u : SfsFs} (x : Extended I i s t) (y : Extended I i t u) :
    Extended I i s u where
  frame := x.frame.trans y.frame
  node sin hn := by
    obtain ⟨sin', hn', hmeta⟩ := x.node sin hn
    obtain ⟨sin'', hn'', hmeta'⟩ := y.node sin' hn'
    exact ⟨sin'', hn'', hmeta.trans hmeta'⟩
  mapped := y.mapped
  limit := y.limit.trans x.limit
  bytes q := (y.bytes q).trans (x.bytes q)

/-- A file that has been kept has the same bytes. -/
lemma Kept.extended (h : Kept I i s t) (hm : Mapped s i) (hn : s.nodes i = some sin) :
    Extended I i s t ∧ t.dinOf i = s.dinOf i := by
  have hn' : t.nodes i = some sin := by rw [h.nodes, hn]
  have hdin : t.dinOf i = s.dinOf i := by rw [dinOf_of_node hn, dinOf_of_node hn']
  refine ⟨⟨h.frame, ?_, ⟨?_, ?_⟩, ?_, fun q => ?_⟩, hdin⟩
  · rw [h.nodes]
    exact fun sin hn => ⟨sin, hn, SameMeta.refl sin⟩
  · rw [hdin]
    intro k hk
    rw [h.bmapAt]
    exact hm.mapped k hk
  · rw [hdin]
    intro k hk
    rw [h.bmapAt]
    exact hm.unmapped k hk
  · unfold Ucore.limit
    rw [hdin, h.free]
  · unfold SfsFs.bytes
    rw [hdin]
    by_cases hq : q / blkSize < (s.dinOf i).blocks
    · rw [if_pos hq, if_pos hq, h.data _ (hm.mapped _ hq)]
    · rw [if_neg hq, if_neg hq]

/-- **Where `sfs_bmap_load_nolock` succeeds**: below the number of blocks, and at it if the limit
allows. The file then has the block. -/
lemma load_ok (h : Sound I s) (hm : Mapped s i) (hn : s.nodes i = some sin)
    (hk : k < sin.din.blocks ∨ (k = sin.din.blocks ∧ k < limit s i ∧ k < maxBlocks)) :
    ∃ t, sfsBmapLoadNolock i k s = .ok (.ok (t.bmapAt i k), t) ∧ Extended I i s t ∧
      (t.dinOf i).blocks = max sin.din.blocks (k + 1) := by
  have hs := dinOf_of_node hn
  rcases hk with hk | ⟨hk, hlim, hmax⟩
  · refine ⟨s, ?_, Extended.refl h hm, by rw [hs]; omega⟩
    exact load_mapped h.toMounted hn (h.inUse_data hn (hm.mapped k (by rwa [hs])))
      (fun h0 => (h.inUse_indirect hn h0).lt) hk
  · obtain ⟨b, t, e, g⟩ := load_grow h hn hmax (hm.unmapped k (by rw [hs]; omega)) hk.symm hlim
    obtain ⟨hext, hbl⟩ := g.extended hm hn hk.symm
    refine ⟨t, ?_, hext, by rw [hbl]; omega⟩
    rw [e, g.bmapAt, if_pos rfl]

end Load

/-! ## One piece of a transfer -/

/-- The first `n` bytes of a transfer between the buffer `buf₀` and the position `off` of the file
`i` have been made: by a write the file has got the bytes of the buffer, by a read the buffer has
got the bytes of the file. -/
structure Moved (write : Bool) (I : Finset ℕ) (i : ℕ) (s₀ : SfsFs) (buf₀ : Bytes) (off n : ℕ)
    (s : SfsFs) (buf : Bytes) : Prop where
  frame : Frame I i s₀ s
  node : ∀ sin₀, s₀.nodes i = some sin₀ → ∃ sin, s.nodes i = some sin ∧ SameMeta sin₀ sin
  mapped : Mapped s i
  blocks : (s.dinOf i).blocks = max (s₀.dinOf i).blocks (topBlock off n)
  limit : Ucore.limit s i = Ucore.limit s₀ i
  bytes : ∀ q, s.bytes i q =
    if write = true ∧ off ≤ q ∧ q < off + n then buf₀ (q - off) else s₀.bytes i q
  buffer : ∀ p, buf p = if write = false ∧ p < n then s₀.bytes i (off + p) else buf₀ p

section Piece

variable {i off n len : ℕ} {s₀ s t : SfsFs} {sin sin₀ : SfsInode}

lemma Moved.start (h : Sound I s₀) (hm : Mapped s₀ i) : Moved write I i s₀ buf₀ off 0 s₀ buf₀ := by
  refine ⟨.refl h, fun sin hn => ⟨sin, hn, SameMeta.refl sin⟩, hm, ?_, rfl, fun q => ?_,
    fun p => ?_⟩
  · simp [topBlock]
  · rw [if_neg (by omega)]
  · rw [if_neg (by omega)]

variable {op : ℕ → Sfs (Except Errno Bytes)} {next : Bytes → IoVars} {v : IoVars} {q : ℕ}

lemma pos_in_piece (hfit : (off + n) % blkSize + len ≤ blkSize) (h1 : off + n ≤ q)
    (h2 : q < off + n + len) :
    q / blkSize = (off + n) / blkSize ∧ q % blkSize = (off + n) % blkSize + (q - (off + n)) := by
  unfold blkSize at *
  omega

lemma mem_piece_iff (hq : q / blkSize = (off + n) / blkSize) : (off + n ≤ q ∧ q < off + n + len) ↔
      (off + n) % blkSize ≤ q % blkSize ∧ q % blkSize < (off + n) % blkSize + len := by
  unfold blkSize at *
  omega

/-- The file after the block is there is as far as before. -/
lemma Moved.extend (m : Moved write I i s₀ buf₀ off n s buf) (x : Extended I i s t)
    (hn : s.nodes i = some sin)
    (hbl : (t.dinOf i).blocks = max sin.din.blocks ((off + n) / blkSize + 1))
    (hlen : 0 < len) (hfit : (off + n) % blkSize + len ≤ blkSize) :
    Frame I i s₀ t ∧
      (∀ sin₀, s₀.nodes i = some sin₀ → ∃ sin, t.nodes i = some sin ∧ SameMeta sin₀ sin) ∧
      (t.dinOf i).blocks = max (s₀.dinOf i).blocks (topBlock off (n + len)) ∧
      Ucore.limit t i = Ucore.limit s₀ i := by
  refine ⟨m.frame.trans x.frame, fun sin₀ h₀ => ?_, ?_, x.limit.trans m.limit⟩
  · obtain ⟨sin', h', hmeta⟩ := m.node sin₀ h₀
    obtain ⟨sin'', h'', hmeta'⟩ := x.node sin' h'
    exact ⟨sin'', h'', hmeta.trans hmeta'⟩
  · have hs := m.blocks
    rw [dinOf_of_node hn] at hs
    have htop : topBlock off n ≤ (off + n) / blkSize + 1 := by
      unfold topBlock
      split_ifs
      · exact Nat.zero_le _
      · unfold blkSize
        omega
    rw [hbl, hs, topBlock_add hlen hfit]
    generalize (off + n) / blkSize = d at htop
    omega

/-- The transfer of a piece into the buffer. -/
lemma Moved.read_piece (m : Moved false I i s₀ buf₀ off n s buf) (x : Extended I i s t)
    (hn : s.nodes i = some sin)
    (hbl : (t.dinOf i).blocks = max sin.din.blocks ((off + n) / blkSize + 1))
    (hlen : 0 < len) (hfit : (off + n) % blkSize + len ≤ blkSize) :
    Moved false I i s₀ buf₀ off (n + len) t
      (buf.copy n (t.disk (t.bmapAt i ((off + n) / blkSize))) ((off + n) % blkSize) len) := by
  obtain ⟨h1, h2, h3, h4⟩ := m.extend x hn hbl hlen hfit
  have hbytes : ∀ q, t.bytes i q = s₀.bytes i q := by
    intro q
    rw [x.bytes, m.bytes, if_neg (by simp)]
  refine ⟨h1, h2, x.mapped, h3, h4, fun q => ?_, fun p => ?_⟩
  · rw [hbytes, if_neg (by simp)]
  · by_cases hp : n ≤ p ∧ p < n + len
    · rw [Bytes.copy_of_mem _ _ hp.1 hp.2, if_pos ⟨rfl, hp.2⟩, ← hbytes]
      obtain ⟨hq1, hq2⟩ := pos_in_piece (q := off + p) hfit (by omega) (by omega)
      rw [SfsFs.bytes, hq1, hq2, if_pos (by rw [hbl]; omega), SfsFs.data]
      congr 1
      omega
    · rw [Bytes.copy_of_notMem _ _ (by omega), m.buffer]
      by_cases hp' : p < n
      · rw [if_pos ⟨rfl, hp'⟩, if_pos ⟨rfl, by omega⟩]
      · rw [if_neg (by omega), if_neg (by omega)]

/-- The transfer of a piece into the file. -/
lemma Moved.write_piece (m : Moved true I i s₀ buf₀ off n s buf) (x : Extended I i s t)
    (hi : i ∈ I) (hn : s.nodes i = some sin)
    (hbl : (t.dinOf i).blocks = max sin.din.blocks ((off + n) / blkSize + 1))
    (hlen : 0 < len) (hfit : (off + n) % blkSize + len ≤ blkSize) :
    Moved true I i s₀ buf₀ off (n + len)
      (t.writeDisk (t.bmapAt i ((off + n) / blkSize)) ((off + n) % blkSize) buf n len) buf := by
  obtain ⟨h1, h2, h3, h4⟩ := m.extend x hn hbl hlen hfit
  have hk : t.bmapAt i ((off + n) / blkSize) ≠ 0 := x.mapped.mapped _ (by rw [hbl]; omega)
  set u := t.writeDisk (t.bmapAt i ((off + n) / blkSize)) ((off + n) % blkSize) buf n len with hu
  obtain ⟨w1, w2, w3, w4⟩ : Frame I i t u ∧ (∀ m, u.bmapAt i m = t.bmapAt i m) ∧
      u.data i ((off + n) / blkSize) =
        (t.data i ((off + n) / blkSize)).copy ((off + n) % blkSize) buf n len ∧
      ∀ m ≠ (off + n) / blkSize, t.bmapAt i m ≠ 0 → u.data i m = t.data i m :=
    frame_writeData x.frame.sound hi hk
  have hdin : u.dinOf i = t.dinOf i := by
    obtain ⟨sin', h', -⟩ := x.node sin hn
    rw [dinOf_of_node h', dinOf_of_node (s := u) h']
  have hbuf : ∀ p, buf p = buf₀ p := fun p => by rw [m.buffer, if_neg (by simp)]
  refine ⟨h1.trans w1, h2, ⟨?_, ?_⟩, by rw [hdin, h3], ?_, fun q => ?_, fun p => ?_⟩
  · rw [hdin]
    intro k hk
    rw [w2]
    exact x.mapped.mapped k hk
  · rw [hdin]
    intro k hk
    rw [w2]
    exact x.mapped.unmapped k hk
  · rw [← h4]
    unfold Ucore.limit
    rw [hdin]
    rfl
  · have hold := m.bytes q
    rw [← x.bytes, show t.bytes i q = if q / blkSize < (t.dinOf i).blocks then
      t.data i (q / blkSize) (q % blkSize) else 0 from rfl] at hold
    rw [show u.bytes i q = if q / blkSize < (u.dinOf i).blocks then
      u.data i (q / blkSize) (q % blkSize) else 0 from rfl, hdin]
    by_cases hq : q / blkSize = (off + n) / blkSize
    · rw [if_pos (by rw [hbl, hq]; omega), hq, w3]
      rw [if_pos (by rw [hbl, hq]; omega), hq] at hold
      by_cases hp : off + n ≤ q ∧ q < off + n + len
      · obtain ⟨hp1, hp2⟩ := (mem_piece_iff hq).mp hp
        have hq2 := (pos_in_piece hfit hp.1 hp.2).2
        rw [Bytes.copy_of_mem _ _ hp1 hp2, if_pos ⟨rfl, by omega, by omega⟩, hbuf]
        congr 1
        omega
      · have hp' := mt (mem_piece_iff hq).mpr hp
        rw [Bytes.copy_of_notMem _ _ (by omega), hold]
        by_cases hr : off ≤ q ∧ q < off + n
        · rw [if_pos ⟨rfl, hr⟩, if_pos ⟨rfl, by omega⟩]
        · rw [if_neg (by omega), if_neg (by omega)]
    · -- another block: its data has not changed
      have hmem : ¬(off + n ≤ q ∧ q < off + n + len) :=
        fun hp => hq (pos_in_piece hfit hp.1 hp.2).1
      have hnew : (if q / blkSize < (t.dinOf i).blocks then u.data i (q / blkSize) (q % blkSize)
          else 0) = if q / blkSize < (t.dinOf i).blocks then
            t.data i (q / blkSize) (q % blkSize) else 0 := by
        by_cases hb : q / blkSize < (t.dinOf i).blocks
        · rw [if_pos hb, if_pos hb, w4 _ hq (x.mapped.mapped _ hb)]
        · rw [if_neg hb, if_neg hb]
      rw [hnew, hold]
      by_cases hr : off ≤ q ∧ q < off + n
      · rw [if_pos ⟨rfl, hr⟩, if_pos ⟨rfl, by omega⟩]
      · rw [if_neg (by omega), if_neg (by omega)]
  · rw [hbuf, if_neg (by simp)]

/-- The buffer and the file system after one piece of either kind. -/
lemma Moved.xfer (m : Moved write I i s₀ buf₀ off n s buf) (x : Extended I i s t) (hi : i ∈ I)
    (hn : s.nodes i = some sin)
    (hbl : (t.dinOf i).blocks = max sin.din.blocks ((off + n) / blkSize + 1))
    (hlen : 0 < len) (hfit : (off + n) % blkSize + len ≤ blkSize) :
    Moved write I i s₀ buf₀ off (n + len)
      (xferFs write t (t.bmapAt i ((off + n) / blkSize)) ((off + n) % blkSize) buf n len)
      (xferBuf write t (t.bmapAt i ((off + n) / blkSize)) ((off + n) % blkSize) buf n len) := by
  cases write
  · exact m.read_piece x hn hbl hlen hfit
  · exact m.write_piece x hi hn hbl hlen hfit

/-- The number of blocks up to which the file can grow and the block map can address. -/
def cap (s : SfsFs) (i : ℕ) : ℕ := min (limit s i) maxBlocks

/-- A file is no larger than it can grow. -/
lemma Mapped.blocks_le_cap (h : Mapped s i) : (s.dinOf i).blocks ≤ cap s i := by
  have hmax := h.blocks_le
  have hlim : (s.dinOf i).blocks ≤ Ucore.limit s i := by
    unfold Ucore.limit
    split_ifs with hc
    · -- without an indirect block the file has at most the direct blocks
      have hle : (s.dinOf i).blocks ≤ nDirect := by
        by_contra hlt
        exact h.mapped nDirect (by omega) (mapAt_no_entry (lt_irrefl _) hc.1)
      omega
    · omega
  unfold cap
  omega

/-- **A piece is transferred** if its block lies below the cap. -/
lemma Moved.piece (m : Moved write I i s₀ buf₀ off n s v.buf) (hn₀ : s₀.nodes i = some sin₀)
    (hv : AtPiece off n v) (hlen : 0 < len) (hfit : (off + n) % blkSize + len ≤ blkSize)
    (hop : Transfers write ((off + n) % blkSize) v.buf n len op)
    (hle : v.blkno ≤ (s.dinOf i).blocks) (hk : v.blkno < cap s₀ i) :
    ∃ s' buf', ioPiece i v op next s = .ok ((next buf', .ok ()), s') ∧
      Moved write I i s₀ buf₀ off (n + len) s' buf' := by
  obtain ⟨sin, hn, -⟩ := m.node sin₀ hn₀
  have hs := dinOf_of_node hn
  rw [hs] at hle
  have hcap : v.blkno < Ucore.limit s i ∧ v.blkno < maxBlocks := by
    rw [m.limit]
    unfold cap at hk
    omega
  obtain ⟨t, e, x, hbl⟩ := load_ok m.frame.sound m.mapped hn
    (Nat.lt_or_eq_of_le hle |>.imp_right fun h => ⟨h, hcap⟩)
  have hi : i ∈ I := m.frame.sound.cached i sin hn
  obtain ⟨sin', hn', -⟩ := x.node sin hn
  have hu := x.frame.sound.inUse_data hn' (x.mapped.mapped v.blkno (by rw [hbl]; omega))
  rw [hv.blkno] at hbl hu
  refine ⟨_, _, ?_, m.xfer x hi hn hbl hlen hfit⟩
  rw [ioPiece, bind_of_ok e]
  simp only [hv.blkno]
  rw [bind_of_ok (hop t _ x.frame.sound.toMounted hu.ne_zero hu.lt)]
  rfl

lemma Moved.kept (m : Moved write I i s₀ buf₀ off n s buf) (h : Kept I i s t)
    (hn : s.nodes i = some sin) : Moved write I i s₀ buf₀ off n t buf := by
  obtain ⟨x, hdin⟩ := h.extended m.mapped hn
  refine ⟨m.frame.trans x.frame, ?_, x.mapped, by rw [hdin, m.blocks], x.limit.trans m.limit,
    fun q => by rw [x.bytes, m.bytes], m.buffer⟩
  rw [h.nodes]
  exact m.node

/-- **At the cap the transfer stops**: if the disk is full, with an error. -/
lemma Moved.piece_full (m : Moved write I i s₀ buf₀ off n s v.buf) (hn₀ : s₀.nodes i = some sin₀)
    (hle : v.blkno ≤ (s.dinOf i).blocks) (hk : cap s₀ i ≤ v.blkno)
    (hlim : Ucore.limit s₀ i < maxBlocks) :
    ∃ s', ioPiece i v op next s = .ok ((v, .error .noMem), s') ∧
      Moved write I i s₀ buf₀ off n s' v.buf := by
  obtain ⟨sin, hn, -⟩ := m.node sin₀ hn₀
  have hs := dinOf_of_node hn
  have hcap := m.mapped.blocks_le_cap
  unfold cap at hcap hk
  rw [m.limit] at hcap
  have hbl : sin.din.blocks = v.blkno := by
    rw [hs] at hle hcap
    omega
  obtain ⟨t, e, hkept⟩ := load_full m.frame.sound hn (k := v.blkno)
    (by rw [← hbl, ← hs]; omega) (m.mapped.unmapped _ (by rw [hs]; omega)) hbl
    (by rw [m.limit]; omega)
  refine ⟨t, ?_, m.kept hkept hn⟩
  rw [ioPiece, bind_of_ok e]
  rfl

lemma Moved.piece_panics (m : Moved write I i s₀ buf₀ off n s v.buf) (hn₀ : s₀.nodes i = some sin₀)
    (hk : cap s₀ i ≤ v.blkno) (hlim : maxBlocks ≤ Ucore.limit s₀ i) :
    ∃ p, LoadPanic p ∧ ioPiece i v op next s = .error p := by
  obtain ⟨sin, hn, -⟩ := m.node sin₀ hn₀
  unfold cap at hk
  obtain ⟨p, hp, e⟩ := load_panics (k := v.blkno) hn (.inr (by omega))
  exact ⟨p, hp, by rw [ioPiece, bind_of_error e]⟩

end Piece

/-! ## The three steps -/

/-- A transfer that has stopped at the cap: with an error if the disk is full, and with a panic if
the block map cannot address the next block. -/
def StoppedAtCap (write : Bool) (I : Finset ℕ) (i : ℕ) (s₀ : SfsFs) (buf₀ : Bytes) (off : ℕ)
    (r : IoResult) : Prop :=
  (limit s₀ i < maxBlocks ∧ ∃ v s, r = .ok ((v, .error .noMem), s) ∧
    Moved write I i s₀ buf₀ off (cap s₀ i * blkSize - off) s v.buf ∧
    v.alen = cap s₀ i * blkSize - off ∧ v.offset = off + (cap s₀ i * blkSize - off)) ∨
  (maxBlocks ≤ limit s₀ i ∧ ∃ p, LoadPanic p ∧ r = .error p)

section Steps

variable {i off n T : ℕ} {s₀ s : SfsFs} {sin₀ : SfsInode}

/-- The next block is at most the first missing one. -/
lemma Moved.blkno_le (m : Moved write I i s₀ buf₀ off n s buf)
    (hoff : off / blkSize ≤ (s₀.dinOf i).blocks) (hal : n = 0 ∨ (off + n) % blkSize = 0) :
    (off + n) / blkSize ≤ (s.dinOf i).blocks := by
  rw [m.blocks]
  by_cases h0 : n = 0
  · subst h0
    exact le_trans hoff (le_max_left _ _)
  · refine le_trans ?_ (le_max_right _ _)
    rw [topBlock, if_neg h0]
    unfold blkSize at *
    omega

lemma Moved.cap_eq (m : Moved write I i s₀ buf₀ off n s buf) : cap s i = cap s₀ i := by
  rw [cap, cap, m.limit]

/-- **The rule for the pieces** of a transfer: they reach up to the cap of the file. -/
lemma pieces_moved (hn₀ : s₀.nodes i = some sin₀)
    (hoff : off / blkSize ≤ (s₀.dinOf i).blocks) :
    Pieces write i off (cap s₀ i) T (Moved write I i s₀ buf₀ off)
      (StoppedAtCap write I i s₀ buf₀ off) where
  le m hal := by
    rw [← m.cap_eq]
    exact le_trans (m.blkno_le hoff hal) m.mapped.blocks_le_cap
  ok next m hv hal hlen hfit hop hk := by
    refine m.piece hn₀ hv hlen hfit hop ?_ (by rwa [hv.blkno])
    rw [hv.blkno]
    exact m.blkno_le hoff hal
  stop := by
    intro _ n s v op next m hv hal hk
    have hle := m.blkno_le hoff hal
    have hcap := m.mapped.blocks_le_cap
    rw [m.cap_eq] at hcap
    rcases lt_or_ge (limit s₀ i) maxBlocks with hlim | hlim
    · left
      obtain ⟨s', e, m'⟩ := Moved.piece_full m hn₀ (by rwa [hv.blkno]) (by rwa [hv.blkno]) hlim
      -- the transfer stands at the end of the last block that fits
      have hn : cap s₀ i * blkSize - off = n := by
        have hk' : (off + n) / blkSize = cap s₀ i := by omega
        rw [← hk']
        unfold blkSize at *
        omega
      exact ⟨hlim, v, s', e, by rwa [hn], by rw [hn, hv.alen], by rw [hn, hv.offset]⟩
    · right
      exact ⟨hlim, m.piece_panics hn₀ (by rwa [hv.blkno]) hlim⟩
  halts r hr := by
    rcases hr with ⟨-, v, s, e, -⟩ | ⟨-, p, -, e⟩
    · exact .inr ⟨v, _, s, e⟩
    · exact .inl ⟨p, e⟩

end Steps

end Ucore

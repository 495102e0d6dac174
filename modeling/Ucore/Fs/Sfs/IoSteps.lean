import Ucore.Fs.Sfs.File
import Ucore.Fs.Sfs.Layout

set_option autoImplicit false

/-!
# The three steps of a transfer

`sfs_io_nolock` transfers a head, whole blocks and a tail. Each is made of pieces inside one block,
so that a rule for one piece gives a rule for the three steps.

## Main definitions

* `Transfers` — an operation that transfers a part of one block.
* `Pieces` — the rule for one piece: below the block `c` it is transferred, from `c` on the
  transfer stops.

## Main results

* `Pieces.ioSteps` — the rule for the three steps.
-/

namespace Ucore

open Function Comp

/-- The number of blocks up to the last of the `n` bytes from `off` on. -/
def topBlock (off n : ℕ) : ℕ := if n = 0 then 0 else (off + n - 1) / blkSize + 1

lemma topBlock_add {off n len : ℕ} (hlen : 0 < len)
    (hfit : (off + n) % blkSize + len ≤ blkSize) :
    topBlock off (n + len) = (off + n) / blkSize + 1 := by
  rw [topBlock, if_neg (by omega)]
  unfold blkSize at *
  omega

/-! ## The operations on one block -/

section Op

variable {i : ℕ} {s : SfsFs} {buf : Bytes} {pos len b off : ℕ}

/-- The caller's buffer after a transfer between `buf + pos` and block `b`. -/
def xferBuf (write : Bool) (s : SfsFs) (b off : ℕ) (buf : Bytes) (pos len : ℕ) : Bytes :=
  if write then buf else buf.copy pos (s.disk b) off len

/-- The file system after a transfer between `buf + pos` and block `b`. -/
def xferFs (write : Bool) (s : SfsFs) (b off : ℕ) (buf : Bytes) (pos len : ℕ) : SfsFs :=
  if write then s.writeDisk b off buf pos len else s

lemma sfsBufOp_apply (write : Bool) (h : Mounted s) (hb : b ≠ 0) (hlt : b < s.super.blocks)
    (hoff : off < blkSize) (hlen : off + len ≤ blkSize) :
    sfsBufOp write buf pos len b off s =
      .ok (.ok (xferBuf write s b off buf pos len), xferFs write s b off buf pos len) := by
  cases write
  · exact sfsRbuf_apply h hb hlt hoff hlen
  · exact sfsWbuf_apply h hb hlt hoff hlen

lemma sfsBlockOp_apply (write : Bool) (h : Mounted s) (hb : b ≠ 0) (hlt : b < s.super.blocks) :
    sfsBlockOp write buf pos b 1 s =
      .ok (.ok (xferBuf write s b 0 buf pos blkSize), xferFs write s b 0 buf pos blkSize) := by
  cases write
  · exact sfsRblock_one h hb hlt
  · exact sfsWblock_one h hb hlt

/-- An operation that transfers `len` bytes between `buf + pos` and offset `off` of a block. -/
def Transfers (write : Bool) (off : ℕ) (buf : Bytes) (pos len : ℕ)
    (op : ℕ → Sfs (Except Errno Bytes)) : Prop :=
  ∀ (s : SfsFs) (b : ℕ), Mounted s → b ≠ 0 → b < s.super.blocks →
    op b s = .ok (.ok (xferBuf write s b off buf pos len), xferFs write s b off buf pos len)

lemma sfsBufOp_transfers (write : Bool) (buf : Bytes) (pos : ℕ) (hlen : 0 < len)
    (hfit : off + len ≤ blkSize) :
    Transfers write off buf pos len fun ino => sfsBufOp write buf pos len ino off := by
  intro t b hm hb hlt
  exact sfsBufOp_apply write hm hb hlt (by omega) hfit

lemma sfsBlockOp_transfers (write : Bool) (buf : Bytes) (pos : ℕ) :
    Transfers write 0 buf pos blkSize fun ino => sfsBlockOp write buf pos ino 1 := by
  intro t b hm hb hlt
  exact sfsBlockOp_apply write hm hb hlt

end Op

/-! ## The rule for one piece -/

/-- What the steps of a transfer return. -/
abbrev IoResult : Type := Except SfsPanic ((IoVars × Except Errno Unit) × SfsFs)

/-- The variables of the transfer agree with the number of bytes transferred. -/
structure AtPiece (off n : ℕ) (v : IoVars) : Prop where
  pos : v.pos = n
  alen : v.alen = n
  offset : v.offset = off + n
  blkno : v.blkno = (off + n) / blkSize

/-- The rule for one piece of a transfer at position `off`, `Inv n` holding after `n` bytes: a
piece in a block below `c` is transferred; at `c` the transfer stops, if it needs that block at all
(`c < T`). Pieces begin at block boundaries, except the first one. -/
structure Pieces (write : Bool) (i off c T : ℕ) (Inv : ℕ → SfsFs → Bytes → Prop)
    (Stop : IoResult → Prop) : Prop where
  le : ∀ {n s buf}, Inv n s buf → n = 0 ∨ (off + n) % blkSize = 0 → (off + n) / blkSize ≤ c
  ok : ∀ {n s v len op} (next : Bytes → IoVars), Inv n s v.buf → AtPiece off n v →
    n = 0 ∨ (off + n) % blkSize = 0 → 0 < len → (off + n) % blkSize + len ≤ blkSize →
    Transfers write ((off + n) % blkSize) v.buf n len op → (off + n) / blkSize < c →
    ∃ s' buf', ioPiece i v op next s = .ok ((next buf', .ok ()), s') ∧ Inv (n + len) s' buf'
  stop : c < T → ∀ {n s v op} (next : Bytes → IoVars), Inv n s v.buf → AtPiece off n v →
    n = 0 ∨ (off + n) % blkSize = 0 → c ≤ (off + n) / blkSize → Stop (ioPiece i v op next s)
  halts : ∀ r, Stop r → (∃ p, r = .error p) ∨ ∃ v e s, r = .ok ((v, .error e), s)

/-- How a transfer of `N` bytes that needs the blocks below `top` ends: it is complete if they are
the blocks below `c`, and it stops otherwise. -/
def Ends (c top N : ℕ) (Inv : ℕ → SfsFs → Bytes → Prop) (Stop : IoResult → Prop)
    (fin : IoVars → Prop) (r : IoResult) : Prop :=
  (top ≤ c ∧ ∃ v s, r = .ok ((v, .ok ()), s) ∧ Inv N s v.buf ∧ v.alen = N ∧ fin v) ∨
  (c < top ∧ Stop r)

/-- Where the tail of a transfer of `[off, e)` starts: at the last block boundary, or at `e` if the
whole transfer is the head. -/
def tailStart (off e : ℕ) : ℕ :=
  if off % blkSize ≠ 0 ∧ off / blkSize = e / blkSize then e else e / blkSize * blkSize

lemma le_tailStart {off e : ℕ} (h : off ≤ e) : off ≤ tailStart off e := by
  unfold tailStart blkSize
  split_ifs <;> omega

namespace Pieces

variable {write : Bool} {i off c T n len e : ℕ} {Inv : ℕ → SfsFs → Bytes → Prop}
  {Stop : IoResult → Prop} {s : SfsFs} {v : IoVars}

lemma stop_bind (h : Pieces write i off c T Inv Stop) {m : Sfs (IoVars × Except Errno Unit)}
    {f : IoVars × Except Errno Unit → Sfs (IoVars × Except Errno Unit)}
    (hf : ∀ v e, f (v, .error e) = pure (v, .error e)) (hs : Stop (m s)) : Stop ((m >>= f) s) := by
  rcases h.halts _ hs with ⟨p, e⟩ | ⟨v, e, t, e'⟩
  · rw [bind_of_error e, ← e]
    exact hs
  · rw [bind_of_ok e', hf, Comp.pure_apply, ← e']
    exact hs

/-- One piece. -/
lemma piece (h : Pieces write i off c T Inv Stop) (hT : (off + n) / blkSize < T)
    {op : ℕ → Sfs (Except Errno Bytes)} (next : Bytes → IoVars) (m : Inv n s v.buf)
    (hv : AtPiece off n v) (hal : n = 0 ∨ (off + n) % blkSize = 0) (hlen : 0 < len)
    (hfit : (off + n) % blkSize + len ≤ blkSize)
    (hop : Transfers write ((off + n) % blkSize) v.buf n len op)
    (hnext : ∀ buf, (next buf).alen = n + len ∧ (next buf).buf = buf) :
    Ends c ((off + n) / blkSize + 1) (n + len) Inv Stop (fun v' => v' = next v'.buf)
      (ioPiece i v op next s) := by
  by_cases hk : (off + n) / blkSize < c
  · left
    obtain ⟨s', buf', e, m'⟩ := h.ok next m hv hal hlen hfit hop hk
    refine ⟨hk, next buf', s', e, ?_, (hnext buf').1, ?_⟩
    · rw [(hnext buf').2]
      exact m'
    · change next buf' = next (next buf').buf
      rw [(hnext buf').2]
  · right
    exact ⟨by omega, h.stop (by omega) next m hv hal (by omega)⟩

/-- **Step (2)**: whole blocks, from a block boundary on.

**Proof sketch.** Induction on the number of blocks. If the next block is below `c` it is
transferred and the rest is the induction hypothesis; otherwise the transfer ends here. -/
lemma ioBlocks (h : Pieces write i off c T Inv Stop) (k : ℕ) :
    ∀ {n : ℕ} {s : SfsFs} {v : IoVars}, Inv n s v.buf → AtPiece off n v →
      (off + n) % blkSize = 0 → (off + n) / blkSize + k ≤ T →
      Ends c ((off + n) / blkSize + k) (n + k * blkSize) Inv Stop (AtPiece off (n + k * blkSize))
        (Ucore.ioBlocks write i k v s) := by
  induction k with
  | zero =>
    intro n s v m hv hal _
    left
    exact ⟨h.le m (.inr hal), v, s, rfl, by simpa using m, by simpa using hv.alen,
      by simpa using hv⟩
  | succ k ih =>
    intro n s v m hv hal hT
    set next : Bytes → IoVars := fun buf =>
      { v with buf := buf, pos := v.pos + blkSize, alen := v.alen + blkSize,
               blkno := v.blkno + 1, offset := v.offset + blkSize } with hnext
    have hop : Transfers write ((off + n) % blkSize) v.buf n blkSize
        (fun ino => sfsBlockOp write v.buf v.pos ino 1) := by
      rw [hal, hv.pos]
      exact sfsBlockOp_transfers write v.buf n
    have hp := h.piece (s := s) (by omega) next m hv (.inr hal) (by decide) (by rw [hal]; omega)
      hop fun buf => ⟨by simp [hnext, hv.alen], rfl⟩
    rw [Ucore.ioBlocks]
    rcases hp with ⟨hc, v', s', e, m', -, hfin⟩ | ⟨hc, hs⟩
    · have hv' : AtPiece off (n + blkSize) v' := by
        rw [hfin]
        refine ⟨by simp [hnext, hv.pos], by simp [hnext, hv.alen], ?_, ?_⟩
        · simp only [hnext, hv.offset]
          omega
        · simp only [hnext, hv.blkno]
          unfold blkSize
          omega
      have h1 : (off + (n + blkSize)) / blkSize + k = (off + n) / blkSize + (k + 1) := by
        unfold blkSize
        omega
      have h2 : n + blkSize + k * blkSize = n + (k + 1) * blkSize := by
        unfold blkSize
        omega
      have := ih m' hv' (by unfold blkSize at *; omega) (by rw [h1]; exact hT)
      rw [bind_of_ok e]
      rw [h1, h2] at this
      exact this
    · right
      exact ⟨by omega, h.stop_bind (fun _ _ => rfl) hs⟩

section

variable (h : Pieces write i off c (topBlock off (e - off)) Inv Stop)
include h

/-- **Step (3)**: the tail, from the last block boundary on. -/
lemma ioTail (m : Inv n s v.buf) (hv : AtPiece off n v) (hlt : off < e)
    (hn : off + n = e / blkSize * blkSize) :
    Ends c (topBlock off (e - off)) (e - off) Inv Stop (fun v => v.offset = e / blkSize * blkSize)
      (Ucore.ioTail write i e v s) := by
  have hal : (off + n) % blkSize = 0 := by
    rw [hn]
    exact Nat.mul_mod_left _ _
  by_cases hte : v.offset < e
  · have hlen : e - v.offset = e - off - n := by
      rw [hv.offset]
      omega
    have hpos : 0 < e - off - n := by
      rw [hv.offset] at hte
      omega
    have hfit : (off + n) % blkSize + (e - off - n) ≤ blkSize := by
      rw [hal]
      unfold blkSize at *
      omega
    have hop : Transfers write ((off + n) % blkSize) v.buf n (e - off - n)
        (fun ino => sfsBufOp write v.buf v.pos (e - off - n) ino 0) := by
      rw [hal, hv.pos]
      exact sfsBufOp_transfers write v.buf n hpos (by rwa [hal] at hfit)
    have htop : (off + n) / blkSize + 1 = topBlock off (e - off) := by
      rw [← topBlock_add hpos hfit]
      congr 1
      omega
    have hN : n + (e - off - n) = e - off := by omega
    have hp := h.piece (s := s) (by omega)
      (fun buf => { v with buf := buf, alen := v.alen + (e - off - n) }) m hv (.inr hal) hpos
      hfit hop fun buf => ⟨by simp [hv.alen], rfl⟩
    rw [htop, hN] at hp
    rw [Ucore.ioTail, if_pos hte, hlen]
    rcases hp with ⟨hc, v', s', e', m', ha, hfin⟩ | hs
    · refine .inl ⟨hc, v', s', e', m', ha, ?_⟩
      rw [hfin]
      simp only [hv.offset, hn]
    · exact .inr hs
  · left
    have hN : n = e - off := by
      rw [hv.offset] at hte
      unfold blkSize at *
      omega
    have htop : topBlock off (e - off) = (off + n) / blkSize := by
      rw [topBlock, if_neg (by omega)]
      unfold blkSize at *
      omega
    refine ⟨by rw [htop]; exact h.le m (.inr hal), v, s, ?_, by rwa [← hN],
      by rw [← hN, hv.alen], ?_⟩
    · rw [Ucore.ioTail, if_neg hte]
      rfl
    · change v.offset = _
      rw [hv.offset, hn]

/-- Steps (2) and (3), from a block boundary on. -/
lemma ioRest (m : Inv n s v.buf) (hv : AtPiece off n v) (hlt : off < e) (hle : off + n ≤ e)
    (hal : (off + n) % blkSize = 0) (hnb : v.nblks = e / blkSize - (off + n) / blkSize) :
    Ends c (topBlock off (e - off)) (e - off) Inv Stop (fun v => v.offset = e / blkSize * blkSize)
      ((Ucore.ioBlocks write i v.nblks v >>= fun r => match r with
        | (v, .error ret) => pure (v, .error ret)
        | (v, .ok ()) => Ucore.ioTail write i e v) s) := by
  have hdiv : (off + n) / blkSize ≤ e / blkSize := Nat.div_le_div_right hle
  have htop : (off + n) / blkSize + v.nblks = e / blkSize := by omega
  have hN : off + (n + v.nblks * blkSize) = e / blkSize * blkSize := by
    rw [hnb]
    unfold blkSize at *
    omega
  have hle' : e / blkSize ≤ topBlock off (e - off) := by
    rw [topBlock, if_neg (by omega)]
    unfold blkSize
    omega
  have hp := h.ioBlocks v.nblks m hv hal (by omega)
  rw [htop] at hp
  rcases hp with ⟨hc, v', s', e', m', -, hv'⟩ | ⟨hc, hs⟩
  · rw [bind_of_ok e']
    exact h.ioTail m' hv' hlt hN
  · right
    exact ⟨by omega, h.stop_bind (fun _ _ => rfl) hs⟩

/-- **The three steps** transfer the range `[off, e)`.

**Proof sketch.** If `off` is at a block boundary there is no head. Otherwise the head is the whole
transfer if `e` lies in the same block, and else it ends at the next block boundary, from where
`Pieces.ioRest` takes over. -/
lemma ioSteps {buf : Bytes} (m : Inv 0 s buf) (hlt : off < e) :
    Ends c (topBlock off (e - off)) (e - off) Inv Stop (fun v => v.offset = tailStart off e)
      (Ucore.ioSteps write i e
        ⟨buf, 0, 0, off, off / blkSize, e / blkSize - off / blkSize⟩ s) := by
  set v : IoVars := ⟨buf, 0, 0, off, off / blkSize, e / blkSize - off / blkSize⟩ with hvdef
  have hv : AtPiece off 0 v := ⟨rfl, rfl, rfl, rfl⟩
  have hdiv : off / blkSize ≤ e / blkSize := Nat.div_le_div_right hlt.le
  have hle' : off / blkSize + 1 ≤ topBlock off (e - off) := by
    rw [topBlock, if_neg (by omega)]
    unfold blkSize
    omega
  by_cases hb : off % blkSize = 0
  · -- no head
    have hhead : ioHead write i e v s = .ok ((v, .ok ()), s) := by
      rw [ioHead, if_neg (by simpa [hvdef] using hb)]
      rfl
    have hts : tailStart off e = e / blkSize * blkSize := by
      rw [tailStart, if_neg (by simp [hb])]
    rw [Ucore.ioSteps, bind_of_ok hhead, hts]
    exact h.ioRest m hv hlt hlt.le (by simpa using hb) (by simp [hvdef])
  · set len := if v.nblks ≠ 0 then blkSize - off % blkSize else e - off with hlen
    set next : Bytes → IoVars := fun buf =>
      { buf := buf, pos := v.pos + len, alen := v.alen + len, offset := v.offset + len,
        blkno := v.blkno + 1, nblks := if 0 < v.nblks then v.nblks - 1 else v.nblks } with hnext
    have hlenpos : 0 < len ∧ off % blkSize + len ≤ blkSize := by
      rw [hlen]
      have := Nat.mod_lt off (show 0 < blkSize by decide)
      split_ifs with hnb
      · omega
      · simp only [hvdef, ne_eq, not_not] at hnb
        unfold blkSize at *
        omega
    have hhead : ioHead write i e v s =
        ioPiece i v (fun ino => sfsBufOp write v.buf v.pos len ino (off % blkSize)) next s := by
      rw [ioHead, if_pos (by simpa [hvdef] using hb)]
    have hp : Ends c (off / blkSize + 1) len Inv Stop (fun v' => v' = next v'.buf)
        (ioHead write i e v s) := by
      have hpp : Ends c (off / blkSize + 1) (0 + len) Inv Stop (fun v' => v' = next v'.buf)
          (ioPiece i v (fun ino => sfsBufOp write v.buf v.pos len ino (off % blkSize)) next s) :=
        h.piece (n := 0) hle' next m hv (.inl rfl) hlenpos.1 hlenpos.2
          (sfsBufOp_transfers write v.buf 0 hlenpos.1 hlenpos.2)
          fun buf => ⟨by simp [hnext, hvdef], rfl⟩
      rw [Nat.zero_add] at hpp
      rwa [hhead]
    rw [Ucore.ioSteps]
    rcases hp with ⟨hc, v', s', e', m', ha, hfin⟩ | ⟨hc, hs⟩
    · rw [bind_of_ok e']
      by_cases hnb : v.nblks = 0
      · -- the head is the whole transfer
        have hblk : off / blkSize = e / blkSize := by
          simp only [hvdef] at hnb
          omega
        have hlene : len = e - off := by rw [hlen, if_neg (by simpa using hnb)]
        have hnb' : v'.nblks = 0 := by
          rw [hfin]
          simp [hnext, hnb]
        have hoff' : v'.offset = e := by
          rw [hfin]
          simp only [hnext, hvdef, hlene]
          omega
        left
        refine ⟨?_, v', s', ?_, by rwa [← hlene], by rw [ha, hlene], ?_⟩
        · rw [topBlock, if_neg (by omega)]
          unfold blkSize at *
          omega
        · simp only [hnb', Ucore.ioBlocks]
          rw [Comp.pure_bind']
          simp only [Ucore.ioTail, hoff', lt_irrefl, if_false]
          rfl
        · change v'.offset = _
          rw [hoff', tailStart, if_pos ⟨hb, hblk⟩]
      · have hlenb : len = blkSize - off % blkSize := by rw [hlen, if_pos hnb]
        have hblk : off / blkSize < e / blkSize := by
          simp only [hvdef] at hnb
          omega
        have hts : tailStart off e = e / blkSize * blkSize := by
          rw [tailStart, if_neg (by omega)]
        have hv' : AtPiece off len v' := by
          rw [hfin]
          refine ⟨by simp [hnext, hvdef], by simp [hnext, hvdef], by simp [hnext, hvdef], ?_⟩
          simp only [hnext, hvdef, hlenb]
          unfold blkSize at *
          omega
        rw [hts]
        refine h.ioRest m' hv' hlt ?_ ?_ ?_
        · rw [hlenb]
          unfold blkSize at *
          omega
        · rw [hlenb]
          unfold blkSize at *
          omega
        · rw [hfin]
          simp only [hnext, hvdef, hlenb]
          rw [if_pos (by omega)]
          unfold blkSize at *
          omega
    · right
      exact ⟨by omega, h.stop_bind (fun _ _ => rfl) hs⟩

end

end Pieces

end Ucore

import Ucore.Fs.Sfs.Truncate

set_option autoImplicit false

/-!
# Runs on the files of a volume

Sequences of reads, writes, truncations and seeks on the regular files of one volume, by any
descriptors. To each call belongs the *shape* it gives its file, size and number of blocks, as a
function of the state before the call. The calls keep the block maps in order, but not the relation
between size and number of blocks, and they can panic.

## Main definitions

* `FileOp`, `FileReach` — the calls, and the states they reach.
* `FileOp.shapeAfter` — size and number of blocks after a call.
* `FileOp.Safe` — the calls that return.
* `FileOp.Fits` — the calls after which the number of blocks fits the size.
* `IoFrame`, `FileFrame` — a relation that the parts of the calls keep to.

## Main results

* `FileOp.run_spec` — a call returns iff it is safe, and what it does then.
* `files_inv_run` — the representation invariant holds along all runs of calls that fit.
* `io_returns_iff_safe` — after every run, a call returns iff it is safe.
-/

namespace Ucore

open Comp Relation

/-! ## The calls -/

/-- The calls on files. -/
inductive FileOp
  | read (i : ℕ) (iob : Iobuf)
  | write (i : ℕ) (iob : Iobuf)
  | truncate (i : ℕ) (len : ℤ)
  | seek (i : ℕ) (pos : ℤ)

namespace FileOp

/-- The inode of a call. -/
def ino : FileOp → ℕ
  | read i _ => i
  | write i _ => i
  | truncate i _ => i
  | seek i _ => i

/-- The return code of a call. -/
def run : FileOp → Sfs (Except Errno Unit)
  | read i iob => do
    let (_, ret) ← sfsRead i iob
    pure ret
  | write i iob => do
    let (_, ret) ← sfsWrite i iob
    pure ret
  | truncate i len => sfsTruncfile i len
  | seek i pos => sfsTryseek i pos

/-- The number of bytes asked for is a `size_t`. -/
def Sized : FileOp → Prop
  | read _ iob => iob.ioResid < 2 ^ 64
  | write _ iob => iob.ioResid < 2 ^ 64
  | truncate _ _ => True
  | seek _ _ => True

/-- The call is made on a regular file that is cached. -/
def Legit (s : SfsFs) (op : FileOp) : Prop :=
  (∃ sin, s.nodes op.ino = some sin ∧ sin.din.type = typeFile) ∧ op.Sized

end FileOp

/-- The states reached from `s` by calls that return and satisfy `C`. -/
def FileReach (C : SfsFs → FileOp → Prop) : SfsFs → SfsFs → Prop :=
  ReflTransGen fun s t =>
    ∃ (op : FileOp) (ret : Except Errno Unit), op.Legit s ∧ C s op ∧ op.run s = .ok (ret, t)

/-! ## Relations that the calls keep to -/

/-- A relation that the steps of a transfer keep to. -/
structure IoFrame (i : ℕ) (R : SfsFs → SfsFs → Prop) : Prop where
  load : ∀ k, Within R (sfsBmapLoadNolock i k)
  buf : ∀ write v len off next,
    Within R (ioPiece i v (fun ino => sfsBufOp write v.buf v.pos len ino off) next)
  block : ∀ write v next,
    Within R (ioPiece i v (fun ino => sfsBlockOp write v.buf v.pos ino 1) next)

/-- A relation that also the removal of a block and a change of the size keep to. -/
structure FileFrame (i : ℕ) (R : SfsFs → SfsFs → Prop) : Prop extends IoFrame i R where
  truncate : Within R (sfsBmapTruncateNolock i)
  size : ∀ n, Within R (Comp.modify (·.modSin i (·.setSize n)) : Sfs Unit)

lemma getSin_post (i : ℕ) (s : SfsFs) :
    Post (getSin i) s fun sin t => t = s ∧ s.nodes i = some sin := by
  intro sin t e
  unfold getSin at e
  rw [read_bind_apply] at e
  cases hn : s.nodes i with
  | none =>
    rw [hn] at e
    cases e
  | some sin' =>
    rw [hn] at e
    cases e
    exact ⟨rfl, rfl⟩

section Frame

variable {i : ℕ} {R : SfsFs → SfsFs → Prop} [Std.Refl R]

lemma getSin_within : Within R (getSin i) := fun s =>
  (getSin_post i s).mono fun _ _ h => by rw [h.1]; exact Std.Refl.refl s

variable [IsTrans SfsFs R]

lemma IoFrame.ioBlocks (hx : IoFrame i R) (write : Bool) (k : ℕ) (v : IoVars) :
    Within R (ioBlocks write i k v) := by
  induction k generalizing v with
  | zero => exact .pure _
  | succ k ih =>
    refine (hx.block write v _).bind fun r => ?_
    obtain ⟨v', ret⟩ := r
    cases ret with
    | ok _ => exact ih v'
    | error e => exact .pure _

/-- **The steps of a transfer.** -/
lemma IoFrame.ioSteps (hx : IoFrame i R) (write : Bool) (endpos : ℕ) (v : IoVars) :
    Within R (ioSteps write i endpos v) := by
  refine .bind (.ite (hx.buf write v _ _ _) (.pure _)) fun r => ?_
  obtain ⟨v', ret⟩ := r
  cases ret with
  | error e => exact .pure _
  | ok _ =>
    refine (hx.ioBlocks write v'.nblks v').bind fun r' => ?_
    obtain ⟨v'', ret'⟩ := r'
    cases ret' with
    | error e => exact .pure _
    | ok _ => exact .ite (hx.buf write v'' _ _ _) (.pure _)

/-- **The loop that adds blocks.** -/
lemma IoFrame.growFile (hx : IoFrame i R) (k nblks : ℕ) : Within R (growFile i k nblks) := by
  induction k generalizing nblks with
  | zero => exact .pure _
  | succ k ih => exact (hx.load nblks).andThen fun _ => ih (nblks + 1)

lemma FileFrame.shrinkFile (hx : FileFrame i R) (k : ℕ) : Within R (shrinkFile i k) := by
  induction k with
  | zero => exact .pure _
  | succ k ih => exact hx.truncate.andThen fun _ => ih

/-- **Reading and writing.** -/
lemma FileFrame.sfsIo (hx : FileFrame i R) (write : Bool) (iob : Iobuf) :
    Within R (sfsIo write i iob) := by
  refine .bind (getSin_within.bind fun sin => .ensure_bind <| .ite (.pure _) <|
    .ite (.pure _) <| .ite (.pure _) <| (hx.ioSteps write _ _).bind fun r => ?_) fun r => ?_
  · exact getSin_within.bind fun _ => .ite (.bind_pure (hx.size _)) (.pure _)
  · exact .ite (.bind (Within.ensure.bind fun _ => .pure _) fun _ => .pure _) (.pure _)

lemma FileFrame.sfsTruncfile (hx : FileFrame i R) (len : ℤ) : Within R (sfsTruncfile i len) := by
  refine .ite (.pure _) (getSin_within.bind fun sin => .ite (.ensure_bind (.pure _)) ?_)
  refine .andThen (.ite (hx.growFile _ _) (hx.shrinkFile _)) fun _ => ?_
  exact getSin_within.bind fun _ => .ensure_bind (.bind_pure (hx.size _))

/-- **All calls keep to the relation.** -/
lemma FileOp.run_within (op : FileOp) (hx : FileFrame op.ino R) : Within R op.run := by
  cases op with
  | read i iob => exact (hx.sfsIo false iob).bind fun _ => .pure _
  | write i iob => exact (hx.sfsIo true iob).bind fun _ => .pure _
  | truncate i len => exact hx.sfsTruncfile len
  | seek i pos =>
    exact .ite (.pure _) (getSin_within.bind fun _ => .ite (hx.sfsTruncfile pos) (.pure _))

end Frame

/-- The block maps of all regular files are in order. -/
def FilesMapped (I : Finset ℕ) (s : SfsFs) : Prop :=
  ∀ i ∈ I, (s.dinOf i).type = typeFile → Mapped s i

/-! ## Shapes -/

/-- Size and number of blocks of a file. -/
abbrev Shape : Type := ℕ × ℕ

/-- The shape of a file. -/
def SfsFs.shape (s : SfsFs) (i : ℕ) : Shape := ((s.dinOf i).size, (s.dinOf i).blocks)

/-- The shape of the file `i` after a transfer of `[off, e)`. If the file cannot have the blocks
that are needed, the transfer stops at the first one. -/
def transferShape (s : SfsFs) (i off e : ℕ) : Shape :=
  if topBlock off (e - off) ≤ cap s i then
    (max (s.dinOf i).size (tailStart off e + (e - off)),
      max (s.dinOf i).blocks (topBlock off (e - off)))
  else
    let n := cap s i * blkSize - off
    (max (s.dinOf i).size (off + n + n), max (s.dinOf i).blocks (topBlock off n))

/-- The shape of the file `i` after a request to read or to write. -/
def ioShape (write : Bool) (s : SfsFs) (i : ℕ) (offset : ℤ) (len : ℕ) : Shape :=
  if IoActive write (s.dinOf i).size offset len then
    transferShape s i offset.toNat (ioEnd write (s.dinOf i).size offset.toNat len)
  else s.shape i

/-- The shape of the file `i` after a truncation. If the disk is full, the file keeps the blocks
that have been added. -/
def truncShape (s : SfsFs) (i : ℕ) (len : ℤ) : Shape :=
  if 0 ≤ len ∧ len ≤ maxFileSize ∧ (s.dinOf i).size ≠ len.toNat then
    if blocksFor len.toNat ≤ cap s i then (len.toNat, blocksFor len.toNat)
    else ((s.dinOf i).size, cap s i)
  else s.shape i

/-- The shape of the file after a call. -/
def FileOp.shapeAfter (s : SfsFs) : FileOp → Shape
  | .read i iob => ioShape false s i iob.ioOffset iob.ioResid
  | .write i iob => ioShape true s i iob.ioOffset iob.ioResid
  | .truncate i len => truncShape s i len
  | .seek i pos =>
    if (s.dinOf i).size < pos ∧ pos < maxFileSize then truncShape s i pos else s.shape i

/-! ## Calls that return -/

/-- A request to read or to write that returns: it starts inside the blocks of the file or right
behind them, and the blocks it needs can be addressed, or the disk is full before. -/
def IoSafe (write : Bool) (s : SfsFs) (i : ℕ) (offset : ℤ) (len : ℕ) : Prop :=
  IoActive write (s.dinOf i).size offset len →
    offset.toNat / blkSize ≤ (s.dinOf i).blocks ∧
    (topBlock offset.toNat (ioEnd write (s.dinOf i).size offset.toNat len - offset.toNat) ≤
      maxBlocks ∨ limit s i < maxBlocks)

/-- A truncation that returns: if the size is to be as it is, the number of blocks fits it; and if
not, the blocks that are needed can be addressed, or the disk is full before. -/
def TruncSafe (s : SfsFs) (i : ℕ) (len : ℤ) : Prop :=
  0 ≤ len → len ≤ maxFileSize →
    if (s.dinOf i).size = len.toNat then blocksFor len.toNat = (s.dinOf i).blocks
    else blocksFor len.toNat ≤ maxBlocks ∨ limit s i < maxBlocks

/-- The calls that return. -/
def FileOp.Safe (s : SfsFs) : FileOp → Prop
  | .read i iob => IoSafe false s i iob.ioOffset iob.ioResid
  | .write i iob => IoSafe true s i iob.ioOffset iob.ioResid
  | .truncate i len => TruncSafe s i len
  | .seek i pos => (s.dinOf i).size < pos → pos < maxFileSize → TruncSafe s i pos

/-- A call on the file `i` has given it the shape `sh` and has changed nothing else. -/
structure Reshaped (I : Finset ℕ) (i : ℕ) (s t : SfsFs) (sh : Shape) : Prop where
  frame : Frame I i s t
  mapped : Mapped t i
  node : ∀ sin, s.nodes i = some sin → ∃ sin', t.nodes i = some sin' ∧
    sin'.din.type = sin.din.type
  shape : t.shape i = sh

variable {I : Finset ℕ} {i off e len : ℕ} {s t : SfsFs} {sin : SfsInode} {write : Bool} {offset : ℤ}

section Calls

lemma Reshaped.refl (h : Sound I s) (hm : Mapped s i) : Reshaped I i s s (s.shape i) :=
  ⟨.refl h, hm, fun sin hn => ⟨sin, hn, rfl⟩, rfl⟩

variable {op : FileOp} {ret : Except Errno Unit} {n : ℕ}

lemma Transferred.reshaped {buf buf' : Bytes} {g : ℕ}
    (x : Transferred write I i s buf off n g t buf') :
    Reshaped I i s t (max (s.dinOf i).size g, max (s.dinOf i).blocks (topBlock off n)) := by
  refine ⟨x.frame, x.mapped, x.node, ?_⟩
  rw [SfsFs.shape, x.size, x.blocks]

lemma stopped_le {c : ℕ} (hlt : off < e) (h : c < topBlock off (e - off)) :
    c * blkSize - off ≤ e - off := by
  rw [topBlock, if_neg (by omega)] at h
  unfold blkSize at *
  omega

/-- **Reading and writing**: a request returns if it is safe, and panics otherwise. -/
lemma sfsIoNolock_reshapes (write : Bool) (h : Sound I s) (hm : Mapped s i)
    (hn : s.nodes i = some sin) (ht : sin.din.type = typeFile) (hlen : len < 2 ^ 64)
    (offset : ℤ) (buf : Bytes) :
    (IoSafe write s i offset len → ∃ buf' alen ret t,
      sfsIoNolock write i buf offset len s = .ok ((buf', alen, ret), t) ∧ alen ≤ len ∧
      Reshaped I i s t (ioShape write s i offset len)) ∧
    (¬IoSafe write s i offset len →
      ∃ p, LoadPanic p ∧ sfsIoNolock write i buf offset len s = .error p) := by
  have hdin := dinOf_of_node hn
  have htd : sin.din.type ≠ typeDir := by
    rw [ht]
    decide
  unfold IoSafe ioShape
  rw [hdin]
  by_cases ha : IoActive write sin.din.size offset len
  · obtain ⟨heq, hlt⟩ := sfsIoNolock_active hn htd ha buf
    have hle : ioEnd write sin.din.size offset.toNat len ≤ offset.toNat + len := by
      unfold ioEnd
      split_ifs <;> omega
    rw [heq]
    simp only [ha, if_true, forall_const]
    generalize ioEnd write sin.din.size offset.toNat len = e at *
    generalize offset.toNat = off at *
    have hcap : cap s i = min (limit s i) maxBlocks := rfl
    by_cases hoff : off / blkSize ≤ sin.din.blocks
    · by_cases htop : topBlock off (e - off) ≤ cap s i
      · refine ⟨fun _ => ?_, fun hs => absurd ⟨hoff, .inl (by omega)⟩ hs⟩
        obtain ⟨t, buf', e', x⟩ := ioTransfer_complete write h hm hn hoff hlt htop buf
        refine ⟨buf', _, _, t, e', by omega, ?_⟩
        rw [transferShape, if_pos htop]
        exact x.reshaped
      · rcases lt_or_ge (limit s i) maxBlocks with hlim | hlim
        · refine ⟨fun _ => ?_, fun hs => absurd ⟨hoff, .inr hlim⟩ hs⟩
          obtain ⟨t, buf', e', x⟩ := ioTransfer_stops write h hm hn hoff hlt (by omega) hlim buf
          have := stopped_le hlt (show cap s i < _ by omega)
          refine ⟨buf', _, _, t, e', by omega, ?_⟩
          rw [transferShape, if_neg htop]
          exact x.reshaped
        · refine ⟨fun hs => ?_,
            fun _ => ioTransfer_panics write h hm hn hoff hlt (by omega) hlim buf⟩
          omega
    · exact ⟨fun hs => absurd hs.1 hoff,
        fun _ => ioTransfer_panics_beyond write hn (by omega) hlt buf⟩
  · refine ⟨fun _ => ?_, fun hs => absurd (fun ha' => absurd ha' ha) hs⟩
    obtain ⟨ret, e'⟩ := sfsIoNolock_idle hn htd hlen ha buf
    refine ⟨buf, 0, ret, s, e', Nat.zero_le _, ?_⟩
    rw [if_neg ha]
    exact Reshaped.refl h hm

/-- `sfs_io` returns if `sfs_io_nolock` does. -/
lemma sfsIo_of_ok {iob : Iobuf} {buf : Bytes} {alen : ℕ}
    (h : sfsIoNolock write i (fun k => iob.base (iob.ioBase + k)) iob.ioOffset iob.ioResid s =
      .ok ((buf, alen, ret), t))
    (ha : alen ≤ iob.ioResid) : ∃ iob', sfsIo write i iob s = .ok ((iob', ret), t) := by
  rw [sfsIo, bind_of_ok h]
  by_cases h0 : alen = 0
  · subst h0
    exact ⟨_, rfl⟩
  · simp only [ne_eq, h0, not_false_eq_true, if_true, iobufSkip, bind_apply,
      ensure_apply, ha, Comp.pure_apply]
    exact ⟨_, rfl⟩

/-- `sfs_read` and `sfs_write`: a request returns if it is safe, and panics otherwise. -/
lemma sfsIo_reshapes (write : Bool) (h : Sound I s) (hm : Mapped s i)
    (hn : s.nodes i = some sin) (ht : sin.din.type = typeFile) (iob : Iobuf)
    (hlen : iob.ioResid < 2 ^ 64) :
    (IoSafe write s i iob.ioOffset iob.ioResid → ∃ iob' ret t,
      sfsIo write i iob s = .ok ((iob', ret), t) ∧
      Reshaped I i s t (ioShape write s i iob.ioOffset iob.ioResid)) ∧
    (¬IoSafe write s i iob.ioOffset iob.ioResid →
      ∃ p, LoadPanic p ∧ sfsIo write i iob s = .error p) := by
  obtain ⟨h1, h2⟩ := sfsIoNolock_reshapes write h hm hn ht hlen iob.ioOffset
    fun k => iob.base (iob.ioBase + k)
  refine ⟨fun hs => ?_, fun hs => ?_⟩
  · obtain ⟨buf', alen, ret, t, e, ha, x⟩ := h1 hs
    obtain ⟨iob', e'⟩ := sfsIo_of_ok e ha
    exact ⟨iob', ret, t, e', x⟩
  · obtain ⟨p, hp, e⟩ := h2 hs
    exact ⟨p, hp, by rw [sfsIo, bind_of_error e]⟩

lemma Resized.reshaped (x : Resized I i n s t) (hn : s.nodes i = some sin) :
    Reshaped I i s t ((s.dinOf i).size, n) := by
  obtain ⟨sin', hn', hmeta⟩ := x.node sin hn
  have ht := dinOf_of_node hn'
  have hs := dinOf_of_node hn
  refine ⟨x.frame, x.mapped, fun sin₀ hn₀ => ?_, ?_⟩
  · obtain ⟨sin'', hn'', hmeta'⟩ := x.node sin₀ hn₀
    exact ⟨sin'', hn'', hmeta'.type⟩
  · rw [SfsFs.shape, x.blocks, ht, hs, hmeta.size]

lemma Resized.reshaped_setSize (x : Resized I i n s t) (hn : s.nodes i = some sin) (len : ℕ) :
    Reshaped I i s (t.modSin i (·.setSize len)) (len, n) := by
  obtain ⟨hf, hm, hb, hs, ⟨sin', hn', ht⟩, -⟩ := x.setSize hn len
  refine ⟨hf, hm, fun sin₀ hn₀ => ?_, by rw [SfsFs.shape, hs, hb]⟩
  cases hn.symm.trans hn₀
  exact ⟨sin', hn', ht⟩

/-- **Truncating**: a call returns if it is safe, and panics otherwise. -/
lemma sfsTruncfile_reshapes (h : Sound I s) (hm : Mapped s i) (hn : s.nodes i = some sin)
    (len : ℤ) :
    (TruncSafe s i len → ∃ ret t, sfsTruncfile i len s = .ok (ret, t) ∧
      Reshaped I i s t (truncShape s i len)) ∧
    (¬TruncSafe s i len → ∃ p, sfsTruncfile i len s = .error p ∧
      (LoadPanic p ∨ blocksFor (s.dinOf i).size ≠ (s.dinOf i).blocks)) := by
  have hdin := dinOf_of_node hn
  unfold TruncSafe truncShape
  rw [hdin]
  by_cases hc : len < 0 ∨ (maxFileSize : ℤ) < len
  · have hc' : ¬(0 ≤ len ∧ len ≤ maxFileSize ∧ sin.din.size ≠ len.toNat) := by omega
    refine ⟨fun _ => ⟨_, s, truncfile_inval hc, ?_⟩, fun hs => absurd (fun h0 h1 => ?_) hs⟩
    · rw [if_neg hc']
      exact Reshaped.refl h hm
    · omega
  · obtain ⟨n, rfl⟩ : ∃ n : ℕ, len = n := ⟨len.toNat, by omega⟩
    have hn0 : n ≤ maxFileSize := by omega
    have hcap : cap s i = min (limit s i) maxBlocks := rfl
    have hc1 : (n : ℤ) ≤ maxFileSize := by omega
    have hc0 : (0 : ℤ) ≤ n := by omega
    simp only [Int.toNat_natCast, hc0, hc1, forall_const, true_and]
    by_cases hs : sin.din.size = n
    · rw [truncfile_same hn hn0 hs]
      simp only [hs, if_true, ne_eq, not_true_eq_false, if_false]
      refine ⟨fun hb => ⟨_, s, if_pos hb, Reshaped.refl h hm⟩, fun hb => ⟨_, if_neg hb, .inr hb⟩⟩
    · simp only [hs, if_false, ne_eq, not_false_eq_true, if_true]
      by_cases htop : blocksFor n ≤ cap s i
      · refine ⟨fun _ => ?_, fun hs => absurd (.inl (by omega)) hs⟩
        obtain ⟨t, e, x⟩ := truncfile_ok h hm hn hn0 hs htop
        rw [if_pos htop]
        exact ⟨_, _, e, x.reshaped_setSize hn n⟩
      · rw [if_neg htop]
        rcases lt_or_ge (limit s i) maxBlocks with hlim | hlim
        · refine ⟨fun _ => ?_, fun hs => absurd (.inr hlim) hs⟩
          obtain ⟨t, e, x⟩ := truncfile_stops h hm hn hn0 hs (by omega) hlim
          have := x.reshaped hn
          rw [hdin] at this
          exact ⟨_, t, e, this⟩
        · refine ⟨fun hs => by omega, fun _ => ?_⟩
          obtain ⟨p, hp, e⟩ := truncfile_panics h hm hn hn0 hs (by omega) hlim
          exact ⟨p, e, .inl hp⟩

/-- Seeking truncates if the position lies behind the end of the file. -/
lemma sfsTryseek_eq (hn : s.nodes i = some sin) (pos : ℤ) :
    (sin.din.size < pos ∧ pos < maxFileSize ∧ sfsTryseek i pos s = sfsTruncfile i pos s) ∨
    (¬(sin.din.size < pos ∧ pos < maxFileSize) ∧ ∃ ret, sfsTryseek i pos s = .ok (ret, s)) := by
  by_cases h1 : pos < 0 ∨ (maxFileSize : ℤ) ≤ pos
  · right
    refine ⟨by omega, .error .inval, ?_⟩
    rw [sfsTryseek, if_pos h1]
    rfl
  · rw [sfsTryseek, if_neg h1, bind_of_ok (getSin_apply hn)]
    by_cases h2 : (sin.din.size : ℤ) < pos
    · left
      exact ⟨h2, by omega, by rw [if_pos h2]⟩
    · right
      refine ⟨by omega, .ok (), ?_⟩
      rw [if_neg h2]
      rfl

lemma FileOp.Legit.mem (hl : op.Legit s) (h : Sound I s) :
    op.ino ∈ I ∧ (s.dinOf op.ino).type = typeFile := by
  obtain ⟨⟨sin, hn, ht⟩, -⟩ := hl
  exact ⟨h.cached _ sin hn, by rw [dinOf_of_node hn, ht]⟩

/-- **What a call does**: it returns if it is safe, and panics otherwise. If it returns, its file
has the shape that belongs to the call, and nothing else has changed. -/
lemma FileOp.run_spec (h : Sound I s) (hm : FilesMapped I s) (hl : op.Legit s) :
    (op.Safe s → ∃ ret t, op.run s = .ok (ret, t) ∧
      Reshaped I op.ino s t (op.shapeAfter s)) ∧
    (¬op.Safe s → ∃ p, op.run s = .error p) := by
  obtain ⟨hi, htype⟩ := hl.mem h
  have hmi := hm _ hi htype
  obtain ⟨⟨sin, hn, ht⟩, hsized⟩ := hl
  have hdin := dinOf_of_node hn
  cases op with
  | read i iob =>
    obtain ⟨h1, h2⟩ := sfsIo_reshapes false h hmi hn ht iob hsized
    refine ⟨fun hs => ?_, fun hs => ?_⟩
    · obtain ⟨iob', ret, t, e, x⟩ := h1 hs
      exact ⟨ret, t, bind_of_ok e _, x⟩
    · obtain ⟨p, -, e⟩ := h2 hs
      exact ⟨p, bind_of_error e _⟩
  | write i iob =>
    obtain ⟨h1, h2⟩ := sfsIo_reshapes true h hmi hn ht iob hsized
    refine ⟨fun hs => ?_, fun hs => ?_⟩
    · obtain ⟨iob', ret, t, e, x⟩ := h1 hs
      exact ⟨ret, t, bind_of_ok e _, x⟩
    · obtain ⟨p, -, e⟩ := h2 hs
      exact ⟨p, bind_of_error e _⟩
  | truncate i len =>
    obtain ⟨h1, h2⟩ := sfsTruncfile_reshapes h hmi hn len
    refine ⟨h1, fun hs => ?_⟩
    obtain ⟨p, e, -⟩ := h2 hs
    exact ⟨p, e⟩
  | seek i pos =>
    have hsafe : FileOp.Safe s (.seek i pos) ↔
        ((sin.din.size : ℤ) < pos → pos < maxFileSize → TruncSafe s i pos) := by
      rw [← hdin]
      rfl
    have hshape : FileOp.shapeAfter s (.seek i pos) =
        if (sin.din.size : ℤ) < pos ∧ pos < maxFileSize then truncShape s i pos
        else s.shape i := by
      rw [← hdin]
      rfl
    rw [hsafe, hshape]
    rcases sfsTryseek_eq hn pos with ⟨h1, h2, e⟩ | ⟨hc, ret, e⟩
    · rw [if_pos ⟨h1, h2⟩]
      simp only [h1, h2, forall_const]
      obtain ⟨h3, h4⟩ := sfsTruncfile_reshapes h hmi hn pos
      refine ⟨fun hs => ?_, fun hs => ?_⟩
      · obtain ⟨ret, t, e', x⟩ := h3 hs
        exact ⟨ret, t, e.trans e', x⟩
      · obtain ⟨p, e', -⟩ := h4 hs
        exact ⟨p, e.trans e'⟩
    · rw [if_neg hc]
      exact ⟨fun _ => ⟨ret, s, e, Reshaped.refl h hmi⟩,
        fun hs => absurd (fun h1 h2 => absurd ⟨h1, h2⟩ hc) hs⟩

/-- A call that returns is safe. -/
lemma FileOp.run_ok (h : Sound I s) (hm : FilesMapped I s) (hl : op.Legit s)
    (e : op.run s = .ok (ret, t)) : op.Safe s ∧ Reshaped I op.ino s t (op.shapeAfter s) := by
  obtain ⟨h1, h2⟩ := FileOp.run_spec h hm hl
  by_cases hs : op.Safe s
  · obtain ⟨ret', t', e', x⟩ := h1 hs
    cases e.symm.trans e'
    exact ⟨hs, x⟩
  · obtain ⟨p, e'⟩ := h2 hs
    cases e.symm.trans e'

/-- A call keeps the block maps in order. -/
lemma Reshaped.filesMapped {sh : Shape} (x : Reshaped I i s t sh) (hm : FilesMapped I s) :
    FilesMapped I t := by
  intro j hj htype
  by_cases hji : j = i
  · rw [hji]
    exact x.mapped
  · have hd := x.frame.dinOf j hj hji
    rw [hd] at htype
    obtain ⟨h1, h2⟩ := hm j hj htype
    refine ⟨fun k hk => ?_, fun k hk => ?_⟩ <;> rw [x.frame.bmapAt j hj hji] <;> rw [hd] at hk
    · exact h1 k hk
    · exact h2 k hk

/-- **All runs** keep the block maps in order. -/
lemma FileReach.filesMapped {C : SfsFs → FileOp → Prop} (hr : FileReach C s t) (h : Sound I s)
    (hm : FilesMapped I s) : Sound I t ∧ FilesMapped I t := by
  induction hr with
  | refl => exact ⟨h, hm⟩
  | tail _ hstep ih =>
    obtain ⟨op, ret, hl, -, e⟩ := hstep
    obtain ⟨-, x⟩ := FileOp.run_ok ih.1 ih.2 hl e
    exact ⟨x.frame.sound, x.filesMapped ih.2⟩

end Calls

/-- **When file I/O returns.** Whatever calls have been made on the files of a sound volume whose
block maps are in order, the next call on a regular file returns iff it is safe. -/
theorem io_returns_iff_safe {I : Finset ℕ} {s t : SfsFs} (h : Sound I s) (hm : FilesMapped I s)
    (hr : FileReach (fun _ _ => True) s t) (op : FileOp) (hl : op.Legit t) :
    (∃ ret u, op.run t = .ok (ret, u)) ↔ op.Safe t := by
  obtain ⟨ht, hmt⟩ := hr.filesMapped h hm
  obtain ⟨h1, -⟩ := FileOp.run_spec ht hmt hl
  refine ⟨fun ⟨ret, u, e⟩ => (FileOp.run_ok ht hmt hl e).1, fun hs => ?_⟩
  obtain ⟨ret, u, e, -⟩ := h1 hs
  exact ⟨ret, u, e⟩

/-- A request for one byte at position `pos`. -/
def oneByte (pos : ℤ) : Iobuf := ⟨Bytes.zero, 0, pos, 1⟩

variable {w : BitVec 32}

lemma directFile_legit {n size : ℕ} {op : FileOp} (hop : op.ino = 2) (hs : op.Sized) :
    op.Legit (oneFile w (directFile n size)) := by
  refine ⟨⟨⟨directFile n size, false, 1, 1, 1⟩, ?_, rfl⟩, hs⟩
  rw [hop]
  exact oneFile_node

lemma directFile_filesMapped {n size : ℕ} (hle : n ≤ nDirect) :
    FilesMapped {2} (oneFile w (directFile n size)) := by
  intro i hi _
  rw [Finset.mem_singleton.mp hi]
  exact directFile_mapped hle

/-- Writing a byte at the start of a file of one block returns. -/
theorem io_returns_first_byte :
    let s := oneFile 0xFFFFFFF0#32 (directFile 1 4096)
    FileOp.Safe s (.write 2 (oneByte 0)) ∧
      ∃ ret u, FileOp.run (.write 2 (oneByte 0)) s = .ok (ret, u) := by
  intro s
  have hs : FileOp.Safe s (.write 2 (oneByte 0)) := fun _ => ⟨by decide, .inl (by decide)⟩
  have hl : FileOp.Legit s (.write 2 (oneByte 0)) := directFile_legit rfl (by decide : 1 < 2 ^ 64)
  exact ⟨hs, (io_returns_iff_safe (directFile_sound (by decide) (by decide))
    (directFile_filesMapped (by decide)) ReflTransGen.refl _ hl).mpr hs⟩

lemma oneBlock_sound : Sound {2} (oneFile 0xFFFFFFF0#32 (directFile 1 4096)) :=
  directFile_sound (by decide) (by decide)

/-- A file of one block is truncated to nothing. -/
lemma truncate_oneBlock {C : SfsFs → FileOp → Prop}
    (hC : C (oneFile 0xFFFFFFF0#32 (directFile 1 4096)) (.truncate 2 0)) :
    ∃ t, FileReach C (oneFile 0xFFFFFFF0#32 (directFile 1 4096)) t ∧ Sound {2} t ∧ Mapped t 2 ∧
      (t.dinOf 2).blocks = 0 ∧ (t.dinOf 2).size = 0 ∧
      ∃ sin, t.nodes 2 = some sin ∧ sin.din.type = typeFile := by
  obtain ⟨t, e, x⟩ := truncfile_ok oneBlock_sound (directFile_mapped (by decide)) oneFile_node
    (Nat.zero_le _) (by decide : 4096 ≠ 0) (Nat.zero_le _)
  obtain ⟨hf, hm, hbl, hsize, hn, -⟩ := x.setSize oneFile_node 0
  exact ⟨_, .single ⟨.truncate 2 0, _, directFile_legit rfl trivial, hC, e⟩, hf.sound, hm, hbl,
    hsize, hn⟩

/-- **File I/O can panic**: a file of one block is truncated to nothing; a descriptor that still
stands at the old end then writes one byte, and `sfs_bmap_load_nolock` panics. -/
theorem io_panics_after_truncate :
    let s := oneFile 0xFFFFFFF0#32 (directFile 1 4096)
    Sound {2} s ∧ FilesInv {2} s ∧ ∃ t, FileReach (fun _ _ => True) s t ∧
      FileOp.Legit t (.write 2 (oneByte 4096)) ∧
      ∃ p, LoadPanic p ∧ FileOp.run (.write 2 (oneByte 4096)) t = .error p := by
  obtain ⟨t, hr, hs, hm, hbl, -, sin, hn, ht⟩ := truncate_oneBlock (C := fun _ _ => True) trivial
  refine ⟨oneBlock_sound, directFile_filesInv (by decide) (by decide) rfl, t, hr,
    ⟨⟨sin, hn, ht⟩, (by decide : 1 < 2 ^ 64)⟩, ?_⟩
  obtain ⟨-, h2⟩ := sfsIo_reshapes true hs hm hn ht (oneByte 4096) (by decide)
  obtain ⟨p, hp, e'⟩ := h2 fun hsafe => by
    have hact : IoActive true (t.dinOf 2).size 4096 1 :=
      ⟨by decide, by decide, by decide, by decide, fun hc => by cases hc⟩
    exact absurd (hsafe hact).1 (by rw [hbl]; decide)
  exact ⟨p, hp, bind_of_error e' _⟩

/-! ## The representation invariant -/

/-- The number of blocks is the one that the size needs. -/
def Shape.Fits (sh : Shape) : Prop := sh.2 = blocksFor sh.1

/-- A transfer of `[off, e)` after which the number of blocks fits the size: if the file can have
the blocks that are needed, the position to which the size is raised lies inside the blocks; if
not, the transfer starts at the end of the last block that the file can have. -/
def TransferFits (s : SfsFs) (i off e : ℕ) : Prop :=
  if topBlock off (e - off) ≤ cap s i then
    tailStart off e + (e - off) ≤ max (s.dinOf i).blocks (topBlock off (e - off)) * blkSize
  else off = cap s i * blkSize

/-- A truncation after which the number of blocks fits the size: the file can have the blocks that
are needed, or it cannot get any block. -/
def TruncFits (s : SfsFs) (i : ℕ) (len : ℤ) : Prop :=
  0 ≤ len → len ≤ maxFileSize → (s.dinOf i).size ≠ len.toNat →
    blocksFor len.toNat ≤ cap s i ∨ (s.dinOf i).blocks = cap s i

/-- The calls after which the number of blocks fits the size. -/
def FileOp.Fits (s : SfsFs) : FileOp → Prop
  | .read i iob => IoActive false (s.dinOf i).size iob.ioOffset iob.ioResid →
      TransferFits s i iob.ioOffset.toNat
        (ioEnd false (s.dinOf i).size iob.ioOffset.toNat iob.ioResid)
  | .write i iob => IoActive true (s.dinOf i).size iob.ioOffset iob.ioResid →
      TransferFits s i iob.ioOffset.toNat
        (ioEnd true (s.dinOf i).size iob.ioOffset.toNat iob.ioResid)
  | .truncate i len => TruncFits s i len
  | .seek i pos => (s.dinOf i).size < pos → pos < maxFileSize → TruncFits s i pos

lemma topBlock_eq_blocksFor (hlt : off < e) : topBlock off (e - off) = blocksFor e := by
  rw [topBlock, if_neg (by omega)]
  unfold blocksFor blkSize
  omega

lemma complete_fits {b size g : ℕ} (hb : b = blocksFor size) (hlt : off < e) (hg : e ≤ g) :
    max b (topBlock off (e - off)) = blocksFor (max size g) ↔
      g ≤ max b (topBlock off (e - off)) * blkSize := by
  rw [topBlock_eq_blocksFor hlt, hb]
  unfold blocksFor blkSize
  omega

lemma stopped_fits {b c size : ℕ} (hb : b = blocksFor size) (hbc : b ≤ c)
    (hoff : off / blkSize ≤ b) :
    max b (topBlock off (c * blkSize - off)) =
        blocksFor (max size (off + (c * blkSize - off) + (c * blkSize - off))) ↔
      off = c * blkSize := by
  rw [topBlock, hb] at *
  unfold blocksFor blkSize at *
  split_ifs <;> omega

/-- The shape after a transfer fits iff the transfer does. -/
lemma transferShape_fits (hf : FileInv s i) (hoff : off / blkSize ≤ (s.dinOf i).blocks)
    (hlt : off < e) : (transferShape s i off e).Fits ↔ TransferFits s i off e := by
  have hcap := hf.toMapped.blocks_le_cap
  have hstart := le_tailStart hlt.le
  unfold transferShape TransferFits Shape.Fits
  by_cases hc : topBlock off (e - off) ≤ cap s i
  · rw [if_pos hc, if_pos hc]
    exact complete_fits hf.blocks hlt (by omega)
  · rw [if_neg hc, if_neg hc]
    exact stopped_fits hf.blocks hcap hoff

/-- A choice of which one branch is settled. -/
lemma ite_iff_imp {α : Type} {P : α → Prop} {c q : Prop} [Decidable c] {a b : α} (hb : P b)
    (ha : c → (P a ↔ q)) : P (if c then a else b) ↔ (c → q) := by
  split_ifs with hc
  · rw [ha hc, forall_prop_of_true hc]
  · exact iff_of_true hb fun h => absurd h hc

/-- The shape after a request to read or to write fits iff the transfer does, if there is one. -/
lemma ioShape_fits (hf : FileInv s i) (hs : IoSafe write s i offset len) :
    (ioShape write s i offset len).Fits ↔ (IoActive write (s.dinOf i).size offset len →
      TransferFits s i offset.toNat (ioEnd write (s.dinOf i).size offset.toNat len)) := by
  exact ite_iff_imp hf.blocks fun ha => transferShape_fits hf (hs ha).1 ha.lt_ioEnd

/-- The shape after a truncation fits iff the truncation does. -/
lemma truncShape_fits (hf : FileInv s i) (len : ℤ) :
    (truncShape s i len).Fits ↔ TruncFits s i len := by
  have hb := hf.blocks
  rw [TruncFits, ← and_imp, ← and_imp, and_assoc]
  refine ite_iff_imp hb fun _ => ?_
  by_cases htop : blocksFor len.toNat ≤ cap s i
  · rw [if_pos htop]
    exact iff_of_true rfl (.inl htop)
  · rw [if_neg htop]
    simp only [Shape.Fits, htop, false_or, ← hb]
    exact eq_comm

/-- The shape after a safe call fits iff the call does. -/
lemma FileOp.shapeAfter_fits {op : FileOp} (hf : FileInv s op.ino) (hs : op.Safe s) :
    (op.shapeAfter s).Fits ↔ op.Fits s := by
  cases op with
  | read i iob | write i iob => exact ioShape_fits hf hs
  | truncate i len => exact truncShape_fits hf len
  | seek i pos =>
    rw [FileOp.Fits, ← and_imp]
    exact ite_iff_imp hf.blocks fun _ => truncShape_fits hf pos

lemma FilesInv.filesMapped (h : FilesInv I s) : FilesMapped I s :=
  fun i hi ht => (h i hi ht).toMapped

/-- A call keeps the representation invariants iff its file has a shape that fits. -/
lemma Reshaped.filesInv_iff {sh : Shape} (x : Reshaped I i s t sh) (hi : i ∈ I)
    (hn : s.nodes i = some sin) (htype : sin.din.type = typeFile) (hf : FilesInv I s) :
    FilesInv I t ↔ sh.Fits := by
  have hsh := x.shape
  constructor
  · intro h
    obtain ⟨sin', hn', ht⟩ := x.node sin hn
    rw [← hsh]
    exact (h i hi (by rw [dinOf_of_node hn', ht, htype])).blocks
  · intro hfit j hj ht
    refine (x.filesMapped hf.filesMapped j hj ht).fileInv x.frame.sound hj ?_
    by_cases hji : j = i
    · subst hji
      rw [← hsh] at hfit
      exact hfit
    · rw [x.frame.dinOf j hj hji] at ht ⊢
      exact (hf j hj ht).blocks

/-- **One call** keeps the representation invariants iff it fits. -/
lemma FileOp.run_filesInv_iff (h : Sound I s) (hf : FilesInv I s) {op : FileOp} (hl : op.Legit s)
    {ret : Except Errno Unit} (e : op.run s = .ok (ret, t)) :
    Sound I t ∧ (FilesInv I t ↔ op.Fits s) := by
  obtain ⟨hi, htype⟩ := hl.mem h
  obtain ⟨hs, x⟩ := FileOp.run_ok h hf.filesMapped hl e
  refine ⟨x.frame.sound, ?_⟩
  obtain ⟨⟨sin, hn, ht⟩, -⟩ := hl
  rw [x.filesInv_iff hi hn ht hf]
  exact FileOp.shapeAfter_fits (hf _ hi htype) hs

/-- **All runs** of calls that fit keep the representation invariants. -/
lemma FileReach.filesInv (hr : FileReach (fun s op => op.Fits s) s t) (h : Sound I s)
    (hf : FilesInv I s) : Sound I t ∧ FilesInv I t := by
  induction hr with
  | refl => exact ⟨h, hf⟩
  | tail _ hstep ih =>
    obtain ⟨op, ret, hl, hfit, e⟩ := hstep
    obtain ⟨h1, h2⟩ := FileOp.run_filesInv_iff ih.1 ih.2 hl e
    exact ⟨h1, h2.mpr hfit⟩

/-- Where the number of blocks fits the size, the assertions of `sfs_truncfile` hold. -/
lemma truncfile_ne_truncBlocks (h : Sound I s) (hf : FileInv s i) (hn : s.nodes i = some sin)
    (len : ℤ) : sfsTruncfile i len s ≠ .error .truncBlocks := by
  intro e
  obtain ⟨h1, h2⟩ := sfsTruncfile_reshapes h hf.toMapped hn len
  by_cases hs : TruncSafe s i len
  · obtain ⟨ret, t, e', -⟩ := h1 hs
    cases e.symm.trans e'
  · obtain ⟨p, e', hp | hp⟩ := h2 hs
    · cases e.symm.trans e'
      rcases hp with hp | hp <;> cases hp
    · exact hp hf.blocks.symm

/-- **The representation invariant along runs.** From a sound volume whose files satisfy their
representation invariant, every run of calls that fit reaches such volumes only, and the assertion
`tblks == din->blocks` in `sfs_truncfile` never fails there. Every call that returns and does not
fit breaks the invariant. -/
theorem files_inv_run {I : Finset ℕ} {s t : SfsFs} (h : Sound I s) (hf : FilesInv I s)
    (hr : FileReach (fun s op => op.Fits s) s t) :
    FilesInv I t ∧
    (∀ i sin, t.nodes i = some sin → sin.din.type = typeFile →
      ∀ len, sfsTruncfile i len t ≠ .error .truncBlocks) ∧
    ∀ (op : FileOp) (ret : Except Errno Unit) (u : SfsFs), op.Legit t → op.run t = .ok (ret, u) →
      (FilesInv I u ↔ op.Fits t) := by
  obtain ⟨ht, hft⟩ := hr.filesInv h hf
  refine ⟨hft, fun i sin hn htype len => ?_, fun op ret u hl e => ?_⟩
  · refine truncfile_ne_truncBlocks ht (hft i (ht.cached i sin hn) ?_) hn len
    rwa [dinOf_of_node hn]
  · exact (FileOp.run_filesInv_iff ht hft hl e).2

/-- Truncating a file of one block to nothing keeps the representation invariant. -/
theorem files_inv_after_truncate :
    let s := oneFile 0xFFFFFFF0#32 (directFile 1 4096)
    ∃ t, FileReach (fun s op => op.Fits s) s t ∧ (t.dinOf 2).size = 0 ∧ FilesInv {2} t := by
  obtain ⟨t, hr, -, -, -, hsize, -⟩ := truncate_oneBlock (C := fun s op => op.Fits s)
    fun _ _ _ => .inl (Nat.zero_le _)
  exact ⟨t, hr, hsize,
    (files_inv_run oneBlock_sound (directFile_filesInv (by decide) (by decide) rfl) hr).1⟩

/-- **The representation invariant can break**: writing one block to an empty file gives it the
size of two blocks, and a truncation to that size then fails the assertion
`tblks == din->blocks`. -/
theorem files_inv_broken_by_write :
    let s := oneFile 0xFFFFFFF8#32 (directFile 0 0)
    Sound {2} s ∧ FilesInv {2} s ∧ ∃ t, FileReach (fun _ _ => True) s t ∧ ¬FilesInv {2} t ∧
      sfsTruncfile 2 8192 t = .error .truncBlocks := by
  intro s
  have hw : ∀ b < 3 + 0, (0xFFFFFFF8#32).getLsbD b = false := by decide
  have hs : Sound {2} s := directFile_sound (by decide) hw
  have hf : FilesInv {2} s := directFile_filesInv (by decide) hw rfl
  have hl : FileOp.Legit s (.write 2 ⟨Bytes.zero, 0, 0, 4096⟩) :=
    directFile_legit rfl (by decide : 4096 < 2 ^ 64)
  obtain ⟨ret, t, e, x⟩ := (FileOp.run_spec hs (directFile_filesMapped (by decide)) hl).1
    fun _ => ⟨by decide, .inl (by decide)⟩
  have hsh : t.shape 2 = (8192, 1) := x.shape.trans (by decide)
  obtain ⟨sin', hn', ht⟩ := x.node _ oneFile_node
  change t.nodes 2 = some sin' at hn'
  have hsize : sin'.din.size = 8192 := by
    rw [← dinOf_of_node hn']
    exact congrArg Prod.fst hsh
  have hblocks : sin'.din.blocks = 1 := by
    rw [← dinOf_of_node hn']
    exact congrArg Prod.snd hsh
  refine ⟨hs, hf, t, .single ⟨_, ret, hl, trivial, e⟩, fun hinv => ?_, ?_⟩
  · have hb := (hinv 2 (by decide) (by rw [dinOf_of_node hn', ht]; rfl)).blocks
    rw [dinOf_of_node hn', hsize, hblocks] at hb
    exact absurd hb (by decide)
  · have hle : 8192 ≤ maxFileSize := by decide
    refine (truncfile_same hn' hle hsize).trans ?_
    rw [hblocks, if_neg (by decide)]

end Ucore

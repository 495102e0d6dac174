import Ucore.Process.LoadIcode

set_option autoImplicit false

/-!
# The segments of a program

What the loops of `load_icode` over the pages of a segment leave in memory, and over the program
headers.

## Main definitions

* `SegFilled` — the pages from `lo` to `cur` have been mapped, and their bytes from `start` to
  `stop` are those of the segment: the invariant of both loops.
* `ProgHdr.Fits` — the segment does not wrap around the end of the address space.
* `ProgHdr.lastPage` — the page behind the last one that is mapped for a segment.
* `SegLoaded` — what the loops have done for a segment so far.
* `SegImage` — what a segment leaves in memory.
* `Image` — what the segments so far have left: the invariant of the loop over the program headers.

## Main results

* `filePages_post`, `zeroPages_post`, `zeroPart_post`, `loadSegment_post` — one segment.
* `loadSegments_post` — all segments.
-/

namespace Ucore

open Function Comp List PmState

variable {A : Type} {al : FrameAllocator A} {file : Bytes} {ph : ProgHdr} {D : Finset ℕ} {d : ℕ}

/-! ## Calls that change pages only -/

/-- Only frames, page tables and the answers of `load_icode_read` have changed. -/
def PagesOnly (s t : LoadState A) : Prop :=
  t = { s with as := { s.as with pm := t.as.pm }, reads := t.reads }

lemma PagesOnly.trans {s t u : LoadState A} (h : PagesOnly s t) (h' : PagesOnly t u) :
    PagesOnly s u := by
  unfold PagesOnly at *
  rw [h', h]

lemma PagesOnly.mm {s t : LoadState A} (h : PagesOnly s t) : t.as.mm = s.as.mm := by
  rw [h]

section Calls

variable {s : LoadState A} {la : ℕ}

lemma onPm_post {α : Type} {m : Pt A α} {Q : α → PmState A → Prop} (h : Post m s.as.pm Q) :
    Post (onAs (onPm m)) s fun a t => PagesOnly s t ∧ Q a t.as.pm :=
  .zoom (.zoom h fun a u hu => (⟨rfl, hu⟩ : _ ∧ Q a u)) (R := fun a u =>
    u = { s.as with pm := u.pm } ∧ Q a u.pm) fun a u hu => ⟨by rw [PagesOnly, hu.1], hu.2⟩

lemma onAs_postOk {α : Type} {m : MmComp A (Except Errno α)} {Q : α → MmState A → Prop}
    (h : PostOk m s.as Q) : PostOk (onAs m) s fun a t => Q a t.as := .zoom h fun _ _ hu => hu

/-- **`pgdir_alloc_page`** for a page that is not mapped. -/
lemma allocAt_post (h : Owns al D d s.as.pm) (hd : s.as.mm.pgdir = d) (hla : la < userTop)
    (hold : pteValid (s.as.pm.leaf d (la / pgSize)) = false) (perm : BitVec 10) :
    Post (allocAt al la perm) s fun o t => PagesOnly s t ∧ ∀ p, o = some p →
      Owns al D d t.as.pm ∧ t.as.pm.leaf d (la / pgSize) = pteCreate p (pteV ||| perm) ∧
      ptePpn (t.as.pm.leaf d (la / pgSize)) = p ∧
      (∀ v < userPages, v ≠ la / pgSize → t.as.pm.leaf d v = s.as.pm.leaf d v) ∧
      ∀ v < userPages, v ≠ la / pgSize → t.as.pm.page d v = s.as.pm.page d v := by
  refine .read_bind ?_
  rw [hd]
  exact onPm_post (h.allocPage (E := fun _ => True) hla hold perm).ok

/-- `load_icode_read` that succeeds. -/
lemma loadIcodeRead_post (offset : ℕ) :
    PostOk (loadIcodeRead offset) s fun _ t => offset < 2 ^ 63 ∧ PagesOnly s t ∧ t.as = s.as := by
  refine .ite (fun _ => .fail _) fun h => ?_
  intro a t e
  rw [read_bind_apply, modify_bind_apply] at e
  cases hr : s.reads.headD none with
  | none =>
    rw [hr] at e
    cases e
    exact ⟨by omega, rfl, rfl⟩
  | some c =>
    rw [hr] at e
    cases e

end Calls

/-! ## Pages that have been filled -/

section Fill

variable {perm : BitVec 10} {content : ℕ → UInt8} {s t : PmState A} {lo cur start stop stop' la : ℕ}

/-- **The pages from `lo` to `cur` have been mapped**, and their bytes from `start` to `stop` are
those of `content`. Nothing else has changed since the state `s`. -/
structure SegFilled (d : ℕ) (perm : BitVec 10) (content : ℕ → UInt8) (s t : PmState A)
    (lo cur start stop : ℕ) : Prop where
  mapped : ∀ a < userTop, lo ≤ a / pgSize → a / pgSize < cur →
    ∃ b, t.byte d a = some (perm, b) ∧ (start ≤ a → a < stop → b = content a)
  rest : ∀ a < userTop, ¬(lo ≤ a / pgSize ∧ a / pgSize < cur) → t.byte d a = s.byte d a

lemma SegFilled.nil (s : PmState A) : SegFilled d perm content s s lo lo start stop :=
  ⟨fun a _ h1 h2 => by omega, fun _ _ _ => rfl⟩

lemma SegFilled.mono (h : SegFilled d perm content s t lo cur start stop)
    (hs : ∀ a, lo ≤ a / pgSize → a / pgSize < cur → start ≤ a → a < stop' → a < stop) :
    SegFilled d perm content s t lo cur start stop' := by
  refine ⟨fun a ha h1 h2 => ?_, h.rest⟩
  obtain ⟨b, hb, hc⟩ := h.mapped a ha h1 h2
  exact ⟨b, hb, fun h3 h4 => hc h3 (hs a h1 h2 h3 h4)⟩

lemma SegFilled.next_invalid (h : SegFilled d perm content s t lo cur start stop)
    (hla : la < userTop) (hcur : la / pgSize = cur) (hold : pteValid (s.leaf d cur) = false) :
    pteValid (t.leaf d (la / pgSize)) = false := by
  rw [← byte_eq_none, h.rest la hla (by omega), byte_eq_none, hcur]
  exact hold

lemma byte_of_page {words : Bytes} (hp : t.page d (la / pgSize) = some (perm, words.toWords)) :
    t.byte d la = some (perm, words (la % pgSize)) := by
  rw [PmState.byte, hp, Option.map_some, Bytes.ofWords_toWords]

end Fill

/-! ## The loops over the pages of a segment -/

section Segment

/-- The byte of a segment at an address. -/
def ProgHdr.byte (file : Bytes) (ph : ProgHdr) (a : ℕ) : UInt8 :=
  if a < ph.pVa + ph.pFilesz then file (ph.pOffset + (a - ph.pVa)) else 0

/-- **The segment lies in the user's address space.** -/
structure ProgHdr.Fits (ph : ProgHdr) : Prop where
  size : ph.pFilesz ≤ ph.pMemsz
  top : ph.pVa + ph.pMemsz ≤ userTop

/-- The page behind the file part. -/
def ProgHdr.filePage (ph : ProgHdr) : ℕ :=
  if ph.pFilesz = 0 then ph.pVa / pgSize else (ph.pVa + ph.pFilesz + pgSize - 1) / pgSize

/-- **The page behind the last one that is mapped for a segment.** Where the file part is empty, it
is counted from the start of the segment and not from the start of its first page. -/
def ProgHdr.lastPage (ph : ProgHdr) : ℕ :=
  if ph.pFilesz = 0 then ph.pVa / pgSize + (ph.pMemsz + pgSize - 1) / pgSize
  else (ph.pVa + ph.pMemsz + pgSize - 1) / pgSize

lemma perm_valid (ph : ProgHdr) : pteV ||| (pteV ||| ph.perm) = ph.perm := by
  unfold ProgHdr.perm
  cases ph.has 1 <;> cases ph.has 2 <;> cases ph.has 4 <;> decide

/-- **What has been done for a segment so far**, since the state `s₁`: its pages below `cur` have
been mapped, and its bytes below `stop` are there. -/
structure SegLoaded (al : FrameAllocator A) (D : Finset ℕ) (d : ℕ) (file : Bytes) (ph : ProgHdr)
    (s₁ s : LoadState A) (cur stop : ℕ) : Prop where
  own : Owns al D d s.as.pm
  only : PagesOnly s₁ s
  fill : SegFilled d ph.perm (ph.byte file) s₁.as.pm s.as.pm (ph.pVa / pgSize) cur ph.pVa stop

variable {s₁ s : LoadState A} {start la stop stop' cur p : ℕ} {Q : Unit → LoadState A → Prop}

/-- **Bytes are written to the frame of a page** that is mapped already. -/
lemma SegLoaded.write (h : SegLoaded al D d file ph s₁ s cur stop) {m : Load A (Except Errno Unit)}
    (hp : ptePpn (s.as.pm.leaf d (la / pgSize)) = p) (hla : la < userTop)
    (hlo : ph.pVa / pgSize ≤ la / pgSize) (hcur : la / pgSize < cur) {off o len : ℕ} {src : Bytes}
    (hnew : ∀ a, a / pgSize = la / pgSize → ph.pVa ≤ a → a < stop' →
      (off ≤ a % pgSize → a % pgSize < off + len → src (o + (a % pgSize - off)) = ph.byte file a) ∧
        (¬(off ≤ a % pgSize ∧ a % pgSize < off + len) → a < stop))
    (hold : ∀ a, a / pgSize < cur → a / pgSize ≠ la / pgSize → a < stop' → a < stop)
    (hm : ∀ t, SegLoaded al D d file ph s₁ t cur stop' → PostOk m t Q) :
    PostOk (do
      writeFrame p off src o len
      m) s Q := by
  subst hp
  obtain ⟨-, -, -, -, hv⟩ := user_indices hla
  have hvalid : pteValid (s.as.pm.leaf d (la / pgSize)) = true := by
    obtain ⟨b, hb, -⟩ := h.fill.mapped la hla hlo hcur
    by_contra hc
    rw [byte_eq_none.mpr (Bool.eq_false_of_not_eq_true hc)] at hb
    cases hb
  obtain ⟨h1, -, h3, h4⟩ := h.own.writeFrame hv hvalid off src o len
  refine .bind_ok rfl (hm _ ⟨h1, h.only.trans rfl, fun a ha hl hc => ?_, fun a ha hout => ?_⟩)
  · obtain ⟨b, hb, hbc⟩ := h.fill.mapped a ha hl hc
    by_cases hpage : a / pgSize = la / pgSize
    · have hflags : pteFlags (s.as.pm.leaf d (la / pgSize)) = ph.perm := by
        rw [PmState.byte, hpage, page_of_valid hvalid] at hb
        exact congrArg Prod.fst (Option.some.inj hb)
      have hbyte : Bytes.ofWords (s.as.pm.mem (ptePpn (s.as.pm.leaf d (la / pgSize))))
          (a % pgSize) = b := by
        rw [PmState.byte, hpage, page_of_valid hvalid] at hb
        exact congrArg Prod.snd (Option.some.inj hb)
      rw [hflags] at h4
      refine ⟨_, byte_of_page ((congrArg (PmState.page _ d) hpage).trans h4), fun h5 h6 => ?_⟩
      obtain ⟨h7, h8⟩ := hnew a hpage h5 h6
      by_cases hin : off ≤ a % pgSize ∧ a % pgSize < off + len
      · rw [Bytes.copy_of_mem _ _ hin.1 hin.2]
        exact h7 hin.1 hin.2
      · rw [Bytes.copy_of_notMem _ _ (by omega), hbyte]
        exact hbc h5 (h8 hin)
    · obtain ⟨-, -, -, -, hva⟩ := user_indices ha
      refine ⟨b, ?_, fun h5 h6 => hbc h5 (hold a hc hpage h6)⟩
      rw [← hb]
      exact byte_congr (h3 _ hva hpage)
  · obtain ⟨-, -, -, -, hva⟩ := user_indices ha
    rw [← h.fill.rest a ha hout]
    exact byte_congr (h3 _ hva fun e => hout (by omega))

lemma addAddr_eq {a b : ℕ} (h : a + b < 2 ^ 64) : addAddr a b = a + b := Nat.mod_eq_of_lt h

lemma subAddr_eq {a b : ℕ} (h : b ≤ a) (ha : a < 2 ^ 64) : subAddr a b = a - b := by
  unfold subAddr
  omega

lemma addAddr_page (h : la < userTop) : addAddr la pgSize = la + pgSize := by
  unfold userTop at h
  exact addAddr_eq (by unfold pgSize; omega)

lemma page_lt_next : la / pgSize < (la + pgSize) / pgSize := by
  rw [Nat.add_div_right _ (by decide)]
  omega

lemma fileSize_eq (h1 : la ≤ start) (h2 : start < la + pgSize) (h3 : start < stop)
    (h4 : stop ≤ userTop) : fileSize start la stop = min stop (la + pgSize) - start := by
  unfold fileSize addAddr subAddr
  unfold userTop at h4
  unfold pgSize at *
  split_ifs <;> omega

lemma zeroSize_eq (h1 : la < stop) (h4 : stop ≤ userTop) :
    zeroSize la stop = min stop (la + pgSize) - la := by
  unfold zeroSize addAddr subAddr
  unfold userTop at h4
  unfold pgSize at *
  split_ifs <;> omega

section Loops

variable (hfit : ph.Fits) (hd : s₁.as.mm.pgdir = d) (hold : ∀ v, ph.pVa / pgSize ≤ v →
  v * pgSize < ph.pVa + ph.pMemsz → pteValid (s₁.as.pm.leaf d v) = false)
include hfit hd hold

/-- **A new page** of the segment is mapped. -/
lemma SegLoaded.newPage (h : SegLoaded al D d file ph s₁ s (la / pgSize) stop)
    {k : ℕ → Load A (Except Errno Unit)} (hla : la < ph.pVa + ph.pMemsz) (hal : la % pgSize = 0)
    (hlo : ph.pVa / pgSize ≤ la / pgSize)
    (hstop : ∀ a, a / pgSize = la / pgSize → ph.pVa ≤ a → ¬a < stop)
    (hk : ∀ p t, ptePpn (t.as.pm.leaf d (la / pgSize)) = p →
      SegLoaded al D d file ph s₁ t ((la + pgSize) / pgSize) stop → PostOk (k p) t Q) :
    PostOk (do
      let page ← allocAt al la ph.perm
      match page with
      | none => pure (.error .noMem)
      | some p => k p) s Q := by
  have hlt := hla.trans_le hfit.top
  have hnone := hold _ hlo (by rwa [Nat.div_mul_cancel (Nat.dvd_of_mod_eq_zero hal)])
  refine .bind (allocAt_post h.own (h.only.mm ▸ hd) hlt (h.fill.next_invalid hlt rfl hnone) ph.perm)
    fun o t ht => ?_
  cases o with
  | none => exact .fail _
  | some p =>
    obtain ⟨g1, g2, g3, -, g5⟩ := ht.2 p rfl
    refine hk p t g3 ⟨g1, h.only.trans ht.1, ?_⟩
    rw [Nat.add_div_right _ (by decide)]
    have hvalid : pteValid (t.as.pm.leaf d (la / pgSize)) = true := by rw [g2, pteValid_create]
    refine ⟨fun a ha hl hc => ?_, fun a ha hout => ?_⟩
    · by_cases hpage : a / pgSize = la / pgSize
      · rw [PmState.byte, hpage, page_of_valid hvalid, g2, pteFlags_create, perm_valid ph]
        exact ⟨_, rfl, fun h1 h2 => absurd h2 (hstop a hpage h1)⟩
      · obtain ⟨-, -, -, -, hva⟩ := user_indices ha
        rw [byte_congr (g5 _ hva hpage)]
        exact h.fill.mapped a ha hl (by omega)
    · obtain ⟨-, -, -, -, hva⟩ := user_indices ha
      rw [byte_congr (g5 _ hva fun e => hout (by omega))]
      exact h.fill.rest a ha (by omega)

/-- **The loop for the file part.**

**Proof sketch.** Induction on the number of rounds. In the first round `start` is the start of the
segment and `la` that of its page, later both are equal, until `start` has reached the end. -/
lemma filePages_post (hoff : ph.pOffset < 2 ^ 64) (n : ℕ) : ∀ {s : LoadState A} {start la : ℕ},
      SegLoaded al D d file ph s₁ s (la / pgSize) start → la % pgSize = 0 →
      (start = ph.pVa ∧ la = roundDown ph.pVa pgSize ∨ start = min (ph.pVa + ph.pFilesz) la ∧
        ph.pVa < la ∧ la < ph.pVa + ph.pFilesz + pgSize ∧ ph.pOffset < 2 ^ 63 ∧ ph.pFilesz ≠ 0) →
      PostOk (filePages al file ph (ph.pVa + ph.pFilesz) n start la) s fun _ t =>
        SegLoaded al D d file ph s₁ t ph.filePage (ph.pVa + ph.pFilesz) := by
  obtain ⟨hsize, htop⟩ := id hfit
  induction n with
  | zero =>
    intro s start la _ _ _
    exact .halt _
  | succ n ih =>
    intro s start la h hal hcase
    refine .ite (fun hlt => ?_) fun hge => .pure { h with fill := ?_ }
    · -- one page more
      have hstart : la ≤ start ∧ start < la + pgSize ∧ ph.pVa ≤ start ∧
        ph.pVa / pgSize ≤ la / pgSize ∧
          (start = ph.pVa ∨ start = la) ∧ (la / pgSize = ph.pVa / pgSize ∨ start = la) := by
        unfold roundDown at hcase
        unfold pgSize at *
        omega
      obtain ⟨h1, h2, h3, h4, h5, h6⟩ := hstart
      have hla : la < userTop := by omega
      refine h.newPage hfit hd hold (by omega) hal h4 (fun a h7 h8 => ?_) fun p t hp ht => ?_
      · unfold pgSize at *
        omega
      refine .andThen (loadIcodeRead_post _) fun _ u hu => ?_
      obtain ⟨hoff', honly, hu⟩ := hu
      have hu64 : userTop < 2 ^ 64 := by decide
      have hsub : subAddr start ph.pVa = start - ph.pVa := subAddr_eq h3 (by omega)
      have hoffset : addAddr ph.pOffset (subAddr start ph.pVa) = ph.pOffset + (start - ph.pVa) ∧
          ph.pOffset < 2 ^ 63 := by
        rw [hsub] at hoff' ⊢
        unfold addAddr at hoff' ⊢
        unfold userTop at htop
        rcases hcase with hc | hc
        · rw [hc.1, Nat.sub_self, Nat.add_zero, Nat.mod_eq_of_lt hoff] at hoff' ⊢
          exact ⟨rfl, hoff'⟩
        · exact ⟨Nat.mod_eq_of_lt (by omega), hc.2.2.2.1⟩
      have hlen := fileSize_eq h1 h2 hlt (by omega)
      have hstart' : addAddr start (fileSize start la (ph.pVa + ph.pFilesz)) =
          min (ph.pVa + ph.pFilesz) (la + pgSize) := by
        rw [hlen, addAddr_eq (by omega)]
        omega
      have hidx : ∀ a, a / pgSize = la / pgSize → ph.pVa ≤ a → start - la ≤ a % pgSize ∧
          ph.pOffset + (start - ph.pVa) + (a % pgSize - (start - la)) = ph.pOffset + (a - ph.pVa) ∧
          (a < min (ph.pVa + ph.pFilesz) (la + pgSize) →
            a % pgSize < start - la + (min (ph.pVa + ph.pFilesz) (la + pgSize) - start)) := by
        intro a k1 k2
        unfold pgSize at *
        omega
      have hload : SegLoaded al D d file ph s₁ u ((la + pgSize) / pgSize) start :=
        ⟨by rw [hu]; exact ht.own, ht.only.trans honly, by rw [hu]; exact ht.fill⟩
      rw [hstart', hlen, hoffset.1, subAddr_eq h1 (by omega), addAddr_page hla]
      refine hload.write (by rw [hu]; exact hp) hla h4 page_lt_next
        (fun a k1 k2 k3 => ⟨fun _ _ => ?_, fun k4 => ?_⟩) (fun a k1 k2 k3 => ?_) fun w hw =>
          ih hw ?_ (.inr ⟨rfl, ?_, ?_, hoffset.2, by omega⟩)
      · rw [(hidx a k1 k2).2.1, ProgHdr.byte, if_pos (lt_of_lt_of_le k3 (min_le_left _ _))]
      · exact absurd ⟨(hidx a k1 k2).1, (hidx a k1 k2).2.2 k3⟩ k4
      · unfold pgSize at *
        omega
      · rw [Nat.add_mod_right, hal]
      · omega
      · omega
    · -- the end has been reached
      have hpage : la / pgSize = ph.filePage := by
        unfold ProgHdr.filePage roundDown at *
        unfold pgSize at *
        split_ifs <;> omega
      rw [← hpage]
      refine h.fill.mono fun a k1 k2 k3 k4 => ?_
      omega

/-- **The loop for the rest.**

**Proof sketch.** Induction on the number of rounds. The distance of `start` from `la` stays the
same until the end is in the page, so the loop ends too early if they differ and the end is near the
start of a page. -/
lemma zeroPages_post (n : ℕ) : ∀ {s : LoadState A} {start la : ℕ},
      SegLoaded al D d file ph s₁ s (la / pgSize) (min (ph.pVa + ph.pMemsz) la) → la % pgSize = 0 →
      ph.pVa / pgSize ≤ la / pgSize →
      (start < ph.pVa + ph.pMemsz → la ≤ start ∧ start < la + pgSize) →
      (ph.pVa + ph.pFilesz ≤ la ∨ ph.pFilesz = 0) →
      PostOk (zeroPages al ph.perm (ph.pVa + ph.pMemsz) n start la) s fun _ t =>
        SegLoaded al D d file ph s₁ t
        (la / pgSize + (ph.pVa + ph.pMemsz - start + pgSize - 1) / pgSize)
          (min (ph.pVa + ph.pMemsz)
            ((la / pgSize + (ph.pVa + ph.pMemsz - start + pgSize - 1) / pgSize) * pgSize)) := by
  obtain ⟨hsize, htop⟩ := id hfit
  induction n with
  | zero =>
    intro s start la _ _ _ _ _
    exact .halt _
  | succ n ih =>
    intro s start la h hal hlo hnear hz
    refine .ite (fun hlt => ?_) fun hge => .pure ?_
    · obtain ⟨h1, h2⟩ := hnear hlt
      have hla : la < userTop := by omega
      refine h.newPage hfit hd hold (by omega) hal hlo (fun a h7 h8 => ?_) fun p t hp ht => ?_
      · unfold pgSize at *
        omega
      have hlen := zeroSize_eq (by omega : la < ph.pVa + ph.pMemsz) htop
      have hin : ∀ a, a / pgSize = la / pgSize → a < min (ph.pVa + ph.pMemsz) (la + pgSize) →
          la ≤ a ∧ a % pgSize < 0 + (min (ph.pVa + ph.pMemsz) (la + pgSize) - la) := by
        intro a k1 k2
        unfold pgSize at *
        omega
      have hstart' : addAddr start (min (ph.pVa + ph.pMemsz) (la + pgSize) - la) =
          start + (min (ph.pVa + ph.pMemsz) (la + pgSize) - la) := by
        refine addAddr_eq ?_
        unfold userTop at htop
        omega
      have hcount : (la + pgSize) / pgSize + (ph.pVa + ph.pMemsz -
          (start + (min (ph.pVa + ph.pMemsz) (la + pgSize) - la)) + pgSize - 1) / pgSize =
          la / pgSize + (ph.pVa + ph.pMemsz - start + pgSize - 1) / pgSize := by
        unfold pgSize at *
        omega
      rw [hlen, hstart', addAddr_page hla, ← hcount]
      refine ht.write hp hla hlo page_lt_next (fun a k1 k2 k3 => ⟨fun _ _ => ?_, fun k4 => ?_⟩)
        (fun a k1 k2 k3 => ?_) fun w hw => ih hw ?_ ?_ (fun hlt' => ?_) ?_
      · have := (hin a k1 k3).1
        rw [ProgHdr.byte, if_neg (by omega)]
        rfl
      · exact absurd ⟨Nat.zero_le _, (hin a k1 k3).2⟩ k4
      · unfold pgSize at *
        omega
      · rw [Nat.add_mod_right, hal]
      · exact hlo.trans (Nat.div_le_div_right (Nat.le_add_right _ _))
      · omega
      · exact hz.imp_left fun h => h.trans (Nat.le_add_right _ _)
    · have hzero : (ph.pVa + ph.pMemsz - start + pgSize - 1) / pgSize = 0 := by
        have hdone : ph.pVa + ph.pMemsz - start = 0 := by omega
        rw [hdone]
        rfl
      rw [hzero, add_zero, Nat.div_mul_cancel (Nat.dvd_of_mod_eq_zero hal)]
      exact h

/-- **The part of a segment that is not in the file.** -/
lemma zeroPart_post (h : SegLoaded al D d file ph s₁ s ph.filePage (ph.pVa + ph.pFilesz)) :
    PostOk (zeroPart al ph) s fun _ t => SegLoaded al D d file ph s₁ t ph.lastPage
      (min (ph.pVa + ph.pMemsz) (ph.lastPage * pgSize)) := by
  obtain ⟨hsize, htop⟩ := id hfit
  have h64 : userTop < 2 ^ 64 := by decide
  have e1 : addAddr ph.pVa ph.pFilesz = ph.pVa + ph.pFilesz := addAddr_eq (by omega)
  have e2 : addAddr ph.pVa ph.pMemsz = ph.pVa + ph.pMemsz := addAddr_eq (by omega)
  unfold zeroPart
  rw [e1, e2]
  refine .ite (fun hlt => ?_) fun hge => .pure ?_
  · set la := roundDown (ph.pVa + ph.pFilesz) pgSize with hla
    have hround : la % pgSize = 0 ∧ la ≤ ph.pVa + ph.pFilesz ∧ ph.pVa + ph.pFilesz < la + pgSize ∧
        ph.pVa / pgSize ≤ la / pgSize := by
      rw [hla]
      unfold roundDown pgSize
      omega
    obtain ⟨hal, h1, h2, h3⟩ := hround
    have hlt' : la < userTop := by omega
    have hnone := hold _ h3 (by rw [Nat.div_mul_cancel (Nat.dvd_of_mod_eq_zero hal)]; omega)
    -- the first page is mapped iff the file part reaches into it
    have hmapped : pteValid (s.as.pm.leaf d (la / pgSize)) = true ↔ la / pgSize < ph.filePage := by
      constructor
      · intro hvalid
        by_contra hc
        have hb := h.fill.rest la hlt' (by omega)
        rw [byte_eq_none.mpr hnone, byte_eq_none, hvalid] at hb
        cases hb
      · intro hc
        obtain ⟨b, hb, -⟩ := h.fill.mapped la hlt' h3 hc
        by_contra hvalid
        rw [byte_eq_none.mpr (Bool.eq_false_of_not_eq_true hvalid)] at hb
        cases hb
    obtain ⟨R, hinv⟩ := h.own.inv
    refine .read_bind ?_
    rw [h.only.mm, hd]
    refine .bind_ok (onAs_of_ok (onPm_of_ok (getPage_apply hinv.toForest h.own.dir hlt'))) ?_
    by_cases hc : la / pgSize < ph.filePage
    · have hfile : ph.filePage = (la + pgSize) / pgSize ∧ ph.pFilesz ≠ 0 := by
        unfold ProgHdr.filePage at hc ⊢
        unfold pgSize at *
        split_ifs at hc ⊢ <;> omega
      have hlast : (la + pgSize) / pgSize +
          (ph.pVa + ph.pMemsz - (la + pgSize) + pgSize - 1) / pgSize = ph.lastPage := by
        unfold ProgHdr.lastPage
        rw [if_neg hfile.2]
        unfold pgSize at *
        omega
      have hin : ∀ a, a / pgSize = la / pgSize → a < min (ph.pVa + ph.pMemsz) (la + pgSize) →
          (ph.pVa + ph.pFilesz - la ≤ a % pgSize → ph.pVa + ph.pFilesz ≤ a) ∧
          (¬(ph.pVa + ph.pFilesz - la ≤ a % pgSize ∧ a % pgSize < ph.pVa + ph.pFilesz - la +
            (min (ph.pVa + ph.pMemsz) (la + pgSize) - (ph.pVa + ph.pFilesz))) →
            a < ph.pVa + ph.pFilesz) := by
        intro a k1 k2
        unfold pgSize at *
        omega
      rw [if_pos (hmapped.mpr hc), addAddr_page hlt', ← hlast]
      simp only [fileSize_eq h1 h2 hlt htop, subAddr_eq h1 (by omega)]
      refine h.write rfl hlt' h3 hc (fun a k1 k2 k3 => ⟨fun k4 _ => ?_, (hin a k1 k3).2⟩)
        (fun a k1 k2 k3 => ?_) fun w hw => zeroPages_post hfit hd hold _ (hfile.1 ▸ hw) ?_
        ?_ ?_ (.inl h2.le)
      · rw [ProgHdr.byte, if_neg (not_lt.mpr ((hin a k1 k3).1 k4))]
        rfl
      · unfold pgSize at *
        omega
      · rw [Nat.add_mod_right, hal]
      · exact h3.trans (Nat.div_le_div_right (Nat.le_add_right _ _))
      · exact fun _ => ⟨le_rfl, by unfold pgSize; omega⟩
    · have hfile : ph.filePage = la / pgSize ∧ (ph.pVa + ph.pFilesz ≤ la ∨ ph.pFilesz = 0) := by
        unfold ProgHdr.filePage at hc ⊢
        unfold pgSize at *
        split_ifs at hc ⊢ <;> omega
      have hlast : la / pgSize +
          (ph.pVa + ph.pMemsz - (ph.pVa + ph.pFilesz) + pgSize - 1) / pgSize = ph.lastPage := by
        unfold ProgHdr.lastPage
        unfold pgSize at *
        split_ifs <;> omega
      rw [if_neg fun hvalid => hc (hmapped.mp hvalid), ← hlast]
      rw [hfile.1] at h
      exact zeroPages_post hfit hd hold _
        { h with fill := h.fill.mono fun a k1 k2 k3 k4 => by omega } hal h3 (fun _ => ⟨h1, h2⟩)
        hfile.2
  · have hpage : ph.filePage = ph.lastPage := by
      unfold ProgHdr.filePage ProgHdr.lastPage
      unfold pgSize
      split_ifs <;> omega
    rw [hpage] at h
    exact { h with fill := h.fill.mono fun a k1 k2 k3 k4 => by omega }

end Loops

end Segment

/-! ## The loop over the program headers -/

section Segments

variable {addr len : ℕ} {flags : BitVec 32}

lemma mapEnd_eq (hu : UserAccess (mapStart addr) (mapEnd addr len)) (hlt : addr + len < 2 ^ 64) :
    addr + len ≤ userTop ∧ mapStart addr = addr / pgSize * pgSize ∧
      mapEnd addr len = (addr + len + pgSize - 1) / pgSize * pgSize := by
  unfold UserAccess mapStart mapEnd roundUp roundDown addAddr userTop pgSize at *
  omega

/-- **`mm_map`** that succeeds. -/
lemma mmMapVma_post {s : MmState A} (h : Areas s.mm) :
    PostOk (mmMapVma addr len flags) s fun _ t => UserAccess (mapStart addr) (mapEnd addr len) ∧
      s.mm.FreeRange (mapStart addr) (mapEnd addr len) ∧ Areas t.mm ∧
      (∀ v, v ∈ t.mm.mmapList ↔ v = ⟨mapStart addr, mapEnd addr len, flags⟩ ∨ v ∈ s.mm.mmapList) ∧
      t.mm.pgdir = s.mm.pgdir ∧ t.mm.mmCount = s.mm.mmCount ∧ t.pm = s.pm := by
  refine .ite (fun _ => .fail _) fun hu => ?_
  rw [not_not] at hu
  obtain ⟨mm', e, hv⟩ := findVma_apply h (mapStart addr)
  refine .bind_ok (onMm_of_ok e) (.ite (fun _ => .fail _) fun hany => ?_)
  -- an area at the start would reach into the range
  have hno : ∀ v ∈ mm'.mmapList, ¬v.Has (mapStart addr) := by
    intro v hm hhas
    rw [hv.list] at hm
    refine hany ?_
    rw [h.area_eq_some.mpr ⟨hm, hhas⟩, Option.any_some, decide_eq_true_iff]
    exact hhas.1.trans_lt hu.2.1
  refine .bind (R := fun _ t => t.mm = mm' ∧ t.pm = s.pm) ?_ fun granted t ht => ?_
  · intro a t e'
    cases e'
    exact ⟨rfl, rfl⟩
  obtain ⟨hmm, hpm⟩ := ht
  refine .ite (fun _ => ?_) fun _ => .fail _
  have hins := @insertVmaStruct_apply mm' ⟨mapStart addr, mapEnd addr len, flags⟩
    hv.areas hu.2.1 hno
  rw [← hmm] at hins
  by_cases hfree : mm'.FreeRange (mapStart addr) (mapEnd addr len)
  · rw [if_pos (by rw [hmm]; exact hfree)] at hins
    refine .bind_ok (onMm_of_ok hins) (.pure ⟨hu, ?_, ?_, fun v => ?_, ?_, ?_, hpm⟩)
    · unfold MmStruct.FreeRange at hfree ⊢
      rwa [hv.list] at hfree
    · rw [hmm]
      exact hv.areas.addArea hu.2.1 hfree
    · rw [mem_addArea, hmm, hv.list]
    · change t.mm.pgdir = _
      rw [hmm, hv.pgdir]
    · change t.mm.mmCount = _
      rw [hmm, hv.sharers]
  · rw [if_neg (by rw [hmm]; exact hfree)] at hins
    refine .bind (R := fun _ _ => False) ?_ fun _ _ hf => absurd hf id
    intro a u e'
    rw [onMm, zoom_of_error hins] at e'
    cases e'

/-- **What a segment leaves in memory.** -/
structure SegImage (file : Bytes) (ph : ProgHdr) (d : ℕ) (s : PmState A) : Prop where
  mapped : ∀ a, ph.pVa ≤ a → a < ph.pVa + ph.pMemsz → a / pgSize < ph.lastPage →
    s.byte d a = some (ph.perm, ph.byte file a)
  unmapped : ∀ a, ph.pVa ≤ a → a < ph.pVa + ph.pMemsz → ph.lastPage ≤ a / pgSize → s.byte d a = none

lemma SegImage.congr {s t : PmState A} (h : SegImage file ph d s)
    (hb : ∀ a, ph.pVa ≤ a → a < ph.pVa + ph.pMemsz → t.byte d a = s.byte d a) :
    SegImage file ph d t :=
  ⟨fun a h1 h2 h3 => by rw [hb a h1 h2, h.mapped a h1 h2 h3],
    fun a h1 h2 h3 => by rw [hb a h1 h2, h.unmapped a h1 h2 h3]⟩

lemma lastPage_le (ph : ProgHdr) : ph.lastPage ≤ (ph.pVa + ph.pMemsz + pgSize - 1) / pgSize := by
  unfold ProgHdr.lastPage
  unfold pgSize
  split_ifs <;> omega

/-- **What the segments so far have left in memory.** Every page that is mapped lies in an area. -/
structure Image (al : FrameAllocator A) (D : Finset ℕ) (d : ℕ) (file : Bytes) (done : List ProgHdr)
    (s : MmState A) : Prop where
  own : Owns al D d s.pm
  pgdir : s.mm.pgdir = d
  areas : Areas s.mm
  covered : ∀ v < userPages, pteValid (s.pm.leaf d v) = true → s.mm.Covers v
  segs : ∀ ph ∈ done, ph.pType = elfPtLoad → ph.Fits ∧ SegImage file ph d s.pm ∧
    ∃ vma ∈ s.mm.mmapList, vma.vmStart ≤ ph.pVa ∧ ph.pVa + ph.pMemsz ≤ vma.vmEnd

variable {done : List ProgHdr} {lo hi : ℕ}

/-- **A new area** has no page that is mapped. -/
lemma Image.free_invalid {s : MmState A} (h : Image al D d file done s) {start stop v : ℕ}
    (hfree : s.mm.FreeRange start stop) (hv : v < userPages) (h1 : start ≤ v * pgSize)
    (h2 : v * pgSize < stop) : pteValid (s.pm.leaf d v) = false := by
  by_contra hc
  obtain ⟨vma, hm, hhas⟩ := h.covered v hv (by simpa using hc)
  have h3 := hfree vma hm
  obtain ⟨h4, h5⟩ := hhas
  omega

/-- **Pages of a new area have been mapped**, and nothing else has changed. -/
lemma Image.extend {s t : MmState A} (h : Image al D d file done s) {vma : VmaStruct}
    (hfree : s.mm.FreeRange vma.vmStart vma.vmEnd) (hareas : Areas t.mm)
    (hmem : ∀ v, v ∈ t.mm.mmapList ↔ v = vma ∨ v ∈ s.mm.mmapList) (hpgdir : t.mm.pgdir = s.mm.pgdir)
    (hown : Owns al D d t.pm) (hlo : vma.vmStart ≤ lo * pgSize)
    (hhi : hi * pgSize ≤ vma.vmEnd)
    (hrest : ∀ a < userTop, ¬(lo ≤ a / pgSize ∧ a / pgSize < hi) → t.pm.byte d a = s.pm.byte d a) :
    Image al D d file done t := by
  have hpos : 0 < pgSize := by decide
  refine ⟨hown, hpgdir.trans h.pgdir, hareas, fun v hv hvalid => ?_, fun ph hph ht => ?_⟩
  · by_cases hin : lo ≤ v ∧ v < hi
    · refine ⟨vma, (hmem vma).mpr (.inl rfl), hlo.trans (Nat.mul_le_mul_right _ hin.1), ?_⟩
      exact lt_of_lt_of_le ((Nat.mul_lt_mul_right hpos).mpr hin.2) hhi
    · have hdiv : v * pgSize / pgSize = v := Nat.mul_div_cancel _ hpos
      have hb := hrest (v * pgSize) (by unfold userPages at hv; unfold userTop pgSize; omega)
        (by rwa [hdiv])
      have hold : pteValid (s.pm.leaf d v) = true := by
        by_contra hc
        have hnone : s.pm.byte d (v * pgSize) = none :=
          byte_eq_none.mpr (by rw [hdiv]; simpa using hc)
        rw [hnone, byte_eq_none, hdiv, hvalid] at hb
        cases hb
      obtain ⟨w, hw, hhas⟩ := h.covered v hv hold
      exact ⟨w, (hmem w).mpr (.inr hw), hhas⟩
  · obtain ⟨hfit, himg, w, hw, h1, h2⟩ := h.segs ph hph ht
    refine ⟨hfit, himg.congr fun a h3 h4 => hrest a ?_ fun hin => ?_, w,
      (hmem w).mpr (.inr hw), h1, h2⟩
    · have := hfit.top
      omega
    · have h5 := hfree w hw
      have h6 : a / pgSize * pgSize ≤ a := Nat.div_mul_le_self a pgSize
      have h7 : lo * pgSize ≤ a / pgSize * pgSize := Nat.mul_le_mul_right _ hin.1
      have h8 : (a / pgSize + 1) * pgSize ≤ hi * pgSize := Nat.mul_le_mul_right _ hin.2
      have h9 : a < (a / pgSize + 1) * pgSize := by
        unfold pgSize
        omega
      omega

/-- **One segment.** -/
lemma loadSegment_post {s : LoadState A} (h : Image al D d file done s.as)
    (hwrap : ph.pType = elfPtLoad → ph.pVa + ph.pMemsz < 2 ^ 64) (hoff : ph.pOffset < 2 ^ 64) :
    PostOk (loadSegment al file ph) s fun _ t => Image al D d file (done ++ [ph]) t.as := by
  refine .ite (fun hne => .pure ?_) fun htype => ?_
  · refine { h with segs := fun q hq ht => ?_ }
    rcases mem_append.mp hq with hq | hq
    · exact h.segs q hq ht
    · rw [mem_singleton.mp hq] at ht
      exact absurd ht hne
  refine .ite (fun _ => .fail _) fun hsize => ?_
  rw [not_not] at htype
  refine .andThen (onAs_postOk (mmMapVma_post h.areas)) fun _ t ht => ?_
  obtain ⟨hu, hfree, hareas, hmem, hpgdir, -, hpm⟩ := ht
  obtain ⟨htop, hstart, hstop⟩ := mapEnd_eq hu (hwrap htype)
  have hfit : ph.Fits := ⟨by omega, htop⟩
  have hd : t.as.mm.pgdir = d := hpgdir.trans h.pgdir
  have hown : Owns al D d t.as.pm := by rw [hpm]; exact h.own
  have hold : ∀ v, ph.pVa / pgSize ≤ v → v * pgSize < ph.pVa + ph.pMemsz →
      pteValid (t.as.pm.leaf d v) = false := by
    intro v h1 h2
    rw [hpm]
    refine h.free_invalid hfree ?_ ?_ ?_
    · unfold userPages
      unfold userTop pgSize at *
      omega
    · rw [hstart]
      exact Nat.mul_le_mul_right _ h1
    · rw [hstop]
      unfold pgSize at *
      omega
  have e1 : addAddr ph.pVa ph.pFilesz = ph.pVa + ph.pFilesz := addAddr_eq (by omega)
  simp only [e1]
  have hround : roundDown ph.pVa pgSize % pgSize = 0 ∧
      roundDown ph.pVa pgSize / pgSize = ph.pVa / pgSize := by
    unfold roundDown pgSize
    omega
  refine .andThen (filePages_post hfit hd hold hoff _ ⟨hown,
    rfl, by rw [hround.2]; exact SegFilled.nil _⟩ hround.1 (.inl ⟨rfl, rfl⟩)) fun _ u hu' => ?_
  refine (zeroPart_post hfit hd hold hu').mono fun _ w hw => ?_
  obtain ⟨hown', honly, hfill⟩ := hw
  have hmm : w.as.mm = t.as.mm := honly.mm
  have hext := @Image.extend _ _ _ _ _ _ (ph.pVa / pgSize) ph.lastPage s.as w.as h
    ⟨mapStart ph.pVa, mapEnd ph.pVa ph.pMemsz, ph.vmFlags⟩ hfree (by rw [hmm]; exact hareas)
    (by rw [hmm]; exact hmem) (by rw [hmm]; exact hpgdir) hown' hstart.le
    (by
      rw [hstop]
      exact Nat.mul_le_mul_right _ (lastPage_le ph))
    fun a ha hout => by rw [hfill.rest a ha hout, hpm]
  refine { hext with segs := fun q hq ht => ?_ }
  rcases mem_append.mp hq with hq | hq
  · exact hext.segs q hq ht
  · obtain rfl := mem_singleton.mp hq
    refine ⟨hfit, ⟨fun a h1 h2 h3 => ?_, fun a h1 h2 h3 => ?_⟩,
      ⟨mapStart q.pVa, mapEnd q.pVa q.pMemsz, q.vmFlags⟩, ?_, hstart.le.trans ?_, ?_⟩
    · obtain ⟨b, hb, hc⟩ := hfill.mapped a (by omega) (Nat.div_le_div_right h1) h3
      have hlt : a < q.lastPage * pgSize := by
        unfold pgSize at *
        omega
      rw [hb, hc h1 (lt_min h2 hlt)]
    · rw [hfill.rest a (by omega) (by omega), byte_eq_none]
      refine hold _ (Nat.div_le_div_right h1) ?_
      exact (Nat.div_mul_le_self a pgSize).trans_lt h2
    · rw [hmm]
      exact (hmem _).mpr (.inl rfl)
    · exact Nat.div_mul_le_self _ _
    · change _ ≤ mapEnd q.pVa q.pMemsz
      rw [hstop]
      unfold pgSize
      omega

/-- **All segments.** -/
lemma loadSegments_post (phs : List ProgHdr) :
    ∀ {done : List ProgHdr} {s : LoadState A}, Image al D d file done s.as →
      (∀ ph ∈ phs, ph.pType = elfPtLoad → ph.pVa + ph.pMemsz < 2 ^ 64) →
      (∀ ph ∈ phs, ph.pOffset < 2 ^ 64) → PostOk (loadSegments al file phs) s
      fun _ t => Image al D d file (done ++ phs) t.as := by
  induction phs with
  | nil =>
    intro done s h _ _
    refine .pure ?_
    rwa [append_nil]
  | cons ph rest ih =>
    intro done s h hwrap hoff
    refine .andThen (loadSegment_post h (hwrap ph mem_cons_self) (hoff ph mem_cons_self))
      fun _ t ht => ?_
    have hrest := ih ht (fun q hq => hwrap q (mem_cons_of_mem _ hq))
      fun q hq => hoff q (mem_cons_of_mem _ hq)
    rwa [append_assoc, singleton_append] at hrest

end Segments

end Ucore

import Ucore.Process.LoadImage

set_option autoImplicit false

/-!
# The stack of a program

The four pages of the stack that `load_icode` maps, and the arguments that it puts there. The check
of `copy_to_user` is about the area, which is larger.

## Main definitions

* `StackReady` — an address space with a stack area of which four pages are mapped.
* `Stored` — bytes have been stored, and nothing else has changed.
* `strSize`, `argPtrs` — the size of the strings and where they go.
* `StringsAt` — the strings are there.

## Main results

* `setupStack_post` — the stack area.
* `copyToUser_ready`, `pushStrings_ready`, `pushArgs_ready` — the arguments are stored if
  they fit into the four pages; otherwise a store does not complete.
-/

namespace Ucore

open Function Comp List PmState

variable {A : Type} {al : FrameAllocator A} {file : Bytes} {D : Finset ℕ} {d : ℕ}

/-! ## The stack area -/

/-- The stack area. -/
def stackArea : VmaStruct := ⟨ustackTop - ustackSize, ustackTop, vmRead ||| vmWrite ||| vmStack⟩

/-- The lowest address of the stack that is mapped. -/
def stackLow : ℕ := ustackTop - 4 * pgSize

/-- **An address space with a stack area of which four pages are mapped.** -/
structure StackReady (al : FrameAllocator A) (D : Finset ℕ) (d : ℕ) (s : MmState A) : Prop where
  own : Owns al D d s.pm
  pgdir : s.mm.pgdir = d
  areas : Areas s.mm
  area : stackArea ∈ s.mm.mmapList
  mapped : ∀ a, stackLow ≤ a → a < ustackTop → ∃ b, s.pm.byte d a = some (pteUser, b)
  rest : ∀ a, ustackTop - ustackSize ≤ a → a < stackLow → s.pm.byte d a = none

section Setup

variable {s₀ : PmState A} {done : List ProgHdr}

/-- The topmost `k` pages have been mapped. -/
structure TopPages (d : ℕ) (s t : PmState A) (k : ℕ) : Prop where
  mapped : ∀ a < userTop, userPages ≤ a / pgSize + k → ∃ b, t.byte d a = some (pteUser, b)
  rest : ∀ a < userTop, a / pgSize + k < userPages → t.byte d a = s.byte d a

lemma TopPages.zero (s : PmState A) : TopPages d s s 0 := by
  refine ⟨fun a ha hin => ?_, fun _ _ _ => rfl⟩
  obtain ⟨-, -, -, -, hva⟩ := user_indices ha
  omega

variable {k : ℕ} {s : LoadState A}

lemma stackPage_addr (hk : k < userPages) : ustackTop - (k + 1) * pgSize < userTop ∧
    (ustackTop - (k + 1) * pgSize) / pgSize = userPages - (k + 1) := by
  unfold userPages at *
  unfold ustackTop userTop pgSize
  omega

lemma TopPages.invalid {t : PmState A} (h : TopPages d s₀ t k) (hk : k < userPages)
    (hold : pteValid (s₀.leaf d (userPages - (k + 1))) = false) :
    pteValid (t.leaf d ((ustackTop - (k + 1) * pgSize) / pgSize)) = false := by
  obtain ⟨hlt, hpage⟩ := stackPage_addr hk
  rw [← byte_eq_none, h.rest _ hlt (by rw [hpage]; omega), byte_eq_none, hpage]
  exact hold

/-- **One more page of the stack.** -/
lemma stackPage_post (hown : Owns al D d s.as.pm) (hd : s.as.mm.pgdir = d)
    (h : TopPages d s₀ s.as.pm k) (hk : k < userPages)
    (hold : pteValid (s₀.leaf d (userPages - (k + 1))) = false) :
    Post (stackPage al (ustackTop - (k + 1) * pgSize)) s fun _ t => PagesOnly s t ∧
      Owns al D d t.as.pm ∧ TopPages d s₀ t.as.pm (k + 1) := by
  have hla := stackPage_addr hk
  have hinvalid := h.invalid hk hold
  refine (allocAt_post hown hd hla.1 hinvalid pteUser).bind fun o t ht => ?_
  obtain ⟨honly, ht⟩ := ht
  refine .ensure fun ho => ?_
  obtain ⟨p, rfl⟩ := Option.ne_none_iff_exists'.mp ho
  obtain ⟨g1, g2, -, -, g5⟩ := ht p rfl
  rw [hla.2] at g2 g5
  refine ⟨honly, g1, fun a ha hin => ?_, fun a ha hout => ?_⟩
  · obtain ⟨-, -, -, -, hva⟩ := user_indices ha
    by_cases hpage : a / pgSize = userPages - (k + 1)
    · have hflags : pteV ||| (pteV ||| pteUser) = pteUser := by decide
      rw [PmState.byte, hpage, page_of_valid (by rw [g2, pteValid_create]), g2,
        pteFlags_create, hflags]
      exact ⟨_, rfl⟩
    · rw [byte_congr (g5 _ hva hpage)]
      exact h.mapped a ha (by omega)
  · obtain ⟨-, -, -, -, hva⟩ := user_indices ha
    rw [byte_congr (g5 _ hva (by omega))]
    exact h.rest a ha (by omega)

lemma Image.stack_invalid {s : MmState A} (h : Image al D d file done s)
    (hfree : s.mm.FreeRange (ustackTop - ustackSize) ustackTop) (hk : k < 4) :
    pteValid (s.pm.leaf d (userPages - (k + 1))) = false := by
  refine h.free_invalid hfree (Nat.sub_lt (by decide) (Nat.succ_pos k)) ?_ ?_
  · unfold userPages ustackTop ustackSize userTop pgSize
    omega
  · unfold userPages ustackTop userTop pgSize
    omega

/-- **The stack area and its first four pages.** -/
lemma setupStack_post (h : Image al D d file done s.as) :
    PostOk (setupStack al) s fun _ t => Image al D d file done t.as ∧ StackReady al D d t.as ∧
      (∀ ph ∈ done, ph.pType = elfPtLoad → ∀ a, ph.pVa ≤ a → a < ph.pVa + ph.pMemsz →
        a < ustackTop - ustackSize) := by
  have hstart : mapStart (ustackTop - ustackSize) = ustackTop - ustackSize := by decide
  have hstop : mapEnd (ustackTop - ustackSize) ustackSize = ustackTop := by decide
  refine .andThen (onAs_postOk (mmMapVma_post h.areas)) fun _ t ht => ?_
  obtain ⟨hu, hfree, hareas, hmem, hpgdir, -, hpm⟩ := ht
  rw [hstart, hstop] at hfree hmem
  have hd : t.as.mm.pgdir = d := hpgdir.trans h.pgdir
  have hown : Owns al D d t.as.pm := by rw [hpm]; exact h.own
  have hold : ∀ k < 4, pteValid (t.as.pm.leaf d (userPages - (k + 1))) = false := by
    intro k hk
    rw [hpm]
    exact h.stack_invalid hfree hk
  have e1 : ustackTop - pgSize = ustackTop - (0 + 1) * pgSize := by rw [zero_add, one_mul]
  have hlt : ∀ k < 4, k < userPages := fun k hk => lt_trans hk (by decide)
  rw [e1]
  refine .bind (stackPage_post hown hd (TopPages.zero _) (hlt 0 (by decide)) (hold 0 (by decide)))
    fun _ t1 ht1 => ?_
  obtain ⟨o1, w1, p1⟩ := ht1
  refine .bind (stackPage_post w1 (by rw [o1.mm]; exact hd) p1 (hlt 1 (by decide))
    (hold 1 (by decide))) fun _ t2 ht2 => ?_
  obtain ⟨o2, w2, p2⟩ := ht2
  refine .bind (stackPage_post w2 (by rw [o2.mm, o1.mm]; exact hd) p2 (hlt 2 (by decide))
    (hold 2 (by decide))) fun _ t3 ht3 => ?_
  obtain ⟨o3, w3, p3⟩ := ht3
  refine .bind (stackPage_post w3 (by rw [o3.mm, o2.mm, o1.mm]; exact hd) p3 (hlt 3 (by decide))
    (hold 3 (by decide))) fun _ u hu' => ?_
  obtain ⟨o4, w4, p4⟩ := hu'
  have hmm : u.as.mm = t.as.mm := by rw [o4.mm, o3.mm, o2.mm, o1.mm]
  refine .pure ⟨?_, ⟨w4, by rw [hmm, hd], by rw [hmm]; exact hareas, ?_, fun a h1 h2 => ?_,
    fun a h1 h2 => ?_⟩, fun ph hph htype a h1 h2 => ?_⟩
  · refine @Image.extend _ _ _ _ _ _ (userPages - 4) userPages s.as u.as h stackArea hfree
      (by rw [hmm]; exact hareas) (by rw [hmm]; exact hmem)
      (by rw [hmm]; exact hpgdir) w4 (by decide) (by decide) fun a ha hout => ?_
    obtain ⟨-, -, -, -, hva⟩ := user_indices ha
    have hlow : a / pgSize + (3 + 1) < userPages := by
      generalize a / pgSize = v at hva hout
      omega
    rw [p4.rest a ha hlow, hpm]
  · rw [hmm]
    exact (hmem _).mpr (.inl rfl)
  · refine p4.mapped a h2 ?_
    unfold stackLow ustackTop userTop at h1
    unfold userPages
    unfold pgSize at *
    omega
  · have hlow : a / pgSize + (3 + 1) < userPages ∧ a < userTop := by
      unfold stackLow ustackTop userTop at h2
      unfold userPages userTop
      unfold pgSize at *
      omega
    obtain ⟨-, -, -, -, hva⟩ := user_indices hlow.2
    rw [p4.rest a hlow.2 hlow.1, byte_eq_none, hpm]
    refine h.free_invalid hfree hva ?_ ?_
    · unfold ustackTop ustackSize userTop at *
      unfold pgSize at *
      omega
    · exact (Nat.div_mul_le_self a pgSize).trans_lt hlow.2
  · -- the stack area shares no address with a segment
    obtain ⟨hfit, -, vma, hvma, k1, k2⟩ := h.segs ph hph htype
    have k3 := hfree vma hvma
    have k5 := hfit.top
    have hle : ustackTop = userTop := rfl
    omega

end Setup

/-! ## Stores to the stack -/

/-- **Bytes have been stored** at `dst`, and no other byte has changed. -/
structure Stored (d : ℕ) (s t : PmState A) (dst : ℕ) (src : List UInt8) : Prop where
  bytes : ∀ i < src.length, t.byte d (dst + i) = some (pteUser, src.getD i 0)
  rest : ∀ a < userTop, a < dst ∨ dst + src.length ≤ a → t.byte d a = s.byte d a

section Store

variable {s t : MmState A} {a dst : ℕ} {b : UInt8} {src : List UInt8}

lemma Stored.nil (s : PmState A) (dst : ℕ) :
    Stored d s s dst [] := ⟨fun _ hi => absurd hi (Nat.not_lt_zero _), fun _ _ _ => rfl⟩

/-- One byte, and then the others. -/
lemma Stored.cons {s t u : PmState A} (h : Stored d s t a [b]) (h' : Stored d t u (a + 1) src)
    (ha : a < userTop) : Stored d s u a (b :: src) := by
  refine ⟨fun i hi => ?_, fun a' ha' hout => ?_⟩
  · cases i with
    | zero =>
      rw [h'.rest (a + 0) ha (by omega)]
      exact h.bytes 0 one_pos
    | succ i =>
      rw [← add_assoc, add_right_comm]
      exact h'.bytes i (Nat.lt_of_succ_lt_succ hi)
  · rw [length_cons] at hout
    rw [h'.rest a' ha' (by omega), h.rest a' ha' (by rw [length_singleton]; omega)]

/-- **Stores to the four pages** keep the stack. -/
lemma StackReady.stored (h : StackReady al D d s) (hown : Owns al D d t.pm)
    (hmm : Visited s.mm t.mm) (hs : Stored d s.pm t.pm dst src) (hlo : stackLow ≤ dst) :
    StackReady al D d t := by
  refine ⟨hown, hmm.pgdir.trans h.pgdir, hmm.areas, by rw [hmm.list]; exact h.area,
    fun a h1 h2 => ?_, fun a h1 h2 => ?_⟩
  · by_cases hin : dst ≤ a ∧ a < dst + src.length
    · have hb := hs.bytes (a - dst) (by omega)
      rw [Nat.add_sub_cancel' hin.1] at hb
      exact ⟨_, hb⟩
    · rw [hs.rest a h2 (by omega)]
      exact h.mapped a h1 h2
  · rw [hs.rest a (h2.trans (by decide)) (by omega)]
    exact h.rest a h1 h2

/-- The frame of an address of the four pages. -/
lemma StackReady.leaf (h : StackReady al D d s) (hlo : stackLow ≤ a) (hhi : a < ustackTop) :
    pteValid (s.pm.leaf d (a / pgSize)) = true ∧ pteFlags (s.pm.leaf d (a / pgSize)) = pteUser := by
  obtain ⟨b, hb⟩ := h.mapped a hlo hhi
  have hvalid : pteValid (s.pm.leaf d (a / pgSize)) = true := by
    by_contra hc
    rw [byte_eq_none.mpr (by simpa using hc)] at hb
    cases hb
  rw [PmState.byte, page_of_valid hvalid] at hb
  simp only [Option.map_some, Option.some.injEq, Prod.mk.injEq] at hb
  exact ⟨hvalid, hb.1⟩

lemma storeByte_apply (b : UInt8) : storeByte d a b s =
    if pteValid (s.pm.leaf d (a / pgSize)) ∧ pteFlags (s.pm.leaf d (a / pgSize)) &&& pteW ≠ 0 then
      .ok ((), { s with
        pm := s.pm.writeFrame (ptePpn (s.pm.leaf d (a / pgSize))) (a % pgSize) (fun _ => b) 0 1 })
    else .error .fault := by
  rw [storeByte, read_bind_apply]
  split_ifs <;> rfl

/-- **A store to the four pages.** -/
lemma storeByte_ready (h : StackReady al D d s) (b : UInt8) (hlo : stackLow ≤ a)
    (hhi : a < ustackTop) :
    ∃ t, storeByte d a b s = .ok ((), t) ∧ StackReady al D d t ∧ Stored d s.pm t.pm a [b] ∧
      t.mm = s.mm := by
  obtain ⟨hvalid, hflags⟩ := h.leaf hlo hhi
  obtain ⟨-, -, -, -, hva⟩ := user_indices hhi
  obtain ⟨w1, w2, w3, w4⟩ := h.own.writeFrame hva hvalid (a % pgSize) (fun _ => b) 0 1
  set t : MmState A := { s with
    pm := s.pm.writeFrame (ptePpn (s.pm.leaf d (a / pgSize))) (a % pgSize) (fun _ => b) 0 1 }
      with ht
  have hrun : storeByte d a b s = .ok ((), t) := by
    have hperm : pteFlags (s.pm.leaf d (a / pgSize)) &&& pteW ≠ 0 := by
      rw [hflags]
      decide
    rw [storeByte_apply, if_pos ⟨hvalid, hperm⟩]
  have hst : Stored d s.pm t.pm a [b] := by
    refine ⟨fun i hi => ?_, fun a' ha' hout => ?_⟩
    · obtain rfl : i = 0 := Nat.lt_one_iff.mp hi
      rw [add_zero, byte_of_page w4, hflags, Bytes.copy_of_mem _ _ le_rfl (Nat.lt_succ_self _)]
      rfl
    · obtain ⟨-, -, -, -, hva'⟩ := user_indices ha'
      by_cases hpage : a' / pgSize = a / pgSize
      · -- another byte of the page
        have w5 := @byte_of_page _ d _ t.pm a' _ (by rw [hpage]; exact w4)
        rw [w5, Bytes.copy_of_notMem, PmState.byte, hpage, page_of_valid hvalid]
        · rfl
        · rw [length_singleton] at hout
          have h1 := Nat.div_add_mod a pgSize
          have h2 := Nat.div_add_mod a' pgSize
          rw [hpage] at h2
          omega
      · exact byte_congr (w3 _ hva' hpage)
  exact ⟨t, hrun, h.stored w1 h.areas.visited hst hlo, hst, rfl⟩

/-- **A store to the rest of the stack area** does not complete. -/
lemma storeByte_fault (h : StackReady al D d s) (b : UInt8) (hlo : ustackTop - ustackSize ≤ a)
    (hhi : a < stackLow) : storeByte d a b s = .error .fault := by
  have hinvalid := byte_eq_none.mp (h.rest a hlo hhi)
  rw [storeByte_apply, if_neg fun hc => by rw [hinvalid] at hc; cases hc.1]

/-- **Stores to the four pages.** -/
lemma storeBytes_ready (src : List UInt8) (h : StackReady al D d s) (hlo : stackLow ≤ a)
    (hhi : a + src.length ≤ ustackTop) :
    ∃ t, storeBytes d a src s = .ok ((), t) ∧ StackReady al D d t ∧ Stored d s.pm t.pm a src ∧
      t.mm = s.mm := by
  induction src generalizing a s with
  | nil => exact ⟨s, rfl, h, Stored.nil _ _, rfl⟩
  | cons b rest ih =>
    rw [length_cons] at hhi
    obtain ⟨t, e, ht, hst, hmm⟩ := storeByte_ready h b hlo (by omega)
    have hnext : addAddr a 1 = a + 1 := addAddr_eq (by unfold ustackTop userTop at hhi; omega)
    obtain ⟨u, e', hu, hsu, hmm'⟩ := ih (a := a + 1) ht (by omega) (by omega)
    refine ⟨u, ?_, hu, hst.cons hsu (by unfold ustackTop at hhi; omega), hmm'.trans hmm⟩
    rw [storeBytes, bind_of_ok e, hnext, e']

/-- **The bytes of `copy_to_user`** to the stack area, above its first page. -/
lemma copyToUser_ready (dst : ℕ) (src : List UInt8) (h : StackReady al D d s)
    (hlo : ustackTop - ustackSize + pgSize ≤ dst) (hhi : dst + src.length ≤ ustackTop)
    (hne : src ≠ []) : if stackLow ≤ dst then ∃ t, copyToUser dst src s = .ok (true, t) ∧
    StackReady al D d t ∧
      Stored d s.pm t.pm dst src
    else copyToUser dst src s = .error .fault := by
  have hpos : 0 < src.length := length_pos_iff.mpr hne
  have htop : ustackTop < 2 ^ 64 := by decide
  obtain ⟨r, mm', e, hv, hr⟩ := userMemCheck_apply h.areas dst src.length (by omega) true
  have hr' : r = true := by
    refine hr.mpr ⟨⟨?_, by omega, hhi⟩,
      fun a h1 h2 => ⟨stackArea, h.area, ⟨?_, lt_of_lt_of_le h2 hhi⟩, by decide,
        fun _ _ => hlo.trans h1⟩⟩
    · exact le_trans (by decide) hlo
    · exact le_trans (by decide) (hlo.trans h1)
  subst hr'
  set t : MmState A := { s with mm := mm' } with ht
  have hready : StackReady al D d t := h.stored h.own hv (Stored.nil _ stackLow) le_rfl
  have hrun : copyToUser dst src s = (do storeBytes t.mm.pgdir dst src; pure true) t := by
    rw [copyToUser, bind_of_ok (onMm_of_ok e)]
    rfl
  rw [hrun, hready.pgdir]
  split_ifs with hlow
  · obtain ⟨u, e', hu, hsu, -⟩ := storeBytes_ready src hready hlow hhi
    exact ⟨u, bind_of_ok e' _, hu, hsu⟩
  · obtain ⟨b, rest, rfl⟩ := exists_cons_of_ne_nil hne
    have hf := storeByte_fault hready b (a := dst) (by omega) (by omega)
    exact bind_of_error (bind_of_error hf _) _

end Store

/-! ## The arguments -/

/-- The size of the strings, with their terminators. -/
def strSize (args : List (List UInt8)) : ℕ := (args.map fun arg => arg.length + 1).sum

/-- Where the strings go, the last one to the top. -/
def argPtrs : List (List UInt8) → List ℕ
  | [] => []
  | arg :: rest => (ustackTop - strSize (arg :: rest)) :: argPtrs rest

/-- **The strings are on the stack.** -/
def StringsAt (d : ℕ) (s : PmState A) : List (List UInt8) → Prop
  | [] => True
  | arg :: rest => (∀ k < (arg ++ [0]).length,
      s.byte d (ustackTop - strSize (arg :: rest) + k) = some (pteUser, (arg ++ [0]).getD k 0)) ∧
    StringsAt d s rest

section Args

variable {s t : MmState A} {arg : List UInt8} {args : List (List UInt8)}

@[simp] lemma strSize_nil : strSize [] = 0 := rfl

@[simp] lemma strSize_cons : strSize (arg :: args) = arg.length + 1 + strSize args := by
  rw [strSize, strSize, map_cons, sum_cons]

@[simp] lemma strSize_append (args args' : List (List UInt8)) :
    strSize (args ++ args') = strSize args + strSize args' := by
  rw [strSize, strSize, strSize, map_append, sum_append]

/-- At most `n` strings of at most `m` bytes. -/
lemma strSize_le {n m : ℕ} (hn : args.length ≤ n) (hm : ∀ arg ∈ args, arg.length ≤ m) :
    strSize args ≤ n * (m + 1) := by
  induction args generalizing n with
  | nil => exact Nat.zero_le _
  | cons arg rest ih =>
    obtain _ | n := n
    · exact absurd hn (Nat.not_succ_le_zero _)
    have h1 := hm arg mem_cons_self
    have h2 := ih (Nat.le_of_succ_le_succ hn) fun b hb => hm b (mem_cons_of_mem _ hb)
    rw [strSize_cons, Nat.succ_mul]
    omega

variable {i : ℕ}

lemma strSize_drop (args : List (List UInt8)) (hi : i < args.length) :
    strSize (args.drop i) = (args.getD i []).length + 1 + strSize (args.drop (i + 1)) := by
  rw [drop_eq_getElem_cons hi, strSize_cons, getD_eq_getElem _ _ hi]

/-- Later strings are higher. -/
lemma strSize_drop_anti (args : List (List UInt8)) {j : ℕ} (h : i ≤ j) :
    strSize (args.drop j) ≤ strSize (args.drop i) := by
  induction j, h using Nat.le_induction with
  | base => exact le_rfl
  | succ j hij ih =>
    rcases lt_or_ge j args.length with hj | hj
    · have := strSize_drop args hj
      omega
    · rw [drop_eq_nil_of_le (hj.trans (Nat.le_succ j))]
      exact Nat.zero_le _

/-- The bytes of the strings are the same. -/
lemma StringsAt.congr {s t : PmState A} (h : StringsAt d s args) (hsize : strSize args ≤ ustackTop)
    (hb : ∀ a < ustackTop, ustackTop - strSize args ≤ a → t.byte d a = s.byte d a) :
    StringsAt d t args := by
  induction args with
  | nil => trivial
  | cons arg rest ih =>
    rw [strSize_cons] at hsize hb
    refine ⟨fun k hk => ?_, ih h.2 (by omega) fun a h1 h2 => hb a h1 (by omega)⟩
    rw [← h.1 k hk]
    rw [length_append, length_singleton] at hk
    refine hb _ ?_ ?_
    all_goals
      rw [strSize_cons]
      omega

/-- **One string is stored** below the others, if it ends in the four pages. -/
lemma pushString_ready (arg : List UInt8) {done : List (List UInt8)} (h : StackReady al D d s)
    (hstr : StringsAt d s.pm done) (hbound : strSize (arg :: done) + pgSize ≤ ustackSize) :
    if strSize (arg :: done) ≤ 4 * pgSize then
      ∃ t, pushString arg (ustackTop - strSize done) (argPtrs done) s =
          .ok (.ok (ustackTop - strSize (arg :: done), argPtrs (arg :: done)), t) ∧
        StackReady al D d t ∧ StringsAt d t.pm (arg :: done) ∧
        ∀ a < stackLow, t.pm.byte d a = s.pm.byte d a
    else pushString arg (ustackTop - strSize done) (argPtrs done) s = .error .fault := by
  have hsize : ustackSize < ustackTop ∧ ustackTop < 2 ^ 64 ∧
    stackLow = ustackTop - 4 * pgSize := by decide
  have hcons : strSize (arg :: done) = arg.length + 1 + strSize done := strSize_cons
  have hlen : (arg ++ [0]).length = arg.length + 1 := by rw [length_append, length_singleton]
  have hsp : subAddr (ustackTop - strSize done)
      (arg.length + 1) = ustackTop - strSize (arg :: done) := by
    rw [subAddr_eq (by omega) (by omega), hcons]
    omega
  have hcopy := copyToUser_ready (ustackTop - strSize (arg :: done)) (arg ++ [0]) h (by omega)
    (by omega) (append_ne_nil_of_right_ne_nil _ (cons_ne_nil _ _))
  have hrun : pushString arg (ustackTop - strSize done) (argPtrs done) s = (do
      let ok ← copyToUser (ustackTop - strSize (arg :: done)) (arg ++ [0])
      if ok then pure (Except.ok (ustackTop - strSize (arg :: done), argPtrs (arg :: done)))
      else pure (Except.error Errno.inval)) s := by
    rw [pushString, hsp, argPtrs]
  rw [hrun]
  split_ifs at hcopy ⊢ with h1 h2 h2
  · obtain ⟨t, e, ht, hst⟩ := hcopy
    refine ⟨t, bind_of_ok e _, ht,
      ⟨hst.bytes, hstr.congr (by omega) fun a h3 h4 => hst.rest a h3 (.inr ?_)⟩,
      fun a ha => hst.rest a (ha.trans (by decide)) (.inl (by omega))⟩
    omega
  · omega
  · omega
  · exact bind_of_error hcopy _

/-- **The strings are stored**, if they fit into the four pages.

**Proof sketch.** Each string goes below those that are there already: those `done` stay, and the
string is the first of the new list. The first string that reaches below the four pages stops the
run. -/
lemma pushStrings_ready (rev done : List (List UInt8)) (h : StackReady al D d s)
    (hfit : strSize done ≤ 4 * pgSize) (hstr : StringsAt d s.pm done)
    (hbound : strSize (rev.reverse ++ done) + pgSize ≤ ustackSize) :
    if strSize (rev.reverse ++ done) ≤ 4 * pgSize then
      ∃ t, pushStrings rev (ustackTop - strSize done) (argPtrs done) s =
          .ok (.ok (ustackTop - strSize (rev.reverse ++ done), argPtrs (rev.reverse ++ done)), t) ∧
        StackReady al D d t ∧ StringsAt d t.pm (rev.reverse ++ done) ∧
        ∀ a < stackLow, t.pm.byte d a = s.pm.byte d a
    else pushStrings rev (ustackTop - strSize done) (argPtrs done) s = .error .fault := by
  induction rev generalizing done s with
  | nil => exact (if_pos hfit).mpr ⟨s, rfl, h, hstr, fun _ _ => rfl⟩
  | cons arg rest ih =>
    have hlist : (arg :: rest).reverse ++ done = rest.reverse ++ arg :: done := by
      rw [reverse_cons, append_assoc, singleton_append]
    rw [hlist] at hbound ⊢
    have hall : strSize (rest.reverse ++ arg :: done) =
        strSize rest.reverse + strSize (arg :: done) :=
      strSize_append _ _
    have hone := pushString_ready arg h hstr (by omega)
    rw [pushStrings]
    by_cases hlow : strSize (arg :: done) ≤ 4 * pgSize
    · rw [if_pos hlow] at hone
      obtain ⟨t, e, ht, hst, hrest⟩ := hone
      have hnext := ih _ ht hlow hst hbound
      rw [andThen_of_ok e]
      split_ifs at hnext ⊢ with hfull
      · obtain ⟨u, e', hu, hsu, hlo⟩ := hnext
        exact ⟨u, e', hu, hsu, fun a ha => (hlo a ha).trans (hrest a ha)⟩
      · exact hnext
    · rw [if_neg hlow] at hone
      rw [if_neg (by omega)]
      exact andThen_of_error hone _

@[simp] lemma argPtrs_nil : argPtrs [] = [] := rfl

lemma argPtrs_getD (args : List (List UInt8)) (hi : i < args.length) :
    (argPtrs args).getD i 0 = ustackTop - strSize (args.drop i) := by
  induction args generalizing i with
  | nil => exact absurd hi (Nat.not_lt_zero i)
  | cons arg rest ih =>
    cases i with
    | zero => rfl
    | succ i => exact ih (Nat.lt_of_succ_lt_succ hi)

@[simp] lemma argPtrs_length (args : List (List UInt8)) : (argPtrs args).length = args.length := by
  induction args with
  | nil => rfl
  | cons arg rest ih => rw [argPtrs, length_cons, length_cons, ih]

/-- The bytes of string `i`. -/
lemma StringsAt.byte {s : PmState A} (h : StringsAt d s args) (hi : i < args.length) {k : ℕ}
    (hk : k ≤ (args.getD i []).length) :
    s.byte d (ustackTop - strSize (args.drop i) + k) = some (pteUser,
      (args.getD i [] ++ [0]).getD k 0) := by
  induction args generalizing i with
  | nil => exact absurd hi (Nat.not_lt_zero i)
  | cons arg rest ih =>
    cases i with
    | zero =>
      refine h.1 k ?_
      rw [length_append, length_singleton]
      exact Nat.lt_succ_of_le hk
    | succ i => exact ih h.2 (Nat.lt_of_succ_lt_succ hi) hk

/-- The size of the strings and of the pointers. -/
def argSize (args : List (List UInt8)) : ℕ := strSize args + 8 * (args.length + 1)

/-- The stack pointer below the arguments. -/
def argSp (args : List (List UInt8)) : ℕ := roundDown (ustackTop - argSize args) 8

lemma argSp_spec (h : argSize args + pgSize + 8 ≤ ustackSize) : argSp args % 8 = 0 ∧
    argSp args + argSize args ≤ ustackTop ∧ ustackTop - ustackSize + pgSize ≤ argSp args ∧
    (stackLow ≤ argSp args ↔ argSize args ≤ 4 * pgSize) := by
  have hlow : stackLow % 8 = 0 ∧ stackLow = ustackTop - 4 * pgSize ∧ 4 * pgSize ≤ ustackTop ∧
    ustackSize ≤ ustackTop := by decide
  unfold argSp roundDown
  omega

/-- **The pointers are stored** below the strings, if they fit into the four pages. -/
lemma pushUargv_ready (h : StackReady al D d s) (hstr : StringsAt d s.pm args)
    (hbound : argSize args + pgSize + 8 ≤ ustackSize) :
    if argSize args ≤ 4 * pgSize then
      ∃ t, pushUargv args.length (ustackTop - strSize args)
      (argPtrs args) s = .ok (.ok (argSp args), t) ∧
        StackReady al D d t ∧ StringsAt d t.pm args ∧
        (∀ i ≤ args.length, (t.pm.userMem d).get64 (argSp args + 8 * i) =
          (argPtrs args ++ [0]).getD i 0) ∧
        ∀ a < stackLow, t.pm.byte d a = s.pm.byte d a
    else pushUargv args.length (ustackTop - strSize args) (argPtrs args) s = .error .fault := by
  have hsize : ustackSize < ustackTop ∧ ustackTop < 2 ^ 64 := by decide
  have hargs : argSize args = strSize args + 8 * (args.length + 1) := rfl
  obtain ⟨-, hend, hstart, hlow⟩ := argSp_spec hbound
  have hlen : (argPtrs args ++ [0]).length = args.length + 1 := by
    rw [length_append, argPtrs_length, length_singleton]
  have hbytes : ((argPtrs args ++ [0]).flatMap Bytes.le64).length = 8 * (args.length + 1) := by
    rw [Bytes.length_flatMap_le64, hlen]
  have hsp : roundDown (subAddr (ustackTop - strSize args) ((args.length + 1) * 8)) 8 =
      argSp args := by
    rw [subAddr_eq (by omega) (by omega), argSp, argSize, Nat.sub_sub, mul_comm]
  have hcopy := copyToUser_ready (argSp args) ((argPtrs args ++ [0]).flatMap Bytes.le64) h hstart
    (by omega) (by rw [← length_pos_iff, hbytes]; omega)
  rw [pushUargv, hsp]
  split_ifs at hcopy ⊢ with h2 h1 h1
  · obtain ⟨t, e, ht, hst⟩ := hcopy
    refine ⟨t, bind_of_ok e _, ht, hstr.congr (by omega)
      fun a h3 h4 => hst.rest a h3 (.inr (by omega)),
      fun i hi => Bytes.get64_flatMap_le64 (fun j hj => ?_) (by omega) ?_,
      fun a ha => hst.rest a (ha.trans (by decide)) (.inl (by omega))⟩
    · rw [PmState.userMem, hst.bytes j (by omega)]
      rfl
    · rcases lt_or_ge i args.length with hi' | hi'
      · rw [getD_append _ _ _ _ (by rw [argPtrs_length]; exact hi'), argPtrs_getD args hi']
        omega
      · rw [getD_append_right _ _ _ _ (by rw [argPtrs_length]; exact hi'), argPtrs_length,
          Nat.le_antisymm hi hi', Nat.sub_self]
        decide
  · exact absurd (hlow.mpr h2) h1
  · exact absurd (hlow.mp h1) h2
  · exact bind_of_error hcopy _

/-- **The arguments are stored**, if they fit into the four pages. -/
lemma pushArgs_ready (h : StackReady al D d s) (hbound : argSize args + pgSize + 8 ≤ ustackSize) :
    if argSize args ≤ 4 * pgSize then
      ∃ t, pushArgs args s = .ok (.ok (argSp args), t) ∧ StackReady al D d t ∧
      StringsAt d t.pm args ∧
        (∀ i ≤ args.length, (t.pm.userMem d).get64 (argSp args + 8 * i) =
          (argPtrs args ++ [0]).getD i 0) ∧
        ∀ a < stackLow, t.pm.byte d a = s.pm.byte d a
    else pushArgs args s = .error .fault := by
  have hargs : argSize args = strSize args + 8 * (args.length + 1) := rfl
  have hstrings := pushStrings_ready args.reverse [] h (Nat.zero_le _) trivial
    (by rw [reverse_reverse, append_nil]; omega)
  rw [reverse_reverse, append_nil, strSize_nil, Nat.sub_zero, argPtrs_nil] at hstrings
  by_cases hstr : strSize args ≤ 4 * pgSize
  · rw [if_pos hstr] at hstrings
    obtain ⟨t, e, ht, hst, hrest⟩ := hstrings
    have huargv := pushUargv_ready ht hst hbound
    rw [pushArgs, andThen_of_ok e]
    split_ifs at huargv ⊢
    · obtain ⟨u, e', hu, hsu, hwords, hlo⟩ := huargv
      exact ⟨u, e', hu, hsu, hwords, fun a ha => (hlo a ha).trans (hrest a ha)⟩
    · exact huargv
  · rw [if_neg hstr] at hstrings
    rw [if_neg (by omega)]
    exact andThen_of_error hstrings _

end Args

end Ucore

import Ucore.Mm.DupMmap
import Ucore.Process.LoadStack

set_option autoImplicit false

/-!
# Runs of `load_icode`

What a run of `load_icode` that returns `0` has built: the image of the program and its arguments.
The arguments are used at the end only, so that runs with different arguments stop in the same way
or reach the same state before the program is loaded.

## Main definitions

* `headersGranted` — whether there is memory for the program headers.
* `SegExact` — the bytes of a segment are at its addresses, with its rights.
* `ProgHdr.Loadable` — the condition for that.
* `ArgBlock` — the arguments are on the stack.

## Main results

* `loadIcode_cases`, `loadProgram_cases` — how a run goes on.
* `load_icode_exact_iff` — the image of the program is exact iff each segment is loadable.
* `load_icode_args_iff` — the arguments are on the stack iff they fit into four pages.
-/

namespace Ucore

open Function Comp List Finset

variable {A : Type} {al : FrameAllocator A} {file : Bytes} {boot : ℕ → BitVec 64}
  {D : Finset ℕ} {d : ℕ}

/-! ## How a run goes on -/

/-- There is memory for the program headers: the second answer of `kmalloc`. -/
def headersGranted (s : LoadState A) : Bool := s.as.grants.tail.headD true

section Cases

variable {s : LoadState A}

lemma onAs_loaded {α : Type} (m : MmComp A α) : Post (onAs m) s fun _ t => t.loaded = s.loaded :=
  .zoom (R := fun _ _ => True) (fun _ _ _ => trivial) fun _ _ _ => rfl

lemma badElfCleanupPgdir_post (ret : Except Errno Unit) :
    Post (badElfCleanupPgdir al ret) s fun r t => r = ret ∧ t.loaded = s.loaded := by
  refine (onAs_loaded _).bind fun _ t ht => ?_
  refine (onAs_loaded _).bind fun _ u hu => ?_
  exact .pure ⟨rfl, hu.trans ht⟩

lemma badCleanupMmap_postOk (e : Errno) {Q : Unit → LoadState A → Prop} :
    PostOk (badCleanupMmap al (.error e)) s Q := by
  refine .bind (onAs_loaded _) fun _ t _ => ?_
  intro a u hu
  cases (badElfCleanupPgdir_post _ _ _ hu).1

/-- Runs stop alike, whatever the arguments are. -/
def Stops (F : List (List UInt8) → Load A (Except Errno Unit)) (s : LoadState A)
    (Q : LoadState A → Prop) : Prop :=
  ∃ r, (∀ args, F args s = r) ∧ ∀ t, r = .ok (.ok (), t) → Q t

variable {F : List (List UInt8) → Load A (Except Errno Unit)} {Q : LoadState A → Prop}

lemma Stops.of_error {p : MmPanic} (h : ∀ args, F args s = .error p) :
    Stops F s Q := ⟨_, h, fun _ ht => nomatch ht⟩

lemma Stops.of_post {m : Load A (Except Errno Unit)} {t : LoadState A} (h : ∀ args, F args s = m t)
    (hm : PostOk m t fun _ => Q) : Stops F s Q := ⟨_, h, fun u hu => hm () u hu⟩

/-- **From the program headers' buffer on.** -/
lemma loadHeaders_cases (h : Image al D d file [] s.as) (hnew : s.loaded = false) :
    Stops (loadHeaders al file) s (fun t => s.as.grants.headD true = false ∧ t.loaded = false) ∨
      s.as.grants.headD true = true ∧ ∃ t, Image al D d file [] t.as ∧ t.loaded = false ∧
        ∀ args, loadHeaders al file args s = loadProgram al file args t := by
  set s' : LoadState A := { s with as := { s.as with
    grants := s.as.grants.tail
    heap := if s.as.grants.headD true then update s.as.heap .headers (s.as.heap .headers + 1)
    else s.as.heap } } with hs'
  have hk : onAs (kmalloc .headers) s = .ok (s.as.grants.headD true, s') := rfl
  have himage : Image al D d file [] s'.as := { h with }
  have hrun : ∀ args, loadHeaders al file args s = _ := fun args => bind_of_ok hk _
  cases hg : s.as.grants.headD true with
  | false =>
    refine .inl (@.of_post _ _ _ _ (badElfCleanupPgdir al (.ok ())) s' (fun args => ?_) fun r t e =>
      ⟨rfl, (badElfCleanupPgdir_post _ _ _ e).2.trans (show s'.loaded = false from hnew)⟩)
    rw [hrun args, hg]
    rfl
  | true =>
    simp only [hg, if_true] at hrun
    simp only [hrun, Stops]
    rcases bind_cases (loadIcodeRead (A := A) (elfHdr file).ePhoff) _ s'
      with ⟨p, hp⟩ | ⟨ret, t, e, ht⟩
    · exact Or.inl (Stops.of_error hp)
    · cases ret with
      | error c =>
        refine Or.inl (Stops.of_post ht fun r u hu => ?_)
        cases hu
      | ok u =>
        obtain ⟨-, honly, has⟩ := loadIcodeRead_post _ _ _ e
        refine .inr ⟨trivial, t, by rw [has]; exact himage, ?_, ht⟩
        rw [honly]
        exact hnew

/-- **From the header of the file on.** -/
lemma loadElf_cases (h : Image al D d file [] s.as) (hnew : s.loaded = false) :
    Stops (loadElf al file) s (fun t => s.as.grants.headD true = false ∧ t.loaded = false) ∨
      s.as.grants.headD true = true ∧ ∃ t, Image al D d file [] t.as ∧ t.loaded = false ∧
        ∀ args, loadElf al file args s = loadProgram al file args t := by
  rcases (bind_cases (loadIcodeRead (A := A) 0) _ s :
    (∃ p, ∀ args, loadElf al file args s = .error p) ∨ _) with ⟨p, hp⟩ | ⟨ret, t, e, ht⟩
  · exact .inl (.of_error hp)
  cases ret with
  | error c => exact .inl (.of_post ht fun r u hu => nomatch (badElfCleanupPgdir_post _ _ _ hu).1)
  | ok u =>
    obtain ⟨-, honly, has⟩ := loadIcodeRead_post _ _ _ e
    by_cases hmagic : (elfHdr file).eMagic ≠ elfMagic
    · refine .inl (.of_post (fun args => (ht args).trans (congrFun (if_pos hmagic) t))
        fun r u hu => ?_)
      cases (badElfCleanupPgdir_post _ _ _ hu).1
    · have hrun : ∀ args, loadElf al file args s = loadHeaders al file args t := fun args =>
        (ht args).trans (congrFun (if_neg hmagic) t)
      have hnew' : t.loaded = false := by
        rw [honly]
        exact hnew
      rcases loadHeaders_cases (by rw [has]; exact h) hnew' with ⟨r, hr, hQ⟩ | ⟨hg, t', h1, h2, h3⟩
      · exact .inl ⟨r, fun args => (hrun args).trans (hr args), by rw [← has]; exact hQ⟩
      · exact .inr ⟨by rw [← has]; exact hg, t', h1, h2, fun args => (hrun args).trans (h3 args)⟩

/-- **`load_icode` stops before the program headers are used**, or goes on with a new address
space. -/
lemma loadIcode_cases (hinv : VmInv al ⟨s.as.pm, D⟩) (hboot : ∀ k < 2, pteValid (boot k) = false) :
    Stops (loadIcode al file boot) s (fun t => headersGranted s = false ∧ t.loaded = false) ∨
      headersGranted s = true ∧ ∃ D' d t, Image al D' d file [] t.as ∧
        ∀ args, loadIcode al file boot args s = loadProgram al file args t := by
  cases hl : s.loaded with
  | true =>
    have hen : (Comp.ensure (s.loaded = false) .notEmpty : Load A Unit) s = .error .notEmpty := by
      rw [ensure_apply, if_neg (by rw [hl]; exact Bool.noConfusion)]
    refine .inl (.of_error (p := .notEmpty) fun args => ?_)
    exact bind_of_error hen _
  | false =>
    set s' : LoadState A := { s with as := { s.as with
      grants := s.as.grants.tail
      heap := if s.as.grants.headD true then update s.as.heap .mm (s.as.heap .mm + 1)
      else s.as.heap } } with hs'
    have hrun : ∀ args, loadIcode al file boot args s = (if s.as.grants.headD true then do
        onAs (onMm (Comp.modify fun _ => mmCreate))
        let ready ← setupMmPgdir al boot
        if ready then loadElf al file args else badPgdirCleanupMm (.error .noMem)
      else pure (.error .noMem)) s' := by
      intro args
      have hen : (Comp.ensure (s.loaded = false) .notEmpty : Load A Unit) s = .ok ((), s) := by
        rw [ensure_apply, if_pos hl]
      have hk : onAs (kmalloc .mm) s = .ok (s.as.grants.headD true, s') := rfl
      change (Comp.ensure (s.loaded = false) .notEmpty >>= fun _ => onAs (kmalloc .mm) >>= _) s = _
      rw [bind_of_ok hen, bind_of_ok hk]
    cases hg : s.as.grants.headD true with
    | false =>
      simp only [hg] at hrun
      exact .inl ⟨_, hrun, fun t ht => nomatch ht⟩
    | true =>
      simp only [hg, if_true] at hrun
      set s'' : LoadState A := { s' with as := { s'.as with mm := mmCreate } } with hs''
      have hpm : s''.as.pm = s.as.pm := rfl
      rcases bind_cases (setupMmPgdir al boot)
        (fun args ready => if ready = true then loadElf al file args
          else badPgdirCleanupMm (.error .noMem)) s'' with ⟨p, hp⟩ | ⟨ready, t, e, ht⟩
      · exact .inl (.of_error fun args => (hrun args).trans (hp args))
      obtain ⟨o, u, hset, htail⟩ := bind_eq_ok.mp e
      obtain ⟨honly, hdir⟩ := onPm_post (setupPgdir_post (by rw [hpm]; exact hinv) hboot) o u hset
      cases o with
      | none =>
        obtain ⟨rfl, rfl⟩ : ready = false ∧ t = u := by
          cases htail
          exact ⟨rfl, rfl⟩
        refine .inl (.of_post (fun args => (hrun args).trans (ht args)) fun r w hw => ?_)
        obtain ⟨_, _, _, hret⟩ := bind_eq_ok.mp hw
        cases hret
      | some d =>
        obtain ⟨rfl, rfl⟩ : ready = true ∧
            t = { u with as := { u.as with mm := { u.as.mm with pgdir := d } } } := by
          cases htail
          exact ⟨rfl, rfl⟩
        obtain ⟨-, hown, hempty⟩ := hdir d rfl
        have hmm : u.as.mm = mmCreate := honly.mm
        have hgr : u.as.grants = s.as.grants.tail := by rw [honly]
        set t : LoadState A := { u with as := { u.as with mm := { u.as.mm with pgdir := d } } }
          with htdef
        have himage : Image al (insert d D) d file [] t.as := by
          refine ⟨hown, rfl, ?_, fun v hv hvalid => ?_, fun ph hph => absurd hph not_mem_nil⟩
          · change Areas { u.as.mm with pgdir := d }
            rw [hmm]
            exact ⟨.nil, fun _ hc => nomatch hc⟩
          · rw [hempty v hv, pteValid_zero] at hvalid
            cases hvalid
        have hnew : t.loaded = false := by
          change u.loaded = false
          rw [honly]
          exact hl
        have hgrants : t.as.grants.headD true = headersGranted s := by
          rw [hgr]
          rfl
        have hgo : ∀ args, loadIcode al file boot args s = loadElf al file args t := fun args =>
          (hrun args).trans (ht args)
        rw [← hgrants]
        rcases loadElf_cases himage hnew with ⟨r, hr, hQ⟩ | ⟨hg', t', h1, -, h3⟩
        · exact .inl ⟨r, fun args => (hgo args).trans (hr args), hQ⟩
        · exact .inr ⟨hg', _, d, t', h1, fun args => (hgo args).trans (h3 args)⟩

section

variable (h : Image al D d file [] s.as)
  (hwrap : ∀ ph ∈ progHdrs file, ph.pType = elfPtLoad → ph.pVa + ph.pMemsz < 2 ^ 64)
include h hwrap

/-- **A program whose segments and stack are in memory**: `load_icode` goes on with the
arguments. -/
lemma loadProgram_of_image {u : LoadState A} (e : loadImage al file s = .ok (.ok (), u)) :
    ∃ t, Image al D d file (progHdrs file) t.as ∧ StackReady al D d t.as ∧
      (∀ ph ∈ progHdrs file, ph.pType = elfPtLoad → ∀ a, ph.pVa ≤ a → a < ph.pVa + ph.pMemsz →
        a < ustackTop - ustackSize) ∧ t.loaded = true ∧
      ∀ args, loadProgram al file args s = loadArgs al args t := by
  have himage : PostOk (loadImage al file) s fun _ t => Image al D d file (progHdrs file) t.as ∧
      StackReady al D d t.as ∧ (∀ ph ∈ progHdrs file, ph.pType = elfPtLoad → ∀ a, ph.pVa ≤ a →
        a < ph.pVa + ph.pMemsz → a < ustackTop - ustackSize) := by
    refine .andThen (loadSegments_post _ h hwrap fun ph hph => ?_) fun _ t ht => setupStack_post ht
    obtain ⟨i, -, rfl⟩ := mem_map.mp hph
    exact Bytes.get64_lt file _
  obtain ⟨h1, h2, h3⟩ := himage _ _ e
  refine ⟨{ u with
    as := { u.as with mm := { u.as.mm with mmCount := u.as.mm.mmCount + 1 } }
    loaded := true
    tf := ⟨ustackTop, 0, 0, (elfHdr file).eEntry, userStatus u.tf.status⟩ },
    ⟨h1.own, h1.pgdir, ⟨h1.areas.list, h1.areas.cache⟩, h1.covered, h1.segs⟩,
    ⟨h2.own, h2.pgdir, ⟨h2.areas.list, h2.areas.cache⟩, h2.area, h2.mapped, h2.rest⟩, h3, rfl,
    fun args => ?_⟩
  rw [loadProgram, bind_of_ok e]
  rfl

/-- **A program whose segments do not wrap around**: `load_icode` stops, or goes on with the
arguments. -/
lemma loadProgram_cases :
    Stops (loadProgram al file) s (fun _ => False) ∨ ∃ t, Image al D d file (progHdrs file) t.as ∧
      StackReady al D d t.as ∧ (∀ ph ∈ progHdrs file, ph.pType = elfPtLoad → ∀ a, ph.pVa ≤ a →
        a < ph.pVa + ph.pMemsz → a < ustackTop - ustackSize) ∧ t.loaded = true ∧
      ∀ args, loadProgram al file args s = loadArgs al args t := by
  rcases (bind_cases (loadImage al file) _ s :
    (∃ p, ∀ args, loadProgram al file args s = .error p) ∨ _) with ⟨p, hp⟩ | ⟨ret, u, e, hu⟩
  · exact .inl (.of_error hp)
  cases ret with
  | error c => exact .inl (.of_post hu (badCleanupMmap_postOk c))
  | ok x => exact .inr (loadProgram_of_image h hwrap e)

end

/-- **From the arguments to the end.** -/
lemma loadArgs_ready (args : List (List UInt8)) (h : StackReady al D d s.as)
    (hbound : argSize args + pgSize + 8 ≤ ustackSize) :
    if argSize args ≤ 4 * pgSize then
      ∃ t, loadArgs al args s = .ok (.ok (), t) ∧ StackReady al D d t.as ∧
      StringsAt d t.as.pm args ∧
        (∀ i ≤ args.length, (t.as.pm.userMem d).get64 (argSp args + 8 * i) =
          (argPtrs args ++ [0]).getD i 0) ∧
        (∀ a < stackLow, t.as.pm.byte d a = s.as.pm.byte d a) ∧ t.loaded = s.loaded ∧
        t.tf.sp = argSp args ∧ t.tf.a0 = args.length ∧ t.tf.a1 = argSp args
    else loadArgs al args s = .error .fault := by
  have hpush := pushArgs_ready h hbound
  split_ifs at hpush ⊢
  · obtain ⟨as, e, h1, h2, h3, h4⟩ := hpush
    exact ⟨_, bind_of_ok (onAs_of_ok e) _, { h1 with }, h2, h3, h4,
      rfl, rfl, rfl, rfl⟩
  · exact bind_of_error (zoom_of_error hpush) _

end Cases

/-! ## The image of the program -/

/-- **A segment is loaded exactly**: each of its addresses is mapped with the rights of the segment
and holds the byte of the file, or zero behind the file part. -/
def SegExact (file : Bytes) (ph : ProgHdr) (t : LoadState A) : Prop :=
  ∀ a, ph.pVa ≤ a → a < ph.pVa + ph.pMemsz → t.loaded = true ∧ a < userTop ∧
    t.as.pm.byte t.as.mm.pgdir a = some (ph.perm, ph.byte file a)

/-- **A segment that is loaded exactly**: it does not wrap around, and if its file part is empty it
touches as many pages as it would from the start of a page. -/
def ProgHdr.Loadable (ph : ProgHdr) : Prop :=
  ph.pVa + ph.pMemsz < 2 ^ 64 ∧
    (ph.pFilesz ≠ 0 ∨ (ph.pVa % pgSize + ph.pMemsz - 1) / pgSize = (ph.pMemsz - 1) / pgSize)

variable {ph : ProgHdr}

lemma lastPage_iff (hpos : ph.pMemsz ≠ 0) : (ph.pVa + ph.pMemsz - 1) / pgSize < ph.lastPage ↔
      ph.pFilesz ≠ 0 ∨ (ph.pVa % pgSize + ph.pMemsz - 1) / pgSize = (ph.pMemsz - 1) / pgSize := by
  unfold ProgHdr.lastPage
  unfold pgSize
  split_ifs with h <;> omega

instance (ph : ProgHdr) : Decidable ph.Loadable := inferInstanceAs (Decidable (_ ∧ _))

/-- **The segments of a program that is in memory.** -/
lemma segExact_iff {t : LoadState A} (h : SegImage file ph t.as.mm.pgdir t.as.pm) (hfit : ph.Fits)
    (hl : t.loaded = true) (hpos : ph.pMemsz ≠ 0) :
    SegExact file ph t ↔ (ph.pVa + ph.pMemsz - 1) / pgSize < ph.lastPage := by
  constructor
  · intro hex
    by_contra hc
    obtain ⟨-, -, hb⟩ := hex (ph.pVa + ph.pMemsz - 1) (by omega) (by omega)
    rw [h.unmapped _ (by omega) (by omega) (Nat.le_of_not_lt hc)] at hb
    cases hb
  · intro hlast a h1 h2
    refine ⟨hl, lt_of_lt_of_le h2 hfit.top, h.mapped a h1 h2 (lt_of_le_of_lt ?_ hlast)⟩
    exact Nat.div_le_div_right (by omega)

lemma SegImage.of_low {s t : LoadState A} (h : SegImage file ph d s.as.pm)
    (hbelow : ∀ a, ph.pVa ≤ a → a < ph.pVa + ph.pMemsz → a < ustackTop - ustackSize)
    (hd : t.as.mm.pgdir = d) (hlow : ∀ a < stackLow, t.as.pm.byte d a = s.as.pm.byte d a) :
    SegImage file ph t.as.mm.pgdir t.as.pm := by
  have hstack : ustackTop - ustackSize ≤ stackLow := by decide
  rw [hd]
  exact h.congr fun a h1 h2 => hlow a (lt_of_lt_of_le (hbelow a h1 h2) hstack)

lemma argSize_le {args : List (List UInt8)} (hnum : args.length ≤ execMaxArgNum)
    (hlen : ∀ arg ∈ args, arg.length ≤ execMaxArgLen) : argSize args + pgSize + 8 ≤ ustackSize := by
  have hsum := strSize_le hnum hlen
  have hsize : execMaxArgNum * (execMaxArgLen + 1) + 8 * (execMaxArgNum + 1) + pgSize + 8 ≤
    ustackSize := by decide
  unfold argSize
  omega

section Theorems

variable {s t : LoadState A} {args : List (List UInt8)}

/-- **When is the image of a program exact?** Whenever `load_icode` returns `0`, each address of
each segment is mapped with the rights of the segment and holds the byte of the file, or zero, iff
there was memory for the program headers and each segment that is not empty is loadable.

**Proof sketch.** A segment that wraps around has addresses that are not the user's, so that both
sides are false. Otherwise the run has built the images of all segments, and the arguments only
change the stack. -/
theorem load_icode_exact_iff (hinv : VmInv al ⟨s.as.pm, D⟩)
    (hboot : ∀ k < 2, pteValid (boot k) = false) (hnum : args.length ≤ execMaxArgNum)
    (hlen : ∀ arg ∈ args, arg.length ≤ execMaxArgLen)
    (hrun : loadIcode al file boot args s = .ok (.ok (), t)) :
    (∀ ph ∈ progHdrs file, ph.pType = elfPtLoad → SegExact file ph t) ↔
      ∀ ph ∈ progHdrs file, ph.pType = elfPtLoad → ph.pMemsz ≠ 0 → headersGranted s = true ∧
      ph.Loadable := by
  have hbound := argSize_le hnum hlen
  rcases loadIcode_cases hinv hboot with ⟨r, hr, hQ⟩ | ⟨hg, D', d, s₁, himage, hgo⟩
  · -- nothing has been loaded
    obtain ⟨hg, hl⟩ := hQ t ((hr args).symm.trans hrun)
    refine forall_congr' fun ph => forall_congr' fun _ => forall_congr' fun _ =>
      ⟨fun hex hpos => ?_, fun hcond a h1 h2 => ?_⟩
    · obtain ⟨hc, -⟩ := hex ph.pVa le_rfl (by omega)
      rw [hl] at hc
      cases hc
    · have hc := (hcond (by omega)).1
      rw [hg] at hc
      cases hc
  by_cases hwrap : ∀ ph ∈ progHdrs file, ph.pType = elfPtLoad → ph.pVa + ph.pMemsz < 2 ^ 64
  · rw [hgo args] at hrun
    rcases loadProgram_cases himage hwrap with ⟨r, hr, hQ⟩ | ⟨s₂, h1, h2, h3, hl, hgo'⟩
    · exact absurd ((hr args).symm.trans hrun) (hQ t)
    rw [hgo' args] at hrun
    have hargs := loadArgs_ready args h2 hbound
    split_ifs at hargs
    · obtain ⟨t', e, h4, -, -, hlow, hl', -⟩ := hargs
      cases e.symm.trans hrun
      refine forall_congr' fun ph => forall_congr' fun hph => forall_congr' fun htype => ?_
      obtain ⟨hfit, hseg, -⟩ := h1.segs ph hph htype
      have hseg' := hseg.of_low (h3 ph hph htype) h4.pgdir hlow
      refine ⟨fun hex hpos => ⟨hg, hwrap ph hph htype, ?_⟩, fun hcond a k1 k2 => ?_⟩
      · exact (lastPage_iff hpos).mp ((segExact_iff hseg' hfit (hl'.trans hl) hpos).mp hex)
      · have hpos : ph.pMemsz ≠ 0 := by omega
        exact (segExact_iff hseg' hfit (hl'.trans hl) hpos).mpr
          ((lastPage_iff hpos).mpr (hcond hpos).2.2) a k1 k2
    · cases hargs.symm.trans hrun
  · -- a segment wraps around
    simp only [not_forall, not_lt] at hwrap
    obtain ⟨ph, hph, htype, hge⟩ := hwrap
    have hva : ph.pVa < 2 ^ 64 := by
      obtain ⟨i, -, rfl⟩ := mem_map.mp hph
      exact Bytes.get64_lt file _
    have htop : userTop < 2 ^ 64 := by decide
    refine iff_of_false (fun hex => ?_) fun hcond => ?_
    · obtain ⟨-, hc, -⟩ := hex ph hph htype (max ph.pVa userTop) (le_max_left _ _) (by omega)
      omega
    · have hc := (hcond ph hph htype (by omega)).2.1
      omega

end Theorems

/-! ## The arguments -/

/-- **The arguments are on the stack**, at the address in `sp` and `a1`: `argc` pointers and a null
pointer, and above them the strings, in their order. -/
structure ArgBlock (args : List (List UInt8)) (t : LoadState A) : Prop where
  loaded : t.loaded = true
  argc : t.tf.a0 = args.length
  argv : t.tf.a1 = t.tf.sp
  aligned : t.tf.sp % 8 = 0
  inside : ustackTop - ustackSize ≤ t.tf.sp
  mapped : ∀ a, t.tf.sp ≤ a → a < ustackTop → ∃ b, t.as.pm.byte t.as.mm.pgdir a = some (pteUser, b)
  null : (t.as.pm.userMem t.as.mm.pgdir).get64 (t.tf.sp + 8 * args.length) = 0
  layout : ∃ ptr : ℕ → ℕ,
    (∀ i < args.length, (t.as.pm.userMem t.as.mm.pgdir).get64 (t.tf.sp + 8 * i) = ptr i ∧
      t.tf.sp + 8 * (args.length + 1) ≤ ptr i ∧ ptr i + ((args.getD i []).length + 1) ≤ ustackTop ∧
      ∀ k ≤ (args.getD i []).length, t.as.pm.byte t.as.mm.pgdir (ptr i + k) =
        some (pteUser, (args.getD i [] ++ [0]).getD k 0)) ∧
    ∀ i j, i < j → j < args.length → ptr i + ((args.getD i []).length + 1) ≤ ptr j

section ArgTheorems

variable {s t t₀ : LoadState A} {args : List (List UInt8)}

/-- **The state in which the arguments are stored** is the same for all arguments. -/
lemma loadIcode_args (hinv : VmInv al ⟨s.as.pm, D⟩) (hboot : ∀ k < 2, pteValid (boot k) = false)
    (hwrap : ∀ ph ∈ progHdrs file, ph.pType = elfPtLoad → ph.pVa + ph.pMemsz < 2 ^ 64)
    (hrun : loadIcode al file boot args s = .ok (.ok (), t)) :
    (headersGranted s = false ∧ t.loaded = false ∧
      ∀ args', loadIcode al file boot args' s = .ok (.ok (), t)) ∨
    headersGranted s = true ∧ ∃ D' d s₂, StackReady al D' d s₂.as ∧ s₂.loaded = true ∧
      ∀ args', loadIcode al file boot args' s = loadArgs al args' s₂ := by
  rcases loadIcode_cases hinv hboot with ⟨r, hr, hQ⟩ | ⟨hg, D', d, s₁, himage, hgo⟩
  · obtain rfl := (hr args).symm.trans hrun
    obtain ⟨hg, hl⟩ := hQ t rfl
    exact .inl ⟨hg, hl, hr⟩
  · rw [hgo args] at hrun
    rcases loadProgram_cases himage hwrap with ⟨r, hr, hQ⟩ | ⟨s₂, -, h2, -, hl, hgo'⟩
    · exact absurd ((hr args).symm.trans hrun) (hQ t)
    · exact .inr ⟨hg, D', d, s₂, h2, hl, fun args' => (hgo args').trans (hgo' args')⟩

/-- **The arguments that have been stored.** -/
lemma argBlock_of_ready (h : StackReady al D d t.as) (hstr : StringsAt d t.as.pm args)
    (hwords : ∀ i ≤ args.length, (t.as.pm.userMem d).get64 (argSp args + 8 * i) =
      (argPtrs args ++ [0]).getD i 0)
    (hbound : argSize args + pgSize + 8 ≤ ustackSize) (hfit : argSize args ≤ 4 * pgSize)
    (hl : t.loaded = true) (hsp : t.tf.sp = argSp args) (h0 : t.tf.a0 = args.length)
    (h1 : t.tf.a1 = argSp args) : ArgBlock args t := by
  obtain ⟨halign, hend, hstart, hlow⟩ := argSp_spec hbound
  have hsize : argSize args = strSize args + 8 * (args.length + 1) := rfl
  have hdrop : ∀ i, strSize (args.drop i) ≤ strSize args :=
    fun i => strSize_drop_anti args (Nat.zero_le i)
  have hd := h.pgdir
  refine ⟨hl, h0, h1.trans hsp.symm, hsp ▸ halign, by omega, fun a k1 k2 => ?_, ?_,
    fun i => ustackTop - strSize (args.drop i), fun i hi => ⟨?_, ?_, ?_, fun k hk => ?_⟩,
    fun i j hij hj => ?_⟩
  · rw [hd]
    exact h.mapped a ((hlow.mpr hfit).trans (hsp ▸ k1)) k2
  · rw [hd, hsp, hwords _ le_rfl, getD_append_right _ _ _ _ (by rw [argPtrs_length]),
      argPtrs_length, Nat.sub_self]
    rfl
  · rw [hd, hsp, hwords i hi.le, getD_append _ _ _ _ (by rw [argPtrs_length]; exact hi),
      argPtrs_getD args hi]
  · have := hdrop i
    show t.tf.sp + 8 * (args.length + 1) ≤ ustackTop - strSize (args.drop i)
    omega
  · have h2 := strSize_drop args hi
    have h3 := hdrop i
    show ustackTop - strSize (args.drop i) + _ ≤ ustackTop
    omega
  · rw [hd]
    exact hstr.byte hi hk
  · have h2 := strSize_drop args (hij.trans hj)
    have h3 : strSize (args.drop j) ≤ strSize (args.drop (i + 1)) := strSize_drop_anti args hij
    have h4 := hdrop i
    show ustackTop - strSize (args.drop i) + _ ≤ ustackTop - strSize (args.drop j)
    omega

/-- **When are the arguments on the stack?** For a program that loads without arguments,
`load_icode` returns `0` with the arguments on the stack iff there was memory for the program
headers and the strings and pointers fit into the four pages of the stack that are mapped. -/
theorem load_icode_args_iff (hinv : VmInv al ⟨s.as.pm, D⟩)
    (hboot : ∀ k < 2, pteValid (boot k) = false)
    (hwrap : ∀ ph ∈ progHdrs file, ph.pType = elfPtLoad → ph.pVa + ph.pMemsz < 2 ^ 64)
    (hnum : args.length ≤ execMaxArgNum) (hlen : ∀ arg ∈ args, arg.length ≤ execMaxArgLen) :
    (∀ t, loadIcode al file boot args s = .ok (.ok (), t) →
      ∃ t₀, loadIcode al file boot [] s = .ok (.ok (), t₀)) ∧
    ∀ t₀, loadIcode al file boot [] s = .ok (.ok (), t₀) →
      ((∃ t, loadIcode al file boot args s = .ok (.ok (), t) ∧ ArgBlock args t) ↔
        headersGranted s = true ∧ argSize args ≤ 4 * pgSize) := by
  have hbound := argSize_le hnum hlen
  refine ⟨fun t hrun => ?_, fun t₀ hrun => ?_⟩
  · rcases loadIcode_args hinv hboot hwrap hrun with ⟨-, -, hall⟩ | ⟨-, D', d, s₂, h2, -, hgo⟩
    · exact ⟨t, hall []⟩
    · have hnil := loadArgs_ready [] h2 (by decide)
      rw [if_pos (by decide)] at hnil
      obtain ⟨t₀, e, -⟩ := hnil
      exact ⟨t₀, (hgo []).trans e⟩
  · rcases loadIcode_args hinv hboot hwrap hrun with ⟨hg, hl, hall⟩ | ⟨hg, D', d, s₂, h2, hl, hgo⟩
    · refine iff_of_false (fun hc => ?_) fun hc => ?_
      · obtain ⟨t, e, hblock⟩ := hc
        cases (hall args).symm.trans e
        rw [hblock.loaded] at hl
        cases hl
      · rw [hg] at hc
        cases hc.1
    · have hargs := loadArgs_ready args h2 hbound
      split_ifs at hargs with hfit
      · obtain ⟨t, e, h3, h4, h5, -, h6, h7, h8, h9⟩ := hargs
        exact iff_of_true ⟨t, (hgo args).trans e,
          argBlock_of_ready h3 h4 h5 hbound hfit (h6.trans hl) h7 h8 h9⟩ ⟨hg, hfit⟩
      · refine iff_of_false (fun hc => ?_) fun hc => hfit hc.2
        obtain ⟨t, e, -⟩ := hc
        rw [hgo args, hargs] at e
        cases e

end ArgTheorems

/-! ## A small program -/

/-- A file with one segment at `0x7FE00800`, which has no bytes in the file. -/
def bssElf (memsz : ℕ) : Bytes := fun i =>
  ([0x7F, 0x45, 0x4C, 0x46] ++ List.replicate 28 0 ++ Bytes.le64 64 ++ List.replicate 16 0 ++ [1] ++
    List.replicate 7 0 ++ [1, 0, 0, 0, 6, 0, 0, 0] ++ Bytes.le64 0 ++ Bytes.le64 0x7FE00800 ++
    Bytes.le64 0 ++ Bytes.le64 0 ++ Bytes.le64 memsz).getD i 0

/-- The header of the segment. -/
def bssPh (memsz : ℕ) : ProgHdr := ⟨elfPtLoad, 6, 0, 0x7FE00800, 0, memsz⟩

/-- An allocator of sixteen frames. -/
def sixteenFrames : FrameAllocator (Finset ℕ) where
  free a := a.filter (· < 16)
  alloc a := if h : (a.filter (· < 16)).Nonempty then
    some ((a.filter (· < 16)).min' h, a.erase ((a.filter (· < 16)).min' h)) else none
  release p a := insert p a
  npage := 16
  npage_le := by decide
  lt_npage a p hp := (mem_filter.mp hp).2
  alloc_free a p a' h := by
    split_ifs at h with hne
    cases h
    exact ⟨Finset.min'_mem _ hne, Finset.filter_erase ..⟩
  release_free a p hp _ := by rw [Finset.filter_insert, if_pos hp]

/-- Sixteen free frames, and no address space yet. -/
def sixteenFree : LoadState (Finset ℕ) where
  as := ⟨⟨fun _ _ => 0, fun _ => 0, Finset.range 16, []⟩, mmCreate, [], fun _ => 0⟩
  loaded := false
  tf := ⟨0, 0, 0, 0, 0⟩
  reads := []

lemma sixteenFree_inv : VmInv sixteenFrames ⟨sixteenFree.as.pm, ∅⟩ := by
  refine Vm.Initial.inv ⟨fun d hd => absurd hd (notMem_empty d),
    fun d hd => absurd hd (notMem_empty d), fun _ _ => rfl⟩

/-- The page directory is the first frame. -/
def sixteenStarted : LoadState (Finset ℕ) where
  as := ⟨({ sixteenFree.as.pm with alloc := (Finset.range 16).erase 0 }).setFrame 0 fun _ => 0,
    { mmCreate with pgdir := 0 }, [], update (update (fun _ => 0) .mm 1) .headers 1⟩
  loaded := false
  tf := ⟨0, 0, 0, 0, 0⟩
  reads := []

/-- `load_icode` comes to the program headers with `sixteenStarted`. -/
lemma sixteenStarted_loads (hmagic : (elfHdr file).eMagic = elfMagic)
    (hphoff : (elfHdr file).ePhoff < 2 ^ 63) (args : List (List UInt8)) :
    loadIcode sixteenFrames file (fun _ => 0) args sixteenFree =
      loadProgram sixteenFrames file args sixteenStarted := by
  change (if (elfHdr file).eMagic ≠ elfMagic then badElfCleanupPgdir sixteenFrames
    (.error .invalElf) else loadHeaders sixteenFrames file args)
      { sixteenStarted with as := { sixteenStarted.as with heap := update (fun _ => 0) .mm 1 } } = _
  have hread : loadIcodeRead (elfHdr file).ePhoff sixteenStarted =
      .ok (.ok (), sixteenStarted) := by
    rw [loadIcodeRead, if_neg (Nat.not_le_of_lt hphoff)]
    rfl
  rw [if_neg (not_not.mpr hmagic), loadHeaders]
  exact bind_of_ok hread _

lemma sixteenStarted_image (file : Bytes) :
    Image sixteenFrames {0} 0 file [] sixteenStarted.as := by
  obtain ⟨-, hown, hempty⟩ := setupPgdir_post sixteenFree_inv (fun _ _ => pteValid_zero) (some 0)
    sixteenStarted.as.pm rfl 0 rfl
  refine ⟨hown, rfl, ⟨.nil, fun _ hc => nomatch hc⟩, fun v hv hvalid => ?_,
    fun ph hph => absurd hph not_mem_nil⟩
  rw [hempty v hv, pteValid_zero] at hvalid
  cases hvalid

/-- **The small programs load** into sixteen frames. -/
lemma bss_sixteen {memsz : ℕ} (hm : memsz = 0x800 ∨ memsz = 0x1000) :
    ∃ D' d s₂, StackReady sixteenFrames D' d s₂.as ∧ s₂.loaded = true ∧
      Image sixteenFrames D' d (bssElf memsz) [bssPh memsz] s₂.as ∧
      progHdrs (bssElf memsz) = [bssPh memsz] ∧ ∀ args, loadIcode sixteenFrames (bssElf memsz)
      (fun _ => 0) args sixteenFree =
        loadArgs sixteenFrames args s₂ := by
  have hrun : ((elfHdr (bssElf memsz)).eMagic = elfMagic ∧
    (elfHdr (bssElf memsz)).ePhoff < 2 ^ 63) ∧
      (progHdrs (bssElf memsz) = [bssPh memsz] ∧
        (bssPh memsz).pVa + (bssPh memsz).pMemsz < 2 ^ 64) ∧
      (loadImage sixteenFrames (bssElf memsz) sixteenStarted).toOption.map Prod.fst =
      some (.ok ()) := by
    obtain rfl | rfl := hm <;> decide +kernel
  obtain ⟨⟨hmagic, hphoff⟩, ⟨hphs, hwrap⟩, hload⟩ := hrun
  obtain ⟨t, hload⟩ := exists_of_result hload
  obtain ⟨s₂, h1, h2, -, h3, hgo⟩ := loadProgram_of_image (sixteenStarted_image (bssElf memsz))
    (by rw [hphs]; exact fun ph hph _ => by rw [List.mem_singleton.mp hph]; exact hwrap) hload
  exact ⟨{0}, 0, s₂, h2, h3, by rw [← hphs]; exact h1, hphs,
    fun args => (sixteenStarted_loads hmagic hphoff args).trans (hgo args)⟩

/-- Half a page of zeros at the end of a page is loaded exactly. -/
theorem load_icode_exact_halfPage : ∃ t,
    loadIcode sixteenFrames (bssElf 0x800) (fun _ => 0) [] sixteenFree = .ok (.ok (), t) ∧
      ∀ ph ∈ progHdrs (bssElf 0x800), ph.pType = elfPtLoad → SegExact (bssElf 0x800) ph t := by
  obtain ⟨D', d, s₂, hready, hl, himage, hphs, hgo⟩ := bss_sixteen (.inl rfl)
  have hargs := loadArgs_ready [] hready (by decide)
  rw [if_pos (by decide)] at hargs
  obtain ⟨t, e, -⟩ := hargs
  refine ⟨t, (hgo []).trans e, (load_icode_exact_iff sixteenFree_inv (fun _ _ => pteValid_zero)
    (by decide) (fun _ h => absurd h not_mem_nil) ((hgo []).trans e)).mpr fun ph hph _ _ => ?_⟩
  rw [hphs, List.mem_singleton] at hph
  subst hph
  decide

/-- A page of zeros from the middle of a page on: the second half is not mapped. -/
theorem load_icode_exact_fails : ∃ t,
    loadIcode sixteenFrames (bssElf 0x1000) (fun _ => 0) [] sixteenFree = .ok (.ok (), t) ∧
      t.loaded = true ∧ bssPh 0x1000 ∈ progHdrs (bssElf 0x1000) ∧ ¬SegExact (bssElf 0x1000)
      (bssPh 0x1000) t := by
  obtain ⟨D', d, s₂, hready, hl, himage, hphs, hgo⟩ := bss_sixteen (.inr rfl)
  have hargs := loadArgs_ready [] hready (by decide)
  rw [if_pos (by decide)] at hargs
  obtain ⟨t, e, h1, -, -, hlow, hl', -⟩ := hargs
  obtain ⟨hfit, hseg, -⟩ := himage.segs _ mem_cons_self rfl
  have hbelow : ∀ a, (bssPh 0x1000).pVa ≤ a → a < (bssPh 0x1000).pVa + (bssPh 0x1000).pMemsz →
      a < ustackTop - ustackSize := fun a _ h2 => h2.trans (by decide)
  refine ⟨t, (hgo []).trans e, hl'.trans hl, by rw [hphs]; exact mem_cons_self, fun hex => ?_⟩
  exact absurd ((segExact_iff (hseg.of_low hbelow h1.pgdir hlow) hfit (hl'.trans hl) (by decide)).mp
    hex) (by decide)

/-- One argument. -/
theorem load_icode_args_one : ∃ t,
    loadIcode sixteenFrames (bssElf 0x800) (fun _ => 0) [[97]] sixteenFree = .ok (.ok (), t) ∧
      ArgBlock [[97]] t := by
  obtain ⟨D', d, s₂, hready, hl, himage, hphs, hgo⟩ := bss_sixteen (.inl rfl)
  have hargs := loadArgs_ready [] hready (by decide)
  rw [if_pos (by decide)] at hargs
  obtain ⟨t₀, e, -⟩ := hargs
  refine ((load_icode_args_iff sixteenFree_inv (fun _ _ => pteValid_zero) ?_ (by decide)
    (by decide)).2 t₀ ((hgo []).trans e)).mpr ⟨rfl, by decide⟩
  rw [hphs]
  decide

/-- Five arguments of the greatest length. -/
def fiveArgs : List (List UInt8) := List.replicate 5 (List.replicate execMaxArgLen 97)

lemma fiveArgs_size :
    ¬argSize fiveArgs ≤ 4 * pgSize ∧ argSize fiveArgs + pgSize + 8 ≤ ustackSize := by
  have hlen : fiveArgs.length = 5 := length_replicate
  have hstr : strSize fiveArgs = 5 * (execMaxArgLen + 1) := by
    rw [fiveArgs, strSize, map_replicate, sum_replicate_nat, length_replicate]
  unfold argSize
  rw [hlen, hstr]
  decide

/-- Five arguments of the greatest length: the program loads without them, and a store does not
complete with them. -/
theorem load_icode_args_five : (∃ t,
      loadIcode sixteenFrames (bssElf 0x800) (fun _ => 0) [] sixteenFree = .ok (.ok (), t) ∧
      t.loaded = true) ∧
    loadIcode sixteenFrames (bssElf 0x800) (fun _ => 0) fiveArgs sixteenFree = .error .fault := by
  obtain ⟨D', d, s₂, hready, hl, himage, hphs, hgo⟩ := bss_sixteen (.inl rfl)
  have hnil := loadArgs_ready [] hready (by decide)
  obtain ⟨hbig, hbound⟩ := fiveArgs_size
  generalize fiveArgs = args at hbig hbound ⊢
  have hfive := loadArgs_ready args hready hbound
  rw [if_pos (by decide)] at hnil
  rw [if_neg hbig] at hfive
  obtain ⟨t, e, -, -, -, -, hl', -⟩ := hnil
  exact ⟨⟨t, (hgo []).trans e, hl'.trans hl⟩, (hgo _).trans hfive⟩

end Ucore

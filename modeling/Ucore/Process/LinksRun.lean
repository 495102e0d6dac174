import Ucore.Process.LinksInv
import Ucore.Process.Timers

set_option autoImplicit false

/-!
# Runs of the kernel with the pointers

`do_fork`, `do_exit` and `do_wait` with pointers do what the functions on lists do. So every run of
the kernel with pointers is one of the kernel, and the table of processes and the pointers between
them are in order in every state that it reaches.

## Main definitions

* `SameFamily` — a change that leaves the families.
* `ProcsCounted` — the number of processes, and the pid of `idleproc`.
* `TableOk` — the table of processes and the pointers between them are in order.

## Main results

* `exec_mirrors` — every step with pointers does what the step of the kernel does.
* `process_table_ok` — the table is in order in every state reached.
-/

namespace Ucore

open Function Comp Option

/-! ## Wake-ups -/

/-- The families, the pids and the current process are the same. -/
def SameFamily (s t : Kernel) : Prop := SameKin s t ∧ t.current = s.current

instance : Std.Refl SameFamily := ⟨fun s => ⟨SameKin.refl s, rfl⟩⟩

instance : IsTrans Kernel SameFamily := ⟨fun _ _ _ h h' => ⟨h.1.trans h'.1, h'.2.trans h.2⟩⟩

variable {cls : SchedClass} {I : SchedState → Prop} {s t : Kernel} {F : Ptrs}

/-- **`wakeup_proc`** does not concern the families. -/
lemma SameFamily.wakeupProc (p : ℕ) : Within SameFamily (wakeupProc cls p) := by
  intro s
  refine (getProc_post p s).bind fun q t ht => ?_
  obtain ⟨rfl, hq⟩ := ht
  refine Post.ensure_bind fun hz => Post.ite (fun _ => ?_) fun _ => Post.pure (Std.Refl.refl t)
  have hwake : SameFamily t (t.modProc p Proc.wake) := by
    refine ⟨{ SameKin.refl t with kin := kin_modProc fun q' hq' => ?_ }, rfl⟩
    cases hq.symm.trans hq'
    simp [Proc.kin, Proc.wake, hz]
  refine .modify_bind (.read_bind (.ite (fun _ => ?_) fun _ => .pure hwake))
  refine .read_bind (.ite (fun _ => ?_) fun _ => .pure hwake)
  refine (liftSched_post _ _).mono fun _ v hv => ?_
  obtain ⟨sch, rfl⟩ := hv
  exact ⟨{ SameKin.refl t with kin := hwake.1.kin }, rfl⟩

lemma SameFamily.wakeWaiting (p : ℕ) : Within SameFamily (wakeWaiting cls p) :=
  .bind (getProc_within p) fun _ => .ite (.wakeupProc p) (.pure _)

lemma SameFamily.wakeInit (c : ℕ) : Within SameFamily (wakeInit cls c) :=
  .bind (getProc_within c) fun _ => .read_bind fun _ =>
    .ite (.wakeWaiting _) (.pure _)

lemma SameFamily.wakeParent (parent : Option ℕ) : Within SameFamily (wakeParent cls parent) := by
  cases parent with
  | none => exact .halt _
  | some p => exact .wakeWaiting p

/-! ## `do_exit` -/

section Exit

variable {dying : Option ℕ} {k : Kin}

lemma Chained.of_same {t : Kernel} (h : Chained dying s.kin F) (hk : SameKin s t) :
    Chained dying t.kin F := h.congr fun p => by rw [hk.kin]

lemma Linked.reparent_none {fuel : ℕ} (h : F.cptr s.current = none) :
    Linked.reparent cls (fuel + 1) ⟨s, F⟩ = (pure () : LKern Unit) ⟨s, F⟩ := by
  rw [Linked.reparent, read_bind_apply]
  rw [h]

/-- One round of the loop. -/
lemma Linked.reparent_some {fuel c : ℕ} (h : F.cptr s.current = some c) :
    Linked.reparent cls (fuel + 1) ⟨s, F⟩ = (do
      Linked.onKernel (Comp.modify fun k => k.moveChild c (k.kids k.current).tail)
      Linked.onPtrs (·.moveChild s.current s.initproc c)
      Linked.onKernel (wakeInit cls c)
      Linked.reparent cls fuel : LKern Unit) ⟨s, F⟩ := by
  rw [Linked.reparent, read_bind_apply]
  rw [h]

/-- **The loop of `do_exit`.**

**Proof sketch.** Induction on the children that are left. The pointer to the first one leads to the
first element of the list; one round moves it to `initproc`, on both sides. -/
lemma reparent_mirrors (l : List ℕ) (fuel : ℕ)
    (ht : Tree s.idleproc s.initproc (some s.current) s.kin) (h : Chained (some s.current) s.kin F)
    (hd : s.kin s.current = some k) (hdi : s.current ≠ s.initproc) (hci : s.current ≠ s.idleproc)
    (hch : k.children = l) (hf : l.length < fuel) :
    Mirrors (Linked.reparent cls fuel) (reparent cls l) s F
      fun _ t F' => Chained none t.kin F' := by
  induction l generalizing s F k fuel with
  | nil =>
    obtain ⟨fuel, rfl⟩ : ∃ n, fuel = n + 1 := ⟨fuel - 1, by omega⟩
    obtain ⟨y, -, hl⟩ := h _ k hd
    rw [hch] at hl
    exact (Mirrors.pure (h.finish hd hch)).congr_left (Linked.reparent_none hl.head_eq)
  | cons c l ih =>
    obtain ⟨fuel, rfl⟩ : ∃ n, fuel = n + 1 := ⟨fuel - 1, by omega⟩
    obtain ⟨y, -, hl⟩ := h _ k hd
    rw [hch] at hl
    obtain ⟨kc, ki, hkc, hki, hdc, hcinit, hK⟩ := moveChild_kin ht hd hdi hci hch
    obtain ⟨qd, hqd, rfl⟩ := kin_eq_some.mp hd
    have htree := ht.move hd hdi hch hki hkc hcinit hK
    have hchain := h.move ht hd hdi hch hki hkc hcinit hK
    have hkids : (s.kids s.current).tail = l := by
      have hch' : qd.children = c :: l := hch
      simp [Kernel.kids, hqd, hch']
    have hmod : Post (Comp.modify fun k => k.moveChild c (k.kids k.current).tail : Kern Unit) s
        fun _ t => t = s.moveChild c l := .modify (by rw [hkids])
    have hsame : (Comp.modify fun k => k.moveChild c (k.kids k.current).tail : Kern Unit) s =
        (Comp.modify (·.moveChild c l) : Kern Unit) s := by
      rw [modify_apply, modify_apply, hkids]
    refine Mirrors.congr_left ?_ (Linked.reparent_some hl.head_eq)
    refine Mirrors.bind (((Mirrors.onKernel hmod).congr hsame)) fun _ t F' ht' => ?_
    obtain ⟨rfl, rfl⟩ := ht'
    refine Mirrors.onPtrs_bind (Mirrors.onKernel_bind (SameFamily.wakeInit c _) fun _ t hs => ?_)
    have hcur : t.current = s.current := hs.2
    refine ih (k := { qd.kin with children := l }) fuel ?_ ?_ ?_ ?_ ?_ rfl ?_
    · rw [hcur, hs.1.idleproc, hs.1.initproc, funext hs.1.kin]
      exact htree
    · rw [hcur, funext hs.1.kin]
      exact hchain
    · rw [hcur, hs.1.kin, hK, update_of_ne hdi, update_of_ne hdc, update_self]
    · rw [hcur, hs.1.initproc]
      exact hdi
    · rw [hcur, hs.1.idleproc]
      exact hci
    · rw [List.length_cons] at hf
      omega

lemma Links.length_le (h : Links dying s) {p : ℕ} (hp : s.kin p = some k) :
    k.children.length ≤ s.procList.length := by
  refine (List.subperm_of_subset (h.tree.nodup p k hp) fun c hc => ?_).length_le
  obtain ⟨kc, h1, h2⟩ := (h.tree.child p k hp c).mp hc
  refine (h.pids.listed c).mpr ⟨?_, h.tree.ne_idle h1 h2⟩
  rw [PidTable.pidOf_eq, h1]
  exact some_ne_none _

/-- **`do_exit` with pointers.** -/
lemma doExit_mirrors (hl : Live I s) (hsw : s.switching = false) (hcont : s.conts s.current ≠ .kbd)
    (h : Chained none s.kin F) (code : ℤ) :
    Mirrors (Linked.doExit cls code) (doExit cls code) s F fun _ t F' => Chained none t.kin F' := by
  refine Mirrors.read_bind (Mirrors.ensure_bind fun hi => Mirrors.ensure_bind fun hinit =>
    .onKernel_bind (getProc_post _ _) fun q t ht => ?_)
  obtain ⟨rfl, hq⟩ := ht
  have hk : t.kin t.current = some q.kin := kin_eq_some.mpr ⟨q, hq, rfl⟩
  obtain ⟨-, hlinks, ⟨kd, hkd, hch⟩, -⟩ := died_spec hl hsw hcont hi hinit hk code
  have hdied : Chained (some t.current) (t.died code).kin F := by
    have hsome : Chained (some t.current) t.kin F := fun p k hp => by
      obtain ⟨y, hy, hd⟩ := h p k hp
      exact ⟨y, fun _ => hy (by simp), hd⟩
    refine hsome.congr fun p => ?_
    have e : (t.died code).kin = update t.kin t.current (some (q.die code).kin) :=
      kin_modProc_eq hq rfl
    rw [e]
    by_cases hp : p = t.current
    · rw [hp, update_self, hk]
      rfl
    · rw [update_of_ne hp]
  refine .modify_bind (.onKernel_bind (SameFamily.wakeParent q.parent (t.died code))
    fun _ u hs => ?_)
  have hcur : u.current = t.current := hs.2
  refine reparent_mirrors q.children _ (k := kd) ?_ ?_ ?_ ?_ ?_ hch ?_
  · rw [hcur]
    exact (hlinks.of_same hs.1).tree
  · rw [hcur]
    exact hdied.of_same hs.1
  · rw [hcur, hs.1.kin, hkd]
  · rw [hcur, hs.1.initproc]
    exact hinit
  · rw [hcur, hs.1.idleproc]
    exact hi
  · exact Nat.lt_succ_of_le (hl.family.toLinks.length_le hk)

end Exit

/-! ## The number of processes -/

/-- **`nr_process` counts the listed processes and `idleproc`**, whose pid is 0. -/
structure ProcsCounted (s : Kernel) : Prop where
  count : s.nrProcess = s.procList.length + 1
  idle : s.pidOf s.idleproc = some 0

/-- The table of processes is the same. -/
def SameTable (s t : Kernel) : Prop :=
  t.procList = s.procList ∧ t.nrProcess = s.nrProcess ∧ t.idleproc = s.idleproc ∧
    ∀ p, t.pidOf p = s.pidOf p

instance : Std.Refl SameTable := ⟨fun _ => ⟨rfl, rfl, rfl, fun _ => rfl⟩⟩

instance : IsTrans Kernel SameTable := ⟨fun _ _ _ h h' => ⟨h'.1.trans h.1, h'.2.1.trans h.2.1,
  h'.2.2.1.trans h.2.2.1, fun p => (h'.2.2.2 p).trans (h.2.2.2 p)⟩⟩

lemma sameTable_frame : ProcFrame SameTable where
  modProc s p f hf := by
    refine ⟨rfl, rfl, rfl, fun x => ?_⟩
    by_cases hx : x = p
    · subst hx
      cases hq : s.procs x with
      | none => simp [Kernel.pidOf, Kernel.modProc, hq]
      | some q => simp [Kernel.pidOf, Kernel.modProc, hq, hf]
    · rw [Kernel.pidOf, modProc_of_ne hx, Kernel.pidOf]
  rest _ _ h _ h1 h2 h3 := ⟨h1, h2, h3, fun p => by rw [Kernel.pidOf, h, Kernel.pidOf]⟩

lemma ProcsCounted.of_table (h : ProcsCounted s) (ht : SameTable s t) : ProcsCounted t := by
  refine ⟨?_, ?_⟩
  · rw [ht.2.1, ht.1, h.count]
  · rw [ht.2.2.1, ht.2.2.2, h.idle]

lemma SameKin.table (h : SameKin s t) : SameTable s t :=
  ⟨h.procList, h.nrProcess, h.idleproc,
    fun p => by rw [PidTable.pidOf_eq, h.kin, PidTable.pidOf_eq]⟩

/-! ## `do_wait` -/

section Wait

variable {p : ℕ}

/-- The search along the pointers finds what the search in the list finds. -/
lemma findZombie_eq {l : List ℕ} {y h : Option ℕ} (fuel : ℕ) (hl : Dll F.optr F.yptr y l h)
    (hf : l.length < fuel) : Linked.findZombie ⟨s, F⟩ fuel h = some (l.find? s.isZombie) := by
  induction l generalizing y h fuel with
  | nil =>
    obtain ⟨fuel, rfl⟩ : ∃ n, fuel = n + 1 := ⟨fuel - 1, by omega⟩
    rw [hl.head_eq]
    rfl
  | cons a l ih =>
    rw [List.length_cons] at hf
    obtain ⟨fuel, rfl⟩ : ∃ n, fuel = n + 1 := ⟨fuel - 1, by omega⟩
    rw [hl.1, Linked.findZombie]
    cases hz : s.isZombie a with
    | true => simp [hz]
    | false =>
      rw [ih _ hl.rest (by omega)]
      simp [hz]

/-- **The search of `do_wait`.** -/
lemma waitFor_eq (hl : Live I s) (h : Chained none s.kin F) (pid : ℤ) :
    Linked.waitFor ⟨s, F⟩ pid = some (s.waitFor pid) := by
  unfold Linked.waitFor
  by_cases h0 : pid ≠ 0
  · rw [if_pos h0]
  · obtain ⟨q, hq⟩ := ne_none_iff_exists'.mp hl.kinv.cur
    have hk : s.kin s.current = some q.kin := kin_eq_some.mpr ⟨q, hq, rfl⟩
    obtain ⟨y, -, hd⟩ := h _ _ hk
    have hfind : _ = some (q.children.find? s.isZombie) := findZombie_eq (s := s)
      (Linked.fuel ⟨s, F⟩) hd (Nat.lt_succ_of_le (hl.family.toLinks.length_le hk))
    have hhead : F.cptr s.current = q.children.head? := hd.head_eq
    unfold Kernel.waitFor
    rw [if_neg h0, if_neg h0, hq]
    dsimp only
    rw [hfind, hhead]
    cases q.children.find? s.isZombie with
    | some p | none => simp

/-- The label `found` of `do_wait`. -/
lemma reap_mirrors {q : Proc} (hq : s.procs p = some q) (hpar : q.parent = some s.current) :
    Mirrors (Linked.reap p) (reap p) s F fun _ t F' =>
      t = (s.unlinked p q.pid).freed p ∧ F' = F.removeLinks p s.current := by
  refine .read_bind (.ensure_bind fun _ => .onKernel_bind (getProc_post _ _)
    fun q' t ht => ?_)
  obtain ⟨rfl, hq'⟩ := ht
  cases hq.symm.trans hq'
  rw [hpar]
  refine .modify_bind (.bind (R := fun _ u F' => u = t.unlinked p q.pid ∧
    F' = F.removeLinks p t.current) (.modify_both ⟨rfl, rfl⟩) fun _ u F' hu => ?_)
  obtain ⟨rfl, rfl⟩ := hu
  exact .modify_bind (.pure ⟨rfl, rfl⟩)

/-- A process is reaped: the pointers and the counter. -/
lemma reaped_table {q qc : Proc} (hl : Links none s) (hqc : s.procs s.current = some qc)
    (h : Chained none s.kin F) (hn : ProcsCounted s) (hq : s.procs p = some q)
    (hpar : q.parent = some s.current) : Chained none ((s.unlinked p q.pid).freed p).kin
      (F.removeLinks p s.current) ∧ ProcsCounted ((s.unlinked p q.pid).freed p) := by
  have hk : s.kin p = some q.kin := kin_eq_some.mpr ⟨q, hq, rfl⟩
  have hkc : s.kin s.current = some qc.kin := kin_eq_some.mpr ⟨qc, hqc, rfl⟩
  have hpi : p ≠ s.idleproc := hl.tree.ne_idle hk hpar
  have hlist : p ∈ s.procList := by
    refine (hl.pids.listed p).mpr ⟨?_, hpi⟩
    rw [PidTable.pidOf_eq, hk]
    exact some_ne_none _
  refine ⟨h.remove hl.tree hk hpar hkc (unlinked_kin hqc p q.pid), ?_, ?_⟩
  · change s.nrProcess - 1 = (s.procList.erase p).length + 1
    have hpos := List.length_pos_of_mem hlist
    rw [List.length_erase_of_mem hlist, hn.count]
    omega
  · have hidle : s.pidOf s.idleproc = some 0 := hn.idle
    rw [PidTable.pidOf_eq] at hidle ⊢
    change (((s.unlinked p q.pid).freed p).kin s.idleproc).map Kin.pid = some 0
    rw [unlinked_kin hqc, update_of_ne (Ne.symm hpi)]
    by_cases hc : s.idleproc = s.current
    · rw [hc, update_self]
      rw [hc, hkc] at hidle
      exact hidle
    · rw [update_of_ne hc]
      exact hidle

/-- **`do_wait` with pointers.** -/
lemma doWait_mirrors (hl : Live I s) (hsw : s.switching = false) (h : Chained none s.kin F)
    (hn : ProcsCounted s) (pid : ℤ) : Mirrors (Linked.doWait pid) (doWait pid) s F fun _ t F' =>
      Chained none t.kin F' ∧ ProcsCounted t := by
  have hw := waitFor_eq hl h pid
  refine .read_bind ?_
  rw [hw]
  obtain ⟨qc, hqc, hrun⟩ := hl.kinv.active hsw
  cases hf : s.waitFor pid with
  | zombie p =>
    obtain ⟨q, hq, hz, hpar⟩ := hl.family.toLinks.waitFor_zombie hf
    refine (reap_mirrors hq hpar).bind fun _ t F' ht => ?_
    obtain ⟨rfl, rfl⟩ := ht
    obtain ⟨h1, h2⟩ := reaped_table hl.family.toLinks hqc h hn hq hpar
    refine .onKernel_bind (P := fun _ u => SameKin ((s.unlinked p q.pid).freed p) u)
      (.modify ⟨rfl, rfl, rfl, rfl, rfl, rfl, rfl, rfl, fun _ => rfl⟩)
      fun _ u hu => .pure ⟨h1.of_same hu, h2.of_table hu.table⟩
  | kids =>
    have hsleep : ∀ x, (s.modProc s.current (Proc.sleep wtChild)).kin x = s.kin x := by
      refine kin_modProc fun q' hq' => ?_
      cases hqc.symm.trans hq'
      simp [Proc.kin, Proc.sleep, hrun]
    refine .modify_bind (.onKernel_bind (P := fun _ u => SameKin s u)
      (Post.modify { SameKin.refl s with kin := hsleep })
      fun _ u hu => .pure ⟨h.of_same hu, hn.of_table hu.table⟩)
  | none =>
    refine .onKernel_bind (P := fun _ u => SameKin s u)
      (Post.modify { SameKin.refl s with })
      fun _ u hu => .pure ⟨h.of_same hu, hn.of_table hu.table⟩

/-- `do_wait` with pointers after `schedule`. -/
lemma doWaitResume_mirrors (hl : Live I s) (hsw : s.switching = false)
    (hcont : s.conts s.current ≠ .kbd) (h : Chained none s.kin F) (hn : ProcsCounted s) (pid : ℤ) :
    Mirrors (Linked.doWaitResume cls pid) (doWaitResume cls pid) s F fun _ t F' =>
      Chained none t.kin F' ∧ ProcsCounted t := by
  refine .read_bind (.onKernel_bind (getProc_post _ _) fun q t ht => ?_)
  obtain ⟨rfl, -⟩ := ht
  refine .ite (fun _ => ?_) fun _ => doWait_mirrors hl hsw h hn pid
  refine ((doExit_mirrors hl hsw hcont h _).and_post (sameTable_frame.doExit _ _)).bind
    fun _ u F' hu => .pure ?_
  exact ⟨hu.1, hn.of_table hu.2⟩

end Wait

/-! ## `do_fork` -/

section Fork

variable {new : ℕ}

/-- The family parts of `do_fork` before `wakeup_proc`. -/
lemma forking_kin {qc : Proc} (hqc : s.procs s.current = some qc) (hcn : s.current ≠ new)
    (pid safe : ℤ) : (s.forking new pid safe).kin = update (update s.kin new
      (some ({ allocProc s.current with pid := pid } : Proc).kin)) s.current
      (some { qc.kin with children := new :: qc.kin.children }) := by
  have h1 : (s.assigned new pid safe).kin =
      update s.kin new (some ({ allocProc s.current with pid := pid } : Proc).kin) := by
    funext x
    by_cases hx : x = new
    · subst hx
      simp [Kernel.kin, Kernel.assigned]
    · simp [Kernel.kin, Kernel.assigned, hx]
  have hq : (s.assigned new pid safe).procs s.current = some qc :=
    (update_of_ne hcn ..).trans hqc
  rw [← h1]
  exact kin_modProc_eq hq rfl

/-- **`do_fork` with pointers**, up to `wakeup_proc`. -/
lemma doFork_forking (hcn : s.current ≠ new) (mem : ForkMem) :
    Mirrors (Linked.doFork cls new mem) (doFork cls new mem) s F fun _ t F' =>
      (t = s ∧ F' = F) ∨ ∃ pid safe, SameFamily (s.forking new pid safe) t ∧
        F' = (F.alloc new).setLinks new s.current := by
  have hstay : (s = s ∧ F = F) ∨ ∃ pid safe, SameFamily (s.forking new pid safe) s ∧
      F = (F.alloc new).setLinks new s.current := .inl ⟨rfl, rfl⟩
  refine .read_bind (.ite (fun _ => .pure hstay) fun _ =>
    .ite (fun _ => .pure hstay) fun _ =>
    .onKernel_bind (getProc_post _ _) fun q t ht => ?_)
  obtain ⟨rfl, hq⟩ := ht
  refine .ensure_bind fun _ => .ite (fun _ => .pure hstay) fun _ => ?_
  refine .modify_bind (.onPtrs_bind (.onKernel_bind
    (P := fun pid u => ∃ safe, u = t.assigned new pid safe) ?_ fun pid u hu => ?_))
  · refine .read_bind ?_
    split
    · exact .halt _
    · next pid safe _ =>
      refine .modify_bind (.pure ⟨safe, ?_⟩)
      refine congrArg (fun P => { t.assigned new pid safe with procs := P }) ?_
      simp [Kernel.modProc]
  · obtain ⟨safe, rfl⟩ := hu
    refine .modify_bind (.bind (R := fun _ u F' => u = t.forking new pid safe ∧
      F' = (F.alloc new).setLinks new t.current) (.modify_both ⟨rfl, rfl⟩) fun _ u F' hu => ?_)
    obtain ⟨rfl, rfl⟩ := hu
    exact .onKernel_bind (.wakeupProc new _) fun _ u hu =>
      .pure (.inr ⟨pid, safe, hu, rfl⟩)

/-- **`do_fork` with pointers.** -/
lemma doFork_mirrors (hl : Live I s) (hnew : new ∉ s.used) (h : Chained none s.kin F)
    (hn : ProcsCounted s) (mem : ForkMem) :
    Mirrors (Linked.doFork cls new mem) (doFork cls new mem) s F
      fun _ t F' => Chained none t.kin F' ∧ ProcsCounted t := by
  obtain ⟨qc, hqc⟩ := ne_none_iff_exists'.mp hl.kinv.cur
  obtain ⟨hnone, hcn, hin⟩ := hl.kinv.unused hnew
  have hkc : s.kin s.current = some qc.kin := kin_eq_some.mpr ⟨qc, hqc, rfl⟩
  refine (doFork_forking hcn mem).mono fun _ t F' ht => ?_
  rcases ht with ⟨rfl, rfl⟩ | ⟨pid, safe, hs, rfl⟩
  · exact ⟨h, hn⟩
  · have hK := forking_kin hqc hcn pid safe
    have hchain := h.add hl.family.tree (kin_eq_none.mpr hnone) hkc rfl hK
    refine ⟨hchain.of_same hs.1, ProcsCounted.of_table ⟨?_, ?_⟩ hs.1.table⟩
    · change s.nrProcess + 1 = (new :: s.procList).length + 1
      rw [hn.count, List.length_cons]
    · have hidle : s.pidOf s.idleproc = some 0 := hn.idle
      rw [PidTable.pidOf_eq] at hidle ⊢
      change ((s.forking new pid safe).kin s.idleproc).map Kin.pid = some 0
      rw [hK]
      by_cases hc : s.idleproc = s.current
      · rw [hc, update_self]
        rw [hc, hkc] at hidle
        exact hidle
      · rw [update_of_ne hc, update_of_ne hin]
        exact hidle

end Fork

/-! ## Steps and runs -/

section Runs

variable {op : Op}

/-- **Every step with pointers does what the step of the kernel does**, and the pointers store the
lists of children afterwards. -/
lemma exec_mirrors (hc : ClassOk cls I) (hl : Live I s) (he : Enabled s op)
    (h : Chained none s.kin F) (hn : ProcsCounted s) :
    Mirrors (Linked.exec cls op) (exec cls op) s F fun _ t F' => Chained none t.kin F' ∧
      ProcsCounted t := by
  have hsame : KeepsKin s op → Mirrors (Linked.onKernel (exec cls op)) (exec cls op) s F
      fun _ t F' => Chained none t.kin F' ∧ ProcsCounted t := fun hop =>
    (Mirrors.onKernel (exec_spec hc hl he).ok).mono fun _ t F' ht => by
      obtain ⟨rfl, hd⟩ := ht
      exact ⟨h.of_same (hd.kin hop), hn.of_table (hd.kin hop).table⟩
  cases op with
  | fork new mem => exact (doFork_mirrors hl he.2.2.2 h hn mem).bind fun _ t F' ht => .pure ht
  | exit code =>
    refine ((doExit_mirrors hl he.1 (by rw [he.2.1]; simp) h code).and_post
      (sameTable_frame.doExit code s)).bind fun _ t F' ht => .pure ?_
    exact ⟨ht.1, hn.of_table ht.2⟩
  | wait pid => exact (doWait_mirrors hl he.1 h hn pid).bind fun _ t F' ht => .pure ht
  | resume =>
    by_cases hw : ∃ pid, s.conts s.current = .wait pid
    · obtain ⟨pid, hw⟩ := hw
      refine .read_bind ?_
      rw [hw]
      exact (doWaitResume_mirrors hl he.1 (by rw [hw]; simp) h hn pid).bind fun _ t F' ht =>
        .pure ht
    · refine (hsame (not_exists.mp hw)).congr_left ?_
      change Linked.resume cls ⟨s, F⟩ = Linked.onKernel (resume cls) ⟨s, F⟩
      rw [Linked.resume, read_bind_apply]
      cases hcont : s.conts s.current with
      | wait pid => exact absurd ⟨pid, hcont⟩ hw
      | _ => simp
  | _ => exact hsame trivial

/-- **The table of processes and the pointers between them are in order.** -/
structure TableOk (L : Linked) : Prop where
  /-- every process but `idleproc` is listed once -/
  listed : L.kernel.procList.Nodup ∧
    ∀ p, p ∈ L.kernel.procList ↔ L.kernel.procs p ≠ none ∧ p ≠ L.kernel.idleproc
  /-- and it is once in the bucket of its pid and in no other one -/
  hashed : ∀ b, (L.kernel.hashList b).Nodup ∧ ∀ p, p ∈ L.kernel.hashList b ↔
    p ≠ L.kernel.idleproc ∧ ∃ pid, L.kernel.pidOf p = some pid ∧ pidHashfn pid = b
  distinct : ∀ p p' pid, L.kernel.pidOf p = some pid → L.kernel.pidOf p' = some pid → p = p'
  find : ∀ pid p, L.kernel.findProc pid = some p ↔
    p ≠ L.kernel.idleproc ∧ L.kernel.pidOf p = some pid
  count : L.kernel.nrProcess = L.kernel.procList.length + 1
  /-- the chain from `cptr` along `optr` visits the children, each once, and `yptr` leads back -/
  chain : ∀ p, L.kernel.procs p ≠ none → ∃ l : List ℕ, l.Nodup ∧
    (∀ c, c ∈ l ↔ ∃ q, L.kernel.procs c = some q ∧ q.parent = some p) ∧
    Dll L.ptrs.optr L.ptrs.yptr none l (L.ptrs.cptr p)

/-- `find_proc` finds exactly the process with a pid. -/
lemma PidTable.findProc_iff (h : PidTable s) {pid : ℤ} {p : ℕ} :
    s.findProc pid = some p ↔ p ≠ s.idleproc ∧ s.pidOf p = some pid := by
  constructor
  · intro e
    exact (h.findProc_eq_some e).symm
  · rintro ⟨hi, hp⟩
    obtain ⟨h1, h2⟩ := h.range p pid hp hi
    unfold Kernel.findProc
    rw [if_pos ⟨by omega, h2⟩]
    cases hf : (s.hashList (pidHashfn pid)).find? fun p => s.pidOf p = some pid with
    | none =>
      rw [List.find?_eq_none] at hf
      exact absurd (by simpa using hp) (hf p ((h.hashed _ p).mpr ⟨hi, pid, hp, rfl⟩))
    | some p' =>
      have h3 := List.find?_some hf
      have h4 := (h.hashed _ p').mp (List.mem_of_find?_eq_some hf)
      rw [h.inj p' p pid (by simpa using h3) hp h4.1 hi]

/-- The table is in order if the invariants hold. -/
lemma Live.tableOk (hl : Live I s) (h : Chained none s.kin F) (hn : ProcsCounted s) :
    TableOk ⟨s, F⟩ := by
  have hp := hl.family.pids
  have hnone : ∀ p, s.pidOf p ≠ none ↔ s.procs p ≠ none := fun p => by
    rw [Kernel.pidOf, ne_eq, map_eq_none_iff]
  refine ⟨⟨hp.listNodup, fun p => ?_⟩, fun b => ⟨hp.hashNodup b, hp.hashed b⟩,
    fun p p' pid h1 h2 => ?_, fun pid p => hp.findProc_iff, hn.count, fun p hps => ?_⟩
  · rw [← hnone]
    exact hp.listed p
  · -- the pid of `idleproc` is 0, those of the others are positive
    have hidle : ∀ q, s.pidOf q = some pid → s.pidOf s.idleproc = some pid → q = s.idleproc := by
      intro q hq hi
      by_contra hne
      rw [hn.idle] at hi
      have := (hp.range q pid hq hne).1
      rw [← Option.some.inj hi] at this
      omega
    by_cases hpi : p = s.idleproc
    · subst hpi
      exact (hidle p' h2 h1).symm
    · by_cases hpi' : p' = s.idleproc
      · subst hpi'
        exact hidle p h1 h2
      · exact hp.inj p p' pid h1 h2 hpi hpi'
  · obtain ⟨q, hq⟩ := ne_none_iff_exists'.mp hps
    have hk : s.kin p = some q.kin := kin_eq_some.mpr ⟨q, hq, rfl⟩
    obtain ⟨y, hy, hd⟩ := h p q.kin hk
    rw [hy (by simp)] at hd
    refine ⟨q.children, hl.family.tree.nodup p q.kin hk, fun c => ?_, hd⟩
    rw [show c ∈ q.children ↔ c ∈ q.kin.children from Iff.rfl, hl.family.tree.child p q.kin hk c]
    constructor
    · rintro ⟨k, h1, h2⟩
      obtain ⟨qc, h3, rfl⟩ := kin_eq_some.mp h1
      exact ⟨qc, h3, h2⟩
    · rintro ⟨qc, h3, h4⟩
      exact ⟨qc.kin, kin_eq_some.mpr ⟨qc, h3, rfl⟩, h4⟩

/-- **The invariants hold along every run with pointers**, and it is a run of the kernel. -/
lemma LinkedRun.inv (hc : ClassOk cls I) {L L' : Linked} {log : List Event}
    (hr : LinkedRun cls L log L') (hl : Live I L.kernel) (h : Chained none L.kernel.kin L.ptrs)
    (hn : ProcsCounted L.kernel) : Live I L'.kernel ∧ Chained none L'.kernel.kin L'.ptrs ∧
      ProcsCounted L'.kernel ∧ Run cls L.kernel log L'.kernel := by
  induction hr with
  | nil => exact ⟨hl, h, hn, Run.nil _⟩
  | @cons s t u op out log he hs _ ih =>
    have hm := exec_mirrors hc hl he h hn
    cases hk : exec cls op s.kernel with
    | error e => cases hs.symm.trans (hm.panic e hk)
    | ok r =>
      obtain ⟨F', h1, h2, h3⟩ := hm.ok r.1 r.2 hk
      cases hs.symm.trans h1
      have hstep : Step cls s.kernel op r.1 r.2 := ⟨he, hk⟩
      obtain ⟨h4, h5, h6, h7⟩ := ih (hstep.advances hc hl).live h2 h3
      exact ⟨h4, h5, h6, Run.cons hstep h7⟩

/-- **Every run of the kernel is one with pointers.** -/
lemma Run.linked (hc : ClassOk cls I) {log : List Event} (hr : Run cls s log t) (hl : Live I s)
    (h : Chained none s.kin F) (hn : ProcsCounted s) : ∃ F', LinkedRun cls ⟨s, F⟩ log ⟨t, F'⟩ := by
  induction hr generalizing F with
  | nil => exact ⟨F, LinkedRun.nil _⟩
  | cons hs _ ih =>
    obtain ⟨F', h1, h2, h3⟩ := (exec_mirrors hc hl hs.1 h hn).ok _ _ hs.2
    obtain ⟨F'', h4⟩ := ih (hs.advances hc hl).live h2 h3
    exact ⟨F'', LinkedRun.cons (s := ⟨_, F⟩) (t := ⟨_, F'⟩) hs.1 h1 h4⟩

end Runs

section Result

variable (S : Scheduler) (semValue : ℕ → BitVec 32)

lemma boot_chained : Chained none (S.boot semValue).kin Ptrs.boot := by
  intro p k hp
  refine ⟨none, fun _ => rfl, ?_⟩
  obtain ⟨q, hq, rfl⟩ := kin_eq_some.mp hp
  rcases boot_cases hq with ⟨rfl, rfl⟩ | ⟨rfl, rfl⟩
  · exact ⟨rfl, rfl, rfl⟩
  · rfl

lemma boot_counted : ProcsCounted (S.boot semValue) := ⟨rfl, rfl⟩

/-- **The table of processes and the family tree are in order in every state that the kernel
reaches** by steps of `do_fork`, `do_exit`, `do_wait` and all the others: every process but
`idleproc` is once in `proc_list` and once in the bucket of its pid, the pids are different,
`find_proc` finds exactly the process with a pid, `nr_process` counts, and the pointers of a process
visit exactly its children. The functions with pointers have the runs of the functions on lists. -/
theorem process_table_ok :
    (∀ log L, LinkedRun S.cls ⟨S.boot semValue, Ptrs.boot⟩ log L → TableOk L) ∧
    ∀ log s, Run S.cls (S.boot semValue) log s ↔
      ∃ F, LinkedRun S.cls ⟨S.boot semValue, Ptrs.boot⟩ log ⟨s, F⟩ := by
  have hl : Live S.Inv (S.boot semValue) := boot_live S.inv S.runList
  have hb := boot_chained S semValue
  have hn := boot_counted S semValue
  refine ⟨fun log L hr => ?_, fun log s => ⟨fun hr => hr.linked S.ok hl hb hn, ?_⟩⟩
  · obtain ⟨h1, h2, h3, -⟩ := hr.inv S.ok hl hb hn
    exact h1.tableOk h2 h3
  · rintro ⟨F, hr⟩
    exact (hr.inv S.ok hl hb hn).2.2.2

end Result

/-- A run in which a child of `initproc` forks and exits, so that `initproc` gets a grandchild. -/
def orphanOps : List Op :=
  [.yield, .schedule, .fork 2 .enough, .wait 0, .schedule, .fork 3 .enough, .exit 0, .schedule]

/-- The table is in order after it. -/
theorem process_table_ok_orphan : ∃ log L,
    LinkedRun rrScheduler.cls ⟨rrScheduler.boot fun _ => 0, Ptrs.boot⟩ log L ∧
      L.kernel.procList = [3, 2, 1] ∧ L.kernel.kids 1 = [3, 2] ∧ TableOk L := by
  have h : ((execAll rrScheduler.cls orphanOps (rrScheduler.boot fun _ => 0)).map fun r =>
      (r.2.procList, r.2.kids 1)) = some ([3, 2, 1], [3, 2]) := by decide +kernel
  obtain ⟨⟨log, s⟩, hr, e⟩ := map_eq_some_iff.mp h
  obtain ⟨h1, h2⟩ := Prod.mk.inj e
  obtain ⟨F, hF⟩ := ((process_table_ok rrScheduler fun _ => 0).2 log s).mp (execAll_run _ hr)
  exact ⟨log, ⟨s, F⟩, hF, h1, h2, (process_table_ok rrScheduler fun _ => 0).1 log _ hF⟩

end Ucore

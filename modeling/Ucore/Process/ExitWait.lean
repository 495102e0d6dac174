import Ucore.Process.Family

set_option autoImplicit false

/-!
# `do_exit` and `do_wait` keep the invariants

## Main definitions

* `Live` — the invariants of the kernel and of the families together.
* `Ages` — the semaphores are the same, and freed addresses stay free.
* `Reaped` — what a step that reaps has done.

## Main results

* `doExit_spec`, `doWait_spec`, `doWaitResume_spec`.
-/

namespace Ucore

open Function Comp

/-- The invariant of the kernel and that of the families. -/
structure Live (I : SchedState → Prop) (s : Kernel) : Prop where
  kinv : KInv I s
  family : Family s

/-- An address that has been freed is not used again. -/
structure KeepsFree (s t : Kernel) : Prop where
  used : s.used ⊆ t.used
  free : ∀ p ∈ s.used, s.procs p = none → t.procs p = none

/-- The semaphores are the same, and an address that has been freed is not used again. -/
structure Ages (s t : Kernel) : Prop extends SameSem s t, KeepsFree s t

section Ages

variable {s t u : Kernel}

lemma SameKin.keepsFree (h : SameKin s t) : KeepsFree s t := by
  refine ⟨fun x hx => ?_, fun p _ hp => ?_⟩
  · rw [h.used]
    exact hx
  · rw [← kin_eq_none, h.kin, kin_eq_none]
    exact hp

lemma KeepsFree.trans (h : KeepsFree s t) (h' : KeepsFree t u) : KeepsFree s u :=
  ⟨h.used.trans h'.used, fun p hp hn => h'.free p (h.used hp) (h.free p hp hn)⟩

lemma Ages.trans (h : Ages s t) (h' : Ages t u) : Ages s u :=
  ⟨h.toSameSem.trans h'.toSameSem, h.toKeepsFree.trans h'.toKeepsFree⟩

lemma Quiet.ages (h : Quiet s t) : Ages s t := ⟨h.toSameSem, h.toSameKin.keepsFree⟩

lemma Calm.ages (h : Calm s t) : Ages s t := ⟨h.toSameSem, h.toSameKin.keepsFree⟩

end Ages

variable {cls : SchedClass} {I : SchedState → Prop} {s t : Kernel}

section Exit

variable {p c : ℕ}

lemma moveChild_ages (s : Kernel) (c : ℕ) (l : List ℕ) : Ages s (s.moveChild c l) := by
  refine ⟨⟨rfl, fun _ => rfl⟩, fun x hx => hx, fun x _ hx => ?_⟩
  unfold Kernel.moveChild
  rw [modProc_eq_none, modProc_eq_none, modProc_eq_none]
  exact hx

lemma KInv.setTable (h : KInv I s) (hash : ℕ → List ℕ) (l : List ℕ) (n : ℕ) (last safe : ℤ) :
    KInv I { s with hashList := hash, procList := l, nrProcess := n, lastPid := last,
                    nextSafe := safe } := { h with }

/-- **A process that may wait for a child is woken.** -/
lemma wakeWaiting_spec (hc : ClassOk cls I) (h : KInv I s) (p : ℕ) :
    Spec (wakeWaiting cls p) s Harmless fun _ t => KInv I t ∧ Quiet s t ∧
      ∀ pid, ¬t.Asleep p (.wait pid) := by
  refine getProc_bind (fun _ => trivial) fun q hq => .ite (fun hw => ?_) fun hw => ?_
  · obtain ⟨hs, pid₀, hk⟩ := (h.proc p q hq).of_wtChild hw
    refine (wakeupProc_spec hc h.sched fun _ hq' hr => h.notMem_runList hq' hr).mono
      fun _ t ht => ?_
    obtain ⟨h1, h2⟩ := h.woke ht fun _ _ _ k => by simp [hk]
    refine ⟨h1, h2, fun pid ha => ?_⟩
    rcases ht with ⟨hr, -⟩ | ⟨q', sch, hq', -, -, -, -, rfl⟩
    · rw [is_of_proc hq, hs] at hr
      cases hr
    · have hrun : (s.modProc p Proc.wake).Is p .runnable := (KInv.is_modProc_self hq').mpr rfl
      cases hrun.unique ha.1
  · refine .pure ⟨h, .refl s, fun pid ha => hw ?_⟩
    have hs := (h.proc p q hq).of_sleeping ((is_of_proc hq).mp ha.1)
    rw [ha.2] at hs
    exact (Option.some.inj hs).symm

/-- `initproc` is woken if the child that it has got is a zombie. -/
lemma wakeInit_spec (hc : ClassOk cls I) (h : KInv I s) (c : ℕ) :
    Spec (wakeInit cls c) s Harmless fun _ t => KInv I t ∧ Quiet s t ∧
      ∀ k, s.kin c = some k → k.dead = true → ∀ pid, ¬t.Asleep s.initproc (.wait pid) := by
  refine getProc_bind (fun _ => trivial) fun q hq => .read_bind
    (.ite (fun hz => ?_) fun hz => ?_)
  · exact (wakeWaiting_spec hc h s.initproc).mono fun _ t ht => ⟨ht.1, ht.2.1, fun _ _ _ => ht.2.2⟩
  · refine .pure ⟨h, .refl s, fun k hk hd => ?_⟩
    obtain ⟨q', hq', rfl⟩ := kin_eq_some.mp hk
    cases hq.symm.trans hq'
    exact absurd (by simpa [Proc.kin] using hd) hz

/-- The family parts after the first child has been handed over; three different processes
change. -/
lemma moveChild_kin {kd : Kin} {l : List ℕ} (ht : Tree s.idleproc s.initproc (some s.current) s.kin)
    (hd : s.kin s.current = some kd) (hdi : s.current ≠ s.initproc) (hci : s.current ≠ s.idleproc)
    (hch : kd.children = c :: l) : ∃ kc ki, s.kin c = some kc ∧ s.kin s.initproc = some ki ∧
      s.current ≠ c ∧ c ≠ s.initproc ∧
      (s.moveChild c l).kin = update (update (update s.kin s.current
        (some { kd with children := l })) c (some { kc with parent := some s.initproc }))
        s.initproc (some { ki with children := c :: ki.children }) := by
  obtain ⟨kc, hkc, hparent⟩ := (ht.child _ kd hd c).mp (by simp [hch])
  obtain ⟨ki, hki, hip, -⟩ := ht.initKin
  have hdc : s.current ≠ c := (ht.parent_of hkc hparent).1
  have hcinit : c ≠ s.initproc := by
    rintro rfl
    cases hkc.symm.trans hki
    rw [hip] at hparent
    exact hci (Option.some.inj hparent).symm
  refine ⟨kc, ki, hkc, hki, hdc, hcinit, ?_⟩
  obtain ⟨qd, hqd, rfl⟩ := kin_eq_some.mp hd
  obtain ⟨qc, hqc, rfl⟩ := kin_eq_some.mp hkc
  obtain ⟨qi, hqi, rfl⟩ := kin_eq_some.mp hki
  have h1 : (s.modProc s.current fun q => { q with children := l }).procs c = some qc := by
    rw [modProc_of_ne hdc.symm, hqc]
  have h2 : ((s.modProc s.current fun q => { q with children := l }).modProc c
      fun q => { q with parent := some s.initproc }).procs s.initproc = some qi := by
    rw [modProc_of_ne hcinit.symm, modProc_of_ne hdi.symm, hqi]
  rw [Kernel.moveChild, kin_modProc_eq h2 rfl, kin_modProc_eq h1 rfl, kin_modProc_eq hqd rfl]
  rfl

/-- **A process that exits hands over its first child.** -/
lemma moveChild_spec {kd : Kin} {l : List ℕ} (h : KInv I s) (hl : Links (some s.current) s)
    (hw : ∀ x, Waits s x) (hd : s.kin s.current = some kd) (hdi : s.current ≠ s.initproc)
    (hci : s.current ≠ s.idleproc) (hch : kd.children = c :: l) :
    KInv I (s.moveChild c l) ∧ Links (some s.current) (s.moveChild c l) ∧
      (s.moveChild c l).kin s.current = some { kd with children := l } ∧
      (∃ kc, (s.moveChild c l).kin c = some kc ∧
        (kc.dead = false → Waits (s.moveChild c l) s.initproc)) ∧
      ∀ x, x ≠ s.initproc → Waits (s.moveChild c l) x := by
  obtain ⟨kc, ki, hkc, hki, hdc, hcinit, hK⟩ := moveChild_kin hl.tree hd hdi hci hch
  have hpid : ∀ x, (s.moveChild c l).pidOf x = s.pidOf x := by
    intro x
    rw [PidTable.pidOf_eq, PidTable.pidOf_eq, hK]
    by_cases h1 : x = s.initproc
    · rw [h1, update_self, hki]
      rfl
    · rw [update_of_ne h1]
      by_cases h2 : x = c
      · rw [h2, update_self, hkc]
        rfl
      · rw [update_of_ne h2]
        by_cases h3 : x = s.current
        · rw [h3, update_self, hd]
          rfl
        · rw [update_of_ne h3]
  have hasleep : ∀ x pid, (s.moveChild c l).Asleep x (.wait pid) → s.Asleep x (.wait pid) := by
    intro x pid ha
    refine ⟨?_, ha.2⟩
    have h1 : (s.moveChild c l).Is x .sleeping := ha.1
    unfold Kernel.moveChild at h1
    rw [KInv.is_modProc_same, KInv.is_modProc_same, KInv.is_modProc_same] at h1
    · exact h1
    all_goals exact fun _ => rfl
  have hkc' : (s.moveChild c l).kin c = some { kc with parent := some s.initproc } := by
    rw [hK, update_of_ne hcinit, update_self]
  -- a child of `x` was one before, or it is the child that is handed over
  have hchild : ∀ x y k, (s.moveChild c l).kin y = some k → k.parent = some x →
      (y = c ∧ x = s.initproc) ∨ ∃ k', s.kin y = some k' ∧ k'.parent = some x ∧ k'.pid = k.pid ∧
        k'.dead = k.dead := by
    intro x y k hy hx
    rw [hK] at hy
    by_cases h1 : y = s.initproc
    · rw [h1, update_self] at hy
      cases hy
      exact .inr ⟨ki, h1 ▸ hki, hx, rfl, rfl⟩
    · rw [update_of_ne h1] at hy
      by_cases h2 : y = c
      · rw [h2, update_self] at hy
        cases hy
        exact .inl ⟨h2, (Option.some.inj hx).symm⟩
      · rw [update_of_ne h2] at hy
        by_cases h3 : y = s.current
        · rw [h3, update_self] at hy
          cases hy
          exact .inr ⟨kd, h3 ▸ hd, hx, rfl, rfl⟩
        · rw [update_of_ne h3] at hy
          exact .inr ⟨k, hy, hx, rfl, rfl⟩
  refine ⟨?_, ⟨?_, hl.pids.congr hpid rfl rfl rfl rfl rfl⟩, ?_, ⟨_, hkc', fun hdead => ?_⟩,
    fun x hx => ?_⟩
  · refine .modProc (.modProc (.modProc h ?_) ?_) ?_
    all_goals exact fun q => ⟨rfl, rfl⟩
  · exact hl.tree.move hd hdi hch hki hkc hcinit hK
  · rw [hK, update_of_ne hdi, update_of_ne hdc, update_self]
  · intro pid ha y k hy hx hk
    rcases hchild _ y k hy hx with ⟨rfl, -⟩ | ⟨k', h1, h2, h3, h4⟩
    · cases hkc'.symm.trans hy
      exact hdead
    · rw [← h4]
      exact hw _ pid (hasleep _ pid ha) y k' h1 h2 (h3 ▸ hk)
  · intro pid ha y k hy hxp hk
    rcases hchild _ y k hy hxp with ⟨-, h1⟩ | ⟨k', h1, h2, h3, h4⟩
    · exact absurd h1 hx
    · rw [← h4]
      exact hw _ pid (hasleep _ pid ha) y k' h1 h2 (h3 ▸ hk)

/-- **The children go to `initproc`**, which is woken if one of them is a zombie.

**Proof sketch.** Induction on the children that are left. After a child has been handed over, only
`initproc` may sleep although it has a zombie child, namely this one; then it is woken. -/
lemma reparent_spec (hc : ClassOk cls I) (l : List ℕ) {K : Kin} (h : KInv I s)
    (hl : Links (some s.current) s) (hw : ∀ x, Waits s x) (hd : s.kin s.current = some K)
    (hdi : s.current ≠ s.initproc) (hci : s.current ≠ s.idleproc) (hch : K.children = l) :
    Spec (reparent cls l) s Harmless fun _ t => Live I t ∧ Ages s t := by
  induction l generalizing s K with
  | nil =>
    exact Spec.pure ⟨⟨h, ⟨hl.tree.finish hd hch, hl.pids⟩, hw⟩, (Quiet.refl s).ages⟩
  | cons c l ih =>
    obtain ⟨h1, h2, h3, ⟨kc, h4, h5⟩, h6⟩ := moveChild_spec h hl hw hd hdi hci hch
    refine .modify_bind ((wakeInit_spec hc h1 c).bind fun _ t ht => ?_)
    obtain ⟨h7, h8, h9⟩ := ht
    have hcur : t.current = s.current := h8.current
    have hwt : ∀ x, Waits t x := by
      intro x
      by_cases hx : x = s.initproc
      · subst hx
        cases hdead : kc.dead with
        | false => exact (h5 hdead).of_same h8.toSameKin h8.keepsWaits
        | true => exact waits_of_not_asleep (h9 kc h4 hdead)
      · exact (h6 x hx).of_same h8.toSameKin h8.keepsWaits
    refine (ih (K := { K with children := l }) h7 ?_ hwt ?_ ?_ ?_ rfl).mono fun _ u hu => ⟨hu.1, ?_⟩
    · rw [hcur]
      exact h2.of_same h8.toSameKin
    · rw [hcur, h8.kin, h3]
    · rw [hcur, h8.initproc]
      exact hdi
    · rw [hcur, h8.idleproc]
      exact hci
    · exact ((moveChild_ages s c l).trans h8.ages).trans hu.2

/-- The state after the current process has become a zombie. -/
def Kernel.died (s : Kernel) (code : ℤ) : Kernel :=
  { s.modProc s.current (Proc.die code) with
    conts := update s.conts s.current .exited, switching := true }

lemma died_ages (s : Kernel) (code : ℤ) : Ages s (s.died code) :=
  ⟨⟨rfl, fun _ => rfl⟩, fun _ hx => hx, fun _ _ hx => modProc_eq_none.mpr hx⟩

/-- **A process becomes a zombie.** Only its parent may now sleep although it has a zombie child. -/
lemma died_spec {k : Kin} (h : Live I s) (hsw : s.switching = false)
    (hcont : s.conts s.current ≠ .kbd) (hi : s.current ≠ s.idleproc)
    (hinit : s.current ≠ s.initproc) (hk : s.kin s.current = some k) (code : ℤ) :
    KInv I (s.died code) ∧ Links (some s.current) (s.died code) ∧
      (∃ kd, (s.died code).kin s.current = some kd ∧ kd.children = k.children) ∧
      ∀ x, k.parent ≠ some x → Waits (s.died code) x := by
  obtain ⟨q, hq, hr⟩ := h.kinv.active hsw
  have hkq : q.kin = k := by
    obtain ⟨q', hq', hk'⟩ := kin_eq_some.mp hk
    cases hq.symm.trans hq'
    exact hk'
  have hwait : (Proc.die code q).waitState = 0 := ((h.kinv.proc _ q hq).of_runnable hr).1
  have hK : (s.died code).kin = update s.kin s.current
      (some { k with exitCode := code, dead := true }) := by
    have : (Proc.die code q).kin = { k with exitCode := code, dead := true } := by
      rw [← hkq]
      rfl
    exact kin_modProc_eq hq this
  have hself : (s.died code).kin s.current = some { k with exitCode := code, dead := true } := by
    rw [hK, update_self]
  refine ⟨?_, ⟨?_, ?_⟩, ⟨_, hself, rfl⟩, fun x hx => ?_⟩
  · have hsem : ∀ j x, x ∈ s.queues (.sem j) ↔ x ∈ s.queues (.sem j) ∨
        x = s.current ∧ (Proc.die code q).state = .sleeping ∧ Cont.exited = .down j := by
      intro j x
      simp
    exact h.kinv.leave hq hr hi hcont (fun _ => ⟨hwait, rfl⟩) hsem h.kinv.nodup h.kinv.value
      (fun x hx => .inl hx) h.kinv.stdinNodup fun _ _ => rfl
  · refine h.family.tree.congr (fun x => ?_) fun x k' hx hdead => ?_
    · rw [hK]
      by_cases hxc : x = s.current
      · rw [hxc, update_self, hk]
        rfl
      · rw [update_of_ne hxc]
    · rw [hK] at hx
      by_cases hxc : x = s.current
      · exact ⟨hxc ▸ hi, hxc ▸ hinit, .inr (by rw [hxc])⟩
      · rw [update_of_ne hxc] at hx
        refine ⟨?_, ?_, .inl (h.family.tree.children_of_dead hx hdead)⟩
        · rintro rfl
          obtain ⟨k₀, h1, -, h2⟩ := h.family.tree.idleKin
          cases hx.symm.trans h1
          rw [h2] at hdead
          cases hdead
        · rintro rfl
          obtain ⟨k₀, h1, -, h2⟩ := h.family.tree.initKin
          cases hx.symm.trans h1
          rw [h2] at hdead
          cases hdead
  · refine h.family.pids.congr (fun x => ?_) rfl rfl rfl rfl rfl
    rw [PidTable.pidOf_eq, PidTable.pidOf_eq, hK]
    by_cases hxc : x = s.current
    · rw [hxc, update_self, hk]
      rfl
    · rw [update_of_ne hxc]
  · intro pid ha y ky hy hyx hpid
    have hxc : x ≠ s.current := by
      rintro rfl
      have hz : (s.died code).Is s.current .zombie := (KInv.is_modProc_self hq).mpr rfl
      cases hz.unique ha.1
    have hold : s.Asleep x (.wait pid) := by
      have h2 : update s.conts s.current .exited x = .wait pid := ha.2
      rw [update_of_ne hxc] at h2
      exact ⟨(KInv.is_modProc_of_ne hxc).mp ha.1, h2⟩
    rw [hK] at hy
    by_cases hyc : y = s.current
    · rw [hyc, update_self] at hy
      cases hy
      exact absurd hyx hx
    · rw [update_of_ne hyc] at hy
      exact h.family.waits x pid hold y ky hy hyx hpid

/-- **`do_exit`** up to `schedule`. -/
lemma doExit_spec (hc : ClassOk cls I) (h : Live I s) (hsw : s.switching = false)
    (hcont : s.conts s.current ≠ .kbd) (code : ℤ) :
    Spec (doExit cls code) s Harmless fun _ t => Live I t ∧ Ages s t := by
  refine .read_bind (.ensure_bind (fun _ => trivial) fun hi =>
    .ensure_bind (fun _ => trivial) fun hinit => getProc_bind (fun _ => trivial) fun q hq => ?_)
  have hk : s.kin s.current = some q.kin := kin_eq_some.mpr ⟨q, hq, rfl⟩
  obtain ⟨h1, h2, ⟨kd, h3, h4⟩, h5⟩ := died_spec h hsw hcont hi hinit hk code
  refine .modify_bind ?_
  change Spec (wakeParent cls q.parent >>= fun _ => reparent cls q.children) (s.died code)
    Harmless _
  refine .bind (R := fun _ t => KInv I t ∧ Quiet (s.died code) t ∧ ∀ x, Waits t x) ?_
    fun _ t ht => ?_
  · cases hp : q.parent with
    | none => exact .halt trivial
    | some p =>
      refine (wakeWaiting_spec hc h1 p).mono fun _ t ht => ⟨ht.1, ht.2.1, fun x => ?_⟩
      by_cases hx : x = p
      · subst hx
        exact waits_of_not_asleep ht.2.2
      · refine (h5 x ?_).of_same ht.2.1.toSameKin ht.2.1.keepsWaits
        rintro hq'
        exact hx (Option.some.inj (hp.symm.trans hq')).symm
  · obtain ⟨h6, h7, h8⟩ := ht
    have hcur : t.current = s.current := h7.current
    refine (reparent_spec hc q.children (K := kd) h6 ?_ h8 ?_ ?_ ?_ h4).mono fun _ u hu =>
      ⟨hu.1, ((died_ages s code).trans h7.ages).trans hu.2⟩
    · rw [hcur]
      exact h2.of_same h7.toSameKin
    · rw [hcur, h7.kin, h3]
    · rw [hcur, h7.initproc]
      exact hinit
    · rw [hcur, h7.idleproc]
      exact hi

end Exit

/-! ## `do_wait` -/

section Wait

variable {p : ℕ} {pid : ℤ}

lemma isZombie_iff : s.isZombie p = true ↔ s.Is p .zombie := by
  unfold Kernel.isZombie Kernel.Is
  cases s.procs p <;> simp

/-- **The search of `do_wait` finds a zombie child** of the current process. -/
lemma Links.waitFor_zombie (h : Links none s) (e : s.waitFor pid = .zombie p) :
    ∃ q, s.procs p = some q ∧ q.state = .zombie ∧ q.parent = some s.current := by
  unfold Kernel.waitFor at e
  split_ifs at e with h0
  · split at e
    · cases e
    · split_ifs at e with h1 h2
      cases e
      obtain ⟨q, hq, hz⟩ := isZombie_iff.mp h2
      refine ⟨q, hq, hz, ?_⟩
      rwa [hq] at h1
  · split at e
    · cases e
    · next q hq =>
      split at e
      · next p' hf =>
        cases e
        obtain ⟨qp, hqp, hz⟩ := isZombie_iff.mp (List.find?_some hf)
        refine ⟨qp, hqp, hz, ?_⟩
        have hk : s.kin s.current = some q.kin := kin_eq_some.mpr ⟨q, hq, rfl⟩
        obtain ⟨k, h1, h2⟩ := (h.tree.child _ q.kin hk p).mp (List.mem_of_find?_eq_some hf)
        obtain ⟨q', hq', rfl⟩ := kin_eq_some.mp h1
        cases hqp.symm.trans hq'
        exact h2
      · split_ifs at e

/-- **If the search finds children but no zombie**, no child that the process waits for is one. -/
lemma Links.waitFor_kids (h : Links none s) (e : s.waitFor pid = .kids) {c : ℕ} {k : Kin}
    (hc : s.kin c = some k) (hp : k.parent = some s.current) (hpid : pid = 0 ∨ k.pid = pid) :
    k.dead = false := by
  obtain ⟨qc, hqc, rfl⟩ := kin_eq_some.mp hc
  have halive : s.isZombie c ≠ true → qc.kin.dead = false := by
    intro hz
    rw [ne_eq, isZombie_iff, is_of_proc hqc] at hz
    simpa [Proc.kin] using hz
  unfold Kernel.waitFor at e
  split_ifs at e with h0
  · split at e
    · cases e
    · next p hf =>
      split_ifs at e with h1 h2
      -- the child that `find_proc` has found is the only process with this pid
      obtain ⟨h3, h4⟩ := h.pids.findProc_eq_some hf
      have h5 : s.pidOf c = some pid := by
        rw [Kernel.pidOf, hqc, Option.map_some]
        exact congrArg some (hpid.resolve_left h0)
      obtain rfl := h.pids.inj c p pid h5 h3 (h.tree.ne_idle hc hp) h4
      exact halive h2
  · split at e
    · cases e
    · next q hq =>
      split at e
      · cases e
      · next hf =>
        have hk : s.kin s.current = some q.kin := kin_eq_some.mpr ⟨q, hq, rfl⟩
        have hmem : c ∈ q.children := (h.tree.child _ q.kin hk c).mpr ⟨_, hc, hp⟩
        exact halive (List.find?_eq_none.mp hf c hmem)

/-- The state after `kfree` of the process at `p`. -/
def Kernel.freed (s : Kernel) (p : ℕ) : Kernel := { s with procs := update s.procs p none }

@[simp] lemma freed_self : (s.freed p).procs p = none := update_self ..

lemma freed_of_ne {x : ℕ} (h : x ≠ p) : (s.freed p).procs x = s.procs x := update_of_ne h ..

/-- A zombie is removed from the table. -/
lemma KInv.freed (h : KInv I s) (hz : s.Is p .zombie) (hp : p ≠ s.current) :
    KInv I (s.freed p) := by
  obtain ⟨q, hq, hst⟩ := hz
  have his : ∀ x st, st ≠ .zombie → ((s.freed p).Is x st ↔ s.Is x st) := by
    intro x st hne
    by_cases hx : x = p
    · subst hx
      constructor
      · intro hs
        exact absurd freed_self hs.ne_none
      · intro hs
        rw [is_of_proc hq, hst] at hs
        exact absurd hs.symm hne
    · exact is_congr (freed_of_ne hx)
  refine ⟨h.sched, fun x => ?_, ⟨(his _ _ (by decide)).mpr h.idle.1, h.idle.2⟩, ?_, fun hsw => ?_,
    fun x r hx => ?_, fun k x => ?_, h.nodup, h.value, fun x hx => ?_, h.stdinNodup, fun x hx => ?_⟩
  · rw [his x _ (by decide)]
    exact h.queued x
  · change (s.freed p).procs s.current ≠ none
    rw [freed_of_ne hp.symm]
    exact h.cur
  · exact (his _ _ (by decide)).mpr (h.active hsw)
  · have hxp : x ≠ p := by
      rintro rfl
      rw [freed_self] at hx
      cases hx
    rw [freed_of_ne hxp] at hx
    exact h.proc x r hx
  · rw [Kernel.Asleep, his x _ (by decide)]
    exact h.sem k x
  · obtain ⟨h1, h2⟩ := h.stdin x hx
    have hxp : x ≠ p := by
      rintro rfl
      rw [((h.proc x q hq).of_zombie hst).2] at h2
      cases h2
    rw [freed_of_ne hxp]
    exact ⟨h1, h2⟩
  · by_cases hxp : x = p
    · subst hxp
      exact h.used x (by simp [hq])
    · rw [freed_of_ne hxp] at hx
      exact h.used x hx

/-- The state after the child `p` with the pid `pid` has been removed from the lists. -/
def Kernel.unlinked (s : Kernel) (p : ℕ) (pid : ℤ) : Kernel :=
  { s.modProc s.current fun q => { q with children := q.children.erase p } with
    hashList := update s.hashList (pidHashfn pid) ((s.hashList (pidHashfn pid)).erase p)
    procList := s.procList.erase p
    nrProcess := s.nrProcess - 1 }

/-- The family parts after a child of the current process has been reaped. -/
lemma unlinked_kin {qc : Proc} (hqc : s.procs s.current = some qc) (p : ℕ) (pid : ℤ) :
    ((s.unlinked p pid).freed p).kin = update (update s.kin s.current
      (some { qc.kin with children := qc.children.erase p })) p none := by
  funext x
  by_cases hx : x = p
  · rw [hx, update_self]
    simp [Kernel.kin]
  · have hm : (s.modProc s.current fun q => { q with children := q.children.erase p }).kin =
        update s.kin s.current (some { qc.kin with children := qc.children.erase p }) :=
      kin_modProc_eq hqc rfl
    rw [update_of_ne hx, ← hm, Kernel.kin, freed_of_ne hx]
    rfl

/-- **A zombie is reaped by its parent.** -/
lemma Live.reap {q : Proc} (h : Live I s) (hsw : s.switching = false) (hq : s.procs p = some q)
    (hz : q.state = .zombie) (hpar : q.parent = some s.current) :
    Live I ((s.unlinked p q.pid).freed p) := by
  obtain ⟨qc, hqc, hrun⟩ := h.kinv.active hsw
  have hpc : p ≠ s.current := by
    rintro rfl
    cases hq.symm.trans hqc
    rw [hz] at hrun
    cases hrun
  have hk : s.kin p = some q.kin := kin_eq_some.mpr ⟨q, hq, rfl⟩
  have hkc : s.kin s.current = some qc.kin := kin_eq_some.mpr ⟨qc, hqc, rfl⟩
  have hK := unlinked_kin hqc p q.pid
  have hpid : ∀ x, ((s.unlinked p q.pid).freed p).pidOf x = if x = p then none else s.pidOf x := by
    intro x
    rw [PidTable.pidOf_eq, PidTable.pidOf_eq, hK]
    by_cases hx : x = p
    · rw [hx, update_self, if_pos rfl]
      rfl
    · rw [update_of_ne hx, if_neg hx]
      by_cases hxc : x = s.current
      · rw [hxc, update_self, hkc]
        rfl
      · rw [update_of_ne hxc]
  refine ⟨?_, ⟨?_, ?_⟩, fun x pid ha c k hc hparent hk' => ?_⟩
  · have h1 := (h.kinv.modProc (p := s.current)
      (f := fun q => { q with children := q.children.erase p }) fun q => ⟨rfl, rfl⟩).setTable
      (update s.hashList (pidHashfn q.pid) ((s.hashList (pidHashfn q.pid)).erase p))
      (s.procList.erase p) (s.nrProcess - 1) s.lastPid s.nextSafe
    refine h1.freed (p := p) ?_ hpc
    exact (KInv.is_modProc_of_ne hpc).mpr ((is_of_proc hq).mpr hz)
  · refine h.family.tree.remove hk ?_ hpar hkc hK
    simp [Proc.kin, hz]
  · exact h.family.pids.remove (show s.pidOf p = some q.pid by simp [Kernel.pidOf, hq]) hpid rfl rfl
      rfl rfl rfl
  · -- whoever sleeps has slept before, and has not got another child
    have hxp : x ≠ p := by
      rintro rfl
      exact ha.1.ne_none freed_self
    have hold : s.Asleep x (.wait pid) := by
      refine ⟨?_, ha.2⟩
      have h1 : (s.modProc s.current fun q => { q with children := q.children.erase p }).Is x
          .sleeping := (is_congr (freed_of_ne (s := s.unlinked p q.pid) hxp)).mp ha.1
      rw [KInv.is_modProc_same] at h1
      · exact h1
      · exact fun _ => rfl
    rw [hK] at hc
    by_cases hcp : c = p
    · rw [hcp, update_self] at hc
      cases hc
    · rw [update_of_ne hcp] at hc
      by_cases hcc : c = s.current
      · rw [hcc, update_self] at hc
        cases hc
        exact h.family.waits x pid hold s.current qc.kin hkc hparent hk'
      · rw [update_of_ne hcc] at hc
        exact h.family.waits x pid hold c k hc hparent hk'

/-- **What a step that reaps has done**: the process was a zombie and a child of the current
process, whose exit code is returned; now it is neither in the table nor in the lists. -/
structure Reaped (s : Kernel) (p : ℕ) (code : ℤ) (t : Kernel) : Prop where
  zombie : ∃ q, s.procs p = some q ∧ q.state = .zombie ∧ q.parent = some s.current ∧
    q.exitCode = code
  freed : t.procs p = none
  unhashed : ∀ b, p ∉ t.hashList b
  unlinked : p ∉ t.procList ∧ ∀ x q, t.procs x = some q → p ∉ q.children

/-- A process that is not in the table is in none of the lists. -/
lemma Links.notMem_of_none (h : Links none t) (hp : t.procs p = none) :
    (∀ b, p ∉ t.hashList b) ∧ p ∉ t.procList ∧ ∀ x q, t.procs x = some q → p ∉ q.children := by
  have hpid : t.pidOf p = none := by rw [Kernel.pidOf, hp, Option.map_none]
  refine ⟨fun b hb => ?_, fun hl => ?_, fun x q hx hc => ?_⟩
  · obtain ⟨-, pid, h1, -⟩ := (h.pids.hashed b p).mp hb
    rw [hpid] at h1
    cases h1
  · exact ((h.pids.listed p).mp hl).1 hpid
  · obtain ⟨k, h1, -⟩ := (h.tree.child x q.kin (kin_eq_some.mpr ⟨q, hx, rfl⟩) p).mp hc
    obtain ⟨q', h2, -⟩ := kin_eq_some.mp h1
    rw [hp] at h2
    cases h2

lemma reap_spec {q : Proc} (hq : s.procs p = some q) (hpar : q.parent = some s.current) :
    Spec (reap p) s Harmless fun code t => code = q.exitCode ∧
      t = (s.unlinked p q.pid).freed p := by
  refine .read_bind (.ensure_bind (fun _ => trivial) fun _ =>
    getProc_bind (fun _ => trivial) fun q' hq' => .modify_bind ?_)
  cases hq.symm.trans hq'
  rw [hpar]
  exact .modify_bind (.modify_bind (.pure ⟨rfl, rfl⟩))

lemma Live.goOn_self (h : Live I s) (hsw : s.switching = false) (hk : s.conts s.current ≠ .kbd) :
    Live I { s with conts := update s.conts s.current .run } ∧
      Ages s { s with conts := update s.conts s.current .run } := by
  obtain ⟨h1, h2⟩ := h.kinv.goOn_self hsw hk
  exact ⟨⟨h1, h.family.of_same h2.toSameKin h2.waits⟩, h2.ages⟩

section

variable (h : Live I s) (hsw : s.switching = false) (hcont : s.conts s.current ≠ .kbd)
  (hi : s.current ≠ s.idleproc)
include h hsw hcont hi

/-- The state after the current process has begun to wait for a child. -/
lemma Live.sleepWait (hw : s.waitFor pid = .kids) :
    Live I (s.slept (.wait pid) wtChild s.queues s.wakeupFlags s.timers) ∧
      Ages s (s.slept (.wait pid) wtChild s.queues s.wakeupFlags s.timers) := by
  obtain ⟨h1, h2⟩ := h.kinv.sleep (c := .wait pid) (w := wtChild) (Q := s.queues)
    (F := s.wakeupFlags) hsw hi hcont rfl (fun j x => by simp) h.kinv.nodup h.kinv.value
    (fun x hx => .inl hx) h.kinv.stdinNodup (fun _ _ => rfl) s.timers
  refine ⟨⟨h1, h.family.toLinks.of_same h2.toSameKin, fun x pid' ha c k hc hp hk => ?_⟩,
    ⟨rfl, fun _ => rfl⟩, h2.toSameKin.keepsFree⟩
  rw [h2.kin] at hc
  have hconts := ha.2
  rw [h2.conts] at hconts
  by_cases hx : x = s.current
  · rw [hx, update_self] at hconts
    cases hconts
    exact h.family.toLinks.waitFor_kids hw hc (hx ▸ hp) hk
  · rw [update_of_ne hx] at hconts
    exact h.family.waits x pid' ⟨(h2.asleep x hx).mp ha.1, hconts⟩ c k hc hp hk

/-- **`do_wait`** up to its end or to `schedule`. -/
lemma doWait_spec (pid : ℤ) : Spec (doWait pid) s Harmless fun r t => Live I t ∧ Ages s t ∧
      ∀ p code, r = .reaped p code → Reaped s p code t := by
  refine .read_bind ?_
  cases hw : s.waitFor pid with
  | zombie p =>
    obtain ⟨q, hq, hz, hpar⟩ := h.family.toLinks.waitFor_zombie hw
    refine (reap_spec hq hpar).bind fun code t ht => .modify_bind (.pure ?_)
    obtain ⟨rfl, rfl⟩ := ht
    obtain ⟨h1, h2⟩ := (h.reap hsw hq hz hpar).goOn_self hsw hcont
    have hfree : ((s.unlinked p q.pid).freed p).procs p = none := freed_self
    have hages : Ages s ((s.unlinked p q.pid).freed p) := by
      refine ⟨⟨rfl, fun _ => rfl⟩, fun _ hx => hx, fun x _ hx => ?_⟩
      by_cases hxp : x = p
      · rw [hxp]
        exact hfree
      · rw [freed_of_ne hxp]
        exact modProc_eq_none.mpr hx
    refine ⟨h1, hages.trans h2, fun p' code e => ?_⟩
    cases e
    obtain ⟨h3, h4⟩ := h1.family.toLinks.notMem_of_none hfree
    exact ⟨⟨q, hq, hz, hpar, rfl⟩, hfree, h3, h4⟩
  | kids =>
    refine .modify_bind (.modify_bind (.pure ?_))
    obtain ⟨h1, h2⟩ := h.sleepWait hsw hcont hi hw
    exact ⟨h1, h2, fun p code e => by cases e⟩
  | none =>
    refine .modify_bind (.pure ?_)
    obtain ⟨h1, h2⟩ := h.goOn_self hsw hcont
    exact ⟨h1, h2, fun p code e => by cases e⟩

end

/-- **`do_wait`** after `schedule`: a process that has been killed exits. -/
lemma doWaitResume_spec (hc : ClassOk cls I) (h : Live I s) (hsw : s.switching = false)
    (hcont : s.conts s.current ≠ .kbd) (hi : s.current ≠ s.idleproc) (pid : ℤ) :
    Spec (doWaitResume cls pid) s Harmless fun r t => Live I t ∧ Ages s t ∧
      ∀ p code, r = .reaped p code → Reaped s p code t := by
  refine .read_bind (getProc_bind (fun _ => trivial) fun q hq => .ite (fun _ => ?_) fun _ => ?_)
  · refine (doExit_spec hc h hsw hcont _).bind fun _ t ht => .pure ?_
    exact ⟨ht.1, ht.2, fun p code e => by cases e⟩
  · exact doWait_spec h hsw hcont hi pid

end Wait

end Ucore

import Ucore.Process.Steps

set_option autoImplicit false

/-!
# The calls of the current process keep the invariant

The calls that neither belong to the life of a process nor change a semaphore, the return from
`schedule`, and `schedule` itself.

## Main results

* `semTryDown_spec`, `semDownResume_spec` — the rest of the semaphores.
* `schedule_spec` — the change of the current process.
* `calm_spec` — the steps that leave the families and the semaphores as they are.
-/

namespace Ucore

open Function Comp

section Calls

variable {cls : SchedClass} {I : SchedState → Prop} {s t : Kernel} {k : ℕ}

section

variable (h : KInv I s)
include h

/-- **`try_down`** takes the semaphore or does nothing. -/
lemma semTryDown_spec (k : ℕ) :
    Spec (semTryDown k) s Harmless fun r t => KInv I t ∧ SameKin s t ∧ KeepsWaits s t ∧
      t.current = s.current ∧
      SameSemBut k s t ∧
      (r = true ∧ semPositive (s.semValue k) ∧ t.semValue k = s.semValue k - 1 ∧
          t.queues (.sem k) = s.queues (.sem k) ∨
        r = false ∧ t = s) := by
  refine .read_bind (.ite (fun hv => ?_) fun _ => ?_)
  · refine .modify_bind (.pure ?_)
    exact ⟨h.decrement hv, { SameKin.refl s with }, fun _ _ hp => hp,
      rfl, fun j hj => ⟨update_of_ne hj .., rfl⟩, .inl ⟨rfl, hv, update_self .., rfl⟩⟩
  · exact .pure ⟨h, .refl s, fun _ _ hp => hp, rfl, fun _ _ => ⟨rfl, rfl⟩,
      .inr ⟨rfl, rfl⟩⟩

/-- The current process goes on in its code: the families and the semaphores do not change. -/
lemma KInv.goOn_calm (hsw : s.switching = false) {Q : QueueId → List ℕ}
    (hsem : ∀ k, Q (.sem k) = s.queues (.sem k))
    (hstdin : ∀ x ∈ Q .stdin, x ∈ s.queues .stdin ∧ x ≠ s.current) (hstdinNodup : (Q .stdin).Nodup)
    : KInv I { s with conts := update s.conts s.current .run, queues := Q } ∧
      Calm s { s with conts := update s.conts s.current .run, queues := Q } := by
  refine ⟨h.goOn hsw hsem hstdin hstdinNodup, { SameKin.refl s with },
    ⟨rfl, hsem⟩, fun p pid hp => ?_⟩
  by_cases hc : p = s.current
  · subst hc
    cases (h.active hsw).unique hp.1
  · have hcont : update s.conts s.current .run p = .wait pid := hp.2
    rw [update_of_ne hc] at hcont
    exact ⟨hp.1, hcont⟩

lemma KInv.goOn_self (hsw : s.switching = false) (hk : s.conts s.current ≠ .kbd) :
    KInv I { s with conts := update s.conts s.current .run } ∧
      Calm s { s with conts := update s.conts s.current .run } := by
  refine h.goOn_calm hsw (Q := s.queues) (fun _ => rfl) (fun x hx => ⟨hx, ?_⟩) h.stdinNodup
  rintro rfl
  exact hk (h.stdin _ hx).2

/-- **`down` returns after `schedule`**: the process is no longer in the queue and has been woken by
`up`. -/
lemma semDownResume_spec (hsw : s.switching = false) (hk : s.conts s.current = .down k) :
    Spec (semDownResume k) s Harmless fun _ t => KInv I t ∧ Calm s t ∧
      t = { s with conts := update s.conts s.current .run } := by
  have hcur := h.active hsw
  have hnot : s.current ∉ s.queues (.sem k) :=
    h.notMem_sem (fun hs => by cases hcur.unique hs) k
  have hdel : waitCurrentDel (.sem k) s = .ok ((), s) := by simp [waitCurrentDel, hnot]
  obtain ⟨q, hq, hr⟩ := hcur
  have hflags : s.wakeupFlags s.current = wtKsem :=
    ((h.proc _ q hq).of_runnable hr).2.2 k hk
  refine .bind_ok hdel (.read_bind (.ensure_bind (fun hf => ?_) fun _ => .modify ?_))
  · exact hf (if_neg (not_not.mpr hflags))
  · obtain ⟨h1, h2⟩ := h.goOn_self hsw (by rw [hk]; simp)
    exact ⟨h1, h2, rfl⟩

/-- **A read from the keyboard waits.** -/
lemma stdinWait_spec (he : Executes s) :
    Spec stdinWait s Harmless fun _ t => KInv I t ∧ Calm s t := by
  have hsem : ∀ j, s.enqueued .stdin (.sem j) = s.queues (.sem j) := fun j =>
    update_of_ne (by simp) ..
  have hself : s.enqueued .stdin .stdin = s.queues .stdin ++ [s.current] := update_self ..
  have hnot : s.current ∉ s.queues .stdin := fun hx => he.ne_kbd (h.stdin _ hx).2
  have e : stdinWait s = .ok ((), s.slept .kbd wtKbd (s.enqueued .stdin)
      (update s.wakeupFlags s.current wtInterrupted) s.timers) := rfl
  have hmem : ∀ j x, x ∈ s.enqueued .stdin (.sem j) ↔
      x ∈ s.queues (.sem j) ∨ x = s.current ∧ Cont.kbd = .down j := by
    intro j x
    rw [hsem]
    simp
  have hnodup : (s.enqueued .stdin .stdin).Nodup := by
    rw [hself]
    exact List.nodup_append.mpr ⟨h.stdinNodup, List.nodup_singleton _, by
      simpa using fun x hx (e : x = s.current) => hnot (e ▸ hx)⟩
  obtain ⟨h1, h2⟩ := h.sleep (F := update s.wakeupFlags s.current wtInterrupted) he.switching
    he.notIdle he.ne_kbd rfl hmem (fun j => by rw [hsem]; exact h.nodup j)
    (fun j hj => by rw [hsem]; exact h.value j hj)
    (fun x hx => by rw [hself] at hx; simpa using hx) hnodup
    (fun x hx => update_of_ne hx ..) s.timers
  exact .of_ok e ⟨h1, { h2.toSameKin with
    value := rfl, queue := hsem, waits := h2.keepsWaits fun _ => by simp }⟩

/-- **A read from the keyboard goes on**: a process that has been killed removes itself from the
queue. -/
lemma stdinResume_spec (hsw : s.switching = false) :
    Spec stdinResume s Harmless fun _ t => KInv I t ∧ Calm s t := by
  have hmod : ∀ Q : QueueId → List ℕ, (∀ k, Q (.sem k) = s.queues (.sem k)) →
      (∀ x ∈ Q .stdin, x ∈ s.queues .stdin ∧ x ≠ s.current) → (Q .stdin).Nodup →
      waitCurrentDel .stdin s = .ok ((), { s with queues := Q }) →
      Spec stdinResume s Harmless fun _ t => KInv I t ∧ Calm s t := by
    intro Q h1 h2 h3 e
    exact .bind_ok e (.read_bind (.modify_bind (.pure (h.goOn_calm hsw h1 h2 h3))))
  by_cases hc : s.current ∈ s.queues .stdin
  · refine hmod (s.dequeued .stdin s.current) (fun k => dequeued_of_ne (by simp)) (fun x hx => ?_)
      (h.stdinNodup.sublist (dequeued_sublist s _ _ _)) ?_
    · rw [Kernel.dequeued, update_self, h.stdinNodup.mem_erase_iff] at hx
      exact ⟨hx.2, hx.1⟩
    · simp [waitCurrentDel, waitQueueDel, hc, Kernel.dequeued]
  · refine hmod s.queues (fun _ => rfl) (fun x hx => ⟨hx, fun e => hc (e ▸ hx)⟩) h.stdinNodup ?_
    simp [waitCurrentDel, hc]

/-- **`do_sleep`** up to `schedule`. -/
lemma doSleep_spec (he : Executes s) (time : ℕ) :
    Spec (doSleep time) s Harmless fun _ t => KInv I t ∧ Calm s t := by
  refine Spec.ite (fun _ => Spec.pure ⟨h, (Quiet.refl s).calm⟩) fun _ => ?_
  refine .read_bind (.modify_bind ?_)
  refine .bind (R := fun _ t => ∃ l, t =
    { s.modProc s.current (Proc.sleep wtTimer) with timers := l }) ?_ fun _ t ht => ?_
  · refine .ensure_bind (fun _ => trivial) fun _ => .read_bind ?_
    exact .ensure_bind (fun _ => trivial) fun _ => .modify ⟨_, rfl⟩
  · obtain ⟨l, rfl⟩ := ht
    obtain ⟨h1, h2⟩ := h.sleep (c := .sleep) (w := wtTimer) (Q := s.queues) (F := s.wakeupFlags)
      he.switching he.notIdle he.ne_kbd rfl (fun j x => by simp) h.nodup h.value
      (fun x hx => .inl hx) h.stdinNodup (fun _ _ => rfl) l
    exact .modify ⟨h1, { h2.toSameKin with
      value := rfl, queue := fun _ => rfl, waits := h2.keepsWaits fun _ => by simp }⟩

/-- **`do_sleep`** after `schedule`. -/
lemma doSleepResume_spec (hsw : s.switching = false) (hk : s.conts s.current ≠ .kbd) :
    Spec doSleepResume s Harmless fun _ t => KInv I t ∧ Calm s t := by
  refine .read_bind (.modify_bind (.modify ?_))
  obtain ⟨h1, h2⟩ := h.setTimers (removeTimer s.current s.timers)
  obtain ⟨h3, h4⟩ := h1.goOn_self hsw hk
  exact ⟨h3, { h2.toSameKin.trans h4.toSameKin, h2.toSameSem.trans h4.toSameSem with
    waits := fun p pid hp => h2.keepsWaits p pid (h4.waits p pid hp) }⟩

/-! ## `schedule` -/

/-- The run list after `schedule` has put the current process back. -/
def Kernel.requeued (s : Kernel) : List ℕ :=
  if s.current = s.idleproc ∨ ¬s.Is s.current .runnable then s.sched.rq.runList
  else s.sched.rq.runList ++ [s.current]

/-- After that it holds all runnable processes but `idleproc`. -/
lemma KInv.mem_requeued (p : ℕ) : p ∈ s.requeued ↔ p ≠ s.idleproc ∧ s.Is p .runnable := by
  unfold Kernel.requeued
  split_ifs with hc
  · rw [h.queued]
    constructor
    · exact fun hp => hp.2
    · intro hp
      refine ⟨?_, hp⟩
      rintro rfl
      rcases hc with hc | hc
      · exact hp.1 hc
      · exact hc hp.2
  · rw [List.mem_append, h.queued, List.mem_singleton]
    by_cases hp : p = s.current
    · simp only [not_or, not_not] at hc
      simp [hp, hc]
    · simp [hp]

end

/-- `schedule` puts a runnable current process back. -/
lemma requeueCurrent_spec (hc : ClassOk cls I) (h : KInv I s) :
    Spec (requeueCurrent cls) s Harmless fun _ t =>
      ∃ sch, I sch ∧ sch.rq.runList = s.requeued ∧ t = { s with sched := sch } := by
  refine .read_bind (getProc_bind (fun _ => trivial) fun q hq => .ite (fun hr => ?_) fun hr => ?_)
  · have hrun : s.Is s.current .runnable := (is_of_proc hq).mpr hr
    refine (schedClassEnqueue_spec hc h.sched fun _ hx => ((h.queued _).mp hx).1 rfl).mono
      fun _ t ht => ?_
    obtain ⟨sch, h1, h2, h3⟩ := ht
    refine ⟨sch, h1, ?_, h3⟩
    rw [h2, Kernel.requeued]
    simp [hrun]
  · have hrun : ¬s.Is s.current .runnable := mt (is_of_proc hq).mp hr
    exact .pure ⟨s.sched, h.sched, by simp [Kernel.requeued, hrun], rfl⟩

/-- What `schedule` and its return do: the chosen process is the one that the class picks from the
run list with the current process at its end, and `idleproc` if that list is empty. -/
structure Switched (cls : SchedClass) (I : SchedState → Prop) (s t : Kernel) (sch : SchedState) :
    Prop where
  requeued : I sch ∧ sch.rq.runList = s.requeued
  eq : t = { s with sched := t.sched, current := t.current, switching := false }
  sched : I t.sched
  idle : s.requeued = [] → t.current = s.idleproc ∧ t.sched = sch
  pick : s.requeued ≠ [] → t.current ∈ s.requeued ∧
    t.sched.rq.runList = s.requeued.erase t.current ∧
    ∃ u, cls.pickNext sch = .ok (some t.current, u) ∧ cls.dequeue t.current u = .ok ((), t.sched)

/-- The choice of the next process. -/
lemma pickNext_spec (hc : ClassOk cls I) {sch : SchedState} (h : I sch) :
    Spec (pickNext cls) { s with sched := sch } Harmless fun p t => ∃ u, I u ∧
      t = { s with sched := u } ∧ (sch.rq.runList = [] → p = s.idleproc ∧ u = sch) ∧
      (sch.rq.runList ≠ [] → p ∈ sch.rq.runList ∧ u.rq.runList = sch.rq.runList.erase p ∧
        ∃ v, cls.pickNext sch = .ok (some p, v) ∧ cls.dequeue p v = .ok ((), u)) := by
  by_cases hl : sch.rq.runList = []
  · have e : pickNext cls { s with sched := sch } = .ok (s.idleproc, { s with sched := sch }) := by
      rw [pickNext, bind_apply, liftSched, hc.pickNone sch h hl]
      rfl
    exact .of_ok e ⟨sch, h, rfl, fun _ => ⟨rfl, rfl⟩, fun hne => absurd hl hne⟩
  · obtain ⟨p, v, u, h1, h2, h3, h4, h5⟩ := hc.pickSome sch h hl
    have e : pickNext cls { s with sched := sch } = .ok (p, { s with sched := u }) := by
      rw [pickNext, bind_apply, liftSched, h1]
      change (liftSched (cls.dequeue p) >>= fun _ => pure p) { s with sched := v } = _
      rw [bind_apply, liftSched, h2]
      rfl
    exact .of_ok e ⟨u, h4, rfl, fun he => absurd he hl, fun _ => ⟨h3, h5, v, h1, h2⟩⟩

/-- **`schedule`.** -/
lemma schedule_spec (hc : ClassOk cls I) (h : KInv I s) :
    Spec (exec cls .schedule) s Harmless fun out t =>
      out = .none ∧ ∃ sch, Switched cls I s t sch := by
  have h0 := (h.setSched (hc.resched s.sched s.current false h.sched) rfl).1
  refine .bind (R := fun _ t => ∃ sch, Switched cls I s { t with switching := false } sch) ?_
    fun _ t ht => .modify_bind (.pure ⟨rfl, ht⟩)
  refine .modify_bind ((requeueCurrent_spec hc h0).bind fun _ t ht => ?_)
  obtain ⟨sch, h1, h2, rfl⟩ := ht
  refine (pickNext_spec hc h1).bind fun p t ht => .modify ?_
  obtain ⟨u, h3, rfl, h4, h5⟩ := ht
  have hl : sch.rq.runList = s.requeued := h2
  rw [hl] at h4 h5
  exact ⟨sch, ⟨h1, hl⟩, rfl, h3, h4, h5⟩

lemma Switched.runnable {sch : SchedState} (ht : Switched cls I s t sch) (h : KInv I s) :
    s.Is t.current .runnable := by
  by_cases hl : s.requeued = []
  · rw [(ht.idle hl).1]
    exact h.idle.1
  · exact ((h.mem_requeued _).mp (ht.pick hl).1).2

/-- **`schedule` keeps the invariant.** -/
lemma Switched.kinv {sch : SchedState} (ht : Switched cls I s t sch) (hc : ClassOk cls I)
    (h : KInv I s) : KInv I t ∧ Calm s t := by
  have hrun := ht.runnable h
  have hqueued : ∀ p, p ∈ t.sched.rq.runList ↔
      p ≠ t.current ∧ p ≠ s.idleproc ∧ s.Is p .runnable := by
    intro p
    by_cases hl : s.requeued = []
    · obtain ⟨h1, h2⟩ := ht.idle hl
      rw [h2, ht.requeued.2, h1, h.mem_requeued]
      tauto
    · have hnodup : s.requeued.Nodup := ht.requeued.2 ▸ hc.nodup sch ht.requeued.1
      rw [(ht.pick hl).2.1, hnodup.mem_erase_iff, h.mem_requeued]
  rw [ht.eq]
  exact ⟨{ h with sched := ht.sched, queued := hqueued, cur := hrun.ne_none,
                  active := fun _ => hrun },
    { SameKin.refl s with }, { SameSem.refl s with }, fun _ _ hp => hp⟩

/-! ## All of them -/

/-- The steps that concern neither the families nor the semaphores. -/
def Op.calm : Op → Bool
  | .kill _ | .sleep _ | .yield | .stdin | .setPriority _ | .schedule | .tick _ => true
  | _ => false

/-- What a step must establish to leave the families and the semaphores as they are. -/
def StaysCalm (I : SchedState → Prop) (s : Kernel) (out : Outcome) (t : Kernel) : Prop :=
  KInv I t ∧ Calm s t ∧ out = .none

lemma StaysCalm.of_spec {α : Type} {m : Kern α}
    (h : Spec m s Harmless fun _ t => KInv I t ∧ Calm s t) :
    Spec (m >>= fun _ => pure Outcome.none) s Harmless (StaysCalm I s) :=
  h.bind fun _ _ ht => .pure ⟨ht.1, ht.2, rfl⟩

/-- **The timer interrupt.** -/
lemma tick_spec (hc : ClassOk cls I) (h : KInv I s) (char : Bool) :
    Spec (exec cls (.tick char)) s Harmless (StaysCalm I s) := by
  refine (runTimerList_spec hc h).bind fun _ t ht => ?_
  refine .bind (R := fun _ u => KInv I u ∧ Quiet t u) ?_ fun _ u hu =>
    .pure ⟨hu.1, (ht.2.trans hu.2).calm, rfl⟩
  exact .ite (fun _ => stdinWrite_spec hc ht.1) fun _ => .pure ⟨ht.1, .refl t⟩

/-- **The steps that leave the families and the semaphores as they are.** -/
lemma calm_spec (hc : ClassOk cls I) (h : KInv I s) {op : Op} (hop : op.calm) (he : Enabled s op) :
    Spec (exec cls op) s Harmless (StaysCalm I s) := by
  cases op with
  | kill pid =>
    exact StaysCalm.of_spec ((doKill_spec hc h pid).mono fun _ _ ht => ⟨ht.1, ht.2.calm⟩)
  | sleep time => exact StaysCalm.of_spec (doSleep_spec h ⟨he.1, he.2.1, he.2.2⟩ time)
  | yield =>
    refine .modify_bind (.pure ⟨?_, ?_, rfl⟩)
    · exact { h with active := fun hsw => (by cases hsw) }
    · exact { (Quiet.refl s).calm with }
  | stdin => exact StaysCalm.of_spec (stdinWait_spec h ⟨he.1, he.2.1, he.2.2⟩)
  | setPriority v =>
    obtain ⟨h1, h2⟩ := h.setSched (hc.priority s.sched s.current (if v = 0 then 1 else v) h.sched)
      rfl
    exact .modify_bind (.pure ⟨h1, h2.calm, rfl⟩)
  | schedule =>
    refine (schedule_spec hc h).mono fun _ t ht => ?_
    obtain ⟨h1, sch, h2⟩ := ht
    obtain ⟨h3, h4⟩ := h2.kinv hc h
    exact ⟨h3, h4, h1⟩
  | tick char => exact tick_spec hc h char
  | fork | exit | wait | down | tryDown | up | resume => cases hop

/-- **The return from `schedule`** outside `do_wait`. -/
lemma resume_spec (h : KInv I s) (hsw : s.switching = false)
    (hw : ∀ pid, s.conts s.current ≠ .wait pid) :
    Spec (resume cls) s Harmless (StaysCalm I s) := by
  refine .read_bind ?_
  cases hk : s.conts s.current with
  | run => exact Spec.pure ⟨h, (Quiet.refl s).calm, rfl⟩
  | down k =>
    exact StaysCalm.of_spec ((semDownResume_spec h hsw hk).mono fun _ _ ht => ⟨ht.1, ht.2.1⟩)
  | wait pid => exact absurd hk (hw pid)
  | sleep => exact StaysCalm.of_spec (doSleepResume_spec h hsw (by rw [hk]; simp))
  | kbd => exact StaysCalm.of_spec (stdinResume_spec h hsw)
  | exited => exact .halt trivial

end Calls

end Ucore

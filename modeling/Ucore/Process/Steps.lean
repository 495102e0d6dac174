import Ucore.Process.Inv

set_option autoImplicit false

/-!
# The steps of the kernel keep the invariant

Every step keeps the invariant and ends in none of the panics that it excludes. For each step it is
also recorded what it leaves as it was.

## Main definitions

* `Kin` — what a process is to its family; `Kernel.kin`.
* `Quiet` — nothing but wake-ups has happened; `Calm` — the families and the semaphores
  are as they were.

## Main results

* `KInv.woke` — waking a process that does not wait for a semaphore.
* `runTimerList_spec`, `stdinWrite_spec`, `doKill_spec` — the steps that wake
  processes.
* `semUp_spec`, `semDown_spec` — semaphores.
* `KInv.sleep` — the current process goes to sleep.
-/

namespace Ucore

open Function Comp List

/-- The part of a process that concerns its parent and its children. -/
structure Kin where
  pid : ℤ
  parent : Option ℕ
  children : List ℕ
  exitCode : ℤ
  dead : Bool

/-- The family part of a process. -/
def Proc.kin (q : Proc) : Kin := ⟨q.pid, q.parent, q.children, q.exitCode, q.state = .zombie⟩

/-- The family part of the process at an address. -/
def Kernel.kin (s : Kernel) (p : ℕ) : Option Kin := (s.procs p).map Proc.kin

/-- The table of processes has the same families, pids and zombies. -/
structure SameKin (s t : Kernel) : Prop where
  idleproc : t.idleproc = s.idleproc
  initproc : t.initproc = s.initproc
  procList : t.procList = s.procList
  hashList : t.hashList = s.hashList
  nrProcess : t.nrProcess = s.nrProcess
  lastPid : t.lastPid = s.lastPid
  nextSafe : t.nextSafe = s.nextSafe
  used : t.used = s.used
  kin : ∀ p, t.kin p = s.kin p

/-- The semaphores are the same. -/
structure SameSem (s t : Kernel) : Prop where
  value : t.semValue = s.semValue
  queue : ∀ k, t.queues (.sem k) = s.queues (.sem k)

/-- The semaphores other than `k` are the same. -/
def SameSemBut (k : ℕ) (s t : Kernel) : Prop :=
  ∀ j, j ≠ k → t.semValue j = s.semValue j ∧ t.queues (.sem j) = s.queues (.sem j)

/-- **Nothing but wake-ups has happened** to the processes. -/
structure Quiet (s t : Kernel) : Prop extends SameKin s t, SameSem s t where
  current : t.current = s.current
  conts : t.conts = s.conts
  switching : t.switching = s.switching
  asleep : ∀ p, t.Is p .sleeping → s.Is p .sleeping

variable {p : ℕ} {q : Proc} {cls : SchedClass} {I : SchedState → Prop} {s t : Kernel}

section Frames

variable {s t u : Kernel} {f : Proc → Proc}

lemma SameKin.refl (s : Kernel) :
    SameKin s s := ⟨rfl, rfl, rfl, rfl, rfl, rfl, rfl, rfl, fun _ => rfl⟩

lemma SameKin.trans (h : SameKin s t) (h' : SameKin t u) : SameKin s u :=
  ⟨h'.idleproc.trans h.idleproc, h'.initproc.trans h.initproc, h'.procList.trans h.procList,
    h'.hashList.trans h.hashList, h'.nrProcess.trans h.nrProcess, h'.lastPid.trans h.lastPid,
    h'.nextSafe.trans h.nextSafe, h'.used.trans h.used, fun p => (h'.kin p).trans (h.kin p)⟩

lemma SameSem.refl (s : Kernel) : SameSem s s := ⟨rfl, fun _ => rfl⟩

lemma SameSem.trans (h : SameSem s t) (h' : SameSem t u) : SameSem s u :=
  ⟨h'.value.trans h.value, fun k => (h'.queue k).trans (h.queue k)⟩

lemma Quiet.refl (s : Kernel) : Quiet s s :=
  { SameKin.refl s, SameSem.refl s with current := rfl, conts := rfl, switching := rfl,
                                        asleep := fun _ h => h }

lemma Quiet.trans (h : Quiet s t) (h' : Quiet t u) : Quiet s u :=
  { h.toSameKin.trans h'.toSameKin, h.toSameSem.trans h'.toSameSem with
    current := h'.current.trans h.current, conts := h'.conts.trans h.conts,
    switching := h'.switching.trans h.switching, asleep := fun p hp => h.asleep p (h'.asleep p hp) }

/-- No process has begun to wait in `do_wait`. -/
def KeepsWaits (s t : Kernel) : Prop := ∀ p pid, t.Asleep p (.wait pid) → s.Asleep p (.wait pid)

lemma Quiet.keepsWaits (h : Quiet s t) : KeepsWaits s t := by
  intro p pid hp
  refine ⟨h.asleep p hp.1, ?_⟩
  rw [← h.conts]
  exact hp.2

/-- **Neither the families nor the semaphores have changed**, and no process has begun to wait for a
child. -/
structure Calm (s t : Kernel) : Prop extends SameKin s t, SameSem s t where
  waits : KeepsWaits s t

lemma Quiet.calm (h : Quiet s t) : Calm s t :=
  { h.toSameKin, h.toSameSem with waits := h.keepsWaits }

lemma kin_modProc (hf : ∀ q, s.procs p = some q → (f q).kin = q.kin) (x : ℕ) :
    (s.modProc p f).kin x = s.kin x := by
  by_cases hx : x = p
  · subst hx
    cases hq : s.procs x with
    | none => simp [Kernel.kin, Kernel.modProc, hq]
    | some q => simp [Kernel.kin, modProc_self hq, hq, hf q hq]
  · simp only [Kernel.kin, modProc_of_ne hx]

lemma kin_wake (hz : q.state ≠ .zombie) : q.wake.kin = q.kin := by
  simp [Proc.kin, Proc.wake, hz]

lemma kin_sleep (hz : q.state ≠ .zombie) (w : BitVec 32) : (q.sleep w).kin = q.kin := by
  simp [Proc.kin, Proc.sleep, hz]

end Frames

/-! ## Wake-ups -/

/-- A process that is woken has been asleep. -/
lemma KInv.sleeping_of (h : KInv I s) (hq : s.procs p = some q) (hr : q.state ≠ .runnable)
    (hz : q.state ≠ .zombie) : q.state = .sleeping := by
  have hu := (h.proc p q hq).ne_uninit
  cases hst : q.state with
  | uninit => exact absurd hst hu
  | sleeping => rfl
  | runnable => exact absurd hst hr
  | zombie => exact absurd hst hz

/-- Its kin is what it was, and the processes that still sleep have slept before. -/
lemma modProc_wake (hq : s.procs p = some q) (hs : q.state = .sleeping) :
    (∀ x, (s.modProc p Proc.wake).kin x = s.kin x) ∧
      ∀ x, (s.modProc p Proc.wake).Is x .sleeping → s.Is x .sleeping := by
  refine ⟨kin_modProc fun q' hq' => ?_, fun x hx => ?_⟩
  · cases hq.symm.trans hq'
    exact kin_wake (by simp [hs])
  · by_cases hxp : x = p
    · subst hxp
      exact (is_of_proc hq).mpr hs
    · exact (KInv.is_modProc_of_ne hxp).mp hx

/-- **A process is woken** that does not wait for a semaphore. -/
lemma KInv.woke (h : KInv I s) (hw : Woke I s p t)
    (hd : ∀ q, s.procs p = some q → q.state = .sleeping → ∀ k, s.conts p ≠ .down k) :
    KInv I t ∧ Quiet s t := by
  rcases hw with ⟨-, rfl⟩ | ⟨q, sch, hq, hr, hz, hI, hl, rfl⟩
  · exact ⟨h, .refl _⟩
  · have hs := h.sleeping_of hq hr hz
    obtain ⟨hkin, hasleep⟩ := modProc_wake hq hs
    have hnot : ∀ k, p ∉ s.queues (.sem k) := by
      intro k hp
      exact hd q hq hs k ((h.sem k p).mp hp).2
    constructor
    · refine h.wake hq hs hI hl (fun k x => ?_) h.nodup (fun x hx => hx) h.stdinNodup
        (fun x _ => rfl) fun k hk => absurd hk (hd q hq hs k)
      constructor
      · exact fun hx => ⟨hx, fun e => hnot k (e ▸ hx)⟩
      · exact fun hx => hx.1
    · exact { Quiet.refl s with kin := hkin, asleep := hasleep }

/-- **`wakeup_proc`** of a process that does not wait for a semaphore. -/
lemma KInv.wakeup (hc : ClassOk cls I) (h : KInv I s)
    (hd : ∀ q, s.procs p = some q → q.state = .sleeping → ∀ k, s.conts p ≠ .down k) :
    Spec (wakeupProc cls p) s Harmless fun _ t => KInv I t ∧ Quiet s t :=
  (wakeupProc_spec hc h.sched fun _ hq hr => h.notMem_runList hq hr).mono fun _ _ hw => h.woke hw hd

/-! ## Timers -/

lemma KInv.setTimers (h : KInv I s) (l : List Timer) :
    KInv I { s with timers := l } ∧ Quiet s { s with timers := l } :=
  ⟨{ h with }, { SameKin.refl s, SameSem.refl s, Quiet.refl s with }⟩

/-- A change of the scheduler's data that leaves the run list. -/
lemma KInv.setSched (h : KInv I s) {sch : SchedState} (hI : I sch)
    (hl : sch.rq.runList = s.sched.rq.runList) :
    KInv I { s with sched := sch } ∧ Quiet s { s with sched := sch } := by
  refine ⟨{ h with sched := hI, queued := fun p => ?_ }, { Quiet.refl s with }⟩
  rw [hl]
  exact h.queued p

/-- The timers that have expired. -/
lemma fireTimers_spec (hc : ClassOk cls I) (l : List Timer) (h : KInv I s) :
    Spec (fireTimers cls l) s Harmless fun _ t => KInv I t ∧ Quiet s t := by
  induction l generalizing s with
  | nil => exact .pure ⟨h, .refl s⟩
  | cons timer l ih =>
    refine .ite (fun _ => ?_) fun _ => .pure ⟨h, .refl s⟩
    refine getProc_bind (fun _ => trivial) fun q hq => .ensure_bind (fun _ => trivial) fun hw => ?_
    refine (h.wakeup hc fun q' hq' hs k => ?_).bind fun _ t ht => ?_
    · cases hq.symm.trans hq'
      exact (h.proc _ _ hq).not_down hs hw k
    · obtain ⟨h1, h2⟩ := ht.1.setTimers (removeTimer timer.id t.timers)
      refine .modify_bind ((ih h1).mono fun _ u hu => ⟨hu.1, ?_⟩)
      exact (ht.2.trans h2).trans hu.2

/-- **`run_timer_list`.** -/
lemma runTimerList_spec (hc : ClassOk cls I) (h : KInv I s) :
    Spec (runTimerList cls) s Harmless fun _ t => KInv I t ∧ Quiet s t := by
  have h1 : Spec (runTimers cls) s Harmless fun _ t => KInv I t ∧ Quiet s t := by
    refine .read_bind ?_
    cases ht : s.timers with
    | nil => exact .pure ⟨h, .refl s⟩
    | cons timer l =>
      refine .ensure_bind (fun _ => trivial) fun _ => .modify_bind ?_
      obtain ⟨h1, h2⟩ := h.setTimers ({ timer with expires := timer.expires - 1 } :: l)
      exact (fireTimers_spec hc _ h1).mono fun _ u hu => ⟨hu.1, h2.trans hu.2⟩
  refine h1.bind fun _ t ht => .read_bind (.read_bind ?_)
  refine .ite (fun _ => ?_) fun _ => ?_
  · obtain ⟨u, e, hu, hl⟩ := hc.procTick t.sched t.current ht.1.sched
    have hm : liftSched (cls.procTick t.current) t = .ok ((), { t with sched := u }) := by
      rw [liftSched, e]
    obtain ⟨h2, h3⟩ := ht.1.setSched hu hl
    exact .of_ok hm ⟨h2, ht.2.trans h3⟩
  · obtain ⟨h2, h3⟩ := ht.1.setSched (hc.resched t.sched t.current true ht.1.sched) rfl
    exact .modify ⟨h2, ht.2.trans h3⟩

/-! ## Wait queues -/

lemma waitQueueDel_spec {queue : QueueId} (hp : p ∈ s.queues queue) {E : KPanic → Prop} :
    Spec (waitQueueDel queue p) s E fun _ t =>
      t = { s with queues := update s.queues queue ((s.queues queue).erase p) } := by
  refine .read_bind (.ensure_bind (fun hc => absurd hp hc) fun _ => ?_)
  exact .modify rfl

/-- A queue without one of its processes. -/
def Kernel.dequeued (s : Kernel) (queue : QueueId) (p : ℕ) : QueueId → List ℕ :=
  update s.queues queue ((s.queues queue).erase p)

/-- A queue with the current process at its end. -/
def Kernel.enqueued (s : Kernel) (queue : QueueId) : QueueId → List ℕ :=
  update s.queues queue (s.queues queue ++ [s.current])

lemma dequeued_of_ne {queue queue' : QueueId} (h : queue' ≠ queue) :
    s.dequeued queue p queue' = s.queues queue' := update_of_ne h ..

lemma dequeued_sublist (s : Kernel) (queue queue' : QueueId) (p : ℕ) :
    (s.dequeued queue p queue').Sublist (s.queues queue') := by
  by_cases h : queue' = queue
  · rw [h, Kernel.dequeued, update_self]
    exact erase_sublist
  · rw [dequeued_of_ne h]

/-- The processes in the semaphores' queues, after `p` has been removed from the queue in which it
sleeps. -/
lemma KInv.mem_dequeued (h : KInv I s) {queue : QueueId} (hp : p ∈ s.queues queue) (k x : ℕ) :
    x ∈ s.dequeued queue p (.sem k) ↔ x ∈ s.queues (.sem k) ∧ x ≠ p := by
  by_cases hk : QueueId.sem k = queue
  · subst hk
    rw [Kernel.dequeued, update_self, (h.nodup k).mem_erase_iff, and_comm]
  · rw [dequeued_of_ne hk]
    constructor
    · refine fun hx => ⟨hx, ?_⟩
      rintro rfl
      -- a process is in one queue only: the one of the place where it goes on
      have h1 := ((h.sem k x).mp hx).2
      cases queue with
      | sem k' =>
        have h2 := ((h.sem k' x).mp hp).2
        rw [h1] at h2
        cases h2
        exact hk rfl
      | stdin =>
        rw [(h.stdin x hp).2] at h1
        cases h1
    · exact fun hx => hx.1

/-- **A waiting process is taken out of its queue and woken.** -/
lemma wakeupWait_spec (hc : ClassOk cls I) (h : KInv I s) {queue : QueueId}
    (hp : p ∈ s.queues queue) {flags : BitVec 32}
    (hflags : ∀ k, queue = .sem k → flags = wtKsem) :
    Spec (wakeupWait cls queue p flags) s Harmless fun _ t => KInv I t ∧ SameKin s t ∧
      t.semValue = s.semValue ∧ t.queues = s.dequeued queue p ∧
      t.current = s.current ∧ t.conts = s.conts ∧ t.switching = s.switching ∧
      ∀ x, t.Is x .sleeping → s.Is x .sleeping := by
  refine (waitQueueDel_spec hp).bind fun _ s₁ hs₁ => .modify_bind ?_
  subst hs₁
  change Spec (wakeupProc cls p)
    { s with queues := s.dequeued queue p, wakeupFlags := update s.wakeupFlags p flags } Harmless _
  refine .mono (wakeupProc_spec hc ?_ ?_) fun _ t hw => ?_
  · exact h.sched
  · exact fun q hq hr => h.notMem_runList hq hr
  have hnodup : ∀ k, (s.dequeued queue p (.sem k)).Nodup := fun k =>
    (h.nodup k).sublist (dequeued_sublist s queue _ p)
  have hstdin : ∀ x ∈ s.dequeued queue p .stdin, x ∈ s.queues .stdin := fun x hx =>
    (dequeued_sublist s queue _ p).subset hx
  have hstdinNodup : (s.dequeued queue p .stdin).Nodup :=
    h.stdinNodup.sublist (dequeued_sublist s queue _ p)
  have hF : ∀ x, x ≠ p → update s.wakeupFlags p flags x = s.wakeupFlags x := fun x hx =>
    update_of_ne hx ..
  have hFp : ∀ k, s.conts p = .down k → update s.wakeupFlags p flags p = wtKsem := by
    intro k hk
    rw [update_self]
    cases queue with
    | sem k' => exact hflags k' rfl
    | stdin =>
      rw [(h.stdin p hp).2] at hk
      cases hk
  rcases hw with ⟨hr, rfl⟩ | ⟨q, sch, hq, hr, hz, hI, hl, rfl⟩
  · -- a reader that has been killed and woken before
    have hmem := h.mem_dequeued hp
    have hnot : ∀ k, p ∉ s.queues (.sem k) := fun k hk => by
      cases hr.unique ((h.sem k p).mp hk).1
    have heq : ∀ k x, x ∈ s.dequeued queue p (.sem k) ↔ x ∈ s.queues (.sem k) := by
      intro k x
      rw [hmem]
      exact ⟨fun hx => hx.1, fun hx => ⟨hx, fun e => hnot k (e ▸ hx)⟩⟩
    refine ⟨{ h with
      proc := fun x r hx => ?_, sem := fun k x => ?_, nodup := hnodup, value := fun k hv => ?_,
      stdin := fun x hx => h.stdin x (hstdin x hx), stdinNodup := hstdinNodup },
      { SameKin.refl s with }, rfl, rfl, rfl, rfl, rfl, fun _ hx => hx⟩
    · change ProcOk (s.conts x) (update s.wakeupFlags p flags x) r
      by_cases hxp : x = p
      · subst hxp
        have hst : r.state = .runnable := (is_of_proc hx).mp hr
        obtain ⟨h1, h2, -⟩ := (h.proc x r hx).of_runnable hst
        exact procOk_runnable hst h1 h2 hFp
      · rw [hF x hxp]
        exact h.proc x r hx
    · exact (heq k x).trans (h.sem k x)
    · rw [eq_nil_iff_forall_not_mem]
      intro x hx
      have hx' := (heq k x).mp hx
      rw [h.value k hv] at hx'
      exact absurd hx' not_mem_nil
  · have hs := h.sleeping_of hq hr hz
    obtain ⟨hkin, hasleep⟩ := modProc_wake hq hs
    exact ⟨h.wake hq hs hI hl (h.mem_dequeued hp) hnodup hstdin hstdinNodup hF hFp,
      { SameKin.refl s with kin := hkin }, rfl, rfl, rfl, rfl, rfl, hasleep⟩

/-- The readers of the keyboard are woken one after the other. -/
lemma wakeupAll_spec (hc : ClassOk cls I) (l : List ℕ) (h : KInv I s) (hl : s.queues .stdin = l) :
    Spec (wakeupAll cls .stdin wtKbd l) s Harmless fun _ t => KInv I t ∧ Quiet s t := by
  induction l generalizing s with
  | nil => exact .pure ⟨h, .refl s⟩
  | cons p l ih =>
    have hp : p ∈ s.queues .stdin := by
      rw [hl]
      exact mem_cons_self
    refine (wakeupWait_spec hc h hp fun k hk => by cases hk).bind fun _ t ht => ?_
    obtain ⟨h1, h2, h3, h4, h5, h6, h7, h8⟩ := ht
    have hq : Quiet s t := by
      refine { h2 with value := h3, queue := fun k => ?_, current := h5, conts := h6,
                       switching := h7, asleep := h8 }
      rw [h4]
      exact dequeued_of_ne (by simp)
    refine (ih h1 ?_).mono fun _ u hu => ⟨hu.1, hq.trans hu.2⟩
    rw [h4, Kernel.dequeued, update_self, hl, erase_cons_head]

/-- **`dev_stdin_write`** wakes the readers. -/
lemma stdinWrite_spec (hc : ClassOk cls I) (h : KInv I s) :
    Spec (stdinWrite cls) s Harmless fun _ t => KInv I t ∧ Quiet s t :=
  .read_bind (wakeupAll_spec hc _ h rfl)

/-- **`do_kill`.** -/
lemma doKill_spec (hc : ClassOk cls I) (h : KInv I s) (pid : ℤ) :
    Spec (doKill cls pid) s Harmless fun _ t => KInv I t ∧ Quiet s t := by
  refine .read_bind ?_
  cases hp : s.findProc pid with
  | none => exact .pure ⟨h, .refl s⟩
  | some p =>
    refine getProc_bind (fun _ => trivial) fun q hq => ?_
    refine .ite (fun _ => .pure ⟨h, .refl s⟩) fun _ => ?_
    refine .modify_bind ?_
    have h1 : KInv I (s.modProc p fun q => { q with exiting := true }) :=
      h.modProc fun q => ⟨rfl, rfl⟩
    have hq1 : (s.modProc p fun q => { q with exiting := true }).procs p =
      some { q with exiting := true } := modProc_self hq
    have h2 : Quiet s (s.modProc p fun q => { q with exiting := true }) := by
      refine { Quiet.refl s with kin := kin_modProc fun _ _ => rfl, asleep := fun x hx => ?_ }
      by_cases hxp : x = p
      · subst hxp
        exact (is_of_proc hq).mpr ((is_of_proc hq1).mp hx)
      · exact (KInv.is_modProc_of_ne hxp).mp hx
    refine .bind (R := fun _ t => KInv I t ∧ Quiet s t) ?_ fun _ t ht => .pure ht
    refine .ite (fun hw => ?_) fun _ => .pure ⟨h1, h2⟩
    refine (h1.wakeup hc fun q' hq' hs k => ?_).mono fun _ t ht => ⟨ht.1, h2.trans ht.2⟩
    cases hq1.symm.trans hq'
    exact (h.proc p q hq).not_down hs (.inr hw) k

/-! ## Semaphores -/

section Sems

variable {k : ℕ}

/-- A change of a semaphore's value. -/
lemma KInv.setValue (h : KInv I s) (v : BitVec 32)
    (hv : semPositive v → s.queues (.sem k) = []) :
    KInv I { s with semValue := update s.semValue k v } := by
  refine { h with value := fun j hj => ?_ }
  change semPositive (update s.semValue k v j) at hj
  by_cases hjk : j = k
  · subst hjk
    rw [update_self] at hj
    exact hv hj
  · rw [update_of_ne hjk] at hj
    exact h.value j hj

/-- **`up`** increments the value if nobody waits, and completes the `down` of the first waiting
process otherwise. -/
lemma semUp_spec (hc : ClassOk cls I) (h : KInv I s) (k : ℕ) :
    Spec (semUp cls k) s Harmless fun r t => KInv I t ∧ SameKin s t ∧ t.current = s.current ∧
      t.conts = s.conts ∧ t.switching = s.switching ∧ (∀ x, t.Is x .sleeping → s.Is x .sleeping) ∧
      SameSemBut k s t ∧
      (s.queues (.sem k) = [] ∧ r = none ∧ t.semValue k = s.semValue k + 1 ∧
          t.queues (.sem k) = [] ∨
        ∃ p l, s.queues (.sem k) = p :: l ∧ r = some p ∧ t.semValue k = s.semValue k ∧
          t.queues (.sem k) = l) := by
  refine .read_bind ?_
  cases hk : s.queues (.sem k) with
  | nil =>
    refine .modify_bind (.pure ?_)
    refine ⟨h.setValue _ fun _ => hk, { SameKin.refl s with }, rfl, rfl, rfl, fun _ hx => hx,
      fun j hj => ⟨update_of_ne hj .., rfl⟩, Or.inl ⟨rfl, rfl, ?_, hk⟩⟩
    exact update_self ..
  | cons p l =>
    have hp : p ∈ s.queues (.sem k) := by
      rw [hk]
      exact mem_cons_self
    have ha := (h.sem k p).mp hp
    refine getProc_bind (fun _ => trivial) fun q hq => .ensure_bind (fun hw => ?_) fun _ => ?_
    · -- a process that sleeps in `__down` has the `wait_state` of a semaphore
      have hs := (h.proc p q hq).of_sleeping ((is_of_proc hq).mp ha.1)
      rw [ha.2] at hs
      exact hw (Option.some.inj hs).symm
    · refine (wakeupWait_spec hc h hp fun _ _ => rfl).bind fun _ t ht => .pure ?_
      obtain ⟨h1, h2, h3, h4, h5, h6, h7, h8⟩ := ht
      refine ⟨h1, h2, h5, h6, h7, h8, fun j hj => ⟨by rw [h3], ?_⟩,
        .inr ⟨p, l, rfl, rfl, by rw [h3], ?_⟩⟩
      · rw [h4]
        exact dequeued_of_ne (by simpa using hj)
      · rw [h4, Kernel.dequeued, update_self, hk, erase_cons_head]

/-- **Taking a semaphore** whose value is positive. -/
lemma KInv.decrement (h : KInv I s) (hv : semPositive (s.semValue k)) :
    KInv I { s with semValue := update s.semValue k (s.semValue k - 1) } :=
  h.setValue _ fun _ => h.value k hv

/-- The current process is executing its code. -/
structure Executes (s : Kernel) : Prop where
  switching : s.switching = false
  run : s.conts s.current = .run
  notIdle : s.current ≠ s.idleproc

lemma Executes.ne_kbd (h : Executes s) : s.conts s.current ≠ .kbd := by
  rw [h.run]
  simp

/-- The state after the current process has gone to sleep at `c`. -/
def Kernel.slept (s : Kernel) (c : Cont) (w : BitVec 32) (Q : QueueId → List ℕ) (F : ℕ → BitVec 32)
    (l : List Timer) : Kernel :=
  { s.modProc s.current (Proc.sleep w) with
    conts := update s.conts s.current c, switching := true, queues := Q, wakeupFlags := F,
    timers := l }

/-- What has changed when the current process has gone to sleep at `c`. -/
structure Slept (s : Kernel) (c : Cont) (t : Kernel) : Prop extends SameKin s t where
  value : t.semValue = s.semValue
  current : t.current = s.current
  switching : t.switching = true
  conts : t.conts = update s.conts s.current c
  asleep : ∀ x, x ≠ s.current → (t.Is x .sleeping ↔ s.Is x .sleeping)
  others : ∀ x, x ≠ s.current → t.procs x = s.procs x

/-- Nobody else has begun to wait. -/
lemma Slept.keepsWaits {c : Cont} (h : Slept s c t) (hc : ∀ pid, c ≠ .wait pid) :
    KeepsWaits s t := by
  intro x pid hx
  have hcont := hx.2
  rw [h.conts] at hcont
  by_cases hxc : x = s.current
  · rw [hxc, update_self] at hcont
    exact absurd hcont (hc pid)
  · rw [update_of_ne hxc] at hcont
    exact ⟨(h.asleep x hxc).mp hx.1, hcont⟩

/-- **The current process goes to sleep** at `c`, outside the queues of the semaphores or in the
queue of the one it goes down on. -/
lemma KInv.sleep (h : KInv I s) (hsw : s.switching = false) (hi : s.current ≠ s.idleproc)
    (hk : s.conts s.current ≠ .kbd) {c : Cont} {w : BitVec 32} (hc : c.waitState = some w)
    {Q : QueueId → List ℕ} {F : ℕ → BitVec 32}
    (hsem : ∀ k x, x ∈ Q (.sem k) ↔ x ∈ s.queues (.sem k) ∨ x = s.current ∧ c = .down k)
    (hnodup : ∀ k, (Q (.sem k)).Nodup) (hval : ∀ k, semPositive (s.semValue k) → Q (.sem k) = [])
    (hstdin : ∀ x ∈ Q .stdin, x ∈ s.queues .stdin ∨ x = s.current ∧ c = .kbd)
    (hstdinNodup : (Q .stdin).Nodup) (hF : ∀ x, x ≠ s.current → F x = s.wakeupFlags x)
    (l : List Timer) :
    KInv I (s.slept c w Q F l) ∧ Slept s c (s.slept c w Q F l) := by
  obtain ⟨q, hq, hr⟩ := h.active hsw
  have hz : q.state ≠ .zombie := by
    rw [hr]
    decide
  constructor
  · have h1 := h.leave hq hr hi hk (f := Proc.sleep w) (c := c) (Q := Q) (F := F)
      (fun _ => procOk_sleeping rfl hc) (fun k x => ?_) hnodup hval hstdin hstdinNodup hF
    · exact (h1.setTimers l).1
    · rw [hsem]
      simp [Proc.sleep]
  · refine ⟨{ SameKin.refl s with kin := ?_ }, rfl, rfl, rfl, rfl, fun x hx => ?_,
      fun x hx => modProc_of_ne hx⟩
    · refine kin_modProc fun q' hq' => ?_
      cases hq.symm.trans hq'
      exact kin_sleep hz w
    · exact KInv.is_modProc_of_ne hx

/-- **`down`** takes the semaphore or goes to sleep at the end of its queue. -/
lemma semDown_spec (h : KInv I s) (he : Executes s) (k : ℕ) :
    Spec (semDown k) s Harmless fun r t => KInv I t ∧ SameKin s t ∧ KeepsWaits s t ∧
      t.current = s.current ∧
      SameSemBut k s t ∧
      (r = true ∧ semPositive (s.semValue k) ∧ t.semValue k = s.semValue k - 1 ∧
          t.queues (.sem k) = s.queues (.sem k) ∧ t.conts = s.conts ∨
        r = false ∧ ¬semPositive (s.semValue k) ∧ t.semValue k = s.semValue k ∧
          t.queues (.sem k) = s.queues (.sem k) ++ [s.current] ∧
          t.conts = update s.conts s.current (.down k)) := by
  refine .read_bind (.ite (fun hv => ?_) fun hv => ?_)
  · refine .modify_bind (.pure ?_)
    exact ⟨h.decrement hv, { SameKin.refl s with }, fun _ _ hp => hp, rfl,
      fun j hj => ⟨update_of_ne hj .., rfl⟩, Or.inl ⟨rfl, hv, update_self .., rfl, rfl⟩⟩
  · have hcur := h.active he.switching
    have hnot : s.current ∉ s.queues (.sem k) :=
      h.notMem_sem (fun hs => by cases hcur.unique hs) k
    have hsem : ∀ j, j ≠ k → s.enqueued (.sem k) (.sem j) = s.queues (.sem j) := fun j hj =>
      update_of_ne (by simpa using hj) ..
    have hself : s.enqueued (.sem k) (.sem k) = s.queues (.sem k) ++ [s.current] := update_self ..
    have e : (waitCurrentSet (.sem k) wtKsem >>= fun _ => Comp.modify (fun s : Kernel =>
        { s with conts := update s.conts s.current (.down k), switching := true }) >>= fun _ =>
          pure false) s = .ok (false, s.slept (.down k) wtKsem (s.enqueued (.sem k))
            (update s.wakeupFlags s.current wtInterrupted) s.timers) := rfl
    have hmem : ∀ j x, x ∈ s.enqueued (.sem k) (.sem j) ↔
        x ∈ s.queues (.sem j) ∨ x = s.current ∧ Cont.down k = .down j := by
      intro j x
      by_cases hj : j = k
      · subst hj
        simp [hself]
      · rw [hsem j hj]
        simp [Ne.symm hj]
    have hnodup : ∀ j, (s.enqueued (.sem k) (.sem j)).Nodup := by
      intro j
      by_cases hj : j = k
      · subst hj
        rw [hself]
        exact nodup_append.mpr ⟨h.nodup j, nodup_singleton _, by
          simpa using fun x hx (e : x = s.current) => hnot (e ▸ hx)⟩
      · rw [hsem j hj]
        exact h.nodup j
    have hval : ∀ j, semPositive (s.semValue j) → s.enqueued (.sem k) (.sem j) = [] := by
      intro j hj
      have hjk : j ≠ k := fun e => hv (e ▸ hj)
      rw [hsem j hjk]
      exact h.value j hj
    obtain ⟨h1, h2⟩ := h.sleep (F := update s.wakeupFlags s.current wtInterrupted) he.switching
      he.notIdle he.ne_kbd rfl hmem hnodup hval (fun x hx => .inl hx) h.stdinNodup
      (fun x hx => update_of_ne hx ..) s.timers
    exact .of_ok e ⟨h1, h2.toSameKin, h2.keepsWaits fun _ => by simp, rfl,
      fun j hj => ⟨rfl, hsem j hj⟩, .inr ⟨rfl, hv, rfl, hself, rfl⟩⟩

end Sems

end Ucore

import Ucore.Process.Fork
import Ucore.Schedule.DefaultSched
import Ucore.Schedule.DefaultSchedStride

set_option autoImplicit false

/-!
# Every step keeps the invariants

## Main definitions

* `SemStep` — what a step does to a semaphore.
* `Does` — what a step does.

## Main results

* `exec_spec` — a step keeps the invariants, and it ends in none of the panics that they
  exclude.
* `boot_live`, `Run.live` — the invariants hold in every state reached.
* `stride_run_queue`, `wait_queues_exclusive` — the queues in every run.
-/

namespace Ucore

open Function Comp List

/-- **What a step does to the semaphore `k`.** -/
inductive SemStep (k : ℕ) (s : Kernel) : Op → Outcome → Kernel → Prop
  /-- nothing -/
  | other {op : Op} {out : Outcome} {t : Kernel} (hup : op ≠ .up k)
    (hdown : op = .down k ∨ op = .tryDown k → out = .none)
    (hv : t.semValue k = s.semValue k) (hq : t.queues (.sem k) = s.queues (.sem k)) :
    SemStep k s op out t
  /-- the current process takes a permit -/
  | take {op : Op} {t : Kernel} (hop : op = .down k ∨ op = .tryDown k)
    (hpos : semPositive (s.semValue k)) (hv : t.semValue k = s.semValue k - 1)
    (hq : t.queues (.sem k) = s.queues (.sem k)) : SemStep k s op (.downed s.current) t
  /-- the current process waits -/
  | wait {t : Kernel} (hpos : ¬semPositive (s.semValue k)) (hv : t.semValue k = s.semValue k)
    (hq : t.queues (.sem k) = s.queues (.sem k) ++ [s.current]) : SemStep k s (.down k) .none t
  /-- a permit is given back -/
  | give {t : Kernel} (hs : s.queues (.sem k) = []) (hv : t.semValue k = s.semValue k + 1)
    (hq : t.queues (.sem k) = []) : SemStep k s (.up k) .none t
  /-- a permit is handed to the process that has waited longest -/
  | hand {t : Kernel} {p : ℕ} {l : List ℕ} (hs : s.queues (.sem k) = p :: l)
    (hv : t.semValue k = s.semValue k) (hq : t.queues (.sem k) = l) :
    SemStep k s (.up k) (.downed p) t

/-- The steps that neither create a process nor end or reap one. -/
def KeepsKin (s : Kernel) : Op → Prop
  | .fork _ _ | .exit _ | .wait _ => False
  | .resume => ∀ pid, s.conts s.current ≠ .wait pid
  | _ => True

section Run

variable {cls : SchedClass} {I : SchedState → Prop} {s t : Kernel} {op : Op} {out : Outcome}

/-- **What every step does**: it keeps the invariants, does not use a freed address again, and reaps
only zombie children of the current process. -/
structure Advances (I : SchedState → Prop) (s : Kernel) (out : Outcome) (t : Kernel) : Prop where
  live : Live I t
  free : KeepsFree s t
  reaped : ∀ p code, out = .reaped p code → Reaped s p code t

/-- **What every step does**, also to the semaphores and the families. -/
structure Does (I : SchedState → Prop) (s : Kernel) (op : Op) (out : Outcome) (t : Kernel) : Prop
    extends Advances I s out t where
  sem : ∀ k, SemStep k s op out t
  kin : KeepsKin s op → SameKin s t

lemma Advances.of_same (h : Live I s) (ht : KInv I t) (hk : SameKin s t) (hw : KeepsWaits s t)
    (ho : ∀ p code, out ≠ .reaped p code) : Advances I s out t :=
  ⟨⟨ht, h.family.of_same hk hw⟩, hk.keepsFree, fun p code e => absurd e (ho p code)⟩

lemma SemStep.of_same (h : SameSem s t)
    (hop : ∀ j, op ≠ .up j ∧ op ≠ .down j ∧ op ≠ .tryDown j) (k : ℕ) : SemStep k s op out t :=
  .other (hop k).1 (fun h => h.elim (fun e => absurd e (hop k).2.1) fun e => absurd e (hop k).2.2)
    (by rw [h.value]) (h.queue k)

lemma SemStep.of_sameBut {j k : ℕ} (h : SameSemBut j s t) (hkj : k ≠ j) (hup : op ≠ .up k)
    (hdown : op ≠ .down k ∧ op ≠ .tryDown k) : SemStep k s op out t :=
  .other hup (fun h => h.elim (fun e => absurd e hdown.1) fun e => absurd e hdown.2) (h k hkj).1
    (h k hkj).2

lemma StaysCalm.does (h : Live I s) (ht : StaysCalm I s out t)
    (hop : ∀ j, op ≠ .up j ∧ op ≠ .down j ∧ op ≠ .tryDown j) : Does I s op out t :=
  ⟨.of_same h ht.1 ht.2.1.toSameKin ht.2.1.waits fun p code => by simp [ht.2.2],
    .of_same ht.2.1.toSameSem hop, fun _ => ht.2.1.toSameKin⟩

lemma Kernel.downedIf_ne (s : Kernel) (b : Bool) (p : ℕ) (code : ℤ) :
    s.downedIf b ≠ .reaped p code := by
  unfold Kernel.downedIf
  split_ifs <;> simp

lemma WaitResult.outcome_eq {r : WaitResult} {p : ℕ} {code : ℤ} (h : r.outcome = .reaped p code) :
    r = .reaped p code := by
  cases r with
  | reaped p' code' =>
    cases h
    rfl
  | badProc | asleep => cases h

section

variable (hc : ClassOk cls I) (h : Live I s)
include hc h

/-- **A process returns from `schedule` in `do_wait`.** -/
lemma resumeWait_spec (hsw : s.switching = false) {pid : ℤ} (hw : s.conts s.current = .wait pid) :
    Spec (resume cls) s Harmless fun out t => Advances I s out t ∧ Ages s t := by
  have hi : s.current ≠ s.idleproc := by
    intro e
    rw [e, h.kinv.idle.2] at hw
    cases hw
  refine .read_bind ?_
  rw [hw]
  refine (doWaitResume_spec hc h hsw (by rw [hw]; simp) hi pid).bind fun r t ht => .pure ?_
  exact ⟨⟨ht.1, ht.2.1.toKeepsFree, fun p code e => ht.2.2 p code (r.outcome_eq e)⟩, ht.2.1⟩

/-- **Every step keeps the invariants** and ends in none of the panics that they exclude. -/
lemma exec_spec (he : Enabled s op) : Spec (exec cls op) s Harmless (Does I s op) := by
  have hcalm : op.calm = true → Spec (exec cls op) s Harmless (Does I s op) := fun hop =>
    (calm_spec hc h.kinv hop he).mono fun _ _ ht => ht.does h fun j => by
      refine ⟨?_, ?_, ?_⟩ <;> rintro rfl <;> cases hop
  cases op with
  | fork new mem =>
    refine (doFork_spec hc h he.1 he.2.2.2 mem).bind fun _ t ht => .pure ?_
    exact ⟨⟨ht.1, ht.2.toKeepsFree, fun p code e => by cases e⟩, .of_same ht.2.toSameSem (by simp),
      False.elim⟩
  | exit code =>
    refine (doExit_spec hc h he.1 (by rw [he.2.1]; simp) code).bind fun _ t ht => .pure ?_
    exact ⟨⟨ht.1, ht.2.toKeepsFree, fun p code e => by cases e⟩, .of_same ht.2.toSameSem (by simp),
      False.elim⟩
  | wait pid =>
    refine (doWait_spec h he.1 (by rw [he.2.1]; simp) he.2.2 pid).bind fun r t ht => .pure ?_
    exact ⟨⟨ht.1, ht.2.1.toKeepsFree, fun p code e => ht.2.2 p code (r.outcome_eq e)⟩,
      .of_same ht.2.1.toSameSem (by simp), False.elim⟩
  | down j =>
    refine (semDown_spec h.kinv ⟨he.1, he.2.1, he.2.2⟩ j).bind fun r t ht => .read_bind (.pure ?_)
    obtain ⟨h1, h2, h3, hcur, hne, hj⟩ := ht
    refine ⟨.of_same h h1 h2 h3 (t.downedIf_ne r), fun k => ?_, fun _ => h2⟩
    by_cases hkj : k = j
    · subst hkj
      rcases hj with ⟨rfl, h1, h2, h3, -⟩ | ⟨rfl, h1, h2, h3, -⟩
      · rw [Kernel.downedIf, if_pos rfl, hcur]
        exact .take (.inl rfl) h1 h2 h3
      · exact .wait h1 h2 h3
    · exact .of_sameBut hne hkj (by simp) (by simp [Ne.symm hkj])
  | tryDown j =>
    refine (semTryDown_spec h.kinv j).bind fun r t ht => .read_bind (.pure ?_)
    obtain ⟨h1, h2, h3, hcur, hne, hj⟩ := ht
    refine ⟨.of_same h h1 h2 h3 (t.downedIf_ne r), fun k => ?_, fun _ => h2⟩
    by_cases hkj : k = j
    · subst hkj
      rcases hj with ⟨rfl, h1, h2, h3⟩ | ⟨rfl, rfl⟩
      · rw [Kernel.downedIf, if_pos rfl, hcur]
        exact .take (.inr rfl) h1 h2 h3
      · exact .other (by simp) (fun _ => rfl) rfl rfl
    · exact .of_sameBut hne hkj (by simp) (by simp [Ne.symm hkj])
  | up j =>
    refine (semUp_spec hc h.kinv j).bind fun r t ht => .pure ?_
    obtain ⟨h1, h2, -, h3, -, h4, hne, hj⟩ := ht
    refine ⟨.of_same h h1 h2 (fun p pid ha => ⟨h4 p ha.1, h3 ▸ ha.2⟩) fun p code => ?_, fun k => ?_,
      fun _ => h2⟩
    · cases r <;> simp
    by_cases hkj : k = j
    · subst hkj
      rcases hj with ⟨h1, rfl, h2, h3⟩ | ⟨p, l, h1, rfl, h2, h3⟩
      · exact .give h1 h2 h3
      · exact .hand h1 h2 h3
    · exact .of_sameBut hne hkj (by simp [Ne.symm hkj]) (by simp)
  | resume =>
    by_cases hw : ∃ pid, s.conts s.current = .wait pid
    · obtain ⟨pid, hw⟩ := hw
      exact (resumeWait_spec hc h he.1 hw).mono fun _ _ ht =>
        ⟨ht.1, .of_same ht.2.toSameSem (by simp), fun hk => absurd hw (hk pid)⟩
    · exact (resume_spec h.kinv he.1 (not_exists.mp hw)).mono fun _ _ ht => ht.does h (by simp)
  | kill pid | sleep time | yield | stdin | setPriority v | schedule | tick char => exact hcalm rfl

lemma Step.advances (hs : Step cls s op out t) : Does I s op out t :=
  (exec_spec hc h hs.1).ok out t hs.2

/-- **The invariants hold in every state reached.** -/
lemma Run.live {log : List Event} (hr : Run cls s log t) : Live I t := by
  induction hr with
  | nil => exact h
  | cons hs _ ih => exact ih (hs.advances hc h).live

end

/-- Executing steps one after the other gives a run. -/
lemma execAll_run (l : List Op) {log : List Event} (h : execAll cls l s = some (log, t)) :
    Run cls s log t := by
  induction l generalizing s log with
  | nil =>
    cases h
    exact Run.nil _
  | cons op l ih =>
    rw [execAll] at h
    split_ifs at h with he
    split at h
    · next out u e =>
      obtain ⟨r, h1, h2⟩ := Option.map_eq_some_iff.mp h
      cases h2
      exact Run.cons ⟨he, e⟩ (ih h1)
    · cases h

/-- What has been computed about the state after given steps holds at the end of a run. -/
lemma exists_run {β : Type} {l : List Op} {g : Kernel → β} {b : β}
    (h : (execAll cls l s).map (fun r => g r.2) = some b) : ∃ log t, Run cls s log t ∧ g t = b := by
  obtain ⟨⟨log, t⟩, e, h⟩ := Option.map_eq_some_iff.mp h
  exact ⟨log, t, execAll_run l e, h⟩

/-- The outcome of a step after given steps. -/
def outcomeAfter (cls : SchedClass) (s : Kernel) (l : List Op) (op : Op) : Option Outcome :=
  (execAll cls l s).bind fun r =>
    if Enabled r.2 op then
      match exec cls op r.2 with
      | .ok (out, _) => some out
      | .error _ => none
    else none

/-- An outcome that has been computed belongs to a run. -/
lemma run_of_outcomeAfter {l : List Op} (h : outcomeAfter cls s l op = some out) :
    ∃ log t u, execAll cls l s = some (log, t) ∧ Run cls s log t ∧ Step cls t op out u := by
  obtain ⟨⟨log, t⟩, h1, h2⟩ := Option.bind_eq_some_iff.mp h
  split_ifs at h2 with he
  split at h2
  · next o u e =>
    cases h2
    exact ⟨log, t, u, h1, execAll_run l h1, he, e⟩
  · cases h2

end Run

/-! ## The initial state -/

lemma initAddr_ne_idleAddr : initAddr ≠ idleAddr := by decide

section Boot

variable {I : SchedState → Prop} {sched : SchedState} {semValue : ℕ → BitVec 32}

lemma boot_procs (p : ℕ) : (boot sched semValue).procs p =
    if p = idleAddr then some ⟨.runnable, 0, none, false, 0, 0, [initAddr]⟩
    else if p = initAddr then some ⟨.runnable, 1, some idleAddr, false, 0, 0, []⟩ else none := rfl

lemma boot_cases {p : ℕ} {q : Proc} (h : (boot sched semValue).procs p = some q) :
    p = idleAddr ∧ q = ⟨.runnable, 0, none, false, 0, 0, [initAddr]⟩ ∨
    p = initAddr ∧ q = ⟨.runnable, 1, some idleAddr, false, 0, 0, []⟩ := by
  rw [boot_procs] at h
  split_ifs at h with h1 h2
  · exact .inl ⟨h1, (Option.some.inj h).symm⟩
  · exact .inr ⟨h2, (Option.some.inj h).symm⟩

lemma boot_idle : (boot sched semValue).procs idleAddr =
    some ⟨.runnable, 0, none, false, 0, 0, [initAddr]⟩ := rfl

lemma boot_init : (boot sched semValue).procs initAddr =
    some ⟨.runnable, 1, some idleAddr, false, 0, 0, []⟩ := rfl

/-- No process sleeps in the initial state. -/
lemma boot_is {p : ℕ} {st : ProcState} :
    (boot sched semValue).Is p st ↔ (p = idleAddr ∨ p = initAddr) ∧ st = .runnable := by
  constructor
  · rintro ⟨q, hq, rfl⟩
    rcases boot_cases hq with ⟨rfl, rfl⟩ | ⟨rfl, rfl⟩
    · exact ⟨.inl rfl, rfl⟩
    · exact ⟨.inr rfl, rfl⟩
  · rintro ⟨rfl | rfl, rfl⟩
    · exact ⟨_, boot_idle, rfl⟩
    · exact ⟨_, boot_init, rfl⟩

/-- The invariant of the kernel holds initially. -/
lemma boot_kinv (hI : I sched) (hl : sched.rq.runList = [initAddr]) :
    KInv I (boot sched semValue) := by
  refine ⟨hI, fun p => ?_, ⟨boot_is.mpr ⟨.inl rfl, rfl⟩, rfl⟩, by simp [boot],
    fun _ => boot_is.mpr ⟨.inl rfl, rfl⟩, fun p q hq => ?_, fun k p => ?_, fun _ => nodup_nil,
    fun _ _ => rfl, fun p hp => absurd hp not_mem_nil, nodup_nil, fun p hp => ?_⟩
  · change p ∈ sched.rq.runList ↔ p ≠ idleAddr ∧ p ≠ idleAddr ∧ _
    rw [hl, boot_is, mem_singleton]
    constructor
    · rintro rfl
      exact ⟨by decide, by decide, .inr rfl, rfl⟩
    · exact fun h => h.2.2.1.resolve_left h.1
  · rcases boot_cases hq with ⟨rfl, rfl⟩ | ⟨rfl, rfl⟩
    · exact ⟨rfl, by simp [boot], fun k hk => by cases hk⟩
    · exact ⟨rfl, by simp [boot], fun k hk => by cases hk⟩
  · constructor
    · exact fun hp => absurd hp not_mem_nil
    · rintro ⟨h1, -⟩
      cases (boot_is.mp h1).2
  · obtain ⟨q, hq⟩ := Option.ne_none_iff_exists'.mp hp
    rcases boot_cases hq with ⟨rfl, -⟩ | ⟨rfl, -⟩
    · exact Finset.mem_insert_self ..
    · exact Finset.mem_insert_of_mem (Finset.mem_singleton_self _)

/-- **The invariants hold initially.** -/
lemma boot_live (hI : I sched) (hl : sched.rq.runList = [initAddr]) :
    Live I (boot sched semValue) := by
  have hkin : ∀ p k, (boot sched semValue).kin p = some k →
      p = idleAddr ∧ k = ⟨0, none, [initAddr], 0, false⟩ ∨
      p = initAddr ∧ k = ⟨1, some idleAddr, [], 0, false⟩ := by
    intro p k hk
    obtain ⟨q, hq, rfl⟩ := kin_eq_some.mp hk
    exact (boot_cases hq).imp (fun h => ⟨h.1, by rw [h.2]; rfl⟩) fun h => ⟨h.1, by rw [h.2]; rfl⟩
  have hidle : (boot sched semValue).kin idleAddr = some ⟨0, none, [initAddr], 0, false⟩ := rfl
  have hinit : (boot sched semValue).kin initAddr = some ⟨1, some idleAddr, [], 0, false⟩ := rfl
  have hpid : ∀ p v, (boot sched semValue).pidOf p = some v → p ≠ idleAddr → p = initAddr ∧
      v = 1 := by
    intro p v hv hp
    rw [PidTable.pidOf_eq] at hv
    obtain ⟨k, hk, rfl⟩ := Option.map_eq_some_iff.mp hv
    rcases hkin p k hk with ⟨h1, -⟩ | ⟨h1, rfl⟩
    · exact absurd h1 hp
    · exact ⟨h1, rfl⟩
  refine ⟨boot_kinv hI hl, ⟨⟨⟨_, hidle, rfl, rfl⟩, ⟨_, hinit, rfl, rfl⟩, fun c k hc hci => ?_,
    fun p k hp c => ?_, fun p k hp => ?_⟩, ⟨fun p => ?_, nodup_singleton _, fun b p => ?_,
    fun b => ?_, fun p p' v hv hv' hp hp' => ?_, fun p v hv hp => ?_, fun p v hv hp => ?_,
    ⟨le_rfl, le_rfl⟩⟩⟩, fun p pid ha => ?_⟩
  · rcases hkin c k hc with ⟨h1, -⟩ | ⟨rfl, rfl⟩
    · exact absurd h1 hci
    · exact ⟨idleAddr, _, rfl, by decide, hidle, fun hd => by cases hd⟩
  · constructor
    · intro hc
      rcases hkin p k hp with ⟨rfl, rfl⟩ | ⟨rfl, rfl⟩
      · cases mem_singleton.mp hc
        exact ⟨_, hinit, rfl⟩
      · exact absurd hc not_mem_nil
    · rintro ⟨kc, hc, hcp⟩
      rcases hkin c kc hc with ⟨rfl, rfl⟩ | ⟨rfl, rfl⟩
      · cases hcp
      · cases hcp
        cases hidle.symm.trans hp
        exact mem_singleton_self _
  · rcases hkin p k hp with ⟨rfl, rfl⟩ | ⟨rfl, rfl⟩
    · exact nodup_singleton _
    · exact nodup_nil
  · change p ∈ [initAddr] ↔ _
    rw [mem_singleton]
    constructor
    · rintro rfl
      exact ⟨by simp [PidTable.pidOf_eq, hinit], initAddr_ne_idleAddr⟩
    · rintro ⟨h1, h2⟩
      obtain ⟨v, hv⟩ := Option.ne_none_iff_exists'.mp h1
      exact (hpid p v hv h2).1
  · change p ∈ (if b = pidHashfn 1 then [initAddr] else []) ↔ _
    constructor
    · intro hp
      split_ifs at hp with hb
      · cases mem_singleton.mp hp
        exact ⟨initAddr_ne_idleAddr, 1, rfl, hb.symm⟩
      · exact absurd hp not_mem_nil
    · rintro ⟨h1, v, hv, hb⟩
      obtain ⟨rfl, rfl⟩ := hpid p v hv h1
      rw [if_pos hb.symm]
      exact mem_singleton_self _
  · change (if b = pidHashfn 1 then [initAddr] else []).Nodup
    split_ifs
    · exact nodup_singleton _
    · exact nodup_nil
  · rw [(hpid p v hv hp).1, (hpid p' v hv' hp').1]
  · rw [(hpid p v hv hp).2]
    decide
  · rw [(hpid p v hv hp).2]
    exact .inl le_rfl
  · cases (boot_is.mp ha.1).2

end Boot

/-- **A scheduling class with its run queue after `proc_init`**, in which `initproc` has been
put. -/
structure Scheduler where
  cls : SchedClass
  queue : SchedState
  Inv : SchedState → Prop
  ok : ClassOk cls Inv
  inv : Inv queue
  runList : queue.rq.runList = [initAddr]

/-- The state after `proc_init`. -/
def Scheduler.boot (S : Scheduler) (semValue : ℕ → BitVec 32) : Kernel :=
  Ucore.boot S.queue semValue

/-- **The invariants hold in every state that the kernel reaches.** -/
lemma Scheduler.live (S : Scheduler) {semValue : ℕ → BitVec 32} {log : List Event}
    {s : Kernel} (h : Run S.cls (S.boot semValue) log s) : Live S.Inv s :=
  h.live S.ok (boot_live S.inv S.runList)

/-- The queue of the round-robin class after `proc_init`. -/
def rrBoot : SchedState :=
  { (rrInit fun _ => allocEnt).modEnt initAddr (·.rrQueued maxTimeSlice) with
    rq := (rrInit fun _ => allocEnt).rq.push initAddr }

/-- The round-robin class. -/
def rrScheduler : Scheduler where
  cls := defaultSchedClass
  queue := rrBoot
  Inv := RrOk
  ok := rr_classOk
  inv := by
    have h : RrOk (rrInit fun _ => allocEnt) :=
      ⟨nodup_nil, rfl, by decide, fun _ => by simp [rrInit, allocEnt]; decide,
        fun p hp => absurd hp not_mem_nil⟩
    exact h.push not_mem_nil
  runList := rfl

/-- The queue of the stride class after `proc_init`. -/
def strideBoot (par : StrideParams) : SchedState :=
  (strideInit fun _ => allocEnt).strideQueued par initAddr

/-- The stride class. -/
def strideScheduler (par : StrideParams) : Scheduler where
  cls := strideSchedClass par
  queue := strideBoot par
  Inv := StrideOk
  ok := stride_classOk par
  inv := by
    have h : StrideOk (strideInit fun _ => allocEnt) :=
      ⟨nodup_nil, rfl, rfl, fun p => by simp [strideInit, allocEnt]⟩
    exact h.queued not_mem_nil
  runList := rfl

/-- **The run queue under the stride class.** In every run of the kernel, the list and the heap hold
the runnable processes but the current one and `idleproc`, each once, and no assertion of the class
fails. -/
theorem stride_run_queue (par : StrideParams) (v : ℕ → BitVec 32) {log : List Event} {s : Kernel}
    (h : Run (strideSchedClass par) ((strideScheduler par).boot v) log s) : StrideOk s.sched ∧
    (∀ p, p ∈ s.sched.rq.runList ↔ p ≠ s.current ∧ p ≠ s.idleproc ∧ s.Is p .runnable) ∧
    ∀ op, Enabled s op → ∀ e, exec (strideSchedClass par) op s ≠ .error (.sched e) := by
  have hl := (strideScheduler par).live h
  exact ⟨hl.kinv.sched, hl.kinv.queued,
    fun op he e => (exec_spec (stride_classOk par) hl he).panic _⟩

/-- `initproc` forks a process and yields to it. -/
theorem stride_run_queue_fork : ∃ log s,
    Run (strideSchedClass lab8Params) ((strideScheduler lab8Params).boot fun _ => 0) log s ∧
    s.current = 2 ∧ s.sched.rq.runList = [1] ∧ StrideOk s.sched ∧ s.Is 1 .runnable := by
  have h : ((execAll (strideSchedClass lab8Params) [.yield, .schedule, .fork 2 .enough, .yield,
      .schedule] ((strideScheduler lab8Params).boot fun _ => 0)).map fun r =>
      (r.2.current, r.2.sched.rq.runList)) = some (2, [1]) := by decide +kernel
  obtain ⟨log, s, hr, h⟩ := exists_run (g := fun s => (s.current, s.sched.rq.runList)) h
  obtain ⟨hc, hl⟩ := Prod.mk.inj h
  obtain ⟨hok, hq, -⟩ := stride_run_queue lab8Params (fun _ => 0) hr
  exact ⟨log, s, hr, hc, hl, hok, ((hq 1).mp (by rw [hl]; exact mem_singleton_self 1)).2.2⟩

/-- **Where processes wait.** In every run of the kernel, no process is twice in a wait queue; one
in the queue of a semaphore is in no other one and not in the run list; a zombie is in none; and the
assertion of `wait_queue_del` does not fail. -/
theorem wait_queues_exclusive (S : Scheduler) (v : ℕ → BitVec 32) {log : List Event} {s : Kernel}
    (h : Run S.cls (S.boot v) log s) : (∀ w, (s.queues w).Nodup) ∧
    (∀ k, ∀ p ∈ s.queues (.sem k), p ∉ s.sched.rq.runList ∧ ∀ w, p ∈ s.queues w → w = .sem k) ∧
    (∀ p, s.Is p .zombie → p ∉ s.sched.rq.runList ∧ ∀ w, p ∉ s.queues w) ∧
    ∀ op, Enabled s op → exec S.cls op s ≠ .error .waitDel := by
  have hl := S.live h
  have hk := hl.kinv
  have hrun : ∀ p ∈ s.sched.rq.runList, s.Is p .runnable := fun p hp => ((hk.queued p).mp hp).2.2
  refine ⟨?_, fun k p hp => ?_, fun p hz => ⟨fun hr => ?_, ?_⟩,
    fun op he => (exec_spec S.ok hl he).panic _⟩
  · rintro (k | _)
    exacts [hk.nodup k, hk.stdinNodup]
  · obtain ⟨hs, hc⟩ := (hk.sem k p).mp hp
    refine ⟨fun hr => ?_, ?_⟩
    · cases hs.unique (hrun p hr)
    rintro (k' | _) hw
    · cases hc.symm.trans ((hk.sem k' p).mp hw).2
      rfl
    · cases hc.symm.trans (hk.stdin p hw).2
  · cases hz.unique (hrun p hr)
  · obtain ⟨q, hq, hst⟩ := hz
    have hok := hk.proc p q hq
    simp only [ProcOk, hst] at hok
    rintro (k | _) hw
    · cases hok.2.symm.trans ((hk.sem k p).mp hw).2
    · cases hok.2.symm.trans (hk.stdin p hw).2

/-- `initproc` forks a process and waits at a semaphore; the other process wakes it up. -/
theorem wait_queues_exclusive_woken : ∃ log log' s t,
    Run rrScheduler.cls (rrScheduler.boot fun _ => 0) log s ∧ s.current = 2 ∧
    s.queues (.sem 0) = [1] ∧ 1 ∉ s.sched.rq.runList ∧
    Run rrScheduler.cls (rrScheduler.boot fun _ => 0) log' t ∧ t.current = 2 ∧
    t.queues (.sem 0) = [] ∧ t.sched.rq.runList = [1] ∧ ∀ w, (t.queues w).Nodup := by
  have h : ((execAll rrScheduler.cls [.yield, .schedule, .fork 2 .enough, .down 0, .schedule]
      (rrScheduler.boot fun _ => 0)).map fun r => (r.2.current, r.2.queues (.sem 0))) =
      some (2, [1]) := by decide +kernel
  have h' : ((execAll rrScheduler.cls [.yield, .schedule, .fork 2 .enough, .down 0,
    .schedule, .up 0]
      (rrScheduler.boot fun _ => 0)).map fun r =>
      (r.2.current, r.2.queues (.sem 0), r.2.sched.rq.runList)) = some (2, [], [1]) := by
    decide +kernel
  obtain ⟨log, s, hr, h⟩ := exists_run (g := fun s => (s.current, s.queues (.sem 0))) h
  obtain ⟨log', t, hr', h'⟩ :=
    exists_run (g := fun s => (s.current, s.queues (.sem 0), s.sched.rq.runList)) h'
  simp only [Prod.mk.injEq] at h h'
  obtain ⟨-, hq, -⟩ := wait_queues_exclusive rrScheduler (fun _ => 0) hr
  refine ⟨log, log', s, t, hr, h.1, h.2, (hq 0 1 (by rw [h.2]; exact mem_singleton_self 1)).1, hr',
    h'.1, h'.2.1, h'.2.2, (wait_queues_exclusive rrScheduler (fun _ => 0) hr').1⟩

end Ucore

import Ucore.Process.ExitWait

set_option autoImplicit false

/-!
# `do_fork` keeps the invariants

## Main definitions

* `Kernel.forked` — the state after `do_fork`.

## Main results

* `doFork_spec`.
-/

namespace Ucore

open Function Comp

section Fork

variable {cls : SchedClass} {I : SchedState → Prop} {s t : Kernel} {new : ℕ} {q : Proc}

/-- The state after the process `q` has been put at the address `new` and into the run queue. -/
def Kernel.added (s : Kernel) (new : ℕ) (q : Proc) (sch : SchedState) : Kernel :=
  { s with procs := update s.procs new (some q), sched := sch, conts := update s.conts new .run,
           used := insert new s.used }

/-- **A new process is runnable and queued.** -/
lemma KInv.added {sch : SchedState} (h : KInv I s) (hnew : new ∉ s.used) (hq : q.state = .runnable)
    (hw : q.waitState = 0) (hI : I sch) (hl : sch.rq.runList = s.sched.rq.runList ++ [new]) :
    KInv I (s.added new q sch) := by
  have hnone : s.procs new = none := by
    by_contra hn
    exact hnew (h.used new hn)
  have hself : (s.added new q sch).procs new = some q := update_self ..
  have hother : ∀ x, x ≠ new → (s.added new q sch).procs x = s.procs x := fun x hx =>
    update_of_ne hx ..
  have hcont : ∀ x, x ≠ new → (s.added new q sch).conts x = s.conts x := fun x hx =>
    update_of_ne hx ..
  have hne : ∀ x, s.procs x ≠ none → x ≠ new := fun x hx e => hx (e ▸ hnone)
  have hi := hne _ h.idle.1.ne_none
  have hc := hne _ h.cur
  refine ⟨hI, fun x => ?_, ⟨(is_congr (hother _ hi)).mpr h.idle.1, (hcont _ hi).trans h.idle.2⟩, ?_,
    fun hsw => (is_congr (hother _ hc)).mpr (h.active hsw), fun x r hx => ?_,
    fun k x => ?_, h.nodup, h.value, fun x hx => ?_, h.stdinNodup, fun x hx => ?_⟩
  · change x ∈ sch.rq.runList ↔ x ≠ s.current ∧ x ≠ s.idleproc ∧ (s.added new q sch).Is x .runnable
    rw [hl, List.mem_append, List.mem_singleton, h.queued]
    by_cases hx : x = new
    · subst hx
      simp [is_of_proc hself, hq, hc.symm, hi.symm]
    · simp [is_congr (hother x hx), hx]
  · change (s.added new q sch).procs s.current ≠ none
    rw [hother _ hc]
    exact h.cur
  · by_cases hxn : x = new
    · subst hxn
      cases hself.symm.trans hx
      have hrun : (s.added x q sch).conts x = .run := update_self ..
      rw [hrun]
      exact procOk_runnable hq hw (by simp) fun k hk => by cases hk
    · rw [hcont x hxn]
      exact h.proc x r ((hother x hxn).symm.trans hx)
  · change x ∈ s.queues (.sem k) ↔ _
    rw [h.sem, Kernel.Asleep, Kernel.Asleep]
    by_cases hx : x = new
    · subst hx
      rw [is_of_proc hself, hq]
      simp [Kernel.Is, hnone]
    · rw [is_congr (hother x hx), hcont x hx]
  · obtain ⟨h1, h2⟩ := h.stdin x hx
    have hxn := hne x h1
    exact ⟨(hother x hxn).symm ▸ h1, (hcont x hxn).trans h2⟩
  · by_cases hxn : x = new
    · rw [hxn]
      exact Finset.mem_insert_self ..
    · exact Finset.mem_insert_of_mem (h.used x ((hother x hxn) ▸ hx))

/-- The process that `do_fork` creates, after `wakeup_proc`. -/
def forkedProc (parent : ℕ) (pid : ℤ) :
    Proc := { allocProc parent with pid := pid, state := .runnable }

/-- The state after `do_fork`. -/
def Kernel.forked (s : Kernel) (new : ℕ) (pid safe : ℤ) (sch : SchedState) : Kernel :=
  { (s.added new (forkedProc s.current pid) sch).modProc s.current
      fun q => { q with children := new :: q.children } with
    hashList := update s.hashList (pidHashfn pid) (new :: s.hashList (pidHashfn pid))
    procList := new :: s.procList
    nrProcess := s.nrProcess + 1
    lastPid := pid
    nextSafe := safe }

/-- **`do_fork` keeps the invariants.** -/
lemma Live.forked {pid safe : ℤ} {sch : SchedState} (h : Live I s) (hsw : s.switching = false)
    (hnew : new ∉ s.used) (h1 : 1 ≤ pid) (hm : safe ≤ maxPid)
    (hg : Gap (s.procList.filterMap s.pidOf) pid safe) (hI : I sch)
    (hl : sch.rq.runList = s.sched.rq.runList ++ [new]) :
    Live I (s.forked new pid safe sch) ∧ Ages s (s.forked new pid safe sch) := by
  obtain ⟨qc, hqc, hrun⟩ := h.kinv.active hsw
  obtain ⟨hnone, hcn, hin⟩ := h.kinv.unused hnew
  have hkc : s.kin s.current = some qc.kin := kin_eq_some.mpr ⟨qc, hqc, rfl⟩
  have hqc' : (s.added new (forkedProc s.current pid) sch).procs s.current = some qc :=
    (update_of_ne hcn ..).trans hqc
  have hK : (s.forked new pid safe sch).kin = update (update s.kin new
      (some (forkedProc s.current pid).kin)) s.current
      (some { qc.kin with children := new :: qc.kin.children }) := by
    have h2 : (s.added new (forkedProc s.current pid) sch).kin =
        update s.kin new (some (forkedProc s.current pid).kin) := by
      funext x
      by_cases hx : x = new
      · subst hx
        simp [Kernel.kin, Kernel.added]
      · simp [Kernel.kin, Kernel.added, hx]
    rw [← h2]
    exact kin_modProc_eq hqc' rfl
  have hpid : ∀ x, (s.forked new pid safe sch).pidOf x = if x = new then some pid
      else s.pidOf x := by
    intro x
    rw [PidTable.pidOf_eq, PidTable.pidOf_eq, hK]
    by_cases hxc : x = s.current
    · rw [hxc, update_self, if_neg hcn, hkc]
      rfl
    · rw [update_of_ne hxc]
      by_cases hx : x = new
      · rw [hx, update_self, if_pos rfl]
        rfl
      · rw [update_of_ne hx, if_neg hx]
  refine ⟨⟨?_, ⟨?_, ?_⟩, fun x v ha c k hc hp hk => ?_⟩, ⟨rfl, fun _ => rfl⟩, ?_, fun x hx hn => ?_⟩
  · have hadd : KInv I (s.added new (forkedProc s.current pid) sch) :=
      h.kinv.added hnew rfl rfl hI hl
    exact (hadd.modProc (p := s.current) (f := fun q => { q with children := new :: q.children })
      fun q => ⟨rfl, rfl⟩).setTable ..
  · refine h.family.tree.add (kin_eq_none.mpr hnone) hkc ?_ rfl rfl hK
    simp [Proc.kin, hrun]
  · refine h.family.pids.add ?_ hin.symm h1 hm hg hpid rfl rfl rfl rfl rfl
    rw [Kernel.pidOf, hnone, Option.map_none]
  · -- the new process is not a zombie, and whoever sleeps has slept before
    rw [hK] at hc
    have hxn : x ≠ new := by
      rintro rfl
      have hcont : update s.conts x .run x = .wait v := ha.2
      rw [update_self] at hcont
      cases hcont
    have hold : s.Asleep x (.wait v) := by
      have hcont : update s.conts new .run x = .wait v := ha.2
      rw [update_of_ne hxn] at hcont
      refine ⟨?_, hcont⟩
      have h3 : ((s.added new (forkedProc s.current pid) sch).modProc s.current
        fun q => { q with children := new :: q.children }).Is x .sleeping := ha.1
      rw [KInv.is_modProc_same] at h3
      · exact (is_congr (update_of_ne hxn ..)).mp h3
      · exact fun _ => rfl
    by_cases hcc : c = s.current
    · rw [hcc, update_self] at hc
      cases hc
      exact h.family.waits x v hold s.current qc.kin hkc hp hk
    · rw [update_of_ne hcc] at hc
      by_cases hcn' : c = new
      · rw [hcn', update_self] at hc
        cases hc
        rfl
      · rw [update_of_ne hcn'] at hc
        exact h.family.waits x v hold c k hc hp hk
  · exact Finset.subset_insert ..
  · have hxn : x ≠ new := fun e => hnew (e ▸ hx)
    exact modProc_eq_none.mpr ((update_of_ne hxn ..).trans hn)

/-- The state of `do_fork` before `hash_proc`. -/
def Kernel.assigned (s : Kernel) (new : ℕ) (pid safe : ℤ) : Kernel :=
  { s with
    procs := update s.procs new (some { allocProc s.current with pid := pid })
    sched := s.sched.modEnt new fun _ => allocEnt
    conts := update s.conts new .run
    used := insert new s.used
    lastPid := pid
    nextSafe := safe }

/-- The state of `do_fork` before `wakeup_proc`. -/
def Kernel.forking (s : Kernel) (new : ℕ) (pid safe : ℤ) : Kernel :=
  { (s.assigned new pid safe).modProc s.current
    fun q => { q with children := new :: q.children } with
    hashList := update s.hashList (pidHashfn pid) (new :: s.hashList (pidHashfn pid))
    procList := new :: s.procList
    nrProcess := s.nrProcess + 1 }

/-- Waking the new process. -/
lemma forking_wake {pid safe : ℤ} {sch : SchedState} (h : s.current ≠ new) :
    { (s.forking new pid safe).modProc new Proc.wake with sched := sch } =
      s.forked new pid safe sch := by
  have hprocs : ((s.forking new pid safe).modProc new Proc.wake).procs =
      (s.forked new pid safe sch).procs := by
    funext x
    by_cases hx : x = new
    · subst hx
      simp [Kernel.modProc, Kernel.forking, Kernel.assigned, Kernel.forked, Kernel.added, h.symm,
        Proc.wake, forkedProc, allocProc]
    · by_cases hc : x = s.current
      · subst hc
        simp [Kernel.modProc, Kernel.forking, Kernel.assigned, Kernel.forked, Kernel.added, hx]
      · simp [Kernel.modProc, Kernel.forking, Kernel.assigned, Kernel.forked, Kernel.added, hx, hc]
  exact congrArg (fun P => { s.forked new pid safe sch with procs := P }) hprocs

/-- **`do_fork`.** -/
lemma doFork_spec (hc : ClassOk cls I) (h : Live I s) (hsw : s.switching = false)
    (hnew : new ∉ s.used) (mem : ForkMem) :
    Spec (doFork cls new mem) s Harmless fun _ t => Live I t ∧ Ages s t := by
  have hstay : Live I s ∧ Ages s s := ⟨h, (Quiet.refl s).ages⟩
  refine .read_bind (.ite (fun _ => .pure hstay) fun _ =>
    .ite (fun _ => .pure hstay) fun _ => getProc_bind (fun _ => trivial) fun qc hqc =>
    .ensure_bind (fun _ => trivial) fun _ =>
    .ite (fun _ => .pure hstay) fun _ => .modify_bind ?_)
  obtain ⟨hnone, hcn, hin⟩ := h.kinv.unused hnew
  have hnotList : new ∉ s.procList := fun hx => by
    refine ((h.family.pids.listed new).mp hx).1 ?_
    rw [Kernel.pidOf, hnone, Option.map_none]
  have hnotRun : new ∉ s.sched.rq.runList := fun hx => ((h.kinv.queued new).mp hx).2.2.ne_none hnone
  -- the pids of the listed processes are those from before
  have hpids : s.procList.filterMap (Kernel.pidOf { s with
      procs := update s.procs new (some (allocProc s.current)),
      sched := s.sched.modEnt new fun _ => allocEnt,
      conts := update s.conts new .run, used := insert new s.used }) =
      s.procList.filterMap s.pidOf := by
    refine List.filterMap_congr fun x hx => ?_
    have hxn : x ≠ new := fun e => hnotList (e ▸ hx)
    simp only [Kernel.pidOf, update_of_ne hxn]
  refine .bind (R := fun pid t => ∃ safe, 1 ≤ pid ∧ safe ≤ maxPid ∧
    Gap (s.procList.filterMap s.pidOf) pid safe ∧ t = s.assigned new pid safe) ?_ fun pid t ht => ?_
  · refine .read_bind ?_
    rw [hpids]
    cases e : getPid (s.procList.filterMap s.pidOf) s.lastPid s.nextSafe with
    | none => exact .halt trivial
    | some r =>
      obtain ⟨pid, safe⟩ := r
      have hmem : ∀ v ∈ s.procList.filterMap s.pidOf, v ≤ s.lastPid ∨ s.nextSafe ≤ v := by
        intro v hv
        obtain ⟨x, hx, hxv⟩ := List.mem_filterMap.mp hv
        exact h.family.pids.gap x v hxv ((h.family.pids.listed x).mp hx).2
      obtain ⟨h1, h2, h3⟩ := getPid_spec h.family.pids.last.1 h.family.pids.last.2 hmem e
      refine .modify_bind (.pure ⟨safe, h1, h2, h3, ?_⟩)
      refine congrArg (fun P => { s.assigned new pid safe with procs := P }) ?_
      simp [Kernel.modProc]
  · obtain ⟨safe, h1, h2, h3, rfl⟩ := ht
    refine .modify_bind (.modify_bind ?_)
    change Spec (wakeupProc cls new >>= fun _ => pure (Except.ok pid)) (s.forking new pid safe)
      Harmless _
    have hsched : I (s.forking new pid safe).sched := hc.alloc s.sched new h.kinv.sched hnotRun
    refine (wakeupProc_spec hc hsched fun _ _ _ => hnotRun).bind fun _ t ht => .pure ?_
    have hq : (s.forking new pid safe).procs new =
        some { allocProc s.current with pid := pid } := by
      rw [Kernel.forking]
      exact (modProc_of_ne hcn.symm).trans (update_self ..)
    rcases ht with ⟨hr, -⟩ | ⟨q, sch, -, -, -, hI, hl, rfl⟩
    · cases (is_of_proc hq).mp hr
    · rw [forking_wake hcn]
      refine h.forked hsw hnew h1 h2 h3 hI ?_
      rw [hl, queuedAfter]
      exact if_neg (not_or.mpr ⟨hcn.symm, hin.symm⟩)

end Fork

end Ucore

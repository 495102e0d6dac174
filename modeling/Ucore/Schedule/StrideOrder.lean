import Ucore.Schedule.StrideKeys

set_option autoImplicit false

/-!
# Runs of the stride class

Processes are created at any time, are enqueued (by `wakeup_proc`, or by `schedule` after they have
run), picked and dequeued by `schedule`, and set their priorities. The true strides are kept next to
the state; they are not part of the program.

A new process starts with the stride `0` and a process that has slept keeps its old one, so the true
strides of the queued processes may be any distance apart, and the comparison modulo `2 ^ 32` may
then be wrong. A priority above `BIG_STRIDE` makes the pass of a process `0`.

## Main definitions

* `StrideOp`, `StrideSys`, `StrideSys.exec` — the steps and the states.
* `StrideSys.Fits` — an enqueued process is near the queued ones, and a priority that is set is
  at most `BIG_STRIDE`.
* `StrideSys.Reach`.

## Main results

* `stride_order` — in runs whose steps fit, wrap-around does not break the order.
* `stride_order_broken` — in general it does.
-/

namespace Ucore

open Function Comp

/-- The state of the scheduler, with the true strides of the processes. -/
structure StrideSys where
  sched : SchedState
  total : ℕ → ℕ

/-- The steps of the stride class. -/
inductive StrideOp
  /-- `alloc_proc` -/
  | create (p : ℕ)
  /-- `stride_enqueue` -/
  | enqueue (p : ℕ)
  /-- `stride_pick_next` and `stride_dequeue`, in `schedule` -/
  | pick
  /-- `lab6_set_priority`, by the process `p` -/
  | setPriority (p : ℕ) (v : BitVec 32)
  /-- `stride_proc_tick` -/
  | tick (p : ℕ)
  deriving DecidableEq

namespace StrideSys

/-- `BIG_STRIDE / priority`, for the priority with which `stride_pick_next` calculates. -/
def pass (par : StrideParams) (e : SchedEnt) : ℕ :=
  par.bigStride.toNat / if e.priority = 0 then 1 else e.priority.toNat

/-- The choice of a process and its removal: the process, if there is one, and the new state. -/
def pickDequeue (par : StrideParams) : Sch (Option ℕ) := do
  let next ← stridePickNext par
  match next with
  | none => pure none
  | some p => do
    strideDequeue par p
    pure (some p)

/-- Run a function of the class; the true strides stay as they are. -/
def call (s : StrideSys) (m : Sch Unit) : Except SchedPanic StrideSys :=
  match m s.sched with
  | .ok (_, t) => .ok { s with sched := t }
  | .error e => .error e

/-- Execute a step. -/
def exec (par : StrideParams) (s : StrideSys) : StrideOp → Except SchedPanic StrideSys
  | .create p => .ok ⟨s.sched.modEnt p fun _ => allocEnt, update s.total p 0⟩
  | .enqueue p => s.call (strideEnqueue par p)
  | .pick =>
    match pickDequeue par s.sched with
    | .ok (none, t) => .ok { s with sched := t }
    | .ok (some p, t) => .ok ⟨t, update s.total p (s.total p + pass par (s.sched.ent p))⟩
    | .error e => .error e
  | .setPriority p v => s.call (lab6SetPriority p v)
  | .tick p => s.call (strideProcTick p)

/-- A process that is created is not queued. -/
def Enabled (s : StrideSys) : StrideOp → Prop
  | .create p => p ∉ s.sched.rq.runList
  | _ => True

/-- **The condition**: an enqueued process has a true stride that is less than `2 ^ 31` away from
those of the queued processes, and a priority that is set is at most `BIG_STRIDE`. -/
def Fits (par : StrideParams) (s : StrideSys) : StrideOp → Prop
  | .enqueue p => ∀ q ∈ s.sched.rq.runList, Near (s.total q) (s.total p)
  | .setPriority _ v => v.toNat ≤ par.bigStride.toNat
  | _ => True

/-- The empty queue, when no process has been picked yet. -/
def init : StrideSys := ⟨strideInit fun _ => allocEnt, fun _ => 0⟩

/-- The states reached by steps that satisfy a condition. -/
inductive Reach (par : StrideParams) (C : StrideSys → StrideOp → Prop) : StrideSys → Prop
  | init : Reach par C init
  | step {s t : StrideSys} {op : StrideOp} (h : Reach par C s) (he : s.Enabled op) (hc : C s op)
    (e : s.exec par op = .ok t) : Reach par C t

/-- **The invariant**: the heap is ordered by the true strides, which are pairwise near, and no
priority is above `BIG_STRIDE`. -/
structure Ordered (par : StrideParams) (s : StrideSys) : Prop where
  ok : StrideOk s.sched
  keys : StrideKeys s.sched s.total
  near : ∀ p ∈ s.sched.rq.runList, ∀ q ∈ s.sched.rq.runList, Near (s.total p) (s.total q)
  priority : ∀ p, (s.sched.ent p).priority.toNat ≤ par.bigStride.toNat

variable {par : StrideParams} {s t : StrideSys} {p : ℕ}

lemma pass_eq (par : StrideParams) (e : SchedEnt) : (e.pass par).toNat = pass par e := by
  unfold SchedEnt.pass pass
  rw [BitVec.toNat_udiv]
  split_ifs <;> rfl

lemma pass_pos {e : SchedEnt} (hb : 0 < par.bigStride.toNat)
    (h : e.priority.toNat ≤ par.bigStride.toNat) : 0 < pass par e := by
  unfold pass
  split_ifs with h0
  · rwa [Nat.div_one]
  · refine Nat.div_pos h ?_
    exact Nat.pos_of_ne_zero fun e0 => h0 (BitVec.eq_of_toNat_eq e0)

/-- A step that changes fields of a process other than its stride. -/
lemma Ordered.modEnt {f : SchedEnt → SchedEnt} (h : Ordered par s)
    (h1 : (f (s.sched.ent p)).onRq = (s.sched.ent p).onRq)
    (h2 : (f (s.sched.ent p)).stride = (s.sched.ent p).stride)
    (h3 : (f (s.sched.ent p)).priority.toNat ≤ par.bigStride.toNat) :
    Ordered par { s with sched := s.sched.modEnt p f } := by
  refine ⟨h.ok.modEnt h1, h.keys.modEnt h2, h.near, fun q => ?_⟩
  by_cases hq : q = p
  · rw [hq, modEnt_self]
    exact h3
  · rw [modEnt_of_ne hq]
    exact h.priority q

lemma pickDequeue_none (h : StrideOk s.sched) (he : s.sched.rq.runList = []) :
    pickDequeue par s.sched = .ok (none, s.sched) := by
  rw [pickDequeue, bind_of_ok (stridePickNext_none (h.pool_nil he))]
  rfl

lemma pickDequeue_some {l r : SkewHeap ℕ} (h : StrideOk s.sched)
    (hp : s.sched.rq.pool = .node l p r) :
    pickDequeue par s.sched = .ok (some p, (s.sched.stridePicked par p).strideDropped p) := by
  obtain ⟨h1, h2, -⟩ := h.pick par hp
  rw [pickDequeue, bind_of_ok h1]
  change (strideDequeue par p >>= fun _ => pure (some p)) (s.sched.stridePicked par p) = _
  rw [bind_of_ok h2]
  rfl

/-- **What `pick` does**: nothing on an empty queue; otherwise it takes a queued process of least
true stride, whose true stride grows by its pass. -/
lemma exec_pick (h : Ordered par s) (e : s.exec par .pick = .ok t) :
    (s.sched.rq.runList = [] ∧ t = s) ∨
    ∃ p l r, s.sched.rq.pool = .node l p r ∧ p ∈ s.sched.rq.runList ∧
      (∀ q ∈ s.sched.rq.runList, s.total p ≤ s.total q) ∧
      t = ⟨(s.sched.stridePicked par p).strideDropped p,
        update s.total p (s.total p + pass par (s.sched.ent p))⟩ := by
  by_cases he : s.sched.rq.runList = []
  · rw [exec, pickDequeue_none h.ok he] at e
    exact .inl ⟨he, (Except.ok.inj e).symm⟩
  · obtain ⟨l, p, r, hp⟩ := h.ok.exists_root he
    rw [exec, pickDequeue_some h.ok hp] at e
    exact .inr ⟨p, l, r, hp, h.ok.root_mem hp, fun q hq => h.keys.root_le h.ok hp hq,
      (Except.ok.inj e).symm⟩

/-- **One step keeps the invariant.** -/
lemma Ordered.step {op : StrideOp} (h : Ordered par s) (hb : 0 < par.bigStride.toNat)
    (he : s.Enabled op) (hf : s.Fits par op) (e : s.exec par op = .ok t) : Ordered par t := by
  cases op with
  | create p =>
    cases e
    have hr : (s.sched.ent p).onRq = false := by
      rw [← Bool.not_eq_true, h.ok.onRq]
      exact he
    have hok : StrideOk (s.sched.modEnt p fun _ => allocEnt) := h.ok.modEnt hr.symm
    refine ⟨hok, ⟨fun q => ?_, ?_⟩, fun x hx y hy => ?_, fun q => ?_⟩
    · change ((s.sched.modEnt p fun _ => allocEnt).ent q).stride =
        BitVec.ofNat 32 (update s.total p 0 q)
      by_cases hq : q = p
      · rw [hq, modEnt_self, update_self]
        rfl
      · rw [modEnt_of_ne hq, update_of_ne hq, h.keys.stride]
    · refine h.keys.ordered.congr fun q hq => update_of_ne ?_ ..
      rintro rfl
      rw [h.ok.pool] at hq
      exact he hq
    · have hx' : x ≠ p := fun e => he (e ▸ hx)
      have hy' : y ≠ p := fun e => he (e ▸ hy)
      change Near (update s.total p 0 x) (update s.total p 0 y)
      rw [update_of_ne hx', update_of_ne hy']
      exact h.near x hx y hy
    · by_cases hq : q = p
      · rw [hq, modEnt_self]
        exact Nat.zero_le _
      · rw [modEnt_of_ne hq]
        exact h.priority q
  | enqueue p =>
    have hp : p ∉ s.sched.rq.runList := by
      intro hp
      have hr := (h.ok.onRq p).mpr hp
      rw [exec, call, strideEnqueue, read_bind_apply, ensure_bind_apply,
        if_neg (by simp [hr])] at e
      cases e
    rw [exec, call, strideEnqueue_apply h.ok hp] at e
    cases e
    have hmem : ∀ x, x ∈ (s.sched.strideQueued par p).rq.runList ↔
        x ∈ s.sched.rq.runList ∨ x = p := by
      intro x
      change x ∈ s.sched.rq.runList ++ [p] ↔ _
      rw [List.mem_append, List.mem_singleton]
    refine ⟨h.ok.queued hp, h.keys.queued h.ok hf, fun x hx y hy => ?_, fun q => ?_⟩
    · rcases (hmem x).mp hx with hx' | hx'
      · rcases (hmem y).mp hy with hy' | hy'
        · exact h.near x hx' y hy'
        · rw [hy']
          exact hf x hx'
      · rw [hx']
        rcases (hmem y).mp hy with hy' | hy'
        · exact (hf y hy').symm
        · rw [hy']
          exact Near.refl _
    · change ((s.sched.modEnt p (·.strideQueued par s.sched.rq.maxTimeSlice)).ent
        q).priority.toNat ≤ _
      by_cases hq : q = p
      · rw [hq, modEnt_self]
        by_cases h0 : (s.sched.ent p).priority = 0
        · simp only [SchedEnt.strideQueued, h0, if_true]
          exact hb
        · simp only [SchedEnt.strideQueued, h0, if_false]
          exact h.priority p
      · rw [modEnt_of_ne hq]
        exact h.priority q
  | pick =>
    rcases exec_pick h e with ⟨-, rfl⟩ | ⟨p, l, r, hp, hmem, hmin, rfl⟩
    · exact h
    · have hk := h.keys.picked par h.ok h.near hp
      rw [pass_eq] at hk
      refine ⟨(h.ok.pick par hp).2.2, hk, fun x hx y hy => ?_, fun q => ?_⟩
      · change x ∈ s.sched.rq.runList.erase p at hx
        change y ∈ s.sched.rq.runList.erase p at hy
        rw [h.ok.nodup.mem_erase_iff] at hx hy
        change Near (update s.total p _ x) (update s.total p _ y)
        rw [update_of_ne hx.1, update_of_ne hy.1]
        exact h.near x hx.2 y hy.2
      · rw [(strideDropped_ent q).2, SchedState.stridePicked]
        by_cases hq : q = p
        · rw [hq, modEnt_self]
          exact h.priority p
        · rw [modEnt_of_ne hq]
          exact h.priority q
  | setPriority p v =>
    cases e
    refine h.modEnt rfl rfl ?_
    split_ifs
    · exact hb
    · exact hf
  | tick p =>
    cases e
    obtain ⟨h1, h2, h3⟩ := (s.sched.ent p).tick_eq
    refine h.modEnt h1 h2 ?_
    rw [h3]
    exact h.priority p

/-- **Every state reached by steps that fit satisfies the invariant.** -/
lemma Reach.ordered (hb : 0 < par.bigStride.toNat) (h : Reach par (Fits par) s) :
    Ordered par s := by
  induction h with
  | init =>
    have hr : ∀ p, (StrideSys.init.sched.ent p).onRq = false := fun _ => rfl
    refine ⟨⟨List.nodup_nil, rfl, rfl, fun p => ?_⟩, ⟨fun _ => rfl, trivial⟩,
      fun p hp => absurd hp List.not_mem_nil, fun p => Nat.zero_le _⟩
    rw [hr]
    constructor
    · intro hf
      cases hf
    · exact fun hp => absurd hp List.not_mem_nil
  | step _ he hf e ih => exact ih.step hb he hf e

instance (s : StrideSys) : (op : StrideOp) → Decidable (s.Enabled op)
  | .create _ => inferInstanceAs (Decidable (_ ∉ _))
  | .enqueue _ | .pick | .setPriority _ _ | .tick _ => inferInstanceAs (Decidable True)

instance (s : StrideSys) : (op : StrideOp) → Decidable (s.Fits par op)
  | .enqueue p => inferInstanceAs (Decidable (∀ q ∈ s.sched.rq.runList,
      s.total q < s.total p + 2 ^ 31 ∧ s.total p < s.total q + 2 ^ 31))
  | .setPriority _ v => inferInstanceAs (Decidable (v.toNat ≤ par.bigStride.toNat))
  | .create _ | .pick | .tick _ => inferInstanceAs (Decidable True)

/-- Take the steps of a list if they can be taken and satisfy the condition. -/
def execAll (par : StrideParams) (C : StrideSys → StrideOp → Prop) [∀ s op, Decidable (C s op)] :
    List StrideOp → StrideSys → Option StrideSys
  | [], s => some s
  | op :: l, s =>
    if s.Enabled op ∧ C s op then
      match s.exec par op with
      | .ok t => execAll par C l t
      | .error _ => none
    else none

/-- Executing steps one after the other leads to a state that is reached. -/
lemma Reach.execAll {C : StrideSys → StrideOp → Prop} [∀ s op, Decidable (C s op)]
    (l : List StrideOp) (h : Reach par C s) (e : StrideSys.execAll par C l s = some t) :
    Reach par C t := by
  induction l generalizing s with
  | nil =>
    cases e
    exact h
  | cons op l ih =>
    rw [StrideSys.execAll] at e
    split_ifs at e with hc
    split at e
    · next u hu => exact ih (h.step hc.1 hc.2 hu) e
    · cases e

end StrideSys

/-- **The stride order in runs that fit.** In every state reached by steps at which an enqueued
process is less than `2 ^ 31` away from the queued ones and no priority above `BIG_STRIDE` is set:

* the strides are the true strides modulo `2 ^ 32`, and the comparison of two queued processes is
  the comparison of their true strides;
* `stride_pick_next` returns `NULL` if no process is queued, otherwise a queued process of least
  true stride;
* the pick makes the true stride of that process larger. -/
theorem stride_order {s : StrideSys}
    (h : StrideSys.Reach lab8Params (StrideSys.Fits lab8Params) s) :
    (∀ p, (s.sched.ent p).stride = BitVec.ofNat 32 (s.total p)) ∧
    (∀ p ∈ s.sched.rq.runList, ∀ q ∈ s.sched.rq.runList, procStrideCompF s.sched.ent p q =
      if s.total q < s.total p then 1 else if s.total p = s.total q then 0 else -1) ∧
    (s.sched.rq.runList = [] → stridePickNext lab8Params s.sched = .ok (none, s.sched)) ∧
    (s.sched.rq.runList ≠ [] → ∃ p u t, stridePickNext lab8Params s.sched = .ok (some p, u) ∧
      p ∈ s.sched.rq.runList ∧ (∀ q ∈ s.sched.rq.runList, s.total p ≤ s.total q) ∧
      s.exec lab8Params .pick = .ok t ∧ s.total p < t.total p) := by
  have hb : 0 < lab8Params.bigStride.toNat := by decide
  have ho := h.ordered hb
  refine ⟨ho.keys.stride, fun p hp q hq => ho.keys.compF (ho.near p hp q hq),
    fun he => stridePickNext_none (ho.ok.pool_nil he), fun hne => ?_⟩
  -- the process that is picked is the root of the heap
  obtain ⟨l, p, r, hp⟩ := ho.ok.exists_root hne
  have hpick : s.exec lab8Params .pick =
      .ok ⟨(s.sched.stridePicked lab8Params p).strideDropped p,
        update s.total p (s.total p + StrideSys.pass lab8Params (s.sched.ent p))⟩ := by
    rw [StrideSys.exec, StrideSys.pickDequeue_some ho.ok hp]
  refine ⟨p, _, _, stridePickNext_some hp, ho.ok.root_mem hp,
    fun q hq => ho.keys.root_le ho.ok hp hq, hpick, ?_⟩
  simp only [update_self]
  exact Nat.lt_add_of_pos_right (StrideSys.pass_pos hb (ho.priority p))

/-- Two processes of which one has been picked before the other is created; the other one is picked
next. -/
theorem stride_order_two : ∃ s u, StrideSys.Reach lab8Params (StrideSys.Fits lab8Params) s ∧
    s.sched.rq.runList = [0, 1] ∧ s.total 0 = 2 ^ 30 ∧ s.total 1 = 0 ∧
    procStrideCompF s.sched.ent 0 1 = 1 ∧ stridePickNext lab8Params s.sched = .ok (some 1, u) := by
  have h : ((StrideSys.execAll lab8Params (StrideSys.Fits lab8Params)
      [.enqueue 0, .pick, .enqueue 0, .create 1, .enqueue 1] StrideSys.init).map fun t =>
      (t.sched.rq.runList, t.total 0, t.total 1)) = some ([0, 1], 2 ^ 30, 0) := by decide +kernel
  obtain ⟨s, he, h⟩ := Option.map_eq_some_iff.mp h
  simp only [Prod.mk.injEq] at h
  obtain ⟨h1, h2, h3⟩ := h
  have hr := StrideSys.Reach.init.execAll _ he
  obtain ⟨-, hcomp, -, hpick⟩ := stride_order hr
  obtain ⟨p, u, -, e, hp, hmin, -⟩ := hpick (by simp [h1])
  have h01 := hcomp 0 (by simp [h1]) 1 (by simp [h1])
  have hle := hmin 1 (by simp [h1])
  have hp1 : p = 1 := by
    rw [h1, List.mem_cons, List.mem_singleton] at hp
    rcases hp with rfl | rfl
    · omega
    · rfl
  rw [h2, h3] at h01
  exact ⟨s, u, hr, h1, h2, h3, h01, hp1 ▸ e⟩

/-- **In general wrap-around breaks the order.** A process with the default priority that has been
picked twice has the true stride `2 ^ 31`; against a process that is created now it counts as the
smaller one. And a process with a priority above `BIG_STRIDE` is picked without getting a larger
stride. -/
theorem stride_order_broken :
    (∃ s, StrideSys.Reach lab8Params (fun _ _ => True) s ∧
      0 ∈ s.sched.rq.runList ∧ 1 ∈ s.sched.rq.runList ∧ s.total 1 < s.total 0 ∧
      procStrideCompF s.sched.ent 0 1 = -1) ∧
    ∃ s t, StrideSys.Reach lab8Params (fun _ _ => True) s ∧ s.exec lab8Params .pick = .ok t ∧
      s.sched.rq.runList = [0] ∧ t.sched.rq.runList = [] ∧ t.total 0 = s.total 0 := by
  constructor
  · have h : ((StrideSys.execAll lab8Params (fun _ _ => True)
        [.enqueue 0, .pick, .enqueue 0, .pick, .create 1, .enqueue 1, .enqueue 0]
        StrideSys.init).map fun t =>
        (t.sched.rq.runList, t.total 0, t.total 1, procStrideCompF t.sched.ent 0 1)) =
        some ([1, 0], 2 ^ 31, 0, -1) := by decide +kernel
    obtain ⟨s, he, h⟩ := Option.map_eq_some_iff.mp h
    simp only [Prod.mk.injEq] at h
    obtain ⟨h1, h2, h3, h4⟩ := h
    refine ⟨s, StrideSys.Reach.init.execAll _ he, by simp [h1], by simp [h1], ?_, h4⟩
    rw [h2, h3]
    decide
  · have h : ((StrideSys.execAll lab8Params (fun _ _ => True)
        [.setPriority 0 0x40000001, .enqueue 0] StrideSys.init).bind fun s =>
        (s.exec lab8Params .pick).toOption.map fun t =>
          (s.sched.rq.runList, t.sched.rq.runList, s.total 0, t.total 0)) =
        some ([0], [], 0, 0) := by decide +kernel
    obtain ⟨s, he, h⟩ := Option.bind_eq_some_iff.mp h
    obtain ⟨t, e, h⟩ := exists_ok h
    simp only [Prod.mk.injEq] at h
    obtain ⟨h1, h2, h3, h4⟩ := h
    exact ⟨s, t, StrideSys.Reach.init.execAll _ he, e, h1, h2, h4.trans h3.symm⟩

end Ucore

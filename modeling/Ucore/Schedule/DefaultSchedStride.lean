import Ucore.Schedule.Defs

set_option autoImplicit false

/-!
# The stride class (`kern/schedule/default_sched_stride.c` of labs 6 and 8)

The two labs differ in the constant `BIG_STRIDE`, in when `stride_enqueue` renews the time slice,
and in an assertion of `stride_dequeue`; these are the parameters of the model.

## Main definitions

* `StrideParams`, `lab6Params`, `lab8Params`.
* `procStrideCompF` — the comparison of two processes.
* `strideEnqueue`, `strideDequeue`, `stridePickNext`, `strideProcTick`.
* `strideSchedClass` — the class.
* `StrideOk` — heap and list hold the same processes.

## Main results

* `stride_classOk` — the class keeps a queue, whatever the strides are.
* `procStrideCompF_eq` — two strides that are less than `2 ^ 31` apart are compared correctly.
-/

namespace Ucore

open Function Comp List

/-- What distinguishes the two versions of the file. -/
structure StrideParams where
  bigStride : BitVec 32
  renew : ℤ → ℤ → Bool
  checkNum : Bool

/-- `lab6`: `BIG_STRIDE` is `0x7fffffffU`. -/
def lab6Params : StrideParams where
  bigStride := 0x7fffffff
  renew timeSlice _ := timeSlice ≤ 0
  checkNum := false

/-- `lab8`: `BIG_STRIDE` is `1 << 30`. -/
def lab8Params : StrideParams where
  bigStride := 0x40000000
  renew timeSlice max := timeSlice = 0 ∨ max < timeSlice
  checkNum := true

/-- `proc_stride_comp_f`: the difference of the strides is looked at as an `int32_t`. -/
def procStrideCompF (ent : ℕ → SchedEnt) (p q : ℕ) : ℤ :=
  let c := ((ent p).stride - (ent q).stride).toInt
  if 0 < c then 1 else if c = 0 then 0 else -1

/-- `stride_init` and the rest of `sched_init` -/
def strideInit (ent : ℕ → SchedEnt) : SchedState :=
  ⟨⟨[], 0, maxTimeSlice, .nil⟩, ent⟩

/-- The fields of a process that `stride_enqueue` sets. -/
def SchedEnt.strideQueued (par : StrideParams) (max : ℤ) (e : SchedEnt) : SchedEnt :=
  { e with timeSlice := if par.renew e.timeSlice max then max else e.timeSlice,
           priority := if e.priority = 0 then 1 else e.priority, onRq := true }

/-- `stride_enqueue` -/
def strideEnqueue (par : StrideParams) (p : ℕ) : Sch Unit := do
  let s ← Comp.read
  Comp.ensure ((s.ent p).onRq = false) .enqueue
  Comp.modify fun s =>
    let pool := skewHeapInsert (procStrideCompF s.ent) s.rq.pool p
    { s.modEnt p (·.strideQueued par s.rq.maxTimeSlice) with
      rq := { s.rq.push p with pool := pool } }

/-- `stride_dequeue` -/
def strideDequeue (par : StrideParams) (p : ℕ) : Sch Unit := do
  let s ← Comp.read
  Comp.ensure ((s.ent p).onRq = true ∧ (par.checkNum = true → 0 < s.rq.procNum)) .dequeue
  Comp.modify fun s =>
    let pool := skewHeapRemove (procStrideCompF s.ent) s.rq.pool p
    { s.modEnt p ({ · with onRq := false }) with rq := { s.rq.drop p with pool := pool } }

/-- The number that is added to the stride of a picked process. -/
def SchedEnt.pass (par : StrideParams) (e : SchedEnt) : BitVec 32 :=
  par.bigStride / (if e.priority = 0 then 1 else e.priority)

/-- `stride_pick_next` -/
def stridePickNext (par : StrideParams) : Sch (Option ℕ) := do
  let s ← Comp.read
  match s.rq.pool.root? with
  | none => pure none
  | some p => do
    Comp.modify (·.modEnt p fun e => { e with stride := e.stride + e.pass par })
    pure (some p)

/-- `stride_proc_tick` -/
def strideProcTick (p : ℕ) : Sch Unit := Comp.modify (·.modEnt p SchedEnt.tick)

/-- `stride_sched_class` -/
def strideSchedClass (par : StrideParams) : SchedClass where
  enqueue := strideEnqueue par
  dequeue := strideDequeue par
  pickNext := stridePickNext par
  procTick := strideProcTick

/-- `lab6_set_priority`, for the current process -/
def lab6SetPriority (current : ℕ) (priority : BitVec 32) : Sch Unit :=
  Comp.modify (·.modEnt current fun e =>
    { e with priority := if priority = 0 then 1 else priority })

/-! ## The comparison -/

/-- **Strides that are less than `2 ^ 31` apart are compared correctly**, however often they have
wrapped around. -/
lemma procStrideCompF_eq {ent : ℕ → SchedEnt} {p q a b : ℕ}
    (ha : (ent p).stride = BitVec.ofNat 32 a) (hb : (ent q).stride = BitVec.ofNat 32 b)
    (h1 : a < b + 2 ^ 31) (h2 : b < a + 2 ^ 31) :
    procStrideCompF ent p q = if b < a then 1 else if a = b then 0 else -1 := by
  have hc : ((ent p).stride - (ent q).stride).toInt = (a : ℤ) - b := by
    rw [ha, hb, BitVec.toInt_sub, BitVec.toInt_ofNat', BitVec.toInt_ofNat', Int.sub_bmod_bmod,
      Int.bmod_sub_bmod, Int.bmod_eq_of_le (by omega) (by omega)]
  simp only [procStrideCompF, hc]
  split_ifs <;> omega

/-! ## The queue -/

/-- **The state of the stride class**: the heap and the list hold the same processes, each of them
once, and these are the processes whose field `rq` is set. -/
structure StrideOk (s : SchedState) : Prop where
  nodup : s.rq.runList.Nodup
  procNum : s.rq.procNum = s.rq.runList.length
  pool : s.rq.pool.elems = (s.rq.runList : Multiset ℕ)
  onRq : ∀ p, (s.ent p).onRq = true ↔ p ∈ s.rq.runList

section Lemmas

variable {par : StrideParams} {s : SchedState} {p : ℕ}

/-- The state after `stride_enqueue`. -/
def SchedState.strideQueued (par : StrideParams) (s : SchedState) (p : ℕ) : SchedState :=
  { s.modEnt p (·.strideQueued par s.rq.maxTimeSlice) with
    rq := { s.rq.push p with pool := skewHeapInsert (procStrideCompF s.ent) s.rq.pool p } }

/-- The state after `stride_pick_next` has returned `p`. -/
def SchedState.stridePicked (par : StrideParams) (s : SchedState) (p : ℕ) : SchedState :=
  s.modEnt p fun e => { e with stride := e.stride + e.pass par }

/-- The state after `stride_dequeue`. -/
def SchedState.strideDropped (s : SchedState) (p : ℕ) : SchedState :=
  { s.modEnt p ({ · with onRq := false }) with
    rq := { s.rq.drop p with pool := skewHeapRemove (procStrideCompF s.ent) s.rq.pool p } }

lemma strideQueued_pass (e : SchedEnt) (max : ℤ) :
    (e.strideQueued par max).pass par = e.pass par := by
  unfold SchedEnt.pass SchedEnt.strideQueued
  by_cases h0 : e.priority = 0
  · simp only [h0, if_true]
    rfl
  · simp only [if_neg h0]

/-- Removing a process changes no stride and no priority. -/
lemma strideDropped_ent (q : ℕ) : ((s.strideDropped p).ent q).stride = (s.ent q).stride ∧
    ((s.strideDropped p).ent q).priority = (s.ent q).priority := by
  change ((s.modEnt p ({ · with onRq := false })).ent q).stride = _ ∧
    ((s.modEnt p ({ · with onRq := false })).ent q).priority = _
  by_cases hq : q = p
  · rw [hq, modEnt_self]
    exact ⟨rfl, rfl⟩
  · rw [modEnt_of_ne hq]
    exact ⟨rfl, rfl⟩

lemma strideEnqueue_apply (h : StrideOk s) (hp : p ∉ s.rq.runList) :
    strideEnqueue par p s = .ok ((), s.strideQueued par p) := by
  have hr : (s.ent p).onRq = false := by
    rw [← Bool.not_eq_true, h.onRq]
    exact hp
  rw [strideEnqueue, read_bind_apply, ensure_bind_apply, if_pos hr]
  rfl

lemma stridePickNext_none (h : s.rq.pool = .nil) : stridePickNext par s = .ok (none, s) := by
  rw [stridePickNext, read_bind_apply, h]
  rfl

lemma stridePickNext_some {l r : SkewHeap ℕ} (h : s.rq.pool = .node l p r) :
    stridePickNext par s = .ok (some p, s.stridePicked par p) := by
  rw [stridePickNext, read_bind_apply, h]
  rfl

lemma strideDequeue_apply (h : (s.ent p).onRq = true) (hn : 0 < s.rq.procNum) :
    strideDequeue par p s = .ok ((), s.strideDropped p) := by
  rw [strideDequeue, read_bind_apply, ensure_bind_apply, if_pos ⟨h, fun _ => hn⟩]
  rfl

section

variable (h : StrideOk s)
include h

lemma StrideOk.modEnt {f : SchedEnt → SchedEnt} (hr : (f (s.ent p)).onRq = (s.ent p).onRq) :
    StrideOk (s.modEnt p f) := by
  refine ⟨h.nodup, h.procNum, h.pool, fun q => ?_⟩
  by_cases hq : q = p
  · rw [hq, modEnt_self, hr, h.onRq, modEnt_rq]
  · rw [modEnt_of_ne hq, h.onRq, modEnt_rq]

/-- The queue after `stride_enqueue`. -/
lemma StrideOk.queued (hp : p ∉ s.rq.runList) : StrideOk (s.strideQueued par p) := by
  refine ⟨?_, ?_, ?_, fun q => ?_⟩
  · exact nodup_append.mpr ⟨h.nodup, nodup_singleton p, fun a ha b hb e =>
      hp ((e.trans (mem_singleton.mp hb)) ▸ ha)⟩
  · simp only [SchedState.strideQueued, push_procNum, push_runList, h.procNum, length_append,
      length_singleton]
    rfl
  · simp only [SchedState.strideQueued, push_runList, elems_skewHeapInsert, h.pool,
      Multiset.cons_coe, Multiset.coe_eq_coe]
    exact (perm_append_singleton p _).symm
  · change ((s.modEnt p _).ent q).onRq = true ↔ q ∈ s.rq.runList ++ [p]
    rw [mem_append, mem_singleton]
    by_cases hq : q = p
    · simp [hq, SchedEnt.strideQueued]
    · rw [modEnt_of_ne hq, h.onRq]
      simp [hq]

lemma StrideOk.root_mem {l r : SkewHeap ℕ} (hp : s.rq.pool = .node l p r) : p ∈ s.rq.runList := by
  rw [← Multiset.mem_coe, ← h.pool, hp]
  simp

/-- The queue after the root has been removed. -/
lemma StrideOk.dropped {l r : SkewHeap ℕ} (hp : s.rq.pool = .node l p r) :
    StrideOk (s.strideDropped p) := by
  have hmem := h.root_mem hp
  have hpos := length_pos_of_mem hmem
  refine ⟨h.nodup.erase p, ?_, ?_, fun q => ?_⟩
  · simp only [SchedState.strideDropped, drop_procNum, drop_runList, h.procNum,
      length_erase_of_mem hmem]
    omega
  · simp only [SchedState.strideDropped, drop_runList, hp, elems_skewHeapRemove_root]
    rw [← Multiset.coe_erase, ← h.pool, hp, elems_node, Multiset.erase_cons_head]
  · change ((s.modEnt p ({ · with onRq := false })).ent q).onRq = true ↔ q ∈ s.rq.runList.erase p
    by_cases hq : q = p
    · simp [hq, h.nodup.mem_erase_iff]
    · rw [modEnt_of_ne hq, h.onRq, h.nodup.mem_erase_iff]
      simp [hq]

lemma StrideOk.pool_nil (he : s.rq.runList = []) : s.rq.pool = .nil := by
  have hp := h.pool
  rw [he] at hp
  cases hn : s.rq.pool with
  | nil => rfl
  | node l a r =>
    rw [hn] at hp
    simp at hp

lemma StrideOk.exists_root (hne : s.rq.runList ≠ []) : ∃ l p r, s.rq.pool = .node l p r := by
  cases hn : s.rq.pool with
  | nil =>
    have hp := h.pool
    rw [hn, elems_nil, eq_comm, Multiset.coe_eq_zero] at hp
    exact absurd hp hne
  | node l a r => exact ⟨l, a, r, rfl⟩

end

variable (par) in
/-- Choosing and removing a process: the root of the heap. -/
lemma StrideOk.pick {l r : SkewHeap ℕ} (h : StrideOk s) (hp : s.rq.pool = .node l p r) :
    stridePickNext par s = .ok (some p, s.stridePicked par p) ∧
    strideDequeue par p (s.stridePicked par p) =
      .ok ((), (s.stridePicked par p).strideDropped p) ∧
    StrideOk ((s.stridePicked par p).strideDropped p) := by
  have hmem := h.root_mem hp
  have hpick : StrideOk (s.stridePicked par p) := h.modEnt rfl
  refine ⟨stridePickNext_some hp, strideDequeue_apply ((hpick.onRq p).mpr hmem) ?_,
    hpick.dropped hp⟩
  rw [hpick.procNum]
  exact_mod_cast length_pos_of_mem hmem

end Lemmas

/-- **The stride class keeps a queue**, whatever the strides are. -/
lemma stride_classOk (par : StrideParams) : ClassOk (strideSchedClass par) StrideOk where
  nodup s h := h.nodup
  enqueue s p h hp := ⟨_, strideEnqueue_apply h hp, h.queued hp, rfl⟩
  pickNone s h he := stridePickNext_none (h.pool_nil he)
  pickSome s h hne := by
    obtain ⟨l, p, r, hp⟩ := h.exists_root hne
    obtain ⟨h1, h2, h3⟩ := h.pick par hp
    exact ⟨p, _, _, h1, h2, h.root_mem hp, h3, rfl⟩
  procTick s p h := ⟨_, rfl, h.modEnt (s.ent p).tick_eq.1, rfl⟩
  resched s p b h := h.modEnt rfl
  alloc s p h hp := by
    refine h.modEnt ?_
    rw [eq_comm]
    change (s.ent p).onRq = false
    rw [← Bool.not_eq_true, h.onRq]
    exact hp
  priority s p v h := h.modEnt rfl

end Ucore

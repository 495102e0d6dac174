import Ucore.Schedule.Defs

set_option autoImplicit false

/-!
# The round-robin class (`lab8/kern/schedule/default_sched.c`)

## Main definitions

* `rrEnqueue`, `rrDequeue`, `rrPickNext`, `rrProcTick`.
* `defaultSchedClass` — the class.
* `RrOk` — the queue is well formed and the time slices are in their range.

## Main results

* `rr_classOk` — the class keeps a queue.
* `rrPickNext_apply` — the first process of the list is chosen.
-/

namespace Ucore

open Function Comp List

/-- `RR_init` and the rest of `sched_init` -/
def rrInit (ent : ℕ → SchedEnt) : SchedState :=
  ⟨⟨[], 0, maxTimeSlice, .nil⟩, ent⟩

/-- The fields of a process that `RR_enqueue` sets. -/
def SchedEnt.rrQueued (e : SchedEnt) (max : ℤ) : SchedEnt :=
  { e with timeSlice := if e.timeSlice = 0 ∨ max < e.timeSlice then max else e.timeSlice,
           onRq := true }

/-- `RR_enqueue` -/
def rrEnqueue (p : ℕ) : Sch Unit := do
  let s ← Comp.read
  Comp.ensure (p ∉ s.rq.runList) .enqueue
  Comp.modify fun s => { s.modEnt p (·.rrQueued s.rq.maxTimeSlice) with rq := s.rq.push p }

/-- `RR_dequeue` -/
def rrDequeue (p : ℕ) : Sch Unit := do
  let s ← Comp.read
  Comp.ensure (p ∈ s.rq.runList ∧ (s.ent p).onRq = true) .dequeue
  Comp.modify fun s => { s with rq := s.rq.drop p }

/-- `RR_pick_next` -/
def rrPickNext : Sch (Option ℕ) := do
  let s ← Comp.read
  pure s.rq.runList.head?

/-- `RR_proc_tick` -/
def rrProcTick (p : ℕ) : Sch Unit := Comp.modify (·.modEnt p SchedEnt.tick)

/-- `default_sched_class` -/
def defaultSchedClass : SchedClass where
  enqueue := rrEnqueue
  dequeue := rrDequeue
  pickNext := rrPickNext
  procTick := rrProcTick

/-- **The state of the round-robin class**: no process is queued twice, the counter is the length of
the list, and all time slices are in their range. -/
structure RrOk (s : SchedState) : Prop where
  nodup : s.rq.runList.Nodup
  procNum : s.rq.procNum = s.rq.runList.length
  max : 0 ≤ s.rq.maxTimeSlice
  slice : ∀ p, 0 ≤ (s.ent p).timeSlice ∧ (s.ent p).timeSlice ≤ s.rq.maxTimeSlice
  onRq : ∀ p ∈ s.rq.runList, (s.ent p).onRq = true

section Lemmas

variable {s : SchedState} {p : ℕ}

lemma rrEnqueue_apply (h : p ∉ s.rq.runList) : rrEnqueue p s =
    .ok ((), { s.modEnt p (·.rrQueued s.rq.maxTimeSlice) with rq := s.rq.push p }) := by
  rw [rrEnqueue, read_bind_apply, ensure_bind_apply, if_pos h, modify_apply]

/-- **`RR_pick_next`** chooses the first process of the list. -/
lemma rrPickNext_apply (s : SchedState) : rrPickNext s = .ok (s.rq.runList.head?, s) := rfl

lemma rrDequeue_apply (h : p ∈ s.rq.runList) (hr : (s.ent p).onRq = true) :
    rrDequeue p s = .ok ((), { s with rq := s.rq.drop p }) := by
  rw [rrDequeue, read_bind_apply, ensure_bind_apply, if_pos ⟨h, hr⟩, modify_apply]

/-- A change of a process's fields that keeps its time slice in range and leaves it queued. -/
lemma RrOk.modEnt {f : SchedEnt → SchedEnt} (h : RrOk s)
    (hs : 0 ≤ (f (s.ent p)).timeSlice ∧ (f (s.ent p)).timeSlice ≤ s.rq.maxTimeSlice)
    (hr : p ∈ s.rq.runList → (f (s.ent p)).onRq = true) : RrOk (s.modEnt p f) := by
  refine { h with slice := fun q => ?_, onRq := fun q hq => ?_ }
  · by_cases hqp : q = p
    · rw [hqp, modEnt_self]
      exact hs
    · rw [modEnt_of_ne hqp]
      exact h.slice q
  · by_cases hqp : q = p
    · rw [hqp, modEnt_self]
      exact hr (hqp ▸ hq)
    · rw [modEnt_of_ne hqp]
      exact h.onRq q hq

/-- A process is put at the end of the list. -/
lemma RrOk.push (h : RrOk s) (hp : p ∉ s.rq.runList) :
    RrOk { s.modEnt p (·.rrQueued s.rq.maxTimeSlice) with rq := s.rq.push p } := by
  have hmax := h.max
  have hslice := h.slice p
  have hm : RrOk (s.modEnt p (·.rrQueued s.rq.maxTimeSlice)) := by
    refine h.modEnt ?_ fun _ => rfl
    simp only [SchedEnt.rrQueued]
    split_ifs <;> omega
  refine ⟨?_, ?_, hmax, hm.slice, fun q hq => ?_⟩
  · exact nodup_append.mpr ⟨h.nodup, nodup_singleton p, fun a ha b hb e =>
      hp ((e.trans (mem_singleton.mp hb)) ▸ ha)⟩
  · simp only [push_procNum, push_runList, h.procNum, length_append, length_singleton]
    rfl
  · rw [push_runList, mem_append, mem_singleton] at hq
    rcases hq with hq | rfl
    · exact hm.onRq q hq
    · simp [SchedEnt.rrQueued]

lemma RrOk.drop (h : RrOk s) (hp : p ∈ s.rq.runList) : RrOk { s with rq := s.rq.drop p } := by
  refine ⟨h.nodup.erase p, ?_, h.max, h.slice, fun q hq => h.onRq q (mem_of_mem_erase hq)⟩
  have hpos := length_pos_of_mem hp
  rw [drop_procNum, drop_runList, h.procNum, length_erase_of_mem hp]
  omega

end Lemmas

/-- **The round-robin class keeps a queue.** -/
lemma rr_classOk : ClassOk defaultSchedClass RrOk where
  nodup s h := h.nodup
  enqueue s p h hp := ⟨_, rrEnqueue_apply hp, h.push hp, rfl⟩
  pickNone s h he := by
    change rrPickNext s = _
    rw [rrPickNext_apply, he]
    rfl
  pickSome s h hne := by
    obtain ⟨p, hp⟩ := Option.ne_none_iff_exists'.mp (mt List.head?_eq_none_iff.mp hne)
    have hmem : p ∈ s.rq.runList := mem_of_mem_head? hp
    refine ⟨p, s, _, ?_, rrDequeue_apply hmem (h.onRq p hmem), hmem, h.drop hmem, rfl⟩
    change rrPickNext s = _
    rw [rrPickNext_apply, hp]
  procTick s p h := by
    refine ⟨_, rfl, h.modEnt (SchedEnt.tick_timeSlice (h.slice p)) fun hp => ?_, rfl⟩
    rw [(s.ent p).tick_eq.1]
    exact h.onRq p hp
  resched s p b h := h.modEnt (h.slice p) (h.onRq p)
  alloc s p h hp := h.modEnt ⟨le_rfl, h.max⟩ fun hq => absurd hq hp
  priority s p v h := h.modEnt (h.slice p) (h.onRq p)

end Ucore

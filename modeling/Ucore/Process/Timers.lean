import Ucore.Process.Frames

set_option autoImplicit false

/-!
# Timers

The list of timers stores the differences between the times at which they expire. It stands for a
map from the pending timers to the ticks that are left. `add_timer` and `del_timer` change the map
at one timer, and `run_timer_list` counts all of them down.

## Main definitions

* `pending` — the ticks that are left for a timer, and its process.
* `TimersOk` — the invariant of the list.
* `TimerOp`, `TimerRun` — runs of the functions on timers, in between which anything else
  may happen.

## Main results

* `pending_insertTimer`, `pending_removeTimer`, `pending_ticked` — the functions on
  the map.
* `runTimerList_post` — what a tick does to the timers and to the processes.
* `TimerRun.pending` — the ticks that are left for a timer along a run.
-/

namespace Ucore

open Function Comp List Option

/-! ## The map that the list stands for -/

/-- **The ticks that are left for the timer `id`, and its process.** -/
def pending : List Timer → ℕ → Option (ℕ × ℕ)
  | [], _ => none
  | t :: l, id =>
    if t.id = id then some (t.expires, t.proc)
    else (pending l id).map fun r => (r.1 + t.expires, r.2)

/-- The invariant of the list: no timer is in it twice, and the first one is not due. -/
structure TimersOk (l : List Timer) : Prop where
  nodup : (l.map Timer.id).Nodup
  head : ∀ t ∈ l.head?, t.expires ≠ 0

/-- What is left of a timer that is removed goes to the next one. -/
def handOn (n : ℕ) : List Timer → List Timer
  | [] => []
  | next :: l => { next with expires := next.expires + n } :: l

/-- The list after the first timer has been counted down. -/
def countDown : List Timer → List Timer
  | [] => []
  | t :: l => { t with expires := t.expires - 1 } :: l

/-- The timers that expire with the next tick. -/
def dueTimers (l : List Timer) : List Timer := (countDown l).takeWhile (·.expires = 0)

/-- The list after the next tick. -/
def ticked (l : List Timer) : List Timer := (countDown l).dropWhile (·.expires = 0)

section Lists

variable {l : List Timer} {timer : Timer} {id n p : ℕ}

lemma pending_cons_self (t : Timer) (l : List Timer) :
    pending (t :: l) t.id = some (t.expires, t.proc) := if_pos rfl

lemma pending_cons_of_ne {t : Timer} (h : t.id ≠ id) (l : List Timer) :
    pending (t :: l) id = (pending l id).map fun r => (r.1 + t.expires, r.2) := if_neg h

lemma removeTimer_of_eq {t : Timer} (h : t.id = id) (l : List Timer) :
    removeTimer id (t :: l) = handOn t.expires l := by
  cases l <;> simp [removeTimer, handOn, h]

lemma removeTimer_of_ne {t : Timer} (h : t.id ≠ id) (l : List Timer) :
    removeTimer id (t :: l) = t :: removeTimer id l := by
  cases l <;> simp [removeTimer, h]

lemma handOn_ids (n : ℕ) (l : List Timer) : (handOn n l).map Timer.id = l.map Timer.id := by
  cases l <;> rfl

/-- All timers behind one that is removed keep their times. -/
lemma pending_handOn (n : ℕ) (l : List Timer) (id : ℕ) :
    pending (handOn n l) id = (pending l id).map fun r => (r.1 + n, r.2) := by
  cases l with
  | nil => rfl
  | cons next l =>
    by_cases h : next.id = id
    · rw [handOn, pending, if_pos h, pending, if_pos h]
      rfl
    · rw [handOn, pending, if_neg h, pending, if_neg h, Option.map_map]
      congr 1
      funext r
      simp only [comp_apply, Prod.mk.injEq, and_true]
      omega

/-- A timer is pending iff it is in the list. -/
lemma pending_eq_none : pending l id = none ↔ ∀ t ∈ l, t.id ≠ id := by
  induction l with
  | nil => exact iff_of_true rfl fun t ht => absurd ht not_mem_nil
  | cons t l ih =>
    by_cases h : t.id = id
    · subst h
      rw [pending_cons_self]
      exact iff_of_false (by simp) fun h1 => h1 t mem_cons_self rfl
    · rw [pending_cons_of_ne h, map_eq_none_iff, ih]
      simp [h]

/-- **Inserting a timer changes the map at this timer.** The timer before which it is inserted keeps
its time, because it gets what is left. -/
lemma pending_insertTimer (timer : Timer) (h : ∀ t ∈ l, t.id ≠ timer.id) :
    pending (insertTimer timer l) = update (pending l) timer.id
      (some (timer.expires, timer.proc)) := by
  induction l generalizing timer with
  | nil =>
    funext id
    by_cases hid : id = timer.id
    · subst hid
      rw [update_self]
      exact pending_cons_self timer []
    · rw [update_of_ne hid]
      exact pending_cons_of_ne (Ne.symm hid) []
  | cons next l ih =>
    have hnext : next.id ≠ timer.id := h next mem_cons_self
    funext id
    rw [insertTimer]
    split_ifs with hlt
    · by_cases hid : id = timer.id
      · subst hid
        rw [update_self, pending_cons_self]
      · rw [update_of_ne hid, pending_cons_of_ne (Ne.symm hid)]
        by_cases hn : next.id = id
        · subst hn
          rw [pending_cons_self, pending, if_pos rfl]
          simp only [map_some, Option.some.injEq, Prod.mk.injEq, and_true]
          omega
        · rw [pending_cons_of_ne hn, pending, if_neg hn, Option.map_map]
          congr 1
          funext r
          simp only [comp_apply, Prod.mk.injEq, and_true]
          omega
    · have ih' := congrFun (ih { timer with expires := timer.expires - next.expires }
        fun t ht => h t (mem_cons_of_mem _ ht)) id
      by_cases hn : next.id = id
      · subst hn
        rw [update_of_ne hnext, pending_cons_self, pending_cons_self]
      · rw [pending_cons_of_ne hn, ih']
        by_cases hid : id = timer.id
        · subst hid
          rw [update_self, update_self]
          simp only [map_some, Option.some.injEq, Prod.mk.injEq, and_true]
          omega
        · rw [update_of_ne hid, update_of_ne hid, pending_cons_of_ne hn]

/-- **Removing a timer changes the map at this timer.** -/
lemma pending_removeTimer (h : (l.map Timer.id).Nodup) (id : ℕ) :
    pending (removeTimer id l) = update (pending l) id none := by
  induction l with
  | nil =>
    funext x
    by_cases hx : x = id
    · rw [hx, update_self]
      rfl
    · rw [update_of_ne hx]
      rfl
  | cons t l ih =>
    rw [map_cons, nodup_cons] at h
    funext x
    by_cases ht : t.id = id
    · rw [removeTimer_of_eq ht, pending_handOn]
      by_cases hx : x = id
      · have hnone : pending l id = none := by
          rw [pending_eq_none]
          exact fun t' ht' e => h.1 (mem_map.mpr ⟨t', ht', e.trans ht.symm⟩)
        rw [hx, update_self, hnone]
        rfl
      · rw [update_of_ne hx, pending_cons_of_ne (fun e => hx (e.symm.trans ht))]
    · rw [removeTimer_of_ne ht]
      by_cases hx : t.id = x
      · subst hx
        rw [update_of_ne ht, pending_cons_self, pending_cons_self]
      · rw [pending_cons_of_ne hx, ih h.2]
        by_cases hxi : x = id
        · rw [hxi, update_self, update_self]
          rfl
        · rw [update_of_ne hxi, update_of_ne hxi, pending_cons_of_ne hx]

/-! ## The invariant of the list -/

lemma insertTimer_perm (timer : Timer) (l : List Timer) :
    ((insertTimer timer l).map Timer.id).Perm (timer.id :: l.map Timer.id) := by
  induction l generalizing timer with
  | nil => exact Perm.refl _
  | cons next l ih =>
    rw [insertTimer]
    split_ifs
    · exact Perm.refl _
    · exact ((ih _).cons _).trans (Perm.swap _ _ _)

lemma removeTimer_sublist (id : ℕ) (l : List Timer) :
    ((removeTimer id l).map Timer.id).Sublist (l.map Timer.id) := by
  induction l with
  | nil => exact List.Sublist.refl _
  | cons t l ih =>
    by_cases h : t.id = id
    · rw [removeTimer_of_eq h, handOn_ids]
      exact sublist_cons_self _ _
    · rw [removeTimer_of_ne h]
      exact ih.cons_cons _

/-- **Inserting a timer** that is not due. -/
lemma TimersOk.insert (h : TimersOk l) (he : 0 < timer.expires) (hid : ∀ t ∈ l, t.id ≠ timer.id) :
    TimersOk (insertTimer timer l) := by
  constructor
  · rw [(insertTimer_perm timer l).nodup_iff, nodup_cons]
    refine ⟨fun hm => ?_, h.nodup⟩
    obtain ⟨t, ht, e⟩ := mem_map.mp hm
    exact hid t ht e
  · intro t ht
    cases l with
    | nil =>
      cases ht
      omega
    | cons next l =>
      rw [insertTimer] at ht
      split_ifs at ht with hlt
      · cases ht
        omega
      · cases ht
        exact h.head _ rfl

/-- **Removing a timer.** If it is the first one, the next one gets its time. -/
lemma TimersOk.remove (h : TimersOk l) (id : ℕ) : TimersOk (removeTimer id l) := by
  refine ⟨(removeTimer_sublist id l).nodup h.nodup, fun t ht => ?_⟩
  cases l with
  | nil => cases ht
  | cons first l =>
    have hfirst := h.head first rfl
    by_cases hid : first.id = id
    · rw [removeTimer_of_eq hid] at ht
      cases l with
      | nil => cases ht
      | cons next l =>
        cases ht
        change next.expires + first.expires ≠ 0
        omega
    · rw [removeTimer_of_ne hid] at ht
      cases ht
      exact hfirst

lemma countDown_ids (l : List Timer) : (countDown l).map Timer.id = l.map Timer.id := by
  cases l <;> rfl

/-- **A tick.** -/
lemma TimersOk.ticked (h : TimersOk l) : TimersOk (ticked l) := by
  constructor
  · have hsub := ((dropWhile_sublist (l := countDown l) (·.expires = 0)).map Timer.id)
    rw [countDown_ids] at hsub
    exact hsub.nodup h.nodup
  · intro t ht
    have hd := List.head?_dropWhile_not (p := fun t : Timer => decide (t.expires = 0)) (countDown l)
    unfold Ucore.ticked at ht
    rw [mem_def.mp ht] at hd
    simpa using hd

/-- The timers that are due are the first ones; the others are not due. -/
lemma pending_dropWhile (h : (l.map Timer.id).Nodup) (id : ℕ) :
    pending (l.dropWhile (·.expires = 0)) id =
      (pending l id).bind fun r => if r.1 = 0 then none else some r := by
  induction l with
  | nil => rfl
  | cons t l ih =>
    rw [map_cons, nodup_cons] at h
    by_cases h0 : t.expires = 0
    · rw [dropWhile_cons_of_pos (by simpa using h0)]
      by_cases hid : t.id = id
      · subst hid
        rw [pending_cons_self, h0, pending_eq_none.mpr]
        · rfl
        · intro t' ht' e
          exact h.1 (mem_map.mpr ⟨t', (dropWhile_sublist _).subset ht', e⟩)
      · rw [ih h.2, pending_cons_of_ne hid, h0]
        simp
    · rw [dropWhile_cons_of_neg (by simpa using h0)]
      by_cases hid : t.id = id
      · subst hid
        rw [pending_cons_self]
        exact (if_neg h0).symm
      · rw [pending_cons_of_ne hid]
        cases hp : pending l id with
        | none => rfl
        | some r =>
          refine (if_neg ?_).symm
          change r.1 + t.expires ≠ 0
          omega

/-- A timer that is due stands among the first ones. -/
lemma mem_takeWhile_of_pending (h : pending l id = some (0, p)) :
    ∃ t ∈ l.takeWhile (·.expires = 0), t.id = id ∧ t.proc = p := by
  induction l with
  | nil => cases h
  | cons t l ih =>
    by_cases hid : t.id = id
    · subst hid
      rw [pending_cons_self] at h
      obtain ⟨h0, hp⟩ := Prod.mk.inj (Option.some.inj h)
      rw [takeWhile_cons_of_pos (by simpa using h0)]
      exact ⟨t, mem_cons_self, rfl, hp⟩
    · rw [pending_cons_of_ne hid] at h
      obtain ⟨r, hr, e⟩ := map_eq_some_iff.mp h
      obtain ⟨h0, hp⟩ := Prod.mk.inj e
      obtain ⟨t', ht', h1⟩ := ih (by rw [hr, ← hp, ← Prod.mk.eta (p := r), show r.1 = 0 by omega])
      rw [takeWhile_cons_of_pos (by simpa using (by omega : t.expires = 0))]
      exact ⟨t', mem_cons_of_mem _ ht', h1⟩

/-- The first timers are due. -/
lemma pending_of_mem_takeWhile (h : (l.map Timer.id).Nodup) {t : Timer}
    (ht : t ∈ l.takeWhile (·.expires = 0)) : pending l t.id = some (0, t.proc) := by
  induction l with
  | nil => cases ht
  | cons a l ih =>
    rw [map_cons, nodup_cons] at h
    by_cases h0 : a.expires = 0
    · rw [takeWhile_cons_of_pos (by simpa using h0)] at ht
      rcases mem_cons.mp ht with rfl | ht
      · rw [pending_cons_self, h0]
      · have hne : a.id ≠ t.id := fun e =>
          h.1 (mem_map.mpr ⟨t, (takeWhile_sublist _).subset ht, e.symm⟩)
        rw [pending_cons_of_ne hne, ih h.2 ht, h0]
        rfl
    · rw [takeWhile_cons_of_neg (by simpa using h0)] at ht
      cases ht

lemma pending_countDown (h : TimersOk l) (id : ℕ) :
    pending (countDown l) id = (pending l id).map fun r => (r.1 - 1, r.2) := by
  cases l with
  | nil => rfl
  | cons t l =>
    have h0 := h.head t rfl
    by_cases hid : t.id = id
    · rw [countDown, pending, if_pos hid, pending, if_pos hid]
      rfl
    · rw [countDown, pending, if_neg hid, pending, if_neg hid, Option.map_map]
      congr 1
      funext r
      simp only [comp_apply, Prod.mk.injEq, and_true]
      omega

/-- The ticks that are left are never none. -/
lemma TimersOk.pos (h : TimersOk l) (hp : pending l id = some (n, p)) : 0 < n := by
  cases l with
  | nil => cases hp
  | cons t l =>
    have h0 := h.head t rfl
    by_cases hid : t.id = id
    · subst hid
      rw [pending_cons_self] at hp
      obtain ⟨rfl, -⟩ := Prod.mk.inj (Option.some.inj hp)
      omega
    · rw [pending_cons_of_ne hid] at hp
      obtain ⟨r, -, e⟩ := map_eq_some_iff.mp hp
      obtain ⟨rfl, -⟩ := Prod.mk.inj e
      omega

/-- **A tick counts all timers down** and removes those that are due. -/
lemma pending_ticked (h : TimersOk l) (id : ℕ) : pending (ticked l) id =
    (pending l id).bind fun r => if r.1 = 1 then none else some (r.1 - 1, r.2) := by
  have hn : ((countDown l).map Timer.id).Nodup := by
    rw [countDown_ids]
    exact h.nodup
  rw [ticked, pending_dropWhile hn, pending_countDown h]
  cases hp : pending l id with
  | none => rfl
  | some r =>
    have hpos := h.pos (n := r.1) (p := r.2) hp
    change (if r.1 - 1 = 0 then none else some (r.1 - 1, r.2)) = if r.1 = 1 then none else _
    by_cases h1 : r.1 = 1
    · rw [if_pos h1, if_pos (by omega)]
    · rw [if_neg h1, if_neg (by omega)]

/-- **The timers that expire** with a tick are those for which one tick is left. -/
lemma due_iff (h : TimersOk l) (p : ℕ) :
    (∃ t ∈ dueTimers l, t.proc = p) ↔ ∃ id, pending l id = some (1, p) := by
  have hn : ((countDown l).map Timer.id).Nodup := by
    rw [countDown_ids]
    exact h.nodup
  constructor
  · rintro ⟨t, ht, rfl⟩
    have h1 := pending_of_mem_takeWhile hn ht
    rw [pending_countDown h] at h1
    obtain ⟨r, hr, e⟩ := map_eq_some_iff.mp h1
    obtain ⟨h2, h3⟩ := Prod.mk.inj e
    have hpos := h.pos (n := r.1) (p := r.2) hr
    refine ⟨t.id, ?_⟩
    rw [hr, ← h3, ← Prod.mk.eta (p := r), show r.1 = 1 by omega]
  · rintro ⟨id, hid⟩
    have hdue : pending (countDown l) id = some (0, p) := by rw [pending_countDown h, hid]; rfl
    obtain ⟨t, ht, -, h1⟩ := mem_takeWhile_of_pending hdue
    exact ⟨t, ht, h1⟩

end Lists

/-! ## `run_timer_list` -/

section Tick

variable {cls : SchedClass} {s t : Kernel} {p : ℕ}

lemma liftSched_post {α : Type} (m : Sch α) (s : Kernel) :
    Post (liftSched m) s fun _ t => ∃ u, t = { s with sched := u } := by
  intro a t e
  rw [liftSched] at e
  split at e
  · cases e
    exact ⟨_, rfl⟩
  · cases e

lemma getProc_post (p : ℕ) (s : Kernel) :
    Post (getProc p) s fun q t => t = s ∧ s.procs p = some q := by
  intro q t e
  rw [getProc, read_bind_apply] at e
  cases hp : s.procs p with
  | none =>
    rw [hp] at e
    cases e
  | some q' =>
    rw [hp] at e
    cases e
    exact ⟨rfl, rfl⟩

/-- **`wakeup_proc`** makes one process runnable. -/
lemma wakeupProc_post (cls : SchedClass) (p : ℕ) (s : Kernel) :
    Post (wakeupProc cls p) s fun _ t => t.timers = s.timers ∧ t.Is p .runnable ∧
      ∀ x, x ≠ p → t.procs x = s.procs x := by
  refine (getProc_post p s).bind fun q t ht => ?_
  obtain ⟨rfl, hq⟩ := ht
  refine .ensure_bind fun _ => .ite (fun _ => ?_) fun hr => .pure ⟨rfl, ?_, fun _ _ => rfl⟩
  · have hself : (t.modProc p Proc.wake).Is p .runnable := (is_of_proc (modProc_self hq)).mpr rfl
    have hothers : ∀ x, x ≠ p → (t.modProc p Proc.wake).procs x = t.procs x := fun x hx =>
      modProc_of_ne hx
    refine .modify_bind (.read_bind (.ite (fun _ => ?_) fun _ => .pure ?_))
    swap
    · exact ⟨rfl, hself, hothers⟩
    refine .read_bind (.ite (fun _ => ?_) fun _ => .pure ⟨rfl, hself, hothers⟩)
    refine (liftSched_post _ _).mono fun _ v hv => ?_
    obtain ⟨sch, rfl⟩ := hv
    exact ⟨rfl, hself, hothers⟩
  · rw [ne_eq, not_not] at hr
    exact (is_of_proc hq).mpr hr

lemma handOn_zero (l : List Timer) : handOn 0 l = l := by
  cases l <;> rfl

/-- **The loop of `run_timer_list`**: it removes the first timers that are due and wakes their
processes.

**Proof sketch.** Induction on the list. A timer that is due has nothing to hand on. -/
lemma fireTimers_post (cls : SchedClass) (l : List Timer) (hs : s.timers = l) :
    Post (fireTimers cls l) s fun _ t => t.timers = l.dropWhile (·.expires = 0) ∧
      (∀ x ∈ l.takeWhile (·.expires = 0), t.Is x.proc .runnable) ∧
      ∀ p, (∀ x ∈ l.takeWhile (·.expires = 0), x.proc ≠ p) → t.procs p = s.procs p := by
  induction l generalizing s with
  | nil => exact .pure ⟨hs, fun x hx => absurd hx not_mem_nil, fun _ _ => rfl⟩
  | cons timer l ih =>
    refine .ite (fun h0 => ?_) fun h0 => .pure ?_
    · rw [dropWhile_cons_of_pos (by simpa using h0),
        takeWhile_cons_of_pos (by simpa using h0)]
      refine (getProc_post timer.proc s).bind fun q t ht => ?_
      obtain ⟨rfl, -⟩ := ht
      refine .ensure_bind fun _ => (wakeupProc_post cls timer.proc t).bind fun _ v hv => ?_
      obtain ⟨h1, h2, h3⟩ := hv
      have hl : removeTimer timer.id v.timers = l := by
        rw [h1, hs, removeTimer_of_eq rfl, h0, handOn_zero]
      refine .modify_bind ((ih hl).mono fun _ w hw => ⟨hw.1, fun x hx => ?_, fun p hp => ?_⟩)
      · rcases mem_cons.mp hx with rfl | hx
        · by_cases hex : ∃ y ∈ l.takeWhile (·.expires = 0), y.proc = x.proc
          · obtain ⟨y, hy, e⟩ := hex
            rw [← e]
            exact hw.2.1 y hy
          · have hsame := hw.2.2 x.proc fun y hy e => hex ⟨y, hy, e⟩
            obtain ⟨q', hq', hst⟩ := h2
            exact ⟨q', hsame.trans hq', hst⟩
        · exact hw.2.1 x hx
      · rw [hw.2.2 p fun x hx => hp x (mem_cons_of_mem _ hx)]
        exact h3 p fun e => hp timer mem_cons_self e.symm
    · rw [dropWhile_cons_of_neg (by simpa using h0),
        takeWhile_cons_of_neg (by simpa using h0)]
      exact ⟨hs, fun x hx => absurd hx not_mem_nil, fun _ _ => rfl⟩

/-- **`run_timer_list`**: a tick. -/
lemma runTimerList_post (cls : SchedClass) (s : Kernel) :
    Post (runTimerList cls) s fun _ t => t.timers = ticked s.timers ∧
      (∀ x ∈ dueTimers s.timers, t.Is x.proc .runnable) ∧
      ∀ p, (∀ x ∈ dueTimers s.timers, x.proc ≠ p) → t.procs p = s.procs p := by
  have hrun : Post (runTimers cls) s fun _ t => t.timers = ticked s.timers ∧
      (∀ x ∈ dueTimers s.timers, t.Is x.proc .runnable) ∧
      ∀ p, (∀ x ∈ dueTimers s.timers, x.proc ≠ p) → t.procs p = s.procs p := by
    refine .read_bind ?_
    cases hl : s.timers with
    | nil => exact .pure ⟨hl, fun x hx => absurd hx not_mem_nil, fun _ _ => rfl⟩
    | cons timer l =>
      exact .ensure_bind fun _ => .modify_bind (fireTimers_post cls _ rfl)
  refine hrun.bind fun _ t ht => .read_bind (.read_bind ?_)
  refine .ite (fun _ => ?_) fun _ => .modify ht
  refine (liftSched_post _ _).mono fun _ w hw => ?_
  obtain ⟨sch, rfl⟩ := hw
  exact ht

end Tick

/-! ## Runs -/

/-- The functions on timers, and anything else. -/
inductive TimerOp
  | add (timer : Timer)
  | del (id : ℕ)
  | tick
  | other
  deriving DecidableEq

/-- One call of them returns. Whatever else happens leaves the timers. -/
def TimerStep (cls : SchedClass) (s t : Kernel) : TimerOp → Prop
  | .add timer => addTimer timer s = .ok ((), t)
  | .del id => delTimer id s = .ok ((), t)
  | .tick => runTimerList cls s = .ok ((), t)
  | .other => t.timers = s.timers

/-- **Runs**, the first call first. -/
inductive TimerRun (cls : SchedClass) : Kernel → List TimerOp → Kernel → Prop
  | nil (s : Kernel) : TimerRun cls s [] s
  | cons {s t u : Kernel} {op : TimerOp} {ops : List TimerOp} (hs : TimerStep cls s t op)
    (h : TimerRun cls t ops u) : TimerRun cls s (op :: ops) u

section Runs

variable {cls : SchedClass} {s t u : Kernel} {op : TimerOp} {ops : List TimerOp} {timer : Timer}
  {n p : ℕ}

/-- What `add_timer` does when it returns. -/
lemma addTimer_ok (h : addTimer timer s = .ok ((), t)) :
    0 < timer.expires ∧ (∀ x ∈ s.timers, x.id ≠ timer.id) ∧
      t = { s with timers := insertTimer timer s.timers } := by
  rw [addTimer, ensure_bind_apply] at h
  split_ifs at h with h0
  rw [read_bind_apply, ensure_bind_apply] at h
  split_ifs at h with h1
  cases h
  exact ⟨h0, h1, rfl⟩

lemma delTimer_ok {id : ℕ} (h : delTimer id s = .ok ((), t)) :
    t = { s with timers := removeTimer id s.timers } := by
  cases h
  rfl

/-- **A step keeps the invariant of the list.** -/
lemma TimerStep.ok (h : TimersOk s.timers) (hs : TimerStep cls s t op) : TimersOk t.timers := by
  cases op with
  | add timer =>
    obtain ⟨h0, h1, rfl⟩ := addTimer_ok hs
    exact h.insert h0 h1
  | del id =>
    obtain rfl := delTimer_ok hs
    exact h.remove id
  | tick =>
    rw [(runTimerList_post cls s () t hs).1]
    exact h.ticked
  | other =>
    have e : t.timers = s.timers := hs
    rwa [e]

lemma TimerRun.ok (h : TimersOk s.timers) (hr : TimerRun cls s ops t) : TimersOk t.timers := by
  induction hr with
  | nil => exact h
  | cons hs _ ih => exact ih (hs.ok h)

/-- **A pending timer after a step** that does not delete it: a tick counts it down, and nothing
else changes its time. -/
lemma TimerStep.pending (h : TimersOk s.timers) (hs : TimerStep cls s t op)
    (hp : pending s.timers timer.id = some (n, p)) (hdel : op ≠ .del timer.id)
    (htick : op = .tick → n ≠ 1) :
    pending t.timers timer.id = some (if op = .tick then n - 1 else n, p) := by
  cases op with
  | add timer' =>
    obtain ⟨-, h1, rfl⟩ := addTimer_ok hs
    have hne : timer.id ≠ timer'.id := by
      intro e
      have hnone := pending_eq_none.mpr h1
      rw [← e, hp] at hnone
      cases hnone
    rw [pending_insertTimer _ h1, update_of_ne hne, hp]
    rfl
  | del id =>
    obtain rfl := delTimer_ok hs
    have hne : timer.id ≠ id := fun e => hdel (by rw [e])
    rw [pending_removeTimer h.nodup, update_of_ne hne, hp]
    rfl
  | tick =>
    rw [(runTimerList_post cls s () t hs).1, pending_ticked h, hp]
    exact if_neg (htick rfl)
  | other =>
    have e : t.timers = s.timers := hs
    rw [e, hp]
    rfl

/-- **A pending timer after a run** with fewer ticks than are left. -/
lemma TimerRun.pending (h : TimersOk s.timers) (hr : TimerRun cls s ops t)
    (hp : pending s.timers timer.id = some (n, p)) (hdel : .del timer.id ∉ ops)
    (hlt : ops.count .tick < n) :
    pending t.timers timer.id = some (n - ops.count .tick, p) := by
  induction hr generalizing n with
  | nil => exact hp
  | @cons s t u op ops hs _ ih =>
    rw [mem_cons, not_or] at hdel
    have hstep := hs.pending h hp (Ne.symm hdel.1)
    by_cases hop : op = .tick
    · subst hop
      rw [count_cons_self] at hlt ⊢
      have h1 := hstep fun _ => by omega
      rw [if_pos rfl] at h1
      rw [ih (hs.ok h) h1 hdel.2 (by omega)]
      congr 2
      omega
    · rw [count_cons_of_ne hop] at hlt ⊢
      have h1 := hstep fun e => absurd e hop
      rw [if_neg hop] at h1
      exact ih (hs.ok h) h1 hdel.2 hlt

end Runs

end Ucore

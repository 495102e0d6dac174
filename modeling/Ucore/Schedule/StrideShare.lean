import Ucore.Schedule.StrideKeys

set_option autoImplicit false

/-!
# Stride scheduling is proportional

A fixed set of processes that stay runnable is scheduled round after round. The strides wrap around,
but the true strides stay within one pass of each other.

## Main definitions

* `strideRound` — what `schedule` does with the class while the current process is runnable.
* `StrideRun`, `StrideRun.rounds` — rounds, with a count of the picks.
* `EqualStart` — all processes start with the same stride.

## Main results

* `stride_proportional` — after any number of rounds the shares differ by at most one pass.
-/

namespace Ucore

open Function Comp Finset

/-- The current process is put back; there is none if the CPU was idle. -/
def strideRequeue (par : StrideParams) : Option ℕ → Sch Unit
  | some p => strideEnqueue par p
  | none => pure ()

/-- The process that was picked is removed. -/
def strideTake (par : StrideParams) : Option ℕ → Sch (Option ℕ)
  | some p => do
    strideDequeue par p
    pure (some p)
  | none => pure none

/-- A round of `schedule`: the current process is put back, a process is picked and removed. -/
def strideRound (par : StrideParams) (current : Option ℕ) : Sch (Option ℕ) := do
  strideRequeue par current
  let next ← stridePickNext par
  strideTake par next

/-- The scheduler, the current process, and how often each process has been picked. -/
structure StrideRun where
  sched : SchedState
  current : Option ℕ
  picks : ℕ → ℕ

/-- One round. -/
def StrideRun.round (par : StrideParams) (r : StrideRun) : Except SchedPanic StrideRun :=
  match strideRound par r.current r.sched with
  | .ok (some p, s) => .ok ⟨s, some p, update r.picks p (r.picks p + 1)⟩
  | .ok (none, s) => .ok ⟨s, none, r.picks⟩
  | .error e => .error e

/-- Several rounds. -/
def StrideRun.rounds (par : StrideParams) : ℕ → StrideRun → Except SchedPanic StrideRun
  | 0, r => .ok r
  | n + 1, r =>
    match r.round par with
    | .ok r' => StrideRun.rounds par n r'
    | .error e => .error e

/-- **The start**: the processes of `P` other than the current one are queued, all have the same
stride and priorities between `1` and `BIG_STRIDE`, and nothing has been picked. -/
structure EqualStart (par : StrideParams) (P : Finset ℕ) (x : BitVec 32) (r : StrideRun) :
    Prop where
  ok : StrideOk r.sched
  mem : ∀ p, p ∈ P ↔ p ∈ r.sched.rq.runList ∨ r.current = some p
  current : ∀ p, r.current = some p → p ∉ r.sched.rq.runList
  stride : ∀ p ∈ P, (r.sched.ent p).stride = x
  priority : ∀ p ∈ P, 1 ≤ (r.sched.ent p).priority ∧ (r.sched.ent p).priority ≤ par.bigStride
  picks : ∀ p, r.picks p = 0

/-- `BIG_STRIDE / priority`, for the priority of a process in a state. -/
def passOf (par : StrideParams) (r : StrideRun) (p : ℕ) : ℕ :=
  par.bigStride.toNat / (r.sched.ent p).priority.toNat

/-- **The invariant of the rounds**, for the passes `pass` and the common stride `x` at the
start. -/
structure ShareInv (par : StrideParams) (P : Finset ℕ) (pass : ℕ → ℕ) (T : ℕ → ℕ) (x : ℕ)
    (r : StrideRun) : Prop where
  ok : StrideOk r.sched
  mem : ∀ p, p ∈ P ↔ p ∈ r.sched.rq.runList ∨ r.current = some p
  current : ∀ p, r.current = some p → p ∉ r.sched.rq.runList
  keys : StrideKeys r.sched T
  total : ∀ p ∈ P, T p = x + r.picks p * pass p
  passes : ∀ p ∈ P, ((r.sched.ent p).pass par).toNat = pass p
  window : ∀ p ∈ P, ∀ q ∈ P, T p ≤ T q + P.sup pass

section Round

variable {par : StrideParams} {P : Finset ℕ} {pass T : ℕ → ℕ} {x : ℕ} {r : StrideRun}

/-- The queue of a round, with all processes in it. -/
lemma ShareInv.fill (h : ShareInv par P pass T x r) (hbound : P.sup pass < 2 ^ 31) :
    ∃ s, strideRequeue par r.current r.sched = .ok ((), s) ∧
      StrideOk s ∧ StrideKeys s T ∧ (∀ p, p ∈ P ↔ p ∈ s.rq.runList) ∧
      ∀ p ∈ P, ((s.ent p).pass par).toNat = pass p := by
  cases hc : r.current with
  | none =>
    refine ⟨r.sched, rfl, h.ok, h.keys, fun p => ?_, h.passes⟩
    rw [h.mem p, hc]
    simp
  | some c =>
    have hcP : c ∈ P := (h.mem c).mpr (.inr hc)
    have hnot := h.current c hc
    refine ⟨r.sched.strideQueued par c, strideEnqueue_apply h.ok hnot, h.ok.queued hnot,
      h.keys.queued h.ok fun q hq => ?_, fun p => ?_, fun p hp => ?_⟩
    · have hqP : q ∈ P := (h.mem q).mpr (.inl hq)
      have h1 := h.window q hqP c hcP
      have h2 := h.window c hcP q hqP
      exact ⟨by omega, by omega⟩
    · rw [h.mem p, hc]
      change _ ↔ p ∈ r.sched.rq.runList ++ [c]
      rw [List.mem_append, List.mem_singleton, Option.some.injEq, eq_comm (a := c)]
    · rw [← h.passes p hp]
      change (((r.sched.modEnt c _).ent p).pass par).toNat = _
      by_cases hpc : p = c
      · rw [hpc, modEnt_self, strideQueued_pass]
      · rw [modEnt_of_ne hpc]

/-- **A round keeps the invariant** and picks a process, if there are processes.

**Proof sketch.** With the current process put back, all processes are queued and near each other,
so the root of the heap has a least true stride. Its true stride grows by its pass, which is at most
the largest pass; as it was least, the window stays as wide as it was. -/
lemma ShareInv.round_some (h : ShareInv par P pass T x r) (hbound : P.sup pass < 2 ^ 31)
    (hne : P.Nonempty) : ∃ r' T', r.round par = .ok r' ∧ ShareInv par P pass T' x r' ∧
      ∑ p ∈ P, r'.picks p = ∑ p ∈ P, r.picks p + 1 := by
  obtain ⟨s, e, hok, hkeys, hmem, hpass⟩ := h.fill hbound
  obtain ⟨p₀, hp₀⟩ := hne
  obtain ⟨l, p, u, hp⟩ := hok.exists_root (List.ne_nil_of_mem ((hmem p₀).mp hp₀))
  obtain ⟨e1, e2, hok'⟩ := hok.pick par hp
  have hpP : p ∈ P := (hmem p).mpr (hok.root_mem hp)
  have hnear : ∀ a ∈ s.rq.runList, ∀ b ∈ s.rq.runList, Near (T a) (T b) := by
    intro a ha b hb
    have h1 := h.window a ((hmem a).mpr ha) b ((hmem b).mpr hb)
    have h2 := h.window b ((hmem b).mpr hb) a ((hmem a).mpr ha)
    exact ⟨by omega, by omega⟩
  have hmin : ∀ q ∈ P, T p ≤ T q := fun q hq => hkeys.root_le hok hp ((hmem q).mp hq)
  have hle : pass p ≤ P.sup pass := le_sup hpP
  have hpp := hpass p hpP
  set s' := (s.stridePicked par p).strideDropped p with hs'
  have hround : strideRound par r.current r.sched = .ok (some p, s') := by
    rw [strideRound, bind_of_ok e, bind_of_ok e1]
    rw [strideTake, bind_of_ok e2]
    rfl
  refine ⟨⟨s', some p, update r.picks p (r.picks p + 1)⟩,
    update T p (T p + ((s.ent p).pass par).toNat), ?_, ⟨hok', fun q => ?_, fun q hq => ?_,
    hkeys.picked par hok hnear hp, fun q hq => ?_, fun q hq => ?_, fun a ha b hb => ?_⟩, ?_⟩
  · rw [StrideRun.round, hround]
  · have hl : s'.rq.runList = s.rq.runList.erase p := rfl
    rw [hmem q, hl, hok.nodup.mem_erase_iff, Option.some.injEq, eq_comm (a := p)]
    constructor
    · intro hq
      by_cases hqp : q = p
      · exact .inr hqp
      · exact .inl ⟨hqp, hq⟩
    · rintro (hq | rfl)
      · exact hq.2
      · exact hok.root_mem hp
  · cases hq
    change p ∉ s.rq.runList.erase p
    rw [hok.nodup.mem_erase_iff]
    exact fun hc => hc.1 rfl
  · by_cases hqp : q = p
    · subst hqp
      simp only [update_self]
      rw [h.total q hq, hpp, add_mul, one_mul, add_assoc]
    · simp only [update_of_ne hqp]
      exact h.total q hq
  · rw [← hpass q hq, hs']
    simp only [SchedEnt.pass, (strideDropped_ent q).2, SchedState.stridePicked]
    by_cases hqp : q = p
    · rw [hqp, modEnt_self]
    · rw [modEnt_of_ne hqp]
  · have hab := h.window a ha b hb
    have hb' := hmin b hb
    rw [hpp]
    by_cases hap : a = p
    · by_cases hbp : b = p
      · rw [hap, hbp]
        omega
      · rw [hap, update_self, update_of_ne hbp]
        omega
    · by_cases hbp : b = p
      · rw [hbp, update_self, update_of_ne hap]
        rw [hbp] at hab
        omega
      · rw [update_of_ne hap, update_of_ne hbp]
        exact hab
  · rw [sum_update_of_mem hpP, ← sum_sdiff (singleton_subset_iff.mpr hpP), sum_singleton]
    omega

/-- Without processes nothing happens. -/
lemma ShareInv.round_none (h : ShareInv par ∅ pass T x r) : r.round par = .ok r := by
  have hc : r.current = none := by
    rw [Option.eq_none_iff_forall_ne_some]
    exact fun p hp => absurd ((h.mem p).mpr (.inr hp)) (notMem_empty p)
  have hl : r.sched.rq.runList = [] := by
    rw [List.eq_nil_iff_forall_not_mem]
    exact fun p hp => absurd ((h.mem p).mpr (.inl hp)) (notMem_empty p)
  have e : strideRound par r.current r.sched = .ok (none, r.sched) := by
    rw [strideRound, hc]
    exact bind_of_ok (stridePickNext_none (h.ok.pool_nil hl)) _
  rw [StrideRun.round, e]
  obtain ⟨s, c, n⟩ := r
  cases hc
  rfl

/-- Several rounds keep the invariant, and each of them picks a process. -/
lemma ShareInv.rounds (h : ShareInv par P pass T x r) (hbound : P.sup pass < 2 ^ 31) (n : ℕ) :
    ∃ r' T', r.rounds par n = .ok r' ∧ ShareInv par P pass T' x r' ∧
      (P.Nonempty → ∑ p ∈ P, r'.picks p = ∑ p ∈ P, r.picks p + n) := by
  induction n generalizing r T with
  | zero => exact ⟨r, T, rfl, h, fun _ => rfl⟩
  | succ n ih =>
    rcases P.eq_empty_or_nonempty with rfl | hne
    · obtain ⟨r', T', e, h', -⟩ := ih h
      exact ⟨r', T', by rw [StrideRun.rounds, h.round_none]; exact e, h',
        fun hne => absurd hne not_nonempty_empty⟩
    obtain ⟨r₁, T₁, e, h₁, hsum⟩ := h.round_some hbound hne
    obtain ⟨r₂, T₂, e', h₂, hsum'⟩ := ih h₁
    refine ⟨r₂, T₂, by rw [StrideRun.rounds, e]; exact e', h₂, fun hne => ?_⟩
    rw [hsum' hne, hsum]
    omega

/-- The invariant holds at the start. -/
lemma EqualStart.shareInv {y : BitVec 32} (h : EqualStart par P y r) :
    ShareInv par P (passOf par r) (fun p => (r.sched.ent p).stride.toNat) y.toNat r := by
  refine ⟨h.ok, h.mem, h.current, ⟨fun p => by simp, ?_⟩, fun p hp => ?_, fun p hp => ?_,
    fun p hp q hq => ?_⟩
  · refine SkewHeap.ordered_of_eq (c := y.toNat) fun p hp => ?_
    rw [h.ok.pool, Multiset.mem_coe] at hp
    rw [h.stride p ((h.mem p).mpr (Or.inl hp))]
  · rw [h.stride p hp, h.picks p, zero_mul, add_zero]
  · have h1 := (h.priority p hp).1
    have h0 : (r.sched.ent p).priority ≠ 0 := by
      rintro h0
      rw [h0] at h1
      exact absurd h1 (by decide)
    rw [SchedEnt.pass, if_neg h0, BitVec.toNat_udiv, passOf]
  · rw [h.stride p hp, h.stride q hq]
    exact Nat.le_add_right _ _

end Round

lemma sup_pass_lt {par : StrideParams} (hpar : par = lab6Params ∨ par = lab8Params) (P : Finset ℕ)
    (r : StrideRun) : P.sup (passOf par r) < 2 ^ 31 := by
  have hbig : par.bigStride.toNat < 2 ^ 31 := by
    rcases hpar with rfl | rfl <;> decide
  rw [Finset.sup_lt_iff (by decide)]
  exact fun p _ => lt_of_le_of_lt (Nat.div_le_self _ _) hbig

/-- **Stride scheduling is proportional.** For every set of processes with priorities between `1`
and `BIG_STRIDE` that start with the same stride, and for every number of rounds, no round panics,
each round picks one of the processes, and the pick counts, weighted with the passes, differ by at
most the largest pass. -/
theorem stride_proportional {par : StrideParams} (hpar : par = lab6Params ∨ par = lab8Params)
    {P : Finset ℕ} {y : BitVec 32} {r : StrideRun} (h : EqualStart par P y r)
    (n : ℕ) :
    ∃ r', r.rounds par n = .ok r' ∧ (P.Nonempty → ∑ p ∈ P, r'.picks p = n) ∧ ∀ i ∈ P, ∀ j ∈ P,
      |(r'.picks i * passOf par r i : ℤ) - r'.picks j * passOf par r j| ≤
        (P.sup (passOf par r) : ℕ) := by
  obtain ⟨r', T, e, h', hsum⟩ := h.shareInv.rounds (sup_pass_lt hpar P r) n
  refine ⟨r', e, fun hne => ?_, fun i hi j hj => ?_⟩
  · rw [hsum hne, sum_eq_zero fun p _ => h.picks p, zero_add]
  have hi' := h'.total i hi
  have hj' := h'.total j hj
  have h1 := h'.window i hi j hj
  have h2 := h'.window j hj i hi
  have h3 : r'.picks i * passOf par r i ≤ r'.picks j * passOf par r j + P.sup (passOf par r) := by
    omega
  have h4 : r'.picks j * passOf par r j ≤ r'.picks i * passOf par r i + P.sup (passOf par r) := by
    omega
  rw [abs_le]
  constructor
  · have := Int.ofNat_le.mpr h4
    omega
  · have := Int.ofNat_le.mpr h3
    omega

/-- Two processes with the priorities `1` and `2`; the first one is running. -/
def twoProcs : StrideRun where
  sched := ⟨⟨[2], 1, maxTimeSlice, .node .nil 2 .nil⟩,
    fun p => ⟨false, p = 2, 5, 0, if p = 1 then 1 else 2⟩⟩
  current := some 1
  picks _ := 0

lemma twoProcs_equalStart : EqualStart lab8Params {1, 2} 0 twoProcs where
  ok := ⟨by decide, rfl, rfl, fun p => by simp [twoProcs]⟩
  mem p := by
    simp only [mem_insert, mem_singleton, twoProcs, List.mem_singleton,
      Option.some.injEq]
    rw [or_comm, eq_comm (a := 1)]
  current p hp := by
    cases hp
    decide
  stride p hp := rfl
  priority p hp := by
    rw [mem_insert, mem_singleton] at hp
    rcases hp with rfl | rfl <;> decide
  picks p := rfl

/-- The two processes after 1000 rounds. -/
theorem stride_proportional_two :
    ∃ r', twoProcs.rounds lab8Params 1000 = .ok r' ∧ ∑ p ∈ {1, 2}, r'.picks p = 1000 ∧
      ∀ i ∈ ({1, 2} : Finset ℕ), ∀ j ∈ ({1, 2} : Finset ℕ),
        |(r'.picks i * passOf lab8Params twoProcs i : ℤ) -
          r'.picks j * passOf lab8Params twoProcs j| ≤
            (({1, 2} : Finset ℕ).sup (passOf lab8Params twoProcs) : ℕ) := by
  obtain ⟨r', e, hsum, hshare⟩ := stride_proportional (.inr rfl) twoProcs_equalStart 1000
  exact ⟨r', e, hsum (insert_nonempty 1 {2}), hshare⟩

end Ucore

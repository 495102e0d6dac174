import Ucore.Lib.Count
import Ucore.Process.Frames
import Ucore.Sync.Monitor

set_option autoImplicit false

/-!
# The ownership of a monitor

Ownership of a monitor is a token. It is in one of the semaphores of the monitor, whose value is
then one, or with the thread that is active, or with a thread that `up` has taken out of the queue
of a semaphore and that has not run since.

## Main definitions

* `Loc`, `Token` — where the token is.
* `Counts` — the counters of the monitor count threads.
* `MonInv` — the invariant.

## Main results

* `Token.take`, `Token.sleep`, `Token.give`, `Token.hand`,
  `Token.back` — how the token moves.
* `MonInv.step`, `MonReach.inv` — the invariant holds in every state reached.
* `monitor_correct` — the law of the monitor.
-/

namespace Ucore

open Function Comp

/-! ## The token -/

/-- Where the token is: in a semaphore, with an active thread, or with a thread that has been
woken. -/
inductive Loc
  | sem (k : ℕ)
  | active (p : ℕ)
  | handed (p : ℕ)
  deriving DecidableEq

/-- A thread that has been taken out of the queue of the semaphore in whose `down` it is. -/
def Handed (M : Monitor) (Q : ℕ → List ℕ) (pc : ℕ → Pc) (p : ℕ) : Prop :=
  ∃ k, (pc p).sem M = some k ∧ p ∉ Q k

/-- **The token is at `l`**, for the values `V` and the queues `Q` of the semaphores. -/
structure Token (M : Monitor) (V : ℕ → BitVec 32) (Q : ℕ → List ℕ) (pc : ℕ → Pc) (l : Loc) :
    Prop where
  value : ∀ k, M.Has k → V k = if l = .sem k then 1 else 0
  active : ∀ p, pc p = .active ↔ l = .active p
  handed : ∀ p, Handed M Q pc p ↔ l = .handed p

variable {M : Monitor} {S : Scheduler} {x : MonState} {op : MonOp} {pc : ℕ → Pc} {a : Pc}
  {out : Outcome} {k : ℕ}

lemma Pc.has_of_sem {a : Pc} {k : ℕ} (h : a.sem M = some k) : M.Has k := by
  cases a <;> simp only [Pc.sem, Option.some.injEq, reduceCtorEq] at h
  · exact .inl h.symm
  · exact .inr (.inr ⟨_, h.symm⟩)
  · exact .inr (.inl h.symm)

namespace Token

variable {V V' : ℕ → BitVec 32} {Q Q' : ℕ → List ℕ} {l : Loc} {p q k : ℕ}

lemma congr (h : Token M V Q pc l) (hV : ∀ k, M.Has k → V' k = V k)
    (hQ : ∀ k, M.Has k → Q' k = Q k) : Token M V' Q' pc l := by
  refine ⟨fun k hk => by rw [hV k hk, h.value k hk], h.active, fun p => ?_⟩
  rw [← h.handed]
  refine exists_congr fun k => and_congr_right fun hk => ?_
  rw [hQ k (Pc.has_of_sem hk)]

lemma eq_sem (h : Token M V Q pc l) (hk : M.Has k) (hv : semPositive (V k)) : l = .sem k := by
  by_contra hl
  rw [h.value k hk, if_neg hl] at hv
  exact absurd hv (by decide)

/-- The token is in one place. -/
lemma unique {l' : Loc} (h : Token M V Q pc l) (h' : Token M V Q pc l')
    (hl : ∀ k, l = .sem k → M.Has k) : l = l' := by
  cases l with
  | sem k =>
    have hv := h'.value k (hl k rfl)
    rw [h.value k (hl k rfl), if_pos rfl] at hv
    by_contra hne
    rw [if_neg (Ne.symm hne)] at hv
    exact absurd hv (by decide)
  | active p => exact ((h'.active p).mp ((h.active p).mpr rfl)).symm
  | handed p => exact ((h'.handed p).mp ((h.handed p).mpr rfl)).symm

lemma handed_update (hq : q ≠ p) : Handed M Q (update pc p a) q ↔ Handed M Q pc q := by
  unfold Handed
  rw [update_of_ne hq]

lemma not_handed (ha : a.sem M = none) : ¬Handed M Q (update pc p a) p := by
  rintro ⟨k, hk, -⟩
  rw [update_self, ha] at hk
  cases hk

/-- The token, which nobody has had, is with the thread `p`. -/
lemma runs (h : Token M V Q pc l) (hl : ∀ q, l ≠ .active q) (hp : ∀ q, l = .handed q → q = p)
    (hV : ∀ j, M.Has j → V' j = 0) : Token M V' Q (update pc p .active) (.active p) := by
  refine ⟨fun j hj => (hV j hj).trans (if_neg (by simp)).symm, fun q => ?_, fun q => ?_⟩
  · by_cases hq : q = p
    · subst hq
      simp
    · rw [update_of_ne hq, h.active]
      exact iff_of_false (hl q) (by simpa using Ne.symm hq)
  · refine iff_of_false ?_ (by simp)
    by_cases hq : q = p
    · subst hq
      exact not_handed rfl
    · rw [handed_update hq, h.handed]
      exact fun e => hq (hp q e)

/-- The thread `p` has had the token, and now no thread has it. -/
lemma active_rests (h : Token M V Q pc (.active p)) (haa : a ≠ .active) (hl : l ≠ .active q) :
    update pc p a q = .active ↔ l = .active q := by
  refine iff_of_false ?_ hl
  by_cases hq : q = p
  · subst hq
    simpa using haa
  · rw [update_of_ne hq, h.active]
    simpa using Ne.symm hq

/-- **`down` takes the token** out of a semaphore. -/
lemma take (h : Token M V Q pc l) (hk : M.Has k) (hv : semPositive (V k))
    (hV : V' k = V k - 1) (hVne : ∀ j, j ≠ k → V' j = V j) :
    Token M V' Q (update pc p .active) (.active p) := by
  have hl := h.eq_sem hk hv
  subst hl
  refine h.runs (by simp) (by simp) fun j hj => ?_
  by_cases hjk : j = k
  · subst hjk
    rw [hV, h.value j hk, if_pos rfl]
    rfl
  · rw [hVne j hjk, h.value j hj, if_neg (by simpa using Ne.symm hjk)]

/-- **`down` puts a thread to sleep.** -/
lemma sleep (h : Token M V Q pc l) (hp : (pc p).sem M = none) (hpa : pc p ≠ .active)
    (ha : a.sem M = some k) (hQ : Q' k = Q k ++ [p]) (hQne : ∀ j, j ≠ k → Q' j = Q j) :
    Token M V Q' (update pc p a) l := by
  have haa : a ≠ .active := by
    rintro rfl
    cases ha
  refine ⟨h.value, fun q => ?_, fun q => ?_⟩
  · by_cases hq : q = p
    · subst hq
      rw [update_self, ← h.active]
      exact iff_of_false haa hpa
    · rw [update_of_ne hq, h.active]
  · rw [← h.handed]
    by_cases hq : q = p
    · subst hq
      constructor
      · rintro ⟨j, hj, hqj⟩
        rw [update_self, ha] at hj
        cases hj
        exact absurd (hQ ▸ List.mem_append_right _ (List.mem_singleton_self q)) hqj
      · rintro ⟨j, hj, -⟩
        rw [hp] at hj
        cases hj
    · rw [handed_update hq]
      refine exists_congr fun j => and_congr_right fun _ => ?_
      by_cases hjk : j = k
      · subst hjk
        simp [hQ, hq]
      · rw [hQne j hjk]

/-- **`up` puts the token into a semaphore** on which nobody waits. -/
lemma give (h : Token M V Q pc (.active p)) (hk : M.Has k) (ha : a.sem M = none) (haa : a ≠ .active)
    (hV : V' k = V k + 1) (hVne : ∀ j, j ≠ k → V' j = V j) :
    Token M V' Q (update pc p a) (.sem k) := by
  refine ⟨fun j hj => ?_, fun q => h.active_rests haa (by simp), fun q => ?_⟩
  · by_cases hjk : j = k
    · subst hjk
      rw [hV, h.value j hk, if_neg (by simp), if_pos rfl]
      rfl
    · rw [hVne j hjk, h.value j hj, if_neg (by simp), if_neg (by simpa using Ne.symm hjk)]
  · by_cases hq : q = p
    · subst hq
      exact iff_of_false (not_handed ha) (by simp)
    · rw [handed_update hq, h.handed]
      simp

/-- **`up` hands the token** to the first thread of a queue. -/
lemma hand (h : Token M V Q pc (.active p)) {w : List ℕ} (ha : a.sem M = none) (haa : a ≠ .active)
    (hV : ∀ j, M.Has j → V' j = V j) (hq : (pc q).sem M = some k) (hs : Q k = q :: w)
    (hnodup : (Q k).Nodup) (hQ : Q' k = w) (hQne : ∀ j, j ≠ k → Q' j = Q j) :
    Token M V' Q' (update pc p a) (.handed q) := by
  have hqp : q ≠ p := by
    rintro rfl
    rw [(h.active q).mpr rfl] at hq
    cases hq
  refine ⟨fun j hj => ?_, fun r => h.active_rests haa (by simp), fun r => ?_⟩
  · rw [hV j hj, h.value j hj, if_neg (by simp), if_neg (by simp)]
  · by_cases hrq : r = q
    · subst hrq
      rw [handed_update hqp]
      refine iff_of_true ⟨k, hq, ?_⟩ rfl
      rw [hQ]
      exact (List.nodup_cons.mp (hs ▸ hnodup)).1
    · refine iff_of_false ?_ (by simpa using Ne.symm hrq)
      by_cases hr : r = p
      · subst hr
        exact not_handed ha
      · rw [handed_update hr]
        rintro ⟨j, hj, hrj⟩
        have hnot : ¬Handed M Q pc r := by
          rw [h.handed]
          simp
        refine hnot ⟨j, hj, ?_⟩
        by_cases hjk : j = k
        · subst hjk
          rw [hs]
          rw [hQ] at hrj
          simp [hrq, hrj]
        · rw [← hQne j hjk]
          exact hrj

/-- **A thread that has been handed the token runs.** -/
lemma back (h : Token M V Q pc l) (hp : Handed M Q pc p) :
    Token M V Q (update pc p .active) (.active p) := by
  have hl := (h.handed p).mp hp
  subst hl
  refine h.runs (by simp) (fun q e => ?_) fun j hj => (h.value j hj).trans (if_neg (by simp))
  cases e
  rfl

end Token

/-! ## The counters -/

/-- **The counters count threads** of `U`: those that have signalled and not resumed, and those in
`cond_wait` on each variable. -/
structure Counts (U : Finset ℕ) (nextCount : ℤ) (count : ℕ → ℤ) (pc : ℕ → Pc) : Prop where
  next : nextCount = (U.filter fun p => (pc p).inSignal).card
  cond : ∀ c, count c = (U.filter fun p => (pc p).inWait c).card

namespace Counts

variable {U U' : Finset ℕ} {n n' : ℤ} {C C' : ℕ → ℤ} {p : ℕ}

/-- Processes outside the monitor do not count. -/
lemma mono (h : Counts U n C pc) (hU : U ⊆ U') (hpc : ∀ p, pc p ≠ .outside → p ∈ U) :
    Counts U' n C pc := by
  have key : ∀ P : Pc → Bool, P .outside = false →
      (U.filter fun p => P (pc p)) = U'.filter fun p => P (pc p) := by
    intro P hP
    ext p
    simp only [Finset.mem_filter]
    refine ⟨fun hp => ⟨hU hp.1, hp.2⟩, fun hp => ⟨hpc p fun e => ?_, hp.2⟩⟩
    rw [e, hP] at hp
    exact absurd hp.2 (by simp)
  exact ⟨by rw [h.next, key _ rfl], fun c => by rw [h.cond, key _ rfl]⟩

lemma set (h : Counts U n C pc) (hp : p ∈ U)
    (hn : n' = n - (pc p).inSignal.toNat + a.inSignal.toNat)
    (hC : ∀ c, C' c = C c - ((pc p).inWait c).toNat + (a.inWait c).toNat) :
    Counts U n' C' (update pc p a) := by
  refine ⟨?_, fun c => ?_⟩
  · rw [card_filter_update U pc Pc.inSignal hp, hn, h.next]
  · rw [card_filter_update U pc (Pc.inWait c) hp, hC, h.cond]

lemma exists_inWait (h : Counts U n C pc) {c : ℕ} (hc : 0 < C c) : ∃ p, (pc p).inWait c = true := by
  rw [h.cond c] at hc
  obtain ⟨p, hp⟩ := Finset.card_pos.mp (Int.natCast_pos.mp hc)
  exact ⟨p, (Finset.mem_filter.mp hp).2⟩

end Counts

/-! ## The steps of the kernel -/

section Steps

variable {cls : SchedClass} {I : SchedState → Prop} {s t : Kernel}

/-- **A call of `down`.** -/
lemma Step.down_cases (h : Live I s) (hs : Step cls s (.down k) out t) :
    SameSemBut k s t ∧
    (out ≠ .none ∧ semPositive (s.semValue k) ∧ t.semValue k = s.semValue k - 1 ∧
        t.queues (.sem k) = s.queues (.sem k) ∧ t.conts = s.conts ∨
      out = .none ∧ t.semValue k = s.semValue k ∧
        t.queues (.sem k) = s.queues (.sem k) ++ [s.current] ∧
        t.conts = update s.conts s.current (.down k)) := by
  obtain ⟨⟨hu, hr, hsw⟩, e⟩ := hs
  obtain ⟨r, u, e1, e2⟩ := bind_eq_ok.mp e
  have hu := (semDown_spec h.kinv ⟨hu, hr, hsw⟩ k).ok r u e1
  cases e2
  obtain ⟨-, -, -, -, hne, ⟨rfl, h1, h2, h3, h4⟩ | ⟨rfl, -, h2, h3, h4⟩⟩ := hu
  · exact ⟨hne, .inl ⟨by simp [Kernel.downedIf], h1, h2, h3, h4⟩⟩
  · exact ⟨hne, .inr ⟨rfl, h2, h3, h4⟩⟩

/-- **A call of `up`.** -/
lemma Step.up_cases (hc : ClassOk cls I) (h : Live I s) (hs : Step cls s (.up k) out t) :
    t.conts = s.conts ∧
    SameSemBut k s t ∧
    (s.queues (.sem k) = [] ∧ t.semValue k = s.semValue k + 1 ∧ t.queues (.sem k) = [] ∨
      ∃ p w, s.queues (.sem k) = p :: w ∧ t.semValue k = s.semValue k ∧ t.queues (.sem k) = w) := by
  obtain ⟨r, u, e1, e2⟩ := bind_eq_ok.mp hs.2
  have hu := (semUp_spec hc h.kinv k).ok r u e1
  cases e2
  obtain ⟨-, -, -, h1, -, -, h2, ⟨h3, -, h4, h5⟩ | ⟨p, w, h3, -, h4, h5⟩⟩ := hu
  · exact ⟨h1, h2, .inl ⟨h3, h4, h5⟩⟩
  · exact ⟨h1, h2, .inr ⟨p, w, h3, h4, h5⟩⟩

/-- **The return from `schedule` in `down`.** -/
lemma Step.resume_down (h : Live I s) (hk : s.conts s.current = .down k)
    (hs : Step cls s .resume out t) : t = { s with conts := update s.conts s.current .run } := by
  have hspec : Spec (resume cls) s Harmless fun _ t =>
      t = { s with conts := update s.conts s.current .run } := by
    refine .read_bind ?_
    rw [hk]
    exact (semDownResume_spec h.kinv hs.1.1 hk).bind fun _ t ht => .pure ht.2.2
  exact hspec.ok out t hs.2

/-- A step that does not concern the semaphore `k`. -/
lemma Step.sem_kept (hc : ClassOk cls I) (h : Live I s) {op : Op} (hs : Step cls s op out t)
    (hdown : op ≠ .down k) (htry : op ≠ .tryDown k) (hup : op ≠ .up k) :
    t.semValue k = s.semValue k ∧ t.queues (.sem k) = s.queues (.sem k) := by
  cases (hs.advances hc h).sem k with
  | other _ _ hv hq => exact ⟨hv, hq⟩
  | take hop => exact (hop.elim hdown htry).elim
  | wait => exact absurd rfl hdown
  | give | hand => exact absurd rfl hup

end Steps

/-! ## The invariant -/

/-- The token is at `l`. -/
def MonState.At (M : Monitor) (x : MonState) (l : Loc) : Prop :=
  Token M x.kernel.semValue (fun k => x.kernel.queues (.sem k)) x.pc l

/-- **The invariant.** -/
structure MonInv (S : Scheduler) (M : Monitor) (x : MonState) : Prop where
  live : Live S.Inv x.kernel
  used : ∀ p, x.pc p ≠ .outside → p ∈ x.kernel.used
  conts : ∀ p k, M.Has k → (x.kernel.conts p = .down k ↔ (x.pc p).sem M = some k)
  token : ∃ l, x.At M l
  counts : Counts x.kernel.used x.nextCount x.count x.pc

/-- The semaphore on which a thread that is awake calls `down` next. -/
def Pc.downs (M : Monitor) : Pc → Option ℕ
  | .outside => some M.mutex
  | .released c => some (M.cv c)
  | .signalled => some M.next
  | _ => none

lemma Pc.downs_spec (h : a.downs M = some k) :
    M.Has k ∧ a.sem M = none ∧ a ≠ .active ∧ a.asleep.sem M = some k ∧
      a.asleep.inSignal = a.inSignal ∧ ∀ c, a.asleep.inWait c = a.inWait c := by
  cases a <;> simp only [Pc.downs, Option.some.injEq, reduceCtorEq] at h <;> subst h
  · exact ⟨.inl rfl, rfl, by simp, rfl, rfl, fun _ => rfl⟩
  · exact ⟨.inr (.inr ⟨_, rfl⟩), rfl, by simp, rfl, rfl, fun _ => rfl⟩
  · exact ⟨.inr (.inl rfl), rfl, by simp, rfl, rfl, fun _ => rfl⟩

/-- `down` has returned. -/
lemma MonState.returned_eq (x : MonState) : x.returned =
    { x with
      nextCount := x.nextCount - (x.pc x.thread).inSignal.toNat
      count := fun c => x.count c - ((x.pc x.thread).inWait c).toNat
      pc := update x.pc x.thread .active } := by
  have hcount : ∀ d, update x.count d (x.count d - 1) =
      fun c => x.count c - ((decide (d = c)).toNat : ℤ) := by
    intro d
    funext c
    by_cases h : d = c
    · subst h
      simp
    · rw [update_of_ne (Ne.symm h)]
      simp [h]
  unfold MonState.returned
  cases x.pc x.thread <;> simp [Pc.inSignal, Pc.inWait, hcount]

namespace MonInv

variable {t : Kernel}

lemma thread_used (h : MonInv S M x) : x.thread ∈ x.kernel.used :=
  h.live.kinv.used _ h.live.kinv.cur

variable {C : ℕ → ℤ} {n : ℤ}

/-- The part of the invariant that does not concern the semaphores. -/
lemma of_step (h : MonInv S M x) {op : Op} (hs : Step S.cls x.kernel op out t)
    (hn : n = x.nextCount - (x.pc x.thread).inSignal.toNat + a.inSignal.toNat)
    (hC : ∀ c, C c = x.count c - ((x.pc x.thread).inWait c).toNat + (a.inWait c).toNat) :
    Live S.Inv t ∧ (∀ p, update x.pc x.thread a p ≠ .outside → p ∈ t.used) ∧
      Counts t.used n C (update x.pc x.thread a) := by
  have hadv := hs.advances S.ok h.live
  refine ⟨hadv.live, fun p hp => ?_, ?_⟩
  · by_cases hpt : p = x.thread
    · rw [hpt]
      exact hadv.free.used h.thread_used
    · rw [update_of_ne hpt] at hp
      exact hadv.free.used (h.used p hp)
  · exact (h.counts.mono hadv.free.used h.used).set (hadv.free.used h.thread_used) hn hC

/-- The places of the threads after the running one has moved. -/
lemma conts_update (h : MonInv S M x) {c : Cont}
    (ht : t.conts = update x.kernel.conts x.thread c)
    (ha : ∀ k, M.Has k → (c = .down k ↔ a.sem M = some k)) (p k : ℕ) (hk : M.Has k) :
    t.conts p = .down k ↔ (update x.pc x.thread a p).sem M = some k := by
  rw [ht]
  by_cases hp : p = x.thread
  · subst hp
    rw [update_self, update_self]
    exact ha k hk
  · rw [update_of_ne hp, update_of_ne hp]
    exact h.conts p k hk

lemma conts_run (hrun : x.kernel.conts x.thread = .run) (ht : t.conts = x.kernel.conts) :
    t.conts = update x.kernel.conts x.thread .run := by
  rw [ht, ← hrun, update_eq_self]

/-- **A step outside the monitor.** -/
lemma other (h : MonInv S M x) {op : Op} (ha : x.Allowed M (.other op))
    (hs : Step S.cls x.kernel op out t) :
    MonInv S M { x with kernel := t } ∧ ∀ l, x.At M l → MonState.At M { x with kernel := t } l := by
  have hadv := hs.advances S.ok h.live
  have hsem : ∀ k, M.Has k → t.semValue k = x.kernel.semValue k ∧
      t.queues (.sem k) = x.kernel.queues (.sem k) := fun k hk =>
    hs.sem_kept S.ok h.live (ha k hk).1 (ha k hk).2.1 (ha k hk).2.2.1
  have hat : ∀ l, x.At M l → MonState.At M { x with kernel := t } l := fun l hl =>
    Token.congr hl (fun k hk => (hsem k hk).1) fun k hk => (hsem k hk).2
  refine ⟨⟨hadv.live, fun p hp => hadv.free.used (h.used p hp), fun p k hk => ?_, ?_,
    h.counts.mono hadv.free.used h.used⟩, hat⟩
  · rw [← h.conts p k hk]
    obtain ⟨h1, h2⟩ := hs.down_kept S.ok h.live.kinv p k
    refine ⟨fun hp => (h1 hp).resolve_right (ha k hk).1, fun hp => (h2 hp).resolve_right ?_⟩
    rintro (⟨mem, rfl⟩ | ⟨rfl, rfl⟩)
    · -- the address of a new process has not been used
      refine hs.1.2.2.2 (h.used p fun e => ?_)
      rw [h.conts p k hk, e] at hp
      cases hp
    · exact (ha k hk).2.2.2 rfl hp
  · obtain ⟨l, hl⟩ := h.token
    exact ⟨l, hat l hl⟩

/-- **A thread calls `down`**: it takes the token or falls asleep. -/
lemma down (h : MonInv S M x) (ha : (x.pc x.thread).downs M = some k)
    (hs : Step S.cls x.kernel (.down k) out t) :
    (out ≠ .none ∧ MonInv S M { x.returned with kernel := t } ∧ x.At M (.sem k) ∧
      MonState.At M { x.returned with kernel := t } (.active x.thread)) ∨
    (out = .none ∧ MonInv S M { x.asleep with kernel := t } ∧
      ∀ l, x.At M l → MonState.At M { x.asleep with kernel := t } l) := by
  obtain ⟨hk, hsem, hact, hasleep, hsig, hwait⟩ := Pc.downs_spec ha
  obtain ⟨hne, ⟨ho, hv, h1, h2, h3⟩ | ⟨ho, h1, h2, h3⟩⟩ := hs.down_cases h.live
  · refine .inl ⟨ho, ?_⟩
    obtain ⟨l, hl⟩ := h.token
    have hlk : l = .sem k := Token.eq_sem hl hk hv
    subst hlk
    rw [x.returned_eq]
    have hat : Token M t.semValue (fun k => t.queues (.sem k)) (update x.pc x.thread .active)
        (.active x.thread) := by
      refine Token.congr (Token.take hl hk hv h1 fun j hj => (hne j hj).1) (fun _ _ => rfl)
        fun j _ => ?_
      by_cases hj : j = k
      · rw [hj]
        exact h2
      · exact (hne j hj).2
    obtain ⟨h4, h5, h6⟩ := h.of_step hs (a := .active) (n := x.nextCount -
      (x.pc x.thread).inSignal.toNat) (C := fun c => x.count c - ((x.pc x.thread).inWait c).toNat)
      (by simp [Pc.inSignal]) (by simp [Pc.inWait])
    refine ⟨⟨h4, h5, ?_, ⟨_, hat⟩, h6⟩, hl, hat⟩
    exact h.conts_update (conts_run hs.1.2.1 h3) fun j _ => by simp [Pc.sem]
  · refine .inr ⟨ho, ?_⟩
    have hat : ∀ l, x.At M l → Token M t.semValue (fun k => t.queues (.sem k))
        (update x.pc x.thread (x.pc x.thread).asleep) l := by
      intro l hl
      refine Token.congr (Token.sleep hl hsem hact hasleep h2 fun j hj => (hne j hj).2)
        (fun j _ => ?_) fun _ _ => rfl
      by_cases hj : j = k
      · rw [hj]
        exact h1
      · exact (hne j hj).1
    obtain ⟨h4, h5, h6⟩ := h.of_step hs (a := (x.pc x.thread).asleep) (n := x.nextCount)
      (C := x.count) (by rw [hsig]; omega) (fun c => by rw [hwait]; omega)
    obtain ⟨l, hl⟩ := h.token
    refine ⟨⟨h4, h5, ?_, ⟨l, hat l hl⟩, h6⟩, hat⟩
    exact h.conts_update h3 fun j _ => by rw [hasleep]; simp

/-- **The active thread calls `up`**: the token goes into the semaphore, or to the first thread that
waits for it. -/
lemma up (h : MonInv S M x) (hact : x.pc x.thread = .active) (hk : M.Has k) (ha : a.sem M = none)
    (haa : a ≠ .active) (hs : Step S.cls x.kernel (.up k) out t)
    (hn : n = x.nextCount + a.inSignal.toNat) (hC : ∀ c, C c = x.count c + (a.inWait c).toNat) :
    MonInv S M ⟨t, n, C, update x.pc x.thread a⟩ ∧
      (x.kernel.queues (.sem k) = [] ∧
          MonState.At M ⟨t, n, C, update x.pc x.thread a⟩ (.sem k) ∨
        ∃ q, q ∉ t.queues (.sem k) ∧ (x.pc q).sem M = some k ∧
          MonState.At M ⟨t, n, C, update x.pc x.thread a⟩ (.handed q)) := by
  obtain ⟨l, hl⟩ := h.token
  have hla : l = .active x.thread := (hl.active _).mp hact
  subst hla
  obtain ⟨hconts, hne, hcases⟩ := hs.up_cases S.ok h.live
  obtain ⟨h4, h5, h6⟩ := h.of_step hs (a := a) (n := n) (C := C)
    (by rw [hn, hact]; simp [Pc.inSignal]) (fun c => by rw [hC, hact]; simp [Pc.inWait])
  have hcont : ∀ p j, M.Has j →
      (t.conts p = .down j ↔ (update x.pc x.thread a p).sem M = some j) :=
    h.conts_update (conts_run hs.1.2.1 hconts) fun j _ => by simp [ha]
  rcases hcases with ⟨h1, h2, h3⟩ | ⟨q, w, h1, h2, h3⟩
  · have hat : MonState.At M ⟨t, n, C, update x.pc x.thread a⟩ (.sem k) := by
      refine Token.congr (Token.give hl hk ha haa h2 fun j hj => (hne j hj).1) (fun _ _ => rfl)
        fun j _ => ?_
      by_cases hj : j = k
      · rw [hj, h1]
        exact h3
      · exact (hne j hj).2
    exact ⟨⟨h4, h5, hcont, ⟨_, hat⟩, h6⟩, .inl ⟨h1, hat⟩⟩
  · have hq : q ∈ x.kernel.queues (.sem k) := by
      rw [h1]
      exact List.mem_cons_self
    have hqk : (x.pc q).sem M = some k := (h.conts q k hk).mp ((h.live.kinv.sem k q).mp hq).2
    have hV : ∀ j, M.Has j → t.semValue j = x.kernel.semValue j := by
      intro j _
      by_cases hj : j = k
      · rw [hj, h2]
      · exact (hne j hj).1
    have hat : MonState.At M ⟨t, n, C, update x.pc x.thread a⟩ (.handed q) :=
      Token.hand hl ha haa hV hqk h1 (h.live.kinv.nodup k) h3 fun j hj => (hne j hj).2
    have hnot : q ∉ t.queues (.sem k) := by
      rw [h3]
      exact (List.nodup_cons.mp (h1 ▸ h.live.kinv.nodup k)).1
    exact ⟨⟨h4, h5, hcont, ⟨_, hat⟩, h6⟩, .inr ⟨q, hnot, hqk, hat⟩⟩

/-- **A thread returns from `schedule` in `down`**: it had been handed the token. -/
lemma resume (h : MonInv S M x) (hk : M.Has k) (hc : x.kernel.conts x.thread = .down k)
    (hs : Step S.cls x.kernel .resume out t) :
    MonInv S M { x.returned with kernel := t } ∧ x.At M (.handed x.thread) ∧
      MonState.At M { x.returned with kernel := t } (.active x.thread) := by
  have hsem : (x.pc x.thread).sem M = some k := (h.conts _ k hk).mp hc
  have hnot : x.thread ∉ x.kernel.queues (.sem k) := h.live.kinv.notMem_sem
    (fun hsl => by cases (h.live.kinv.active hs.1.1).unique hsl) k
  have ht := hs.resume_down h.live hc
  obtain ⟨l, hl⟩ := h.token
  have hp : Handed M (fun k => x.kernel.queues (.sem k)) x.pc x.thread := ⟨k, hsem, hnot⟩
  have hlp : l = .handed x.thread := (hl.handed _).mp hp
  subst hlp
  obtain ⟨h4, h5, h6⟩ := h.of_step hs (a := .active) (n := x.nextCount -
    (x.pc x.thread).inSignal.toNat) (C := fun c => x.count c - ((x.pc x.thread).inWait c).toNat)
    (by simp [Pc.inSignal]) (by simp [Pc.inWait])
  have hat : Token M t.semValue (fun k => t.queues (.sem k)) (update x.pc x.thread .active)
      (.active x.thread) := by
    rw [ht]
    exact Token.back hl hp
  rw [x.returned_eq]
  refine ⟨⟨h4, h5, ?_, ⟨_, hat⟩, h6⟩, hl, hat⟩
  exact h.conts_update (by rw [ht]; rfl) fun j _ => by simp [Pc.sem]

/-- **Every step keeps the invariant.** -/
lemma step (h : MonInv S M x) {y : MonState} (hs : MonStep S M x op y) : MonInv S M y := by
  obtain ⟨ha, out, t, hstep, rfl⟩ := hs
  have hdown : ∀ k, (x.pc x.thread).downs M = some k → Step S.cls x.kernel (.down k) out t →
      MonInv S M { (if out = .none then x.asleep else x.returned) with kernel := t } := by
    intro k hk hstep
    rcases h.down hk hstep with ⟨ho, h1, -⟩ | ⟨ho, h1, -⟩
    · rw [if_neg ho]
      exact h1
    · rw [if_pos ho]
      exact h1
  have hrelease : ∃ k, M.Has k ∧ x.release M = .up k := by
    unfold MonState.release
    split_ifs
    · exact ⟨_, .inr (.inl rfl), rfl⟩
    · exact ⟨_, .inl rfl, rfl⟩
  cases op with
  | other op => exact (h.other ha hstep).1
  | enter | waitDown c | signalDown =>
    refine hdown _ ?_ hstep
    rw [show x.pc x.thread = _ from ha]
    rfl
  | wait c =>
    obtain ⟨k, hk, he⟩ := hrelease
    rw [MonState.call, he] at hstep
    refine (h.up ha hk (a := .released c) rfl (by simp) hstep
      (by simp [Pc.inSignal, MonState.after]) fun d => ?_).1
    change update x.count c (x.count c + 1) d = _
    by_cases hd : d = c
    · subst hd
      simp [Pc.inWait]
    · rw [update_of_ne hd]
      simp [Pc.inWait, Ne.symm hd]
  | leave =>
    obtain ⟨k, hk, he⟩ := hrelease
    rw [MonState.call, he] at hstep
    exact (h.up ha hk (a := .outside) rfl (by simp) hstep (by simp [Pc.inSignal, MonState.after])
      fun d => by simp [Pc.inWait, MonState.after]).1
  | signal c =>
    exact (h.up ha.1 (.inr (.inr ⟨c, rfl⟩)) (a := .signalled) rfl (by simp) hstep
      (by simp [Pc.inSignal, MonState.after]) fun d => by simp [Pc.inWait, MonState.after]).1
  | resume =>
    obtain ⟨k, hk, hc⟩ := ha
    exact (h.resume hk hc hstep).1

end MonInv

/-- The invariant holds initially. -/
lemma monInv_init (S : Scheduler) (M : Monitor) {semValue : ℕ → BitVec 32}
    (hm : semValue M.mutex = 1) (hn : semValue M.next = 0) (hc : ∀ c, semValue (M.cv c) = 0) :
    MonInv S M ⟨S.boot semValue, 0, fun _ => 0, fun _ => .outside⟩ := by
  refine ⟨boot_live S.inv S.runList, fun p hp => absurd rfl hp, fun p k _ => ?_,
    ⟨.sem M.mutex, fun k hk => ?_, fun p => by simp, fun p => ?_⟩, ⟨?_, fun c => ?_⟩⟩
  · simp [Scheduler.boot, boot, Pc.sem]
  · change semValue k = _
    rcases hk with rfl | rfl | ⟨c, rfl⟩
    · rw [hm, if_pos rfl]
    · rw [hn, if_neg (by simpa using M.mutex_ne_next)]
    · rw [hc, if_neg (by simpa using M.mutex_ne_cv c)]
  · exact iff_of_false (by rintro ⟨k, ⟨⟩, -⟩) (by simp)
  · simp [Pc.inSignal]
  · simp [Pc.inWait]

/-- **The invariant holds in every state reached.** -/
lemma MonReach.inv (h : MonReach S M x) : MonInv S M x := by
  induction h with
  | init semValue hm hn hc => exact monInv_init S M hm hn hc
  | step _ hs ih => exact ih.step hs

/-! ## Handing over -/

/-- The token is on its way to a thread of `W`: one of them has been handed it, or it is in the
semaphore of `c` and only threads of `W` are in `cond_wait` on `c`. -/
def Passing (M : Monitor) (c : ℕ) (W : Set ℕ) (x : MonState) : Prop :=
  (∃ p ∈ W, x.At M (.handed p)) ∨
    x.At M (.sem (M.cv c)) ∧ ∀ p, (x.pc p).inWait c = true → p ∈ W

section HandOver

variable {x y z : MonState} {c : ℕ} {W : Set ℕ}

lemma Passing.not_active (h : Passing M c W x) (p : ℕ) : x.pc p ≠ .active := by
  rcases h with ⟨q, -, hq⟩ | ⟨hq, -⟩
  · rw [Ne, hq.active]
    simp
  · rw [Ne, hq.active]
    simp

lemma Pc.eq_released {a : Pc} (h : a.downs M = some (M.cv c)) : a = .released c := by
  cases a <;> simp only [Pc.downs, Option.some.injEq, reduceCtorEq] at h
  · exact absurd h (M.mutex_ne_cv c)
  · rw [M.cv_inj h]
  · exact absurd h (M.next_ne_cv c)

lemma Pc.eq_waiting {a : Pc} (h : a.sem M = some (M.cv c)) : a = .waiting c := by
  cases a <;> simp only [Pc.sem, Option.some.injEq, reduceCtorEq] at h
  · exact absurd h (M.mutex_ne_cv c)
  · rw [M.cv_inj h]
  · exact absurd h (M.next_ne_cv c)

/-- **A step while the token is passed on**: it stays on its way, or it arrives. -/
lemma Passing.step (hp : Passing M c W x) (h : MonInv S M x) (hs : MonStep S M x op y) :
    Passing M c W y ∨ ∃ p ∈ W, y.At M (.active p) := by
  obtain ⟨ha, out, t, hstep, rfl⟩ := hs
  have hdown : ∀ k, (x.pc x.thread).downs M = some k → Step S.cls x.kernel (.down k) out t →
      Passing M c W { (if out = .none then x.asleep else x.returned) with kernel := t } ∨
      ∃ p ∈ W, MonState.At M
        { (if out = .none then x.asleep else x.returned) with kernel := t } (.active p) := by
    intro k hk hstep
    obtain ⟨hkM, -, -, -, -, hwait⟩ := Pc.downs_spec hk
    rcases h.down hk hstep with ⟨ho, -, h1, h2⟩ | ⟨ho, -, h1⟩
    · rw [if_neg ho]
      rcases hp with ⟨p, -, hp⟩ | ⟨hl, hW⟩
      · cases h1.unique hp fun j hj => by cases hj; exact hkM
      · cases h1.unique hl fun j hj => by cases hj; exact hkM
        refine .inr ⟨x.thread, hW _ ?_, h2⟩
        rw [Pc.eq_released hk]
        simp [Pc.inWait]
    · rw [if_pos ho]
      refine .inl (hp.imp (fun ⟨p, hpW, hp⟩ => ⟨p, hpW, h1 _ hp⟩) fun ⟨hl, hW⟩ =>
        ⟨h1 _ hl, fun p hpc => hW p ?_⟩)
      by_cases hpt : p = x.thread
      · subst hpt
        rw [← hwait]
        simpa [MonState.asleep] using hpc
      · simpa [MonState.asleep, update_of_ne hpt] using hpc
  cases op with
  | other op =>
    have hat := (h.other ha hstep).2
    exact .inl (hp.imp (fun ⟨p, hpW, hp⟩ => ⟨p, hpW, hat _ hp⟩) fun ⟨hl, hW⟩ => ⟨hat _ hl, hW⟩)
  | enter | waitDown d | signalDown =>
    refine hdown _ ?_ hstep
    rw [show x.pc x.thread = _ from ha]
    rfl
  | wait d | leave => exact absurd ha (hp.not_active _)
  | signal d => exact absurd ha.1 (hp.not_active _)
  | resume =>
    obtain ⟨k, hk, hc⟩ := ha
    obtain ⟨-, h1, h2⟩ := h.resume hk hc hstep
    rcases hp with ⟨p, hpW, hp⟩ | ⟨hl, -⟩
    · cases h1.unique hp fun j hj => by cases hj
      exact .inr ⟨_, hpW, h2⟩
    · cases h1.unique hl fun j hj => by cases hj

/-- A step from a state in which no thread is active. -/
def Unowned (S : Scheduler) (M : Monitor) (x y : MonState) : Prop :=
  (∀ p, x.pc p ≠ .active) ∧ ∃ op, MonStep S M x op y

/-- **Until a thread is active, the token stays on its way**, and then it has arrived. -/
lemma Passing.run (hp : Passing M c W x) (h : MonInv S M x)
    (hr : Relation.ReflTransGen (Unowned S M) x y) :
    MonInv S M y ∧ (Passing M c W y ∨ ∃ p ∈ W, y.At M (.active p)) := by
  induction hr with
  | refl => exact ⟨h, .inl hp⟩
  | tail _ hs ih =>
    obtain ⟨hno, op, hs⟩ := hs
    refine ⟨ih.1.step hs, ?_⟩
    rcases ih.2 with hp | ⟨p, -, hp⟩
    · exact hp.step ih.1 hs
    · exact absurd ((hp.active p).mpr rfl) (hno p)

/-- **`cond_signal` hands the token over**: to a thread that waits for the variable, or, if there is
only one on its way to `down`, through the semaphore. -/
lemma MonInv.signal (h : MonInv S M x) (hs : MonStep S M x (.signal c) y) :
    ((∃ q, x.pc q = .waiting c ∧ q ∉ y.kernel.queues (.sem (M.cv c))) ∨
      (∃ q, x.pc q = .released c) ∧ y.kernel.semValue (M.cv c) = 1) ∧
    Passing M c { p | (x.pc p).inWait c = true } y := by
  obtain ⟨⟨ha, hpos⟩, out, t, hstep, rfl⟩ := hs
  have hup := (h.up ha (.inr (.inr ⟨c, rfl⟩)) (a := .signalled) rfl (by simp) hstep
    (n := x.nextCount + 1) (C := x.count) (by simp [Pc.inSignal]) fun d => by simp [Pc.inWait]).2
  rcases hup with ⟨hq, hat⟩ | ⟨q, hnot, hq, hat⟩
  · obtain ⟨p, hp⟩ := h.counts.exists_inWait hpos
    have hv := hat.value (M.cv c) (.inr (.inr ⟨c, rfl⟩))
    rw [if_pos rfl] at hv
    refine ⟨.inr ⟨⟨p, ?_⟩, hv⟩, .inr ⟨hat, fun r hr => ?_⟩⟩
    · -- a thread that sleeps in the call would be in the queue, for the active thread has the token
      cases hpc : x.pc p <;> rw [hpc] at hp <;> simp only [Pc.inWait, decide_eq_true_eq,
        Bool.false_eq_true] at hp
      · rw [hp]
      · subst hp
        obtain ⟨l, hl⟩ := h.token
        have hla := (hl.active _).mp ha
        subst hla
        have hnot : ¬Handed M (fun k => x.kernel.queues (.sem k)) x.pc p := by
          rw [hl.handed]
          simp
        refine absurd ⟨M.cv _, by rw [hpc]; rfl, ?_⟩ hnot
        change p ∉ x.kernel.queues (.sem _)
        rw [hq]
        exact List.not_mem_nil
    · change (update x.pc x.thread .signalled r).inWait c = true at hr
      by_cases hrt : r = x.thread
      · subst hrt
        rw [update_self] at hr
        cases hr
      · rw [update_of_ne hrt] at hr
        exact hr
  · have hw := Pc.eq_waiting hq
    refine ⟨.inl ⟨q, hw, hnot⟩, .inl ⟨q, ?_, hat⟩⟩
    change (x.pc q).inWait c = true
    rw [hw]
    simp [Pc.inWait]

end HandOver

/-- **The law of the monitor**, in every state reached: at most one thread is active; `next_count`
and the `count`s are the numbers of the threads that have signalled and not resumed and of those in
`cond_wait`; and a `cond_signal` hands the monitor to a thread that was in `cond_wait` on the
variable when it was called: a sleeping one is woken, or the semaphore has been raised for one that
has not called `down` yet, and the next thread to become active is one of these. -/
theorem monitor_correct (S : Scheduler) (M : Monitor) {x : MonState} (h : MonReach S M x) :
    (∀ p q, x.pc p = .active → x.pc q = .active → p = q) ∧
    (∀ p, x.pc p ≠ .outside → p ∈ x.kernel.used) ∧
    x.nextCount = (x.kernel.used.filter fun p => (x.pc p).inSignal).card ∧
    (∀ c, x.count c = (x.kernel.used.filter fun p => (x.pc p).inWait c).card) ∧
    ∀ c y, MonStep S M x (.signal c) y →
      ((∃ q, x.pc q = .waiting c ∧ q ∉ y.kernel.queues (.sem (M.cv c))) ∨
        (∃ q, x.pc q = .released c) ∧ y.kernel.semValue (M.cv c) = 1) ∧
      ∀ z p, Relation.ReflTransGen (Unowned S M) y z → z.pc p = .active →
        (x.pc p).inWait c = true := by
  have hinv := h.inv
  refine ⟨fun p q hp hq => ?_, hinv.used, hinv.counts.next, hinv.counts.cond, fun c y hs => ?_⟩
  · obtain ⟨l, hl⟩ := hinv.token
    have hlp := (hl.active p).mp hp
    have hlq := (hl.active q).mp hq
    exact Loc.active.inj (hlp.symm.trans hlq)
  · obtain ⟨h1, h2⟩ := hinv.signal hs
    refine ⟨h1, fun z p hr hp => ?_⟩
    obtain ⟨-, hp' | ⟨q, hq, hat⟩⟩ := h2.run (hinv.step hs) hr
    · exact absurd hp (hp'.not_active p)
    · have hpq := Loc.active.inj ((hat.active p).mp hp)
      subst hpq
      exact hq

/-! ## A run -/

/-- The steps of a thread, and those outside the monitor that use no semaphore. -/
def MonState.may (x : MonState) : MonOp → Bool
  | .other .yield | .other .schedule | .other (.fork _ _) => true
  | .enter => x.pc x.thread = .outside
  | .wait _ => x.pc x.thread = .active
  | .waitDown c => x.pc x.thread = .released c
  | .signal c => x.pc x.thread = .active ∧ 0 < x.count c
  | _ => false

lemma MonState.may_allowed (h : x.may op = true) : x.Allowed M op := by
  cases op with
  | other op =>
    intro k _
    cases op <;> simp [MonState.may] at h ⊢
  | signalDown | leave | resume => cases h
  | _ => simpa [MonState.may, MonState.Allowed] using h

/-- Take a step if it can be taken. -/
def MonState.take (S : Scheduler) (M : Monitor) (x : MonState) (op : MonOp) : Option MonState :=
  if x.may op = true ∧ Enabled x.kernel (x.call M op) then
    match exec S.cls (x.call M op) x.kernel with
    | .ok (out, t) => some { x.after out op with kernel := t }
    | .error _ => none
  else none

/-- Take the steps of a list if they can be taken. -/
def MonState.takeAll (S : Scheduler) (M : Monitor) : List MonOp → MonState → Option MonState
  | [], x => some x
  | op :: l, x => (x.take S M op).bind (takeAll S M l)

lemma MonState.take_step {y : MonState} (h : x.take S M op = some y) : MonStep S M x op y := by
  rw [MonState.take] at h
  split_ifs at h with hop
  split at h
  · next out t e => exact ⟨may_allowed hop.1, out, t, ⟨hop.2, e⟩, (Option.some.inj h).symm⟩
  · cases h

lemma MonState.takeAll_reach (l : List MonOp) {y : MonState} (hx : MonReach S M x)
    (h : x.takeAll S M l = some y) : MonReach S M y := by
  induction l generalizing x with
  | nil =>
    cases h
    exact hx
  | cons op l ih =>
    obtain ⟨z, h1, h2⟩ := Option.bind_eq_some_iff.mp h
    exact ih (hx.step (take_step h1)) h2

/-- The monitor with the semaphores from `0` on. -/
def firstMonitor : Monitor := ⟨0, 1, (· + 2), by decide, fun c => by omega, fun c => by omega,
  fun a b h => by simpa using h⟩

/-- The state after `monitor_init`. -/
def firstState : MonState :=
  ⟨rrScheduler.boot fun k => if k = 0 then 1 else 0, 0, fun _ => 0, fun _ => .outside⟩

/-- `initproc` creates a second thread, enters the monitor and waits; the other thread enters. -/
def waitThenEnter : List MonOp :=
  [.other .yield, .other .schedule, .other (.fork 2 .enough), .enter, .wait 0, .waitDown 0,
    .other .schedule, .enter]

/-- The second thread signals, and only `initproc` can go on. -/
theorem monitor_correct_signal :
    ∃ x y, MonReach rrScheduler firstMonitor x ∧ x.pc 1 = .waiting 0 ∧ x.pc 2 = .active ∧
      MonStep rrScheduler firstMonitor x (.signal 0) y ∧
      ∀ z p, Relation.ReflTransGen (Unowned rrScheduler firstMonitor) y z → z.pc p = .active →
        (x.pc p).inWait 0 = true := by
  have hrun : ((firstState.takeAll rrScheduler firstMonitor waitThenEnter).map fun x =>
      (x.pc 1, x.pc 2, (x.take rrScheduler firstMonitor (.signal 0)).isSome)) =
      some (.waiting 0, .active, true) := by decide +kernel
  obtain ⟨x, hx, h⟩ := Option.map_eq_some_iff.mp hrun
  obtain ⟨h1, h2, h3⟩ : x.pc 1 = .waiting 0 ∧ x.pc 2 = .active ∧
      (x.take rrScheduler firstMonitor (.signal 0)).isSome = true := by simpa using h
  obtain ⟨y, hy⟩ := Option.isSome_iff_exists.mp h3
  have hreach : MonReach rrScheduler firstMonitor x :=
    MonState.takeAll_reach waitThenEnter (MonReach.init _ rfl rfl fun _ => rfl) hx
  have hstep := MonState.take_step hy
  exact ⟨x, y, hreach, h1, h2, hstep,
    ((monitor_correct rrScheduler firstMonitor hreach).2.2.2.2 0 y hstep).2⟩

end Ucore

import Ucore.Process.Steps

set_option autoImplicit false

/-!
# The table of pids

`get_pid` returns a pid that no process has: between `last_pid` and `next_safe` there is none. The
hash table and the list of processes hold all processes but `idleproc`.

## Main definitions

* `PidTable` — the invariant of the list, the hash table and the variables of `get_pid`.

## Main results

* `getPid_spec` — the pid returned is not in use.
* `get_pid_fresh` — `get_pid` terminates with such a pid in every run.
* `PidTable.findProc_eq_some` — `find_proc` finds the process with a pid.
* `PidTable.add`, `PidTable.remove` — a process is entered or removed.
-/

namespace Ucore

open Function List

/-! ## `get_pid` -/

/-- No pid of the list lies in `[last, safe)`. -/
def Gap (pids : List ℤ) (last safe : ℤ) : Prop := last < safe ∧ ∀ v ∈ pids, v < last ∨ safe ≤ v

/-- **The scan of `get_pid`.** If it does not start again, it ends with a gap for the whole list, of
which it has looked at `seen`. -/
lemma scanPids_spec (pids seen : List ℤ) {last safe last' safe' : ℤ} {again : Bool}
    (h : Gap seen last safe) (h1 : 1 ≤ last) (hm : safe ≤ maxPid)
    (e : scanPids pids last safe = (again, last', safe')) :
    1 ≤ last' ∧ last' < maxPid ∧ safe' ≤ maxPid ∧
      (again = true → safe' = maxPid) ∧ (again = false → Gap (seen ++ pids) last' safe') := by
  induction pids generalizing seen last safe with
  | nil =>
    cases e
    exact ⟨h1, lt_of_lt_of_le h.1 hm, hm, fun hb => (by cases hb), fun _ => by simpa using h⟩
  | cons pid l ih =>
    have happ : seen ++ pid :: l = (seen ++ [pid]) ++ l := by simp
    rw [scanPids] at e
    split_ifs at e with h2 h3 h4 h5
    · cases e
      exact ⟨le_rfl, by decide, le_rfl, fun _ => rfl, fun hb => by cases hb⟩
    · cases e
      exact ⟨by omega, by omega, le_rfl, fun _ => rfl, fun hb => by cases hb⟩
    · -- the pid is in use: the next one may be free
      rw [happ]
      refine ih (seen ++ [pid]) ⟨by omega, fun v hv => ?_⟩ (by omega) hm e
      rw [mem_append, mem_singleton] at hv
      rcases hv with hv | rfl
      · have := h.2 v hv
        omega
      · omega
    · rw [happ]
      refine ih (seen ++ [pid]) ⟨h5.1, fun v hv => ?_⟩ h1 (by omega) e
      rw [mem_append, mem_singleton] at hv
      rcases hv with hv | rfl
      · have := h.2 v hv
        omega
      · omega
    · rw [happ]
      refine ih (seen ++ [pid]) ⟨h.1, fun v hv => ?_⟩ h1 hm e
      rw [mem_append, mem_singleton] at hv
      rcases hv with hv | rfl
      · exact h.2 v hv
      · omega

/-- The code from the label `repeat` on ends with a gap. -/
lemma repeatScan_spec (pids : List ℤ) (fuel : ℕ) {last last' safe' : ℤ} (h1 : 1 ≤ last)
    (hl : last < maxPid) (e : repeatScan pids fuel last maxPid = some (last', safe')) :
    1 ≤ last' ∧ safe' ≤ maxPid ∧ Gap pids last' safe' := by
  induction fuel generalizing last with
  | zero => cases e
  | succ fuel ih =>
    rw [repeatScan] at e
    rcases hs : scanPids pids last maxPid with ⟨again, last₁, safe₁⟩
    rw [hs] at e
    have h0 : Gap [] last maxPid := ⟨hl, fun v hv => absurd hv not_mem_nil⟩
    obtain ⟨h2, h3, h4, h5, h6⟩ := scanPids_spec pids [] h0 h1 le_rfl hs
    cases again with
    | false =>
      cases e
      exact ⟨h2, h4, h6 rfl⟩
    | true =>
      rw [h5 rfl] at e
      exact ih h2 h3 e

/-- **`get_pid` returns a pid that is not in use**, and leaves a gap behind it. -/
lemma getPid_spec {pids : List ℤ} {last safe pid safe' : ℤ} (h1 : 1 ≤ last) (hm : safe ≤ maxPid)
    (h : ∀ v ∈ pids, v ≤ last ∨ safe ≤ v) (e : getPid pids last safe = some (pid, safe')) :
    1 ≤ pid ∧ safe' ≤ maxPid ∧ Gap pids pid safe' := by
  have hp : (1 : ℤ) < maxPid := by decide
  unfold getPid at e
  split_ifs at e with h2 h3
  · exact repeatScan_spec pids _ le_rfl hp e
  · exact repeatScan_spec pids _ (by omega) (by omega) e
  · cases e
    refine ⟨by omega, hm, by omega, fun v hv => ?_⟩
    have := h v hv
    omega

/-! ## Termination of `get_pid` -/

/-- A scan that starts again has found all pids from `last` up to its new candidate `e` in use. -/
lemma scanPids_again (pids l : List ℤ) {last safe last' safe' : ℤ} (hsub : ∀ v ∈ l, v ∈ pids)
    (hlt : last < safe) (hm : safe ≤ maxPid) (e : scanPids l last safe = (true, last', safe')) :
    ∃ e, last < e ∧ e ≤ maxPid ∧ (∀ v, last ≤ v → v < e → v ∈ pids) ∧
      last' = if maxPid ≤ e then 1 else e := by
  induction l generalizing last safe with
  | nil => cases e
  | cons pid l ih =>
    have hl : ∀ v ∈ l, v ∈ pids := fun v hv => hsub v (mem_cons_of_mem _ hv)
    rw [scanPids] at e
    split_ifs at e with h1 h2 h3 h4
    · cases e
      refine ⟨last + 1, by omega, by omega, fun v h5 h6 => ?_, (if_pos h3).symm⟩
      obtain rfl : v = pid := by omega
      exact hsub v mem_cons_self
    · cases e
      refine ⟨last + 1, by omega, by omega, fun v h5 h6 => ?_, (if_neg h3).symm⟩
      obtain rfl : v = pid := by omega
      exact hsub v mem_cons_self
    · obtain ⟨c, hc, hcm, hused, hlast⟩ := ih hl (by omega) hm e
      refine ⟨c, by omega, hcm, fun v h5 h6 => ?_, hlast⟩
      rcases eq_or_lt_of_le h5 with rfl | h5
      · exact hsub last (h1 ▸ mem_cons_self)
      · exact hused v (by omega) h6
    · exact ih hl h4.1 (by omega) e
    · exact ih hl hlt hm e

/-- **The code from the label `repeat` on ends** if some pid `w` is free: the candidate moves
towards `w`, at most once around the end of the range. -/
lemma repeatScan_isSome (pids : List ℤ) {w : ℤ} (hw : w ∉ pids) (h1 : 1 ≤ w) (hwm : w < maxPid)
    (fuel : ℕ) {c : ℤ} (h0 : 1 ≤ c) (hc : c < maxPid)
    (hfuel : (if c ≤ w then w - c else maxPid - c + w) < fuel) :
    (repeatScan pids fuel c maxPid).isSome := by
  induction fuel generalizing c with
  | zero => split_ifs at hfuel <;> omega
  | succ fuel ih =>
    rw [repeatScan]
    rcases hs : scanPids pids c maxPid with ⟨again, last', safe'⟩
    cases again with
    | false => rfl
    | true =>
      obtain ⟨e, hce, hem, hused, hlast⟩ := scanPids_again pids pids (fun _ h => h) hc le_rfl hs
      obtain ⟨h2, hlt, -, hsafe, -⟩ := scanPids_spec pids [] ⟨hc, by simp⟩ h0 le_rfl hs
      have hwe : w < c ∨ e ≤ w := by
        by_contra h
        exact hw (hused w (by omega) (by omega))
      rw [hsafe rfl]
      refine ih h2 hlt ?_
      split_ifs at hlast hfuel ⊢ <;> omega

/-- Fewer than `MAX_PROCESS` processes leave a pid free. -/
lemma exists_free_pid {pids : List ℤ} (h : pids.length < maxProcess) :
    ∃ w, w ∉ pids ∧ 1 ≤ w ∧ w < maxPid := by
  have hcard : pids.toFinset.card < (Finset.Ico 1 maxPid).card :=
    calc pids.toFinset.card ≤ pids.length := toFinset_card_le pids
      _ < maxProcess := h
      _ ≤ (Finset.Ico 1 maxPid).card := by simp [maxPid, maxProcess]
  obtain ⟨w, hw, hfree⟩ := Finset.exists_mem_notMem_of_card_lt_card hcard
  exact ⟨w, by simpa using hfree, Finset.mem_Ico.mp hw⟩

/-- **`get_pid` terminates** while there are fewer than `MAX_PROCESS` processes. -/
lemma getPid_isSome {pids : List ℤ} (h : pids.length < maxProcess) {last : ℤ} (safe : ℤ)
    (hl : 1 ≤ last) : (getPid pids last safe).isSome := by
  obtain ⟨w, hw, h1, hwm⟩ := exists_free_pid h
  unfold getPid
  split_ifs with h2 h3
  · refine repeatScan_isSome pids hw h1 hwm _ le_rfl (by decide) ?_
    rw [if_pos h1]
    omega
  · refine repeatScan_isSome pids hw h1 hwm _ (by omega) (by omega) ?_
    split_ifs <;> omega
  · rfl

/-- The pids in `proc_list`, in its order, and the static variables of `get_pid`. -/
structure PidState where
  pids : List ℤ
  lastPid : ℤ
  nextSafe : ℤ

/-- The processes come and go: one with the pid that `get_pid` returned is inserted, or one is
removed. The list may be in any order afterwards. -/
inductive PidStep (s : PidState) : PidState → Prop
  | insert {pid safe : ℤ} {l : List ℤ}
      (e : getPid s.pids s.lastPid s.nextSafe = some (pid, safe)) (hl : l.Perm (pid :: s.pids)) :
      PidStep s ⟨l, pid, safe⟩
  | remove {pid : ℤ} {l : List ℤ} (hl : l.Perm (s.pids.erase pid)) :
      PidStep s ⟨l, s.lastPid, s.nextSafe⟩

/-- No process is there, and the variables have their initial values. -/
def PidState.init : PidState := ⟨[], maxPid, maxPid⟩

/-- No listed pid lies between the variables of `get_pid`. -/
structure PidState.Ok (s : PidState) : Prop where
  last : 1 ≤ s.lastPid
  safe : s.nextSafe ≤ maxPid
  gap : ∀ v ∈ s.pids, v ≤ s.lastPid ∨ s.nextSafe ≤ v

lemma PidStep.ok {s t : PidState} (h : PidStep s t) (hs : s.Ok) : t.Ok := by
  cases h with
  | insert e hl =>
    obtain ⟨h1, hm, hgap⟩ := getPid_spec hs.last hs.safe hs.gap e
    refine ⟨h1, hm, fun v hv => ?_⟩
    rcases mem_cons.mp (hl.mem_iff.mp hv) with rfl | hv
    · exact .inl le_rfl
    · exact (hgap.2 v hv).imp_left le_of_lt
  | remove hl =>
    exact ⟨hs.last, hs.safe, fun v hv => hs.gap v (mem_of_mem_erase (hl.mem_iff.mp hv))⟩

lemma PidState.ok_of_run {s : PidState} (h : Relation.ReflTransGen PidStep .init s) : s.Ok := by
  induction h with
  | refl => exact ⟨by decide, le_rfl, fun v hv => absurd hv not_mem_nil⟩
  | tail _ hstep ih => exact hstep.ok ih

/-- **`get_pid` terminates with a fresh pid**, whatever processes have come and gone before: while
there are fewer than `MAX_PROCESS`, it returns a pid in `[1, MAX_PID)` that no process of the list
has, and leaves no listed pid between `last_pid` and `next_safe`. -/
theorem get_pid_fresh (s : PidState) (h : Relation.ReflTransGen PidStep .init s)
    (hn : s.pids.length < maxProcess) :
    ∃ pid safe, getPid s.pids s.lastPid s.nextSafe = some (pid, safe) ∧
      1 ≤ pid ∧ pid < maxPid ∧ pid ∉ s.pids ∧ ∀ v ∈ s.pids, ¬ (pid < v ∧ v < safe) := by
  have hs := PidState.ok_of_run h
  obtain ⟨⟨pid, safe⟩, e⟩ := Option.isSome_iff_exists.mp (getPid_isSome hn s.nextSafe hs.last)
  obtain ⟨h1, hm, hgap⟩ := getPid_spec hs.last hs.safe hs.gap e
  refine ⟨pid, safe, e, h1, lt_of_lt_of_le hgap.1 hm, fun hmem => ?_, fun v hv hbetween => ?_⟩
  · have := hgap.2 pid hmem
    have := hgap.1
    omega
  · have := hgap.2 v hv
    omega

/-- Processes come and go while 1 and 2 stay. -/
lemma PidState.two_stay (k : ℕ) (hk : k + 2 < 8192) :
    Relation.ReflTransGen PidStep .init ⟨[2, 1], k + 2, maxPid⟩ := by
  induction k with
  | zero =>
    have h1 : PidStep .init ⟨[1], 1, maxPid⟩ := .insert (by decide) (.refl _)
    exact (Relation.ReflTransGen.single h1).tail (.insert (by decide) (.refl _))
  | succ k ih =>
    have e : getPid [2, 1] (k + 2) maxPid = some (((k + 1 : ℕ) : ℤ) + 2, maxPid) := by
      have hlt : ¬maxPid ≤ (k : ℤ) + 2 + 1 := by
        unfold maxPid maxProcess
        omega
      rw [getPid, if_neg hlt, if_neg hlt, Nat.cast_succ, add_right_comm]
    have hl := (erase_cons_head (((k + 1 : ℕ) : ℤ) + 2) [2, 1]).symm
    exact ((ih (by omega)).tail (.insert e (.refl _))).tail (.remove (Perm.of_eq hl))

/-- `last_pid` has come to the end, and the processes 1 and 2 are there, the second listed first:
the scan finds 1 in use, and then 2, which is `next_safe`; it starts again and finds 3. -/
theorem get_pid_fresh_restart : scanPids [2, 1] 1 maxPid = (true, 2, maxPid) ∧
    ∃ pid safe, getPid [2, 1] 8191 maxPid = some (pid, safe) ∧ 1 ≤ pid ∧ pid < maxPid ∧
      pid ∉ [2, (1 : ℤ)] ∧ ∀ v ∈ [2, (1 : ℤ)], ¬ (pid < v ∧ v < safe) :=
  ⟨by decide, get_pid_fresh ⟨[2, 1], 8191, maxPid⟩ (PidState.two_stay 8189 (by decide)) (by decide)⟩

/-! ## The table -/

/-- **The list of processes, the hash table and the variables of `get_pid`.** -/
structure PidTable (s : Kernel) : Prop where
  listed : ∀ p, p ∈ s.procList ↔ s.pidOf p ≠ none ∧ p ≠ s.idleproc
  listNodup : s.procList.Nodup
  hashed : ∀ h p, p ∈ s.hashList h ↔
    p ≠ s.idleproc ∧ ∃ pid, s.pidOf p = some pid ∧ pidHashfn pid = h
  hashNodup : ∀ h, (s.hashList h).Nodup
  inj : ∀ p p' pid, s.pidOf p = some pid → s.pidOf p' = some pid → p ≠ s.idleproc →
    p' ≠ s.idleproc → p = p'
  range : ∀ p pid, s.pidOf p = some pid → p ≠ s.idleproc → 1 ≤ pid ∧ pid < maxPid
  gap : ∀ p pid, s.pidOf p = some pid → p ≠ s.idleproc → pid ≤ s.lastPid ∨ s.nextSafe ≤ pid
  last : 1 ≤ s.lastPid ∧ s.nextSafe ≤ maxPid

namespace PidTable

variable {s t : Kernel} {p new : ℕ} {pid safe : ℤ}

lemma pidOf_eq (s : Kernel) (p : ℕ) : s.pidOf p = (s.kin p).map Kin.pid := by
  unfold Kernel.pidOf Kernel.kin
  cases s.procs p <;> rfl

/-- The table depends on the pids and the lists only. -/
lemma congr (h : PidTable s) (hp : ∀ p, t.pidOf p = s.pidOf p) (h1 : t.idleproc = s.idleproc)
    (h2 : t.procList = s.procList) (h3 : t.hashList = s.hashList) (h4 : t.lastPid = s.lastPid)
    (h5 : t.nextSafe = s.nextSafe) : PidTable t := by
  refine ⟨?_, ?_, ?_, ?_, ?_, ?_, ?_, ?_⟩
  · simpa only [hp, h1, h2] using h.listed
  · simpa only [h2] using h.listNodup
  · simpa only [hp, h1, h3] using h.hashed
  · simpa only [h3] using h.hashNodup
  · simpa only [hp, h1] using h.inj
  · simpa only [hp, h1] using h.range
  · simpa only [hp, h1, h4, h5] using h.gap
  · simpa only [h4, h5] using h.last

lemma of_same (h : PidTable s) (hk : SameKin s t) : PidTable t := by
  refine h.congr (fun p => ?_) hk.idleproc hk.procList hk.hashList hk.lastPid hk.nextSafe
  rw [pidOf_eq, pidOf_eq, hk.kin]

/-- **`find_proc` finds the process with a pid.** -/
lemma findProc_eq_some (h : PidTable s) (e : s.findProc pid = some p) :
    s.pidOf p = some pid ∧ p ≠ s.idleproc := by
  unfold Kernel.findProc at e
  split_ifs at e
  have hp := List.find?_some e
  have hm := (h.hashed _ _).mp (mem_of_find?_eq_some e)
  exact ⟨by simpa using hp, hm.1⟩

/-- **A process is entered** under a pid that `get_pid` has returned. -/
lemma add (h : PidTable s) (hnew : s.pidOf new = none) (hi : new ≠ s.idleproc) (h1 : 1 ≤ pid)
    (hm : safe ≤ maxPid) (hg : Gap (s.procList.filterMap s.pidOf) pid safe)
    (hp : ∀ p, t.pidOf p = if p = new then some pid else s.pidOf p)
    (hidle : t.idleproc = s.idleproc) (hl : t.procList = new :: s.procList)
    (hh : t.hashList = update s.hashList (pidHashfn pid) (new :: s.hashList (pidHashfn pid)))
    (hlast : t.lastPid = pid) (hsafe : t.nextSafe = safe) : PidTable t := by
  have hold : ∀ p v, s.pidOf p = some v → p ≠ s.idleproc → v < pid ∨ safe ≤ v := by
    intro p v hv hpi
    refine hg.2 v (mem_filterMap.mpr ⟨p, ?_, hv⟩)
    exact (h.listed p).mpr ⟨by simp [hv], hpi⟩
  have hcase : ∀ p v, t.pidOf p = some v → (p = new ∧ v = pid) ∨
      (p ≠ new ∧ s.pidOf p = some v) := by
    intro p v hv
    rw [hp] at hv
    split_ifs at hv with hpn
    · exact .inl ⟨hpn, (Option.some.inj hv).symm⟩
    · exact .inr ⟨hpn, hv⟩
  have hnotList : new ∉ s.procList := fun hx => ((h.listed new).mp hx).1 hnew
  have hnotHash : ∀ b, new ∉ s.hashList b := by
    intro b hx
    obtain ⟨-, v, hv, -⟩ := (h.hashed b new).mp hx
    rw [hnew] at hv
    cases hv
  refine ⟨fun p => ?_, ?_, fun b p => ?_, fun b => ?_, fun p p' v hv hv' hpi hpi' => ?_,
    fun p v hv hpi => ?_, fun p v hv hpi => ?_, ?_⟩
  · rw [hl, mem_cons, h.listed, hp, hidle]
    by_cases hpn : p = new
    · simp [hpn, hi]
    · simp [hpn]
  · rw [hl]
    exact nodup_cons.mpr ⟨hnotList, h.listNodup⟩
  · rw [hh, hidle, hp]
    by_cases hpn : p = new
    · subst hpn
      by_cases hb : b = pidHashfn pid
      · subst hb
        simp [hi]
      · rw [update_of_ne hb]
        simp [hnotHash b, Ne.symm hb]
    · rw [if_neg hpn, ← h.hashed]
      by_cases hb : b = pidHashfn pid
      · subst hb
        simp [hpn]
      · rw [update_of_ne hb]
  · rw [hh]
    exact (forall_update_iff _ fun _ => List.Nodup).mpr
      ⟨nodup_cons.mpr ⟨hnotHash _, h.hashNodup _⟩, fun b _ => h.hashNodup b⟩ b
  · rw [hidle] at hpi hpi'
    have hlt := hg.1
    rcases hcase p v hv with ⟨h2, rfl⟩ | ⟨-, h2⟩
    · rcases hcase p' v hv' with ⟨h3, -⟩ | ⟨-, h3⟩
      · rw [h2, h3]
      · have := hold p' v h3 hpi'
        omega
    · rcases hcase p' v hv' with ⟨-, rfl⟩ | ⟨-, h3⟩
      · have := hold p v h2 hpi
        omega
      · exact h.inj p p' v h2 h3 hpi hpi'
  · rw [hidle] at hpi
    rcases hcase p v hv with ⟨-, rfl⟩ | ⟨-, h2⟩
    · exact ⟨h1, lt_of_lt_of_le hg.1 hm⟩
    · exact h.range p v h2 hpi
  · rw [hidle] at hpi
    rw [hlast, hsafe]
    rcases hcase p v hv with ⟨-, rfl⟩ | ⟨-, h2⟩
    · exact .inl le_rfl
    · exact (hold p v h2 hpi).imp_left le_of_lt
  · rw [hlast, hsafe]
    exact ⟨h1, hm⟩

/-- **A process is removed.** -/
lemma remove (h : PidTable s) (hpid : s.pidOf p = some pid)
    (hp : ∀ x, t.pidOf x = if x = p then none else s.pidOf x) (hidle : t.idleproc = s.idleproc)
    (hl : t.procList = s.procList.erase p)
    (hh : t.hashList = update s.hashList (pidHashfn pid) ((s.hashList (pidHashfn pid)).erase p))
    (hlast : t.lastPid = s.lastPid) (hsafe : t.nextSafe = s.nextSafe) : PidTable t := by
  have hcase : ∀ x v, t.pidOf x = some v → s.pidOf x = some v := by
    intro x v hv
    rw [hp] at hv
    split_ifs at hv
    exact hv
  refine ⟨fun x => ?_, ?_, fun b x => ?_, fun b => ?_, fun x x' v hv hv' hxi hxi' => ?_,
    fun x v hv hxi => ?_, fun x v hv hxi => ?_, ?_⟩
  · rw [hl, h.listNodup.mem_erase_iff, h.listed, hp, hidle]
    by_cases hxp : x = p
    · simp [hxp]
    · simp [hxp]
  · rw [hl]
    exact h.listNodup.erase p
  · rw [hh, hidle, hp]
    by_cases hxp : x = p
    · subst hxp
      by_cases hb : b = pidHashfn pid
      · subst hb
        simp [(h.hashNodup _).mem_erase_iff]
      · rw [update_of_ne hb, h.hashed, hpid]
        simp [Ne.symm hb]
    · rw [if_neg hxp, ← h.hashed]
      by_cases hb : b = pidHashfn pid
      · subst hb
        rw [update_self, (h.hashNodup _).mem_erase_iff]
        simp [hxp]
      · rw [update_of_ne hb]
  · rw [hh]
    exact (forall_update_iff _ fun _ => List.Nodup).mpr
      ⟨(h.hashNodup _).erase p, fun b _ => h.hashNodup b⟩ b
  · rw [hidle] at hxi hxi'
    exact h.inj x x' v (hcase x v hv) (hcase x' v hv') hxi hxi'
  · rw [hidle] at hxi
    exact h.range x v (hcase x v hv) hxi
  · rw [hidle] at hxi
    rw [hlast, hsafe]
    exact h.gap x v (hcase x v hv) hxi
  · rw [hlast, hsafe]
    exact h.last

end PidTable

end Ucore

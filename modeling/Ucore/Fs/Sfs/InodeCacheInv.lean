import Ucore.Fs.Sfs.InodeCache
import Ucore.Lib.Count

set_option autoImplicit false

/-!
# The protocol of the inode cache

`reclaim_count` is the number of calls of `sfs_reclaim` that wait for the lock, and one more while
there are references. So the call that brings it to zero is the last one, and there are no
references: it may destroy the inode. The lock keeps other threads from looking it up until it has
been taken out of the list. If flushing it fails, both counters are zero and the inode stays cached.

## Main definitions

* `CacheInv` — the invariant of the cache.
* `CacheLog` — what has happened fits the state.

## Main results

* `CacheInv.exec` — a step keeps the invariant, and no assertion about the counters fails.
* `inode_cache_protocol` — the protocol, for every run of any number of threads.
-/

namespace Ucore

open Function List Finset

variable {T : Type}

/-- The number of a cached inode. -/
def CacheState.inoOf (x : CacheState T) (n : ℕ) : Option (BitVec 32) := (x.nodes n).map (·.ino)

/-- The counters of a cached inode for which `k` calls of `sfs_reclaim` wait. -/
def CachedInode.Counted (v : CachedInode) (k : ℤ) : Prop :=
  0 ≤ v.refCount ∧ v.reclaimCount = k + if 0 < v.refCount then 1 else 0

/-- What holds where a thread is. -/
def CacheState.PcOk (x : CacheState T) : CachePc → Prop
  | .loadRead ino => ∀ n ∈ x.inodeList, x.inoOf n ≠ some ino
  | .reclaimLock n => n ∈ x.inodeList
  | .truncating n | .flushing n => n ∈ x.inodeList ∧
      ∃ v, x.nodes n = some v ∧ v.refCount = 0 ∧ v.reclaimCount = 0
  | .killing n => n ∉ x.inodeList ∧ ∃ v, x.nodes n = some v ∧ v.refCount = 0
  | _ => True

variable {x : CacheState T} {n : ℕ} {v w : CachedInode} {i : T}

lemma CacheState.inoOf_set (hv : x.nodes n = some v) (hino : w.ino = v.ino) (m : ℕ) :
    (x.set n w).inoOf m = x.inoOf m := by
  unfold CacheState.inoOf CacheState.set
  by_cases hm : m = n
  · subst hm
    simp [hv, hino]
  · simp [hm]

/-- The places of the other threads stay right when an inode changes that none of them destroys, or
whose counters do not change. -/
lemma CacheState.pcOk_set {b : CachePc} (hv : x.nodes n = some v) (hino : w.ino = v.ino)
    (hb : b.owns n = true → w.refCount = v.refCount ∧ w.reclaimCount = v.reclaimCount)
    (h : x.PcOk b) : (x.set n w).PcOk b := by
  have hnode : ∀ m, b.owns m = true → ∀ u, x.nodes m = some u →
      ∃ u', (x.set n w).nodes m = some u' ∧ u'.refCount = u.refCount ∧
        u'.reclaimCount = u.reclaimCount := by
    intro m hm u hu
    by_cases hmn : m = n
    · subst hmn
      cases hv.symm.trans hu
      exact ⟨w, update_self .., hb hm⟩
    · exact ⟨u, (update_of_ne hmn ..).trans hu, rfl, rfl⟩
  cases b with
  | loadRead ino =>
    intro m hm
    rw [CacheState.inoOf_set hv hino]
    exact h m hm
  | truncating m | flushing m =>
    obtain ⟨h1, u, hu, h2, h3⟩ := h
    obtain ⟨u', h4, h5, h6⟩ := hnode m (by simp [CachePc.owns]) u hu
    exact ⟨h1, u', h4, h5.trans h2, h6.trans h3⟩
  | killing m =>
    obtain ⟨h1, u, hu, h2⟩ := h
    obtain ⟨u', h4, h5, -⟩ := hnode m (by simp [CachePc.owns]) u hu
    exact ⟨h1, u', h4, h5.trans h2⟩
  | reclaimLock m => exact h
  | idle | loadLock ino | syncLock | syncing => trivial

lemma CacheState.lookup_eq_none {ino : BitVec 32} (hl : x.lookup ino = none) :
    ∀ n ∈ x.inodeList, x.inoOf n ≠ some ino := by
  intro n hn he
  have hno := List.find?_eq_none.mp hl n hn
  obtain ⟨v, hv, h1⟩ := Option.map_eq_some_iff.mp he
  rw [hv] at hno
  simp [h1] at hno

section Inv

variable [Fintype T]

/-- The calls of `sfs_reclaim` that wait for the lock. -/
def CacheState.pending (x : CacheState T) (n : ℕ) : ℤ :=
  (Finset.univ.filter fun i => decide (x.pc i = .reclaimLock n)).card

lemma CacheState.pending_eq_zero : x.pending n = 0 ↔ ∀ j, x.pc j ≠ .reclaimLock n := by
  unfold CacheState.pending
  simp [Finset.filter_eq_empty_iff]

/-- **The invariant of the cache.** -/
structure CacheInv (x : CacheState T) : Prop where
  nodup : x.inodeList.Nodup
  inj : ∀ n ∈ x.inodeList, ∀ m ∈ x.inodeList, x.inoOf n = x.inoOf m → n = m
  node : ∀ n ∈ x.inodeList, ∃ v, x.nodes n = some v ∧ v.Counted (x.pending n)
  pc : ∀ i, x.PcOk (x.pc i)
  lock : ∀ i, (x.pc i).holds = true ↔ x.fsSem = some i
  kill : ∀ i j n, x.pc i = .killing n → x.pc j = .killing n → i = j
  used : ∀ n, x.nodes n ≠ none → n ∈ x.used
  cached : ∀ n v, x.nodes n = some v → n ∈ x.inodeList ∨ v.refCount = 0

namespace CacheInv

variable {a : CachePc} {l : Option T}

section

variable (h : CacheInv x)
include h

lemma pc_of {a : CachePc} (hi : x.pc i = a) : x.PcOk a := hi ▸ h.pc i

lemma not_holds (hl : x.fsSem = none) (j : T) : (x.pc j).holds = false := by
  rw [Bool.eq_false_iff, Ne, h.lock, hl]
  simp

/-- An inode that is being destroyed has no references, and no other call waits to reclaim it. -/
lemma of_owns (ho : (x.pc i).owns n = true) (hv : x.nodes n = some v) :
    v.refCount = 0 ∧ ∀ j, x.pc j ≠ .reclaimLock n := by
  have hpc := h.pc i
  have hflush : n ∈ x.inodeList →
      (∃ w, x.nodes n = some w ∧ w.refCount = 0 ∧ w.reclaimCount = 0) →
      v.refCount = 0 ∧ ∀ j, x.pc j ≠ .reclaimLock n := by
    rintro hn ⟨w, hw, h1, h2⟩
    obtain ⟨u, hu, -, h4⟩ := h.node n hn
    cases hv.symm.trans hw
    cases hv.symm.trans hu
    rw [h2, h1, if_neg (by simp)] at h4
    exact ⟨h1, CacheState.pending_eq_zero.mp (by omega)⟩
  cases hp : x.pc i <;> rw [hp] at ho hpc <;> simp only [CachePc.owns, decide_eq_true_eq,
    Bool.false_eq_true] at ho <;> subst ho
  · exact hflush hpc.1 hpc.2
  · exact hflush hpc.1 hpc.2
  · obtain ⟨hn, w, hw, h1⟩ := hpc
    cases hv.symm.trans hw
    exact ⟨h1, fun j hj => hn (h.pc_of hj)⟩

lemma inj_set (hv : x.nodes n = some v) (hino : w.ino = v.ino) (m : ℕ) (hm : m ∈ x.inodeList)
    (k : ℕ) (hk : k ∈ x.inodeList) (e : (x.set n w).inoOf m = (x.set n w).inoOf k) : m = k := by
  rw [CacheState.inoOf_set hv hino, CacheState.inoOf_set hv hino] at e
  exact h.inj m hm k hk e

lemma used_set (hv : x.nodes n = some v) (m : ℕ) (hm : (x.set n w).nodes m ≠ none) :
    m ∈ x.used := by
  by_cases hmn : m = n
  · subst hmn
    exact h.used m (by rw [hv]; simp)
  · refine h.used m ?_
    rwa [show (x.set n w).nodes m = x.nodes m from update_of_ne hmn ..] at hm

/-- An inode outside the list has no references. -/
lemma cached_set (hcached : n ∈ x.inodeList ∨ w.refCount = 0) (m : ℕ) (u : CachedInode)
    (hm : (x.set n w).nodes m = some u) : m ∈ x.inodeList ∨ u.refCount = 0 := by
  change update x.nodes n (some w) m = some u at hm
  by_cases hmn : m = n
  · subst hmn
    rw [update_self] at hm
    cases hm
    exact hcached
  · rw [update_of_ne hmn] at hm
    exact h.cached m u hm

/-- **An inode changes** whose counters stay right. -/
lemma set (hv : x.nodes n = some v) (hino : w.ino = v.ino)
    (hok : n ∈ x.inodeList → w.Counted (x.pending n))
    (hfix : ∀ j, (x.pc j).owns n = true → w.refCount = v.refCount ∧ w.reclaimCount = v.reclaimCount)
    (hcached : n ∈ x.inodeList ∨ w.refCount = 0) : CacheInv (x.set n w) := by
  refine ⟨h.nodup, h.inj_set hv hino, fun m hm => ?_, fun j => ?_, h.lock, h.kill, h.used_set hv,
    h.cached_set hcached⟩
  · by_cases hmn : m = n
    · subst hmn
      exact ⟨w, update_self .., hok hm⟩
    · obtain ⟨u, hu, h1⟩ := h.node m hm
      exact ⟨u, (update_of_ne hmn ..).trans hu, h1⟩
  · exact CacheState.pcOk_set hv hino (hfix j) (h.pc j)

lemma of_ref (hv : x.nodes n = some v) (hr : 0 < v.refCount) :
    n ∈ x.inodeList ∧ v.Counted (x.pending n) ∧ ∀ j, (x.pc j).owns n = false := by
  have hn : n ∈ x.inodeList := (h.cached n v hv).resolve_right (by omega)
  obtain ⟨u, hu, h1⟩ := h.node n hn
  cases hv.symm.trans hu
  refine ⟨hn, h1, fun j => Bool.eq_false_iff.mpr fun hj => ?_⟩
  have h0 := (h.of_owns hj hv).1
  omega

end

variable [DecidableEq T]

lemma pending_update (x y : CacheState T) (hy : y.pc = update x.pc i a) (m : ℕ) :
    y.pending m = x.pending m - (decide (x.pc i = .reclaimLock m)).toNat +
      (decide (a = .reclaimLock m)).toNat := by
  unfold CacheState.pending
  rw [hy]
  exact card_filter_update Finset.univ x.pc (fun b => decide (b = .reclaimLock m))
    (mem_univ i) a

lemma pending_same (x y : CacheState T) (hy : y.pc = update x.pc i a)
    (hx : ∀ m, x.pc i ≠ .reclaimLock m) (ha : ∀ m, a ≠ .reclaimLock m) (m : ℕ) :
    y.pending m = x.pending m := by
  rw [pending_update x y hy, decide_eq_false (hx m), decide_eq_false (ha m)]
  simp

section

variable (h : CacheInv x)
include h

/-- At most one thread kills an inode, also after another thread has moved. -/
lemma kill_update (hkill : ∀ m, a ≠ .killing m) (j k : T) (m : ℕ)
    (hj : update x.pc i a j = .killing m) (hk : update x.pc i a k = .killing m) : j = k := by
  have hne : ∀ j, update x.pc i a j = .killing m → j ≠ i := by
    rintro j hj rfl
    rw [update_self] at hj
    exact hkill m hj
  rw [update_of_ne (hne j hj)] at hj
  rw [update_of_ne (hne k hk)] at hk
  exact h.kill j k m hj hk

lemma unlock (hi : (x.pc i).holds = true) (ha : a.holds = false) (j : T) :
    (update x.pc i a j).holds = true ↔ none = some j := by
  by_cases hj : j = i
  · rw [hj, update_self, ha]
    simp
  · rw [update_of_ne hj, h.lock, (h.lock i).mp hi]
    simp [Ne.symm hj]

lemma takeLock (hl : x.fsSem = none) (j : T) :
    (update x.pc i a j).holds = true ↔ (if a.holds then some i else none) = some j := by
  by_cases hj : j = i
  · rw [hj, update_self]
    simp
  · rw [update_of_ne hj, h.not_holds hl]
    split_ifs <;> simp [Ne.symm hj]

lemma keepLock (hi : (x.pc i).holds = a.holds) (j : T) :
    (update x.pc i a j).holds = true ↔ x.fsSem = some j := by
  by_cases hj : j = i
  · rw [hj, update_self, ← hi, h.lock]
  · rw [update_of_ne hj, h.lock]

/-- **A thread goes on elsewhere.** -/
lemma goto (hx : ∀ m, x.pc i ≠ .reclaimLock m) (ha : ∀ m, a ≠ .reclaimLock m)
    (hkill : ∀ m, a ≠ .killing m) (hpc : x.PcOk a)
    (hlock : ∀ j, (update x.pc i a j).holds = true ↔ l = some j) : CacheInv (x.goto i a l) := by
  refine ⟨h.nodup, h.inj, fun n hn => ?_, fun j => ?_, hlock, h.kill_update hkill, h.used,
    h.cached⟩
  · rw [pending_same x (x.goto i a l) rfl hx ha]
    exact h.node n hn
  · change x.PcOk (update x.pc i a j)
    by_cases hj : j = i
    · rw [hj, update_self]
      exact hpc
    · rw [update_of_ne hj]
      exact h.pc j

/-- **An inode changes and a thread goes on elsewhere.** -/
lemma move (hv : x.nodes n = some v) (hino : w.ino = v.ino)
    (hok : n ∈ x.inodeList →
      w.Counted (x.pending n - (decide (x.pc i = .reclaimLock n)).toNat +
        (decide (a = .reclaimLock n)).toNat))
    (hx : ∀ m, m ≠ n → x.pc i ≠ .reclaimLock m) (ha : ∀ m, m ≠ n → a ≠ .reclaimLock m)
    (hfix : ∀ j, j ≠ i → (x.pc j).owns n = true → w.refCount = v.refCount ∧
      w.reclaimCount = v.reclaimCount)
    (hkill : ∀ m, a ≠ .killing m) (hpc : (x.set n w).PcOk a)
    (hcached : n ∈ x.inodeList ∨ w.refCount = 0)
    (hlock : ∀ j, (update x.pc i a j).holds = true ↔ l = some j) :
    CacheInv ((x.set n w).goto i a l) := by
  refine ⟨h.nodup, h.inj_set hv hino, fun m hm => ?_, fun j => ?_, hlock, h.kill_update hkill,
    h.used_set hv, h.cached_set hcached⟩
  · rw [pending_update x ((x.set n w).goto i a l) rfl]
    by_cases hmn : m = n
    · subst hmn
      exact ⟨w, update_self .., hok hm⟩
    · obtain ⟨u, hu, h1⟩ := h.node m hm
      refine ⟨u, (update_of_ne hmn ..).trans hu, ?_⟩
      rw [decide_eq_false (hx m hmn), decide_eq_false (ha m hmn)]
      simpa using h1
  · change (x.set n w).PcOk (update x.pc i a j)
    by_cases hj : j = i
    · rw [hj, update_self]
      exact hpc
    · rw [update_of_ne hj]
      exact CacheState.pcOk_set hv hino (hfix j hj) (h.pc j)

/-- **An inode is created.** -/
lemma added {ino : BitVec 32} {nlinks : BitVec 16} {new : ℕ} (hi : x.pc i = .loadRead ino)
    (hnew : new ∉ x.used) : CacheInv (x.setLinks i new (sfsCreateInode ino nlinks)) := by
  have hlist : ∀ m ∈ x.inodeList, m ≠ new := by
    rintro m hm rfl
    obtain ⟨v, hv, -⟩ := h.node m hm
    exact hnew (h.used m (by rw [hv]; simp))
  have hfresh : ∀ m ∈ x.inodeList, x.inoOf m ≠ some ino := h.pc_of hi
  have hold : ∀ m, m ≠ new → ∀ u, x.nodes m = some u →
      update x.nodes new (some (sfsCreateInode ino nlinks)) m = some u :=
    fun m hm u hu => (update_of_ne hm ..).trans hu
  have hnone : x.nodes new = none := by
    by_contra hne
    exact hnew (h.used new hne)
  have hnodes : (x.setLinks i new (sfsCreateInode ino nlinks)).nodes =
    update x.nodes new (some (sfsCreateInode ino nlinks)) := rfl
  have hino : ∀ m, m ≠ new → (x.setLinks i new (sfsCreateInode ino nlinks)).inoOf m =
      x.inoOf m := by
    intro m hm
    rw [CacheState.inoOf, hnodes, update_of_ne hm]
    rfl
  have hself : (x.setLinks i new (sfsCreateInode ino nlinks)).inoOf new = some ino := by
    rw [CacheState.inoOf, hnodes, update_self]
    rfl
  refine ⟨nodup_cons.mpr ⟨fun hm => hlist new hm rfl, h.nodup⟩, fun m hm k hk e => ?_,
    fun m hm => ?_, fun j => ?_, fun j => ?_, h.kill_update (by simp), fun m hm => ?_,
    fun m u hm => ?_⟩
  · rcases mem_cons.mp hm with hm | hm <;> rcases mem_cons.mp hk with hk | hk
    · rw [hm, hk]
    · rw [hm, hself, hino k (hlist k hk)] at e
      exact absurd e.symm (hfresh k hk)
    · rw [hk, hself, hino m (hlist m hm)] at e
      exact absurd e (hfresh m hm)
    · rw [hino m (hlist m hm), hino k (hlist k hk)] at e
      exact h.inj m hm k hk e
  · rw [pending_same x _ rfl (by simp [hi]) (by simp)]
    rcases mem_cons.mp hm with rfl | hm
    · -- no call waits to reclaim an inode that is not cached
      refine ⟨_, update_self .., by simp [sfsCreateInode], ?_⟩
      have hzero : x.pending m = 0 := CacheState.pending_eq_zero.mpr fun j hj =>
        hlist m (h.pc_of hj) rfl
      rw [hzero]
      simp [sfsCreateInode]
    · obtain ⟨v, hv, h1⟩ := h.node m hm
      exact ⟨v, hold m (hlist m hm) v hv, h1⟩
  · change CacheState.PcOk _ (update x.pc i .idle j)
    by_cases hj : j = i
    · rw [hj, update_self]
      trivial
    · rw [update_of_ne hj]
      have hpc := h.pc j
      cases hb : x.pc j <;> rw [hb] at hpc
      case loadRead ino' =>
        -- two threads would hold the lock
        have h1 := (h.lock j).mp (by rw [hb]; rfl)
        have h2 := (h.lock i).mp (by rw [hi]; rfl)
        exact absurd (Option.some.inj (h1.symm.trans h2)) hj
      case reclaimLock m => exact mem_cons_of_mem _ hpc
      case truncating m | flushing m =>
        obtain ⟨h1, u, hu, h2⟩ := hpc
        exact ⟨mem_cons_of_mem _ h1, u, hold m (hlist m h1) u hu, h2⟩
      case killing m =>
        obtain ⟨h1, u, hu, h2⟩ := hpc
        have hm : m ≠ new := by
          rintro rfl
          rw [hnone] at hu
          cases hu
        refine ⟨?_, u, hold m hm u hu, h2⟩
        change m ∉ new :: x.inodeList
        simp [hm, h1]
      all_goals trivial
  · exact h.unlock (by rw [hi]; rfl) rfl j
  · by_cases hmn : m = new
    · subst hmn
      exact mem_insert_self ..
    · refine mem_insert_of_mem (h.used m ?_)
      rwa [hnodes, update_of_ne hmn] at hm
  · by_cases hmn : m = new
    · exact .inl (hmn ▸ mem_cons_self)
    · rw [hnodes, update_of_ne hmn] at hm
      exact (h.cached m u hm).imp_left (mem_cons_of_mem _)

/-- **An inode is taken out of the list** by the thread that reclaims it. -/
lemma removed (hi : x.pc i = .truncating n ∨ x.pc i = .flushing n) :
    CacheInv (x.removeLinks i n) := by
  have hpc : n ∈ x.inodeList ∧ ∃ v, x.nodes n = some v ∧ v.refCount = 0 ∧ v.reclaimCount = 0 := by
    rcases hi with hi | hi <;> exact h.pc_of hi
  have howns : (x.pc i).owns n = true := by
    rcases hi with hi | hi <;> rw [hi] <;> simp [CachePc.owns]
  have hholds : (x.pc i).holds = true := by
    rcases hi with hi | hi <;> rw [hi] <;> rfl
  have hnot : ∀ m, x.pc i ≠ .reclaimLock m := by
    rcases hi with hi | hi <;> rw [hi] <;> simp
  have hmem : ∀ m, m ∈ (x.removeLinks i n).inodeList ↔ m ≠ n ∧ m ∈ x.inodeList := fun m =>
    h.nodup.mem_erase_iff
  obtain ⟨hn, v, hv, hv0, -⟩ := hpc
  have hlock := (h.lock i).mp hholds
  refine ⟨h.nodup.erase n, fun m hm k hk e => ?_, fun m hm => ?_, fun j => ?_, fun j => ?_,
    fun j k m hj hk => ?_, h.used, fun m u hm => ?_⟩
  · exact h.inj m ((hmem m).mp hm).2 k ((hmem k).mp hk).2 e
  · rw [pending_same x (x.removeLinks i n) rfl hnot (by simp)]
    exact h.node m ((hmem m).mp hm).2
  · change (x.removeLinks i n).PcOk (update x.pc i (.killing n) j)
    by_cases hj : j = i
    · rw [hj, update_self]
      exact ⟨fun hm => ((hmem n).mp hm).1 rfl, v, hv, hv0⟩
    · rw [update_of_ne hj]
      have hpc := h.pc j
      have hfree : (x.pc j).holds = false := by
        rw [Bool.eq_false_iff, Ne, h.lock, hlock]
        simpa using Ne.symm hj
      cases hb : x.pc j <;> rw [hb] at hpc hfree
      case reclaimLock m =>
        refine (hmem m).mpr ⟨?_, hpc⟩
        rintro rfl
        exact (h.of_owns howns hv).2 j hb
      case killing m =>
        exact ⟨fun hm => hpc.1 ((hmem m).mp hm).2, hpc.2⟩
      all_goals trivial
  · exact h.unlock hholds rfl j
  · have key : ∀ j, update x.pc i (.killing n) j = .killing m → j ≠ i → m ≠ n := by
      rintro j hj hji rfl
      rw [update_of_ne hji] at hj
      exact (h.pc_of hj).1 hn
    have hj' : update x.pc i (.killing n) j = .killing m := hj
    have hk' : update x.pc i (.killing n) k = .killing m := hk
    by_cases hji : j = i <;> by_cases hki : k = i
    · rw [hji, hki]
    · rw [hji, update_self] at hj'
      exact absurd (CachePc.killing.inj hj').symm (key k hk hki)
    · rw [hki, update_self] at hk'
      exact absurd (CachePc.killing.inj hk').symm (key j hj hji)
    · rw [update_of_ne hji] at hj'
      rw [update_of_ne hki] at hk'
      exact h.kill j k m hj' hk'
  · by_cases hmn : m = n
    · subst hmn
      cases hv.symm.trans hm
      exact .inr hv0
    · exact (h.cached m u hm).imp_left fun h1 => (hmem m).mpr ⟨hmn, h1⟩

/-- **An inode is destroyed.** -/
lemma killed (hi : x.pc i = .killing n) : CacheInv (x.free i n) := by
  obtain ⟨hn, v, hv, hv0⟩ := h.pc_of hi
  have hlist : ∀ m ∈ x.inodeList, m ≠ n := by
    rintro m hm rfl
    exact hn hm
  have hnode : ∀ m, m ≠ n → (x.free i n).nodes m = x.nodes m := fun m hm => update_of_ne hm ..
  have hino : ∀ m, m ≠ n → (x.free i n).inoOf m = x.inoOf m := by
    intro m hm
    rw [CacheState.inoOf, hnode m hm]
    rfl
  refine ⟨h.nodup, fun m hm k hk e => ?_, fun m hm => ?_, fun j => ?_, fun j => ?_,
    h.kill_update (by simp), fun m hm => ?_, fun m u hm => ?_⟩
  · rw [hino m (hlist m hm), hino k (hlist k hk)] at e
    exact h.inj m hm k hk e
  · rw [pending_same x (x.free i n) rfl (by simp [hi]) (by simp), hnode m (hlist m hm)]
    exact h.node m hm
  · change (x.free i n).PcOk (update x.pc i .idle j)
    by_cases hj : j = i
    · rw [hj, update_self]
      trivial
    · rw [update_of_ne hj]
      have hpc := h.pc j
      cases hb : x.pc j <;> rw [hb] at hpc
      case loadRead ino =>
        intro m hm
        rw [hino m (hlist m hm)]
        exact hpc m hm
      case reclaimLock m => exact hpc
      case truncating m | flushing m =>
        refine ⟨hpc.1, ?_⟩
        rw [hnode m (hlist m hpc.1)]
        exact hpc.2
      case killing m =>
        have hm : m ≠ n := by
          rintro rfl
          exact hj (h.kill j i m hb hi)
        refine ⟨hpc.1, ?_⟩
        rw [hnode m hm]
        exact hpc.2
      all_goals trivial
  · exact h.keepLock (by rw [hi]; rfl) j
  · by_cases hmn : m = n
    · rw [hmn] at hm
      exact absurd (update_self ..) hm
    · rw [hnode m hmn] at hm
      exact h.used m hm
  · by_cases hmn : m = n
    · subst hmn
      change update x.nodes m none m = _ at hm
      rw [update_self] at hm
      cases hm
    · rw [hnode m hmn] at hm
      exact h.cached m u hm

end

end CacheInv

/-! ## What a step does to the inodes -/

/-- **What a step does**, besides keeping the invariant: an inode comes to have no references only
when the last one is given back; the one that is returned is cached and has a reference; addresses
are not used again. -/
structure CacheChange (x : CacheState T) (e : Option CacheEvent) (y : CacheState T) : Prop where
  used : x.used ⊆ y.used
  zero : ∀ m u, y.nodes m = some u → u.refCount = 0 → e = some (.zeroed m) ∨
    (∃ u', x.nodes m = some u' ∧ u'.refCount = 0) ∧ e ≠ some (.loaded m)
  loaded : ∀ m, e = some (.loaded m) →
    (x.nodes m ≠ none ∨ m ∉ x.used) ∧ m ∈ y.inodeList ∧ y.Held m
  killed : ∀ m, e = some (.killed m) → y.nodes m = none ∧ m ∈ y.used
  dead : ∀ m ∈ x.used, x.nodes m = none → y.nodes m = none

section Change

omit [Fintype T]

variable {x y : CacheState T} {e : Option CacheEvent}

lemma CacheChange.same (hn : y.nodes = x.nodes) (hu : y.used = x.used) : CacheChange x none y := by
  refine ⟨by rw [hu], fun m u hm h0 => .inr ⟨⟨u, ?_, h0⟩, by simp⟩, by simp, by simp,
    fun m _ hm => by rw [hn, hm]⟩
  rw [← hn, hm]

/-- A step that changes an inode. -/
lemma CacheChange.set (hv : x.nodes n = some v) (hn : y.nodes = update x.nodes n (some w))
    (hu : y.used = x.used)
    (hz : w.refCount = 0 → e = some (.zeroed n) ∨ v.refCount = 0 ∧ e ≠ some (.loaded n))
    (hl : ∀ m, e = some (.loaded m) → m = n ∧ n ∈ y.inodeList ∧ 0 < w.refCount)
    (hk : ∀ m, e ≠ some (.killed m)) : CacheChange x e y := by
  refine ⟨by rw [hu], fun m u hm h0 => ?_, fun m hm => ?_, fun m hm => absurd hm (hk m),
    fun m _ hm => ?_⟩
  · rw [hn] at hm
    by_cases hmn : m = n
    · subst hmn
      rw [update_self] at hm
      cases hm
      exact (hz h0).imp_right fun h => ⟨⟨v, hv, h.1⟩, h.2⟩
    · rw [update_of_ne hmn] at hm
      exact .inr ⟨⟨u, hm, h0⟩, fun he => hmn (hl m he).1⟩
  · obtain ⟨rfl, h1, h2⟩ := hl m hm
    refine ⟨.inl (by rw [hv]; simp), h1, w, ?_, h2⟩
    rw [hn, update_self]
  · have hmn : m ≠ n := by
      rintro rfl
      rw [hv] at hm
      cases hm
    rw [hn, update_of_ne hmn, hm]

variable [DecidableEq T]

/-- A new inode has a reference. -/
lemma CacheChange.added {ino : BitVec 32}
    {nlinks : BitVec 16} {new : ℕ} (hnew : new ∉ x.used) :
    CacheChange x (some (.loaded new)) (x.setLinks i new (sfsCreateInode ino nlinks)) := by
  have hnodes : (x.setLinks i new (sfsCreateInode ino nlinks)).nodes =
    update x.nodes new (some (sfsCreateInode ino nlinks)) := rfl
  refine ⟨subset_insert .., fun m u hm h0 => .inr ?_, fun m hm => ?_, by simp,
    fun m hm h0 => ?_⟩
  · rw [hnodes] at hm
    by_cases hmn : m = new
    · subst hmn
      rw [update_self] at hm
      cases hm
      cases h0
    · rw [update_of_ne hmn] at hm
      exact ⟨⟨u, hm, h0⟩, by simpa using Ne.symm hmn⟩
  · cases hm
    refine ⟨.inr hnew, mem_cons_self, sfsCreateInode ino nlinks, ?_, ?_⟩
    · rw [hnodes, update_self]
    · exact Int.one_pos
  · have hmn : m ≠ new := by
      rintro rfl
      exact hnew hm
    rw [hnodes, update_of_ne hmn, h0]

/-- An inode is destroyed. -/
lemma CacheChange.free (hused : n ∈ x.used) : CacheChange x (some (.killed n)) (x.free i n) := by
  have hnodes : (x.free i n).nodes = update x.nodes n none := rfl
  refine ⟨subset_rfl, fun m u hm h0 => .inr ?_, by simp, fun m hm => ?_, fun m _ hm => ?_⟩
  · rw [hnodes] at hm
    by_cases hmn : m = n
    · subst hmn
      rw [update_self] at hm
      cases hm
    · rw [update_of_ne hmn] at hm
      exact ⟨⟨u, hm, h0⟩, by simp⟩
  · cases hm
    rw [hnodes, update_self]
    exact ⟨rfl, hused⟩
  · rw [hnodes]
    by_cases hmn : m = n
    · rw [hmn, update_self]
    · rw [update_of_ne hmn, hm]

end Change

/-- What a step must establish. -/
def CacheSpec (x : CacheState T) (r : Except CachePanic (Option CacheEvent × CacheState T)) :
    Prop :=
  match r with
  | .ok (e, y) => CacheInv y ∧ CacheChange x e y
  | .error e => e = .nlinks

lemma CacheSpec.node {f : CachedInode → Except CachePanic (Option CacheEvent × CacheState T)}
    (hv : x.nodes n = some v) (h : CacheSpec x (f v)) : CacheSpec x (x.node n >>= f) := by
  unfold CacheState.node
  rw [hv]
  exact h

namespace CacheInv

variable [DecidableEq T]

/-- The end of `sfs_reclaim`, from a state with the lock. -/
lemma reclaimFlush (h : CacheInv (x.goto i (.flushing n) (some i))) (v : CachedInode) :
    CacheInv (x.reclaimFlush i n v) ∧ (x.reclaimFlush i n v).nodes = x.nodes ∧
      (x.reclaimFlush i n v).used = x.used := by
  unfold CacheState.reclaimFlush
  split_ifs
  · exact ⟨h, rfl, rfl⟩
  · have hrem := h.removed (i := i) (n := n) (.inr (update_self ..))
    have heq : (x.goto i (.flushing n) (some i)).removeLinks i n = x.removeLinks i n := by
      simp [CacheState.removeLinks, CacheState.goto]
    rw [heq] at hrem
    exact ⟨hrem, rfl, rfl⟩

/-- **`inode_ref_dec`.** -/
lemma refDec (h : CacheInv x) (hi : x.pc i = .idle) (hv : x.nodes n = some v)
    (hr : 0 < v.refCount) : CacheSpec x (x.refDec i n v) := by
  obtain ⟨hn, ⟨h1, h2⟩, howns⟩ := h.of_ref hv hr
  rw [if_pos hr] at h2
  have hno : ∀ j, (x.pc j).owns n = true → False := fun j hj => by
    rw [howns j] at hj
    cases hj
  unfold CacheState.refDec
  rw [if_neg (not_not.mpr hr)]
  split_ifs with h0
  · refine ⟨?_, .set hv rfl rfl (fun _ => .inl rfl) (by simp) (by simp)⟩
    have hcount : CachedInode.Counted { v with refCount := v.refCount - 1 }
        (x.pending n - (decide (x.pc i = .reclaimLock n)).toNat +
          (decide (CachePc.reclaimLock n = .reclaimLock n)).toNat) := by
      refine ⟨h0.ge, ?_⟩
      simp [hi, h0, h2]
    exact h.move hv rfl (fun _ => hcount) (fun m _ => by simp [hi])
      (fun m hm => by simpa using Ne.symm hm) (fun j _ hj => (hno j hj).elim) (by simp) hn
      (.inl hn) fun j => h.keepLock (by rw [hi]; rfl) j
  · refine ⟨?_, .set hv rfl rfl (fun hz => absurd hz h0) (by simp) (by simp)⟩
    refine h.set hv rfl (fun _ => ⟨by change 0 ≤ v.refCount - 1; omega, ?_⟩)
      (fun j hj => (hno j hj).elim) (.inl hn)
    change v.reclaimCount = x.pending n + if 0 < v.refCount - 1 then 1 else 0
    rw [if_pos (by omega), h2]

/-- **`sfs_reclaim`** after `lock_sfs_fs`: `reclaim_count` is positive, and if it becomes zero there
are no references. -/
lemma reclaim (h : CacheInv x) (hi : x.pc i = .reclaimLock n) (hl : x.fsSem = none)
    (hv : x.nodes n = some v) : CacheSpec x (x.reclaim i n v) := by
  have hn : n ∈ x.inodeList := h.pc_of hi
  obtain ⟨u, hu, h1, h2⟩ := h.node n hn
  cases hv.symm.trans hu
  have hpend : 0 < x.pending n := by
    refine Int.natCast_pos.mpr (card_pos.mpr ⟨i, ?_⟩)
    simp [hi]
  have hno : ∀ j, (x.pc j).owns n = true → False := fun j hj => (h.of_owns hj hv).2 i hi
  have hmove : ∀ a : CachePc, (∀ m, a ≠ .reclaimLock m) → (∀ m, a ≠ .killing m) →
      CacheState.PcOk (x.set n { v with reclaimCount := v.reclaimCount - 1 }) a →
      CacheInv ((x.set n { v with reclaimCount := v.reclaimCount - 1 }).goto i a
        (if a.holds then some i else none)) := by
    intro a ha hkill hpc
    refine h.move hv rfl (fun _ => ⟨h1, ?_⟩) (fun m hm => by simpa [hi] using Ne.symm hm)
      (fun m _ => ha m) (fun j _ hj => (hno j hj).elim) hkill hpc (.inl hn)
      fun j => h.takeLock hl j
    rw [decide_eq_true hi, decide_eq_false (ha n)]
    change v.reclaimCount - 1 = x.pending n - 1 + 0 + if 0 < v.refCount then 1 else 0
    omega
  have hchange : ∀ y : CacheState T,
      y.nodes = update x.nodes n (some { v with reclaimCount := v.reclaimCount - 1 }) →
      y.used = x.used → CacheChange x none y := fun y hy hu =>
    .set hv hy hu (fun hz => .inr ⟨hz, by simp⟩) (by simp) (by simp)
  unfold CacheState.reclaim
  rw [if_neg (by split_ifs at h2 <;> omega)]
  split_ifs with hbusy
  · exact ⟨hmove .idle (by simp) (by simp) trivial, hchange _ rfl rfl⟩
  · obtain ⟨hz1, hz2⟩ : v.reclaimCount - 1 = 0 ∧ v.refCount = 0 := by
      simpa using not_or.mp hbusy
    have hpc : n ∈ x.inodeList ∧
      ∃ u, (x.set n { v with reclaimCount := v.reclaimCount - 1 }).nodes n =
        some u ∧ u.refCount = 0 ∧ u.reclaimCount = 0 := ⟨hn, _, update_self .., hz2, hz1⟩
    unfold CacheState.reclaimTruncate
    split_ifs
    · exact ⟨hmove (.truncating n) (by simp) (by simp) hpc, hchange _ rfl rfl⟩
    · obtain ⟨h3, h4, h5⟩ := reclaimFlush (hmove (.flushing n) (by simp) (by simp) hpc)
        { v with reclaimCount := v.reclaimCount - 1 }
      exact ⟨h3, hchange _ h4 h5⟩

/-- **`sfs_load_inode` finds the inode.** -/
lemma found (h : CacheInv x) {ino : BitVec 32} (hi : x.pc i = .loadLock ino) (hl : x.fsSem = none)
    (hn : n ∈ x.inodeList) (hv : x.nodes n = some v) :
    CacheInv ((x.set n v.found).goto i .idle none) ∧
      CacheChange x (some (.loaded n)) ((x.set n v.found).goto i .idle none) := by
  obtain ⟨u, hu, h1, h2⟩ := h.node n hn
  cases hv.symm.trans hu
  have href : v.found.refCount = v.refCount + 1 := by
    unfold CachedInode.found
    split_ifs <;> rfl
  have hino : v.found.ino = v.ino := by
    unfold CachedInode.found
    split_ifs <;> rfl
  have hcount : v.found.reclaimCount = x.pending n + 1 := by
    unfold CachedInode.found
    split_ifs with h0
    · change v.refCount + 1 = 1 at h0
      change v.reclaimCount + 1 = _
      rw [h2, if_neg (by omega)]
      omega
    · change v.refCount + 1 ≠ 1 at h0
      change v.reclaimCount = _
      rw [h2, if_pos (by omega)]
  have hno : ∀ j, (x.pc j).owns n = true → False := by
    intro j hj
    -- only a thread with the lock destroys a cached inode
    have hfree := h.not_holds hl j
    have hpc := h.pc j
    cases hb : x.pc j <;> rw [hb] at hj hfree hpc
    case killing m =>
      simp only [CachePc.owns, decide_eq_true_eq] at hj
      subst hj
      exact hpc.1 hn
    all_goals trivial
  refine ⟨?_, .set hv rfl rfl (fun hz => ?_) (fun m hm => ?_) (by simp)⟩
  · refine h.move hv hino (fun _ => ⟨by omega, ?_⟩) (by simp [hi]) (by simp)
      (fun j _ hj => (hno j hj).elim) (by simp) trivial (.inl hn) fun j => ?_
    · rw [if_pos (by omega), hcount]
      simp [hi]
    · exact h.takeLock hl j
  · omega
  · cases hm
    exact ⟨rfl, hn, by omega⟩

/-- **Every step keeps the invariant**, and only the assertion about the links of an inode on the
disk can fail. -/
lemma exec (h : CacheInv x) {op : CacheOp} (he : x.Enabled i op) : CacheSpec x (x.exec i op) := by
  cases op with
  | load ino | sync =>
    have hi : x.pc i = .idle := he
    exact ⟨h.goto (by simp [hi]) (by simp) (by simp) trivial
      fun j => h.keepLock (by rw [hi]; rfl) j, .same rfl rfl⟩
  | loadLocked ino mem =>
    obtain ⟨hi, hl⟩ := he
    change CacheSpec x (x.loadLookup i ino mem)
    unfold CacheState.loadLookup
    cases hlook : x.lookup ino with
    | some n =>
      have hn : n ∈ x.inodeList := mem_of_find?_eq_some hlook
      obtain ⟨v, hv, -⟩ := h.node n hn
      exact .node hv (h.found hi hl hn hv)
    | none =>
      cases mem with
      | true =>
        exact ⟨h.goto (by simp [hi]) (by simp) (by simp) (CacheState.lookup_eq_none hlook)
          fun j => h.takeLock hl j, .same rfl rfl⟩
      | false =>
        exact ⟨h.goto (by simp [hi]) (by simp) (by simp) trivial fun j => h.takeLock hl j,
          .same rfl rfl⟩
  | loadRead ino nlinks new =>
    obtain ⟨hi, hnew⟩ := he
    cases nlinks with
    | none =>
      exact ⟨h.goto (by simp [hi]) (by simp) (by simp) trivial
        fun j => h.unlock (by rw [hi]; rfl) rfl j, .same rfl rfl⟩
    | some nlinks =>
      change CacheSpec x (x.loadCreate i ino (some nlinks) new)
      by_cases h0 : nlinks = 0
      · rw [CacheState.loadCreate, if_pos h0]
        rfl
      · rw [CacheState.loadCreate, if_neg h0]
        exact ⟨h.added hi hnew, .added hnew⟩
  | refInc n =>
    obtain ⟨hi, v, hv, hr⟩ := he
    refine .node hv ?_
    obtain ⟨hn, ⟨h1, h2⟩, howns⟩ := h.of_ref hv hr
    refine ⟨h.set hv rfl (fun _ => ⟨?_, ?_⟩) (fun j hj => ?_) (.inl hn),
      .set hv rfl rfl (fun hz => ?_) (by simp) (by simp)⟩
    · change 0 ≤ v.refCount + 1
      omega
    · change v.reclaimCount = x.pending n + if 0 < v.refCount + 1 then 1 else 0
      rw [if_pos (by omega), h2, if_pos hr]
    · rw [howns j] at hj
      cases hj
    · change v.refCount + 1 = 0 at hz
      omega
  | refDec n =>
    obtain ⟨hi, v, hv, hr⟩ := he
    exact .node hv (h.refDec hi hv hr)
  | reclaimLocked n =>
    obtain ⟨hi, hl⟩ := he
    obtain ⟨v, hv, -⟩ := h.node n (h.pc_of hi)
    exact .node hv (h.reclaim hi hl hv)
  | truncated n ok =>
    have hi : x.pc i = .truncating n := he
    obtain ⟨hn, v, hv, h1, h2⟩ := h.pc_of hi
    refine .node hv ?_
    cases ok with
    | true =>
      have hflush : CacheInv (x.goto i (.flushing n) (some i)) := by
        refine h.goto (by simp [hi]) (by simp) (by simp) ⟨hn, v, hv, h1, h2⟩ fun j => ?_
        rw [h.keepLock (a := .flushing n) (by rw [hi]; rfl), (h.lock i).mp (by rw [hi]; rfl)]
      obtain ⟨h3, h4, h5⟩ := reclaimFlush hflush v
      exact ⟨h3, .same h4 h5⟩
    | false =>
      exact ⟨h.goto (by simp [hi]) (by simp) (by simp) trivial
        fun j => h.unlock (by rw [hi]; rfl) rfl j, .same rfl rfl⟩
  | flushed n ok =>
    have hi : x.pc i = .flushing n := he
    obtain ⟨hn, v, hv, h1, h2⟩ := h.pc_of hi
    refine .node hv ?_
    have hset : ∀ b, CacheInv (x.set n { v with dirty := b }) := by
      intro b
      refine h.set hv rfl (fun _ => ?_) (fun _ _ => ⟨rfl, rfl⟩) (.inl hn)
      obtain ⟨u, hu, h3⟩ := h.node n hn
      cases hv.symm.trans hu
      exact h3
    cases ok with
    | true =>
      exact ⟨(hset false).removed (.inr hi),
        .set hv rfl rfl (fun hz => .inr ⟨hz, by simp⟩) (by simp) (by simp)⟩
    | false =>
      refine ⟨(hset true).goto (i := i) (a := .idle) ?_ (by simp) (by simp) trivial fun j => ?_,
        .set hv rfl rfl (fun hz => .inr ⟨hz, by simp⟩) (by simp) (by simp)⟩
      · change ∀ m, x.pc i ≠ _
        simp [hi]
      · exact h.unlock (by rw [hi]; rfl) rfl j
  | kill n =>
    have hi : x.pc i = .killing n := he
    obtain ⟨hn, v, hv, h1⟩ := h.pc_of hi
    refine .node hv ?_
    rw [if_neg (not_not.mpr h1)]
    exact ⟨h.killed hi, .free (h.used n (by rw [hv]; simp))⟩
  | syncLocked =>
    obtain ⟨hi, hl⟩ := he
    exact ⟨h.goto (by simp [hi]) (by simp) (by simp) trivial fun j => h.takeLock hl j,
      .same rfl rfl⟩
  | synced =>
    have hi : x.pc i = .syncing := he
    exact ⟨h.goto (by simp [hi]) (by simp) (by simp) trivial
      fun j => h.unlock (by rw [hi]; rfl) rfl j, .same rfl rfl⟩
  | write n dirty nlinks =>
    obtain ⟨v, hv⟩ := Option.ne_none_iff_exists'.mp he
    refine .node hv ⟨h.set hv rfl (fun hn => ?_) (fun _ _ => ⟨rfl, rfl⟩) (h.cached n v hv),
      .set hv rfl rfl (fun hz => .inr ⟨hz, by simp⟩) (by simp) (by simp)⟩
    obtain ⟨u, hu, h3⟩ := h.node n hn
    cases hv.symm.trans hu
    exact h3

end CacheInv

end Inv

/-! ## Runs -/

/-- The last reference has been given back, and no load has returned the inode since. -/
def LastZeroed (n : ℕ) (log : List CacheEvent) : Prop :=
  ∃ l₁ l₂, log = l₁ ++ .zeroed n :: l₂ ∧ .loaded n ∉ l₂

/-- An event after another: an inode that has been destroyed is not returned. -/
def NotRevived (e e' : CacheEvent) : Prop := ∀ n, e = .killed n → e' ≠ .loaded n

/-- **What has happened fits the state.** -/
structure CacheLog (log : List CacheEvent) (x : CacheState T) : Prop where
  zeroed : ∀ n v, x.nodes n = some v → v.refCount = 0 → LastZeroed n log
  killed : ∀ n, .killed n ∈ log → x.nodes n = none ∧ n ∈ x.used
  revived : log.Pairwise NotRevived

/-- A step keeps it so. -/
lemma CacheLog.step {log : List CacheEvent} {x y : CacheState T} {e : Option CacheEvent}
    (h : CacheLog log x) (hc : CacheChange x e y) : CacheLog (log ++ e.toList) y := by
  refine ⟨fun n v hv h0 => ?_, fun n hn => ?_, ?_⟩
  · rcases hc.zero n v hv h0 with rfl | ⟨⟨u, hu, hu0⟩, he⟩
    · exact ⟨log, [], rfl, not_mem_nil⟩
    · obtain ⟨l₁, l₂, rfl, hl⟩ := h.zeroed n u hu hu0
      refine ⟨l₁, l₂ ++ e.toList, by simp, ?_⟩
      rw [mem_append, not_or]
      refine ⟨hl, fun hmem => he ?_⟩
      simpa using hmem
  · rcases mem_append.mp hn with hn | hn
    · obtain ⟨h1, h2⟩ := h.killed n hn
      exact ⟨hc.dead n h2 h1, hc.used h2⟩
    · exact hc.killed n (by simpa using hn)
  · refine pairwise_append.mpr ⟨h.revived, ?_, fun e₁ he₁ e₂ he₂ n hk hl => ?_⟩
    · cases e with
      | none => exact Pairwise.nil
      | some e => exact pairwise_singleton ..
    · -- the address of a destroyed inode is in use, and nothing is there
      subst hk hl
      obtain ⟨h1, h2⟩ := h.killed n he₁
      rcases (hc.loaded n (by simpa using he₂)).1 with h3 | h3
      · exact h3 h1
      · exact h3 h2

lemma cacheInv_init [Fintype T] : CacheInv (CacheState.init : CacheState T) := by
  refine ⟨nodup_nil, fun n hn => ?_, fun n hn => ?_, fun i => trivial, fun i => ?_,
    fun i j n hi => ?_, fun n hn => absurd rfl hn, fun n v hv => ?_⟩
  · exact absurd hn not_mem_nil
  · exact absurd hn not_mem_nil
  · exact iff_of_false Bool.false_ne_true (by simp [CacheState.init])
  · cases hi
  · cases hv

section Run

variable [DecidableEq T] [Fintype T] {log : List CacheEvent}

/-- **The invariant holds in every state reached**, and what has happened fits it. -/
lemma CacheReach.inv (h : CacheReach log x) : CacheInv x ∧ CacheLog log x := by
  induction h with
  | init =>
    refine ⟨cacheInv_init, fun n v hv => (by cases hv), fun n hn => ?_, Pairwise.nil⟩
    exact absurd hn not_mem_nil
  | step _ he hs ih =>
    have hspec := ih.1.exec he
    rw [hs] at hspec
    exact ⟨hspec.1, ih.2.step hspec.2⟩

/-- **The protocol of the inode cache**, for any number of threads and every interleaving: no two
cached inodes have the same number; an inode is destroyed only when it has no references and no load
has returned it since the last one was given back; a load returns a cached inode with a reference,
never one that has been destroyed; and no assertion fails but that about the links on the disk. -/
theorem inode_cache_protocol (h : CacheReach log x) :
    (∀ n ∈ x.inodeList, ∀ m ∈ x.inodeList, x.inoOf n = x.inoOf m → n = m) ∧
    (∀ n ∈ x.inodeList, ∃ v, x.nodes n = some v) ∧
    (∀ i n, x.Enabled i (.kill n) →
      (∃ v, x.nodes n = some v ∧ v.refCount = 0) ∧ LastZeroed n log ∧ .killed n ∉ log) ∧
    (∀ i op n y, x.Enabled i op → x.exec i op = .ok (some (.loaded n), y) →
      n ∈ y.inodeList ∧ y.Held n ∧ .killed n ∉ log) ∧
    log.Pairwise NotRevived ∧
    ∀ i op e, x.Enabled i op → x.exec i op = .error e → e = .nlinks := by
  obtain ⟨hinv, hlog⟩ := h.inv
  refine ⟨hinv.inj, fun n hn => ?_, fun i n he => ?_, fun i op n y he hs => ?_, hlog.revived,
    fun i op e he hs => ?_⟩
  · obtain ⟨v, hv, -⟩ := hinv.node n hn
    exact ⟨v, hv⟩
  · obtain ⟨-, v, hv, h0⟩ := hinv.pc_of (show x.pc i = .killing n from he)
    refine ⟨⟨v, hv, h0⟩, hlog.zeroed n v hv h0, fun hk => ?_⟩
    rw [(hlog.killed n hk).1] at hv
    cases hv
  · have hspec := hinv.exec he
    rw [hs] at hspec
    obtain ⟨h1, h2, h3⟩ := hspec.2.loaded n rfl
    refine ⟨h2, h3, fun hk => ?_⟩
    obtain ⟨h4, h5⟩ := hlog.killed n hk
    exact h1.elim (fun h => h h4) fun h => h h5
  · have hspec := hinv.exec he
    rw [hs] at hspec
    exact hspec

omit [Fintype T] in
/-- Executing steps one after the other gives a run. -/
lemma CacheState.execAll_reach (l : List (T × CacheOp)) {log' : List CacheEvent} {y : CacheState T}
    (h : CacheReach log x) (he : x.execAll l = some (log', y)) : CacheReach (log ++ log') y := by
  induction l generalizing x log log' with
  | nil =>
    cases he
    rwa [append_nil]
  | cons a l ih =>
    rw [CacheState.execAll] at he
    split_ifs at he with hen
    split at he
    · next e z hs =>
      obtain ⟨r, h1, h2⟩ := Option.map_eq_some_iff.mp he
      cases h2
      rw [← append_assoc]
      exact ih (h.step hen hs) h1
    · cases he

end Run

/-- One thread loads an inode and gives it back; before it reclaims the inode, the other thread
loads it again. Only the second call of `sfs_reclaim` destroys it, after flushing it. -/
def loadTwice : List (Fin 2 × CacheOp) :=
  [(0, .load 1), (0, .loadLocked 1 true), (0, .loadRead 1 (some 1) 5), (0, .refDec 5), (1, .load 1),
    (1, .loadLocked 1 true), (0, .reclaimLocked 5), (1, .write 5 true 1), (1, .refDec 5),
    (1, .reclaimLocked 5), (1, .flushed 5 true)]

/-- At the end of this run the inode is destroyed, and its last reference was given back after the
second load. -/
theorem inode_cache_protocol_loadTwice :
    ∃ x : CacheState (Fin 2), CacheReach [.loaded 5, .zeroed 5, .loaded 5, .zeroed 5] x ∧
      x.Enabled 1 (.kill 5) ∧
      LastZeroed 5 [.loaded 5, .zeroed 5, .loaded 5, .zeroed 5] := by
  have hrun : ((CacheState.init.execAll loadTwice).map fun r => (r.1, r.2.pc 1)) =
      some ([.loaded 5, .zeroed 5, .loaded 5, .zeroed 5], .killing 5) := by decide +kernel
  obtain ⟨⟨log, x⟩, he, h⟩ := Option.map_eq_some_iff.mp hrun
  obtain ⟨rfl, hpc⟩ := Prod.mk.inj h
  have hreach : CacheReach _ x := CacheState.execAll_reach loadTwice CacheReach.init he
  exact ⟨x, hreach, hpc, ((inode_cache_protocol hreach).2.2.1 1 5 hpc).2.1⟩

end Ucore

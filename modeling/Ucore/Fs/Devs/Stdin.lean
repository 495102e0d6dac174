import Ucore.Lib.RingBuffer

set_option autoImplicit false

/-!
# Keyboard input (`lab8/kern/fs/devs/dev_stdin.c`)

The ring of characters that the keyboard interrupt writes and that any number of processes read. A
reader that finds no character sleeps in a wait queue, and goes on, or gives up, when it runs again.

## Main definitions

* `Stdin` — the ring, the wait queue, and the calls of `dev_stdin_read` that sleep.
* `devStdinWrite`, `devStdinRead`, `stdinAgain` — the functions.
* `StdinStep` — writes and reads in any order, with what has been accepted and delivered so far.
* `StdinExact` — a bounded FIFO.

## Main results

* `stdin_fifo` — in every run in which no character that waits is overwritten.
-/

namespace Ucore

open Function RingBuffer List Relation

/-! ## The functions -/

/-- `STDIN_BUFSIZE` -/
def stdinBufSize : ℕ := 4096

/-- What `wakeup_flags` of a `wait_t` says. -/
inductive StdinWakeup
  /-- `WT_INTERRUPTED`, from `wait_init` -/
  | interrupted
  /-- `WT_KBD`, from `dev_stdin_write` -/
  | kbd
  deriving DecidableEq

/-- A call of `dev_stdin_read` that sleeps: the characters it has, how many it wants, and
`wakeup_flags`. -/
structure StdinCall where
  got : List UInt8
  len : ℕ
  flags : StdinWakeup

variable {ι : Type} {c : UInt8}

section Functions

variable [DecidableEq ι]

/-- `stdin_buffer`, `p_rpos`, `p_wpos` and `wait_queue`, and the calls that sleep. -/
structure Stdin (ι : Type) where
  buffer : ℕ → UInt8
  pRpos : ℕ
  pWpos : ℕ
  waitQueue : List ι
  calls : ι → Option StdinCall

/-- The state after `stdin_device_init`. -/
def stdinBoot : Stdin ι := ⟨fun _ => 0, 0, 0, [], fun _ => none⟩

/-- `stdin_buffer[p_wpos % STDIN_BUFSIZE] = c; if (p_wpos - p_rpos < STDIN_BUFSIZE) p_wpos ++;` -/
def Stdin.store (s : Stdin ι) (c : UInt8) : Stdin ι :=
  { s with
    buffer := update s.buffer (s.pWpos % stdinBufSize) c
    pWpos := if (s.pWpos : ℤ) - s.pRpos < stdinBufSize then s.pWpos + 1 else s.pWpos }

/-- `wakeup_queue(wait_queue, WT_KBD, 1)` -/
def Stdin.wakeup (s : Stdin ι) : Stdin ι :=
  { s with
    waitQueue := []
    calls := fun r => if r ∈ s.waitQueue then (s.calls r).map ({ · with flags := .kbd })
    else s.calls r }

/-- `dev_stdin_write` -/
def devStdinWrite (c : UInt8) (s : Stdin ι) : Stdin ι := if c ≠ 0 then (s.store c).wakeup else s

/-- The rounds of the loop of `dev_stdin_read` that find a character, of at most `n`: the
characters. -/
def takeChars : ℕ → Stdin ι → List UInt8 × Stdin ι
  | 0, s => ([], s)
  | n + 1, s =>
    if s.pRpos < s.pWpos then
      let (l, t) := takeChars n { s with pRpos := s.pRpos + 1 }
      (s.buffer (s.pRpos % stdinBufSize) :: l, t)
    else ([], s)

/-- `wait_current_set(wait_queue, wait, WT_KBD)` -/
def Stdin.sleep (s : Stdin ι) (r : ι) (got : List UInt8) (len : ℕ) : Stdin ι :=
  { s with
    waitQueue := s.waitQueue ++ [r]
    calls := update s.calls r (some ⟨got, len, .interrupted⟩) }

/-- The loop of `dev_stdin_read` for a reader that has some characters: what it returns, unless it
sleeps; and the characters that it takes now. -/
def readOn (r : ι) (got : List UInt8) (len : ℕ) (s : Stdin ι) :
    Option (List UInt8) × List UInt8 × Stdin ι :=
  let (l, t) := takeChars (len - got.length) s
  if (got ++ l).length < len then (none, l, t.sleep r (got ++ l) len)
  else (some (got ++ l), l, { t with calls := update t.calls r none })

/-- `dev_stdin_read` -/
def devStdinRead (r : ι) (len : ℕ) (s : Stdin ι) : Option (List UInt8) × List UInt8 × Stdin ι :=
  readOn r [] len s

/-- `dev_stdin_read` after `schedule` has returned: the loop goes on if a character has arrived. -/
def stdinAgain (r : ι) (call : StdinCall) (s : Stdin ι) :
    Option (List UInt8) × List UInt8 × Stdin ι :=
  let s := { s with waitQueue := s.waitQueue.erase r }
  if call.flags = .kbd then readOn r call.got call.len s
  else (some call.got, [], { s with calls := update s.calls r none })

end Functions

/-! ## Runs -/

section Runs

variable [DecidableEq ι]

/-- The characters that have not been read. -/
def Stdin.unread (s : Stdin ι) :
    List UInt8 := window s.buffer stdinBufSize s.pRpos (s.pWpos - s.pRpos)

/-- The device; the characters that arrived while fewer than `STDIN_BUFSIZE` were unread; to whom
which characters have been delivered; and what calls have returned. -/
structure StdinRun (ι : Type) where
  dev : Stdin ι
  accepted : List UInt8
  delivered : List (ι × UInt8)
  returned : List (ι × List UInt8)

/-- A character arrives. -/
def StdinRun.write (s : StdinRun ι) (c : UInt8) : StdinRun ι :=
  { s with
    dev := devStdinWrite c s.dev
    accepted := if s.dev.unread.length < stdinBufSize then s.accepted ++ [c] else s.accepted }

/-- A reader has taken characters, and returns or sleeps. -/
def StdinRun.read (s : StdinRun ι) (r : ι) (res : Option (List UInt8) × List UInt8 × Stdin ι) :
    StdinRun ι where
  dev := res.2.2
  accepted := s.accepted
  delivered := s.delivered ++ res.2.1.map (r, ·)
  returned := s.returned ++ (res.1.map (r, ·)).toList

/-- **The character overwrites nothing**: there is room for it, or it is the same as the oldest
one. -/
def Spares (s : Stdin ι) (c : UInt8) : Prop :=
  s.unread.length < stdinBufSize ∨ s.unread.head? = some c

/-- **Steps**: a character arrives; a process calls `dev_stdin_read`; one that sleeps there runs
again, for whatever reason. -/
inductive StdinStep (s : StdinRun ι) : StdinRun ι → Prop
  | write (c : UInt8) (hc : c ≠ 0) (hs : Spares s.dev c) : StdinStep s (s.write c)
  | call (r : ι) (len : ℕ) (hr : s.dev.calls r = none) :
      StdinStep s (s.read r (devStdinRead r len s.dev))
  | again (r : ι) (call : StdinCall) (hr : s.dev.calls r = some call) :
      StdinStep s (s.read r (stdinAgain r call s.dev))

/-- The characters of a reader that sleeps. -/
def Stdin.gotBy (s : Stdin ι) (r : ι) : List UInt8 := ((s.calls r).map StdinCall.got).getD []

/-- **A bounded FIFO**: what has been accepted is what has been delivered, each character to one
reader and in the same order, and after it what is unread. The calls of a reader return the
characters that have been delivered to it. If a reader sleeps and has not been woken, there is
nothing unread. A reader that goes on takes the oldest characters, as many as it wants or as there
are, and returns when it has all that it wants. -/
structure StdinExact (s : StdinRun ι) : Prop where
  fifo : s.accepted = s.delivered.map Prod.snd ++ s.dev.unread
  bounded : s.dev.unread.length ≤ stdinBufSize
  returns : ∀ r, (s.delivered.filter (·.1 = r)).map Prod.snd =
    (s.returned.filter (·.1 = r)).flatMap Prod.snd ++ s.dev.gotBy r
  awake : ∀ r call, s.dev.calls r = some call → call.flags = .kbd ∨ s.dev.unread = []
  reads : ∀ r got len, let new := s.dev.unread.take (len - got.length)
    (readOn r got len s.dev).2.1 = new ∧ (readOn r got len s.dev).1 =
      if got.length + s.dev.unread.length < len then none else some (got ++ new)

/-- The positions, and the wait queue. -/
structure StdinInv (s : Stdin ι) : Prop where
  pos : s.pRpos ≤ s.pWpos ∧ s.pWpos ≤ s.pRpos + stdinBufSize
  queued : ∀ r call, s.calls r = some call → call.flags = .kbd ∨ r ∈ s.waitQueue
  asleep : s.waitQueue ≠ [] → s.unread = []

end Runs

section Ring

variable {d : Stdin ι}

lemma length_unread : d.unread.length = d.pWpos - d.pRpos := by simp [Stdin.unread]

/-- **A character is stored** at the end, or in place of the oldest one. -/
lemma store_unread (h1 : d.pRpos ≤ d.pWpos) (h2 : d.pWpos ≤ d.pRpos + stdinBufSize) (c : UInt8) :
    (d.store c).unread = if d.unread.length < stdinBufSize then d.unread ++ [c]
      else c :: d.unread.tail := by
  rw [length_unread]
  have hmod : d.pWpos % stdinBufSize = (d.pRpos + (d.pWpos - d.pRpos)) % stdinBufSize := by
    rw [Nat.add_sub_cancel' h1]
  by_cases hlt : d.pWpos - d.pRpos < stdinBufSize
  · have hif : (d.pWpos : ℤ) - d.pRpos < stdinBufSize := by omega
    have hsub : d.pWpos + 1 - d.pRpos = d.pWpos - d.pRpos + 1 := by omega
    rw [if_pos hlt]
    simp only [Stdin.unread, Stdin.store, if_pos hif]
    rw [hsub, hmod, window_push hlt]
  · have hif : ¬(d.pWpos : ℤ) - d.pRpos < stdinBufSize := by omega
    have hsub : d.pWpos - d.pRpos = stdinBufSize := by omega
    rw [if_neg hlt]
    simp only [Stdin.unread, Stdin.store, if_neg hif]
    rw [hmod, hsub, window_overwrite (by decide)]

/-- **A write leaves the unread characters alone** iff it spares them. -/
lemma store_unread_iff (h1 : d.pRpos ≤ d.pWpos) (h2 : d.pWpos ≤ d.pRpos + stdinBufSize) :
    (d.store c).unread = (if d.unread.length < stdinBufSize then d.unread ++ [c] else d.unread) ↔
      Spares d c := by
  rw [store_unread h1 h2, Spares]
  by_cases hlt : d.unread.length < stdinBufSize
  · rw [if_pos hlt, if_pos hlt]
    exact iff_of_true rfl (.inl hlt)
  · rw [if_neg hlt, if_neg hlt, or_iff_right hlt]
    cases hu : d.unread with
    | nil =>
      rw [hu] at hlt
      exact absurd (by decide) hlt
    | cons a l => simp [eq_comm]

/-- **Characters are taken** from the front. -/
lemma takeChars_spec (n : ℕ) : ∀ d : Stdin ι, d.pRpos ≤ d.pWpos → ∃ k,
    (takeChars n d).1 = d.unread.take n ∧ (takeChars n d).2 = { d with pRpos := d.pRpos + k } ∧
      (takeChars n d).2.unread = d.unread.drop n ∧ d.pRpos + k ≤ d.pWpos := by
  induction n with
  | zero =>
    intro d h
    exact ⟨0, rfl, rfl, rfl, h⟩
  | succ n ih =>
    intro d h
    rw [takeChars]
    by_cases hlt : d.pRpos < d.pWpos
    · have hu : d.unread = d.buffer (d.pRpos % stdinBufSize) ::
          Stdin.unread { d with pRpos := d.pRpos + 1 } := by
        obtain ⟨m, hm⟩ : ∃ m, d.pWpos - d.pRpos = m + 1 := ⟨d.pWpos - d.pRpos - 1, by omega⟩
        have hm' : d.pWpos - (d.pRpos + 1) = m := by omega
        simp only [Stdin.unread]
        rw [hm, hm', window_pop]
      obtain ⟨k, e1, e2, e3, e4⟩ := ih { d with pRpos := d.pRpos + 1 } hlt
      rw [if_pos hlt]
      refine ⟨k + 1, ?_, ?_, ?_, by simp only at e4; omega⟩
      · simp only [e1, hu, take_succ_cons]
      · simp only [e2]
        congr 1
        omega
      · simp only [e3, hu, drop_succ_cons]
    · have hu : d.unread = [] := by
        apply eq_nil_of_length_eq_zero
        rw [length_unread]
        omega
      rw [if_neg hlt]
      refine ⟨0, ?_, rfl, ?_, h⟩
      · rw [hu, take_nil]
      · rw [hu, drop_nil]

end Ring

section Steps

variable [DecidableEq ι] {s t : StdinRun ι} {d : Stdin ι} {r : ι}

lemma wakeup_gotBy : d.wakeup.gotBy r = d.gotBy r := by
  simp only [Stdin.gotBy, Stdin.wakeup]
  split_ifs
  · cases d.calls r <;> rfl
  · rfl

/-- After a write every reader that sleeps has been woken. -/
lemma wakeup_flags (h : StdinInv d) {call : StdinCall} (hr : d.wakeup.calls r = some call) :
    call.flags = .kbd := by
  simp only [Stdin.wakeup] at hr
  split_ifs at hr with hm
  · cases hc : d.calls r with
    | none =>
      rw [hc] at hr
      cases hr
    | some call' =>
      rw [hc] at hr
      cases hr
      rfl
  · exact (h.queued r call hr).resolve_right hm

lemma devStdinWrite_of_ne (hc : c ≠ 0) : devStdinWrite c d = (d.store c).wakeup := if_pos hc

lemma StdinInv.write (h : StdinInv d) (hc : c ≠ 0) : StdinInv (devStdinWrite c d) := by
  obtain ⟨h1, h2⟩ := h.pos
  have hs : ∀ r call, (d.store c).wakeup.calls r = some call → call.flags = .kbd :=
    fun r call hr => @wakeup_flags ι _ d r h call hr
  rw [devStdinWrite_of_ne hc]
  refine ⟨?_, fun r call hr => .inl (hs r call hr), fun hq => absurd rfl hq⟩
  simp only [Stdin.wakeup, Stdin.store]
  split_ifs <;> omega

/-- What a reader that goes on takes and returns. -/
lemma readOn_fst (h : d.pRpos ≤ d.pWpos) (r : ι) (got : List UInt8) (len : ℕ) :
    let new := d.unread.take (len - got.length)
    (readOn r got len d).2.1 = new ∧ (readOn r got len d).1 =
      if got.length + d.unread.length < len then none else some (got ++ new) := by
  obtain ⟨k, e, -⟩ := takeChars_spec (len - got.length) d h
  have hiff : (got ++ d.unread.take (len - got.length)).length < len ↔
      got.length + d.unread.length < len := by
    rw [length_append, length_take]
    omega
  simp only [readOn, e, hiff]
  split_ifs <;> exact ⟨rfl, rfl⟩

/-- **A reader goes on**: it takes characters from the front, and returns them with those that it
has, or sleeps with them when nothing is left. -/
lemma readOn_spec (h1 : d.pRpos ≤ d.pWpos) (h2 : d.pWpos ≤ d.pRpos + stdinBufSize)
    (hq : ∀ r', r' ≠ r → ∀ call, d.calls r' = some call → call.flags = .kbd ∨ r' ∈ d.waitQueue)
    (ha : d.waitQueue ≠ [] → d.unread = []) (got : List UInt8) (len : ℕ) :
    let res := readOn r got len d
    StdinInv res.2.2 ∧ res.2.1 ++ res.2.2.unread = d.unread ∧
      got ++ res.2.1 = res.1.getD [] ++ res.2.2.gotBy r ∧
      ∀ r', r' ≠ r → res.2.2.gotBy r' = d.gotBy r' := by
  obtain ⟨k, e1, e2, e3, e4⟩ := takeChars_spec (len - got.length) d h1
  have hunread : Stdin.unread { d with pRpos := d.pRpos + k } =
      d.unread.drop (len - got.length) := by
    rw [← e2, e3]
  unfold readOn
  simp only [e1, e2]
  have htake : d.unread.take (len - got.length) ++ d.unread.drop (len - got.length) = d.unread :=
    take_append_drop _ _
  by_cases hlen : (got ++ d.unread.take (len - got.length)).length < len
  · -- there are not enough characters
    have hnil : d.unread.drop (len - got.length) = [] := by
      rw [drop_eq_nil_iff]
      rw [length_append, length_take] at hlen
      omega
    simp only [if_pos hlen]
    refine ⟨⟨⟨e4, by simp only [Stdin.sleep]; omega⟩, fun r' call hr => ?_,
      fun _ => hunread.trans hnil⟩, ?_, ?_, ?_⟩
    · by_cases hrr : r' = r
      · exact .inr (by rw [hrr]; exact mem_append_right _ (mem_singleton.mpr rfl))
      · simp only [Stdin.sleep, update_of_ne hrr] at hr
        exact (hq r' hrr call hr).imp id fun hm => mem_append_left _ hm
    · exact (congrArg _ hunread).trans htake
    · simp [Stdin.gotBy, Stdin.sleep]
    · intro r' hrr
      simp [Stdin.gotBy, Stdin.sleep, update_of_ne hrr]
  · simp only [if_neg hlen]
    refine ⟨⟨⟨e4, by simp only; omega⟩, fun r' call hr => ?_, fun hne => ?_⟩, ?_, ?_, ?_⟩
    · by_cases hrr : r' = r
      · rw [hrr] at hr
        simp only [update_self] at hr
        cases hr
      · simp only [update_of_ne hrr] at hr
        exact hq r' hrr call hr
    · refine hunread.trans ?_
      rw [ha hne, drop_nil]
    · exact (congrArg _ hunread).trans htake
    · simp [Stdin.gotBy]
    · intro r' hrr
      simp [Stdin.gotBy, update_of_ne hrr]

/-- What a step of a reader does. -/
structure ReadStep (d : Stdin ι) (r : ι) (res : Option (List UInt8) × List UInt8 × Stdin ι) :
    Prop where
  inv : StdinInv res.2.2
  unread : res.2.1 ++ res.2.2.unread = d.unread
  got : d.gotBy r ++ res.2.1 = res.1.getD [] ++ res.2.2.gotBy r
  others : ∀ r', r' ≠ r → res.2.2.gotBy r' = d.gotBy r'

lemma devStdinRead_spec (h : StdinInv d) (hr : d.calls r = none) (len : ℕ) :
    ReadStep d r (devStdinRead r len d) := by
  obtain ⟨h1, h2, h3, h4⟩ := readOn_spec h.pos.1 h.pos.2 (fun r' _ => h.queued r') h.asleep [] len
  refine ⟨h1, h2, ?_, h4⟩
  have hgot : d.gotBy r = [] := by
    rw [Stdin.gotBy, hr]
    rfl
  rw [hgot]
  exact h3

lemma stdinAgain_spec (h : StdinInv d) {call : StdinCall} (hr : d.calls r = some call) :
    ReadStep d r (stdinAgain r call d) := by
  have hgot : d.gotBy r = call.got := by
    rw [Stdin.gotBy, hr]
    rfl
  have hne : d.waitQueue.erase r ≠ [] → d.unread = [] := fun hc =>
    h.asleep fun hn => hc (by rw [hn]; rfl)
  have hq : ∀ r', r' ≠ r → ∀ call, d.calls r' = some call → call.flags = .kbd ∨
      r' ∈ d.waitQueue.erase r :=
    fun r' hrr call hc => (h.queued r' call hc).imp id fun hm => (mem_erase_of_ne hrr).mpr hm
  unfold stdinAgain
  by_cases hf : call.flags = .kbd
  · obtain ⟨h1, h2, h3, h4⟩ := @readOn_spec ι _ { d with waitQueue := d.waitQueue.erase r } r
      h.pos.1 h.pos.2 hq hne call.got call.len
    simp only [if_pos hf]
    refine ⟨h1, h2, ?_, h4⟩
    rw [hgot]
    exact h3
  · simp only [if_neg hf]
    refine ⟨⟨h.pos, fun r' call' hc => ?_, hne⟩, rfl, ?_, fun r' hrr => ?_⟩
    · by_cases hrr : r' = r
      · rw [hrr] at hc
        simp only [update_self] at hc
        cases hc
      · simp only [update_of_ne hrr] at hc
        exact hq r' hrr call' hc
    · rw [hgot]
      simp [Stdin.gotBy]
    · simp [Stdin.gotBy, update_of_ne hrr]

/-- The invariant of a run. -/
structure StdinRunInv (s : StdinRun ι) : Prop where
  inv : StdinInv s.dev
  fifo : s.accepted = s.delivered.map Prod.snd ++ s.dev.unread
  returns : ∀ r, (s.delivered.filter (·.1 = r)).map Prod.snd =
    (s.returned.filter (·.1 = r)).flatMap Prod.snd ++ s.dev.gotBy r

lemma StdinRunInv.read (h : StdinRunInv s) {res : Option (List UInt8) × List UInt8 × Stdin ι}
    (hres : ReadStep s.dev r res) : StdinRunInv (s.read r res) := by
  refine ⟨hres.inv, ?_, fun r' => ?_⟩
  · rw [StdinRun.read]
    simp only [List.map_append, List.map_map, List.append_assoc]
    rw [h.fifo, ← hres.unread]
    congr 2
    exact (List.map_id _).symm
  · simp only [StdinRun.read, filter_append, map_append, flatMap_append]
    rw [h.returns r']
    by_cases hrr : r' = r
    · subst hrr
      have hall : (res.2.1.map ((r', ·))).filter (fun x => decide (x.1 = r')) =
          res.2.1.map (r', ·) := by
        simp
      rw [hall, List.map_map, List.append_assoc, List.append_assoc]
      congr 1
      have hid : res.2.1.map (Prod.snd ∘ (r', ·)) = res.2.1 := map_id _
      rw [hid, hres.got]
      cases res.1 <;> simp
    · have hrr' : ¬r = r' := fun hc => hrr hc.symm
      have hnone : (res.2.1.map ((r, ·))).filter (fun x => decide (x.1 = r')) = [] := by
        simp [hrr']
      rw [hnone, hres.others r' hrr]
      cases res.1 <;> simp [hrr']

/-- **One step** keeps the invariant. -/
lemma StdinStep.inv (hstep : StdinStep s t) (h : StdinRunInv s) : StdinRunInv t := by
  cases hstep with
  | write c hc hs =>
    refine ⟨h.inv.write hc, ?_, fun r => ?_⟩
    · have hu := (store_unread_iff h.inv.pos.1 h.inv.pos.2).mpr hs
      simp only [StdinRun.write]
      rw [devStdinWrite_of_ne hc]
      refine Eq.trans ?_ (congrArg _ hu).symm
      rw [h.fifo]
      split_ifs
      · rw [append_assoc]
      · rfl
    · simp only [StdinRun.write]
      rw [devStdinWrite_of_ne hc, wakeup_gotBy]
      exact h.returns r
  | call r len hr => exact h.read (devStdinRead_spec h.inv hr len)
  | again r call hr => exact h.read (stdinAgain_spec h.inv hr)

/-- The run at its start. -/
def stdinStart : StdinRun ι := ⟨stdinBoot, [], [], []⟩

/-- **A run** keeps the invariant. -/
lemma stdin_run (hr : ReflTransGen StdinStep stdinStart s) : StdinRunInv s := by
  induction hr with
  | refl =>
    refine ⟨⟨⟨le_rfl, Nat.zero_le _⟩, fun r call hc => ?_, fun hq => absurd rfl hq⟩, rfl,
      fun r => rfl⟩
    exact absurd hc (Option.some_ne_none call).symm
  | tail _ hstep ih => exact hstep.inv ih

end Steps

/-- **Keyboard input is a lossless bounded FIFO** in every run of writes and of reads by any number
of processes in which every write spares the unread characters. In each state reached, the next
write leaves them alone, and adds its character if fewer than `STDIN_BUFSIZE` are unread, iff it
spares them. -/
theorem stdin_fifo {ι : Type} [DecidableEq ι] {s : StdinRun ι}
    (hr : ReflTransGen StdinStep stdinStart s) :
    StdinExact s ∧ ∀ c : UInt8, c ≠ 0 →
      ((s.write c).dev.unread = (if s.dev.unread.length < stdinBufSize then s.dev.unread ++ [c]
        else s.dev.unread) ↔ Spares s.dev c) := by
  have h := stdin_run hr
  refine ⟨⟨h.fifo, ?_, h.returns, fun r call hc => ?_, readOn_fst h.inv.pos.1⟩, fun c hc => ?_⟩
  · have := h.inv.pos
    rw [length_unread]
    omega
  · exact (h.inv.queued r call hc).imp id fun hm => h.inv.asleep (ne_nil_of_mem hm)
  · rw [← store_unread_iff h.inv.pos.1 h.inv.pos.2]
    simp only [StdinRun.write]
    rw [devStdinWrite_of_ne hc]
    rfl

/-- A character arrives and is read. -/
theorem stdin_fifo_one :
    ∃ s : StdinRun ℕ, ReflTransGen StdinStep stdinStart s ∧ s.returned = [(7, [97])] ∧
      StdinExact s := by
  have hr : ReflTransGen StdinStep (stdinStart : StdinRun ℕ)
      ((stdinStart.write 97).read 7 (devStdinRead 7 1 (stdinStart.write 97).dev)) :=
    (ReflTransGen.single (.write 97 (by decide) (Or.inl (by decide)))).tail (.call 7 1 rfl)
  exact ⟨_, hr, rfl, (stdin_fifo hr).1⟩

/-- A run of writes of the same character. -/
def fillStdin : ℕ → StdinRun ℕ
  | 0 => stdinStart
  | n + 1 => (fillStdin n).write 97

lemma fillStdin_reach (n : ℕ) (hn : n ≤ stdinBufSize) :
    ReflTransGen StdinStep stdinStart (fillStdin n) ∧
      (fillStdin n).dev.unread = List.replicate n 97 := by
  induction n with
  | zero => exact ⟨.refl, rfl⟩
  | succ n ih =>
    obtain ⟨hr, hu⟩ := ih (by omega)
    have hlen : (fillStdin n).dev.unread.length < stdinBufSize := by
      rw [hu, length_replicate]
      omega
    have h := stdin_run hr
    refine ⟨hr.tail (.write 97 (by decide) (.inl hlen)), ?_⟩
    have := (store_unread_iff (c := 97) h.inv.pos.1 h.inv.pos.2).mpr (.inl hlen)
    rw [if_pos hlen, hu, ← replicate_succ'] at this
    exact this

/-- **An unread character is overwritten**: `STDIN_BUFSIZE` times the character `97` is unread, and
`98` arrives. It should be discarded; it takes the place of the oldest character, and is read
next. -/
theorem stdin_overwrites :
    ∃ s : StdinRun ℕ, ReflTransGen StdinStep stdinStart s ∧
      s.dev.unread = List.replicate stdinBufSize 97 ∧ (s.write 98).accepted = s.accepted ∧
      (s.write 98).dev.unread.head? = some 98 ∧
      (devStdinRead 0 1 (s.write 98).dev).1 = some [98] := by
  obtain ⟨s, hr, hu⟩ : ∃ s, ReflTransGen StdinStep stdinStart s ∧
      s.dev.unread = List.replicate stdinBufSize 97 := ⟨_, fillStdin_reach stdinBufSize le_rfl⟩
  have h := stdin_run hr
  have hlen : ¬s.dev.unread.length < stdinBufSize := by
    rw [hu, length_replicate]
    exact lt_irrefl _
  have hw : (s.write 98).dev.unread = 98 :: s.dev.unread.tail := by
    have := store_unread h.inv.pos.1 h.inv.pos.2 98
    rw [if_neg hlen] at this
    exact this
  refine ⟨s, hr, hu, if_neg hlen, by rw [hw]; rfl, ?_⟩
  have hinv : StdinInv (s.write 98).dev := h.inv.write (c := 98) (by decide)
  obtain ⟨k, e1, -⟩ := takeChars_spec 1 (s.write 98).dev hinv.pos.1
  rw [hw] at e1
  unfold devStdinRead readOn
  simp only [length_nil, Nat.sub_zero, e1, take_succ_cons, take_zero, nil_append]
  rfl

end Ucore

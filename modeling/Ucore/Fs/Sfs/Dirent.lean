import Ucore.Fs.Sfs.BmapSpec

set_option autoImplicit false

/-!
# Directory entries (`lab8/kern/fs/sfs/sfs_inode.c`)

Each entry of a directory has a block of its own. There is memory for the buffer of an entry.

## Main definitions

* `SfsDiskEntry`, `decodeEntry` — an entry, and its layout in a block.
* `sfsDirentReadNolock`, `sfsDirentSearchNolock`, `sfsDirentFindinoNolock`.

## Main results

* `sfsDirentReadNolock_apply` — reading an entry.
* `sfsDirentSearchNolock_apply`, `sfsDirentFindinoNolock_apply` — the loops find the first
  entry with a name or an inode number.
* `sfsDirentSearchNolock_panics` — the search stops at a slot behind the indirect block.
-/

namespace Ucore

open Function Comp

/-- `struct sfs_disk_entry`, with its name as a string. -/
structure SfsDiskEntry where
  ino : ℕ
  name : List UInt8
  deriving DecidableEq, Repr

/-- `sizeof(struct sfs_disk_entry)` -/
def diskEntrySize : ℕ := 4 + (maxFnameLen + 1)

/-- The entry in a buffer, after `entry->name[SFS_MAX_FNAME_LEN] = 0`. -/
def decodeEntry (buf : Bytes) : SfsDiskEntry :=
  ⟨buf.get32 0, Bytes.cstr (update buf (4 + maxFnameLen) 0) 4 (maxFnameLen + 1)⟩

/-- `sfs_dirent_read_nolock` -/
def sfsDirentReadNolock (i slot : ℕ) : Sfs (Except Errno SfsDiskEntry) := do
  let sin ← getSin i
  Comp.ensure (sin.din.type = typeDir ∧ slot < sin.din.blocks) .direntSlot
  (sfsBmapLoadNolock i slot).andThen fun ino => do
    assertInuse ino
    (sfsRbuf Bytes.zero 0 diskEntrySize ino 0).andThen fun buf => pure (.ok (decodeEntry buf))

/-- The loop of `sfs_dirent_search_nolock` for the next `n` slots; `empty` is the value of
`*empty_slot`. It returns the slot and the inode number. -/
def direntSearchLoop (i : ℕ) (name : List UInt8) : ℕ → ℕ → ℕ → Sfs (Except Errno (ℕ × ℕ) × ℕ)
  | 0, _, empty => pure (.error .noEnt, empty)
  | n + 1, slot, empty => do
    match ← sfsDirentReadNolock i slot with
    | .error e => pure (.error e, empty)
    | .ok entry =>
      if entry.ino = 0 then direntSearchLoop i name n (slot + 1) slot
      else if entry.name = name then pure (.ok (slot, entry.ino), empty)
      else direntSearchLoop i name n (slot + 1) empty

/-- `sfs_dirent_search_nolock` -/
def sfsDirentSearchNolock (i : ℕ) (name : List UInt8) : Sfs (Except Errno (ℕ × ℕ) × ℕ) := do
  Comp.ensure (name.length ≤ maxFnameLen) .longName
  let sin ← getSin i
  direntSearchLoop i name sin.din.blocks 0 sin.din.blocks

/-- The loop of `sfs_dirent_findino_nolock`. -/
def direntFindLoop (i ino : ℕ) : ℕ → ℕ → Sfs (Except Errno SfsDiskEntry)
  | 0, _ => pure (.error .noEnt)
  | n + 1, slot =>
    (sfsDirentReadNolock i slot).andThen fun entry =>
      if entry.ino = ino then pure (.ok entry) else direntFindLoop i ino n (slot + 1)

/-- `sfs_dirent_findino_nolock` -/
def sfsDirentFindinoNolock (i ino : ℕ) : Sfs (Except Errno SfsDiskEntry) := do
  let sin ← getSin i
  direntFindLoop i ino sin.din.blocks 0

section Read

variable {s : SfsFs} {i k : ℕ} {sin : SfsInode}

/-- An entry depends on the first bytes of its block only. -/
lemma decodeEntry_congr {m m' : Bytes} (h : ∀ k < diskEntrySize, m k = m' k) :
    decodeEntry m = decodeEntry m' := by
  have hstr : ∀ n o, o + n ≤ diskEntrySize → Bytes.cstr (update m (4 + maxFnameLen) 0) o n =
      Bytes.cstr (update m' (4 + maxFnameLen) 0) o n := by
    intro n
    induction n with
    | zero => exact fun _ _ => rfl
    | succ n ih =>
      intro o ho
      have hb : update m (4 + maxFnameLen) 0 o = update m' (4 + maxFnameLen) 0 o := by
        by_cases hc : o = 4 + maxFnameLen
        · rw [hc, update_self, update_self]
        · rw [update_of_ne hc, update_of_ne hc, h o (by omega)]
      rw [Bytes.cstr, Bytes.cstr, hb, ih (o + 1) (by omega)]
  unfold decodeEntry
  rw [hstr (maxFnameLen + 1) 4 (by decide), Bytes.get32_congr fun j hj => h (0 + j) ?_]
  unfold diskEntrySize
  omega

/-- **Reading an entry** from a block that the block map has. -/
lemma sfsDirentReadNolock_apply (h : Mounted s) (hn : s.nodes i = some sin)
    (ht : sin.din.type = typeDir) (hk : k < sin.din.blocks) {b : ℕ}
    (hb : sfsBmapLoadNolock i k s = .ok (.ok b, s)) (hu : InUse s b) :
    sfsDirentReadNolock i k s = .ok (.ok (decodeEntry (s.disk b)), s) := by
  have hr : sfsRbuf Bytes.zero 0 diskEntrySize b 0 s =
      .ok (.ok (Bytes.zero.copy 0 (s.disk b) 0 diskEntrySize), s) :=
    sfsRbuf_apply h hu.ne_zero hu.lt (by decide) (by decide)
  have hdec : decodeEntry (Bytes.zero.copy 0 (s.disk b) 0 diskEntrySize) =
      decodeEntry (s.disk b) := by
    refine decodeEntry_congr fun j hj => ?_
    rw [Bytes.copy_of_mem _ _ (Nat.zero_le j) (by omega)]
    congr 1
    omega
  rw [sfsDirentReadNolock, bind_of_ok (getSin_apply hn), ensure_bind_apply, if_pos ⟨ht, hk⟩,
    andThen_of_ok hb, bind_of_ok (assertInuse_apply h hu), andThen_of_ok hr, hdec]
  rfl

lemma sfsDirentReadNolock_panics (hn : s.nodes i = some sin) (ht : sin.din.type = typeDir)
    (hk : k < sin.din.blocks) (hmax : maxBlocks ≤ k) :
    ∃ p, LoadPanic p ∧ sfsDirentReadNolock i k s = .error p := by
  obtain ⟨p, hp, e⟩ := load_panics hn (.inr hmax)
  refine ⟨p, hp, ?_⟩
  rw [sfsDirentReadNolock, bind_of_ok (getSin_apply hn), ensure_bind_apply, if_pos ⟨ht, hk⟩,
    andThen_of_error e]

end Read

/-! ## The loops -/

/-- **The slots from `slot` on** hold the entries `es`. -/
def SlotsHold (s : SfsFs) (i slot : ℕ) (es : List SfsDiskEntry) : Prop :=
  ∀ j (h : j < es.length), sfsDirentReadNolock i (slot + j) s = .ok (.ok (es.get ⟨j, h⟩), s)

section Loops

variable {s : SfsFs} {i : ℕ} {sin : SfsInode} {es : List SfsDiskEntry} {name : List UInt8}

lemma SlotsHold.head {slot : ℕ} {e : SfsDiskEntry} (h : SlotsHold s i slot (e :: es)) :
    sfsDirentReadNolock i slot s = .ok (.ok e, s) := h 0 (Nat.zero_lt_succ _)

lemma SlotsHold.tail {slot : ℕ} {e : SfsDiskEntry} (h : SlotsHold s i slot (e :: es)) :
    SlotsHold s i (slot + 1) es := by
  intro j hj
  have := h (j + 1) (Nat.succ_lt_succ hj)
  rwa [show slot + (j + 1) = slot + 1 + j by omega] at this

/-- The loop of `sfs_dirent_search_nolock` finds the first entry with the name. -/
lemma direntSearchLoop_apply (es : List SfsDiskEntry) : ∀ {slot : ℕ} (empty : ℕ),
    SlotsHold s i slot es → (∀ e ∈ es, e.ino ≠ 0) →
    direntSearchLoop i name es.length slot empty s =
      .ok ((match es.find? (·.name = name) with
        | some e => .ok (slot + es.findIdx (·.name = name), e.ino)
        | none => .error .noEnt, empty), s) := by
  induction es with
  | nil => exact fun _ _ _ => rfl
  | cons e es ih =>
    intro slot empty h h0
    rw [List.length_cons, direntSearchLoop, bind_of_ok h.head]
    simp only
    rw [if_neg (h0 e (by simp))]
    by_cases hn : e.name = name
    · rw [if_pos hn, List.find?_cons_of_pos (by simpa using hn), List.findIdx_cons]
      simp [hn]
    · rw [if_neg hn, ih empty h.tail (fun x hx => h0 x (by simp [hx])),
        List.find?_cons_of_neg (by simpa using hn), List.findIdx_cons]
      simp only [hn, decide_false, cond_false]
      congr 3
      split
      · rw [Nat.add_assoc, Nat.add_comm 1]
      · rfl

/-- The loop stops at a slot whose entry cannot be read. -/
lemma direntSearchLoop_panics {p : SfsPanic} (es : List SfsDiskEntry) : ∀ {slot : ℕ} (empty m : ℕ),
    SlotsHold s i slot es → (∀ e ∈ es, e.ino ≠ 0 ∧ e.name ≠ name) →
    sfsDirentReadNolock i (slot + es.length) s = .error p →
    direntSearchLoop i name (es.length + (m + 1)) slot empty s = .error p := by
  induction es with
  | nil =>
    intro slot empty m _ _ hp
    rw [List.length_nil, Nat.add_zero] at hp
    rw [List.length_nil, Nat.zero_add, direntSearchLoop, bind_of_error hp]
  | cons e es ih =>
    intro slot empty m h h0 hp
    obtain ⟨h1, h2⟩ := h0 e (by simp)
    rw [List.length_cons, Nat.add_right_comm, direntSearchLoop, bind_of_ok h.head]
    simp only
    rw [if_neg h1, if_neg h2]
    refine ih empty m h.tail (fun x hx => h0 x (by simp [hx])) ?_
    rwa [show slot + 1 + es.length = slot + (e :: es).length by rw [List.length_cons]; omega]

/-- The loop of `sfs_dirent_findino_nolock` finds the first entry with the inode number. -/
lemma direntFindLoop_apply (es : List SfsDiskEntry) (ino : ℕ) :
    ∀ {slot : ℕ}, SlotsHold s i slot es → direntFindLoop i ino es.length slot s =
      .ok (match es.find? (·.ino = ino) with
        | some e => .ok e
        | none => .error .noEnt, s) := by
  induction es with
  | nil => exact fun _ => rfl
  | cons e es ih =>
    intro slot h
    rw [List.length_cons, direntFindLoop, andThen_of_ok h.head]
    by_cases hn : e.ino = ino
    · rw [if_pos hn, List.find?_cons_of_pos (by simpa using hn)]
      rfl
    · rw [if_neg hn, ih h.tail, List.find?_cons_of_neg (by simpa using hn)]

/-- **`sfs_dirent_search_nolock`** on a directory whose slots can all be read. -/
lemma sfsDirentSearchNolock_apply (hn : s.nodes i = some sin) (hb : sin.din.blocks = es.length)
    (h : SlotsHold s i 0 es) (h0 : ∀ e ∈ es, e.ino ≠ 0) (hl : name.length ≤ maxFnameLen) :
    sfsDirentSearchNolock i name s =
      .ok ((match es.find? (·.name = name) with
        | some e => .ok (es.findIdx (·.name = name), e.ino)
        | none => .error .noEnt, es.length), s) := by
  rw [sfsDirentSearchNolock, ensure_bind_apply, if_pos hl, bind_of_ok (getSin_apply hn), hb,
    direntSearchLoop_apply es _ h h0]
  simp only [Nat.zero_add]

/-- The search panics at the first slot behind the indirect block. -/
lemma sfsDirentSearchNolock_panics (hn : s.nodes i = some sin) (ht : sin.din.type = typeDir)
    (hb : maxBlocks < sin.din.blocks) (hlen : es.length = maxBlocks) (h : SlotsHold s i 0 es)
    (h0 : ∀ e ∈ es, e.ino ≠ 0 ∧ e.name ≠ name) (hl : name.length ≤ maxFnameLen) :
    ∃ p, sfsDirentSearchNolock i name s = .error p := by
  obtain ⟨p, -, e⟩ := sfsDirentReadNolock_panics hn ht hb le_rfl
  obtain ⟨m, hm⟩ := Nat.exists_eq_add_of_lt hb
  refine ⟨p, ?_⟩
  rw [sfsDirentSearchNolock, ensure_bind_apply, if_pos hl, bind_of_ok (getSin_apply hn), hm,
    Nat.add_assoc, ← hlen]
  refine direntSearchLoop_panics es _ m h h0 ?_
  rwa [hlen, Nat.zero_add]

/-- **`sfs_dirent_findino_nolock`** on a directory whose slots can all be read. -/
lemma sfsDirentFindinoNolock_apply (hn : s.nodes i = some sin) (hb : sin.din.blocks = es.length)
    (h : SlotsHold s i 0 es) (ino : ℕ) :
    sfsDirentFindinoNolock i ino s =
      .ok (match es.find? (·.ino = ino) with
        | some e => .ok e
        | none => .error .noEnt, s) := by
  rw [sfsDirentFindinoNolock, bind_of_ok (getSin_apply hn), hb, direntFindLoop_apply es ino h]

end Loops

end Ucore

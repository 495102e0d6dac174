import Ucore.Fs.Sfs.Dirent

set_option autoImplicit false

/-!
# Listing a directory (`lab8/kern/fs/file.c`, `lab8/kern/fs/sfs/sfs_inode.c`,
`lab8/kern/fs/iobuf.c`)

The offset of a `struct dirent` counts the entries that have been returned, in units of the size of
a name; the scan for the next one counts the slots of the directory, empty ones included.

## Main definitions

* `Dirent`, `NameIobuf`, `NameIobuf.move` — the buffers.
* `sfsGetdirentrySubNolock`, `sfsGetdirentry`, `fileGetdirentry` — the functions.
* `listDir` — repeated calls that feed back the offset.

## Main results

* `getdirentry_lists` — the calls return the used entries in the order of their slots.
-/

namespace Ucore

open Comp List

/-- `struct dirent`, with its name as a string. -/
structure Dirent where
  offset : ℤ
  name : List UInt8
  deriving DecidableEq, Repr

/-- `sizeof(((struct dirent *)0)->name)` -/
def direntNameSize : ℕ := maxFnameLen + 1

/-- `sfs_dentry_size` -/
def dentrySize : ℕ := maxFnameLen + 1

/-- `struct iobuf` on the name of a `struct dirent`; `data` is the string that has been moved to
`io_base`. -/
structure NameIobuf where
  data : List UInt8
  offset : ℤ
  len : ℕ
  resid : ℕ

/-- `iobuf_move` of a string that stands in a buffer of `len` bytes, from memory to the io
buffer. -/
def NameIobuf.move (iob : NameIobuf) (data : List UInt8) (len : ℕ) : Except Errno NameIobuf :=
  let alen := min iob.resid len
  if len - alen = 0 then .ok ⟨data.take alen, iob.offset + alen, iob.len, iob.resid - alen⟩
  else .error .noMem

/-- The loop of `sfs_getdirentry_sub_nolock` for the next `n` blocks, from block `k` on. -/
def getdirentryLoop (i : ℕ) : ℕ → ℕ → ℕ → Sfs (Except Errno SfsDiskEntry)
  | 0, _, _ => pure (.error .noEnt)
  | n + 1, k, slot =>
    (sfsDirentReadNolock i k).andThen fun entry =>
      if entry.ino ≠ 0 then
        if slot = 0 then pure (.ok entry) else getdirentryLoop i n (k + 1) (slot - 1)
      else getdirentryLoop i n (k + 1) slot

/-- `sfs_getdirentry_sub_nolock` -/
def sfsGetdirentrySubNolock (i slot : ℕ) : Sfs (Except Errno SfsDiskEntry) := do
  let sin ← getSin i
  getdirentryLoop i sin.din.blocks 0 slot

/-- `sfs_getdirentry`; `slot` is an `int`. -/
def sfsGetdirentry (i : ℕ) (iob : NameIobuf) : Sfs (Except Errno NameIobuf) := do
  let sin ← getSin i
  if iob.offset < 0 ∨ iob.offset % dentrySize ≠ 0 then pure (.error .inval)
  else
    let slot := (iob.offset / dentrySize).toNat % 2 ^ 32
    if sin.din.blocks < slot then pure (.error .noEnt)
    else (sfsGetdirentrySubNolock i slot).andThen fun entry => pure (iob.move entry.name dentrySize)

/-- `file_getdirentry` on a descriptor that leads to the inode `node`, if it is open; the `dirent`
changes if there is no error. -/
def fileGetdirentry (node : Option ℕ) (d : Dirent) : Sfs (Except Errno Dirent) :=
  match node with
  | none => pure (.error .inval)
  | some i =>
    (sfsGetdirentry i ⟨d.name, d.offset, direntNameSize, direntNameSize⟩).andThen fun iob =>
      pure (.ok ⟨d.offset + (iob.len - iob.resid : ℕ), iob.data⟩)

/-- At most `n` calls of `file_getdirentry` that feed back the offset: the names returned, and the
error that ended them. -/
def listDir (node : Option ℕ) : ℕ → Dirent → Sfs (List (List UInt8) × Option Errno)
  | 0, _ => pure ([], none)
  | n + 1, d => do
    match ← fileGetdirentry node d with
    | .error e => pure ([], some e)
    | .ok d => do
      let (names, e) ← listDir node n d
      pure (d.name :: names, e)

/-- The entries in the slots of a directory. -/
def SfsFs.slots (s : SfsFs) (i : ℕ) : List SfsDiskEntry :=
  (List.range (s.dinOf i).blocks).map fun k => decodeEntry (s.disk (s.bmapAt i k))

/-- The entries of a directory. -/
def SfsFs.entries (s : SfsFs) (i : ℕ) : List SfsDiskEntry := (s.slots i).filter (·.ino ≠ 0)

/-- **A directory** of a mounted volume: the slots are mapped to blocks in use. -/
structure DirInv (s : SfsFs) (i : ℕ) : Prop extends Mounted s where
  node : ∃ sin, s.nodes i = some sin
  type : (s.dinOf i).type = typeDir
  mapped : ∀ k < (s.dinOf i).blocks, InUse s (s.bmapAt i k)
  indirect : (s.dinOf i).indirect ≠ 0 → InUse s (s.dinOf i).indirect

section Listing

variable {s : SfsFs} {i : ℕ}

/-- A name fits into the buffer of a `dirent`. -/
lemma NameIobuf.move_name (data : List UInt8) (offset : ℤ) {name : List UInt8}
    (h : name.length ≤ dentrySize) :
    NameIobuf.move ⟨data, offset, direntNameSize, direntNameSize⟩ name dentrySize =
      .ok ⟨name, offset + dentrySize, direntNameSize, 0⟩ := by
  have hmin : min direntNameSize dentrySize = dentrySize := Nat.min_self _
  have htake : name.take dentrySize = name := take_of_length_le h
  simp only [NameIobuf.move, hmin, Nat.sub_self, if_true, htake]
  rfl

lemma DirInv.blocks_le_max (h : DirInv s i) : (s.dinOf i).blocks ≤ maxBlocks := by
  by_contra hc
  exact absurd (lt_of_mapAt_ne_zero (h.mapped maxBlocks (by omega)).ne_zero) (lt_irrefl _)

lemma DirInv.slotsHold (h : DirInv s i) : SlotsHold s i 0 (s.slots i) := by
  obtain ⟨sin, hn⟩ := h.node
  have hdin := dinOf_of_node hn
  intro j hj
  have hk : j < (s.dinOf i).blocks := by simpa [SfsFs.slots] using hj
  have hload := load_mapped h.toMounted hn (h.mapped j hk)
    (fun h0 => hdin ▸ (h.indirect (by rwa [hdin])).lt) (by rwa [← hdin])
  rw [Nat.zero_add, sfsDirentReadNolock_apply h.toMounted hn (by rw [← hdin, h.type])
    (by rwa [← hdin]) hload (h.mapped j hk)]
  simp [SfsFs.slots]

/-- **The loop of `sfs_getdirentry_sub_nolock`** returns the used entry with the number `slot`. -/
lemma getdirentryLoop_apply (es : List SfsDiskEntry) : ∀ {k : ℕ} (slot : ℕ), SlotsHold s i k es →
    getdirentryLoop i es.length k slot s =
      .ok (match (es.filter (·.ino ≠ 0))[slot]? with
        | some e => .ok e
        | none => .error .noEnt, s) := by
  induction es with
  | nil => exact fun _ _ => rfl
  | cons e es ih =>
    intro k slot h
    rw [length_cons, getdirentryLoop, andThen_of_ok h.head]
    by_cases h0 : e.ino ≠ 0
    · rw [if_pos h0, filter_cons_of_pos (by simpa using h0)]
      cases slot with
      | zero => rfl
      | succ slot => exact ih slot h.tail
    · rw [if_neg h0, filter_cons_of_neg (by simpa using h0)]
      exact ih slot h.tail

/-- **`file_getdirentry`** at the offset of the entry with the number `k`. -/
lemma fileGetdirentry_apply (h : DirInv s i) {k : ℕ} (hk : k ≤ (s.entries i).length)
    (name : List UInt8) :
    fileGetdirentry (some i) ⟨(dentrySize * k : ℕ), name⟩ s =
      .ok (match (s.entries i)[k]? with
        | some e => .ok ⟨(dentrySize * (k + 1) : ℕ), e.name⟩
        | none => .error .noEnt, s) := by
  obtain ⟨sin, hn⟩ := h.node
  have hdin := dinOf_of_node hn
  have hlen : (s.slots i).length = sin.din.blocks := by simp [SfsFs.slots, hdin]
  have hle : k ≤ sin.din.blocks := by
    rw [← hlen]
    exact hk.trans (length_filter_le ..)
  have hmax := h.blocks_le_max
  rw [hdin] at hmax
  unfold maxBlocks nDirect blkNentry at hmax
  have hslot : (((dentrySize * k : ℕ) : ℤ) / dentrySize).toNat % 2 ^ 32 = k := by
    unfold dentrySize maxFnameLen
    omega
  have hloop := getdirentryLoop_apply (s.slots i) k h.slotsHold
  rw [hlen] at hloop
  have hsub : sfsGetdirentrySubNolock i k s = .ok (match (s.entries i)[k]? with
      | some e => .ok e
      | none => .error .noEnt, s) := by
    rw [sfsGetdirentrySubNolock, bind_of_ok (getSin_apply hn)]
    exact hloop
  have hcheck : ¬(((dentrySize * k : ℕ) : ℤ) < 0 ∨
      ((dentrySize * k : ℕ) : ℤ) % dentrySize ≠ 0) := by
    unfold dentrySize maxFnameLen
    omega
  have hget : ∀ iob : NameIobuf, iob.offset = (dentrySize * k : ℕ) → sfsGetdirentry i iob s =
      (sfsGetdirentrySubNolock i k).andThen
      (fun entry => pure (iob.move entry.name dentrySize)) s := by
    intro iob e
    rw [sfsGetdirentry, bind_of_ok (getSin_apply hn), e, if_neg hcheck]
    simp only [hslot]
    rw [if_neg (by omega)]
  rw [fileGetdirentry]
  cases he : (s.entries i)[k]? with
  | none =>
    rw [he] at hsub
    exact andThen_of_fail ((hget _ rfl).trans (andThen_of_fail hsub _)) _
  | some e =>
    rw [he] at hsub
    have hname : e.name.length ≤ dentrySize := by
      have hmem : e ∈ s.slots i := mem_of_mem_filter (mem_of_getElem? he)
      obtain ⟨j, -, rfl⟩ := mem_map.mp hmem
      exact Bytes.length_cstr_le ..
    have hmove := (hget ⟨name, (dentrySize * k : ℕ), direntNameSize, direntNameSize⟩ rfl).trans
      (andThen_of_ok hsub _)
    rw [NameIobuf.move_name _ _ hname] at hmove
    refine (andThen_of_ok hmove _).trans ?_
    have hoff : ((dentrySize * k : ℕ) : ℤ) + (direntNameSize - 0 : ℕ) =
        (dentrySize * (k + 1) : ℕ) := by
      unfold dentrySize direntNameSize maxFnameLen
      omega
    rw [← hoff]
    rfl

/-- From the entry with the number `k` on, the calls return the names of the remaining entries. -/
lemma listDir_from (h : DirInv s i) (n : ℕ) {k : ℕ} (hk : k ≤ (s.entries i).length)
    (hn : (s.entries i).length < k + n) (name : List UInt8) :
    listDir (some i) n ⟨(dentrySize * k : ℕ), name⟩ s =
      .ok ((((s.entries i).drop k).map (·.name), some .noEnt), s) := by
  induction n generalizing k name with
  | zero => omega
  | succ n ih =>
    have hget := fileGetdirentry_apply h hk name
    rw [listDir]
    rcases hk.eq_or_lt with rfl | hlt
    · rw [List.getElem?_eq_none le_rfl] at hget
      rw [bind_of_ok hget, drop_length]
      rfl
    · rw [List.getElem?_eq_getElem hlt] at hget
      rw [bind_of_ok hget, drop_eq_getElem_cons hlt]
      exact bind_of_ok (ih hlt (by omega) _) _

/-- **The listing of a directory is complete and duplicate-free**: calls that start at the offset 0
and feed back the returned offset give the names of the used slots, each once and in order, and then
`-E_NOENT`. Other offsets than multiples of the size of a name are rejected. Nothing changes. -/
theorem getdirentry_lists (s : SfsFs) (i : ℕ) (h : DirInv s i) (name : List UInt8) :
    (∀ n, (s.entries i).length < n → listDir (some i) n ⟨0, name⟩ s =
      .ok (((s.entries i).map (·.name), some .noEnt), s)) ∧
    ∀ d : Dirent, d.offset < 0 ∨ d.offset % dentrySize ≠ 0 →
      fileGetdirentry (some i) d s = .ok (.error .inval, s) := by
  refine ⟨fun n hn => ?_, fun d hd => ?_⟩
  · have hlist := listDir_from h n (Nat.zero_le _) (by omega) name
    rwa [drop_zero] at hlist
  · obtain ⟨sin, hnode⟩ := h.node
    refine andThen_of_fail ?_ _
    rw [sfsGetdirentry, bind_of_ok (getSin_apply hnode), if_pos hd]
    rfl

/-- A directory whose two slots hold entries of the inodes 7 and 0. -/
def twoSlots : SfsFs :=
  { oneFile 0xFFFFFFE0#32 { directFile 2 8192 with type := typeDir } with
    disk := fun b j => if b = 3 ∧ j = 0 then 7 else if j = 4 then 97 else 0 }

/-- The directory with one used slot is listed. -/
theorem getdirentry_lists_twoSlots :
    listDir (some 2) 2 ⟨0, []⟩ twoSlots = .ok (([[97]], some .noEnt), twoSlots) := by
  have hm : Mounted (oneFile 0xFFFFFFE0#32 { directFile 2 8192 with type := typeDir }) :=
    oneFile_mounted (by decide)
  have h : DirInv twoSlots 2 := by
    refine ⟨{ hm with }, ⟨_, rfl⟩, rfl, ?_, ?_⟩
    · intro k hk
      have hk' : k = 0 ∨ k = 1 := by
        have : k < 2 := hk
        omega
      have hmap : twoSlots.bmapAt 2 k = 3 + k := by rcases hk' with rfl | rfl <;> rfl
      rw [hmap]
      refine ⟨by omega, show 3 + k < 32 by omega, fun hfree => ?_⟩
      have hbit := ((@mem_free_oneFile (directFile 2 8192) _ _).mp hfree).2
      rcases hk' with rfl | rfl <;> simp at hbit
    · exact fun h0 => absurd rfl h0
  exact (getdirentry_lists twoSlots 2 h []).1 2 (by decide)

end Listing

end Ucore

import Ucore.Fs.Sfs.Dirent
import Ucore.Tools.MksfsAgree

set_option autoImplicit false

/-!
# Directories of a built image

A directory is built by a sequence of calls of `add_entry`, with other steps of the builder in
between. Each call writes `sizeof(entry->name)` bytes of the entry, which starts with the inode
number: the last four bytes of the name are not written.

## Main definitions

* `entriesOf` — the entries that the steps of the builder add to a directory.
* `DirsHold` — the directories hold the entries that have been added.
* `storedEntry` — what is left of an entry.
* `DirAgrees` — the kernel finds the entries of a directory.

## Main results

* `decodeEntry_fillEntry` — the kernel reads the first 252 bytes of a name.
* `entries_survive_iff` — the kernel finds the entries iff no name is longer and the indirect
  block suffices for the entries.
-/

namespace Ucore

open Function Comp List Bytes

/-! ## Entries -/

/-- The entry that a step adds to the directory `d`. -/
def BuildOp.entryOf (d : ℕ) : BuildOp → Option SfsDiskEntry
  | .entry current f name => if current = d then some ⟨f, name⟩ else none
  | _ => none

/-- The entries that are added to the directory `d`. -/
def entriesOf (d : ℕ) (ops : List BuildOp) : List SfsDiskEntry := ops.filterMap (BuildOp.entryOf d)

/-! ## What the directories hold -/

/-- **The blocks of the directory `d`** are what `add_entry` writes for the entries `es`. -/
structure EntriesHold (s : MkSfs) (d : ℕ) (es : List SfsDiskEntry) : Prop where
  length : (s.appended d).length = es.length
  image : ∀ k (h : k < es.length), ∃ entry, s.image ((s.appended d).getD k 0) =
    padded (fillEntry entry (es.get ⟨k, h⟩).ino (es.get ⟨k, h⟩).name) entryNameSize

/-- The directories hold the entries `es`, and these refer to inodes. -/
structure DirsHold (s : MkSfs) (es : ℕ → List SfsDiskEntry) : Prop where
  fresh : ∀ d, s.inodeOf d = none → es d = []
  holds : ∀ d ci, s.inodeOf d = some ci → ci.inode.type = typeDir → EntriesHold s d (es d)
  known : ∀ d, ∀ e ∈ es d, s.inodeOf e.ino ≠ none
  names : ∀ d, ∀ e ∈ es d, e.name.length ≤ maxFnameLen

section Steps

variable {s t u : MkSfs} {d f n : ℕ} {ci : CacheInode} {es : ℕ → List SfsDiskEntry}
  {l : List SfsDiskEntry}

section

variable (hd : EntriesHold s d l) (h : MkInv s) (himage : ∀ b < s.nextIno, t.image b = s.image b)
include hd h himage

lemma EntriesHold.keep (ha : t.appended d = s.appended d) : EntriesHold t d l := by
  refine ⟨by rw [ha]; exact hd.length, fun k hk => ?_⟩
  obtain ⟨entry, he⟩ := hd.image k hk
  refine ⟨entry, ?_⟩
  rw [ha, ← he]
  exact himage _ (h.ref_lt (.data d k))

/-- One more entry. -/
lemma EntriesHold.append (ha : t.appended d = s.appended d ++ [s.nextIno]) {entry : Bytes}
    {e : SfsDiskEntry}
    (hb : t.image s.nextIno = padded (fillEntry entry e.ino e.name) entryNameSize) :
    EntriesHold t d (l ++ [e]) := by
  refine ⟨by rw [ha, length_append, length_append, hd.length]; rfl, fun k hk => ?_⟩
  rw [ha, getD_append_one, hd.length]
  by_cases hkl : k = l.length
  · subst hkl
    refine ⟨entry, ?_⟩
    rw [if_pos rfl, hb]
    simp
  · have hlt : k < l.length := by
      rw [length_append, length_singleton] at hk
      omega
    obtain ⟨entry', he⟩ := hd.image k hlt
    refine ⟨entry', ?_⟩
    rw [if_neg hkl]
    refine (himage _ (h.ref_lt (.data d k))).trans (he.trans ?_)
    simp [getElem_append_left hlt]

end

/-- A new inode. -/
lemma DirsHold.keep (hd : DirsHold s es) (h : MkInv s) (hk : KeepsOthers s s.nextIno t)
    (hc : t.inodeOf s.nextIno = some ci)
    (ha : ci.inode.type = typeDir → t.appended s.nextIno = []) : DirsHold t es := by
  have hnone := h.inodeOf_next
  have hold : ∀ g, t.inodeOf g = none → s.inodeOf g = none := by
    intro g hg
    by_cases hgn : g = s.nextIno
    · rwa [hgn]
    · rwa [(hk.other g hgn).1] at hg
  refine ⟨fun g hg => hd.fresh g (hold g hg), fun g cg hg ht => ?_, fun g e he hn => ?_, hd.names⟩
  · by_cases hgn : g = s.nextIno
    · subst hgn
      cases hc.symm.trans hg
      rw [hd.fresh _ hnone]
      refine ⟨by rw [ha ht]; rfl, fun k hk => absurd hk (Nat.not_lt_zero k)⟩
    · rw [(hk.other g hgn).1] at hg
      exact (hd.holds g cg hg ht).keep h hk.image (hk.other g hgn).2
  · exact hd.known g e he (hold _ hn)

lemma DirsHold.ino_bounds (hd : DirsHold s es) (h : MkInv s) (d : ℕ) :
    ∀ e ∈ es d, e.ino ≠ 0 ∧ e.ino < 2 ^ 32 := by
  intro e he
  have hcached := hd.known d e he
  exact ⟨h.node _ hcached, h.lt_word (h.inode_bounds hcached).2.2.le⟩

/-- **`add_entry`** adds an entry to one directory. -/
lemma DirsHold.entry (hd : DirsHold s es) (h : MkInv s) {current file : ℕ}
    {name : List UInt8} {r : Unit} (hfile : s.inodeOf file ≠ none)
    (e : addEntry current file name s = .ok (r, t)) :
    MkInv t ∧ DirsHold t (update es current (es current ++ [⟨file, name⟩])) := by
  have hnone := addEntry_none h e
  obtain ⟨ci, u, hf, htype, hlen, e1, rfl⟩ := addEntry_inv e
  obtain ⟨-, hk, hinv, ha, hb, -, c, hc, -, -, hct⟩ := storeBlock_post
    (h.setEntry (fillEntry s.entry file name)) hf _ _ _ u e1
  have hcur : ∀ g, s.inodeOf g = none → g ≠ current := by
    rintro g hg rfl
    rw [hf] at hg
    cases hg
  refine ⟨hinv.link file, fun g hg => ?_, fun g cg hg ht => ?_, fun g x hx => ?_, fun g x hx => ?_⟩
  · have hs := (hnone g).mp hg
    rw [update_of_ne (hcur g hs)]
    exact hd.fresh g hs
  · by_cases hgc : g = current
    · subst hgc
      rw [update_self]
      have hb' : u.image s.nextIno = padded (fillEntry s.entry
        (SfsDiskEntry.mk file name).ino (SfsDiskEntry.mk file name).name) entryNameSize := hb
      have hnew := (hd.holds g ci hf htype).append h hk.image ha hb'
      exact ⟨hnew.length, hnew.image⟩
    · rw [update_of_ne hgc]
      obtain ⟨cu, hcu, htu⟩ : ∃ cu, u.inodeOf g = some cu ∧ cu.inode.type = typeDir := by
        by_cases hgf : g = file
        · subst hgf
          obtain ⟨cu, hcu⟩ := Option.ne_none_iff_exists'.mp
            fun hn => hfile ((hnone g).mp (modInode_eq_none.mpr hn))
          rw [modInode_self hcu] at hg
          cases hg
          exact ⟨cu, hcu, ht⟩
        · rw [modInode_of_ne hgf] at hg
          exact ⟨cg, hg, ht⟩
      rw [(hk.other g hgc).1] at hcu
      have hold := (hd.holds g cu hcu htu).keep h hk.image (hk.other g hgc).2
      exact ⟨hold.length, hold.image⟩
  · rw [ne_eq, hnone]
    by_cases hgc : g = current
    · rw [hgc, update_self] at hx
      rcases mem_append.mp hx with hx | hx
      · exact hd.known _ x hx
      · rw [mem_singleton.mp hx]
        exact hfile
    · rw [update_of_ne hgc] at hx
      exact hd.known g x hx
  · by_cases hgc : g = current
    · rw [hgc, update_self] at hx
      rcases mem_append.mp hx with hx | hx
      · exact hd.names _ x hx
      · rw [mem_singleton.mp hx]
        exact hlen
    · rw [update_of_ne hgc] at hx
      exact hd.names g x hx

/-- **One step of the builder.** -/
lemma BuildOp.run_post (op : BuildOp) (h : MkInv s) (hd : DirsHold s es) :
    Post op.run s fun _ t => MkInv t ∧ DirsHold t fun d => es d ++ (op.entryOf d).toList := by
  intro _ t e
  rcases op.run_cases h e with ⟨ci, hk, hinv, hc, ha, -, hne⟩ | ⟨current, file, name, rfl, hfile, e⟩
  · have hnone : ∀ d, op.entryOf d = none := by
      cases op with
      | entry current file name => exact absurd rfl (hne current file name)
      | _ => exact fun _ => rfl
    simp only [hnone, Option.toList_none, append_nil]
    exact ⟨hinv, hd.keep h hk hc ha⟩
  · obtain ⟨hinv, hdirs⟩ := hd.entry h hfile e
    refine ⟨hinv, ?_⟩
    convert hdirs using 1
    funext g
    by_cases hg : current = g
    · subst hg
      simp [BuildOp.entryOf]
    · simp [BuildOp.entryOf, hg, update_of_ne (Ne.symm hg)]

/-- **A run of the builder.** -/
lemma forEach_run_post (ops : List BuildOp) : ∀ {s : MkSfs} {es : ℕ → List SfsDiskEntry}, MkInv s →
    DirsHold s es → Post (Comp.forEach ops BuildOp.run) s fun _ t =>
      MkInv t ∧ DirsHold t fun d => es d ++ entriesOf d ops := by
  induction ops with
  | nil =>
    intro s es h hd _ t e
    cases e
    refine ⟨h, ?_⟩
    simpa only [entriesOf, filterMap_nil, append_nil] using hd
  | cons op ops ih =>
    intro s es h hd _ t e
    obtain ⟨_, u, e1, e2⟩ := bind_eq_ok.mp e
    obtain ⟨hu, hdu⟩ := op.run_post h hd _ u e1
    obtain ⟨ht, hdt⟩ := ih hu hdu _ t e2
    refine ⟨ht, ?_⟩
    convert hdt using 2 with g
    rw [append_assoc, entriesOf, entriesOf, filterMap_cons]
    cases op.entryOf g <;> rfl

end Steps

lemma rootSfs_dirsHold (ninos : ℕ) (image : ℕ → Bytes) :
    DirsHold (rootSfs ninos image) fun _ => [] where
  fresh _ _ := rfl
  holds _ _ _ _ := ⟨rfl, fun k hk => absurd hk (Nat.not_lt_zero k)⟩
  known _ _ he := absurd he not_mem_nil
  names _ _ he := absurd he not_mem_nil

/-! ## What the kernel reads -/

/-- The number of bytes of a name that are written. -/
def storedNameLen : ℕ := entryNameSize - 4

/-- What is left of an entry. -/
def storedEntry (e : SfsDiskEntry) : SfsDiskEntry := ⟨e.ino, e.name.take storedNameLen⟩

/-- **The kernel reads the first bytes of the name.**

**Proof sketch.** The bytes of the name start at offset 4 of the buffer, so the first 252 of them
are among the 256 bytes that are written. A shorter name is followed by its zero, a longer one by
the padding of the block. -/
lemma decodeEntry_fillEntry (entry : Bytes) {ino : ℕ} (hino : ino < 2 ^ 32) {name : List UInt8}
    (h0 : 0 ∉ name) :
    decodeEntry (padded (fillEntry entry ino name) entryNameSize) = storedEntry ⟨ino, name⟩ := by
  have hbyte : ∀ k < storedNameLen, padded (fillEntry entry ino name) entryNameSize (4 + k) =
      if k < name.length + 1 then name.getD k 0 else entry (4 + k) := by
    intro k hk
    unfold storedNameLen entryNameSize maxFnameLen at hk
    rw [padded, copy_of_mem _ _ (Nat.zero_le _) (by unfold entryNameSize maxFnameLen; omega),
      fillEntry]
    by_cases hkn : k < name.length + 1
    · rw [copy_of_mem _ _ (by omega) (by omega), if_pos hkn, Bytes.ofList]
      congr 1
      omega
    · rw [copy_of_notMem _ _ (by omega), if_neg hkn, Nat.zero_add, Nat.sub_zero]
      exact if_neg (by omega)
  unfold decodeEntry storedEntry
  congr 1
  · rw [padded, get32_copy _ _ le_rfl (by decide), fillEntry,
      get32_copy_of_disjoint _ _ (Or.inl (by omega)), get32_put32 _ _ hino]
  · have htake : (name.take storedNameLen).length = min storedNameLen name.length := length_take
    have hstored : storedNameLen = 252 := rfl
    refine cstr_of_terminated _ (fun hm => h0 (mem_of_mem_take hm)) (fun k hk => ?_) ?_ ?_
    · have hk1 : k < storedNameLen := by omega
      have hk2 : k < name.length := by omega
      rw [update_of_ne (by unfold maxFnameLen; omega), hbyte k hk1, if_pos (by omega),
        getD_eq_getElem _ _ hk2, getD_eq_getElem _ _ hk, getElem_take]
    · rw [update_of_ne (by unfold maxFnameLen; omega)]
      rcases lt_or_ge name.length storedNameLen with hlt | hge
      · rw [htake, min_eq_right hlt.le, hbyte _ hlt, if_pos (Nat.lt_succ_self _),
          getD_eq_default _ _ le_rfl]
      · rw [htake, min_eq_left hge, padded, copy_of_notMem _ _ (Or.inr (by decide))]
        rfl
    · unfold maxFnameLen
      omega

/-- **The kernel finds the entries of a directory**: every name with its inode number, no other
name, and for every inode number one of its names. -/
structure DirAgrees (k : SfsFs) (d : ℕ) (es : List SfsDiskEntry) : Prop where
  found : ∀ e ∈ es, ∃ slot empty,
    sfsDirentSearchNolock d e.name k = .ok ((.ok (slot, e.ino), empty), k)
  absent : ∀ name : List UInt8, name.length ≤ maxFnameLen → name ∉ es.map SfsDiskEntry.name →
    ∃ empty, sfsDirentSearchNolock d name k = .ok ((.error .noEnt, empty), k)
  findino : ∀ e ∈ es, ∃ e' ∈ es, e'.ino = e.ino ∧
    sfsDirentFindinoNolock d e.ino k = .ok (.ok e', k)

/-- The names of the entries are strings, and distinct. -/
structure ProperNames (es : List SfsDiskEntry) : Prop where
  nodup : (es.map SfsDiskEntry.name).Nodup
  strings : ∀ e ∈ es, 0 ∉ e.name

section View

variable {s : MkSfs} {fs : SfsFs} {d : ℕ} {ci : CacheInode} {es : List SfsDiskEntry}

section

variable (x : Holding s fs) (h : MkInv s) (hd : s.inodeOf d = some ci)
  (ht : ci.inode.type = typeDir) (hes : EntriesHold s d es) (hp : ProperNames es)
include x h hd ht hes hp

/-- **The slots of a directory**, as far as the indirect block reaches. -/
lemma Holding.slotsHold (hino : ∀ e ∈ es, e.ino < 2 ^ 32) :
    SlotsHold (fs.loaded d) d 0 ((es.take maxBlocks).map storedEntry) := by
  intro j hj
  rw [length_map, length_take] at hj
  have hmax : j < maxBlocks := by omega
  have hlen : j < es.length := by omega
  have hja : j < (s.appended d).length := by rwa [hes.length]
  have hmem : es.get ⟨j, hlen⟩ ∈ es := get_mem _ _
  obtain ⟨image, hc, hdisk⟩ := x.image
  obtain ⟨entry, he⟩ := hes.image j hlen
  have h0 := Holding.appended_ne_zero h hja
  have hlt := (h.ref_lt (.data d j)).trans_le h.next
  have hblock : (fs.loaded d).disk ((s.appended d).getD j 0) =
      padded (fillEntry entry (es.get ⟨j, hlen⟩).ino (es.get ⟨j, hlen⟩).name) entryNameSize := by
    rw [← he]
    exact (hdisk _ hlt).trans (hc.data d j h0)
  have hdin := x.din h hd
  have hread := sfsDirentReadNolock_apply x.mounted.loaded (loaded_node fs d)
    (by rw [hdin]; exact ht) (by rw [hdin, (h.maps d ci hd).blocks]; exact hja)
    (x.load_apply h hd hja hmax) (x.inUse h h0)
  rw [zero_add, hread, hblock, decodeEntry_fillEntry entry (hino _ hmem) (hp.strings _ hmem)]
  simp

/-- A name that no slot has is not found. -/
lemma Holding.not_found (hino : ∀ e ∈ es, e.ino ≠ 0 ∧ e.ino < 2 ^ 32) {name : List UInt8}
    (hl : name.length ≤ maxFnameLen) (hne : ∀ e ∈ es.take maxBlocks, (storedEntry e).name ≠ name)
    (slot ino empty : ℕ) :
    sfsDirentSearchNolock d name (fs.loaded d) ≠ .ok ((.ok (slot, ino), empty), fs.loaded d) := by
  have hslots := x.slotsHold h hd ht hes hp fun e he => (hino e he).2
  have hdin := x.din h hd
  have hblocks : (decodeInode (fs.disk d)).blocks = es.length := by
    rw [hdin, (h.maps d ci hd).blocks, hes.length]
  have hne' : ∀ e ∈ (es.take maxBlocks).map storedEntry, e.ino ≠ 0 ∧ e.name ≠ name := by
    intro e he
    obtain ⟨e', he', rfl⟩ := mem_map.mp he
    exact ⟨(hino e' (mem_of_mem_take he')).1, hne e' he'⟩
  rcases lt_or_ge maxBlocks es.length with hlt | hge
  · obtain ⟨p, e⟩ := sfsDirentSearchNolock_panics (loaded_node fs d) (by rw [hdin]; exact ht)
      (by rw [hblocks]; exact hlt) (by rw [length_map, length_take]; omega) hslots hne' hl
    rw [e]
    exact fun hc => nomatch hc
  · have e := sfsDirentSearchNolock_apply (loaded_node fs d)
      (by rw [hblocks, length_map, length_take]; omega) hslots (fun e he => (hne' e he).1) hl
    have hnone : ((es.take maxBlocks).map storedEntry).find? (·.name = name) = none := by
      rw [List.find?_eq_none]
      intro e he
      simpa using (hne' e he).2
    rw [e, hnone]
    exact fun hc => nomatch hc

/-- **The kernel finds the entries** iff no name is cut and the indirect block suffices.

**Proof sketch.** A name that is cut is in no slot. If no name is cut, the name of the first entry
behind the indirect block is in no slot that can be read, since names are distinct. -/
lemma Holding.dirAgrees_iff (hino : ∀ e ∈ es, e.ino ≠ 0 ∧ e.ino < 2 ^ 32)
    (hlen : ∀ e ∈ es, e.name.length ≤ maxFnameLen) : DirAgrees (fs.loaded d) d es ↔
      es.length ≤ maxBlocks ∧ ∀ e ∈ es, e.name.length ≤ storedNameLen := by
  constructor
  · intro hA
    have hshort : ∀ e ∈ es, e.name.length ≤ storedNameLen := by
      intro e he
      by_contra hc
      obtain ⟨slot, empty, hf⟩ := hA.found e he
      refine x.not_found h hd ht hes hp hino (hlen e he) (fun e' _ heq => hc ?_) slot e.ino empty hf
      rw [← heq]
      exact length_take_le _ _
    refine ⟨?_, hshort⟩
    by_contra hc
    have hlt : maxBlocks < es.length := by omega
    have hmem : es.get ⟨maxBlocks, hlt⟩ ∈ es := get_mem _ _
    obtain ⟨slot, empty, hf⟩ := hA.found _ hmem
    refine x.not_found h hd ht hes hp hino (hlen _ hmem) (fun e' he' heq => ?_) slot _ empty hf
    obtain ⟨j, hj, rfl⟩ := mem_take_iff_getElem.mp he'
    have hj' : j < es.length := by omega
    have hname : es[j].name = es[maxBlocks].name := by
      rw [storedEntry, take_of_length_le (hshort _ (getElem_mem hj'))] at heq
      exact heq
    have hmm : maxBlocks < (es.map SfsDiskEntry.name).length := by simpa using hlt
    have heq' : (es.map SfsDiskEntry.name)[j] = (es.map SfsDiskEntry.name)[maxBlocks] := by
      simpa using hname
    have := hp.nodup.getElem_inj_iff.mp heq'
    omega
  · rintro ⟨hmax, hshort⟩
    have hall : (es.take maxBlocks).map storedEntry = es := by
      rw [take_of_length_le hmax]
      refine (map_congr_left fun e he => ?_).trans (map_id es)
      rw [storedEntry, take_of_length_le (hshort e he)]
      rfl
    have hslots := x.slotsHold h hd ht hes hp fun e he => (hino e he).2
    rw [hall] at hslots
    have hblocks : (decodeInode (fs.disk d)).blocks = es.length := by
      rw [x.din h hd, (h.maps d ci hd).blocks, hes.length]
    have hsearch : ∀ name : List UInt8, name.length ≤ maxFnameLen → _ := fun name hl =>
      sfsDirentSearchNolock_apply (loaded_node fs d) hblocks hslots (fun e he => (hino e he).1) hl
    refine ⟨fun e he => ?_, fun name hl hn => ?_, fun e he => ?_⟩
    · obtain ⟨e', he'⟩ : ∃ e', es.find? (·.name = e.name) = some e' :=
        Option.isSome_iff_exists.mp (List.find?_isSome.mpr ⟨e, he, by simp⟩)
      have hname : e'.name = e.name := by simpa using List.find?_some he'
      obtain rfl : e' = e := inj_on_of_nodup_map hp.nodup (mem_of_find?_eq_some he') he hname
      have := hsearch e'.name (hlen e' he)
      rw [he'] at this
      exact ⟨_, _, this⟩
    · have hnone : es.find? (·.name = name) = none := by
        rw [List.find?_eq_none]
        intro e he heq
        exact hn (mem_map.mpr ⟨e, he, by simpa using heq⟩)
      have := hsearch name hl
      rw [hnone] at this
      exact ⟨_, this⟩
    · obtain ⟨e', he'⟩ : ∃ e', es.find? (·.ino = e.ino) = some e' :=
        Option.isSome_iff_exists.mp (List.find?_isSome.mpr ⟨e, he, by simp⟩)
      refine ⟨e', mem_of_find?_eq_some he', by simpa using List.find?_some he', ?_⟩
      rw [sfsDirentFindinoNolock_apply (loaded_node fs d) hblocks hslots, he']

end

end View

/-- **Directory entries survive the image builder** iff no name has more than 252 bytes and there
are at most `SFS_NDIRECT + SFS_BLK_NENTRY` entries. The empty image is built, any steps of the
builder follow, the image is closed and mounted, and a directory is read from its block. -/
theorem entries_survive_iff {imgSize : ℕ} {image : ℕ → Bytes} {s t : MkSfs} {ops : List BuildOp}
    (hc : createSfs imgSize image = .ok s) (hr : Comp.forEach ops BuildOp.run s = .ok ((), t)) :
    ∃ u, closeSfs t = .ok ((), u) ∧ ∀ dev : SfsDevice, dev.dBlocksize = blkSize → dev.faults = [] →
      t.super.blocks ≤ dev.dBlocks → (∀ b < t.super.blocks, dev.disk b = u.image b) →
      ∃ fs, sfsDoMount dev = .ok (.ok fs, dev) ∧
        ∀ d ci, t.inodeOf d = some ci → ci.inode.type = typeDir →
          (ci.inode.nlinks ≠ 0 → sfsLoadInode d fs = .ok (.ok (), fs.loaded d)) ∧
          (ProperNames (entriesOf d ops) →
            (DirAgrees (fs.loaded d) d (entriesOf d ops) ↔ (entriesOf d ops).length ≤ maxBlocks ∧
              ∀ e ∈ entriesOf d ops, e.name.length ≤ storedNameLen)) := by
  have hs : MkInv s ∧ DirsHold s fun _ => [] := by
    refine ⟨(createSfs_built hc ⟨fun _ => []⟩).1.inv, ?_⟩
    rw [createSfs_eq] at hc
    split_ifs at hc
    cases hc
    exact rootSfs_dirsHold _ _
  obtain ⟨ht, hdirs⟩ := forEach_run_post ops hs.1 hs.2 _ t hr
  have hblocks : t.super.blocks = t.ninos := by rw [ht.super]
  refine ⟨_, closeSfs_apply ht, fun dev h1 h2 h3 h4 => ?_⟩
  rw [hblocks] at h3 h4
  obtain ⟨fs, e, x, hnone⟩ := ht.holding ht.closed h1 h2 h3 h4
  refine ⟨fs, e, fun d ci hd htype => ⟨fun hl => ?_, fun hp => ?_⟩⟩
  · exact x.load ht hd (congrFun hnone d) hl (.inl htype)
  · exact x.dirAgrees_iff ht hd htype (hdirs.holds d ci hd htype) hp (hdirs.ino_bounds ht d)
      (hdirs.names d)

/-- The root directory with its entries `.` and `..`. -/
theorem entries_survive_dots : ∃ s t u fs,
    createSfs 81920 (fun _ => Bytes.zero) = .ok s ∧
    Comp.forEach [.entry 1 1 dotName, .entry 1 1 dotdotName] BuildOp.run s = .ok ((), t) ∧
    closeSfs t = .ok ((), u) ∧
    sfsDoMount ⟨20, 4096, u.image, []⟩ = .ok (.ok fs, ⟨20, 4096, u.image, []⟩) ∧
    sfsLoadInode 1 fs = .ok (.ok (), fs.loaded 1) ∧
    DirAgrees (fs.loaded 1) 1 [⟨1, dotName⟩, ⟨1, dotdotName⟩] := by
  obtain ⟨s, hs⟩ : ∃ s, createSfs 81920 (fun _ => Bytes.zero) = .ok s := ⟨_, rfl⟩
  obtain ⟨t, ht, hb, ci, hd, htype, hl⟩ : ∃ t,
      Comp.forEach [.entry 1 1 dotName, .entry 1 1 dotdotName] BuildOp.run s = .ok ((), t) ∧
        t.super.blocks = 20 ∧ ∃ ci, t.inodeOf 1 = some ci ∧ ci.inode.type = typeDir ∧
        ci.inode.nlinks = 2 := by
    cases hs
    exact ⟨_, rfl, rfl, _, rfl, rfl, rfl⟩
  obtain ⟨u, hu, hm⟩ := entries_survive_iff hs ht
  obtain ⟨fs, em, hfs⟩ := hm ⟨20, 4096, u.image, []⟩ rfl rfl hb.le fun _ _ => rfl
  obtain ⟨hload, hag⟩ := hfs 1 ci hd htype
  refine ⟨s, t, u, fs, hs, ht, hu, em, hload (by rw [hl]; decide), (hag ⟨?_, ?_⟩).mpr ⟨?_, ?_⟩⟩
  · decide
  · decide
  · decide
  · decide

/-- A name of 253 bytes. -/
def longName : List UInt8 := List.replicate 253 97

/-- The root directory with its entries, and a file with a long name. -/
def longNameOps : List BuildOp :=
  [.entry 1 1 dotName, .entry 1 1 dotdotName, .file 1 [], .entry 1 5 longName]

/-- The steps return. -/
lemma longNameOps_run : ∃ t ci,
    Comp.forEach longNameOps BuildOp.run (rootSfs 20 fun _ => Bytes.zero) = .ok ((), t) ∧
      t.super.blocks = 20 ∧ t.inodeOf 1 = some ci ∧ ci.inode.type = typeDir ∧
      ci.inode.nlinks = 2 := by
  have h : ((Comp.forEach longNameOps BuildOp.run (rootSfs 20 fun _ => Bytes.zero)).toOption.map
    fun r =>
      (r.2.super.blocks, (r.2.inodeOf 1).map fun ci => (ci.inode.type, ci.inode.nlinks))) =
      some (20, some (typeDir, 2)) := by decide +kernel
  obtain ⟨⟨_, t⟩, hr, h⟩ := Comp.exists_ok h
  obtain ⟨hb, h⟩ := Prod.mk.inj h
  obtain ⟨ci, hd, h⟩ := Option.map_eq_some_iff.mp h
  exact ⟨t, ci, hr, hb, hd, Prod.mk.inj h⟩

/-- **A name that is cut**: the root directory has distinct names of at most `SFS_MAX_FNAME_LEN`
bytes, and the kernel does not find them. -/
theorem entries_lost : ∃ s t u fs,
    createSfs 81920 (fun _ => Bytes.zero) = .ok s ∧
    Comp.forEach longNameOps BuildOp.run s = .ok ((), t) ∧ closeSfs t = .ok ((), u) ∧
    sfsDoMount ⟨20, 4096, u.image, []⟩ = .ok (.ok fs, ⟨20, 4096, u.image, []⟩) ∧
    sfsLoadInode 1 fs = .ok (.ok (), fs.loaded 1) ∧ ProperNames (entriesOf 1 longNameOps) ∧
    (∀ e ∈ entriesOf 1 longNameOps, e.name ≠ [] ∧ e.name.length ≤ maxFnameLen) ∧
    ¬DirAgrees (fs.loaded 1) 1 (entriesOf 1 longNameOps) := by
  obtain ⟨t, ci, hr, hb, hd, htype, hl⟩ := longNameOps_run
  have hroot : MkInv (rootSfs 20 fun _ => Bytes.zero) :=
    (rootSfs_built ⟨fun _ => []⟩ (by decide) (by decide)).inv
  obtain ⟨ht, hdirs⟩ := forEach_run_post longNameOps hroot (rootSfs_dirsHold _ _) _ t hr
  have hninos : t.ninos = 20 := by rw [← hb, ht.super]
  let dev : SfsDevice := ⟨20, 4096, writeAll t.image (closeWrites t), []⟩
  obtain ⟨fs, em, x, hnone⟩ := ht.holding ht.closed (show dev.dBlocksize = blkSize from rfl) rfl
    hninos.le fun _ _ => rfl
  have hp : ProperNames (entriesOf 1 longNameOps) := ⟨by decide +kernel, by decide +kernel⟩
  refine ⟨_, t, _, fs, rfl, hr, closeSfs_apply ht, em, ?_, hp, by decide +kernel, fun hA => ?_⟩
  · exact x.load ht hd (congrFun hnone 1) (by rw [hl]; decide) (.inl htype)
  · obtain ⟨-, hshort⟩ := (x.dirAgrees_iff ht hd htype (hdirs.holds 1 ci hd htype) hp
      (hdirs.ino_bounds ht 1) (hdirs.names 1)).mp hA
    exact absurd (hshort ⟨5, longName⟩ (by decide +kernel)) (by decide +kernel)

end Ucore

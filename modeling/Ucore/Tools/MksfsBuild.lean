import Ucore.Tools.MksfsInv

set_option autoImplicit false

/-!
# What the image builder copies

Every file of the host that the builder meets is copied block by block. What has been written is not
overwritten, and the traversal of the host's directories keeps the builder's invariant.

## Main definitions

* `Holds` — the blocks appended to an inode hold the given pieces.
* `Built` — the builder's invariant, with the files read so far.
* `BuildOp` — the steps of the builder; `Traced` — a state that such steps lead to.

## Main results

* `openFile_post` — `open_file` copies a file.
* `BuildOp.run_cases` — what a step does.
* `openDir_traced`, `openDir_built` — the traversal is a sequence of such steps, and keeps the
  invariant.
* `createSfs_built` — the empty image.
-/

namespace Ucore

open Function Comp List

/-- **The blocks appended to `f` hold the pieces `chunks`**, each padded with zeros; all pieces but
the last one are whole blocks. -/
structure Holds (s : MkSfs) (f size : ℕ) (chunks : List (List UInt8)) : Prop where
  length : (s.appended f).length = chunks.length
  image : ∀ k < chunks.length,
    s.image ((s.appended f).getD k 0) = Bytes.ofList (chunks.getD k [])
  size : size = (chunks.map List.length).sum
  full : ∀ k, k + 1 < chunks.length → (chunks.getD k []).length = blkSize
  piece : ∀ c ∈ chunks, 0 < c.length ∧ c.length ≤ blkSize

/-- The pieces of a file of the host. -/
def Host.chunks (host : Host) (real : ℕ) : List (List UInt8) := (host.reads real).map HostRead.bytes

/-- Every regular file has been copied. -/
def FilesHold (host : Host) (s : MkSfs) : Prop :=
  ∀ g ci, s.inodeOf g = some ci → ci.inode.type = typeFile →
    Holds s g ci.inode.size (host.chunks ci.real)

/-- The state of the builder between two entries of a directory. -/
structure Built (host : Host) (s : MkSfs) : Prop where
  inv : MkInv s
  files : FilesHold host s

/-- What an operation on the inode `f` leaves: the other inodes, and the blocks written before. -/
structure KeepsOthers (s : MkSfs) (f : ℕ) (t : MkSfs) : Prop where
  ninos : t.ninos = s.ninos
  next : s.nextIno ≤ t.nextIno
  image : ∀ b < s.nextIno, t.image b = s.image b
  other : ∀ g, g ≠ f → t.inodeOf g = s.inodeOf g ∧ t.appended g = s.appended g

/-- The image after a block is written. -/
def MkSfs.writeImage (s : MkSfs) (b : ℕ) (data : Bytes) : MkSfs :=
  { s with image := update s.image b data }

variable {s t u : MkSfs} {ci : CacheInode} {host : Host}

section Steps

variable {f g b len : ℕ} {data : Bytes} {chunks : List (List UInt8)}

lemma KeepsOthers.refl (s : MkSfs) (f : ℕ) : KeepsOthers s f s :=
  ⟨rfl, le_rfl, fun _ _ => rfl, fun _ _ => ⟨rfl, rfl⟩⟩

lemma KeepsOthers.trans (h : KeepsOthers s f t) (h' : KeepsOthers t f u) : KeepsOthers s f u :=
  ⟨h'.ninos.trans h.ninos, h.next.trans h'.next,
    fun b hb => (h'.image b (hb.trans_le h.next)).trans (h.image b hb),
    fun g hg => ⟨(h'.other g hg).1.trans (h.other g hg).1,
      (h'.other g hg).2.trans (h.other g hg).2⟩⟩

/-- `write_block` pads what it writes with zeros. -/
lemma writeBlock_apply (s : MkSfs) (data : Bytes) (len b : ℕ) :
    writeBlock data len b s = if len ≤ blkSize ∧ b < s.ninos then
      .ok ((), s.writeImage b (Bytes.zero.copy 0 data 0 len)) else .error .writeRange := by
  rw [writeBlock, read_bind_apply, ensure_bind_apply]
  by_cases h : len ≤ blkSize ∧ b < s.ninos
  · rw [if_pos h, if_pos h, modify_apply, MkSfs.writeImage]
    congr 4
    by_cases hl : len = blkSize
    · rw [if_neg (by simpa using hl), hl]
    · rw [if_pos hl]
      funext i
      unfold Bytes.copy
      by_cases hi : i < len
      · rw [if_pos (by omega), if_pos (by omega), if_pos (by omega)]
        congr 1
        omega
      · by_cases hib : i < blkSize
        · rw [if_pos (by omega), if_neg (by omega), if_neg (by omega)]
          rfl
        · rw [if_neg (by omega), if_neg (by omega)]
  · rw [if_neg h, if_neg h]

/-- A list of bytes written as a block. -/
lemma copy_ofList (l : List UInt8) :
    Bytes.zero.copy 0 (Bytes.ofList l) 0 l.length = Bytes.ofList l := by
  funext i
  unfold Bytes.copy
  by_cases hi : i < l.length
  · rw [if_pos (by omega)]
    congr 1
    omega
  · rw [if_neg (by omega), Bytes.ofList, getD_eq_default _ _ (by omega)]
    rfl

lemma MkInv.writeImage (h : MkInv s) (b : ℕ) (data : Bytes) : MkInv (s.writeImage b data) :=
  { h with maps := fun f ci hf => (h.maps f ci hf).of_eq rfl rfl rfl rfl fun _ => rfl }

lemma MkInv.setEntry (h : MkInv s) (entry : Bytes) : MkInv { s with entry := entry } :=
  { h with maps := fun f ci hf => (h.maps f ci hf).of_eq rfl rfl rfl rfl fun _ => rfl }

lemma Holds.keep (hh : Holds s g len chunks) (h : MkInv s) (hk : KeepsOthers s f t) (hg : g ≠ f) :
    Holds t g len chunks := by
  have ha := (hk.other g hg).2
  refine ⟨by rw [ha]; exact hh.length, fun k hlt => ?_, hh.size, hh.full, hh.piece⟩
  rw [ha]
  exact (hk.image _ (h.ref_lt (.data g k))).trans (hh.image k hlt)

/-- The files are kept by operations on an inode that is not a regular file. -/
lemma FilesHold.keep (hf : FilesHold host s) (h : MkInv s) (hk : KeepsOthers s f t)
    (hfile : ∀ ci, t.inodeOf f = some ci → ci.inode.type = typeFile →
      Holds t f ci.inode.size (host.chunks ci.real)) : FilesHold host t := by
  intro g ci hg ht
  by_cases hgf : g = f
  · subst hgf
    exact hfile ci hg ht
  · rw [(hk.other g hgf).1] at hg
    exact (hf g ci hg ht).keep h hk hgf

/-- **A block is written and appended.** -/
lemma storeBlock_post (h : MkInv s) (hf : s.inodeOf f = some ci) (data : Bytes) (len : ℕ) :
    Post (storeBlock f data len) s fun _ t =>
      len ≤ blkSize ∧ KeepsOthers s f t ∧ MkInv t ∧
      t.appended f = s.appended f ++ [s.nextIno] ∧
      t.image s.nextIno = Bytes.zero.copy 0 data 0 len ∧ t.entry = s.entry ∧
      ∃ ci', t.inodeOf f = some ci' ∧ ci'.real = ci.real ∧
        ci'.inode.size = ci.inode.size + len ∧ ci'.inode.type = ci.inode.type := by
  intro _ t e
  obtain ⟨b, u, e1, e⟩ := bind_eq_ok.mp e
  rw [sfsAllocIno_apply] at e1
  split_ifs at e1 with hlt
  cases e1
  obtain ⟨_, v, e2, e3⟩ := bind_eq_ok.mp e
  rw [writeBlock_apply] at e2
  split_ifs at e2 with hw
  cases e2
  have hinv := (h.bump hlt).writeImage s.nextIno (Bytes.zero.copy 0 data 0 len)
  obtain ⟨-, ha⟩ := appendBlock_post hinv hf (.inr ⟨h.first, Nat.lt_succ_self _⟩)
    h.ref_ne_next _ t e3
  obtain ⟨c, hc, h1, h2, h3, -⟩ := ha.node
  refine ⟨hw.1, ⟨ha.ninos, (Nat.le_succ _).trans ha.next, fun b hb => ?_,
    fun g hg => ⟨ha.other g hg, ?_⟩⟩, ha.inv, ?_, ?_, ha.entry, c, hc, h1, h2, h3⟩
  · rw [ha.image]
    exact update_of_ne (by omega) ..
  · rw [ha.appended, update_of_ne hg]
    rfl
  · rw [ha.appended, update_self]
    rfl
  · rw [ha.image]
    exact update_self ..

/-- One more piece. -/
lemma Holds.append (hh : Holds s f len chunks) (h : MkInv s) (hk : KeepsOthers s f t)
    {c : List UInt8} (hc : 0 < c.length ∧ c.length ≤ blkSize)
    (hfull : ∀ d ∈ chunks, d.length = blkSize) (ha : t.appended f = s.appended f ++ [b])
    (hb : t.image b = Bytes.ofList c) : Holds t f (len + c.length) (chunks ++ [c]) := by
  refine ⟨?_, fun k hlt => ?_, ?_, fun k hlt => ?_, fun d hd => ?_⟩
  · rw [ha, length_append, length_append, hh.length]
    rfl
  · rw [length_append, length_singleton] at hlt
    rw [ha, getD_append_one, getD_append_one, hh.length]
    by_cases hkl : k = chunks.length
    · rw [if_pos hkl, if_pos hkl, hb]
    · rw [if_neg hkl, if_neg hkl]
      exact (hk.image _ (h.ref_lt (.data f k))).trans (hh.image k (by omega))
  · rw [hh.size]
    simp
  · rw [length_append, length_singleton] at hlt
    rw [getD_append_one, if_neg (by omega), getD_eq_getElem _ _ (by omega)]
    exact hfull _ (getElem_mem _)
  · rcases mem_append.mp hd with hd | hd
    · exact hh.piece d hd
    · rw [mem_singleton.mp hd]
      exact hc

/-- **The loop of `open_file`** copies the pieces that are read.

**Proof sketch.** Induction on the answers of the host. A round whose `read` has failed does not
return, because the length is no length of a block. In the other rounds all pieces before have been
whole blocks, by the assertion at the start of the round. -/
lemma openFileLoop_post (reads : List HostRead) : ∀ {s : MkSfs} {ci : CacheInode} {last : ℕ}
    {done : List (List UInt8)}, MkInv s → s.inodeOf f = some ci → Holds s f ci.inode.size done →
    (last = blkSize → ∀ d ∈ done, d.length = blkSize) →
    Post (openFileLoop f reads last) s fun _ t =>
      KeepsOthers s f t ∧ MkInv t ∧ ∃ ci', t.inodeOf f = some ci' ∧ ci'.real = ci.real ∧
        ci'.inode.type = ci.inode.type ∧
        Holds t f ci'.inode.size (done ++ reads.map HostRead.bytes) := by
  induction reads with
  | nil =>
    intro s ci last done h hf hh _ _ t e
    cases e
    refine ⟨.refl s f, h, ci, hf, rfl, rfl, ?_⟩
    rwa [map_nil, append_nil]
  | cons r reads ih =>
    intro s ci last done h hf hh hfull _ t e
    rw [openFileLoop, ensure_bind_apply] at e
    split_ifs at e with hlast
    obtain ⟨_, u, e1, e2⟩ := bind_eq_ok.mp e
    obtain ⟨hle, hk, hinv, ha, hb, -, c, hc, h1, h2, h3⟩ := storeBlock_post h hf _ _ _ u e1
    cases r with
    | none => exact absurd hle (by decide)
    | some r =>
      have hb' : u.image s.nextIno = Bytes.ofList r.val := hb.trans (copy_ofList r.val)
      have hh' := hh.append h hk r.property (hfull hlast) ha hb'
      have hsize : c.inode.size = ci.inode.size + r.val.length := h2
      rw [← hsize] at hh'
      have hfull' : HostRead.ret (some r) = blkSize →
          ∀ d ∈ done ++ [r.val], d.length = blkSize := by
        intro hr d hd
        rcases mem_append.mp hd with hd | hd
        · exact hfull hlast d hd
        · rw [mem_singleton.mp hd]
          exact hr
      obtain ⟨hk', hinv', c', hc', h1', h3', hh''⟩ := ih hinv hc hh' hfull' _ t e2
      refine ⟨hk.trans hk', hinv', c', hc', h1'.trans h1, h3'.trans h3, ?_⟩
      rw [append_assoc] at hh''
      exact hh''

/-- **`open_file`** copies a file into a new inode. -/
lemma openFile_post (h : MkInv s) (hf : s.inodeOf f = some ci) (he : s.appended f = [])
    (h0 : ci.inode.size = 0) (reads : List HostRead) :
    Post (openFile f reads) s fun _ t =>
      KeepsOthers s f t ∧ MkInv t ∧ ∃ ci', t.inodeOf f = some ci' ∧ ci'.real = ci.real ∧
        ci'.inode.type = ci.inode.type ∧ Holds t f ci'.inode.size (reads.map HostRead.bytes) := by
  have hnone : Holds s f ci.inode.size [] := by
    refine ⟨by rw [he]; rfl, ?_, h0, ?_, ?_⟩
    · exact fun k hk => absurd hk (Nat.not_lt_zero k)
    · exact fun k hk => absurd hk (Nat.not_lt_zero _)
    · exact fun c hc => absurd hc not_mem_nil
  exact openFileLoop_post reads h hf hnone fun _ d hd => absurd hd not_mem_nil

/-- `open_link` writes one block. -/
lemma openLink_post (h : MkInv s) (hf : s.inodeOf f = some ci) (target : Option (List UInt8)) :
    Post (openLink f target) s fun _ t =>
      KeepsOthers s f t ∧ MkInv t ∧ ∃ ci', t.inodeOf f = some ci' ∧ ci'.real = ci.real ∧
        ci'.inode.type = ci.inode.type := by
  intro _ t e
  rw [openLink] at e
  cases target with
  | none =>
    obtain ⟨b, u, -, e⟩ := bind_eq_ok.mp e
    cases e
  | some path =>
    by_cases hl : blkSize ≤ path.length
    · simp only [if_pos hl] at e
      obtain ⟨b, u, -, e⟩ := bind_eq_ok.mp e
      cases e
    · simp only [if_neg hl] at e
      obtain ⟨-, hk, hinv, -, -, -, c, hc, h1, -, h3⟩ := storeBlock_post h hf _ _ _ t e
      exact ⟨hk, hinv, c, hc, h1, h3⟩

end Steps

/-! ## Steps of the builder -/

/-- A new directory, a new file with its contents, a new symbolic link, or an entry. -/
inductive BuildOp
  | dir (real : ℕ)
  | file (real : ℕ) (reads : List HostRead)
  | link (real : ℕ) (target : Option (List UInt8))
  | entry (current file : ℕ) (name : List UInt8)

/-- The parts of `add_dir`, `add_file` and `add_link`; `add_entry` gets a pointer to an inode. -/
def BuildOp.run : BuildOp → Mk Unit
  | .dir real => allocCacheInode real 0 typeDir >>= fun _ => pure ()
  | .file real reads => allocCacheInode real 0 typeFile >>= fun f => openFile f reads
  | .link real target => allocCacheInode real 0 typeLink >>= fun f => openLink f target
  | .entry current f name => getInode f >>= fun _ => addEntry current f name

/-- A file is copied as the host has it. -/
def BuildOp.From (host : Host) : BuildOp → Prop
  | .file real reads => reads = host.reads real
  | _ => True

section Ops

variable {s t : MkSfs} {f : ℕ}

lemma KeepsOthers.newInode (s : MkSfs) (real type : ℕ) :
    KeepsOthers s s.nextIno (s.newInode real type) :=
  ⟨rfl, Nat.le_succ _, fun _ _ => rfl, fun _ hg => ⟨newInode_of_ne hg real type, rfl⟩⟩

lemma KeepsOthers.cached (hk : KeepsOthers s f t) (hf : t.inodeOf f ≠ none) {g : ℕ}
    (hg : s.inodeOf g ≠ none) : t.inodeOf g ≠ none := by
  by_cases hgf : g = f
  · rwa [hgf]
  · rwa [(hk.other g hgf).1]

/-- A link more. -/
lemma MkInv.link (h : MkInv s) (f : ℕ) : MkInv (s.modInode f CacheInode.link) := by
  cases hf : s.inodeOf f with
  | none =>
    have e : s.modInode f CacheInode.link = s := by
      rw [MkSfs.modInode, hf, Option.map_none, ← hf, update_eq_self]
    rwa [e]
  | some ci =>
    have hm := h.maps f ci hf
    have hm' : MapsAppended s f ci.link :=
      { hm with nlinks := Nat.mod_lt _ (Nat.two_pow_pos 16) }
    exact (h.relabel hf hm' rfl rfl).1

lemma Built.link (h : Built host s) (f : ℕ) : Built host (s.modInode f CacheInode.link) := by
  refine ⟨h.inv.link f, fun g cg hg ht => ?_⟩
  by_cases hgf : g = f
  · subst hgf
    cases hf : s.inodeOf g with
    | none =>
      rw [modInode_eq_none.mpr hf] at hg
      cases hg
    | some ci =>
      obtain rfl := Option.some.inj ((modInode_self hf).symm.trans hg)
      exact { h.files g ci hf ht with }
  · rw [modInode_of_ne hgf] at hg
    exact { h.files g cg hg ht with }

lemma Built.keep (h : Built host s) (hk : KeepsOthers s f t) (hinv : MkInv t)
    (hf : t.inodeOf f = some ci) (ht : ci.inode.type ≠ typeFile) : Built host t := by
  refine ⟨hinv, h.files.keep h.inv hk fun c hc htype => ?_⟩
  cases hf.symm.trans hc
  exact absurd htype ht

/-- **`add_entry`** stores the static buffer and counts a link. -/
lemma addEntry_inv {current file : ℕ} {name : List UInt8} {r : Unit}
    (e : addEntry current file name s = .ok (r, t)) :
    ∃ ci u, s.inodeOf current = some ci ∧ ci.inode.type = typeDir ∧ name.length ≤ maxFnameLen ∧
      storeBlock current (fillEntry s.entry file name) entryNameSize
        { s with entry := fillEntry s.entry file name } = .ok ((), u) ∧
      t = u.modInode file CacheInode.link := by
  obtain ⟨ci, _, e0, e⟩ := bind_eq_ok.mp e
  obtain ⟨hf, rfl⟩ := getInode_inv e0
  rw [ensure_bind_apply] at e
  split_ifs at e with hc
  rw [modify_bind_apply, read_bind_apply] at e
  obtain ⟨_, u, e1, e2⟩ := bind_eq_ok.mp e
  cases e2
  exact ⟨ci, u, hf, hc.1, hc.2, e1, rfl⟩

/-- **`add_entry`** keeps the invariant and the files. -/
lemma addEntry_built (h : Built host s) (current file : ℕ) (name : List UInt8) :
    Post (addEntry current file name) s fun _ t => Built host t := by
  intro _ t e
  obtain ⟨ci, u, hf, ht, -, e1, rfl⟩ := addEntry_inv e
  -- filling the static buffer changes nothing else
  have h' : Built host { s with entry := fillEntry s.entry file name } :=
    ⟨h.inv.setEntry _, fun g cg hg ht => { h.files g cg hg ht with }⟩
  obtain ⟨-, hk, hinv, -, -, -, c, hc', -, -, h3⟩ := storeBlock_post h'.inv hf _ _ _ u e1
  refine (h'.keep hk hinv hc' ?_).link file
  rw [h3, ht]
  decide

lemma addEntry_none (h : MkInv s) {current file : ℕ} {name : List UInt8} {r : Unit}
    (e : addEntry current file name s = .ok (r, t)) (g : ℕ) :
    t.inodeOf g = none ↔ s.inodeOf g = none := by
  obtain ⟨ci, u, hf, -, -, e1, rfl⟩ := addEntry_inv e
  obtain ⟨-, hk, -, -, -, -, c, hc, -⟩ := storeBlock_post
    (h.setEntry (fillEntry s.entry file name)) hf _ _ _ u e1
  rw [modInode_eq_none]
  by_cases hg : g = current
  · rw [hg, hc, hf]
    simp
  · rw [(hk.other g hg).1]

/-- **One step of the builder** makes a new inode, with the contents of a file, or adds an entry. -/
lemma BuildOp.run_cases (op : BuildOp) (h : MkInv s) (e : op.run s = .ok ((), t)) :
    (∃ ci, KeepsOthers s s.nextIno t ∧ MkInv t ∧ t.inodeOf s.nextIno = some ci ∧
      (ci.inode.type = typeDir → t.appended s.nextIno = []) ∧
      (ci.inode.type = typeFile → ∃ reads, op = .file ci.real reads ∧
        Holds t s.nextIno ci.inode.size (reads.map HostRead.bytes)) ∧
      ∀ current file name, op ≠ .entry current file name) ∨
    ∃ current file name, op = .entry current file name ∧ s.inodeOf file ≠ none ∧
      addEntry current file name s = .ok ((), t) := by
  cases op with
  | dir real =>
    left
    obtain ⟨f, u, e1, e2⟩ := bind_eq_ok.mp e
    cases e2
    obtain ⟨hlt, rfl, rfl⟩ := allocCacheInode_inv e1
    exact ⟨_, .newInode s real typeDir, h.newInode hlt (by decide) real,
      newInode_self s real typeDir, fun _ => h.fresh _ h.inodeOf_next,
      fun ht => absurd ht (show typeDir ≠ typeFile by decide), by simp⟩
  | file real reads =>
    left
    obtain ⟨f, u, e1, e2⟩ := bind_eq_ok.mp e
    obtain ⟨hlt, rfl, rfl⟩ := allocCacheInode_inv e1
    obtain ⟨hk, hinv, c, hc, hreal, ht, hh⟩ := openFile_post
      (h.newInode hlt (show typeFile < 2 ^ 16 by decide) real) (newInode_self s real typeFile)
      (h.fresh _ h.inodeOf_next) rfl reads _ t e2
    exact ⟨c, (KeepsOthers.newInode s real typeFile).trans hk, hinv, hc,
      fun htd => absurd (ht.symm.trans htd) (show typeFile ≠ typeDir by decide),
      fun _ => ⟨reads, by rw [hreal], hh⟩, by simp⟩
  | link real target =>
    left
    obtain ⟨f, u, e1, e2⟩ := bind_eq_ok.mp e
    obtain ⟨hlt, rfl, rfl⟩ := allocCacheInode_inv e1
    obtain ⟨hk, hinv, c, hc, -, ht⟩ := openLink_post
      (h.newInode hlt (show typeLink < 2 ^ 16 by decide) real)
      (newInode_self s real typeLink) target _ t e2
    exact ⟨c, (KeepsOthers.newInode s real typeLink).trans hk, hinv, hc,
      fun htd => absurd (ht.symm.trans htd) (show typeLink ≠ typeDir by decide),
      fun htf => absurd (ht.symm.trans htf) (show typeLink ≠ typeFile by decide), by simp⟩
  | entry current file name =>
    right
    obtain ⟨_, u, e1, e2⟩ := bind_eq_ok.mp e
    obtain ⟨hc, rfl⟩ := getInode_inv e1
    exact ⟨current, file, name, rfl, by simp [hc], e2⟩

lemma BuildOp.run_built {op : BuildOp} (hop : op.From host) (h : Built host s)
    (e : op.run s = .ok ((), t)) : Built host t := by
  rcases op.run_cases h.inv e
    with ⟨ci, hk, hinv, hc, -, hfile, -⟩ | ⟨current, file, name, rfl, -, e⟩
  · refine ⟨hinv, h.files.keep h.inv hk fun c hc' ht => ?_⟩
    cases hc.symm.trans hc'
    obtain ⟨reads, rfl, hh⟩ := hfile ht
    rwa [show reads = host.reads ci.real from hop] at hh
  · exact addEntry_built h current file name _ t e

end Ops

/-! ## The traversal -/

/-- A state that is reached from `s` by steps of the builder. -/
structure Traced (host : Host) (s t : MkSfs) : Prop where
  inv : MkInv t
  cached : ∀ g, s.inodeOf g ≠ none → t.inodeOf g ≠ none
  ops : ∃ ops, (∀ op ∈ ops, BuildOp.From host op) ∧ Comp.forEach ops BuildOp.run s = .ok ((), t)

section Traversal

variable {current : ℕ}

lemma Traced.refl (h : MkInv s) : Traced host s s := ⟨h, fun _ hg => hg, [], by simp, rfl⟩

lemma Traced.trans (h : Traced host s t) (h' : Traced host t u) : Traced host s u := by
  obtain ⟨ops, hf, e⟩ := h.ops
  obtain ⟨ops', hf', e'⟩ := h'.ops
  refine ⟨h'.inv, fun g hg => h'.cached g (h.cached g hg), ops ++ ops', fun op hop => ?_,
    Comp.forEach_append e e'⟩
  exact (mem_append.mp hop).elim (hf op) (hf' op)

lemma Traced.step (op : BuildOp) (hop : op.From host) (h : MkInv s) (e : op.run s = .ok ((), t)) :
    Traced host s t := by
  have hops : ∃ ops, (∀ op ∈ ops, BuildOp.From host op) ∧
      Comp.forEach ops BuildOp.run s = .ok ((), t) :=
    ⟨[op], by simpa using hop, by rw [Comp.forEach, bind_of_ok e]; rfl⟩
  rcases op.run_cases h e with ⟨ci, hk, hinv, hc, -⟩ | ⟨current, file, name, rfl, hfile, e⟩
  · exact ⟨hinv, fun g => hk.cached (by simp [hc]), hops⟩
  · obtain ⟨ci, v, hf, -, -, e1, rfl⟩ := addEntry_inv e
    obtain ⟨-, -, hinv, -⟩ := storeBlock_post (h.setEntry (fillEntry s.entry file name)) hf _ _ _ v
      e1
    exact ⟨hinv.link file, fun g hg => mt (addEntry_none h e g).mp hg, hops⟩

lemma Traced.new (op : BuildOp) (hop : op.From host) (hne : ∀ c f n, op ≠ .entry c f n)
    (h : MkInv s) (e : op.run s = .ok ((), t)) : Traced host s t ∧ t.inodeOf s.nextIno ≠ none := by
  refine ⟨.step op hop h e, ?_⟩
  rcases op.run_cases h e with ⟨ci, -, -, hc, -⟩ | ⟨c, f, n, rfl, -⟩
  · simp [hc]
  · exact absurd rfl (hne c f n)

lemma Traced.built (h : Traced host s t) (hb : Built host s) : Built host t := by
  obtain ⟨ops, hf, e⟩ := h.ops
  clear h
  induction ops generalizing s with
  | nil =>
    cases e
    exact hb
  | cons op ops ih =>
    obtain ⟨_, v, e1, e2⟩ := bind_eq_ok.mp e
    exact ih (BuildOp.run_built (hf op (by simp)) hb e1) (fun o ho => hf o (by simp [ho])) e2

lemma addEntry_traced (h : MkInv s) {file : ℕ} (hfile : s.inodeOf file ≠ none) (current : ℕ)
    (name : List UInt8) : Post (addEntry current file name) s fun _ t => Traced host s t := by
  intro _ t e
  obtain ⟨c, hc⟩ := Option.ne_none_iff_exists'.mp hfile
  refine .step (.entry current file name) trivial h ?_
  rw [BuildOp.run, bind_of_ok (getInode_apply hc)]
  exact e

lemma searchCacheInode_cached {real f : ℕ} (h : s.searchCacheInode real = some f) :
    s.inodeOf f ≠ none := by
  have := List.find?_some h
  intro hn
  simp [hn] at this

/-- `add_file` -/
lemma addFile_traced (h : MkInv s) (current : ℕ) (filename : List UInt8) (real : ℕ) :
    Post (addFile host current filename real) s fun _ t => Traced host s t := by
  intro _ t e
  rw [addFile, read_bind_apply] at e
  cases hs : s.searchCacheInode real with
  | some file =>
    rw [hs] at e
    exact addEntry_traced h (searchCacheInode_cached hs) current filename _ t e
  | none =>
    rw [hs] at e
    obtain ⟨f, u, e1, e⟩ := bind_eq_ok.mp e
    obtain ⟨_, v, e2, e3⟩ := bind_eq_ok.mp e
    obtain ⟨hv, hnew⟩ := Traced.new (.file real (host.reads real)) rfl (by simp) h
      (by rw [BuildOp.run, bind_of_ok e1]; exact e2)
    obtain ⟨-, rfl, -⟩ := allocCacheInode_inv e1
    exact hv.trans (addEntry_traced hv.inv hnew current filename _ t e3)

/-- `add_link` -/
lemma addLink_traced (h : MkInv s) (current : ℕ) (filename : List UInt8) (real : ℕ)
    (target : Option (List UInt8)) :
    Post (addLink current filename real target) s fun _ t => Traced host s t := by
  intro _ t e
  rw [addLink] at e
  obtain ⟨f, u, e1, e⟩ := bind_eq_ok.mp e
  obtain ⟨_, v, e2, e3⟩ := bind_eq_ok.mp e
  obtain ⟨hv, hnew⟩ := Traced.new (.link real target) trivial (by simp) h
    (by rw [BuildOp.run, bind_of_ok e1]; exact e2)
  obtain ⟨-, rfl, -⟩ := allocCacheInode_inv e1
  exact hv.trans (addEntry_traced hv.inv hnew current filename _ t e3)

lemma withName_traced (h : MkInv s) (name : List UInt8) {m : Mk Unit}
    (hm : Post m s fun _ t => Traced host s t) :
    Post (withName name m) s fun _ t => Traced host s t := by
  rw [withName]
  refine .ite (fun _ => .pure (.refl h)) fun _ => ?_
  exact .ite (fun _ => .halt _) fun _ => hm

lemma openDirWith_traced (h : MkInv s) {current parent : ℕ} (hc : s.inodeOf current ≠ none)
    (hp : s.inodeOf parent ≠ none) {loop : Mk Unit}
    (hloop : ∀ u, MkInv u → u.inodeOf current ≠ none → Post loop u fun _ t => Traced host u t) :
    Post (openDirWith current parent loop) s fun _ t => Traced host s t :=
  (addEntry_traced h hc current dotName).bind fun _ _ hu =>
    (addEntry_traced hu.inv (hu.cached _ hp) current dotdotName).bind fun _ v hv =>
      (hloop v hv.inv (hv.cached _ (hu.cached _ hc))).mono fun _ _ ht => hu.trans (hv.trans ht)

/-- `add_dir`, given the loop of `open_dir`. -/
lemma addDirWith_traced (h : MkInv s) {parent : ℕ} (hp : s.inodeOf parent ≠ none)
    (dirname : List UInt8) (real : ℕ) {loop : ℕ → Mk Unit}
    (hloop : ∀ child u, MkInv u → u.inodeOf child ≠ none →
      Post (loop child) u fun _ t => Traced host u t) :
    Post (addDirWith parent dirname real loop) s fun _ t => Traced host s t := by
  intro _ t e
  rw [addDirWith, read_bind_apply, ensure_bind_apply] at e
  split_ifs at e
  obtain ⟨f, u, e1, e2⟩ := bind_eq_ok.mp e
  obtain ⟨_, v, e3, e4⟩ := bind_eq_ok.mp e2
  obtain ⟨hu, hf⟩ := Traced.new (.dir real) trivial (by simp) h
    (by rw [BuildOp.run, bind_of_ok e1]; rfl)
  obtain ⟨-, rfl, -⟩ := allocCacheInode_inv e1
  have hv := openDirWith_traced hu.inv hf (hu.cached _ hp) (hloop _) _ v e3
  exact hu.trans (hv.trans (addEntry_traced hv.inv (hv.cached _ hf) parent dirname _ t e4))

mutual

/-- One round of the loop of `open_dir`. -/
lemma addNode_traced (host : Host) (current : ℕ) (e : HostEntry) (s : MkSfs) (h : MkInv s)
    (hc : s.inodeOf current ≠ none) :
    Post (addNode host current e) s fun _ t => Traced host s t := by
  cases e with
  | link name real target =>
    rw [addNode]
    exact withName_traced h name (addLink_traced h current name real target)
  | file name real =>
    rw [addNode]
    exact withName_traced h name (addFile_traced h current name real)
  | other name =>
    rw [addNode]
    exact withName_traced h name (.pure (.refl h))
  | dir name real entries =>
    rw [addNode]
    exact withName_traced h name (addDirWith_traced h hc name real fun child u hu hchild =>
      addNodes_traced host child entries u hu hchild)

/-- The loop of `open_dir`. -/
lemma addNodes_traced (host : Host) (current : ℕ) (es : List HostEntry) (s : MkSfs) (h : MkInv s)
    (hc : s.inodeOf current ≠ none) :
    Post (addNodes host current es) s fun _ t => Traced host s t := by
  cases es with
  | nil =>
    rw [addNodes]
    exact .pure (.refl h)
  | cons e es =>
    rw [addNodes]
    exact (addNode_traced host current e s h hc).bind fun _ u hu =>
      (addNodes_traced host current es u hu.inv (hu.cached _ hc)).mono fun _ _ ht => hu.trans ht

end

/-- **`open_dir`** is a sequence of steps of the builder. -/
lemma openDir_traced (h : MkInv s) {parent : ℕ} (hc : s.inodeOf current ≠ none)
    (hp : s.inodeOf parent ≠ none) (entries : List HostEntry) :
    Post (openDir host current parent entries) s fun _ t => Traced host s t :=
  openDirWith_traced h hc hp fun u hu hcu => addNodes_traced host current entries u hu hcu

/-- **`open_dir`** keeps the builder's invariant and the files. -/
lemma openDir_built (h : Built host s) {parent : ℕ} (hc : s.inodeOf current ≠ none)
    (hp : s.inodeOf parent ≠ none) (entries : List HostEntry) :
    Post (openDir host current parent entries) s fun _ t => Built host t :=
  (openDir_traced h.inv hc hp entries).mono fun _ _ ht => ht.built h

end Traversal

/-! ## The empty image -/

/-- The number of blocks of an image file of `imgSize` bytes. -/
def imgBlocks (imgSize : ℕ) : ℕ := min (imgSize / blkSize % 2 ^ 32) maxNblks

/-- The builder's state before the first file: there is the inode of the root directory. -/
def rootSfs (ninos : ℕ) (image : ℕ → Bytes) : MkSfs where
  super := ⟨sfsMagic, ninos, ninos - firstIno ninos⟩
  ninos := ninos
  nextIno := firstIno ninos
  image := image
  inodeOf := update (fun _ => none) blknRoot (some ⟨emptyInode typeDir, 0, 0, none, none⟩)
  cacheOf _ := none
  inodes := update (fun _ => []) (hash32 0) [blknRoot]
  blocks _ := []
  entry := Bytes.zero
  appended _ := []

/-- **`create_sfs`** -/
lemma createSfs_eq (imgSize : ℕ) (image : ℕ → Bytes) :
    createSfs imgSize image =
      if imgBlocks imgSize ≤ firstIno (imgBlocks imgSize) then .error .tooSmall
      else .ok (rootSfs (imgBlocks imgSize) image) := by
  have hmin : imgBlocks imgSize = if maxNblks < imgSize / blkSize % 2 ^ 32 then maxNblks
      else imgSize / blkSize % 2 ^ 32 := by
    unfold imgBlocks
    split_ifs <;> omega
  rw [hmin]
  rfl

section Root

variable {ninos : ℕ} {image : ℕ → Bytes}

lemma rootSfs_self : (rootSfs ninos image).inodeOf blknRoot =
    some ⟨emptyInode typeDir, 0, 0, none, none⟩ := by
  simp [rootSfs]

lemma rootSfs_of_ne {f : ℕ} (h : f ≠ blknRoot) : (rootSfs ninos image).inodeOf f = none := by
  simp [rootSfs, h]

lemma rootSfs_inodeOf {f : ℕ} {ci : CacheInode} (h : (rootSfs ninos image).inodeOf f = some ci) :
    f = blknRoot ∧ ci = ⟨emptyInode typeDir, 0, 0, none, none⟩ := by
  by_cases hf : f = blknRoot
  · rw [hf, rootSfs_self] at h
    exact ⟨hf, (Option.some.inj h).symm⟩
  · rw [rootSfs_of_ne hf] at h
    cases h

/-- The root inode is the only block in use. -/
lemma rootSfs_ref {x : MkSlot} (hx : (rootSfs ninos image).ref x ≠ 0) :
    x = .inode blknRoot ∧ (rootSfs ninos image).ref x = blknRoot := by
  have hdb : ∀ g, (rootSfs ninos image).dbOf g = 0 := by
    intro g
    by_cases hg : g = blknRoot
    · rw [hg, dbOf_of_node rootSfs_self]
      rfl
    · rw [MkSfs.dbOf, rootSfs_of_ne hg]
      rfl
  cases x with
  | inode g =>
    by_cases hg : g = blknRoot
    · rw [hg]
      exact ⟨rfl, ref_inode_of_node rootSfs_self⟩
    · refine absurd ?_ hx
      simp [MkSfs.ref, rootSfs_of_ne hg]
  | indirect g =>
    refine absurd ?_ hx
    by_cases hg : g = blknRoot
    · rw [hg, ref_indirect_of_node rootSfs_self]
      rfl
    · simp [MkSfs.ref, rootSfs_of_ne hg]
  | dbIndirect g => exact absurd (hdb g) hx
  | dbEntry g j =>
    refine absurd ?_ hx
    simp [MkSfs.ref, hdb]
  | data g k => exact absurd rfl hx

/-- **The empty image** satisfies the invariant. -/
lemma rootSfs_built (host : Host) (hmax : ninos ≤ maxNblks) (hlt : firstIno ninos < ninos) :
    Built host (rootSfs ninos image) := by
  refine ⟨⟨hmax, rfl, le_rfl, hlt.le, ⟨fun x hx hfree => ?_, fun x y hx e => ?_⟩, fun x hx => ?_,
    fun f hf => ?_, fun f ci hf => ?_, fun _ _ => rfl, fun f => ?_, fun b => ?_, fun b hb => ?_,
    fun _ _ hb => absurd hb not_mem_nil⟩, fun f ci hf ht => ?_⟩
  · have h2 := MkInv.two_le_first ninos
    rw [(rootSfs_ref hx).2, Finset.mem_Ico] at hfree
    exact absurd (lt_of_lt_of_le (by decide) h2) (not_lt.mpr hfree.1)
  · have hy : (rootSfs ninos image).ref y ≠ 0 := e ▸ hx
    rw [(rootSfs_ref hx).1, (rootSfs_ref hy).1]
  · exact .inl (rootSfs_ref hx).2
  · obtain ⟨ci, hci⟩ := Option.ne_none_iff_exists'.mp hf
    rw [(rootSfs_inodeOf hci).1]
    decide
  · obtain ⟨-, rfl⟩ := rootSfs_inodeOf hf
    exact .empty rfl (by decide) 0
  · refine (exists_mem_update (hash32_lt 0) f).trans ?_
    by_cases hf : f = blknRoot
    · rw [hf, rootSfs_self]
      simp
    · rw [rootSfs_of_ne hf]
      simp [hf]
  · simp [rootSfs]
  · exact absurd rfl hb
  · obtain ⟨-, rfl⟩ := rootSfs_inodeOf hf
    exact absurd ht (by decide)

end Root

/-- **The builder before it writes the inodes**: every file of the host it has met is in the
image. -/
lemma createSfs_built {imgSize : ℕ} {image : ℕ → Bytes} {s : MkSfs}
    (h : createSfs imgSize image = .ok s) (host : Host) :
    Built host s ∧ s.inodeOf blknRoot ≠ none := by
  rw [createSfs_eq] at h
  split_ifs at h with hc
  cases h
  exact ⟨rootSfs_built host (min_le_right _ _) (not_le.mp hc), by simp [rootSfs_self]⟩

end Ucore

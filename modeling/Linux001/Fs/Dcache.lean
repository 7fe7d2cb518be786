import Linux001.Fs.Names

/-!
# Fs — the directory-entry cache

`dcache[]` of `fs/namei.c`: `dcache_invalidate()`, `dcache_lookup()`, `dcache_store()`, and
`find_entry()`, `namei()`, `dir_add_entry()` and `dir_remove_entry()` with it.  A call looks up its paths,
and then it has its directories and inodes; the two parts are steps of their own.

The cache is `Coherent` when every valid entry is what a scan of the directory finds.
-/

namespace Linux001

open Function FsTree

/-- `struct dcache_entry`. -/
structure DEntry where
  dev : ℕ := 0
  dirIno : ℕ := 0
  targetIno : ℕ := 0
  name : List Text := []
  valid : Bool := false
  short : name.length ≤ 14 := by decide

/-- `dcache[DCACHE_SIZE]`. -/
abbrev Dcache := Fin 64 → DEntry

namespace Dcache

/-- **`dcache_invalidate`.** -/
def invalidate (c : Dcache) : Dcache := fun i => { c i with valid := false }

/-- The test of an entry, in `dcache_lookup` and in `dcache_store`. -/
def hit (e : DEntry) (dev dirIno : ℕ) (name : List Text) : Bool :=
  e.valid ∧ e.dev = dev ∧ e.dirIno = dirIno ∧ nameEq e.name name

/-- **`dcache_lookup`.** -/
def lookup (c : Dcache) (dev dirIno : ℕ) (name : List Text) : Option ℕ :=
  ((List.finRange 64).find? fun i => hit (c i) dev dirIno name).map fun i => (c i).targetIno

/-- What `dcache_store` fills a slot with. -/
def filled (dev dirIno : ℕ) (name : List Text) (ino : ℕ) : DEntry :=
  ⟨dev, dirIno, ino, name.take 14, true, by rw [List.length_take]; omega⟩

/-- **`dcache_store`.** -/
def store (c : Dcache) (dev dirIno : ℕ) (name : List Text) (ino : ℕ) : Dcache :=
  let e := filled dev dirIno name ino
  match (List.finRange 64).find? fun i => hit (c i) dev dirIno name with
  | some i => update c i e
  | none =>
    match (List.finRange 64).find? fun i => (c i).valid = false with
    | some i => update c i e
    | none => update c.invalidate 0 e

end Dcache

/-- The file system of the device `dev`, and the cache. -/
structure CachedFs where
  dev : ℕ
  tree : FsTree
  dcache : Dcache := fun _ => {}

namespace CachedFs

/-! ### Directories through the cache -/

/-- **`find_entry`.** -/
def findEntry (s : CachedFs) (d : ℕ) (name : List Text) : Option ℕ × CachedFs :=
  if (s.tree.node d).isDir = false then (none, s)
  else
    match s.dcache.lookup s.dev d name with
    | some n => (some n, s)
    | none =>
      match (s.tree.node d).findEntry name with
      | none => (none, s)
      | some n => (some n, { s with dcache := s.dcache.store s.dev d name n })

/-- The loop of `namei`, through the cache. -/
def walk (c : Subject) (room : ℕ → Bool) : CachedFs → ℕ → List (List Text) → Walk × CachedFs
  | s, n, [] => (⟨some n, [], []⟩, s)
  | s, n, name :: rest =>
    if name = [Text.dot] then
      if rest = [] then (⟨some n, [], []⟩, s)
      else if (s.tree.node n).permits c mayExec then walk c room s n rest
      else (⟨none, [], [n]⟩, s)
    else
      match s.findEntry n name with
      | (none, s) => (⟨none, [n], [n]⟩, s)
      | (some m, s) =>
        if room m = false then (⟨none, [n], [n]⟩, s)
        else if rest = [] then (⟨some m, [n], [n]⟩, s)
        else if (s.tree.node m).isDir ∧ (s.tree.node m).permits c mayExec then
          ((walk c room s m rest).1.via n, (walk c room s m rest).2)
        else (⟨none, [n], [n, m]⟩, s)

/-- **`namei`**, through the cache. -/
def namei (s : CachedFs) (c : Subject) (room : ℕ → Bool) (path : List Text) : Walk × CachedFs :=
  match (start c room path).1 with
  | none => (⟨none, [], []⟩, s)
  | some d => walk c room s d (components (start c room path).2)

/-- **`dir_add_entry`.** -/
def dirAddEntry (s : CachedFs) (av : Avail) (d : ℕ) (name : FileName) (n : ℕ) : Bool × CachedFs :=
  match s.tree.dirAddEntry av d name.val n with
  | none => (false, { s with dcache := s.dcache.invalidate })
  | some t => (true, { s with tree := t, dcache := s.dcache.invalidate })

/-- **`dir_remove_entry`.** -/
def dirRemoveEntry (s : CachedFs) (d : ℕ) (name : List Text) : Bool × CachedFs :=
  match s.tree.dirRemoveEntry d name with
  | none => (false, s)
  | some t => (true, { s with tree := t, dcache := s.dcache.invalidate })

def setNode (s : CachedFs) (n : ℕ) (nd : Node) : CachedFs := { s with tree := s.tree.setNode n nd }

/-! ### The calls -/

/-- A new inode is entered: `sys_open` and `sys_mknod`. -/
def enterNew (s : CachedFs) (av : Avail) (d : ℕ) (name : FileName) (fill done : Node → Node) : CachedFs :=
  match s.tree.newInode av.room with
  | (none, t) => { s with tree := t.release d }
  | (some n, t) =>
    match { s with tree := t.setNode n (fill (t.node n)) }.dirAddEntry av d name n with
    | (false, s₂) => { s₂ with tree := s₂.tree.giveUp n d }
    | (true, s₂) => { s₂ with tree := (s₂.tree.setNode n (done (s₂.tree.node n))).release d }

/-- `sys_mkdir`. -/
def mkdir (s : CachedFs) (av : Avail) (d : ℕ) (name : FileName) (fill : Node → Node) : CachedFs :=
  match s.tree.newInode av.room with
  | (none, t) => { s with tree := t.release d }
  | (some n, t) =>
    if av.zone = false then { s with tree := t.giveUp n d }
    else
      match { s with tree := t.setNode n { fill (t.node n) with
          nlinks := 2#8, entries := FsTree.newEntries n d } }.dirAddEntry av d name n with
      | (false, s₂) => { s₂ with tree := s₂.tree.giveUp n d }
      | (true, s₂) => { s₂ with tree := ((s₂.tree.setNode d { s₂.tree.node d with
          nlinks := (s₂.tree.node d).nlinks + 1#8 }).release d).release n }

/-- `sys_link`. -/
def link (s : CachedFs) (av : Avail) (d : ℕ) (name : FileName) (n : ℕ) : CachedFs :=
  match s.dirAddEntry av d name n with
  | (false, s₁) => { s₁ with tree := (s₁.tree.release n).release d }
  | (true, s₁) => { s₁ with tree := ((s₁.tree.setNode n { s₁.tree.node n with
      nlinks := (s₁.tree.node n).nlinks + 1#8 }).release n).release d }

/-- `sys_unlink`. -/
def unlink (s : CachedFs) (d : ℕ) (name : List Text) (n : ℕ) : CachedFs :=
  match s.dirRemoveEntry d name with
  | (false, s₁) => { s₁ with tree := (s₁.tree.release n).release d }
  | (true, s₁) =>
    let nd := { s₁.tree.node n with nlinks := (s₁.tree.node n).nlinks - 1#8 }
    { s₁ with tree := ((s₁.tree.setNode n
        (if nd.nlinks = 0#8 then { nd with entries := [] } else nd)).release n).release d }

/-- `sys_rmdir`. -/
def rmdir (s : CachedFs) (d : ℕ) (name : List Text) (n : ℕ) : CachedFs :=
  match s.dirRemoveEntry d name with
  | (false, s₁) => { s₁ with tree := (s₁.tree.release n).release d }
  | (true, s₁) =>
    let t₂ := s₁.tree.setNode n { s₁.tree.node n with entries := [] }
    let t₃ := t₂.setNode d { t₂.node d with nlinks := (t₂.node d).nlinks - 1#8 }
    let t₄ := (t₃.setNode n { t₃.node n with nlinks := 0#8 }).freeInode n
    { s₁ with tree := (t₄.release n).release d }

/-- `sys_rename`, after its tests. -/
def rename (s : CachedFs) (av : Avail) (d : ℕ) (oldbase : List Text) (d' : ℕ) (newbase : FileName)
    (n : ℕ) : CachedFs :=
  let moved :=
    if d' ≠ d then
      match s.dirAddEntry av d' newbase n with
      | (false, s₁) => s₁
      | (true, s₁) =>
        match s₁.dirRemoveEntry d oldbase with
        | (false, s₂) => s₂
        | (true, s₂) =>
          let t₃ := s₂.tree.setNode d { s₂.tree.node d with nlinks := (s₂.tree.node d).nlinks - 1#8 }
          { s₂ with tree := t₃.setNode d' { t₃.node d' with nlinks := (t₃.node d').nlinks + 1#8 } }
    else
      match s.dirRemoveEntry d oldbase with
      | (false, s₁) => s₁
      | (true, s₁) => (s₁.dirAddEntry av d newbase n).2
  { moved with tree := moved.tree.releaseAll [n, d, d'] }

end CachedFs

/-- What happens to directories, with the inodes and directories that the call has found. -/
inductive DirCall where
  /-- A path is looked up. -/
  | namei (c : Subject) (path : List Text)
  /-- A name is looked up in a directory: `dir_lookup`. -/
  | find (d : ℕ) (name : List Text)
  | create (d : ℕ) (name : FileName) (fill done : Node → Node)
  | mkdir (d : ℕ) (name : FileName) (fill : Node → Node)
  | link (d : ℕ) (name : FileName) (n : ℕ)
  | unlink (d : ℕ) (name : List Text) (n : ℕ)
  | rmdir (d : ℕ) (name : List Text) (n : ℕ)
  | rename (d : ℕ) (oldbase : List Text) (d' : ℕ) (newbase : FileName) (n : ℕ)
  /-- `sys_open` with `O_TRUNC`, which spares directories. -/
  | truncate (n : ℕ)
  /-- `sys_chmod`, `sys_chown`, and a change of `i_count`: the type stays. -/
  | attr (n : ℕ) (perm uid : BitVec 16) (gid count : Byte)
  /-- `iput`. -/
  | put (n : ℕ)
  /-- `sys_write` on an open file, which then has the entries `l` if read as a directory. -/
  | write (n : ℕ) (l : List DirEntry)
  | pipe

namespace CachedFs

/-- What a call does to the directories and inodes it has found. -/
def call (s : CachedFs) (av : Avail) : DirCall → CachedFs
  | .namei c path =>
    let w := s.namei c av.room path
    { w.2 with tree := w.2.tree.releaseAll w.1.released }
  | .find d name => (s.findEntry d name).2
  | .create d name fill done => s.enterNew av d name fill done
  | .mkdir d name fill => s.mkdir av d name fill
  | .link d name n => s.link av d name n
  | .unlink d name n => s.unlink d name n
  | .rmdir d name n => s.rmdir d name n
  | .rename d oldbase d' newbase n => s.rename av d oldbase d' newbase n
  | .truncate n =>
    if (s.tree.node n).isDir = false then s.setNode n { s.tree.node n with entries := [] } else s
  | .attr n perm uid gid count =>
    s.setNode n { s.tree.node n with
      mode := ((s.tree.node n).mode &&& 0xf000#16) ||| (perm &&& 0x1ff#16), uid := uid, gid := gid, count := count }
  | .put n => { s with tree := s.tree.release n }
  | .write n l => s.setNode n { s.tree.node n with entries := l }
  | .pipe => s

/-- **One call**, after what it does besides, which the cache is not told. -/
def step (s : CachedFs) (av : Avail) (op : DirCall) : CachedFs :=
  { s with tree := s.tree.strayed av }.call av op

/-- **A run.** -/
def run (s : CachedFs) (ops : List (Avail × DirCall)) : CachedFs := ops.foldl (fun s x => s.step x.1 x.2) s

/-! ### Coherence -/

/-- **Every valid entry is what a scan finds.** -/
def Coherent (s : CachedFs) : Prop :=
  ∀ i, (s.dcache i).valid = true → (s.dcache i).dev = s.dev ∧
    (s.tree.node (s.dcache i).dirIno).findEntry (s.dcache i).name = some (s.dcache i).targetIno

variable {s s' : CachedFs} {av : Avail} {d n : ℕ} {name : List Text} {r : Bool} {fill : Node → Node}

/-- An entry that is hit has the name. -/
theorem hit_iff {e : DEntry} {dev : ℕ} : Dcache.hit e dev d name = true ↔
    e.valid = true ∧ e.dev = dev ∧ e.dirIno = d ∧ e.name = name.take 14 := by
  unfold Dcache.hit
  rw [decide_eq_true_iff, ← nameEq_iff ⟨0, e.name, e.short⟩]

/-- What a slot holds after `dcache_store`. -/
theorem store_cases (c : Dcache) (dev d : ℕ) (name : List Text) (ino : ℕ) (j : Fin 64) :
    c.store dev d name ino j = Dcache.filled dev d name ino ∨ c.store dev d name ino j = c j ∨
      (c.store dev d name ino j).valid = false := by
  -- one slot is filled, in the cache as it is or invalidated
  have hstore : ∃ c' i, c.store dev d name ino = update c' i (Dcache.filled dev d name ino) ∧
      (c' j = c j ∨ (c' j).valid = false) := by
    unfold Dcache.store
    cases (List.finRange 64).find? fun i => Dcache.hit (c i) dev d name with
    | some i => exact ⟨c, i, rfl, .inl rfl⟩
    | none =>
      cases (List.finRange 64).find? fun i => (c i).valid = false with
      | some i => exact ⟨c, i, rfl, .inl rfl⟩
      | none => exact ⟨c.invalidate, 0, rfl, .inr rfl⟩
  obtain ⟨c', i, h, hj⟩ := hstore
  rw [h]
  by_cases e : j = i
  · subst e
    exact .inl (update_self ..)
  · rw [update_of_ne e]
    exact .inr hj

theorem findEntry_tree (s : CachedFs) (d : ℕ) (name : List Text) : (s.findEntry d name).2.tree = s.tree := by
  unfold CachedFs.findEntry
  split
  · rfl
  split
  · rfl
  · split <;> rfl

namespace Coherent

/-- A cache without valid entries is coherent. -/
theorem of_invalid (h : ∀ i, (s.dcache i).valid = false) : s.Coherent := by
  intro i hi
  rw [h i] at hi
  cases hi

section
variable (h : s.Coherent)
include h

/-- What is cached is a directory. -/
theorem isDir {i : Fin 64} (hi : (s.dcache i).valid = true) :
    (s.tree.node (s.dcache i).dirIno).isDir = true := (Node.findEntry_some (h i hi).2).1

/-- The directories with cached names are left as they are. -/
theorem congr (hd : s'.dev = s.dev) (hc : s'.dcache = s.dcache)
    (hnode : ∀ i, (s.dcache i).valid = true → ∀ name,
      (s'.tree.node (s.dcache i).dirIno).findEntry name = (s.tree.node (s.dcache i).dirIno).findEntry name) :
    s'.Coherent := by
  intro i hi
  rw [hc] at hi ⊢
  rw [hd, hnode i hi]
  exact h i hi

/-- The tree changes in no node. -/
theorem relink {t : FsTree} (ht : t.node = s.tree.node) :
    ({ s with tree := t } : CachedFs).Coherent :=
  h.congr rfl rfl fun i _ name => by
    rw [ht]

/-- An inode that is no directory is overwritten. -/
theorem setFile (hfile : (s.tree.node n).isDir = false) (nd : Node) :
    (s.setNode n nd).Coherent := by
  refine h.congr rfl rfl fun i hi name => ?_
  have hne : (s.dcache i).dirIno ≠ n := by
    intro e
    have hdir := h.isDir hi
    rw [e, hfile] at hdir
    cases hdir
  show ((s.tree.setNode n nd).node _).findEntry name = _
  rw [setNode_of_ne hne]

/-- **What `dcache_lookup` finds is what a scan finds.** -/
theorem lookup (hl : s.dcache.lookup s.dev d name = some n) :
    (s.tree.node d).findEntry name = some n := by
  obtain ⟨i, hi, rfl⟩ := Option.map_eq_some_iff.mp hl
  have hit := List.find?_some hi
  obtain ⟨hv, -, hdir, hname⟩ := hit_iff.mp hit
  have hscan := (h i hv).2
  rwa [hdir, hname, Node.findEntry_take] at hscan

/-- **`find_entry`** answers as a scan does, and keeps the cache coherent. -/
theorem findEntry (d : ℕ) (name : List Text) :
    (s.findEntry d name).1 = (s.tree.node d).findEntry name ∧ (s.findEntry d name).2.Coherent := by
  unfold CachedFs.findEntry
  split
  · next hfile => exact ⟨by simp [Node.findEntry, hfile], h⟩
  split
  · next n hl => exact ⟨(h.lookup hl).symm, h⟩
  split
  · next hf => exact ⟨hf.symm, h⟩
  next n hf =>
  refine ⟨hf.symm, fun j hj => ?_⟩
  change (s.dcache.store s.dev d name n j).valid = true at hj
  show (s.dcache.store s.dev d name n j).dev = s.dev ∧ (s.tree.node
    (s.dcache.store s.dev d name n j).dirIno).findEntry (s.dcache.store s.dev d name n j).name =
    some (s.dcache.store s.dev d name n j).targetIno
  rcases store_cases s.dcache s.dev d name n j with hnew | hsame | hinv
  · rw [hnew]
    exact ⟨rfl, (Node.findEntry_take ..).trans hf⟩
  · rw [hsame] at hj ⊢
    exact h j hj
  · rw [hinv] at hj
    cases hj

/-- **The loop of `namei`** goes where it would go without the cache. -/
theorem walk {c : Subject} {room : ℕ → Bool} (n : ℕ) (l : List (List Text)) :
    (CachedFs.walk c room s n l).1 = Linux001.walk s.tree.node c room n l ∧
      (CachedFs.walk c room s n l).2.Coherent := by
  induction l generalizing s n with
  | nil => exact ⟨rfl, h⟩
  | cons name rest ih =>
    unfold CachedFs.walk Linux001.walk
    split
    · split
      · exact ⟨rfl, h⟩
      split
      · exact ih h n
      · exact ⟨rfl, h⟩
    obtain ⟨hscan, hkeep⟩ := h.findEntry n name
    have htree : (s.findEntry n name).2.tree = s.tree := findEntry_tree s n name
    rw [← hscan]
    cases hf : s.findEntry n name with
    | mk r s₁ =>
      rw [hf] at hkeep htree
      cases r with
      | none => exact ⟨rfl, hkeep⟩
      | some m =>
        have hnext := ih hkeep m
        simp only at hkeep htree hnext ⊢
        rw [htree] at hnext ⊢
        split
        · exact ⟨rfl, hkeep⟩
        split
        · exact ⟨rfl, hkeep⟩
        split
        · exact ⟨congrArg (Walk.via · n) hnext.1, hnext.2⟩
        · exact ⟨rfl, hkeep⟩

/-- **`namei`** finds what it would find without the cache. -/
theorem namei (c : Subject) (room : ℕ → Bool) (path : List Text) :
    (s.namei c room path).1 = Linux001.namei s.tree.node c room path ∧ (s.namei c room path).2.Coherent := by
  unfold CachedFs.namei Linux001.namei
  cases (start c room path).1 with
  | none => exact ⟨rfl, h⟩
  | some d => exact h.walk d _

end

end Coherent

/-- `dir_add_entry` leaves nothing in the cache. -/
theorem dirAddEntry_invalid {name : FileName} (h : s.dirAddEntry av d name n = (r, s')) (i : Fin 64) :
    (s'.dcache i).valid = false := by
  unfold CachedFs.dirAddEntry at h
  split at h
  · rw [← (Prod.mk.inj h).2]
    rfl
  · rw [← (Prod.mk.inj h).2]
    rfl

/-- A `dir_remove_entry` that fails does nothing. -/
theorem dirRemoveEntry_failed (h : s.dirRemoveEntry d name = (false, s')) : s' = s := by
  unfold CachedFs.dirRemoveEntry at h
  split at h
  · exact (Prod.mk.inj h).2.symm
  · cases h

namespace Coherent

/-- After `dir_add_entry`, whatever becomes of the tree. -/
theorem of_added {name : FileName} (h : s.dirAddEntry av d name n = (r, s')) (t : FsTree) :
    ({ s' with tree := t } : CachedFs).Coherent := by
  have hinv := dirAddEntry_invalid h
  exact of_invalid hinv

/-- After a `dir_remove_entry` that has found the name. -/
theorem of_removed (h : s.dirRemoveEntry d name = (true, s')) (t : FsTree) :
    ({ s' with tree := t } : CachedFs).Coherent := by
  unfold CachedFs.dirRemoveEntry at h
  split at h
  · cases h
  · obtain rfl := (Prod.mk.inj h).2
    exact of_invalid fun _ => rfl

theorem enterNew {name : FileName} {done : Node → Node} (h : s.Coherent) :
    (s.enterNew av d name fill done).Coherent := by
  unfold CachedFs.enterNew
  split
  · next t hn => exact h.relink ((release_node ..).trans (newInode_none hn))
  split
  · next s₂ ha => exact of_added ha _
  · next s₂ ha => exact of_added ha _

theorem mkdir {name : FileName} (h : s.Coherent)
    (hc : av.zone = false → ∀ n, s.tree.freshInode = some n →
      ∀ i, (s.dcache i).valid = true → (s.dcache i).dirIno ≠ n) :
    (s.mkdir av d name fill).Coherent := by
  unfold CachedFs.mkdir
  split
  · next t hn => exact h.relink ((release_node ..).trans (newInode_none hn))
  next n t hn =>
  split
  · next hz =>
    obtain ⟨hfresh, hnode⟩ := newInode_some hn
    refine h.congr rfl rfl fun i hi name => ?_
    rw [giveUp_node, hnode, update_of_ne (hc hz n hfresh i hi)]
  · split
    · next s₂ ha => exact of_added ha _
    · next s₂ ha => exact of_added ha _

theorem link {name : FileName} : (s.link av d name n).Coherent := by
  unfold CachedFs.link
  split
  · next s₁ ha => exact of_added ha _
  · next s₁ ha => exact of_added ha _

theorem unlink (h : s.Coherent) : (s.unlink d name n).Coherent := by
  unfold CachedFs.unlink
  split
  · next s₁ hr =>
    obtain rfl := dirRemoveEntry_failed hr
    exact h.relink ((release_node ..).trans (release_node ..))
  · next s₁ hr => exact of_removed hr _

theorem rmdir (h : s.Coherent) : (s.rmdir d name n).Coherent := by
  unfold CachedFs.rmdir
  split
  · next s₁ hr =>
    obtain rfl := dirRemoveEntry_failed hr
    exact h.relink ((release_node ..).trans (release_node ..))
  · next s₁ hr => exact of_removed hr _

theorem rename {d' : ℕ} {newbase : FileName} (h : s.Coherent) :
    (s.rename av d name d' newbase n).Coherent := by
  unfold CachedFs.rename
  refine relink ?_ (releaseAll_node ..)
  split
  · split
    · next s₁ ha => exact of_added ha _
    next s₁ ha =>
    split
    · next s₂ hr =>
      obtain rfl := dirRemoveEntry_failed hr
      exact of_added ha _
    · next s₂ hr => exact of_removed hr _
  · split
    · next s₁ hr =>
      obtain rfl := dirRemoveEntry_failed hr
      exact h
    · next s₁ _ => exact of_invalid (dirAddEntry_invalid (Prod.mk.eta).symm)

/-- `sys_chmod` keeps the type. -/
theorem isDir_attr (mode perm : BitVec 16) :
    ((mode &&& 0xf000#16) ||| (perm &&& 0x1ff#16)) &&& 0x4000#16 = mode &&& 0x4000#16 := by
  ext j hj
  interval_cases j <;> simp

theorem attr (h : s.Coherent) (n : ℕ) (perm uid : BitVec 16) (gid count : Byte) :
    (s.call av (.attr n perm uid gid count)).Coherent := by
  refine h.congr rfl rfl fun i _ name => ?_
  show ((s.tree.setNode n _).node _).findEntry name = _
  by_cases e : (s.dcache i).dirIno = n
  · rw [e, setNode_self]
    unfold Node.findEntry Node.isDir
    simp only [isDir_attr]
  · rw [setNode_of_ne e]

/-- An inode without cached names may change. -/
theorem strayed (h : s.Coherent) (ha : ∀ n nd, av.stray = some (n, nd) → ∀ i, (s.dcache i).valid = true →
    (s.dcache i).dirIno ≠ n) : ({ s with tree := s.tree.strayed av } : CachedFs).Coherent := by
  unfold FsTree.strayed
  split
  · exact h
  next n nd hs =>
  refine fun i hi => ⟨(h i hi).1, ?_⟩
  rw [setNode_of_ne (ha n nd hs i hi)]
  exact (h i hi).2

end Coherent

/-- **What keeps the cache coherent.**  Nobody writes into a directory; and a `mkdir` that gets no zone
had not been given the number of a directory with cached names. -/
def Careful (s : CachedFs) (av : Avail) : DirCall → Prop
  | .write n _ => (s.tree.node n).isDir = false
  | .mkdir .. => av.zone = false → ∀ n, s.tree.freshInode = some n →
    ∀ i, (s.dcache i).valid = true → (s.dcache i).dirIno ≠ n
  | _ => True

/-- Every call is careful, and what it changes besides is no directory with cached names. -/
def CarefulRun : CachedFs → List (Avail × DirCall) → Prop
  | _, [] => True
  | s, (av, op) :: ops =>
    (∀ n nd, av.stray = some (n, nd) → ∀ i, (s.dcache i).valid = true → (s.dcache i).dirIno ≠ n) ∧
      { s with tree := s.tree.strayed av }.Careful av op ∧ CarefulRun (s.step av op) ops

theorem Coherent.call {op : DirCall} (h : s.Coherent) (hc : s.Careful av op) : (s.call av op).Coherent := by
  cases op with
  | namei c path => exact (h.namei c av.room path).2.relink (releaseAll_node ..)
  | find d name => exact (h.findEntry d name).2
  | create d name fill done => exact h.enterNew
  | mkdir d name fill => exact h.mkdir hc
  | link d name n => exact Coherent.link
  | unlink d name n => exact h.unlink
  | rmdir d name n => exact h.rmdir
  | rename d oldbase d' newbase n => exact h.rename
  | truncate n =>
    simp only [CachedFs.call]
    split
    · next hfile => exact h.setFile hfile _
    · exact h
  | attr n perm uid gid count => exact h.attr n perm uid gid count
  | put n => exact h.relink (release_node ..)
  | write n l => exact h.setFile hc _
  | pipe => exact h

theorem Coherent.run {ops : List (Avail × DirCall)} (h : s.Coherent) (hc : s.CarefulRun ops) :
    (s.run ops).Coherent := by
  induction ops generalizing s with
  | nil => exact h
  | cons x ops ih => exact ih ((h.strayed hc.1).call hc.2.1) hc.2.2

end CachedFs

/-- A task in the root directory. -/
def inRoot : Subject := { pwd := some 1 }

/-- `stat("hello.txt")`, then a `write` of 48 bytes to the root directory, opened with `O_RDWR`: the
dots, and zeros over the entry of `hello.txt`. -/
def statThenWrite : List (Avail × DirCall) :=
  [(roomy, .namei inRoot helloName), (roomy, .write 1 (((image []).node 1).entries.set 2 ⟨0, [], by decide⟩))]

/-- Two lookups, the second after `pipe()`, which drops what had been changed of the inode 3, and
`mkdir("d")`. -/
def statMkdirStat : List (Avail × DirCall) :=
  [(roomy, .namei inRoot helloName), ({ roomy with stray := some (3, {}) }, .pipe),
    (roomy, .mkdir 1 ⟨text [100], by decide⟩ fun nd => { nd with mode := 0x41ed#16 }),
    (roomy, .namei inRoot (text [100]))]

end Linux001

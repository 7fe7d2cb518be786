import Linux001.Fs.TreeInv

/-!
# Fs — creation and its undoing

`sys_open()` with `O_CREAT`, `sys_mknod()` and `sys_mkdir()` on the names of `Fs.Calls` and the zones of
`Fs.Zone` together: `new_inode()`, `new_block()` and `dir_add_entry()` in their order, and what each
failing step takes back.

* `Restored` is what a failed call leaves: the map of inodes, every inode in use, and the zones, except
  for an indirect block that the parent directory has got and keeps.
* `BitStays` says of the state before the call where it does not.
-/

namespace Linux001

open Function Option Vol Prod

/-- A file system: its names and its zones.  The map of inodes is that of the names. -/
structure FsDisk where
  tree : FsTree
  vol : Vol

/-- What a call finds besides the disk. -/
structure Supply where
  /-- `iget` finds a slot for the inode. -/
  room : ℕ → Bool
  /-- The first descriptor from 3 on that is free. -/
  fd : Option ℕ
  /-- `file_table[]` has a free slot. -/
  file : Option (Fin 64)

/-- For `namei`, which needs no zones. -/
def Supply.avail (sup : Supply) : Avail := ⟨sup.room, true, fun _ => true, sup.file, none⟩

/-- The names that `sys_open` answers itself. -/
def deviceNames : List (List Text) :=
  -- /dev/null, /dev/zero, /dev/tty, /proc/version, /proc/ps, /proc/meminfo
  [text [47, 100, 101, 118, 47, 110, 117, 108, 108], text [47, 100, 101, 118, 47, 122, 101, 114, 111],
    text [47, 100, 101, 118, 47, 116, 116, 121],
    text [47, 112, 114, 111, 99, 47, 118, 101, 114, 115, 105, 111, 110], text [47, 112, 114, 111, 99, 47, 112, 115],
    text [47, 112, 114, 111, 99, 47, 109, 101, 109, 105, 110, 102, 111]]

/-- **`free_block`** of an `int`. -/
def Vol.freeBlockInt (v : Vol) (z : ℕ) : Vol :=
  if z < v.firstdatazone ∨ v.nzones ≤ z then v
  else { v with zmap := update v.zmap (z - v.firstdatazone) false }

theorem Vol.freeBlockInt_zone (v : Vol) (z : ℕ) : (v.freeBlockInt z).zone = v.zone := by
  unfold freeBlockInt
  split <;> rfl

namespace FsDisk

/-- **`new_inode`.** -/
def newInode (s : FsDisk) (room : ℕ → Bool) : Option ℕ × FsDisk :=
  match s.tree.newInode room with
  | (none, t) => (none, ⟨t, s.vol⟩)
  | (some n, t) => (some n, ⟨t, s.vol.newInode n⟩)

def setNode (s : FsDisk) (n : ℕ) (nd : Node) : FsDisk := { s with tree := s.tree.setNode n nd }

def release (s : FsDisk) (n : ℕ) : FsDisk := { s with tree := s.tree.release n }

/-- **`dir_add_entry`**, with `ensure_dir_block`: a free slot, or one more entry, for which the directory
may need zones. -/
def dirAddEntry (s : FsDisk) (d : ℕ) (name : List Text) (n : ℕ) : Bool × FsDisk :=
  if h : name.length ≤ 14 then
    match addEntry ⟨FsTree.short n, name, h⟩ false (s.tree.node d).entries with
    | some l => (true, s.setNode d { s.tree.node d with entries := l })
    | none =>
      let r := s.vol.mapZone d ((s.tree.node d).entries.length * 16 / blockSize)
      if r.1 = 0#16 then (false, { s with vol := r.2 })
      else
        (true, ⟨s.tree.setNode d { s.tree.node d with
          entries := (s.tree.node d).entries ++ [⟨FsTree.short n, name, h⟩] }, r.2⟩)
  else (false, s)

/-- `free_inode`, and `iput` of the inode and of the directory. -/
def giveUp (s : FsDisk) (n d : ℕ) : FsDisk := { s with tree := s.tree.giveUp n d }

/-- A new inode, entered in the directory `d`: `fill` is what the caller makes of it before and
`done` after the entry is made. -/
def enterNew (s : FsDisk) (sup : Supply) (d : ℕ) (name : List Text) (fill done : Node → Node) :
    Option ℕ × FsDisk :=
  match s.newInode sup.room with
  | (none, s) => (none, s.release d)
  | (some n, s) =>
    match (s.setNode n (fill (s.tree.node n))).dirAddEntry d name n with
    | (false, s) => (none, s.giveUp n d)
    | (true, s) => (some n, s.setNode n (done (s.tree.node n)))

/-- The new file's inode, as `sys_open` fills it in. -/
def fileNode (c : Cred) (mode : BitVec 16) (nd : Node) : Node := { nd with
  mode := (mode &&& 0x1ff#16 &&& ~~~c.umask) ||| 0x8000#16
  uid := c.euid
  gid := c.egid.setWidth 8 }

/-- `sys_open`'s `O_CREAT` branch. -/
def create (s : FsDisk) (c : Cred) (sup : Supply) (path : List Text) (mode : BitVec 16) : Option ℕ × FsDisk :=
  match s.tree.parentDir c sup.avail (fun _ => false) path with
  | (none, t) => (none, { s with tree := t })
  | (some (d, name), t) =>
    match (t.node d).findEntry name with
    | some n => (if sup.room n then some n else none, { s with tree := t.release d })
    | none =>
      match enterNew { s with tree := t } sup d name (fileNode c mode) id with
      | (none, s) => (none, s)
      | (some n, s) => (some n, s.release d)

/-- The inode that `sys_open` is to open, held. -/
def openInode (s : FsDisk) (c : Cred) (sup : Supply) (path : List Text) (flag : Word) (mode : BitVec 16) :
    Option ℕ × FsDisk :=
  match s.tree.lookup c sup.avail path with
  | (some n, t) => (some n, { s with tree := t })
  | (none, t) =>
    if flag &&& 0x40#32 ≠ 0#32 then create { s with tree := t } c sup path mode else (none, { s with tree := t })

/-- The tests that `sys_open` makes of the inode and of `file_table[]` once it has the inode: the slot it
takes. -/
def slotFor (s : FsDisk) (c : Cred) (sup : Supply) (flag : Word) (n : ℕ) : Option (Fin 64) :=
  if openMask flag ≠ 0#32 ∧ (s.tree.node n).permits (s.tree.subject c) (openMask flag) = false then none
  else sup.file.filter fun i => s.tree.holder (.file i) = none

/-- **`sys_open`.** -/
def sysOpen (s : FsDisk) (c : Cred) (sup : Supply) (path : List Text) (flag : Word) (mode : BitVec 16) :
    ℤ × FsDisk :=
  match sup.fd with
  | none => (-1, s)
  | some fd =>
    if path ∈ deviceNames then (if sup.file.isSome then fd else -1, s)
    else
      match s.openInode c sup path flag mode with
      | (none, s) => (-1, s)
      | (some n, s) =>
        match s.slotFor c sup flag n with
        | none => (-1, s.release n)
        | some i =>
          if flag &&& 0x200#32 ≠ 0#32 ∧ (s.tree.node n).isDir = false then
            (fd, ⟨(s.tree.setNode n { s.tree.node n with entries := [] }).hold (.file i) n, s.vol.truncate n⟩)
          else (fd, { s with tree := s.tree.hold (.file i) n })

/-- The new inode, as `sys_mknod` fills it in. -/
def nodNode (c : Cred) (mode : BitVec 16) (nd : Node) : Node := { nd with
  mode := mode
  uid := c.euid
  gid := c.egid.setWidth 8
  nlinks := 1#8 }

/-- **`sys_mknod`.** -/
def sysMknod (s : FsDisk) (c : Cred) (sup : Supply) (path : List Text) (mode : BitVec 16) : ℤ × FsDisk :=
  match s.tree.parentDir c sup.avail (fun _ => false) path with
  | (none, t) => (-1, { s with tree := t })
  | (some (d, name), t) =>
    match (t.node d).findEntry name with
    | some _ => (-1, { s with tree := t.release d })
    | none =>
      match enterNew { s with tree := t } sup d name id (nodNode c mode) with
      | (none, s) => (-1, s)
      | (some n, s) => (0, (s.release d).release n)

/-- The new directory's inode. -/
def dirNode (c : Cred) (mode : BitVec 16) (n d : ℕ) (nd : Node) : Node := { nd with
  mode := (mode &&& 0x1ff#16) ||| 0x4000#16
  uid := c.euid
  gid := c.egid.setWidth 8
  nlinks := 2#8
  entries := FsTree.newEntries n d }

/-- **`sys_mkdir`.** -/
def sysMkdir (s : FsDisk) (c : Cred) (sup : Supply) (path : List Text) (mode : BitVec 16) : ℤ × FsDisk :=
  match s.tree.parentDir c sup.avail (fun _ => false) path with
  | (none, t) => (-1, { s with tree := t })
  | (some (d, name), t) =>
    match (t.node d).findEntry name with
    | some _ => (-1, { s with tree := t.release d })
    | none =>
      match newInode { s with tree := t } sup.room with
      | (none, s) => (-1, s.release d)
      | (some n, s) =>
        match s.vol.newBlock with
        | none => (-1, s.giveUp n d)
        | some (block, v) =>
          match dirAddEntry ⟨s.tree.setNode n (dirNode c mode n d (s.tree.node n)),
              v.setZone n 0 (BitVec.ofNat 16 block)⟩ d name n with
          | (false, s) => (-1, { s with vol := s.vol.freeBlockInt block }.giveUp n d)
          | (true, s) =>
            (0, ((s.setNode d { s.tree.node d with nlinks := (s.tree.node d).nlinks + 1#8 }).release d).release n)

/-! ### The entry -/

variable {s s' : FsDisk} {c : Cred} {sup : Supply} {path name : List Text} {flag : Word} {mode : BitVec 16}
  {n d : ℕ}

/-- **What `dir_add_entry` does.**  Where it fails, it may have asked for zones. -/
theorem dirAddEntry_cases (s : FsDisk) (d : ℕ) (name : List Text) (n : ℕ) :
    (∃ nd v, s.dirAddEntry d name n = (true, ⟨s.tree.setNode d nd, v⟩)) ∨
    ∃ v, s.dirAddEntry d name n = (false, { s with vol := v }) ∧
      (v = s.vol ∨ ∃ k, (s.vol.mapZone d k).1 = 0#16 ∧ v = (s.vol.mapZone d k).2) := by
  unfold dirAddEntry
  split
  · split
    · exact .inl ⟨_, _, rfl⟩
    · dsimp only
      split
      · next hz => exact .inr ⟨_, rfl, .inr ⟨_, hz, rfl⟩⟩
      · exact .inl ⟨_, _, rfl⟩
  · exact .inr ⟨_, rfl, .inl rfl⟩

/-- Whether the entry can be made rests on the directory and its zones. -/
theorem dirAddEntry_fst (hnode : s'.tree.node d = s.tree.node d)
    (hzone : ∀ k, (s'.vol.mapZone d k).1 = (s.vol.mapZone d k).1) :
    (s'.dirAddEntry d name n).1 = (s.dirAddEntry d name n).1 := by
  unfold dirAddEntry
  rw [hnode]
  split
  · split
    · rfl
    · dsimp only
      rw [hzone]
      split <;> rfl
  · rfl

end FsDisk

/-! ### The names after a failure -/

namespace FsTree

variable {t t₁ : FsTree} {c : Cred} {av : Avail} {n d : ℕ} {path name : List Text} {bad : List Text → Bool}

/-- An inode whose bit is set has a link or a holder. -/
def Settled (t : FsTree) : Prop := ∀ n, t.imap n = true → (t.node n).nlinks ≠ 0#8 ∨ (t.node n).count ≠ 0#8

/-- Then `iput` frees nothing. -/
theorem Settled.release (h : t.Settled) (n : ℕ) : t.release n = t := by
  unfold FsTree.release
  split
  · next hz =>
    have hn : t.imap n = false := by
      refine Bool.eq_false_iff.mpr fun hn => ?_
      exact (h n hn).elim (fun h' => h' hz.2) fun h' => h' hz.1
    unfold freeInode
    rw [← hn, update_eq_self]
  · rfl

theorem Settled.releaseAll (h : t.Settled) (l : List ℕ) : t.releaseAll l = t := by
  induction l with
  | nil => rfl
  | cons n l ih =>
    show (t.release n).releaseAll l = t
    rw [h.release]
    exact ih

theorem Settled.lookup (h : t.Settled) (c : Cred) (av : Avail) (path : List Text) :
    t.lookup c av path = ((namei t.node (t.subject c) av.room path).result, t) := by
  unfold FsTree.lookup
  dsimp only
  rw [h.releaseAll]

/-- `d` is the directory that a path names an entry of. -/
def IsParent (t : FsTree) (c : Cred) (room : ℕ → Bool) (path : List Text) (d : ℕ) : Prop :=
  ∃ dirpath name, splitPath path = some (dirpath, name) ∧ (namei t.node (t.subject c) room dirpath).result = some d

theorem Settled.parentDir (h : t.Settled) (c : Cred) (av : Avail) (bad : List Text → Bool) (path : List Text) :
    t.parentDir c av bad path = (none, t) ∨
      ∃ d name, t.parentDir c av bad path = (some (d, name), t) ∧ t.IsParent c av.room path d := by
  unfold FsTree.parentDir
  cases hs : splitPath path with
  | none => exact .inl rfl
  | some dn =>
    obtain ⟨dirpath, name⟩ := dn
    dsimp only
    split
    · exact .inl rfl
    rw [h.lookup]
    cases hr : (namei t.node (t.subject c) av.room dirpath).result with
    | none => exact .inl rfl
    | some d =>
      dsimp only
      rw [h.release]
      split
      · exact .inl rfl
      split
      · exact .inl rfl
      · exact .inr ⟨d, name, rfl, dirpath, name, hs, hr⟩

/-- `new_inode` has taken `n`, which is now being filled in. -/
structure Begun (t : FsTree) (n : ℕ) (t₁ : FsTree) : Prop where
  free : t.imap n = false
  imap : t₁.imap = update t.imap n true
  node : ∀ m, m ≠ n → t₁.node m = t.node m

theorem Begun.setNode (h : t.Begun n t₁) (nd : Node) : t.Begun n (t₁.setNode n nd) :=
  ⟨h.free, h.imap, fun m hm => (update_of_ne hm ..).trans (h.node m hm)⟩

/-- An inode in use is not the new one. -/
theorem Begun.ne (h : t.Begun n t₁) {m : ℕ} (hm : t.imap m = true) : m ≠ n := by
  rintro rfl
  exact Bool.false_ne_true (h.free.symm.trans hm)

/-- What `free_inode` takes back. -/
theorem Begun.giveUp (h : t.Begun n t₁) (hs : t.Settled) (d : ℕ) :
    (t₁.giveUp n d).imap = t.imap ∧ ∀ m, t.imap m = true → (t₁.giveUp n d).node m = t.node m := by
  have himap : (t₁.freeInode n).imap = t.imap := by
    unfold freeInode
    rw [h.imap, update_idem, ← h.free, update_eq_self]
  have hnode : ∀ m, t.imap m = true → (t₁.freeInode n).node m = t.node m := fun m hm => h.node m (h.ne hm)
  have hsettled : (t₁.freeInode n).Settled := by
    intro m hm
    rw [himap] at hm
    rw [hnode m hm]
    exact hs m hm
  unfold FsTree.giveUp
  rw [hsettled.release, hsettled.release]
  exact ⟨himap, hnode⟩

theorem freshInode_free (h : t.freshInode = some n) : t.imap n = false := by
  obtain ⟨j, hj, rfl⟩ := map_eq_some_iff.mp h
  exact (findClear_some hj).1

end FsTree

/-! ### The zones after a failure -/

namespace Vol

variable {v v' v₁ : Vol} {d k j n : ℕ} {i : Fin 8} {z : BitVec 16}

/-- What a failed call leaves of the data zones, whatever `new_block` returned.  Bits beyond them, which
`new_block` takes too, are no zones. -/
structure Left (v v' : Vol) (d : ℕ) : Prop where
  first : v'.firstdatazone = v.firstdatazone
  last : v'.nzones = v.nzones
  zmap : ∀ j, v.firstdatazone + j < v.nzones →
    v'.zmap j = v.zmap j ∨ v.firstdatazone + j = (v'.zone d 7).toNat
  zone : ∀ m, m ≠ d → v'.zone m = v.zone m

/-- The bit `j` is set. -/
def mark (v : Vol) (j : ℕ) : Vol := { v with zmap := update v.zmap j true }

theorem newBlock_spec {block : ℕ} (h : v.newBlock = some (block, v')) :
    ∃ j, v.zmap j = false ∧ block = v.firstdatazone + j ∧ v' = v.mark j := by
  obtain ⟨j, hj, he⟩ := map_eq_some_iff.mp h
  obtain ⟨rfl, rfl⟩ := Prod.mk.inj he
  exact ⟨j, (findClear_some hj).1, rfl, rfl⟩

theorem alloc_spec (v : Vol) : v.alloc = (0#16, v) ∨
    ∃ j, v.zmap j = false ∧ v.alloc = (BitVec.ofNat 16 (v.firstdatazone + j), v.mark j) := by
  unfold alloc
  cases hb : v.newBlock with
  | none => exact .inl rfl
  | some zv =>
    obtain ⟨z, v'⟩ := zv
    obtain ⟨j, hj, rfl, rfl⟩ := newBlock_spec hb
    exact .inr ⟨j, hj, rfl⟩

/-- A zone whose number does not fit is beyond the data zones. -/
theorem Super.stray (hs : Super v) (hz : (BitVec.ofNat 16 (v.firstdatazone + j)).toNat ≠ v.firstdatazone + j) :
    v.nzones ≤ v.firstdatazone + j := by
  have hshort := hs.short
  by_contra hlt
  exact hz (Nat.mod_eq_of_lt (by omega))

/-- An allocation has failed: nothing has changed, unless the bit of no zone was set. -/
def Spent (v v' : Vol) : Prop :=
  v' = v ∨ ∃ j, v.zmap j = false ∧ v.nzones ≤ v.firstdatazone + j ∧ v' = v.mark j

theorem alloc_spent (hs : Super v) (h : v.alloc.1 = 0#16) : Spent v v.alloc.2 := by
  obtain ha | ⟨j, hj, ha⟩ := v.alloc_spec
  · exact .inl (congrArg snd ha)
  refine .inr ⟨j, hj, hs.stray fun hz => ?_, congrArg snd ha⟩
  rw [ha] at h
  have hpos := hs.pos
  rw [show BitVec.ofNat 16 (v.firstdatazone + j) = 0#16 from h, BitVec.toNat_ofNat, Nat.zero_mod] at hz
  omega

theorem setZone_self (h : v.zone n i = z) : v.setZone n i z = v := by
  unfold setZone
  rw [← h, update_eq_self, update_eq_self]

/-- Storing the 0 that was there changes nothing. -/
theorem Spent.setZone (h : Spent v v') (hz : v.zone n i = 0#16) : Spent v (v'.setZone n i 0#16) := by
  obtain rfl | ⟨j, hj, hlast, rfl⟩ := h
  · exact .inl (setZone_self hz)
  · exact .inr ⟨j, hj, hlast, setZone_self hz⟩

theorem Spent.setBlock (h : Spent v v') : Spent v (v'.setBlock z (v.block z.toNat)) := by
  obtain rfl | ⟨j, hj, hlast, rfl⟩ := h
  · refine .inl ?_
    unfold setBlock
    rw [update_eq_self]
  · refine .inr ⟨j, hj, hlast, ?_⟩
    unfold setBlock mark
    rw [update_eq_self]

theorem entry_spent (hs : Super v) (h : (v.entry z k).1 = 0#16) : Spent v (v.entry z k).2 := by
  unfold entry at h ⊢
  split at h
  · next hz =>
    rw [if_pos hz]
    rw [h, ← hz, Block.setShort_self]
    exact (alloc_spent hs h).setBlock
  · next hz => exact absurd h hz

/-- **A directory that cannot grow** has at most got an indirect block. -/
theorem mapZone_spent (hs : Super v) (h : (v.mapZone d k).1 = 0#16) :
    Spent v (v.mapZone d k).2 ∨ ∃ j, v.zmap j = false ∧
        Spent ((v.mark j).setZone d 7 (BitVec.ofNat 16 (v.firstdatazone + j))) (v.mapZone d k).2 := by
  unfold mapZone at h ⊢
  split at h
  · next hk =>
    rw [dif_pos hk]
    split at h
    · next hz =>
      rw [if_pos hz]
      rw [h]
      exact .inl ((alloc_spent hs h).setZone hz)
    · next hz => exact absurd h hz
  next hk =>
  rw [dif_neg hk]
  unfold indirect at h ⊢
  by_cases hz : v.zone d 7 = 0#16
  · simp only [if_pos hz] at h ⊢
    by_cases ha : v.alloc.1 = 0#16
    · rw [if_pos ha, ha]
      exact .inl ((alloc_spent hs ha).setZone hz)
    rw [if_neg ha] at h ⊢
    obtain h₀ | ⟨j, hj, hj'⟩ := v.alloc_spec
    · exact absurd (congrArg fst h₀) ha
    · rw [hj'] at h ⊢
      exact .inr ⟨j, hj, entry_spent ⟨hs.pos, hs.short⟩ h⟩
  · simp only [if_neg hz] at h ⊢
    exact .inl (entry_spent hs h)

theorem Spent.left (h : Spent v v') (d : ℕ) : Left v v' d := by
  obtain rfl | ⟨j, hj, hlast, rfl⟩ := h
  · exact ⟨rfl, rfl, fun _ _ => .inl rfl, fun _ _ => rfl⟩
  refine ⟨rfl, rfl, fun i hi => .inl (update_of_ne ?_ ..), fun _ _ => rfl⟩
  rintro rfl
  omega

theorem mapZone_left (hs : Super v) (h : (v.mapZone d k).1 = 0#16) : Left v (v.mapZone d k).2 d := by
  obtain hspent | ⟨j, hj, hspent⟩ := mapZone_spent hs h
  · exact hspent.left d
  have hl := hspent.left d
  have hzone : (v.mapZone d k).2.zone d 7 = BitVec.ofNat 16 (v.firstdatazone + j) := by
    have hown : ((v.mark j).setZone d 7 (BitVec.ofNat 16 (v.firstdatazone + j))).zone d 7 =
        BitVec.ofNat 16 (v.firstdatazone + j) := by
      simp [setZone]
    obtain he | ⟨_, -, -, he⟩ := hspent
    · rw [he, hown]
    · rw [he]
      exact hown
  refine ⟨hl.first, hl.last, fun i hi => ?_, fun m hm => ?_⟩
  · by_cases e : i = j
    · subst e
      have hshort := hs.short
      right
      rw [hzone, BitVec.toNat_ofNat, Nat.mod_eq_of_lt (by omega)]
    · exact (hl.zmap i hi).imp_left fun h' => h'.trans (update_of_ne e ..)
  · refine (hl.zone m hm).trans ?_
    exact update_of_ne hm ..

theorem setZone_newInode (hd : d ≠ n) : (v.newInode n).setZone d i z = (v.setZone d i z).newInode n := by
  unfold setZone newInode
  simp only [update_of_ne hd]
  rw [update_comm hd]

theorem alloc_newInode : (v.newInode n).alloc = (v.alloc.1, v.alloc.2.newInode n) := by
  unfold alloc newBlock newInode
  cases findClear v.zmap 0 v.bits <;> rfl

/-- A new inode does not matter to another one's zones. -/
theorem mapZone_newInode (hd : d ≠ n) (k : ℕ) : ((v.newInode n).mapZone d k).1 = (v.mapZone d k).1 := by
  have hzone : (v.newInode n).zone d = v.zone d := update_of_ne hd ..
  have hentry : ∀ (v : Vol) (z : BitVec 16) (k : ℕ), ((v.newInode n).entry z k).1 = (v.entry z k).1 := by
    intro v z k
    unfold entry
    rw [alloc_newInode]
    show (if (v.block z.toNat).short k = 0#16 then _ else _ : BitVec 16 × Vol).1 = _
    split <;> rfl
  have hind : (v.newInode n).indirect d = ((v.indirect d).1, (v.indirect d).2.newInode n) := by
    unfold indirect
    rw [hzone, alloc_newInode]
    split
    · rw [setZone_newInode hd]
    · rfl
  unfold mapZone
  rw [hzone, alloc_newInode, hind]
  split
  · split <;> rfl
  · split
    · rfl
    · exact hentry ..

end Vol

/-! ### A failed call -/

/-- The calls that create. -/
inductive CreateCall where
  | open (flag : Word) (mode : BitVec 16)
  | mknod (mode : BitVec 16)
  | mkdir (mode : BitVec 16)

namespace FsDisk

variable {s s' : FsDisk} {c : Cred} {sup : Supply} {path name : List Text} {flag : Word} {mode : BitVec 16}
  {n d : ℕ} {parent : ℕ → Prop}

def creation (s : FsDisk) (c : Cred) (sup : Supply) (path : List Text) : CreateCall → ℤ × FsDisk
  | .open flag mode => s.sysOpen c sup path flag mode
  | .mknod mode => s.sysMknod c sup path mode
  | .mkdir mode => s.sysMkdir c sup path mode

/-- **Everything is as it was**, except that the parent directory may have got an indirect block. -/
structure Restored (s s' : FsDisk) (parent : ℕ → Prop) : Prop where
  imap : s'.tree.imap = s.tree.imap
  node : ∀ m, s.tree.imap m = true → s'.tree.node m = s.tree.node m
  zmap : ∀ j, s.vol.firstdatazone + j < s.vol.nzones →
    s'.vol.zmap j = s.vol.zmap j ∨ ∃ d, parent d ∧ s.vol.firstdatazone + j = (s'.vol.zone d 7).toNat
  zone : ∀ m, s.tree.imap m = true → ¬ parent m → s'.vol.zone m = s.vol.zone m

/-- What the calls rely on. -/
structure Provided (s : FsDisk) (parent : ℕ → Prop) : Prop where
  super : s.vol.Super
  settled : s.tree.Settled
  used : ∀ d, parent d → s.tree.imap d = true

/-- What `sys_open` tests before it creates a file. -/
def Creates (s : FsDisk) (c : Cred) (sup : Supply) (path : List Text) : CreateCall → Prop
  | .open flag _ => sup.fd ≠ none ∧ path ∉ deviceNames ∧
      (namei s.tree.node (s.tree.subject c) sup.room path).result = none ∧ flag &&& 0x40#32 ≠ 0#32
  | .mknod _ | .mkdir _ => True

/-- What `sys_open` tests once there is the file: its mode, and a slot of `file_table[]`. -/
def Granted (s : FsDisk) (c : Cred) (sup : Supply) : CreateCall → Prop
  | .open flag mode =>
      (openMask flag ≠ 0#32 → (fileNode c mode { nlinks := 1#8 }).permits (s.tree.subject c) (openMask flag) = true) ∧
      ∃ i, sup.file = some i ∧ s.tree.holder (.file i) = none
  | .mknod _ | .mkdir _ => True

/-- The path is that of a name which the directory `d` has not, and may be given. -/
def Missing (s : FsDisk) (c : Cred) (sup : Supply) (path : List Text) (d : ℕ) (name : List Text) : Prop :=
  (s.tree.parentDir c sup.avail (fun _ => false) path).1 = some (d, name) ∧ (s.tree.node d).findEntry name = none

/-- **The bit that `new_inode` has set stays**: the path is that of a name to be made, an inode is free, and
`inode_table[]` has no slot for it, or the entry can be made and the file not be opened. -/
def BitStays (s : FsDisk) (c : Cred) (sup : Supply) (path : List Text) (op : CreateCall) : Prop :=
  s.Creates c sup path op ∧ ∃ d name n, s.Missing c sup path d name ∧ s.tree.freshInode = some n ∧
    (sup.room n = false ∨ (s.dirAddEntry d name n).1 = true ∧ ¬ s.Granted c sup op)

theorem Restored.refl (s : FsDisk) (parent : ℕ → Prop) : Restored s s parent :=
  ⟨rfl, fun _ _ => rfl, fun _ _ => .inl rfl, fun _ _ _ => rfl⟩

/-- A failed call has restored everything, or `P` and it has left a bit. -/
def Accounts (s s' : FsDisk) (parent : ℕ → Prop) (P : Prop) : Prop :=
  ¬ P ∧ Restored s s' parent ∨ P ∧ ∃ n, s.tree.imap n = false ∧ s'.tree.imap n = true

theorem Accounts.same {P : Prop} (h : ¬ P) : Accounts s s parent P := .inl ⟨h, Restored.refl s parent⟩

theorem Accounts.iff {P : Prop} (h : Accounts s s' parent P) : Restored s s' parent ↔ ¬ P := by
  obtain ⟨hP, hr⟩ | ⟨hP, n, hn, hn'⟩ := h
  · exact ⟨fun _ => hP, fun _ => hr⟩
  · refine ⟨fun hr => ?_, fun h => absurd hP h⟩
    rw [hr.imap, hn] at hn'
    cases hn'

section
variable (h : s.Provided parent)
include h

theorem Provided.release (n : ℕ) : s.release n = s := by
  unfold FsDisk.release
  rw [h.settled.release]

/-- A free inode is no parent. -/
theorem Provided.ne (hd : parent d) (hn : s.tree.imap n = false) : d ≠ n := by
  rintro rfl
  exact Bool.false_ne_true (hn.symm.trans (h.used d hd))

omit h in
/-- **What `new_inode` does.** -/
theorem newInode_cases (s : FsDisk) (sup : Supply) :
    s.tree.freshInode = none ∧ s.newInode sup.room = (none, s) ∨
      ∃ n, s.tree.freshInode = some n ∧ s.tree.imap n = false ∧
        (sup.room n = false ∧
          s.newInode sup.room = (none, { s with tree := { s.tree with imap := update s.tree.imap n true } }) ∨
        sup.room n = true ∧ ∃ t, s.newInode sup.room = (some n, ⟨t, s.vol.newInode n⟩) ∧ s.tree.Begun n t ∧
          t.holder = s.tree.holder ∧ t.node n = { nlinks := 1#8, count := (s.tree.node n).count }) := by
  unfold newInode FsTree.newInode
  cases hf : s.tree.freshInode with
  | none => exact .inl ⟨rfl, rfl⟩
  | some n =>
    have hfree := FsTree.freshInode_free hf
    refine .inr ⟨n, rfl, hfree, ?_⟩
    cases hr : sup.room n with
    | false => exact .inl ⟨rfl, by simp only [hr, Bool.false_eq_true, if_false]⟩
    | true =>
      refine .inr ⟨rfl, { s.tree with imap := update s.tree.imap n true }.setNode n
        { nlinks := 1#8, count := (s.tree.node n).count }, ?_, ⟨hfree, rfl, fun m hm => update_of_ne hm ..⟩, rfl, ?_⟩
      · simp only [hr, if_true]
      · exact update_self ..

omit h in
theorem release_node (s : FsDisk) (d : ℕ) :
    (s.release d).tree.node = s.tree.node ∧ (s.release d).tree.holder = s.tree.holder := by
  unfold release FsTree.release
  split <;> exact ⟨rfl, rfl⟩

omit h in
theorem release_imap_of_ne (hd : d ≠ n) : (s.release d).tree.imap n = s.tree.imap n := by
  show (s.tree.release d).imap n = _
  rw [FsTree.TreeInv.release_imap, if_neg fun h => hd h.1.symm]

/-- The new inode is given up, and the zones are as a failed growth of the parent leaves them. -/
theorem Provided.giveUp {t : FsTree} {v : Vol} (hb : s.tree.Begun n t)
    (hzmap : ∀ j, s.vol.firstdatazone + j < s.vol.nzones →
      v.zmap j = s.vol.zmap j ∨ s.vol.firstdatazone + j = (v.zone d 7).toNat)
    (hzone : ∀ m, m ≠ n → m ≠ d → v.zone m = s.vol.zone m) (hd : parent d) :
    Restored s (giveUp ⟨t, v⟩ n d) parent := by
  obtain ⟨himap, hnode⟩ := hb.giveUp h.settled d
  refine ⟨himap, hnode, fun j hj => (hzmap j hj).imp_right fun hj => ⟨d, hd, hj⟩, fun m hm hp => ?_⟩
  exact hzone m (hb.ne hm) fun e => hp (e ▸ hd)

omit h in
theorem dirAddEntry_left (hs : s.vol.Super) (hf : (s.dirAddEntry d name n).1 = false) :
    ∃ v, s.dirAddEntry d name n = (false, { s with vol := v }) ∧ s.vol.Left v d := by
  obtain ⟨nd, v, h⟩ | ⟨v, h, hv⟩ := s.dirAddEntry_cases d name n
  · rw [h] at hf
    cases hf
  refine ⟨v, h, ?_⟩
  obtain rfl | ⟨k, hz, rfl⟩ := hv
  · exact Vol.Spent.left (.inl rfl) d
  · exact mapZone_left hs hz

/-- An inode is taken and entered, or everything is restored, or the bit stays for want of a slot. -/
theorem Provided.enterNew_cases (sup : Supply) (hd : parent d) (name : List Text) (fill done : Node → Node) :
    ∃ o s', s.enterNew sup d name fill done = (o, s') ∧
      (o = none ∧ (∀ n, s.tree.freshInode = some n → sup.room n = true ∧ (s.dirAddEntry d name n).1 = false) ∧
        Restored s s' parent ∨
      ∃ n, s.tree.freshInode = some n ∧ s.tree.imap n = false ∧ s'.tree.imap n = true ∧
        (o = none ∧ sup.room n = false ∨ o = some n ∧ (s.dirAddEntry d name n).1 = true ∧
          s'.tree.holder = s.tree.holder ∧
          s'.tree.node n = done (fill { nlinks := 1#8, count := (s.tree.node n).count }))) := by
  unfold enterNew
  obtain ⟨hf, hn⟩ | ⟨n, hf, hfree, ⟨hr, hn⟩ | ⟨hr, t, hn, hb, hh, ht⟩⟩ := newInode_cases s sup
  · rw [hn, hf]
    refine ⟨none, _, rfl, .inl ⟨rfl, nofun, ?_⟩⟩
    rw [h.release]
    exact .refl s parent
  all_goals
    have hdn : d ≠ n := h.ne hd hfree
    rw [hn]
    dsimp only
  · refine ⟨none, _, rfl, .inr ⟨n, hf, hfree, ?_, .inl ⟨rfl, hr⟩⟩⟩
    rw [release_imap_of_ne hdn]
    exact update_self ..
  have hadd : ((setNode ⟨t, s.vol.newInode n⟩ n (fill (t.node n))).dirAddEntry d name n).1 =
      (s.dirAddEntry d name n).1 :=
    dirAddEntry_fst ((update_of_ne hdn ..).trans (hb.node d hdn)) (mapZone_newInode hdn)
  cases hE : (setNode ⟨t, s.vol.newInode n⟩ n (fill (t.node n))).dirAddEntry d name n with
  | mk b s₁ =>
  rw [hE] at hadd
  cases b with
  | true =>
    obtain ⟨nd, v, he⟩ | ⟨v, he, -⟩ := dirAddEntry_cases (setNode ⟨t, s.vol.newInode n⟩ n (fill (t.node n))) d name n
    · obtain rfl := congrArg snd (he.symm.trans hE)
      refine ⟨some n, _, rfl, .inr ⟨n, hf, hfree, ?_, .inr ⟨rfl, hadd.symm, hh, ?_⟩⟩⟩
      · show t.imap n = true
        rw [hb.imap, update_self]
      · refine (update_self ..).trans (congrArg done ?_)
        refine (update_of_ne hdn.symm ..).trans ((update_self ..).trans ?_)
        rw [ht]
    · cases he.symm.trans hE
  | false =>
    obtain ⟨v, hv, hl⟩ := dirAddEntry_left (s := setNode ⟨t, s.vol.newInode n⟩ n (fill (t.node n)))
      ⟨h.super.pos, h.super.short⟩ (congrArg fst hE)
    obtain rfl : setNode ⟨t, v⟩ n (fill (t.node n)) = s₁ := congrArg snd (hv.symm.trans hE)
    refine ⟨none, _, rfl, .inl ⟨rfl, fun m hm => ?_, h.giveUp (hb.setNode _) hl.zmap (fun m hm hmd => ?_) hd⟩⟩
    · obtain rfl := some.inj (hf.symm.trans hm)
      exact ⟨hr, hadd.symm⟩
    · exact (hl.zone m hmd).trans (update_of_ne hm ..)

omit h in
/-- What `BitStays` says of a name that is not there. -/
theorem Missing.bitStays_iff {op : CreateCall} (hp : s.Missing c sup path d name) :
    s.BitStays c sup path op ↔ s.Creates c sup path op ∧ ∃ n, s.tree.freshInode = some n ∧
      (sup.room n = false ∨ (s.dirAddEntry d name n).1 = true ∧ ¬ s.Granted c sup op) := by
  constructor
  · rintro ⟨hc, d', name', n, hp', hf, ho⟩
    cases hp.1.symm.trans hp'.1
    exact ⟨hc, n, hf, ho⟩
  · rintro ⟨hc, n, hf, ho⟩
    exact ⟨hc, d, name, n, hp, hf, ho⟩

/-- **How the calls begin**: the path leads to no directory that may be written, or to a name that is there, or
to one that is not. -/
theorem Provided.begins (c : Cred) (sup : Supply) (path : List Text) (op : CreateCall) :
    s.tree.parentDir c sup.avail (fun _ => false) path = (none, s.tree) ∧ ¬ s.BitStays c sup path op ∨
    ∃ d name, s.tree.parentDir c sup.avail (fun _ => false) path = (some (d, name), s.tree) ∧
      s.tree.IsParent c sup.room path d ∧
      ((∃ m, (s.tree.node d).findEntry name = some m) ∧ ¬ s.BitStays c sup path op ∨
        (s.tree.node d).findEntry name = none ∧ s.Missing c sup path d name) := by
  obtain hp | ⟨d, name, hp, hd⟩ := h.settled.parentDir c sup.avail (fun _ => false) path
  · refine .inl ⟨hp, ?_⟩
    rintro ⟨-, d, name, n, hm, -⟩
    rw [Missing, hp] at hm
    cases hm.1
  refine .inr ⟨d, name, hp, hd, ?_⟩
  cases hn : (s.tree.node d).findEntry name with
  | some m =>
    refine .inl ⟨⟨m, rfl⟩, ?_⟩
    rintro ⟨-, d', name', n, hm, -⟩
    rw [Missing, hp] at hm
    cases hm.1
    cases hn.symm.trans hm.2
  | none => exact .inr ⟨rfl, congrArg fst hp, hn⟩

/-- **`enterNew` in a call that has got there** and fails with it. -/
theorem Provided.enterNew_accounts {op : CreateCall} (hc : s.Creates c sup path op)
    (hp : s.Missing c sup path d name) (hd : parent d) {fill done : Node → Node}
    (hE : s.enterNew sup d name fill done = (none, s')) : Accounts s s' parent (s.BitStays c sup path op) := by
  obtain ⟨o, s₁, hE', hcases⟩ := h.enterNew_cases sup hd name fill done
  cases hE'.symm.trans hE
  obtain ⟨-, hadd, hr⟩ | ⟨n, hf, hfree, himap, ⟨-, hr⟩ | ⟨hs, -⟩⟩ := hcases
  · refine .inl ⟨fun hb => ?_, hr⟩
    obtain ⟨-, n, hf, hno | ⟨hyes, -⟩⟩ := hp.bitStays_iff.mp hb
    · exact Bool.false_ne_true (hno.symm.trans (hadd n hf).1)
    · exact Bool.false_ne_true ((hadd n hf).2.symm.trans hyes)
  · exact .inr ⟨hp.bitStays_iff.mpr ⟨hc, n, hf, .inl hr⟩, n, hfree, himap⟩
  · cases hs

omit h in
/-- The zone of a new directory goes back. -/
theorem freeBlockInt_left {v₀ v v' : Vol} {block : ℕ} (hb : v₀.newBlock = some (block, v)) (v₁ : Vol)
    (hzmap : v₁.zmap = v.zmap) (hfirst : v₁.firstdatazone = v₀.firstdatazone) (hlast : v₁.nzones = v₀.nzones)
    (hl : v₁.Left v' d) (j : ℕ) (hj : v₀.firstdatazone + j < v₀.nzones) :
    (v'.freeBlockInt block).zmap j = v₀.zmap j ∨ v₀.firstdatazone + j = (v'.zone d 7).toNat := by
  obtain ⟨i, hclear, rfl, rfl⟩ := newBlock_spec hb
  have hfirst' : v'.firstdatazone = v₀.firstdatazone := hl.first.trans hfirst
  have hlast' : v'.nzones = v₀.nzones := hl.last.trans hlast
  have hrest : j ≠ i → v'.zmap j = v₀.zmap j ∨ v₀.firstdatazone + j = (v'.zone d 7).toNat := fun e => by
    have h' := hl.zmap j (hfirst ▸ hlast ▸ hj)
    rw [hzmap, hfirst] at h'
    exact h'.imp_left fun h' => h'.trans (update_of_ne e ..)
  unfold freeBlockInt
  rw [hfirst', hlast']
  split
  · exact hrest (by rintro rfl; omega)
  · rw [Nat.add_sub_cancel_left]
    by_cases e : j = i
    · rw [e]
      exact .inl ((update_self ..).trans hclear.symm)
    · exact (hrest e).imp_left (update_of_ne e ..).trans

/-- A new directory that cannot be entered is taken back, with its zone. -/
theorem Provided.mkdir_undone {t : FsTree} {v : Vol} {block : ℕ} {nd : Node} (hb : s.tree.Begun n t)
    (hz : (s.vol.newInode n).newBlock = some (block, v)) (hd : parent d)
    (hadd : dirAddEntry ⟨t.setNode n nd, v.setZone n 0 (BitVec.ofNat 16 block)⟩ d name n = (false, s')) :
    Restored s ({ s' with vol := s'.vol.freeBlockInt block }.giveUp n d) parent := by
  obtain ⟨i, -, -, hv⟩ := newBlock_spec hz
  have hfirst : v.firstdatazone = s.vol.firstdatazone := hv ▸ rfl
  have hlast : v.nzones = s.vol.nzones := hv ▸ rfl
  have hzone : v.zone = (s.vol.newInode n).zone := hv ▸ rfl
  obtain ⟨v', hv', hl⟩ := dirAddEntry_left (s := ⟨t.setNode n nd, v.setZone n 0 (BitVec.ofNat 16 block)⟩)
    ⟨hfirst ▸ h.super.pos, hlast ▸ h.super.short⟩ (congrArg fst hadd)
  obtain rfl : FsDisk.mk (t.setNode n nd) v' = s' := congrArg snd (hv'.symm.trans hadd)
  have hfree := freeBlockInt_left hz (v.setZone n 0 (BitVec.ofNat 16 block)) rfl hfirst hlast hl
  refine h.giveUp (hb.setNode _) (fun j hj => ?_) (fun m hm hmd => ?_) hd
  · rw [freeBlockInt_zone]
    exact hfree j hj
  · rw [freeBlockInt_zone, hl.zone m hmd]
    refine (update_of_ne hm ..).trans ((congrFun hzone m).trans ?_)
    exact update_of_ne hm ..

end

section
variable (h : s.Provided (s.tree.IsParent c sup.room path))
include h

theorem sysMknod_accounts (hf : (s.sysMknod c sup path mode).1 = -1) :
    Accounts s (s.sysMknod c sup path mode).2 (s.tree.IsParent c sup.room path)
      (s.BitStays c sup path (.mknod mode)) := by
  unfold sysMknod at hf ⊢
  obtain ⟨hp, hb⟩ | ⟨d, name, hp, hd, ⟨⟨m, hn⟩, hb⟩ | ⟨hn, hm⟩⟩ := h.begins c sup path (.mknod mode)
  · rw [hp]
    exact .same hb
  all_goals
    rw [hp] at hf ⊢
    simp only [hn, h.settled.release] at hf ⊢
  · exact .same hb
  cases hE : s.enterNew sup d name id (nodNode c mode) with
  | mk o s₁ =>
  rw [hE] at hf
  cases o with
  | some m => cases hf
  | none => exact h.enterNew_accounts trivial hm hd hE

theorem sysMkdir_accounts (hf : (s.sysMkdir c sup path mode).1 = -1) :
    Accounts s (s.sysMkdir c sup path mode).2 (s.tree.IsParent c sup.room path)
      (s.BitStays c sup path (.mkdir mode)) := by
  unfold sysMkdir at hf ⊢
  obtain ⟨hp, hb⟩ | ⟨d, name, hp, hd, ⟨⟨m, hname⟩, hb⟩ | ⟨hname, hm⟩⟩ := h.begins c sup path (.mkdir mode)
  · rw [hp]
    exact .same hb
  all_goals
    rw [hp] at hf ⊢
    simp only [hname, h.settled.release] at hf ⊢
  · exact .same hb
  · have hiff := @Missing.bitStays_iff _ _ _ _ _ _ (.mkdir mode) hm
    obtain ⟨hfr, hn⟩ | ⟨n, hfr, hfree, ⟨hr, hn⟩ | ⟨hr, t, hn, hb, -, -⟩⟩ := newInode_cases s sup
    · rw [hn]
      dsimp only
      rw [h.release]
      refine .same fun hb => ?_
      obtain ⟨-, n, hn', -⟩ := hiff.mp hb
      cases hfr.symm.trans hn'
    · rw [hn]
      refine .inr ⟨hiff.mpr ⟨trivial, n, hfr, .inl hr⟩, n, hfree, ?_⟩
      have hdn : d ≠ n := h.ne hd hfree
      refine (release_imap_of_ne hdn).trans ?_
      exact update_self ..
    refine .inl ⟨fun hb => ?_, ?_⟩
    · obtain ⟨-, m, hm, hno | hno⟩ := hiff.mp hb
      · cases hfr.symm.trans hm
        exact Bool.false_ne_true (hno.symm.trans hr)
      · exact hno.2 trivial
    rw [hn] at hf ⊢
    dsimp only at hf ⊢
    cases hz : (s.vol.newInode n).newBlock with
    | none => exact h.giveUp hb (fun _ _ => .inl rfl) (fun m hm _ => update_of_ne hm ..) hd
    | some zv =>
      rw [hz] at hf
      dsimp only at hf ⊢
      cases hadd : dirAddEntry ⟨t.setNode n (dirNode c mode n d (t.node n)),
        zv.2.setZone n 0 (BitVec.ofNat 16 zv.1)⟩ d name n with
      | mk b s₂ =>
      rw [hadd] at hf
      cases b with
      | true => cases hf
      | false => exact h.mkdir_undone hb hz hd hadd

/-- The inode that `sys_open` goes on with was there before, or the call has created it. -/
theorem openInode_cases (hfd : sup.fd ≠ none) (hdev : path ∉ deviceNames) (flag : Word) (mode : BitVec 16) :
    ∃ o s', s.openInode c sup path flag mode = (o, s') ∧ (s' = s ∧ ¬ s.BitStays c sup path (.open flag mode) ∨
      o = none ∧ Accounts s s' (s.tree.IsParent c sup.room path) (s.BitStays c sup path (.open flag mode)) ∨
      ∃ n, o = some n ∧ s.tree.imap n = false ∧ s'.tree.imap n = true ∧ s'.tree.holder = s.tree.holder ∧
        s'.tree.node n = fileNode c mode { nlinks := 1#8, count := (s.tree.node n).count } ∧
        (¬ s.Granted c sup (.open flag mode) → s.BitStays c sup path (.open flag mode))) := by
  unfold openInode
  rw [h.settled.lookup]
  cases hl : (namei s.tree.node (s.tree.subject c) sup.avail.room path).result with
  | some n => exact ⟨_, _, rfl, .inl ⟨rfl, fun hb => by cases hl.symm.trans hb.1.2.2.1⟩⟩
  | none =>
    dsimp only
    split
    · next hflag =>
      unfold create
      obtain ⟨hp, hb⟩ | ⟨d, name, hp, hd, ⟨⟨m, hn⟩, hb⟩ | ⟨hn, hm⟩⟩ := h.begins c sup path (.open flag mode)
      · rw [hp]
        exact ⟨_, _, rfl, .inl ⟨rfl, hb⟩⟩
      all_goals
        rw [hp]
        simp only [hn, h.settled.release]
      · exact ⟨_, _, rfl, .inl ⟨rfl, hb⟩⟩
      have hc : s.Creates c sup path (.open flag mode) := ⟨hfd, hdev, hl, hflag⟩
      obtain ⟨o, s₁, hE, hcases⟩ := h.enterNew_cases sup hd name (fileNode c mode) id
      rw [hE]
      cases o with
      | none => exact ⟨_, _, rfl, .inr (.inl ⟨rfl, h.enterNew_accounts hc hm hd hE⟩)⟩
      | some m =>
        obtain ⟨ho, -⟩ | ⟨n, hf, hfree, himap, ⟨ho, -⟩ | ⟨ho, hadd, hh, hnode⟩⟩ := hcases
        · cases ho
        · cases ho
        obtain rfl := some.inj ho
        have hdn : d ≠ m := h.ne hd hfree
        obtain ⟨hrn, hrh⟩ := release_node s₁ d
        refine ⟨_, _, rfl, .inr (.inr ⟨m, rfl, hfree, (release_imap_of_ne hdn).trans himap, hrh.trans hh, ?_, fun hg => ?_⟩)⟩
        · exact (congrFun hrn m).trans hnode
        · exact hm.bitStays_iff.mpr ⟨hc, m, hf, .inr ⟨hadd, hg⟩⟩
    · next hflag => exact ⟨_, _, rfl, .inl ⟨rfl, fun hb => hflag hb.1.2.2.2⟩⟩

omit h in
/-- A file that is granted gets its slot. -/
theorem slotFor_of_granted (hh : s'.tree.holder = s.tree.holder) {k : Byte}
    (hnode : s'.tree.node n = fileNode c mode { nlinks := 1#8, count := k })
    (hg : s.Granted c sup (.open flag mode)) : s'.slotFor c sup flag n ≠ none := by
  obtain ⟨hperm, i, hfile, hhold⟩ := hg
  have hsub : s'.tree.subject c = s.tree.subject c := by
    unfold FsTree.subject
    rw [hh]
  unfold slotFor
  rw [hsub, hnode, if_neg, hfile, hh]
  · simp [hhold]
  · rintro ⟨hm, hp⟩
    exact Bool.false_ne_true (hp.symm.trans (hperm hm))

theorem sysOpen_accounts (hf : (s.sysOpen c sup path flag mode).1 = -1) :
    Accounts s (s.sysOpen c sup path flag mode).2 (s.tree.IsParent c sup.room path)
      (s.BitStays c sup path (.open flag mode)) := by
  unfold sysOpen at hf ⊢
  cases hfd : sup.fd with
  | none => exact .same fun hb => hb.1.1 hfd
  | some fd =>
    have hne : (fd : ℤ) ≠ -1 := by omega
    rw [hfd] at hf
    dsimp only at hf ⊢
    by_cases hdev : path ∈ deviceNames
    · rw [if_pos hdev]
      exact .same fun hb => hb.1.2.1 hdev
    rw [if_neg hdev] at hf ⊢
    obtain ⟨o, s₁, hE, hcases⟩ := openInode_cases h (hfd ▸ some_ne_none fd) hdev flag mode
    rw [hE] at hf ⊢
    cases o with
    | none =>
      obtain ⟨rfl, hb⟩ | ⟨-, hacc⟩ | ⟨n, hn, -⟩ := hcases
      · exact .same hb
      · exact hacc
      · cases hn
    | some n =>
      dsimp only at hf ⊢
      cases hslot : s₁.slotFor c sup flag n with
      | some i =>
        rw [hslot] at hf
        dsimp only at hf
        split at hf <;> exact absurd hf hne
      | none =>
        obtain ⟨rfl, hb⟩ | ⟨hn, -⟩ | ⟨m, hm, hfree, himap, hh, hnode, hb⟩ := hcases
        · dsimp only
          rw [h.release]
          exact .same hb
        · cases hn
        · obtain rfl := some.inj hm
          refine .inr ⟨hb fun hg => slotFor_of_granted hh hnode hg hslot, n, hfree, ?_⟩
          -- the file has its link, so `iput` leaves it
          show (s₁.tree.release n).imap n = true
          rw [FsTree.TreeInv.release_of_links, himap]
          rw [hnode]
          exact (by decide : (1#8 : Byte) ≠ 0#8)

end

/-- The image, one zone for each of its inodes. -/
def imageZones : Vol where
  firstdatazone := 20
  nzones := 1024
  bits := 8192
  zmap := fun j => j < 7
  imap := fun n => 1 ≤ n ∧ n ≤ 7
  zone := fun n k => if (1 ≤ n ∧ n ≤ 7) ∧ k = 0 then BitVec.ofNat 16 (19 + n) else 0#16
  block := fun _ _ => 0#8

def root : Cred := { task := 0 }

/-- `/x` -/
def slashX : List Text := text [47, 120]

theorem image_settled : (image []).Settled := by
  intro n hn
  have hn : 1 ≤ n ∧ n ≤ 7 := of_decide_eq_true hn
  obtain ⟨h₁, h₂⟩ := hn
  interval_cases n <;> exact .inl (by decide)

/-- The image, on a disk without a free zone. -/
def fullImage : FsDisk := ⟨image [], { imageZones with zmap := fun _ => true }⟩

end FsDisk

end Linux001

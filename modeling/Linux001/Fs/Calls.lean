import Linux001.Fs.Walk
import Linux001.Fs.Zone
import Mathlib.Tactic.DeriveFintype

/-!
# Fs — the calls on names

`sys_open()`, `sys_mknod()`, `sys_mkdir()`, `sys_link()`, `sys_unlink()`, `sys_rmdir()`,
`sys_rename()`, `sys_chdir()` and `sys_chroot()` of `kernel/sys.c`, with `dir_add_entry()` and
`dir_remove_entry()` of `fs/namei.c`; one call at a time and without disk errors.  An inode is what was
last written to it, in core or on disk, as `Fs.InodeCache` has it; a directory is the list of its
entries.  Device names and the zones of regular files are left out.

What a call finds scarce is `Avail`.  References that outlive a call are kept by a `Holder`; `i_count`
counts them.
-/

namespace Linux001

open Function

/-- What keeps a reference to an inode between calls. -/
inductive Holder where
  /-- `file_table[i].f_inode`. -/
  | file (i : Fin 64)
  | pwd (t : Slot)
  | root (t : Slot)
  | exe (t : Slot)
  deriving DecidableEq, Fintype

/-- The inodes, their map, and who holds them. -/
structure FsTree where
  ninodes : ℕ
  /-- `s_imap_blocks * BLOCK_SIZE * 8`; inode `n` has bit `n - 1`. -/
  ibits : ℕ
  imap : ℕ → Bool
  node : ℕ → Node
  holder : Holder → Option ℕ

/-- What there is room for during a call. -/
structure Avail where
  /-- `iget` finds a slot for the inode. -/
  room : ℕ → Bool
  /-- `sys_mkdir` gets a zone. -/
  zone : Bool
  /-- The directory can grow by an entry. -/
  grow : ℕ → Bool
  /-- `file_table[]` has a free slot. -/
  file : Option (Fin 64)
  /-- An inode that the call changes besides, and what it is then.  `get_empty_inode` takes the slot of
  an inode that has not been written back, which is the disk's again; and a block behind the direct ones
  is another inode's if the indirect block was allocated, and not cleared, by `ensure_dir_block` or
  `file_write`, or has no entry for the block. -/
  stray : Option (ℕ × Node) := none

/-- The credentials of the current task. -/
structure Cred where
  task : Slot
  euid : BitVec 16 := 0#16
  egid : BitVec 16 := 0#16
  umask : BitVec 16 := 0#16

/-! ### Directory entries -/

/-- **`dir_add_entry`** on the entries: the first free slot, or one more. -/
def addEntry (e : DirEntry) (grow : Bool) : List DirEntry → Option (List DirEntry)
  | [] => if grow then some [e] else none
  | a :: l => if a.inode = 0 then some (e :: l) else (addEntry e grow l).map (a :: ·)

/-- **`dir_remove_entry`** on the entries.  The name stays. -/
def removeEntry (name : List Text) : List DirEntry → Option (List DirEntry)
  | [] => none
  | a :: l =>
    if a.inode ≠ 0 ∧ nameEq a.name name then some ({ a with inode := 0 } :: l)
    else (removeEntry name l).map (a :: ·)

/-- **`dir_is_empty`.** -/
def dirIsEmpty (l : List DirEntry) : Bool := (l.drop 2).all fun e => e.inode = 0

namespace FsTree

def subject (s : FsTree) (c : Cred) : Subject :=
  ⟨c.euid, c.egid, c.umask, s.holder (.root c.task), s.holder (.pwd c.task)⟩

def setNode (s : FsTree) (n : ℕ) (nd : Node) : FsTree := { s with node := update s.node n nd }

/-- `free_inode`. -/
def freeInode (s : FsTree) (n : ℕ) : FsTree := { s with imap := update s.imap n false }

/-- A reference that the call itself has taken is put: `iput`. -/
def release (s : FsTree) (n : ℕ) : FsTree :=
  if (s.node n).count = 0#8 ∧ (s.node n).nlinks = 0#8 then s.freeInode n else s

def releaseAll (s : FsTree) (l : List ℕ) : FsTree := l.foldl release s

/-- The holder `h` puts what it has. -/
def drop (s : FsTree) (h : Holder) : FsTree :=
  match s.holder h with
  | none => s
  | some n =>
    { (s.setNode n { s.node n with count := (s.node n).count - 1#8 }).release n with
      holder := update s.holder h none }

/-- The holder `h` puts what it has and keeps the reference to `n` that the call has taken. -/
def hold (s : FsTree) (h : Holder) (n : ℕ) : FsTree :=
  let s₁ := (s.setNode n { s.node n with count := (s.node n).count + 1#8 }).drop h
  { s₁ with holder := update s₁.holder h (some n) }

/-- The number that `new_inode` takes. -/
def freshInode (s : FsTree) : Option ℕ :=
  (Vol.findClear (fun j => s.imap (j + 1)) 0 s.ibits).map (· + 1)

/-- **`new_inode`.**  Without a slot in `inode_table[]` the bit stays set. -/
def newInode (s : FsTree) (room : ℕ → Bool) : Option ℕ × FsTree :=
  match s.freshInode with
  | none => (none, s)
  | some n =>
    let s₁ := { s with imap := update s.imap n true }
    if room n then (some n, s₁.setNode n { nlinks := 1#8, count := (s.node n).count }) else (none, s₁)

/-- `(unsigned short)n`. -/
def short (n : ℕ) : ℕ := n % 65536

/-- **`dir_add_entry`.** -/
def dirAddEntry (s : FsTree) (av : Avail) (d : ℕ) (name : List Text) (n : ℕ) : Option FsTree :=
  if h : name.length ≤ 14 then
    (addEntry ⟨short n, name, h⟩ (av.grow d) (s.node d).entries).map fun l =>
      s.setNode d { s.node d with entries := l }
  else none

/-- **`dir_remove_entry`.** -/
def dirRemoveEntry (s : FsTree) (d : ℕ) (name : List Text) : Option FsTree :=
  (removeEntry name (s.node d).entries).map fun l => s.setNode d { s.node d with entries := l }

/-- `namei`, with the references it puts. -/
def lookup (s : FsTree) (c : Cred) (av : Avail) (path : List Text) : Option ℕ × FsTree :=
  let w := namei s.node (s.subject c) av.room path
  (w.result, s.releaseAll w.released)

/-- What the calls that change a directory begin with: `split_path`, `namei` of the directory, and the
tests for a directory that may be written.  `bad` are the names that the call refuses. -/
def parentDir (s : FsTree) (c : Cred) (av : Avail) (bad : List Text → Bool) (path : List Text) :
    Option (ℕ × List Text) × FsTree :=
  match splitPath path with
  | none => (none, s)
  | some (dirpath, name) =>
    if bad name then (none, s)
    else
      match s.lookup c av dirpath with
      | (none, s) => (none, s)
      | (some d, s) =>
        if (s.node d).isDir = false then (none, s.release d)
        else if (s.node d).permits (s.subject c) mayWrite = false then (none, s.release d)
        else (some (d, name), s)

/-- `free_inode`, and `iput` of the inode and of the directory. -/
def giveUp (s : FsTree) (n d : ℕ) : FsTree := ((s.freeInode n).release n).release d

/-! ### Creation -/

/-- A new inode, entered in the directory `d`: `fill` is what the caller makes of it before and
`done` after the entry is made. -/
def enterNew (s : FsTree) (av : Avail) (d : ℕ) (name : List Text) (fill done : Node → Node) :
    Option ℕ × FsTree :=
  match s.newInode av.room with
  | (none, s) => (none, s.release d)
  | (some n, s) =>
    let s₁ := s.setNode n (fill (s.node n))
    match s₁.dirAddEntry av d name n with
    | none => (none, s₁.giveUp n d)
    | some s₂ => (some n, s₂.setNode n (done (s₂.node n)))

/-- `sys_open`'s `O_CREAT` branch. -/
def create (s : FsTree) (c : Cred) (av : Avail) (path : List Text) (mode : BitVec 16) : Option ℕ × FsTree :=
  match s.parentDir c av (fun _ => false) path with
  | (none, s) => (none, s)
  | (some (d, name), s) =>
    match (s.node d).findEntry name with
    | some n => if av.room n then (some n, s.release d) else (none, s.release d)
    | none =>
      match s.enterNew av d name (fun nd => { nd with
          mode := (mode &&& 0x1ff#16 &&& ~~~c.umask) ||| 0x8000#16
          uid := c.euid
          gid := c.egid.setWidth 8 }) id with
      | (none, s) => (none, s)
      | (some n, s) => (some n, s.release d)

/-- The inode that `sys_open` is to open, held. -/
def openInode (s : FsTree) (c : Cred) (av : Avail) (path : List Text) (flag : Word) (mode : BitVec 16) :
    Option ℕ × FsTree :=
  match s.lookup c av path with
  | (some n, s) => (some n, s)
  | (none, s) => if flag &&& 0x40#32 ≠ 0#32 then s.create c av path mode else (none, s)

/-- **`sys_open`**; the descriptor is left out. -/
def sysOpen (s : FsTree) (c : Cred) (av : Avail) (path : List Text) (flag : Word) (mode : BitVec 16) :
    FsTree :=
  match s.openInode c av path flag mode with
  | (none, s) => s
  | (some n, s) =>
    if openMask flag ≠ 0#32 ∧ (s.node n).permits (s.subject c) (openMask flag) = false then s.release n
    else
      match av.file with
      | none => s.release n
      | some i =>
        if s.holder (.file i) ≠ none then s.release n
        else if flag &&& 0x200#32 ≠ 0#32 ∧ (s.node n).isDir = false then
          (s.setNode n { s.node n with entries := [] }).hold (.file i) n
        else s.hold (.file i) n

/-- **`sys_mknod`.** -/
def sysMknod (s : FsTree) (c : Cred) (av : Avail) (path : List Text) (mode : BitVec 16) : ℤ × FsTree :=
  match s.parentDir c av (fun _ => false) path with
  | (none, s) => (-1, s)
  | (some (d, name), s) =>
    match (s.node d).findEntry name with
    | some _ => (-1, s.release d)
    | none =>
      match s.enterNew av d name id (fun nd => { nd with
          mode := mode, uid := c.euid, gid := c.egid.setWidth 8, nlinks := 1#8 }) with
      | (none, s) => (-1, s)
      | (some n, s) => (0, (s.release d).release n)

/-- The entries of a new directory. -/
def newEntries (n d : ℕ) : List DirEntry := [⟨short n, dotName, dotName_short⟩, ⟨short d, dotdotName, dotdotName_short⟩]

/-- **`sys_mkdir`.** -/
def sysMkdir (s : FsTree) (c : Cred) (av : Avail) (path : List Text) (mode : BitVec 16) : ℤ × FsTree :=
  match s.parentDir c av (fun _ => false) path with
  | (none, s) => (-1, s)
  | (some (d, name), s) =>
    match (s.node d).findEntry name with
    | some _ => (-1, s.release d)
    | none =>
      match s.newInode av.room with
      | (none, s) => (-1, s.release d)
      | (some n, s) =>
        if av.zone = false then (-1, s.giveUp n d)
        else
          let s₁ := s.setNode n { s.node n with
            mode := (mode &&& 0x1ff#16) ||| 0x4000#16
            uid := c.euid
            gid := c.egid.setWidth 8
            nlinks := 2#8
            entries := newEntries n d }
          match s₁.dirAddEntry av d name n with
          | none => (-1, s₁.giveUp n d)
          | some s₂ =>
            (0, ((s₂.setNode d { s₂.node d with nlinks := (s₂.node d).nlinks + 1#8 }).release d).release n)

/-- **`sys_link`.** -/
def sysLink (s : FsTree) (c : Cred) (av : Avail) (old new : List Text) : ℤ × FsTree :=
  match s.lookup c av old with
  | (none, s) => (-1, s)
  | (some n, s) =>
    if (s.node n).isDir then (-1, s.release n)
    else
      match s.parentDir c av (fun _ => false) new with
      | (none, s) => (-1, s.release n)
      | (some (d, name), s) =>
        match (s.node d).findEntry name with
        | some _ => (-1, (s.release n).release d)
        | none =>
          match s.dirAddEntry av d name n with
          | none => (-1, (s.release n).release d)
          | some s₁ =>
            (0, ((s₁.setNode n { s₁.node n with nlinks := (s₁.node n).nlinks + 1#8 }).release n).release d)

/-! ### Removal -/

/-- `strcmp(name, ".") == 0 || strcmp(name, "..") == 0`. -/
def isDots (name : List Text) : Bool := name = dotName ∨ name = dotdotName

/-- **`sys_unlink`.**  Without a link left, `truncate_inode` empties the file. -/
def sysUnlink (s : FsTree) (c : Cred) (av : Avail) (path : List Text) : ℤ × FsTree :=
  match s.parentDir c av isDots path with
  | (none, s) => (-1, s)
  | (some (d, name), s) =>
    match (s.node d).findEntry name with
    | none => (-1, s.release d)
    | some n =>
      if av.room n = false then (-1, s.release d)
      else if (s.node n).isDir then (-1, (s.release n).release d)
      else
        match s.dirRemoveEntry d name with
        | none => (-1, (s.release n).release d)
        | some s₁ =>
          let nd := { s₁.node n with nlinks := (s₁.node n).nlinks - 1#8 }
          let s₂ := s₁.setNode n (if nd.nlinks = 0#8 then { nd with entries := [] } else nd)
          (0, (s₂.release n).release d)

/-- **`sys_rmdir`.**  `free_dir_zones` leaves the size, but no entry can be read any more. -/
def sysRmdir (s : FsTree) (c : Cred) (av : Avail) (path : List Text) : ℤ × FsTree :=
  match s.parentDir c av isDots path with
  | (none, s) => (-1, s)
  | (some (d, name), s) =>
    match (s.node d).findEntry name with
    | none => (-1, s.release d)
    | some n =>
      if av.room n = false then (-1, s.release d)
      else if (s.node n).isDir = false then (-1, (s.release n).release d)
      else if dirIsEmpty (s.node n).entries = false then (-1, (s.release n).release d)
      else
        match s.dirRemoveEntry d name with
        | none => (-1, (s.release n).release d)
        | some s₁ =>
          let s₂ := s₁.setNode n { s₁.node n with entries := [] }
          let s₃ := s₂.setNode d { s₂.node d with nlinks := (s₂.node d).nlinks - 1#8 }
          let s₄ := (s₃.setNode n { s₃.node n with nlinks := 0#8 }).freeInode n
          (0, (s₄.release n).release d)

/-! ### Renaming -/

/-- The entries are moved: what `sys_rename` does once all its tests have passed. -/
def moveEntry (s : FsTree) (av : Avail) (d : ℕ) (oldbase : List Text) (d' : ℕ) (newbase : List Text)
    (n : ℕ) : ℤ × FsTree :=
  if d' ≠ d then
    match s.dirAddEntry av d' newbase n with
    | none => (-1, s)
    | some s₁ =>
      match s₁.dirRemoveEntry d oldbase with
      | none => (-1, s₁)
      | some s₂ =>
        let s₃ := s₂.setNode d { s₂.node d with nlinks := (s₂.node d).nlinks - 1#8 }
        (0, s₃.setNode d' { s₃.node d' with nlinks := (s₃.node d').nlinks + 1#8 })
  else
    match s.dirRemoveEntry d oldbase with
    | none => (-1, s)
    | some s₁ =>
      match s₁.dirAddEntry av d newbase n with
      | none => (-1, s₁)
      | some s₂ => (0, s₂)

/-- The arguments of `moveEntry`: the two directories, the two names and the inode. -/
structure Move where
  d : ℕ
  oldbase : List Text
  d' : ℕ
  newbase : List Text
  n : ℕ

/-- The tests of `sys_rename`.  A target that exists has to be the same file. -/
def renameArgs (s : FsTree) (c : Cred) (av : Avail) (old new : List Text) : Option Move × FsTree :=
  match splitPath old, splitPath new with
  | some (olddir, oldbase), some (newdir, newbase) =>
    match s.lookup c av olddir with
    | (none, s) => (none, s)
    | (some d, s) =>
      if (s.node d).permits (s.subject c) mayWrite = false then (none, s.release d)
      else
        match (s.node d).findEntry oldbase with
        | none => (none, s.release d)
        | some n =>
          if av.room n = false then (none, s.release d)
          else
            match s.lookup c av newdir with
            | (none, s) => (none, s.releaseAll [d, n])
            | (some d', s) =>
              if d' ≠ d ∧ (s.node d').permits (s.subject c) mayWrite = false then
                (none, s.releaseAll [n, d, d'])
              else
                match (s.node d').findEntry newbase with
                | none => (some ⟨d, oldbase, d', newbase, n⟩, s)
                | some m =>
                  if m = n then (some ⟨d, oldbase, d', newbase, n⟩, s)
                  else (none, s.releaseAll [n, d, d'])
  | _, _ => (none, s)

/-- **`sys_rename`.** -/
def sysRename (s : FsTree) (c : Cred) (av : Avail) (old new : List Text) : ℤ × FsTree :=
  match s.renameArgs c av old new with
  | (none, s) => (-1, s)
  | (some m, s) =>
    let moved := s.moveEntry av m.d m.oldbase m.d' m.newbase m.n
    (moved.1, moved.2.releaseAll [m.n, m.d, m.d'])

/-! ### Holders -/

/-- **`sys_chdir`.** -/
def sysChdir (s : FsTree) (c : Cred) (av : Avail) (path : List Text) : ℤ × FsTree :=
  match s.lookup c av path with
  | (none, s) => (-1, s)
  | (some n, s) =>
    if (s.node n).isDir = false then (-1, s.release n)
    else if (s.node n).permits (s.subject c) mayExec = false then (-1, s.release n)
    else (0, s.hold (.pwd c.task) n)

/-- **`sys_chroot`.** -/
def sysChroot (s : FsTree) (c : Cred) (av : Avail) (path : List Text) : ℤ × FsTree :=
  match s.lookup c av path with
  | (none, s) => (-1, s)
  | (some n, s) =>
    if (s.node n).isDir = false then (-1, s.release n)
    else (0, s.hold (.root c.task) n)

end FsTree

/-- What a task may do. -/
inductive FsOp where
  | open (path : List Text) (flag : Word) (mode : BitVec 16)
  | mknod (path : List Text) (mode : BitVec 16)
  | mkdir (path : List Text) (mode : BitVec 16)
  | link (old new : List Text)
  | unlink (path : List Text)
  | rmdir (path : List Text)
  | rename (old new : List Text)
  | chdir (path : List Text)
  | chroot (path : List Text)
  /-- The last `close`, `exit`, or another program. -/
  | drop (h : Holder)
  /-- `fork` or `execve`: `h'` holds what `h` holds. -/
  | share (h h' : Holder)
  /-- `write` on the open file `i`, which then holds the entries `l` if read as a directory. -/
  | write (i : Fin 64) (l : List DirEntry)
  /-- `pipe`, whose inode has no number. -/
  | pipe

namespace FsTree

/-- What a call does to the inodes it names. -/
def call (s : FsTree) (c : Cred) (av : Avail) : FsOp → FsTree
  | .open path flag mode => s.sysOpen c av path flag mode
  | .mknod path mode => (s.sysMknod c av path mode).2
  | .mkdir path mode => (s.sysMkdir c av path mode).2
  | .link old new => (s.sysLink c av old new).2
  | .unlink path => (s.sysUnlink c av path).2
  | .rmdir path => (s.sysRmdir c av path).2
  | .rename old new => (s.sysRename c av old new).2
  | .chdir path => (s.sysChdir c av path).2
  | .chroot path => (s.sysChroot c av path).2
  | .drop h => s.drop h
  | .share h h' =>
    match s.holder h, s.holder h' with
    | some n, none => s.hold h' n
    | _, _ => s
  | .write i l =>
    match s.holder (.file i) with
    | some n => s.setNode n { s.node n with entries := l }
    | none => s
  | .pipe => s

/-- What it does besides. -/
def strayed (s : FsTree) (av : Avail) : FsTree :=
  match av.stray with
  | none => s
  | some (n, nd) => s.setNode n nd

/-- **One call.** -/
def step (s : FsTree) (c : Cred) (av : Avail) (op : FsOp) : FsTree := (s.call c av op).strayed av

theorem step_eq_call {s : FsTree} {c : Cred} {av : Avail} {op : FsOp} (h : av.stray = none) :
    s.step c av op = s.call c av op := by
  rw [step, strayed, h]

/-- **A run.** -/
def run (s : FsTree) (ops : List (Cred × Avail × FsOp)) : FsTree :=
  ops.foldl (fun s x => s.step x.1 x.2.1 x.2.2) s

end FsTree

/-! ### The image -/

/-- The text with the given codes. -/
def text (l : List ℕ) : List Text :=
  l.filterMap fun b => if h : BitVec.ofNat 8 b ≠ 0#8 then some ⟨BitVec.ofNat 8 b, h⟩ else none

/-- A name that `mkminix` accepts for a program. -/
abbrev FileName := { name : List Text // name.length ≤ 14 }

/-- What `mkminix` enters in `/bin`, from inode `n` on. -/
def binEntries : ℕ → List FileName → List DirEntry
  | _, [] => []
  | n, p :: ps => ⟨n, p.val, p.property⟩ :: binEntries (n + 1) ps

/-- The directories of the image, `docs` and `bin` in the root. -/
def imageDir (progs : List FileName) : ℕ → Option (List DirEntry)
  | 1 => some
    [⟨1, dotName, dotName_short⟩, ⟨1, dotdotName, dotdotName_short⟩,
      -- hello.txt, readme.txt, big.txt
      ⟨2, text [104, 101, 108, 108, 111, 46, 116, 120, 116], by decide⟩,
      ⟨3, text [114, 101, 97, 100, 109, 101, 46, 116, 120, 116], by decide⟩,
      ⟨4, text [98, 105, 103, 46, 116, 120, 116], by decide⟩,
      ⟨5, text [100, 111, 99, 115], by decide⟩, ⟨7, text [98, 105, 110], by decide⟩]
  | 5 => some
    [⟨5, dotName, dotName_short⟩, ⟨1, dotdotName, dotdotName_short⟩,
      -- note.txt
      ⟨6, text [110, 111, 116, 101, 46, 116, 120, 116], by decide⟩]
  | 7 => some (⟨7, dotName, dotName_short⟩ :: ⟨1, dotdotName, dotdotName_short⟩ :: binEntries 8 progs)
  | _ => none

/-- **The image of `mkminix`** with the programs `progs`, mounted: the first task sits in the root. -/
def image (progs : List FileName) : FsTree where
  ninodes := 512
  ibits := 8192
  imap n := 1 ≤ n ∧ n ≤ 7 + progs.length
  node n :=
    match imageDir progs n with
    | some l => { mode := 0x41ed#16, nlinks := 2#8, count := if n = 1 then 1#8 else 0#8, entries := l }
    | none => if 1 ≤ n ∧ n ≤ 7 + progs.length then { mode := 0x81a4#16, nlinks := 1#8 } else {}
  holder h := if h = .pwd 0 then some 1 else none

variable {progs : List FileName}

theorem imageDir_none {n : ℕ} (h1 : n ≠ 1) (h5 : n ≠ 5) (h7 : n ≠ 7) : imageDir progs n = none := by
  unfold imageDir
  split <;> first | contradiction | rfl

theorem image_file {n : ℕ} (h1 : n ≠ 1) (h5 : n ≠ 5) (h7 : n ≠ 7) : (image progs).node n =
    if 1 ≤ n ∧ n ≤ 7 + progs.length then { mode := 0x81a4#16, nlinks := 1#8 } else {} := by
  unfold image
  simp only [imageDir_none h1 h5 h7]

/-- The directories of the image. -/
theorem image_isDir (progs : List FileName) (n : ℕ) : ((image progs).node n).isDir = true ↔ n = 1 ∨ n = 5 ∨ n = 7 := by
  have hmode : ∀ nd : Node, nd.mode = 0x41ed#16 → nd.isDir = true := fun nd h => by
    unfold Node.isDir
    rw [h]
    decide
  by_cases h1 : n = 1
  · subst h1
    exact iff_of_true (hmode _ rfl) (.inl rfl)
  by_cases h5 : n = 5
  · subst h5
    exact iff_of_true (hmode _ rfl) (.inr (.inl rfl))
  by_cases h7 : n = 7
  · subst h7
    exact iff_of_true (hmode _ rfl) (.inr (.inr rfl))
  refine iff_of_false ?_ (by omega)
  rw [image_file h1 h5 h7]
  split <;> decide

end Linux001

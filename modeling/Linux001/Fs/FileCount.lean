import Linux001.Kernel.Fork
import Linux001.Kernel.Sched
import Linux001.Lib.Run
import Linux001.Lib.Tally
import Mathlib.Data.BitVec
import Mathlib.Tactic.Ring

/-!
# Fs — who refers to an open file, and to an inode

The calls that create, share and drop references to `file_table[]` and `inode_table[]`, one at a time:
`sys_open()` with the whole lookup (`namei()`, and the creation of a file), `sys_close()`, `sys_dup()`,
`sys_dup2()`, `sys_fcntl(F_DUPFD)`, `sys_pipe()`, `sys_fork()` and `sys_exit()`.

What a directory holds, what the disk answers and which inode is free are up to the caller of a step:
every component of a path comes with what `find_entry()` finds for it.  The counters are an
`unsigned short` and an `unsigned char`; the references are counted in `ℕ`.
-/

namespace Linux001

open Function BitVec List Option Tally Refs

/-! ### The inode table -/

/-- **`truncate_inode`**, as far as the inode goes. -/
def Tables.truncateInode (s : Tables) (e : InodeRef) : Tables :=
  { s with
    inode := update s.inode e
      { s.inode e with
        iSize := 0#32, iZone := fun k => if k.val < 8 then 0#16 else (s.inode e).iZone k, iDirt := true } }

/-- **`iput`.**  The last `iput` of a pipe frees its page; that of a file without links frees the inode on
the disk. -/
def Tables.iput (s : Tables) (e : InodeRef) : Tables :=
  let ino := (s.inode e).unhold
  { s with
    inode := update s.inode e
      (if ino.iPipe ∧ ino.iCount = 0#8 then { ino with iPipe := false, iSize := 0#32 } else ino) }

/-- The first slot of `inode_table[]` that nobody holds. -/
def Tables.freeInode (s : Tables) : Option InodeRef :=
  (List.finRange 64).find? fun e => (s.inode e).iCount = 0#8

/-- **`iget`**, when nobody else runs.  `read` is what `read_inode()` gets from the disk. -/
def Tables.iget (read : Word → Option MInode) (s : Tables) (dev : BitVec 16) (nr : Word) :
    Option InodeRef × Tables :=
  match (List.finRange 64).find? fun e => (s.inode e).iDev = dev ∧ (s.inode e).iNum = nr with
  | some e => (some e, s.hold e)
  | none =>
    match s.freeInode with
    | none => (none, s)
    | some e =>
      match read nr with
      | none =>
        (none, { s with inode := update s.inode e { iDev := 0#16, iNum := nr, iCount := 0#8 } })
      | some node =>
        (some e, { s with
          inode := update s.inode e
            { node with iDev := dev, iNum := nr, iCount := 1#8, iDirt := false, iPipe := false } })

/-- **`get_empty_inode`.** -/
def Tables.getEmptyInode (s : Tables) : Option InodeRef × Tables :=
  match s.freeInode with
  | none => (none, s)
  | some e => (some e, { s with inode := update s.inode e { s.inode e with
      iCount := 1#8, iDev := 0#16, iNum := 0#32, iDirt := false, iPipe := false, iNlinks := 0#8
      iSize := 0#32 } })

/-! ### The lookup -/

/-- A component of a path, and what `find_entry()` finds for it. -/
inductive Component where
  | dot
  | absent
  | found (nr : Word)

/-- A path. -/
structure PathTo where
  absolute : Bool
  components : List Component

/-- `namei`'s device. -/
def rootDev : BitVec 16 := 0x301#16

/-- Where `namei` starts. -/
def nameiStart (read : Word → Option MInode) (t : Task) (s : Tables) (absolute : Bool) :
    Option InodeRef × Tables :=
  if absolute then
    match t.root with
    | some e => (some e, s.hold e)
    | none => s.iget read rootDev 1#32
  else
    match t.pwd with
    | none => (none, s)
    | some e => (some e, s.hold e)

/-- The loop of `namei`, at the inode `e`, which is held. -/
def nameiWalk (read : Word → Option MInode) (t : Task) : List Component → InodeRef → Tables → Option InodeRef × Tables
  | [], e, s => (some e, s)
  | .dot :: rest, e, s =>
    if rest.isEmpty then (some e, s)
    else if permission t (s.inode e) mayExec = false then (none, s.iput e)
    else nameiWalk read t rest e s
  | .absent :: _, e, s => (none, s.iput e)
  | .found nr :: rest, e, s =>
    match (s.iput e).iget read rootDev nr with
    | (none, s₁) => (none, s₁)
    | (some e₁, s₁) =>
      if rest.isEmpty then (some e₁, s₁)
      else if (s₁.inode e₁).iMode &&& 0x4000#16 = 0#16 ∨ permission t (s₁.inode e₁) mayExec = false then
        (none, s₁.iput e₁)
      else nameiWalk read t rest e₁ s₁

/-- **`namei`.** -/
def nameiHold (read : Word → Option MInode) (t : Task) (p : PathTo) (s : Tables) : Option InodeRef × Tables :=
  match nameiStart read t s p.absolute with
  | (none, s₁) => (none, s₁)
  | (some e, s₁) => nameiWalk read t p.components e s₁

/-- What `O_CREAT` meets: the directory (`none` if the name cannot be split), the entry that is already
there, the inode that `new_inode()` finds free, and whether there is room for the entry. -/
structure Creation where
  dir : Option PathTo
  present : Option Word
  fresh : Option Word
  added : Bool
  mode : BitVec 16

/-- A new inode for the file. -/
def Tables.newInode (read : Word → Option MInode) (s : Tables) (dev : BitVec 16) (fresh : Option Word) :
    Option InodeRef × Tables :=
  match fresh with
  | none => (none, s)
  | some nr =>
    match s.iget read dev nr with
    | (none, s₁) => (none, s₁)
    | (some e, s₁) => (some e, { s₁ with
        inode := update s₁.inode e
          { s₁.inode e with
            iMode := 0#16, iUid := 0#16, iSize := 0#32, iMtime := 0#32, iGid := 0#8, iNlinks := 1#8
            iZone := fun _ => 0#16, iDirt := true } })

/-- The creation of a file in the directory `d`, which is held. -/
def createIn (read : Word → Option MInode) (t : Task) (c : Creation) (d : InodeRef) (s : Tables) :
    Option InodeRef × Tables :=
  if (s.inode d).iMode &&& 0x4000#16 = 0#16 ∨ permission t (s.inode d) mayWrite = false then
    (none, s.iput d)
  else
    match c.present with
    | some nr =>
      match s.iget read (s.inode d).iDev nr with
      | (o, s₁) => (o, s₁.iput d)
    | none =>
      match s.newInode read (s.inode d).iDev c.fresh with
      | (none, s₁) => (none, s₁.iput d)
      | (some e, s₁) =>
        let s₂ := { s₁ with
          inode := update s₁.inode e
            { s₁.inode e with iMode := c.mode, iUid := t.euid, iGid := t.egid.setWidth 8, iDirt := true } }
        if c.added = false then (none, (s₂.iput e).iput d) else (some e, s₂.iput d)

/-- The lookup of `sys_open`: `namei()`, and the creation of the file if it asks for that. -/
def openLookup (read : Word → Option MInode) (t : Task) (p : PathTo) (creat : Option Creation) : Lookup :=
  fun s =>
    match nameiHold read t p s with
    | (some e, s₁) => (some e, s₁)
    | (none, s₁) =>
      match creat with
      | none => (none, s₁)
      | some c =>
        match c.dir with
        | none => (none, s₁)
        | some dp =>
          match nameiHold read t dp s₁ with
          | (none, s₂) => (none, s₂)
          | (some d, s₂) => createIn read t c d s₂

/-! ### The lookup holds what it returns -/

/-- The inode `o` has one hold more than in `c`, and nothing else has changed. -/
def Held (c : InodeRef → Byte) (file : Fin 64 → File) (o : Option InodeRef) (s : Tables) : Prop :=
  s.file = file ∧ ∀ x, (s.inode x).iCount = c x + if o = some x then 1#8 else 0#8

section
variable {read : Word → Option MInode} {t : Task} {s s₁ : Tables} {e x : InodeRef} {o : Option InodeRef}
variable {c : InodeRef → Byte} {file : Fin 64 → File} {d : InodeRef}

theorem iput_iCount (s : Tables) (e x : InodeRef) :
    ((s.iput e).inode x).iCount = (s.inode x).iCount - if some e = some x then 1#8 else 0#8 := by
  unfold Tables.iput
  by_cases h : x = e
  · subst h
    simp only [update_self, if_true]
    split <;> rfl
  · simp [h, Ne.symm h]

/-- One hold more. -/
theorem held_hold (s : Tables) (e : InodeRef) :
    Held (fun x => (s.inode x).iCount) s.file (some e) (s.hold e) := by
  refine ⟨rfl, fun x => ?_⟩
  rw [hold_iCount]
  by_cases hx : x = e
  · simp [hx]
  · simp [hx, Ne.symm hx]

/-- `iput` on what is held. -/
theorem Held.iput (h : Held c file (some e) s) : Held c file none (s.iput e) := by
  refine ⟨h.1, fun x => ?_⟩
  rw [iput_iCount, h.2 x, add_sub_cancel]
  simp

theorem Held.drop (h : Held c file (some e) s) : Held c file none (s.drop e) := by
  refine ⟨h.1, fun x => ?_⟩
  rw [drop_iCount, h.2 x]
  by_cases hx : x = e
  · simp [hx]
  · simp [hx, Ne.symm hx]

/-- Another change of an inode. -/
theorem Held.write {ino : MInode} (h : Held c file o s) (hi : ino.iCount = (s.inode e).iCount) :
    Held c file o { s with inode := update s.inode e ino } := by
  refine ⟨h.1, fun x => ?_⟩
  show (update s.inode e ino x).iCount = _
  by_cases hx : x = e
  · rw [hx, update_self, hi]
    exact h.2 e
  · rw [update_of_ne hx]
    exact h.2 x

theorem freeInode_some (h : s.freeInode = some e) : (s.inode e).iCount = 0#8 := by
  have := find?_some h
  simpa using this

/-- **`iget`** holds what it returns. -/
theorem iget_held (read : Word → Option MInode) (s : Tables) (dev : BitVec 16) (nr : Word) :
    Held (fun x => (s.inode x).iCount) s.file (s.iget read dev nr).1 (s.iget read dev nr).2 := by
  unfold Tables.iget
  split
  · exact held_hold ..
  split
  · exact ⟨rfl, fun x => by simp⟩
  next e hfree =>
  have hzero := freeInode_some hfree
  split
  · refine ⟨rfl, fun x => ?_⟩
    by_cases hx : x = e
    · simp [hx, hzero]
    · simp [hx]
  · refine ⟨rfl, fun x => ?_⟩
    by_cases hx : x = e
    · simp [hx, hzero]
    · simp [hx, Ne.symm hx]

/-- Two lookups, one after the other, when the first has left nothing held. -/
theorem Held.trans {o' : Option InodeRef} (h : Held c file none s)
    (h' : Held (fun x => (s.inode x).iCount) s.file o' s₁) : Held c file o' s₁ := by
  refine ⟨h'.1.trans h.1, fun x => ?_⟩
  have hx : (s.inode x).iCount = c x := (h.2 x).trans (by simp)
  rw [h'.2 x]
  exact congrArg (· + _) hx

theorem nameiStart_held (t : Task) (s : Tables) (absolute : Bool) :
    Held (fun x => (s.inode x).iCount) s.file (nameiStart read t s absolute).1
      (nameiStart read t s absolute).2 := by
  unfold nameiStart
  split
  · split
    · exact held_hold ..
    · exact iget_held ..
  · split
    · exact ⟨rfl, fun x => by simp⟩
    · exact held_hold ..

/-- **The walk** holds one inode at a time. -/
theorem nameiWalk_held (l : List Component) (h : Held c file (some e) s) :
    Held c file (nameiWalk read t l e s).1 (nameiWalk read t l e s).2 := by
  induction l generalizing e s with
  | nil => exact h
  | cons a rest ih =>
    cases a with
    | dot =>
      unfold nameiWalk
      split
      · exact h
      split
      · exact h.iput
      · exact ih h
    | absent => exact h.iput
    | found nr =>
      have hget := h.iput.trans (iget_held read (s.iput e) rootDev nr)
      unfold nameiWalk
      generalize (s.iput e).iget read rootDev nr = r at hget
      obtain ⟨o, s₁⟩ := r
      cases o with
      | none => exact hget
      | some e₁ =>
        simp only
        split
        · exact hget
        split
        · exact hget.iput
        · exact ih hget

theorem nameiHold_held (t : Task) (p : PathTo) (s : Tables) :
    Held (fun x => (s.inode x).iCount) s.file (nameiHold read t p s).1 (nameiHold read t p s).2 := by
  have hstart := @nameiStart_held read t s p.absolute
  unfold nameiHold
  generalize nameiStart read t s p.absolute = r at hstart
  obtain ⟨o, s₁⟩ := r
  cases o with
  | none => exact hstart
  | some e => exact nameiWalk_held p.components hstart

/-- Two inodes are held, and the first one is given back. -/
theorem Held.swap (h : Held c file (some d) s)
    (h' : Held (fun x => (s.inode x).iCount) s.file o s₁) : Held c file o (s₁.iput d) := by
  refine ⟨h'.1.trans h.1, fun x => ?_⟩
  have hx : (s.inode x).iCount = c x + if some d = some x then 1#8 else 0#8 := h.2 x
  rw [iput_iCount, h'.2 x]
  show (s.inode x).iCount + _ - _ = _
  rw [hx]
  ring

theorem newInode_held (read : Word → Option MInode) (s : Tables) (dev : BitVec 16) (fresh : Option Word) :
    Held (fun x => (s.inode x).iCount) s.file (s.newInode read dev fresh).1 (s.newInode read dev fresh).2 := by
  unfold Tables.newInode
  cases fresh with
  | none => exact ⟨rfl, fun x => by simp⟩
  | some nr =>
    have hget := iget_held read s dev nr
    simp only
    generalize s.iget read dev nr = r at hget
    obtain ⟨o, s₁⟩ := r
    cases o with
    | none => exact hget
    | some e => exact hget.write rfl

/-- The creation of a file. -/
theorem createIn_held {cr : Creation} (h : Held c file (some d) s) :
    Held c file (createIn read t cr d s).1 (createIn read t cr d s).2 := by
  unfold createIn
  split
  · exact h.iput
  cases cr.present with
  | some nr =>
    have hget := iget_held read s (s.inode d).iDev nr
    simp only
    generalize s.iget read (s.inode d).iDev nr = r at hget
    obtain ⟨o, s₁⟩ := r
    exact h.swap hget
  | none =>
    have hnew := newInode_held read s (s.inode d).iDev cr.fresh
    generalize s.newInode read (s.inode d).iDev cr.fresh = r at hnew
    obtain ⟨o, s₁⟩ := r
    cases o with
    | none => exact h.swap hnew
    | some e =>
      simp only
      split
      · refine h.swap (Held.iput ?_)
        exact hnew.write rfl
      · refine h.swap ?_
        exact hnew.write rfl

/-- **The lookup of `sys_open`** holds what it returns, and nothing else. -/
theorem openLookup_held (t : Task) (p : PathTo) (creat : Option Creation) (s : Tables) :
    Held (fun x => (s.inode x).iCount) s.file (openLookup read t p creat s).1
      (openLookup read t p creat s).2 := by
  have hnamei := @nameiHold_held read t p s
  unfold openLookup
  generalize nameiHold read t p s = r at hnamei
  obtain ⟨o, s₁⟩ := r
  cases o with
  | some e => exact hnamei
  | none =>
    cases creat with
    | none => exact hnamei
    | some cr =>
      simp only
      cases cr.dir with
      | none => exact hnamei
      | some dp =>
        have hdir := hnamei.trans (@nameiHold_held read t dp s₁)
        simp only
        generalize nameiHold read t dp s₁ = r at hdir
        obtain ⟨o, s₂⟩ := r
        cases o with
        | none => exact hdir
        | some d => exact createIn_held hdir

end

/-! ### The calls -/

/-- `filp[fd] = x`. -/
def Task.setFd (t : Task) (fd : Fin 64) (x : Option FileRef) : Task :=
  { t with filp := update t.filp fd x }

/-- `f_count = v`. -/
def File.recount (f : File) (v : BitVec 16) : File := { f with fCount := v }

/-- `f->f_count--`, and `iput()` if that was the last reference. -/
def Refs.putFile (r : Refs) : FileRef → Refs
  | .tty => { r with tty := r.tty - 1#16 }
  | .slot i =>
    let f := (r.s.file i).recount ((r.s.file i).fCount - 1#16)
    let s₁ := { r.s with file := update r.s.file i f }
    match f.fInode with
    | some e => if f.fCount = 0#16 then { r with s := s₁.iput e } else { r with s := s₁ }
    | none => { r with s := s₁ }

/-- `if (e) iput(e)`. -/
def Refs.iput (r : Refs) : Option InodeRef → Refs
  | none => r
  | some e => { r with s := r.s.iput e }

/-- The first free descriptor from `k` on. -/
def freeFdFrom (t : Task) (k : ℕ) : Option (Fin 64) :=
  (List.finRange 64).find? fun fd => k ≤ fd.val ∧ t.filp fd = none

/-- `file_table[]`, `inode_table[]` and the tasks. -/
structure Holders where
  r : Refs
  tk : TaskTable

/-- How `sys_open` is called, and what it meets. -/
structure OpenCall where
  flag : Word
  /-- The number of a device name, 0 for any other. -/
  dev : BitVec 16
  path : PathTo
  creat : Option Creation
  read : Word → Option MInode

inductive HolderOp where
  | open (n : Slot) (c : OpenCall)
  | close (n : Slot) (fd : Fin 64)
  | dup (n : Slot) (fd : Fin 64)
  | dup2 (n : Slot) (old new : Fin 64)
  | dupfd (n : Slot) (fd : Fin 64) (arg : Word)
  /-- `page`: there is a free page. -/
  | pipe (n : Slot) (page : Bool)
  | fork (n : Slot)
  | exit (n : Slot) (ret : Word)
  /-- The zombie is reaped. -/
  | reap (n : Slot)

namespace Holders

/-- The init task and the write-back task in the root directory, with the console. -/
def boot : Holders where
  r :=
    { s :=
        { inode := fun e =>
            if e = 0 then { iMode := 0x41ed#16, iNlinks := 2#8, iDev := rootDev, iNum := 1#32, iCount := 2#8 } else {}
          file := fun _ => {} }
      tty := 1#16 }
  tk n :=
    if n = 0 then some { pwd := some 0, filp := fun fd => if fd.val < 3 then some .tty else none }
    else if n = 63 then some { pwd := some 0, pid := 63#32 }
    else none

def setTask (s : Holders) (n : Slot) (t : Task) : Holders := { s with tk := update s.tk n (some t) }

/-- **`sys_open`.** -/
def sysOpen (s : Holders) (n : Slot) (t : Task) (c : OpenCall) : Holders :=
  let o := Linux001.sysOpen Tables.truncateInode (openLookup c.read t c.path c.creat) c.dev s.r.s t c.flag
  { s with r := { s.r with s := o.2.1 } }.setTask n o.2.2

/-- **`sys_close`.** -/
def sysClose (s : Holders) (n : Slot) (t : Task) (fd : Fin 64) : Holders :=
  match t.filp fd with
  | none => s
  | some x => { s with r := s.r.putFile x }.setTask n (t.setFd fd none)

/-- The descriptor `fd` is shared with the first free one from `k` on. -/
def dupFrom (s : Holders) (n : Slot) (t : Task) (fd : Fin 64) (k : ℕ) : Holders :=
  match t.filp fd, freeFdFrom t k with
  | some x, some fd' =>
    { s with r := s.r.holdFile t fd }.setTask n (t.setFd fd' (some x))
  | _, _ => s

/-- **`sys_dup`.** -/
def sysDup (s : Holders) (n : Slot) (t : Task) (fd : Fin 64) : Holders := s.dupFrom n t fd 0

/-- **`dupfd`**, which is `sys_fcntl(F_DUPFD)`. -/
def dupfd (s : Holders) (n : Slot) (t : Task) (fd : Fin 64) (arg : Word) : Holders :=
  if 64#32 ≤ arg then s else s.dupFrom n t fd arg.toNat

/-- **`sys_dup2`.** -/
def sysDup2 (s : Holders) (n : Slot) (t : Task) (old new : Fin 64) : Holders :=
  match t.filp old with
  | none => s
  | some x =>
    if old = new then s
    else
      let r₁ := match t.filp new with
        | none => s.r
        | some y => s.r.putFile y
      { s with r := r₁.holdFile t old }.setTask n (t.setFd new (some x))

/-- `f->f_count = v`. -/
def setCount (s : Tables) (i : Fin 64) (v : BitVec 16) : Tables :=
  { s with file := update s.file i ((s.file i).recount v) }

/-- **`get_pipe_inode`.** -/
def getPipeInode (s : Tables) (page : Bool) : Option InodeRef × Tables :=
  match s.getEmptyInode with
  | (none, s₁) => (none, s₁)
  | (some e, s₁) =>
    if page = false then
      (none, { s₁ with inode := update s₁.inode e { s₁.inode e with iCount := 0#8 } })
    else
      (some e, { s₁ with inode := update s₁.inode e { s₁.inode e with
        iCount := 2#8, iZone := fun k => if k.val < 2 then 0#16 else (s₁.inode e).iZone k, iPipe := true } })

/-- An end of a pipe. -/
def pipeEnd (e : InodeRef) (mode : BitVec 16) (s : Tables) (i : Fin 64) : Tables :=
  { s with
    file := update s.file i
      { s.file i with fInode := some e, fPos := 0#32, fDev := 0#16, fMode := mode } }

/-- `f[0]->f_count = f[1]->f_count = 0`. -/
def uncount (s : Tables) (i j : Fin 64) : Tables := setCount (setCount s i 0#16) j 0#16

/-- **`sys_pipe`.** -/
def sysPipe (s : Holders) (n : Slot) (t : Task) (page : Bool) : Holders :=
  match freeFile s.r.s with
  | none => s
  | some i =>
    let s₁ := setCount s.r.s i ((s.r.s.file i).fCount + 1#16)
    match freeFile s₁ with
    | none => { s with r := { s.r with s := setCount s₁ i 0#16 } }
    | some j =>
      let s₂ := setCount s₁ j ((s₁.file j).fCount + 1#16)
      match freeFd t with
      | none => { s with r := { s.r with s := uncount s₂ i j } }
      | some fd =>
        let t₁ := t.setFd fd (some (.slot i))
        match freeFd t₁ with
        | none => { s with r := { s.r with s := uncount s₂ i j } }
        | some fd' =>
          let t₂ := t₁.setFd fd' (some (.slot j))
          match getPipeInode s₂ page with
          | (none, s₃) => { s with r := { s.r with s := uncount s₃ i j } }
          | (some e, s₃) =>
            { s with r := { s.r with s := pipeEnd e 2#16 (pipeEnd e 1#16 s₃ i) j } }.setTask n t₂

/-- **`sys_fork`**, when it succeeds: the child takes a hold on all that it copies. -/
def sysFork (s : Holders) (n : Slot) (t : Task) : Holders :=
  match Sched.freeTask s.tk with
  | none => s
  | some n' => if n' = 0 then s else { s with r := s.r.share t }.setTask n' (Sched.child t n n')

/-- The task lets go of its directories and its executable. -/
def dropDirs (s : Holders) (n : Slot) : Holders :=
  match s.tk n with
  | none => s
  | some t =>
    { s with r := ((s.r.iput t.pwd).iput t.root).iput t.exeInode }.setTask n
      { t with pwd := none, root := none, exeInode := none }

/-- One round of `sys_exit`'s loop over the descriptors. -/
def closeFd (s : Holders) (n : Slot) (fd : Fin 64) : Holders :=
  match s.tk n with
  | none => s
  | some t => s.sysClose n t fd

/-- **`sys_exit`**, up to its `schedule()`. -/
def sysExit (s : Holders) (n : Slot) (ret : Word) : Holders :=
  let s₁ := (List.finRange 64).foldl (fun s fd => s.closeFd n fd) s
  let s₂ := s₁.dropDirs n
  match s₂.tk n with
  | none => s₂
  | some t =>
    if n = 0 then s₂.setTask n { t with state := .running }
    else s₂.setTask n { t with exitCode := ret, state := .zombie }

/-- A task that can make a call. -/
def user (s : Holders) (n : Slot) : Option Task := (s.tk n).filter fun t => t.state ≠ .zombie

/-- **One step.** -/
def step (s : Holders) (op : HolderOp) : Holders :=
  match op with
  | .open n c => (s.user n).elim s fun t => s.sysOpen n t c
  | .close n fd => (s.user n).elim s fun t => s.sysClose n t fd
  | .dup n fd => (s.user n).elim s fun t => s.sysDup n t fd
  | .dup2 n old new => (s.user n).elim s fun t => s.sysDup2 n t old new
  | .dupfd n fd arg => (s.user n).elim s fun t => s.dupfd n t fd arg
  | .pipe n page => (s.user n).elim s fun t => s.sysPipe n t page
  | .fork n => (s.user n).elim s fun t => s.sysFork n t
  | .exit n ret => (s.user n).elim s fun _ => s.sysExit n ret
  | .reap n =>
    if (s.tk n).any fun t => t.state = .zombie then { s with tk := update s.tk n none } else s

/-- **A run.** -/
def run (s : Holders) (ops : List HolderOp) : Holders := ops.foldl step s

/-! ### The references -/

/-- The descriptors of a task that refer to `x`. -/
def fdRefs (x : FileRef) (t : Task) : ℕ := Tally.total t.filp fun y => if y = some x then 1 else 0

/-- What a task counts for. -/
def ofTask (g : Task → ℕ) : Option Task → ℕ
  | none => 0
  | some t => g t

/-- The descriptors, of all tasks, that refer to `file_table[i]`. -/
def fileRefs (s : Holders) (i : Fin 64) : ℕ := Tally.total s.tk (ofTask (fdRefs (.slot i)))

/-- An entry of `file_table[]` that is in use and refers to `e`. -/
def entryRef (e : InodeRef) (f : File) : ℕ := if f.fCount ≠ 0#16 ∧ f.fInode = some e then 1 else 0

/-- The directories of a task, and its executable, that are `e`. -/
def dirRefs (e : InodeRef) (t : Task) : ℕ :=
  (if t.pwd = some e then 1 else 0) + (if t.root = some e then 1 else 0) + if t.exeInode = some e then 1 else 0

/-- The references to an inode. -/
def inodeRefs (s : Holders) (e : InodeRef) : ℕ :=
  Tally.total s.r.s.file (entryRef e) + Tally.total s.tk (ofTask (dirRefs e))

/-- **The counts are exact.** -/
def Exact (s : Holders) : Prop :=
  (∀ i, (s.r.s.file i).fCount.toNat = s.fileRefs i) ∧ ∀ e, (s.r.s.inode e).iCount.toNat = s.inodeRefs e

variable {s s' : Holders} {n : Slot} {t t' : Task} {fd : Fin 64} {i : Fin 64} {e : InodeRef}
  {r' : Refs} {j : Fin 64} {k : ℕ}

/-! ### The invariant -/

/-- A zombie refers to nothing, and no task has one inode as its directory, its root and its
executable. -/
structure TaskOk (t : Task) : Prop where
  idle : t.state = .zombie → (∀ fd, t.filp fd = none) ∧ t.pwd = none ∧ t.root = none ∧ t.exeInode = none
  slim : ∀ e, dirRefs e t ≤ 2

/-- The counters are the references, as far as their width goes. -/
structure Balanced (s : Holders) : Prop where
  files : ∀ i, (s.r.s.file i).fCount = BitVec.ofNat 16 (s.fileRefs i)
  inodes : ∀ e, (s.r.s.inode e).iCount = BitVec.ofNat 8 (s.inodeRefs e)
  tasks : ∀ {n t}, s.tk n = some t → TaskOk t

theorem fdRefs_setFd (x : FileRef) (t : Task) (fd : Fin 64) (y : Option FileRef) :
    fdRefs x (t.setFd fd y) + (if t.filp fd = some x then 1 else 0) = fdRefs x t + if y = some x then 1 else 0 :=
  total_update t.filp (fun y => if y = some x then 1 else 0) fd y

theorem fdRefs_le (x : FileRef) (t : Task) : fdRefs x t ≤ 64 := by
  refine (total_le (b := 1) fun fd => ?_).trans (by simp)
  split
  · exact Nat.le_refl 1
  · exact Nat.zero_le 1

theorem fileRefs_le (s : Holders) (i : Fin 64) : s.fileRefs i ≤ 4096 := by
  refine (total_le (b := 64) fun n => ?_).trans (by simp)
  cases s.tk n with
  | none => exact Nat.zero_le _
  | some t => exact fdRefs_le _ t

/-- A file that a descriptor refers to is in use. -/
theorem Balanced.live (h : Balanced s) (ht : s.tk n = some t) (hf : t.filp fd = some (.slot i)) :
    (s.r.s.file i).fCount ≠ 0#16 := by
  have hrow := le_total t.filp (fun y => if y = some (FileRef.slot i) then 1 else 0) fd
  have hle := le_total s.tk (ofTask (fdRefs (.slot i))) n
  rw [if_pos hf] at hrow
  rw [ht] at hle
  change 1 ≤ fdRefs (.slot i) t at hrow
  change fdRefs (.slot i) t ≤ s.fileRefs i at hle
  have hmax := s.fileRefs_le i
  rw [h.files i]
  intro h0
  have := congrArg BitVec.toNat h0
  simp only [toNat_ofNat, Nat.zero_mod] at this
  omega

/-- **What a call may do**: it changes the entry of one task, and the counters by as much as the
references. -/
theorem Balanced.call (h : Balanced s) {x : Option Task}
    (hf : ∀ i, (r'.s.file i).fCount + BitVec.ofNat 16 (ofTask (fdRefs (.slot i)) (s.tk n)) =
      (s.r.s.file i).fCount + BitVec.ofNat 16 (ofTask (fdRefs (.slot i)) x))
    (hi : ∀ e, (r'.s.inode e).iCount +
        BitVec.ofNat 8 (total s.r.s.file (entryRef e) + ofTask (dirRefs e) (s.tk n)) =
      (s.r.s.inode e).iCount + BitVec.ofNat 8 (total r'.s.file (entryRef e) + ofTask (dirRefs e) x))
    (hx : ∀ t, x = some t → TaskOk t) : Balanced ⟨r', update s.tk n x⟩ := by
  refine ⟨fun i => ?_, fun e => ?_, fun {m t} ht => ?_⟩
  · have hsum : fileRefs ⟨r', update s.tk n x⟩ i + ofTask (fdRefs (.slot i)) (s.tk n) =
        s.fileRefs i + ofTask (fdRefs (.slot i)) x := total_update ..
    refine (BitVec.add_left_inj (BitVec.ofNat 16 (ofTask (fdRefs (.slot i)) (s.tk n)))).mp ?_
    rw [hf i, h.files i, ← ofNat_add, ← ofNat_add, hsum]
  · have hsum := total_update s.tk (ofTask (dirRefs e)) n x
    have hrefs : inodeRefs ⟨r', update s.tk n x⟩ e +
        (total s.r.s.file (entryRef e) + ofTask (dirRefs e) (s.tk n)) =
        s.inodeRefs e + (total r'.s.file (entryRef e) + ofTask (dirRefs e) x) := by
      unfold inodeRefs
      simp only
      omega
    refine (add_left_inj
      (BitVec.ofNat 8 (total s.r.s.file (entryRef e) + ofTask (dirRefs e) (s.tk n)))).mp ?_
    rw [hi e, h.inodes e, ← ofNat_add, ← ofNat_add, hrefs]
  · rcases of_update_eq ht with ⟨-, rfl⟩ | ⟨-, ht⟩
    · exact hx t rfl
    · exact h.tasks ht

/-- The counters and the entries are as they were. -/
theorem Balanced.frame (h : Balanced s) (hf : ∀ i, (r'.s.file i).fCount = (s.r.s.file i).fCount)
    (he : ∀ i, (r'.s.file i).fInode = (s.r.s.file i).fInode)
    (hi : ∀ e, (r'.s.inode e).iCount = (s.r.s.inode e).iCount) : Balanced ⟨r', s.tk⟩ := by
  have hent : ∀ e, total r'.s.file (entryRef e) = total s.r.s.file (entryRef e) := by
    intro e
    refine total_congr fun i => ?_
    unfold entryRef
    rw [hf i, he i]
  refine ⟨fun i => (hf i).trans (h.files i), fun e => ?_, h.tasks⟩
  rw [hi e, h.inodes e]
  unfold inodeRefs
  rw [hent e]

theorem slot_inj {i : Fin 64} : (some (FileRef.slot i) = some (FileRef.slot j)) ↔ i = j := by simp

/-- The effect of `putFile` on the counts. -/
theorem putFile_slot (r : Refs) (i : Fin 64) :
    (r.putFile (.slot i)).s.file = update r.s.file i ((r.s.file i).recount ((r.s.file i).fCount - 1#16)) ∧
      ∀ x, ((r.putFile (.slot i)).s.inode x).iCount = (r.s.inode x).iCount -
        if (r.s.file i).fCount - 1#16 = 0#16 ∧ (r.s.file i).fInode = some x then 1#8 else 0#8 := by
  unfold putFile
  simp only
  cases hf : ((r.s.file i).recount ((r.s.file i).fCount - 1#16)).fInode with
  | none =>
    have hf' : (r.s.file i).fInode = none := hf
    exact ⟨rfl, fun x => by simp [hf']⟩
  | some e =>
    have hf' : (r.s.file i).fInode = some e := hf
    simp only
    split
    · next h0 =>
      change (r.s.file i).fCount - 1#16 = 0#16 at h0
      refine ⟨rfl, fun x => ?_⟩
      rw [iput_iCount, hf']
      simp only [h0, true_and]
    · next h0 =>
      change ¬ (r.s.file i).fCount - 1#16 = 0#16 at h0
      refine ⟨rfl, fun x => ?_⟩
      simp [h0]

/-- A use of an open file goes, or another one comes: the entry counts for its inode as before, unless it
goes out of use. -/
theorem entries_recount {file : Fin 64 → File} (v : BitVec 16) (hlive : (file i).fCount ≠ 0#16) :
    total (update file i ((file i).recount v)) (entryRef e) +
      (if v = 0#16 ∧ (file i).fInode = some e then 1 else 0) = total file (entryRef e) := by
  have hent := total_update file (entryRef e) i ((file i).recount v)
  have hold : entryRef e (file i) = if (file i).fInode = some e then 1 else 0 := by
    unfold entryRef
    simp [hlive]
  have hnew : entryRef e ((file i).recount v) = if v ≠ 0#16 ∧ (file i).fInode = some e then 1 else 0 := rfl
  rw [hold, hnew] at hent
  by_cases he : (file i).fInode = some e <;> by_cases hv : v = 0#16 <;> simp [he, hv] at hent ⊢ <;> omega

/-- A counter with one reference more is not 0. -/
theorem Balanced.recount_ne (h : Balanced s) (hk : k ≤ 64) (hlive : (s.r.s.file i).fCount ≠ 0#16) :
    (s.r.s.file i).fCount + BitVec.ofNat 16 k ≠ 0#16 := by
  have hmax := s.fileRefs_le i
  rw [h.files i] at hlive ⊢
  rw [← BitVec.ofNat_add]
  intro h0
  have h₁ := congrArg BitVec.toNat h0
  simp only [BitVec.toNat_ofNat, Nat.zero_mod] at h₁
  refine hlive (congrArg (BitVec.ofNat 16) ?_)
  omega

theorem freeFdFrom_some (h : freeFdFrom t k = some fd) : t.filp fd = none := by
  have := find?_some h
  simp only [decide_eq_true_eq] at this
  exact this.2

theorem setCount_fCount (s : Tables) (i k : Fin 64) (v : BitVec 16) :
    ((setCount s i v).file k).fCount = if k = i then v else (s.file k).fCount := by
  show (update s.file i ((s.file i).recount v) k).fCount = _
  by_cases h : k = i
  · rw [if_pos h, h, update_self]
    rfl
  · rw [if_neg h, update_of_ne h]

theorem setCount_fInode (s : Tables) (i k : Fin 64) (v : BitVec 16) :
    ((setCount s i v).file k).fInode = (s.file k).fInode := by
  show (update s.file i ((s.file i).recount v) k).fInode = _
  by_cases h : k = i
  · rw [h, update_self]
    rfl
  · rw [update_of_ne h]

theorem pipeEnd_file (e : InodeRef) (mode : BitVec 16) (s : Tables) (i k : Fin 64) :
    ((pipeEnd e mode s i).file k).fCount = (s.file k).fCount ∧
      ((pipeEnd e mode s i).file k).fInode = (if k = i then some e else (s.file k).fInode) ∧
      (k ≠ i → (pipeEnd e mode s i).file k = s.file k) := by
  unfold pipeEnd
  simp only
  by_cases h : k = i
  · rw [if_pos h, h, update_self]
    exact ⟨rfl, rfl, fun hne => absurd rfl hne⟩
  · rw [if_neg h, update_of_ne h]
    exact ⟨rfl, rfl, fun _ => rfl⟩

/-- `get_pipe_inode` returns an inode with two holds, or leaves the counts. -/
theorem getPipeInode_counts (s : Tables) (page : Bool) :
    (getPipeInode s page).2.file = s.file ∧ ∀ x, ((getPipeInode s page).2.inode x).iCount =
      (s.inode x).iCount + if (getPipeInode s page).1 = some x then 2#8 else 0#8 := by
  unfold getPipeInode Tables.getEmptyInode
  cases hf : s.freeInode with
  | none => exact ⟨rfl, fun x => by simp⟩
  | some e =>
    have hzero := freeInode_some hf
    simp only
    split
    · refine ⟨rfl, fun x => ?_⟩
      by_cases hx : x = e
      · simp [hx, hzero]
      · simp [hx]
    · refine ⟨rfl, fun x => ?_⟩
      by_cases hx : x = e
      · simp [hx, hzero]
      · simp [hx, Ne.symm hx]

theorem share_count (r : Refs) (t : Task) (x : FileRef) :
    (r.share t).count x = r.count x + BitVec.ofNat 16 (fdRefs x t) := by
  have hhold : ∀ (r : Refs) o, (r.hold o).count x = r.count x := fun r o => by
    cases o <;> cases x <;> rfl
  unfold share fdRefs
  rw [(holdFiles t _ _).2, hhold, hhold, hhold, total_eq_countP]

theorem share_iCount (r : Refs) (t : Task) (e : InodeRef) :
    ((r.share t).s.inode e).iCount = (r.s.inode e).iCount + BitVec.ofNat 8 (dirRefs e t) := by
  have hbit : ∀ p : Prop, [Decidable p] → (if p then 1#8 else 0#8) = BitVec.ofNat 8 (if p then 1 else 0) := by
    intro p _
    split <;> rfl
  unfold share dirRefs
  rw [(holdFiles t _ _).1, hold_iCount_opt, hold_iCount_opt, hold_iCount_opt, hbit, hbit, hbit,
    add_assoc, add_assoc, ofNat_add, ofNat_add, add_assoc]

theorem share_fInode (r : Refs) (t : Task) (i : Fin 64) :
    ((r.share t).s.file i).fInode = (r.s.file i).fInode := by
  have hfile : ∀ (r : Refs) fd, ((r.holdFile t fd).s.file i).fInode = (r.s.file i).fInode := by
    intro r fd
    unfold holdFile
    split
    · rfl
    · rfl
    · next k _ => exact setCount_fInode r.s k i _
  have hhold : ∀ (r : Refs) o, (r.hold o).s.file = r.s.file := fun r o => by cases o <;> rfl
  have hloop : ∀ (l : List (Fin 64)) (r : Refs),
      ((l.foldl (holdFile t) r).s.file i).fInode = (r.s.file i).fInode := by
    intro l
    induction l with
    | nil => exact fun _ => rfl
    | cons fd l ih => exact fun r => (ih _).trans (hfile r fd)
  unfold share
  rw [hloop, hhold, hhold, hhold]

/-- **A child** has a reference wherever its parent has one. -/
theorem Balanced.sysFork (h : Balanced s) (ht : s.tk n = some t) : Balanced (s.sysFork n t) := by
  unfold Holders.sysFork
  cases hf : Sched.freeTask s.tk with
  | none => exact h
  | some n' =>
    have hfree : s.tk n' = none := by
      have := find?_some hf
      simpa using this
    simp only
    split
    · exact h
    refine h.call (fun i => ?_) (fun e => ?_) fun u hu => ?_
    · rw [hfree]
      show (s.r.share t).count (.slot i) + 0#16 = s.r.count (.slot i) + BitVec.ofNat 16 (fdRefs (.slot i) t)
      rw [BitVec.add_zero, share_count]
    · have hent : total (s.r.share t).s.file (entryRef e) = total s.r.s.file (entryRef e) := by
        refine total_congr fun i => ?_
        have hcount := share_count s.r t (.slot i)
        change ((s.r.share t).s.file i).fCount = (s.r.s.file i).fCount + _ at hcount
        unfold entryRef
        rw [share_fInode, hcount]
        refine if_congr (and_congr_left fun _ => ?_) rfl rfl
        by_cases hl : (s.r.s.file i).fCount = 0#16
        · -- no descriptor refers to a slot that is free
          have hno : ∀ fd, t.filp fd ≠ some (.slot i) := fun fd hfd => h.live ht hfd hl
          have hzero : fdRefs (.slot i) t = 0 := by
            unfold fdRefs
            rw [total_eq_countP, countP_eq_zero]
            simpa using hno
          rw [hzero, BitVec.add_zero]
        · exact iff_of_true (h.recount_ne (fdRefs_le _ t) hl) hl
      rw [hfree, hent, share_iCount]
      show _ + BitVec.ofNat 8 (_ + 0) = _ + BitVec.ofNat 8 (_ + dirRefs e t)
      rw [Nat.add_zero, BitVec.ofNat_add, BitVec.add_assoc, BitVec.add_comm (BitVec.ofNat 8 (dirRefs e t))]
    · obtain rfl := some.inj hu
      exact ⟨nofun, (h.tasks ht).slim⟩

theorem iput_opt_iCount (r : Refs) (o : Option InodeRef) (x : InodeRef) :
    ((r.iput o).s.inode x).iCount = (r.s.inode x).iCount - BitVec.ofNat 8 (if o = some x then 1 else 0) := by
  cases o with
  | none => simp [iput]
  | some e =>
    show ((r.s.iput e).inode x).iCount = _
    rw [iput_iCount]
    split <;> rfl

theorem iput_opt_file (r : Refs) (o : Option InodeRef) : (r.iput o).s.file = r.s.file := by
  cases o <;> rfl

section
variable (h : Balanced s) (ht : s.tk n = some t) (hz : t.state ≠ .zombie) {fd' : Fin 64}
include h ht hz

/-- A call of a task that is not a zombie, and keeps its directories. -/
theorem Balanced.fdCall {t' : Task}
    (hst : t'.state = t.state) (hdir : ∀ e, dirRefs e t' = dirRefs e t)
    (hf : ∀ i, (r'.s.file i).fCount + BitVec.ofNat 16 (fdRefs (.slot i) t) =
      (s.r.s.file i).fCount + BitVec.ofNat 16 (fdRefs (.slot i) t'))
    (hi : ∀ e, (r'.s.inode e).iCount + BitVec.ofNat 8 (total s.r.s.file (entryRef e)) =
      (s.r.s.inode e).iCount + BitVec.ofNat 8 (total r'.s.file (entryRef e))) :
    Balanced (setTask ⟨r', s.tk⟩ n t') := by
  refine h.call (fun i => ?_) (fun e => ?_) fun u hu => ?_
  · rw [ht]
    exact hf i
  · rw [ht]
    show _ + BitVec.ofNat 8 (_ + dirRefs e t) = _ + BitVec.ofNat 8 (_ + dirRefs e t')
    rw [hdir e, ofNat_add, ofNat_add, ← add_assoc, ← add_assoc, hi e]
  · obtain rfl := some.inj hu
    exact ⟨fun hzu => absurd (hst.symm.trans hzu) hz, fun e => hdir e ▸ (h.tasks ht).slim e⟩

/-- **A new open file**, in a slot that was free, with a hold on its inode, and a descriptor for it. -/
theorem Balanced.claim (hfd : t.filp fd = none)
    (hfree : (s.r.s.file i).fCount = 0#16) {q : Refs} {f : File} (hfile : q.s.file = update s.r.s.file i f)
    (hone : f.fCount = 1#16)
    (hino : ∀ x, (q.s.inode x).iCount = (s.r.s.inode x).iCount + if f.fInode = some x then 1#8 else 0#8) :
    Balanced (setTask ⟨q, s.tk⟩ n (t.setFd fd (some (.slot i)))) := by
  refine h.fdCall ht hz rfl (fun _ => rfl) (fun j => ?_) fun e => ?_
  · have hrow := fdRefs_setFd (.slot j) t fd (some (.slot i))
    rw [hfd, if_neg (by simp), Nat.add_zero] at hrow
    rw [hrow, hfile]
    by_cases hj : i = j
    · subst hj
      rw [update_self, hone, hfree, if_pos rfl, BitVec.ofNat_add, BitVec.add_comm 1#16, BitVec.zero_add]
    · rw [update_of_ne (Ne.symm hj), if_neg (mt slot_inj.mp hj), Nat.add_zero]
  · have hent := total_update s.r.s.file (entryRef e) i f
    have hold : entryRef e (s.r.s.file i) = 0 := if_neg fun h => h.1 hfree
    have hnew : entryRef e f = if f.fInode = some e then 1 else 0 := by
      unfold entryRef
      simp [hone]
    rw [hold, hnew, Nat.add_zero] at hent
    rw [hfile, hino e, hent]
    split
    · rw [add_assoc, ofNat_add]
      exact congrArg (_ + ·) (add_comm ..)
    · rw [Nat.add_zero, BitVec.add_zero]

/-- **A descriptor is closed.** -/
theorem Balanced.sysClose :
    Balanced (s.sysClose n t fd) := by
  unfold Holders.sysClose
  cases hx : t.filp fd with
  | none => exact h
  | some x =>
    refine h.fdCall ht hz rfl (fun _ => rfl) (fun j => ?_) fun e => ?_
    · have hrow := fdRefs_setFd (.slot j) t fd none
      rw [hx, if_neg (by simp : ¬ (none : Option FileRef) = some (.slot j)), Nat.add_zero] at hrow
      rw [← hrow, ofNat_add]
      cases x with
      | tty =>
        rw [if_neg (by simp), BitVec.add_zero]
        rfl
      | slot i =>
        rw [(putFile_slot s.r i).1]
        by_cases hj : i = j
        · subst hj
          rw [update_self, if_pos rfl, BitVec.add_comm (BitVec.ofNat 16 _), ← BitVec.add_assoc]
          exact congrArg (· + _) (BitVec.sub_add_cancel _ _)
        · rw [update_of_ne (Ne.symm hj), if_neg (mt slot_inj.mp hj), BitVec.add_zero]
    · cases x with
      | tty => rfl
      | slot i =>
        obtain ⟨hfile, hino⟩ := putFile_slot s.r i
        have hent := entries_recount (e := e) ((s.r.s.file i).fCount - 1#16) (h.live ht hx)
        rw [hfile, hino e, ← hent, ofNat_add]
        split
        · rw [BitVec.add_comm (BitVec.ofNat 8 _), ← BitVec.add_assoc, BitVec.sub_add_cancel]
        · rw [BitVec.sub_zero, BitVec.add_zero]

/-- **A descriptor is shared.** -/
theorem Balanced.share {x : FileRef}
    (hx : t.filp fd = some x) (hfd : t.filp fd' = none) :
    Balanced (setTask ⟨s.r.holdFile t fd, s.tk⟩ n (t.setFd fd' (some x))) := by
  refine h.fdCall ht hz rfl (fun _ => rfl) (fun j => ?_) fun e => ?_
  · have hrow := fdRefs_setFd (.slot j) t fd' (some x)
    rw [hfd, if_neg (by simp : ¬ (none : Option FileRef) = some (.slot j)), Nat.add_zero] at hrow
    have hcount := holdFile_count t s.r fd (.slot j)
    rw [hx] at hcount
    change ((s.r.holdFile t fd).s.file j).fCount = (s.r.s.file j).fCount + _ at hcount
    rw [hcount, hrow, ofNat_add, add_assoc]
    refine congrArg (_ + ·) ?_
    rw [add_comm]
    split
    · rfl
    · rfl
  · rw [holdFile_inode]
    refine congrArg (fun k => _ + BitVec.ofNat 8 k) ?_
    cases x with
    | tty =>
      unfold holdFile
      rw [hx]
    | slot i =>
      have hne := h.recount_ne (k := 1) (by decide) (h.live ht hx)
      have hent := entries_recount (e := e) ((s.r.s.file i).fCount + 1#16) (h.live ht hx)
      rw [if_neg fun hc => hne hc.1, Nat.add_zero] at hent
      unfold holdFile
      rw [hx]
      exact hent.symm

theorem Balanced.dupFrom :
    Balanced (s.dupFrom n t fd k) := by
  unfold Holders.dupFrom
  cases hx : t.filp fd with
  | none => exact h
  | some x =>
    cases hf : freeFdFrom t k with
    | none => exact h
    | some fd' => exact h.share ht hz hx (freeFdFrom_some hf)

/-- **`sys_dup2`** is a close and a share. -/
theorem Balanced.sysDup2 {old new : Fin 64} :
    Balanced (s.sysDup2 n t old new) := by
  unfold Holders.sysDup2
  cases hx : t.filp old with
  | none => exact h
  | some x =>
    simp only
    split
    · exact h
    next hne =>
    cases hy : t.filp new with
    | none => exact h.share ht hz hx hy
    | some y =>
      have hclose : Balanced (s.sysClose n t new) := h.sysClose ht hz
      unfold Holders.sysClose at hclose
      rw [hy] at hclose
      have ht₁ : (setTask ⟨s.r.putFile y, s.tk⟩ n (t.setFd new none)).tk n = some (t.setFd new none) :=
        update_self ..
      have hx₁ : (t.setFd new none).filp old = some x := (update_of_ne hne ..).trans hx
      have hshare := hclose.share ht₁ hz hx₁ (update_self ..)
      have htask : (t.setFd new none).setFd new (some x) = t.setFd new (some x) := by
        unfold Task.setFd
        rw [update_idem]
      have hhold : (s.r.putFile y).holdFile (t.setFd new none) old = (s.r.putFile y).holdFile t old := by
        unfold holdFile
        rw [hx₁, hx]
      unfold setTask at hshare ⊢
      simp only [update_idem, htask, hhold] at hshare
      exact hshare

/-! ### `sys_pipe` -/

/-- Two slots of `file_table[]` are taken. -/
def takeTwo (s : Tables) (i j : Fin 64) : Tables :=
  setCount (setCount s i ((s.file i).fCount + 1#16)) j
    (((setCount s i ((s.file i).fCount + 1#16)).file j).fCount + 1#16)

omit h ht hz in
/-- They are given back. -/
theorem Balanced.giveBack {s' : Tables} (h : Balanced s) (hi : (s.r.s.file i).fCount = 0#16)
    (hj : (s.r.s.file j).fCount = 0#16) (hfile : s'.file = (takeTwo s.r.s i j).file)
    (hino : ∀ e, (s'.inode e).iCount = (s.r.s.inode e).iCount) :
    Balanced { s with r := { s.r with s := uncount s' i j } } := by
  refine h.frame (fun k => ?_) (fun k => ?_) hino
  · show ((setCount (setCount s' i 0#16) j 0#16).file k).fCount = _
    rw [setCount_fCount, setCount_fCount, hfile, takeTwo, setCount_fCount, setCount_fCount]
    split_ifs with h₁ h₂
    · rw [h₁, hj]
    · rw [h₂, hi]
    · rw [setCount_fCount, if_neg h₂]
  · show ((setCount (setCount s' i 0#16) j 0#16).file k).fInode = _
    rw [setCount_fInode, setCount_fInode, hfile, takeTwo, setCount_fInode, setCount_fInode]

/-- **The two ends of a new pipe.** -/
theorem Balanced.pipeEnds {s₃ : Tables}
    (hi : (s.r.s.file i).fCount = 0#16) (hj : (s.r.s.file j).fCount = 0#16) (hij : j ≠ i)
    (hfd : t.filp fd = none) (hfd' : (t.setFd fd (some (.slot i))).filp fd' = none)
    (hfile : s₃.file = (takeTwo s.r.s i j).file)
    (hino : ∀ x, (s₃.inode x).iCount = (s.r.s.inode x).iCount + if some e = some x then 2#8 else 0#8) :
    Balanced ({ s with r := { s.r with s := pipeEnd e 2#16 (pipeEnd e 1#16 s₃ i) j } }.setTask n
      ((t.setFd fd (some (.slot i))).setFd fd' (some (.slot j)))) := by
  obtain ⟨fin, hfin⟩ : ∃ fin, fin = pipeEnd e 2#16 (pipeEnd e 1#16 s₃ i) j := ⟨_, rfl⟩
  rw [← hfin]
  have hcount : ∀ k, (fin.file k).fCount = if k = j then 1#16 else if k = i then 1#16 else (s.r.s.file k).fCount := by
    intro k
    rw [hfin, (pipeEnd_file ..).1, (pipeEnd_file ..).1, hfile, takeTwo, setCount_fCount, setCount_fCount,
      setCount_fCount, if_neg hij, hi, hj]
    rfl
  have hends : ∀ k, (fin.file k).fInode = if k = j then some e else if k = i then some e else (s.r.s.file k).fInode := by
    intro k
    rw [hfin, (pipeEnd_file ..).2.1, (pipeEnd_file ..).2.1, hfile, takeTwo, setCount_fInode, setCount_fInode]
  have hother : ∀ k, k ≠ i → k ≠ j → fin.file k = s.r.s.file k := by
    intro k hki hkj
    rw [hfin, (pipeEnd_file ..).2.2 hkj, (pipeEnd_file ..).2.2 hki, hfile]
    unfold takeTwo setCount
    simp only
    rw [update_of_ne hkj, update_of_ne hki]
  have hinode : fin.inode = s₃.inode := by rw [hfin]; rfl
  -- one end first
  have hone : Balanced (setTask ⟨{ s.r with s :=
      { inode := (s.r.s.hold e).inode, file := update s.r.s.file i (fin.file i) } }, s.tk⟩ n
      (t.setFd fd (some (.slot i)))) := by
    refine h.claim ht hz hfd hi rfl ?_ fun x => ?_
    · rw [hcount, if_neg (Ne.symm hij), if_pos rfl]
    · rw [hends, if_neg (Ne.symm hij), if_pos rfl]
      exact (held_hold s.r.s e).2 x
  have htwo := hone.claim (q := { s.r with s := fin }) (f := fin.file j) (i := j) (update_self ..) hz hfd' ?_
    ?_ ?_ ?_
  · unfold setTask at htwo ⊢
    simp only [update_idem] at htwo
    exact htwo
  · show (update s.r.s.file i (fin.file i) j).fCount = 0#16
    rw [update_of_ne hij, hj]
  · funext k
    show fin.file k = update (update s.r.s.file i (fin.file i)) j (fin.file j) k
    by_cases hkj : k = j
    · rw [hkj, update_self]
    rw [update_of_ne hkj]
    by_cases hki : k = i
    · rw [hki, update_self]
    · rw [update_of_ne hki]
      exact hother k hki hkj
  · rw [hcount, if_pos rfl]
  · intro x
    show (fin.inode x).iCount = ((s.r.s.hold e).inode x).iCount + _
    rw [hinode, hino x, (held_hold s.r.s e).2 x, hends, if_pos rfl, add_assoc]
    split <;> rfl

/-- **`sys_pipe`**: two open files and two holds, or nothing. -/
theorem Balanced.sysPipe {page : Bool} :
    Balanced (s.sysPipe n t page) := by
  unfold Holders.sysPipe
  cases hi : freeFile s.r.s with
  | none => exact h
  | some i =>
    have hfi := freeFile_some hi
    simp only
    cases hj : freeFile (setCount s.r.s i ((s.r.s.file i).fCount + 1#16)) with
    | none =>
      refine h.frame (fun k => ?_) (fun k => ?_) fun _ => rfl
      · rw [setCount_fCount, setCount_fCount]
        split_ifs with hk
        · rw [hk, hfi]
        · rfl
      · rw [setCount_fInode, setCount_fInode]
    | some j =>
      have hfj := freeFile_some hj
      rw [setCount_fCount, hfi] at hfj
      have hij : j ≠ i := by
        intro e
        rw [if_pos e] at hfj
        cases hfj
      rw [if_neg hij] at hfj
      cases hfd : freeFd t with
      | none => exact h.giveBack hfi hfj rfl fun _ => rfl
      | some fd =>
        simp only
        cases hfd' : freeFd (t.setFd fd (some (.slot i))) with
        | none => exact h.giveBack hfi hfj rfl fun _ => rfl
        | some fd' =>
          obtain ⟨hfile, hino⟩ := getPipeInode_counts (takeTwo s.r.s i j) page
          change Balanced (match getPipeInode (takeTwo s.r.s i j) page with
            | (none, s₃) => { s with r := { s.r with s := uncount s₃ i j } }
            | (some e, s₃) => _)
          generalize getPipeInode (takeTwo s.r.s i j) page = r at hfile hino
          obtain ⟨o, s₃⟩ := r
          cases o with
          | none =>
            refine h.giveBack hfi hfj hfile fun e => (hino e).trans ?_
            rw [if_neg (by simp), BitVec.add_zero]
            rfl
          | some e => exact h.pipeEnds ht hz hfi hfj hij (freeFd_some hfd) (freeFd_some hfd') hfile hino

/-! ### `sys_fork` and `sys_exit` -/

omit h ht hz in
/-- The loop of `sys_exit` closes every descriptor. -/
theorem closeAll (l : List (Fin 64)) (h : Balanced s) (ht : s.tk n = some t) (hz : t.state ≠ .zombie) :
    ∃ t', (l.foldl (fun s fd => s.closeFd n fd) s).tk n = some t' ∧ t'.state = t.state ∧
      (∀ fd, fd ∈ l ∨ t.filp fd = none → t'.filp fd = none) ∧
      Balanced (l.foldl (fun s fd => s.closeFd n fd) s) := by
  induction l generalizing s t with
  | nil => exact ⟨t, ht, rfl, fun fd hfd => hfd.elim (fun h => absurd h not_mem_nil) id, h⟩
  | cons fd l ih =>
    have hstep : ∃ t₁, (s.sysClose n t fd).tk n = some t₁ ∧ t₁.state = t.state ∧
        ∀ fd', fd' = fd ∨ t.filp fd' = none → t₁.filp fd' = none := by
      unfold Holders.sysClose
      cases hx : t.filp fd with
      | none =>
        refine ⟨t, ht, rfl, fun fd' hfd' => ?_⟩
        rcases hfd' with rfl | hfd'
        · exact hx
        · exact hfd'
      | some x =>
        refine ⟨_, update_self .., rfl, fun fd' hfd' => ?_⟩
        show update t.filp fd none fd' = none
        by_cases e : fd' = fd
        · rw [e, update_self]
        · rw [update_of_ne e]
          exact hfd'.resolve_left e
    obtain ⟨t₁, ht₁, hst₁, hnone₁⟩ := hstep
    obtain ⟨t', ht', hst', hnone', hbal⟩ := ih (show Balanced (s.sysClose n t fd) from h.sysClose ht hz) ht₁
      (hst₁ ▸ hz)
    have hround : s.closeFd n fd = s.sysClose n t fd := by simp only [closeFd, ht]
    rw [foldl_cons, hround]
    refine ⟨t', ht', hst'.trans hst₁, fun fd' hfd' => hnone' fd' ?_, hbal⟩
    rcases hfd' with hfd' | hfd'
    · rcases mem_cons.mp hfd' with e | hfd'
      · exact .inr (hnone₁ fd' (.inl e))
      · exact .inl hfd'
    · exact .inr (hnone₁ fd' (.inr hfd'))

/-- A task lets go of its directories and of its executable. -/
theorem Balanced.dropDirs :
    Balanced (s.dropDirs n) := by
  unfold Holders.dropDirs
  simp only [ht]
  have hnone : ∀ e, dirRefs e { t with pwd := none, root := none, exeInode := none } = 0 := by simp [dirRefs]
  refine h.call (fun i => ?_) (fun e => ?_) fun u hu => ?_
  · rw [ht, iput_opt_file, iput_opt_file, iput_opt_file]
    rfl
  · rw [ht, iput_opt_file, iput_opt_file, iput_opt_file, iput_opt_iCount, iput_opt_iCount, iput_opt_iCount]
    show _ + BitVec.ofNat 8 (_ + (_ + _ + _)) = _ + BitVec.ofNat 8 (_ + dirRefs e _)
    rw [hnone e, Nat.add_zero]
    simp only [ofNat_add]
    ring
  · obtain rfl := some.inj hu
    exact ⟨fun hzu => absurd hzu hz, fun e => by rw [hnone e]; exact Nat.zero_le _⟩

/-- **`sys_exit`** leaves no reference of the task. -/
theorem Balanced.sysExit {ret : Word} :
    Balanced (s.sysExit n ret) := by
  obtain ⟨t₁, ht₁, hst, hnone, hbal⟩ := closeAll (finRange 64) h ht hz
  unfold Holders.sysExit
  generalize foldl _ s (finRange 64) = s₁ at ht₁ hbal
  have hdrop := hbal.dropDirs ht₁ (hst ▸ hz)
  have ht₂ : (s₁.dropDirs n).tk n = some { t₁ with pwd := none, root := none, exeInode := none } := by
    unfold Holders.dropDirs
    simp only [ht₁]
    exact update_self ..
  have hset : ∀ t' : Task, t'.filp = t₁.filp → t'.pwd = none ∧ t'.root = none ∧ t'.exeInode = none →
      Balanced ((s₁.dropDirs n).setTask n t') := by
    intro t' hfilp hdirs
    have hall : ∀ fd, t'.filp fd = none := fun fd => by
      rw [hfilp]
      exact hnone fd (.inl (mem_finRange fd))
    refine hdrop.call (fun i => ?_) (fun e => ?_) fun u hu => ?_
    · rw [ht₂]
      refine congrArg (fun k => _ + BitVec.ofNat 16 k) ?_
      show total t₁.filp _ = total t'.filp _
      rw [hfilp]
    · rw [ht₂]
      refine congrArg (fun k => _ + BitVec.ofNat 8 (_ + k)) ?_
      show dirRefs e _ = dirRefs e t'
      simp [dirRefs, hdirs]
    · obtain rfl := some.inj hu
      exact ⟨fun _ => ⟨hall, hdirs⟩, fun e => by simp [dirRefs, hdirs]⟩
  simp only [ht₂]
  split
  · exact hset _ rfl ⟨rfl, rfl, rfl⟩
  · exact hset _ rfl ⟨rfl, rfl, rfl⟩

/-! ### `sys_open` -/

/-- A lookup that holds what it returns, and `sys_open` after it. -/
theorem Balanced.sysOpen {c : OpenCall} :
    Balanced (s.sysOpen n t c) := by
  have hsame : ∀ {s' : Tables}, Held (fun x => (s.r.s.inode x).iCount) s.r.s.file none s' →
      Balanced (setTask ⟨{ s.r with s := s' }, s.tk⟩ n t) := by
    intro s' hs'
    have hb : Balanced ⟨{ s.r with s := s' }, s.tk⟩ := by
      refine h.frame (fun i => by rw [hs'.1]) (fun i => by rw [hs'.1]) fun e => ?_
      exact (hs'.2 e).trans (by simp)
    have htk : update s.tk n (some t) = s.tk := by
      rw [← ht, update_eq_self]
    unfold setTask
    rw [htk]
    exact hb
  have hheld := @openLookup_held c.read t c.path c.creat s.r.s
  unfold Holders.sysOpen Linux001.sysOpen
  cases hfd : freeFd t with
  | none => exact hsame ⟨rfl, fun x => by simp⟩
  | some fd =>
    have hfree := freeFd_some hfd
    simp only
    split
    · -- a device
      cases hi : freeFile s.r.s with
      | none => exact hsame ⟨rfl, fun x => by simp⟩
      | some i => exact h.claim ht hz hfree (freeFile_some hi) rfl rfl fun x => (add_zero _).symm
    generalize openLookup c.read t c.path c.creat s.r.s = r at hheld
    obtain ⟨o, s₁⟩ := r
    cases o with
    | none => exact hsame hheld
    | some e =>
      simp only
      split
      · exact hsame hheld.drop
      cases hi : freeFile s₁ with
      | none => exact hsame hheld.drop
      | some i =>
        have hfi := freeFile_some hi
        rw [hheld.1] at hfi
        simp only
        refine h.claim ht hz hfree hfi (f := { fMode := c.flag.setWidth 16, fCount := 1#16, fInode := some e })
          ?_ rfl fun x => ?_
        · split
          · exact congrArg (update · i _) hheld.1
          · exact congrArg (update · i _) hheld.1
        have hx := hheld.2 x
        refine Eq.trans ?_ hx
        split
        · -- `truncate_inode` does not touch the count
          show (update s₁.inode e _ x).iCount = _
          by_cases hxe : x = e
          · rw [hxe, update_self]
          · rw [update_of_ne hxe]
        · rfl

end

/-! ### Whole runs -/

theorem user_some (h : s.user n = some t) : s.tk n = some t ∧ t.state ≠ .zombie := by
  obtain ⟨ht, hz⟩ := filter_eq_some_iff.mp h
  exact ⟨ht, by simpa using hz⟩

/-- **One step.** -/
theorem Balanced.step {op : HolderOp} (h : Balanced s) : Balanced (s.step op) := by
  have huser : ∀ {n} {f : Task → Holders}, (∀ t, s.tk n = some t → t.state ≠ .zombie → Balanced (f t)) →
      Balanced ((s.user n).elim s f) := by
    intro n f hf
    cases hu : s.user n with
    | none => exact h
    | some t =>
      obtain ⟨ht, hz⟩ := user_some hu
      exact hf t ht hz
  cases op with
  | «open» n c => exact huser fun t ht hz => h.sysOpen ht hz
  | close n fd => exact huser fun t ht hz => h.sysClose ht hz
  | dup n fd => exact huser fun t ht hz => h.dupFrom ht hz
  | dup2 n old new => exact huser fun t ht hz => h.sysDup2 ht hz
  | dupfd n fd arg =>
    refine huser fun t ht hz => ?_
    unfold Holders.dupfd
    split
    · exact h
    · exact h.dupFrom ht hz
  | pipe n page => exact huser fun t ht hz => h.sysPipe ht hz
  | fork n => exact huser fun t ht _ => h.sysFork ht
  | exit n ret => exact huser fun t ht hz => h.sysExit ht hz
  | reap n =>
    unfold Holders.step
    simp only
    split
    · next hany =>
      cases ht : s.tk n with
      | none => simp [ht] at hany
      | some t =>
        have hz : t.state = .zombie := by simpa [ht] using hany
        obtain ⟨hnone, hdirs⟩ := (h.tasks ht).idle hz
        refine h.call (fun i => ?_) (fun e => ?_) fun u hu => by cases hu
        · rw [ht]
          have hzero : fdRefs (.slot i) t = 0 := by
            unfold fdRefs
            rw [total_eq_countP, countP_eq_zero]
            simp [hnone]
          exact congrArg (fun k => _ + BitVec.ofNat 16 k) hzero
        · rw [ht]
          have hzero : dirRefs e t = 0 := by simp [dirRefs, hdirs]
          exact congrArg (fun k => _ + BitVec.ofNat 8 (_ + k)) hzero
    · exact h

/-- The references to an inode fit its counter. -/
theorem Balanced.inodeRefs_le (h : Balanced s) (e : InodeRef) : s.inodeRefs e ≤ 192 := by
  have hfiles : total s.r.s.file (entryRef e) ≤ 64 := by
    refine (total_le (b := 1) fun i => ?_).trans (by simp)
    unfold entryRef
    split
    · exact Nat.le_refl 1
    · exact Nat.zero_le 1
  have htasks : total s.tk (ofTask (dirRefs e)) ≤ 128 := by
    refine (total_le (b := 2) fun n => ?_).trans (by simp)
    cases ht : s.tk n with
    | none => exact Nat.zero_le _
    | some t => exact (h.tasks ht).slim e
  unfold inodeRefs
  omega

/-- The counters have room for the references. -/
theorem Balanced.exact (h : Balanced s) : s.Exact := by
  refine ⟨fun i => ?_, fun e => ?_⟩
  · have hmax := s.fileRefs_le i
    rw [h.files i, toNat_ofNat]
    exact Nat.mod_eq_of_lt (by omega)
  · have hmax := h.inodeRefs_le e
    rw [h.inodes e, toNat_ofNat]
    exact Nat.mod_eq_of_lt (by omega)

/-- A state to start from: the counts are exact, and the tasks are as they should be. -/
structure Sound (s : Holders) : Prop where
  exact : s.Exact
  tasks : ∀ n t, s.tk n = some t → TaskOk t

theorem Sound.balanced (h : Sound s) : Balanced s := by
  refine ⟨fun i => ?_, fun e => ?_, fun {n t} ht => h.tasks n t ht⟩
  · rw [← h.exact.1 i, ofNat_toNat, setWidth_eq]
  · rw [← h.exact.2 e, ofNat_toNat, setWidth_eq]

theorem boot_tasks (h : boot.tk n = some t) : TaskOk t := by
  change (if n = 0 then _ else _) = some t at h
  split at h
  · obtain rfl := some.inj h
    refine ⟨nofun, fun e => ?_⟩
    show (if _ then 1 else 0) + 0 + 0 ≤ 2
    split
    · decide
    · decide
  · split at h
    · obtain rfl := some.inj h
      refine ⟨nofun, fun e => ?_⟩
      show (if _ then 1 else 0) + 0 + 0 ≤ 2
      split
      · decide
      · decide
    · cases h

theorem sound_boot : Sound boot := by
  refine ⟨⟨?_, ?_⟩, fun n t ht => boot_tasks ht⟩
  · decide +kernel
  · decide +kernel

/-- **The counts are exact**, after every sequence of calls from the boot state; and from every other
state in which they are. -/
theorem counts_exact (ops : List HolderOp) :
    (boot.run ops).Exact ∧ ∀ s : Holders, s.Sound → (s.run ops).Exact := by
  have hrun : ∀ s : Holders, s.Sound → (s.run ops).Exact := fun s hs =>
    (Run.inv (fun {s op} => Balanced.step) ops hs.balanced : Balanced (s.run ops)).exact
  exact ⟨hrun boot sound_boot, hrun⟩

/-- A pipeline: a pipe, a child, the descriptors moved, and everything closed again. -/
def pipeline : List HolderOp :=
  [.pipe 0 true, .fork 0, .dup2 1 4 1, .close 1 3, .close 1 4, .close 0 4, .dup 0 3, .exit 1 0#32, .reap 1]

theorem pipeline_exact :
    ((boot.run pipeline).r.s.file 0).fCount = 2#16 ∧ ((boot.run pipeline).r.s.file 1).fCount = 0#16 ∧
      ((boot.run pipeline).r.s.inode 1).iCount = 1#8 ∧ (boot.run pipeline).Exact :=
  ⟨by decide, by decide, by decide, (counts_exact pipeline).2 boot sound_boot⟩

end Holders
end Linux001

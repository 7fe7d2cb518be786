import Linux001.Fs.File

/-!
# Fs — the inode table

`iget()`, `iput()`, `get_empty_inode()` and `sync_inodes()` of `fs/inode.c`, with any number of
tasks in them at once.  A task switches where the code can sleep: in the disk transfers of
`read_inode()` and `write_inode()`, and in `wait_on_inode()`.  What it does in between is one
step; where it sleeps, and what it will do then, is its `IPc`.

Of the buffer cache only the outcome of a transfer is left.  `holds` is what a task has been given
and not yet released, with the inode it asked for; `loaded` is the inode whose body is in a slot.
-/

namespace Linux001

open Function

/-- A disk inode: its device and its number. -/
structure InoKey where
  dev : BitVec 16
  num : Word
  deriving DecidableEq

instance lawfulBEq_held : LawfulBEq (InodeRef × InoKey) := inferInstance

/-- `struct d_inode`. -/
structure DInode where
  iMode : BitVec 16 := 0#16
  iUid : BitVec 16 := 0#16
  iSize : Word := 0#32
  iTime : Word := 0#32
  iGid : Byte := 0#8
  iNlinks : Byte := 0#8
  iZone : Fin 9 → BitVec 16 := fun _ => 0#16

/-- What `write_inode` copies. -/
def MInode.body (m : MInode) : DInode :=
  ⟨m.iMode, m.iUid, m.iSize, m.iMtime, m.iGid, m.iNlinks, m.iZone⟩

/-- What `read_inode` copies. -/
def MInode.setBody (m : MInode) (d : DInode) : MInode :=
  { m with
    iMode := d.iMode, iUid := d.iUid, iSize := d.iSize, iMtime := d.iTime, iGid := d.iGid
    iNlinks := d.iNlinks, iZone := d.iZone }

def MInode.key (m : MInode) : InoKey := ⟨m.iDev, m.iNum⟩

/-- The place on disk with the block of `k` and the offset of `k'`: the block is computed before
`bread()` sleeps, the offset after it. -/
def InoKey.place (k k' : InoKey) : InoKey :=
  ⟨k.dev, (k.num - 1#32) / 32#32 * 32#32 + (k'.num - 1#32) % 32#32 + 1#32⟩

/-- What follows a `write_inode()`. -/
inductive IKont where
  /-- `iget()` claims the slot for `k`. -/
  | claim (k : InoKey)
  /-- `sync_inodes()` goes on. -/
  | sync (dev : BitVec 16)
  deriving DecidableEq

/-- How far a `write_inode()` is: in `bread()`, or in `ll_rw_block()` with the body copied into the
buffer. -/
inductive IStage where
  | fetch (k : InoKey)
  | put (k : InoKey) (d : DInode)

/-- Where a task sleeps. -/
inductive IPc where
  | idle
  /-- In `iget()`'s `wait_on_inode()`. -/
  | wait (v : InodeRef) (k : InoKey)
  /-- In `write_inode()`. -/
  | write (v : InodeRef) (st : IStage) (c : IKont)
  /-- In `iget()`'s `read_inode()`. -/
  | load (v : InodeRef) (k : InoKey)

/-- The table, the inodes on disk, and `nt` tasks. -/
structure InodeTab (nt : ℕ) where
  slot : InodeRef → MInode
  lock : InodeRef → Bool
  loaded : InodeRef → Option InoKey
  disk : InoKey → DInode
  /-- The device has a superblock. -/
  super : BitVec 16 → Bool
  pc : Fin nt → IPc
  holds : Fin nt → List (InodeRef × InoKey)

namespace InodeTab

variable {nt : ℕ}

def init (nt : ℕ) (super : BitVec 16 → Bool) (disk : InoKey → DInode) : InodeTab nt where
  slot _ := {}
  lock _ := false
  loaded _ := none
  disk := disk
  super := super
  pc _ := .idle
  holds _ := []

def setPc (s : InodeTab nt) (t : Fin nt) (p : IPc) : InodeTab nt :=
  { s with pc := update s.pc t p }

def setSlot (s : InodeTab nt) (v : InodeRef) (m : MInode) : InodeTab nt :=
  { s with slot := update s.slot v m }

/-- The task has been given the slot `v`, for `k`. -/
def give (s : InodeTab nt) (t : Fin nt) (v : InodeRef) (k : InoKey) : InodeTab nt :=
  { s with pc := update s.pc t .idle, holds := update s.holds t ((v, k) :: s.holds t) }

/-- The first slot with `i_count` 0. -/
def freeSlot (s : InodeTab nt) : Option InodeRef :=
  (List.finRange 64).find? fun v => (s.slot v).iCount = 0#8

/-- The slot is claimed and published, and `read_inode` is called. -/
def claim (s : InodeTab nt) (t : Fin nt) (v : InodeRef) (k : InoKey) : InodeTab nt :=
  let m := { s.slot v with iCount := 1#8, iDev := k.dev, iNum := k.num, iDirt := false, iPipe := false }
  if k.dev = 0#16 then { (s.setSlot v m).give t v k with lock := update s.lock v false }
  else if s.super k.dev then
    { (s.setSlot v m).setPc t (.load v k) with lock := update s.lock v true }
  else
    { (s.setSlot v { m with iDev := 0#16, iCount := 0#8 }).setPc t .idle with
      lock := update s.lock v false }

/-- `read_inode` has its block, or not; the rest of `iget`. -/
def endLoad (s : InodeTab nt) (t : Fin nt) (v : InodeRef) (k : InoKey) (ok : Bool) : InodeTab nt :=
  let from_ := k.place (s.slot v).key
  let s₁ : InodeTab nt :=
    if ok then
      { s.setSlot v ((s.slot v).setBody (s.disk from_)) with
        loaded := update s.loaded v (some from_) }
    else s.setSlot v { s.slot v with iDev := 0#16, iCount := 0#8 }
  let s₂ := { s₁ with lock := update s₁.lock v false }
  if (s₂.slot v).iDev ≠ k.dev then s₂.setPc t .idle else s₂.give t v k

/-- `write_inode(v)` is called: whether it has anything to do. -/
def writes (s : InodeTab nt) (v : InodeRef) : Bool :=
  (s.slot v).iDev ≠ 0#16 && (s.slot v).iDirt && s.super (s.slot v).iDev

/-- `iget`'s second loop. -/
def igetMiss (s : InodeTab nt) (t : Fin nt) (k : InoKey) : InodeTab nt :=
  match s.freeSlot with
  | none => s.setPc t .idle
  | some v =>
    if s.writes v then s.setPc t (.write v (.fetch (s.slot v).key) (.claim k))
    else s.claim t v k

/-- `iget`'s first loop, over the slots `l`. -/
def igetScan (s : InodeTab nt) (t : Fin nt) (k : InoKey) (l : List InodeRef) : InodeTab nt :=
  match l.find? fun v => (s.slot v).key = k with
  | none => s.igetMiss t k
  | some v =>
    if s.lock v then s.setPc t (.wait v k)
    else (s.setSlot v { s.slot v with iCount := (s.slot v).iCount + 1#8 }).give t v k

/-- **`iget`**, up to where it returns or sleeps. -/
def iget (s : InodeTab nt) (t : Fin nt) (k : InoKey) : InodeTab nt := s.igetScan t k (List.finRange 64)

/-- The slots after `v`. -/
def after (v : InodeRef) : List InodeRef := (List.finRange 64).filter fun w => v < w

/-- `sync_inodes`, over the slots `l`, up to the next transfer. -/
def syncScan (s : InodeTab nt) (t : Fin nt) (dev : BitVec 16) (l : List InodeRef) : InodeTab nt :=
  match l.find? fun v => (s.slot v).iDev = dev && s.writes v with
  | none => s.setPc t .idle
  | some v => s.setPc t (.write v (.fetch (s.slot v).key) (.sync dev))

/-- `write_inode(v)` returns. -/
def afterWrite (s : InodeTab nt) (t : Fin nt) (v : InodeRef) : IKont → InodeTab nt
  | .claim k => s.claim t v k
  | .sync dev => s.syncScan t dev (after v)

/-- **`get_empty_inode`.** -/
def getEmptyInode (s : InodeTab nt) (t : Fin nt) : InodeTab nt :=
  match s.freeSlot with
  | none => s
  | some v =>
    { (s.setSlot v
        { s.slot v with
          iCount := 1#8, iDev := 0#16, iNum := 0#32, iDirt := false, iPipe := false, iNlinks := 0#8
          iSize := 0#32 }).give t v ⟨0#16, 0#32⟩ with
      lock := update s.lock v false }

/-- **`iput`.**  An inode without links also loses its bit in the inode map, which is not kept
here. -/
def iput (s : InodeTab nt) (v : InodeRef) : InodeTab nt :=
  let m := { s.slot v with iCount := (s.slot v).iCount - 1#8 }
  if m.iPipe ∧ m.iCount = 0#8 then s.setSlot v { m with iPipe := false, iSize := 0#32 }
  else s.setSlot v m

/-- A sleeping task goes on; `ok` is what the drive answers.  `none`: it has to sleep on. -/
def resume (s : InodeTab nt) (t : Fin nt) (ok : Bool) : Option (InodeTab nt) :=
  match s.pc t with
  | .idle => none
  | .wait v k =>
    if s.lock v then none
    else if (s.slot v).key ≠ k then some (s.igetScan t k (after v))
    else some ((s.setSlot v { s.slot v with iCount := (s.slot v).iCount + 1#8 }).give t v k)
  | .write v (.fetch k) c =>
    if ok then some (s.setPc t (.write v (.put (k.place (s.slot v).key) (s.slot v).body) c))
    else some (s.afterWrite t v c)
  | .write v (.put k d) c =>
    let s₁ := if ok then { s with disk := update s.disk k d } else s
    some ((s₁.setSlot v { s₁.slot v with iDirt := false }).afterWrite t v c)
  | .load v k => some (s.endLoad t v k ok)

end InodeTab

/-- What a task may do. -/
inductive InoOp where
  | iget (k : InoKey)
  | iput (v : InodeRef) (k : InoKey)
  | empty
  | sync (dev : BitVec 16)
  /-- The holder of an inode changes its body and sets `i_dirt`. -/
  | modify (v : InodeRef) (k : InoKey) (d : DInode)
  | resume (ok : Bool)

namespace InodeTab

variable {nt : ℕ}

/-- **One step of the task `t`.** -/
def step (s : InodeTab nt) (t : Fin nt) : InoOp → InodeTab nt
  | .resume ok => (s.resume t ok).getD s
  | op =>
    match s.pc t with
    | .idle =>
      match op with
      | .iget k => s.iget t k
      | .iput v k =>
        if (v, k) ∈ s.holds t then
          { s.iput v with holds := update s.holds t ((s.holds t).erase (v, k)) }
        else s
      | .empty => s.getEmptyInode t
      | .sync dev => s.syncScan t dev (List.finRange 64)
      | .modify v k d =>
        if (v, k) ∈ s.holds t then s.setSlot v { (s.slot v).setBody d with iDirt := true } else s
      | .resume _ => s
    | _ => s

/-- **A run**: steps of the tasks in any order. -/
def run (s : InodeTab nt) (ops : List (Fin nt × InoOp)) : InodeTab nt :=
  ops.foldl (fun s x => s.step x.1 x.2) s

end InodeTab

end Linux001

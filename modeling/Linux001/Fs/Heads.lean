import Linux001.Fs.Buffer
import Linux001.Fs.InodeTable
import Linux001.Lib.CallResult
import Linux001.Lib.Linked

/-!
# Fs — the heads of the buffer cache

`fs/buffer.c` and `sync_inodes()` of `fs/inode.c` with one call at a time, down to the pointers: the hash
chains through `b_next` and `b_prev`, and the free list through `b_next_free` and `b_prev_free`.  Each
pointer field is a function of the head it is in, so that a write through a pointer is an update of that
function.

A call returns; or it sleeps in `schedule()`, where with one call at a time nobody wakes it; or it is at
fault, which is a null pointer followed or a loop without an end.  The loops have as much fuel as there
are heads.
-/

namespace Linux001

open Function

/-- The bytes of a block. -/
abbrev BlockData := Fin 1024 → Byte

/-- `struct buffer_head`, without its pointers.  `b_lock` is 0 between calls. -/
structure Head where
  data : BlockData := fun _ => 0#8
  blocknr : Word := 0#32
  dev : BitVec 16 := 0#16
  uptodate : Bool := false
  dirt : Bool := false
  count : Byte := 0#8

/-- What the cache stands on: what the drive answers to each transfer, where the image begins on the
disk, and where the inodes of a device begin. -/
structure Platform where
  drive : ℕ → Bool
  rootLba : Word
  /-- `2 + s_imap_blocks + s_zmap_blocks`, if the device has a superblock. -/
  inodeStart : BitVec 16 → Option Word

/-- The heads, the disk and the inode table.  `tries` counts the transfers; `assigned` are the heads that
`getblk()` has given to a block; `holds` is what has been handed out and not released. -/
structure Heads where
  buf : BufRef → Head
  bPrev : BufRef → Option BufRef
  bNext : BufRef → Option BufRef
  bPrevFree : BufRef → Option BufRef
  bNextFree : BufRef → Option BufRef
  freeList : BufRef
  hashTable : Fin 256 → Option BufRef
  disk : ℕ → BlockData
  inode : InodeRef → MInode
  tries : ℕ
  assigned : BufRef → Bool
  holds : List BufRef

/-- `(dev ^ block) & (NR_BUFFERS - 1)`. -/
def bucket (dev block : Word) : Fin 256 := Fin.ofNat 256 ((dev ^^^ block) &&& 255#32).toNat

/-- Where on the disk a block is: the sector that `hd_geometry()` names, with 16 bits for the cylinder. -/
def Platform.place (m : Platform) (block : Word) : ℕ :=
  let lba := (block * 2#32 + m.rootLba).toNat
  lba / 1008 % 65536 * 1008 + lba % 1008

/-- The chain that the head's block belongs to. -/
def Head.bucket (x : Head) : Fin 256 := Linux001.bucket (x.dev.setWidth 32) x.blocknr

/-- `bh->b_dev == dev && bh->b_blocknr == block`; `b_dev` has 16 bits. -/
def Head.isBlock (x : Head) (dev block : Word) : Bool := x.dev.setWidth 32 = dev && x.blocknr = block

namespace Heads

/-- **`buffer_init`.** -/
def init (disk : ℕ → BlockData) (inode : InodeRef → MInode) : Heads where
  buf _ := {}
  bPrev _ := none
  bNext _ := none
  bPrevFree b := some (b - 1)
  bNextFree b := some (b + 1)
  freeList := 0
  hashTable _ := none
  disk := disk
  inode := inode
  tries := 0
  assigned _ := false
  holds := []

def setBuf (s : Heads) (b : BufRef) (x : Head) : Heads := { s with buf := update s.buf b x }

/-- `bh->b_count = n`. -/
def setCount (s : Heads) (b : BufRef) (n : Byte) : Heads := s.setBuf b { s.buf b with count := n }

/-- **`ll_rw_block`.** -/
def llRwBlock (m : Platform) (s : Heads) (write : Bool) (b : BufRef) : Heads :=
  let s₁ := { s with tries := s.tries + 1 }
  if m.drive s.tries = false then s₁
  else if write then
    { s₁.setBuf b { s.buf b with dirt := false, uptodate := true } with
      disk := update s.disk (m.place (s.buf b).blocknr) (s.buf b).data }
  else s₁.setBuf b { s.buf b with data := s.disk (m.place (s.buf b).blocknr), uptodate := true }

/-- `getblk`'s search of the hash chain. -/
def find (s : Heads) (dev block : Word) : Option (Option BufRef) :=
  Linked.search s.bNext (fun b => (s.buf b).isBlock dev block) 256 (s.hashTable (bucket dev block))

/-- `getblk`'s search of the free list. -/
def victim (s : Heads) : Option (Option BufRef) :=
  Linked.round s.bNextFree (fun b => (s.buf b).count = 0#8) s.freeList 256 s.freeList

/-- A dirty head is written back before it is reused. -/
def writeBack (m : Platform) (s : Heads) (b : BufRef) : Heads :=
  if (s.buf b).dirt then ((s.setCount b 1#8).llRwBlock m true b).setCount b 0#8 else s

/-- The first pointer of `getblk`'s unlinking: `b_prev->b_next`, or the head of the chain. -/
def unlinkNext (s : Heads) (b : BufRef) : Heads :=
  match s.bPrev b with
  | some p => { s with bNext := update s.bNext p (s.bNext b) }
  | none =>
    if s.hashTable (s.buf b).bucket = some b then
      { s with hashTable := update s.hashTable (s.buf b).bucket (s.bNext b) }
    else s

/-- The second pointer: `b_next->b_prev`. -/
def unlinkPrev (s : Heads) (b : BufRef) : Heads :=
  match s.bNext b with
  | some n => { s with bPrev := update s.bPrev n (s.bPrev b) }
  | none => s

/-- The head is given to a block. -/
def assign (s : Heads) (b : BufRef) (dev block : Word) : Heads :=
  { s.setBuf b { s.buf b with
      count := 1#8, dev := dev.setWidth 16, blocknr := block, uptodate := false, dirt := false } with
    assigned := update s.assigned b true }

/-- `if (hash_table[i]) hash_table[i]->b_prev = bh`. -/
def pushPrev (s : Heads) (i : Fin 256) (b : BufRef) : Heads :=
  match s.hashTable i with
  | some x => { s with bPrev := update s.bPrev x (some b) }
  | none => s

/-- The head is linked at the front of a chain. -/
def linkHash (s : Heads) (b : BufRef) (i : Fin 256) : Heads :=
  let s₁ := { s with bPrev := update s.bPrev b none, bNext := update s.bNext b (s.hashTable i) }
  { s₁.pushPrev i b with hashTable := update s.hashTable i (some b) }

/-- **`getblk`.** -/
def getblk (m : Platform) (s : Heads) (dev block : Word) : CallResult (BufRef × Heads) :=
  match s.find dev block with
  | none => .fault
  | some (some b) => .done (b, s.setCount b ((s.buf b).count + 1#8))
  | some none =>
    match s.victim with
    | none => .fault
    | some none => .asleep
    | some (some b) =>
      .done (b, ((((s.writeBack m b).unlinkNext b).unlinkPrev b).assign b dev block).linkHash b (bucket dev block))

/-- A head leaves its place in the free list. -/
def unlinkFree (s : Heads) (b : BufRef) : Heads :=
  match s.bPrevFree b, s.bNextFree b with
  | some p, some n =>
    { s with
      bNextFree := update s.bNextFree p (some n)
      bPrevFree := update s.bPrevFree n (some p) }
  | _, _ => s

/-- **`brelse`.** -/
def brelse (s : Heads) (b : BufRef) : CallResult Heads :=
  let s₁ := s.setCount b ((s.buf b).count - 1#8)
  if (s.buf b).count - 1#8 ≠ 0#8 then .done s₁
  else if b = s.freeList then .done s₁
  else
    let s₂ := s₁.unlinkFree b
    match s₂.bNextFree s.freeList with
    | none => .fault
    | some x =>
      .done { s₂ with
        bPrevFree := update (update s₂.bPrevFree b (some s.freeList)) x (some b)
        bNextFree := update (update s₂.bNextFree b (some x)) s.freeList (some b)
        freeList := b }

/-- **`bread`.** -/
def bread (m : Platform) (s : Heads) (dev block : Word) : CallResult (Option BufRef × Heads) :=
  (s.getblk m dev block).bind fun r =>
    if (r.2.buf r.1).uptodate then .done (some r.1, r.2)
    else
      let s₁ := r.2.llRwBlock m false r.1
      if (s₁.buf r.1).uptodate then .done (some r.1, s₁)
      else (s₁.brelse r.1).bind fun s₂ => .done (none, s₂)

/-- A round of `sync_dev`'s loop. -/
def syncHead (m : Platform) (s : Heads) (dev : Word) (b : BufRef) : Heads :=
  if (s.buf b).dev.setWidth 32 = dev ∧ (s.buf b).dirt then
    let s₁ := (s.setCount b ((s.buf b).count + 1#8)).llRwBlock m true b
    s₁.setCount b ((s₁.buf b).count - 1#8)
  else s

/-- The loop of `sync_dev`, with `n` rounds to go. -/
def syncHeads (m : Platform) (dev : Word) : ℕ → BufRef → Heads → CallResult Heads
  | 0, _, s => .done s
  | n + 1, b, s =>
    let s₁ := s.syncHead m dev b
    if n = 0 then .done s₁
    else
      match s₁.bNextFree b with
      | none => .fault
      | some b' => syncHeads m dev n b' s₁

/-- The bytes of a `struct d_inode`. -/
def dinodeBytes (d : DInode) (j : Fin 32) : Byte :=
  if j.val < 2 then d.iMode.extractLsb' (8 * j.val) 8
  else if j.val < 4 then d.iUid.extractLsb' (8 * (j.val - 2)) 8
  else if j.val < 8 then d.iSize.extractLsb' (8 * (j.val - 4)) 8
  else if j.val < 12 then d.iTime.extractLsb' (8 * (j.val - 8)) 8
  else if j.val = 12 then d.iGid
  else if j.val = 13 then d.iNlinks
  else (d.iZone (Fin.ofNat 9 ((j.val - 14) / 2))).extractLsb' (8 * (j.val % 2)) 8

/-- The `off`th inode of a block is written. -/
def putInode (data : BlockData) (off : ℕ) (d : DInode) : BlockData := fun j =>
  if j.val / 32 = off then dinodeBytes d (Fin.ofNat 32 j.val) else data j

/-- The block of the inode table that an inode is in. -/
def inodeBlock (start num : Word) : Word := start + (num - 1#32) / 32#32

/-- The inode's place in its block. -/
def inodeOff (num : Word) : ℕ := ((num - 1#32) % 32#32).toNat

/-- **`write_inode`.** -/
def writeInode (m : Platform) (s : Heads) (v : InodeRef) : CallResult Heads :=
  if (s.inode v).iDev = 0#16 ∨ (s.inode v).iDirt = false then .done s
  else
    match m.inodeStart (s.inode v).iDev with
    | none => .done s
    | some start =>
      (s.bread m ((s.inode v).iDev.setWidth 32) (inodeBlock start (s.inode v).iNum)).bind fun r =>
        match r.1 with
        | none => .done r.2
        | some b =>
          let x := r.2.buf b
          let s₁ := r.2.setBuf b
            { x with data := putInode x.data (inodeOff (s.inode v).iNum) (s.inode v).body, dirt := true }
          ((s₁.llRwBlock m true b).brelse b).bind fun s₂ =>
            .done { s₂ with inode := update s₂.inode v { s₂.inode v with iDirt := false } }

/-- **`sync_inodes`**, over the slots `l`. -/
def syncInodes (m : Platform) (dev : Word) : List InodeRef → Heads → CallResult Heads
  | [], s => .done s
  | v :: l, s =>
    (if (s.inode v).iDev.setWidth 32 = dev ∧ (s.inode v).iDirt then s.writeInode m v else .done s).bind
      (syncInodes m dev l)

/-- **`sync_dev`.** -/
def syncDev (m : Platform) (s : Heads) (dev : Word) : CallResult Heads :=
  (syncHeads m dev 256 s.freeList s).bind (syncInodes m dev (List.finRange 64))

end Heads

/-- A call, or what a holder does in between. -/
inductive HeadOp where
  | getblk (dev block : Word)
  | bread (dev block : Word)
  | brelse (b : BufRef)
  /-- The holder of a buffer changes it and sets `b_dirt`. -/
  | modify (b : BufRef) (data : BlockData)
  /-- An inode is loaded, changed or released. -/
  | inode (v : InodeRef) (x : MInode)
  | sync (dev : Word)

namespace Heads

local instance lawfulBEq_bufRef : LawfulBEq BufRef := inferInstance

/-- **One call.**  Only what is held is released or changed. -/
def step (m : Platform) (s : Heads) : HeadOp → CallResult Heads
  | .getblk dev block => (s.getblk m dev block).bind fun r => .done { r.2 with holds := r.1 :: r.2.holds }
  | .bread dev block =>
    (s.bread m dev block).bind fun r => .done { r.2 with holds := r.1.toList ++ r.2.holds }
  | .brelse b =>
    if b ∈ s.holds then (s.brelse b).bind fun s₁ => .done { s₁ with holds := s₁.holds.erase b } else .done s
  | .modify b data => .done (if b ∈ s.holds then s.setBuf b { s.buf b with data := data, dirt := true } else s)
  | .inode v x => .done { s with inode := update s.inode v x }
  | .sync dev => s.syncDev m dev

/-- **Calls one after the other.** -/
def run (m : Platform) (s : Heads) (ops : List HeadOp) : CallResult Heads := CallResult.run (step m) s ops

end Heads

end Linux001

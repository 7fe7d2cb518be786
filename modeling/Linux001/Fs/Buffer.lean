import Linux001.Fs.File

/-!
# Fs — the buffer cache

`fs/buffer.c`, with any number of tasks in it at once.  A task switches where the code can sleep:
in a disk transfer inside `ll_rw_block()`, in `sleep_on()` and in `schedule()`.  What it does in
between is one step; where it sleeps, and what it will do then, is its `Pc`.

`hash_table[]` is kept as its chains, and `free_list` as the circular list from its head on.  A
transfer moves a block's two sectors one at a time, under the disk driver's lock.  `holds` is
what a task has been given by `getblk()` or `bread()` and not yet released.
-/

namespace Linux001

open Function

/-- A `struct buffer_head *`. -/
abbrev BufRef := Fin 256

instance neZero_buffers : NeZero 256 := ⟨by decide⟩

/-- The bytes of a sector. -/
abbrev HdSector := Fin 512 → Byte

/-- A block: its device and its number. -/
structure Key where
  dev : BitVec 16
  block : Word
  deriving DecidableEq

/-- `struct buffer_head`; `b_data` is two sectors. -/
structure Buf where
  key : Key := ⟨0#16, 0#32⟩
  uptodate : Bool := false
  dirt : Bool := false
  count : Byte := 0#8
  lock : Bool := false
  data : Fin 2 → HdSector := fun _ _ => 0#8

/-- Who has called `getblk()`. -/
inductive BlkCall where
  | getblk (key : Key)
  | bread (key : Key)
  deriving DecidableEq

def BlkCall.key : BlkCall → Key
  | .getblk k | .bread k => k

/-- What follows an `ll_rw_block()`. -/
inductive Kont where
  /-- `getblk()` has written its victim back. -/
  | reuse (c : BlkCall)
  /-- `bread()` has read its block. -/
  | loaded
  /-- The holder's own call. -/
  | done
  /-- `sync_dev()` has written the `i`th head of its walk. -/
  | sync (dev : BitVec 16) (i : ℕ)
  deriving DecidableEq

/-- How far a transfer is: before `hd_lock()`, at a sector, or waiting for the last one to reach
the platter. -/
inductive Stage where
  | lock
  | sector (j : Fin 2)
  | complete
  deriving DecidableEq

/-- Where a task sleeps. -/
inductive Pc where
  | idle
  /-- In `getblk()`'s `schedule()`. -/
  | retry (c : BlkCall)
  /-- In `bread()`, on `b_wait`. -/
  | waitBuf (b : BufRef)
  /-- In a transfer of `b` that began at the sector `lba`. -/
  | io (write : Bool) (b : BufRef) (lba : ℕ) (st : Stage) (k : Kont)
  deriving DecidableEq

/-- The cache, the disk, and `nt` tasks. -/
structure Cache (nt : ℕ) where
  buf : BufRef → Buf
  free : List BufRef
  hash : ℕ → List BufRef
  disk : ℕ → HdSector
  hd : Option (Fin nt)
  pc : Fin nt → Pc
  holds : Fin nt → List BufRef

/-- `(dev ^ block) & (NR_BUFFERS - 1)`. -/
def Key.hash (k : Key) : ℕ := (((k.dev.setWidth 32) ^^^ k.block) &&& 255#32).toNat

namespace Cache

variable {nt : ℕ}

/-- What `buffer_init()` leaves. -/
def init (nt : ℕ) (disk : ℕ → HdSector) : Cache nt where
  buf _ := {}
  free := List.finRange 256
  hash _ := []
  disk := disk
  hd := none
  pc _ := .idle
  holds _ := []

def setBuf (s : Cache nt) (b : BufRef) (x : Buf) : Cache nt := { s with buf := update s.buf b x }

def setPc (s : Cache nt) (t : Fin nt) (p : Pc) : Cache nt := { s with pc := update s.pc t p }

/-- The task has been given `b`. -/
def give (s : Cache nt) (t : Fin nt) (b : BufRef) : Cache nt :=
  { s with pc := update s.pc t .idle, holds := update s.holds t (b :: s.holds t) }

/-- The buffer of a block, if its chain has one. -/
def lookup (s : Cache nt) (k : Key) : Option BufRef :=
  (s.hash k.hash).find? fun b => (s.buf b).key = k

/-- The first head with `b_count` 0, from `free_list` on. -/
def victim (s : Cache nt) : Option BufRef := s.free.find? fun b => (s.buf b).count = 0#8

/-- The chains without `b`, which is unlinked from that of its block. -/
def unlink (s : Cache nt) (b : BufRef) : ℕ → List BufRef :=
  update s.hash (s.buf b).key.hash ((s.hash (s.buf b).key.hash).erase b)

/-- The head is unlinked from its old chain, given to the block `k` and linked at the front of
that block's chain. -/
def rehash (s : Cache nt) (b : BufRef) (k : Key) : Cache nt :=
  { s with
    buf := update s.buf b
      { s.buf b with count := 1#8, key := k, uptodate := false, dirt := false }
    hash := update (s.unlink b) k.hash (b :: s.unlink b k.hash) }

/-- The first half of `ll_rw_block`: the buffer is locked, and the transfer begins. -/
def startRw (s : Cache nt) (t : Fin nt) (write : Bool) (b : BufRef) (k : Kont) : Cache nt :=
  (s.setBuf b { s.buf b with lock := true }).setPc t
    (.io write b ((s.buf b).key.block.toNat * 2) .lock k)

/-- `getblk` returns `b` to its caller; what `bread` then does before it sleeps. -/
def gotBlk (s : Cache nt) (t : Fin nt) (b : BufRef) : BlkCall → Cache nt
  | .getblk _ => s.give t b
  | .bread _ =>
    if (s.buf b).uptodate then s.give t b
    else if (s.buf b).lock then s.setPc t (.waitBuf b)
    else s.startRw t false b .loaded

/-- **`getblk`**, up to where it returns or sleeps. -/
def getblk (s : Cache nt) (t : Fin nt) (c : BlkCall) : Cache nt :=
  match s.lookup c.key with
  | some b => (s.setBuf b { s.buf b with count := (s.buf b).count + 1#8 }).gotBlk t b c
  | none =>
    match s.victim with
    | none => s.setPc t (.retry c)
    | some b =>
      if (s.buf b).dirt then
        (s.setBuf b { s.buf b with count := 1#8 }).startRw t true b (.reuse c)
      else (s.rehash b c.key).gotBlk t b c

/-- The free list after `b` has been moved to its head: what followed the old head comes next, and
the old head last. -/
def requeue (b : BufRef) : List BufRef → List BufRef
  | [] => []
  | h :: l => if h = b then h :: l else b :: l.erase b ++ [h]

/-- **`brelse`.** -/
def brelse (s : Cache nt) (b : BufRef) : Cache nt :=
  { s.setBuf b { s.buf b with count := (s.buf b).count - 1#8 } with
    free := if (s.buf b).count - 1#8 = 0#8 then requeue b s.free else s.free }

/-- `b->b_next_free`. -/
def nextFree (s : Cache nt) (b : BufRef) : BufRef :=
  match s.free.dropWhile (· ≠ b) with
  | _ :: c :: _ => c
  | _ => s.free.headD b

/-- The next head that `sync_dev` writes, from its `i`th head `b` on, and its place in the walk; `n`
heads are left. -/
def syncPick (s : Cache nt) (dev : BitVec 16) : ℕ → ℕ → BufRef → Option (ℕ × BufRef)
  | 0, _, _ => none
  | n + 1, i, b =>
    if (s.buf b).key.dev = dev ∧ (s.buf b).dirt then some (i, b)
    else syncPick s dev n (i + 1) (s.nextFree b)

/-- The loop of `sync_dev`, up to the next transfer. -/
def syncLoop (s : Cache nt) (t : Fin nt) (dev : BitVec 16) (n i : ℕ) (b : BufRef) : Cache nt :=
  match s.syncPick dev n i b with
  | none => s.setPc t .idle
  | some (j, b) =>
    (s.setBuf b { s.buf b with count := (s.buf b).count + 1#8 }).startRw t true b (.sync dev j)

/-- **`sync_dev`**, up to its first transfer. -/
def syncDev (s : Cache nt) (t : Fin nt) (dev : BitVec 16) : Cache nt :=
  s.syncLoop t dev nrBuffers 0 (s.free.headD 0)

/-- The second half of `ll_rw_block`. -/
def endRw (s : Cache nt) (write : Bool) (b : BufRef) (ok : Bool) : Cache nt :=
  let x := s.buf b
  s.setBuf b
    { x with
      uptodate := x.uptodate || ok
      dirt := if write && ok then false else x.dirt
      lock := false }

/-- What the task does after its transfer. -/
def afterRw (s : Cache nt) (t : Fin nt) (b : BufRef) : Kont → Cache nt
  | .reuse c =>
    ((s.setBuf b { s.buf b with count := 0#8 }).rehash b c.key).gotBlk t b c
  | .loaded => if (s.buf b).uptodate then s.give t b else (s.brelse b).setPc t .idle
  | .done => s.setPc t .idle
  | .sync dev i =>
    let s₁ := s.setBuf b { s.buf b with count := (s.buf b).count - 1#8 }
    s₁.syncLoop t dev (nrBuffers - (i + 1)) (i + 1) (s₁.nextFree b)

/-- The transfer is over: `hd_unlock()`, and the rest of `ll_rw_block`. -/
def finish (s : Cache nt) (t : Fin nt) (write : Bool) (b : BufRef) (k : Kont) (ok : Bool) : Cache nt :=
  ({ s with hd := none }.endRw write b ok).afterRw t b k

/-- One sector goes out or comes in. -/
def moveSector (s : Cache nt) (write : Bool) (b : BufRef) (lba : ℕ) (j : Fin 2) : Cache nt :=
  if write then { s with disk := update s.disk (lba + j.val) ((s.buf b).data j) }
  else s.setBuf b { s.buf b with data := update (s.buf b).data j (s.disk (lba + j.val)) }

/-- A sleeping task goes on; `ok` is what the drive answers.  `none`: it has to sleep on. -/
def resume (s : Cache nt) (t : Fin nt) (ok : Bool) : Option (Cache nt) :=
  match s.pc t with
  | .idle => none
  | .retry c => some (s.getblk t c)
  | .waitBuf b =>
    if (s.buf b).lock then none
    else if (s.buf b).uptodate then some (s.give t b)
    else some (s.startRw t false b .loaded)
  | .io w b lba .lock k =>
    if s.hd.isSome then none
    else if ok then some ({ s with hd := some t }.setPc t (.io w b lba (.sector 0) k))
    else some (s.finish t w b k false)
  | .io w b lba (.sector j) k =>
    if ok then
      let s₁ := s.moveSector w b lba j
      if j = 0 then some (s₁.setPc t (.io w b lba (.sector 1) k))
      else if w then some (s₁.setPc t (.io w b lba .complete k))
      else some (s₁.finish t w b k true)
    else some (s.finish t w b k false)
  | .io w b _ .complete k => some (s.finish t w b k ok)

end Cache

/-- What a task may do. -/
inductive BufOp where
  | getblk (key : Key)
  | bread (key : Key)
  | brelse (b : BufRef)
  | llRw (write : Bool) (b : BufRef)
  | sync (dev : BitVec 16)
  /-- The holder of a buffer changes a sector of it and sets `b_dirt`. -/
  | modify (b : BufRef) (j : Fin 2) (x : HdSector)
  | resume (ok : Bool)

namespace Cache

variable {nt : ℕ}

/-- **One step of the task `t`**; a task inside the cache cannot start another call, and only a
holder uses a buffer. -/
def step (s : Cache nt) (t : Fin nt) : BufOp → Cache nt
  | .resume ok => (s.resume t ok).getD s
  | op =>
    if s.pc t = .idle then
      match op with
      | .getblk k => s.getblk t (.getblk k)
      | .bread k => s.getblk t (.bread k)
      | .brelse b =>
        if b ∈ s.holds t then
          { s.brelse b with holds := update s.holds t ((s.holds t).erase b) }
        else s
      | .llRw w b => if b ∈ s.holds t then s.startRw t w b .done else s
      | .sync dev => s.syncDev t dev
      | .modify b j x =>
        if b ∈ s.holds t then
          s.setBuf b { s.buf b with data := update (s.buf b).data j x, dirt := true }
        else s
      | .resume _ => s
    else s

/-- **A run**: steps of the tasks in any order. -/
def run (s : Cache nt) (ops : List (Fin nt × BufOp)) : Cache nt :=
  ops.foldl (fun s x => s.step x.1 x.2) s

end Cache

end Linux001

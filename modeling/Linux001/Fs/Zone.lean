import Linux001.Fs.File
import Linux001.Lib.Update

/-!
# Fs — zones

`new_block()` and `free_block()` of `fs/bitmap.c`, and their users: the zone mapping of
`file_write()`, `ensure_dir_block()`, `truncate_inode()`, `free_dir_zones()` and `sys_mkdir()`.  One
system call at a time and without disk errors, so the cache is not seen and an inode is its disk
inode; names and directory entries are bytes of blocks.

Neither user of `new_block()` clears an indirect block it has allocated: what the zone's previous
owner has left there counts as zone numbers.
-/

namespace Linux001

open Function BitVec

/-- A file system: its superblock, its maps, the inodes' zones and the blocks. -/
structure Vol where
  firstdatazone : ℕ
  nzones : ℕ
  /-- `s_zmap_blocks * BLOCK_SIZE * 8`. -/
  bits : ℕ
  /-- Bit `j` is the zone `firstdatazone + j`. -/
  zmap : ℕ → Bool
  imap : ℕ → Bool
  zone : ℕ → Fin 8 → BitVec 16
  block : ℕ → Block

/-- `((unsigned short *)b_data)[k] = w`. -/
def Block.setShort (b : Block) (k : ℕ) (w : BitVec 16) : Block := fun n =>
  if n = 2 * k then w.extractLsb' 0 8 else if n = 2 * k + 1 then w.extractLsb' 8 8 else b n

/-- `b_data[off + n] = bs[n]` for every `n`. -/
def Block.setBytes (b : Block) (off : ℕ) (bs : List Byte) : Block := fun n =>
  if off ≤ n ∧ n < off + bs.length then bs.getD (n - off) 0#8 else b n

theorem Block.short_setShort (b : Block) (k k' : ℕ) (w : BitVec 16) :
    (b.setShort k w).short k' = if k' = k then w else b.short k' := by
  unfold Block.short Block.setShort
  by_cases e : k' = k
  · subst e
    rw [if_pos rfl, if_neg (by omega), if_pos rfl, if_pos rfl]
    apply eq_of_toNat_eq
    have := w.isLt
    simp only [toNat_append, extractLsb'_toNat, Nat.shiftRight_eq_div_pow]
    rw [← Nat.shiftLeft_add_eq_or_of_lt (by omega)]
    omega
  · rw [if_neg e, if_neg (by omega), if_neg (by omega), if_neg (by omega), if_neg (by omega)]

theorem Block.setShort_self (b : Block) (k : ℕ) : b.setShort k (b.short k) = b := by
  have htoNat : (b.short k).toNat = (b (2 * k + 1)).toNat * 256 + (b (2 * k)).toNat := by
    have := (b (2 * k)).isLt
    simp only [Block.short, toNat_append]
    rw [← Nat.shiftLeft_add_eq_or_of_lt (by omega), Nat.shiftLeft_eq]
  have h₀ := (b (2 * k)).isLt
  have h₁ := (b (2 * k + 1)).isLt
  funext n
  unfold Block.setShort
  split
  · next e =>
    apply eq_of_toNat_eq
    rw [extractLsb'_toNat, htoNat, Nat.shiftRight_eq_div_pow, e]
    omega
  split
  · next e =>
    apply eq_of_toNat_eq
    rw [extractLsb'_toNat, htoNat, Nat.shiftRight_eq_div_pow, e]
    omega
  · rfl

namespace Vol

/-- The first clear bit from `j` on, among `n`. -/
def findClear (zmap : ℕ → Bool) : ℕ → ℕ → Option ℕ
  | _, 0 => none
  | j, n + 1 => if zmap j then findClear zmap (j + 1) n else some j

/-- **`new_block`.**  `none` is 0. -/
def newBlock (v : Vol) : Option (ℕ × Vol) :=
  (findClear v.zmap 0 v.bits).map fun j =>
    (v.firstdatazone + j, { v with zmap := update v.zmap j true })

/-- `(unsigned short)new_block(dev)`. -/
def alloc (v : Vol) : BitVec 16 × Vol :=
  match v.newBlock with
  | none => (0#16, v)
  | some (z, v) => (BitVec.ofNat 16 z, v)

/-- **`free_block`.** -/
def freeBlock (v : Vol) (z : BitVec 16) : Vol :=
  if z.toNat < v.firstdatazone ∨ v.nzones ≤ z.toNat then v
  else { v with zmap := update v.zmap (z.toNat - v.firstdatazone) false }

def setZone (v : Vol) (i : ℕ) (k : Fin 8) (z : BitVec 16) : Vol :=
  { v with zone := update v.zone i (update (v.zone i) k z) }

def setBlock (v : Vol) (z : BitVec 16) (b : Block) : Vol :=
  { v with block := update v.block z.toNat b }

/-- The indirect block of an inode, allocated if there is none. -/
def indirect (v : Vol) (i : ℕ) : BitVec 16 × Vol :=
  if v.zone i 7 = 0#16 then (v.alloc.1, v.alloc.2.setZone i 7 v.alloc.1) else (v.zone i 7, v)

/-- The zone in entry `k` of the indirect block `ind`, allocated if there is none. -/
def entry (v : Vol) (ind : BitVec 16) (k : ℕ) : BitVec 16 × Vol :=
  if ((v.block ind.toNat).short k) = 0#16 then
    (v.alloc.1, v.alloc.2.setBlock ind ((v.block ind.toNat).setShort k v.alloc.1))
  else ((v.block ind.toNat).short k, v)

/-- **The zone of block `k` of an inode**, as `file_write` and `ensure_dir_block` make sure of it.
The result is 0 if there is none. -/
def mapZone (v : Vol) (i k : ℕ) : BitVec 16 × Vol :=
  if h : k < 7 then
    if v.zone i ⟨k, by omega⟩ = 0#16 then (v.alloc.1, v.alloc.2.setZone i ⟨k, by omega⟩ v.alloc.1)
    else (v.zone i ⟨k, by omega⟩, v)
  else if (v.indirect i).1 = 0#16 then (0#16, (v.indirect i).2)
  else (v.indirect i).2.entry (v.indirect i).1 (k - 7)

/-- One pass of `file_write`'s loop, or of `dir_add_entry`: bytes go into block `k`. -/
def write (v : Vol) (i k off : ℕ) (bs : List Byte) : Vol :=
  if (v.mapZone i k).1 = 0#16 then (v.mapZone i k).2
  else (v.mapZone i k).2.setBlock (v.mapZone i k).1
    (((v.mapZone i k).2.block (v.mapZone i k).1.toNat).setBytes off bs)

/-- `if (z) free_block(dev, z)`. -/
def freeZone (v : Vol) (z : BitVec 16) : Vol := if z = 0#16 then v else v.freeBlock z

/-- The direct zones are released. -/
def freeDirect (v : Vol) (i : ℕ) : Vol :=
  (List.finRange 7).foldl (fun v k => (v.freeZone (v.zone i k.castSucc)).setZone i k.castSucc 0#16) v

/-- The zones in the indirect block `ind` are released. -/
def freeEntries (v : Vol) (ind : BitVec 16) : Vol :=
  (List.range 512).foldl (fun v k => v.freeZone ((v.block ind.toNat).short k)) v

/-- **`truncate_inode`**, and `free_dir_zones`. -/
def truncate (v : Vol) (i : ℕ) : Vol :=
  let v₁ := v.freeDirect i
  if v₁.zone i 7 = 0#16 then v₁
  else ((v₁.freeEntries (v₁.zone i 7)).freeBlock (v₁.zone i 7)).setZone i 7 0#16

/-- `new_inode`, when the bitmap has `i` free. -/
def newInode (v : Vol) (i : ℕ) : Vol :=
  { v with imap := update v.imap i true, zone := update v.zone i fun _ => 0#16 }

/-- `free_inode`. -/
def freeInode (v : Vol) (i : ℕ) : Vol := { v with imap := update v.imap i false }

/-- `sys_mkdir`, up to the entry in the parent: a new inode with a block, which gets the bytes
`bs`. -/
def mkdir (v : Vol) (i : ℕ) (bs : List Byte) : Vol :=
  let v₁ := v.newInode i
  if v₁.alloc.1 = 0#16 then v₁.alloc.2.freeInode i
  else (v₁.alloc.2.setBlock v₁.alloc.1 ((v₁.alloc.2.block v₁.alloc.1.toNat).setBytes 0 bs)).setZone i 0
    v₁.alloc.1

end Vol

/-- What the system calls do to the zones. -/
inductive ZoneOp where
  /-- `creat`, `open(O_CREAT)`: the new inode. -/
  | create (i : ℕ)
  /-- A pass of `write`, and a directory entry written or cleared. -/
  | write (i : ℕ) (k : Fin 519) (off : ℕ) (bs : List Byte)
  | mkdir (i : ℕ) (bs : List Byte)
  /-- `sys_mkdir` could not enter the directory in its parent. -/
  | undo (i : ℕ)
  /-- `open(O_TRUNC)`, the last `unlink`, `rmdir`. -/
  | truncate (i : ℕ)
  /-- `free_inode`. -/
  | forget (i : ℕ)

namespace Vol

/-- **One step.** -/
def step (v : Vol) : ZoneOp → Vol
  | .create i => if v.imap i then v else v.newInode i
  | .write i k off bs => if v.imap i then v.write i k.val off bs else v
  | .mkdir i bs => if v.imap i then v else v.mkdir i bs
  | .undo i => if v.imap i then (v.freeBlock (v.zone i 0)).freeInode i else v
  | .truncate i => if v.imap i then v.truncate i else v
  | .forget i => v.freeInode i

/-- **A run.** -/
def run (v : Vol) (ops : List ZoneOp) : Vol := ops.foldl step v

end Vol

end Linux001

import Linux001.Fs.ByteFile

/-!
# Fs — the bounds of the indirect block

`file_read()`, `file_write()`, `next_entry()`, `ensure_dir_block()` and `dir_entry_name()` each take the
zone of a block from entry `block - 7` of the indirect block, and none of them compares it with 512.  What
they do below block 519 has nothing to do with the memory behind a buffer: it commutes with putting other
bytes there, so that none of them is read or written.  As long as nothing is written from block 519 on, the
size stays below, and reads and searches stay with it, from any position (`zones_inside`).  At block 519
`file_write()` stores zone numbers behind the buffer (`write_behind`).
-/

namespace Linux001

open List Block

/-! ### The directory's side -/

/-- **`next_entry`**: `de->inode` and `de->name`.  `none` is -1. -/
def nextEntry (bread : Bread) (dir : MInode) (i : ℕ) : Option (BitVec 16 × List Byte) :=
  let block := i * 16 / blockSize
  let offset := i * 16 % blockSize
  match dir.zone bread block with
  | none => none
  | some blk =>
    if blk = 0 then none
    else (bread dir.iDev blk).map fun b => (b (offset + 1) ++ b offset, (List.range 14).map fun k => b (offset + 2 + k))

/-- **`dir_entry_name`**, which has `next_entry` written out.  An entry that cannot be read is passed over. -/
def dirEntryName (bread : Bread) (dir : MInode) (ino : BitVec 16) : Option (List Byte) :=
  if dir.iMode &&& 0x4000#16 = 0#16 then none
  else
    (List.range (dir.iSize.toNat / 16)).findSome? fun i =>
      match nextEntry bread dir i with
      | none => none
      | some de => if de.1 = ino then some (de.2.takeWhile (· ≠ 0#8)) else none

/-- **`ensure_dir_block`.**  `false` is -1. -/
def ensureDirBlock (v : Vol) (dir block : ℕ) : Bool × Vol :=
  ((v.mapZone dir block).1 ≠ 0#16, (v.mapZone dir block).2)

/-! ### Behind the buffers -/

/-- Other bytes behind the buffer. -/
def Block.withTail (b t : Block) : Block := fun o => if o < blockSize then b o else t o

def Bread.withTail (r : Bread) (T : ℕ → Block) : Bread := fun dev z => (r dev z).map (·.withTail (T z))

def Vol.withTail (v : Vol) (T : ℕ → Block) : Vol := { v with block := fun z => (v.block z).withTail (T z) }

/-- Nothing behind a buffer is read. -/
def TailFree {α : Type} (f : Bread → α) : Prop := ∀ r T, f (Bread.withTail r T) = f r

variable {b t : Block} {r : Bread} {T : ℕ → Block} {ino : MInode} {v : Vol} {i k o off : ℕ} {bs : List Byte}

namespace Block

theorem withTail_of_lt (h : o < 1024) : b.withTail t o = b o := if_pos h

theorem short_withTail (h : k < 512) : (b.withTail t).short k = b.short k := by
  unfold short
  rw [withTail_of_lt (by omega), withTail_of_lt (by omega)]

theorem setShort_withTail (h : k < 512) (w : BitVec 16) :
    (b.withTail t).setShort k w = (b.setShort k w).withTail t := by
  funext o
  grind [setShort, withTail, blockSize]

theorem setBytes_withTail (h : off + bs.length ≤ 1024) :
    (b.withTail t).setBytes off bs = (b.setBytes off bs).withTail t := by
  funext o
  grind [setBytes, withTail, blockSize]

end Block

/-! ### Reading -/

theorem zone_withTail (h : k < 519) : ino.zone (r.withTail T) k = ino.zone r k := by
  unfold MInode.zone
  split
  · rfl
  split
  · rfl
  unfold Bread.withTail
  rw [Option.map_map]
  exact congrArg (Option.map · _) (funext fun b => congrArg BitVec.toNat (short_withTail (by omega)))

theorem byteAt_withTail (h : k < maxBytes) : ino.byteAt (r.withTail T) k = ino.byteAt r k := by
  unfold MInode.byteAt
  rw [zone_withTail (Nat.div_lt_of_lt_mul (Nat.mul_comm .. ▸ h))]
  cases ino.zone r (k / blockSize) with
  | none => rfl
  | some block =>
    refine if_congr .rfl rfl ?_
    unfold Bread.withTail
    rw [Option.map_map]
    exact congrArg (Option.map · _) (funext fun b => withTail_of_lt (Nat.mod_lt _ (by decide)))

theorem bytesFrom_withTail {n : ℕ} (h : k + n ≤ maxBytes) :
    ino.bytesFrom (r.withTail T) k n = ino.bytesFrom r k n := by
  induction n generalizing k with
  | zero => rfl
  | succ n ih =>
    unfold MInode.bytesFrom
    rw [byteAt_withTail (by omega), ih (by omega)]

/-- **The loop of `file_read`** ends, with bytes of the file. -/
theorem fileReadLoop_fuel {fuel : ℕ} {pos : Word} {count : ℤ} (hs : ino.iSize.toNat ≤ maxBytes)
    (hf : count.toNat < fuel) : fileReadLoop r ino fuel pos count 0 [] =
      (((ino.bytesFrom r pos.toNat (min count.toNat (ino.iSize.toNat - pos.toNat))).length : ℤ),
        ino.bytesFrom r pos.toNat (min count.toNat (ino.iSize.toNat - pos.toNat))) := by
  have hm : maxBytes < 2 ^ 31 := by decide
  rw [fileReadLoop_eq hf (fun h => by rw [BitVec.toNat_sub_of_le (BitVec.le_of_lt h)]; omega) rfl]
  simp

theorem nextEntry_withTail (h : i * 16 < maxBytes) : nextEntry (r.withTail T) ino i = nextEntry r ino i := by
  have hoff : i * 16 % blockSize + 16 ≤ 1024 := by unfold blockSize; omega
  unfold nextEntry
  simp only
  rw [zone_withTail (Nat.div_lt_of_lt_mul (Nat.mul_comm .. ▸ h))]
  cases ino.zone r (i * 16 / blockSize) with
  | none => rfl
  | some blk =>
    refine if_congr .rfl rfl ?_
    unfold Bread.withTail
    rw [Option.map_map]
    refine congrArg (Option.map · _) (funext fun b => ?_)
    show (b.withTail _ _ ++ b.withTail _ _, _) = _
    rw [withTail_of_lt (by omega), withTail_of_lt (by omega)]
    refine congrArg (_, ·) (map_congr_left fun k hk => withTail_of_lt ?_)
    have := mem_range.mp hk
    omega

theorem dirEntryName_inside (hs : ino.iSize.toNat ≤ maxBytes) (key : BitVec 16) :
    TailFree fun r => dirEntryName r ino key := by
  intro r T
  have hentry : ∀ i ∈ range (ino.iSize.toNat / 16), nextEntry (r.withTail T) ino i = nextEntry r ino i :=
    fun i hi => nextEntry_withTail (by have := mem_range.mp hi; omega)
  refine if_congr .rfl rfl ?_
  generalize range (ino.iSize.toNat / 16) = l at hentry
  induction l with
  | nil => rfl
  | cons i l ih =>
    rw [findSome?_cons, findSome?_cons, hentry i mem_cons_self,
      ih fun j hj => hentry j (mem_cons_of_mem _ hj)]

/-! ### Writing -/

namespace Vol

theorem alloc_withTail : (v.withTail T).alloc = Prod.map id (·.withTail T) v.alloc := by
  show alloc { v with block := _ } = _
  unfold alloc newBlock
  cases findClear v.zmap 0 v.bits <;> rfl

theorem setBlock_withTail {z : BitVec 16} :
    (v.withTail T).setBlock z (b.withTail (T z.toNat)) = (v.setBlock z b).withTail T := by
  refine congrArg (fun f => { v with block := f }) (funext fun z' => ?_)
  by_cases h : z' = z.toNat
  · subst h
    simp [withTail, setBlock]
  · simp [withTail, setBlock, h]

theorem entry_withTail {ind : BitVec 16} (h : k < 512) :
    (v.withTail T).entry ind k = Prod.map id (·.withTail T) (v.entry ind k) := by
  unfold entry
  show (if ((v.block ind.toNat).withTail (T ind.toNat)).short k = 0#16 then _ else _) = _
  rw [short_withTail h, alloc_withTail]
  split
  · show (v.alloc.1, (v.alloc.2.withTail T).setBlock ind
      (((v.block ind.toNat).withTail (T ind.toNat)).setShort k v.alloc.1)) = _
    rw [setShort_withTail h, setBlock_withTail]
    rfl
  · show (((v.block ind.toNat).withTail (T ind.toNat)).short k, _) = _
    rw [short_withTail h]
    rfl

theorem mapZone_withTail (h : k < 519) :
    (v.withTail T).mapZone i k = Prod.map id (·.withTail T) (v.mapZone i k) := by
  have hind : (v.withTail T).indirect i = Prod.map id (·.withTail T) (v.indirect i) := by
    show (if v.zone i 7 = 0#16 then _ else _) = _
    unfold indirect
    rw [alloc_withTail]
    split <;> rfl
  unfold mapZone
  rw [hind, alloc_withTail]
  split
  · show (if v.zone i _ = 0#16 then _ else _) = _
    split <;> rfl
  · show (if (v.indirect i).1 = 0#16 then _ else _) = _
    split
    · rfl
    · exact entry_withTail (by omega)

theorem write_withTail (h : k < 519) (hoff : off + bs.length ≤ 1024) :
    (v.withTail T).write i k off bs = (v.write i k off bs).withTail T := by
  unfold write
  rw [mapZone_withTail h]
  show (if (v.mapZone i k).1 = 0#16 then _ else _) = _
  split
  · rfl
  · exact (congrArg _ (setBytes_withTail hoff)).trans setBlock_withTail

end Vol

section
variable {fuel : ℕ} {size pos : Word} {result : ℤ}

theorem pass_bounds (h : pos.toNat + bs.length ≤ maxBytes) (hb : bs ≠ []) :
    pos.toNat / blockSize < 519 ∧ 0 < min (blockSize - pos.toNat % blockSize) bs.length ∧
      (pos + BitVec.ofNat 32 (min (blockSize - pos.toNat % blockSize) bs.length)).toNat =
        pos.toNat + min (blockSize - pos.toNat % blockSize) bs.length := by
  have := length_pos_iff.mpr hb
  rw [BitVec.toNat_add, BitVec.toNat_ofNat]
  unfold maxBytes blockSize at *
  omega

theorem fileWriteLoop_withTail (h : pos.toNat + bs.length ≤ maxBytes) :
    fileWriteLoop i fuel (v.withTail T) size pos bs result =
      Prod.map id (Prod.map (·.withTail T) id) (fileWriteLoop i fuel v size pos bs result) := by
  induction fuel generalizing v size pos bs result with
  | zero => rfl
  | succ fuel ih =>
    unfold fileWriteLoop
    by_cases hb : bs = []
    · rw [if_pos hb, if_pos hb]
      rfl
    obtain ⟨hk, -, hpos⟩ := pass_bounds h hb
    have hoff : pos.toNat % blockSize < blockSize := Nat.mod_lt _ (by decide)
    rw [if_neg hb, if_neg hb, Vol.mapZone_withTail hk]
    show (if (v.mapZone i _).1 = 0#16 then _ else _) = _
    split
    · rfl
    simp only
    rw [Vol.write_withTail hk (by rw [length_take]; unfold blockSize at *; omega)]
    refine ih ?_
    rw [hpos, length_drop]
    omega

/-- **The loop of `file_write`** ends: every pass writes a byte. -/
theorem fileWriteLoop_fuel {fuel' : ℕ} (hf : bs.length < fuel) (hf' : bs.length < fuel')
    (h : pos.toNat + bs.length ≤ maxBytes) :
    fileWriteLoop i fuel v size pos bs result = fileWriteLoop i fuel' v size pos bs result := by
  induction fuel generalizing fuel' v size pos bs result with
  | zero => omega
  | succ fuel ih =>
    obtain ⟨fuel', rfl⟩ : ∃ k, fuel' = k + 1 := ⟨fuel' - 1, by omega⟩
    unfold fileWriteLoop
    split
    · rfl
    next hb =>
    obtain ⟨-, hn, hpos⟩ := pass_bounds h hb
    split
    · rfl
    exact ih (by rw [length_drop]; omega) (by rw [length_drop]; omega)
      (by rw [hpos, length_drop]; omega)

theorem fileWriteLoop_size (hs : size.toNat ≤ maxBytes) (h : pos.toNat + bs.length ≤ maxBytes) :
    (fileWriteLoop i fuel v size pos bs result).2.2.toNat ≤ maxBytes := by
  induction fuel generalizing v size pos bs result with
  | zero => exact hs
  | succ fuel ih =>
    unfold fileWriteLoop
    split
    · exact hs
    next hb =>
    obtain ⟨-, hn, hpos⟩ := pass_bounds h hb
    split
    · exact hs
    refine ih ?_ (by rw [hpos, length_drop]; omega)
    split
    · rw [hpos]
      omega
    · exact hs

end

/-! ### The bounds, over a run -/

/-- What changes the size of a file or a directory, or the position. -/
inductive SizeOp where
  | file (op : FileOp)
  /-- `dir_add_entry` where no slot is free -/
  | entry

namespace OpenFile

def sizeStep (f : OpenFile) : SizeOp → OpenFile
  | .file op => (f.step op).2
  | .entry =>
    let r := ensureDirBlock f.vol f.ino (f.size.toNat / blockSize)
    if r.1 then { f with vol := r.2, size := f.size + 16#32 } else { f with vol := r.2 }

/-- Nothing is written from block 519 on. -/
def Within (f : OpenFile) : SizeOp → Prop
  | .file (.write bs) => bs = [] ∨ f.pos.toNat + bs.length ≤ maxBytes
  | .file _ => True
  | .entry => f.size.toNat + 16 ≤ maxBytes

theorem sizeStep_le {f : OpenFile} {op : SizeOp} (hs : f.size.toNat ≤ maxBytes) (hw : f.Within op) :
    (f.sizeStep op).size.toNat ≤ maxBytes := by
  match op with
  | .file (.seek _) => exact hs
  | .file (.read _) =>
    show (f.sysRead _).2.size.toNat ≤ _
    unfold sysRead
    split <;> exact hs
  | .file (.write bs) =>
    show (f.sysWrite bs).2.size.toNat ≤ _
    unfold sysWrite
    split
    · exact hs
    obtain rfl | hw := hw
    · exact hs
    · exact fileWriteLoop_size hs hw
  | .entry =>
    have hm : maxBytes < 2 ^ 31 := by decide
    have hw : f.size.toNat + 16 ≤ maxBytes := hw
    simp only [sizeStep]
    split
    · show (f.size + 16#32).toNat ≤ _
      rw [BitVec.toNat_add_of_lt] <;> simp <;> omega
    · exact hs

end OpenFile

/-- **`file_read`** at any position ends, reads nothing behind a buffer and stops at block 519. -/
def MInode.ReadsInside (ino : MInode) : Prop := ∀ (pos : Word) (count : ℤ),
  TailFree (fun r => fileRead r ino pos count) ∧ ∀ r, (fileRead r ino pos count).1.toNat ≤ maxBytes - pos.toNat ∧
    ∀ fuel, count.toNat < fuel → fileReadLoop r ino fuel pos count 0 [] = fileRead r ino pos count

theorem fileRead_inside (hs : ino.iSize.toNat ≤ maxBytes) : ino.ReadsInside := by
  intro pos count
  have heq : ∀ r, fileRead r ino pos count = _ := fun r => fileReadLoop_fuel (r := r) hs (Nat.lt_succ_self _)
  refine ⟨fun r T => ?_, fun r => ⟨?_, fun fuel hf => ?_⟩⟩
  · show fileRead (r.withTail T) ino pos count = fileRead r ino pos count
    rw [heq, heq]
    by_cases hp : pos.toNat ≤ maxBytes
    · rw [bytesFrom_withTail (by omega)]
    · rw [Nat.sub_eq_zero_of_le (show ino.iSize.toNat ≤ pos.toNat by omega), Nat.min_zero]
      rfl
  · rw [heq]
    have := ino.length_bytesFrom_le r pos.toNat (min count.toNat (ino.iSize.toNat - pos.toNat))
    simp only [Int.toNat_natCast]
    omega
  · rw [heq, fileReadLoop_fuel hs hf]

/-- **The indirect block's bounds are kept** by a run that writes nothing from block 519 on: wherever it has got,
the five functions end, and neither read nor write behind a buffer; a read stops at block 519. -/
theorem zones_inside (f : OpenFile) (ops : List SizeOp) (hs : f.size.toNat ≤ maxBytes)
    (hok : Run.Guarded OpenFile.sizeStep OpenFile.Within f ops) :
    ∀ g, ops.foldl OpenFile.sizeStep f = g →
    (∀ bs, g.Within (.file (.write bs)) →
      (∀ T, { g with vol := g.vol.withTail T }.fileWrite bs = Prod.map id (Prod.map (·.withTail T) id) (g.fileWrite bs)) ∧
      ∀ fuel, bs.length < fuel → fileWriteLoop g.ino fuel g.vol g.size g.pos bs 0 = g.fileWrite bs) ∧
    (∀ dir k, k < 519 → ∀ T,
      ensureDirBlock (g.vol.withTail T) dir k = Prod.map id (·.withTail T) (ensureDirBlock g.vol dir k)) ∧
    ∀ ino : MInode, ino.iSize = g.size →
      ino.ReadsInside ∧ (∀ i < ino.iSize.toNat / 16, TailFree fun r => nextEntry r ino i) ∧ ∀ key, TailFree fun r => dirEntryName r ino key := by
  rintro g rfl
  have hg := hok.inv (I := fun f => f.size.toNat ≤ maxBytes) OpenFile.sizeStep_le hs
  generalize ops.foldl OpenFile.sizeStep f = g at hg ⊢
  refine ⟨fun bs hw => ?_, fun dir k hk T => ?_, fun ino hino => ?_⟩
  · obtain rfl | hw := hw
    · refine ⟨fun T => rfl, fun fuel hf => ?_⟩
      obtain ⟨fuel, rfl⟩ : ∃ k, fuel = k + 1 := ⟨fuel - 1, by omega⟩
      rfl
    · exact ⟨fun T => fileWriteLoop_withTail hw, fun fuel hf => fileWriteLoop_fuel hf (Nat.lt_succ_self _) hw⟩
  · unfold ensureDirBlock
    rw [Vol.mapZone_withTail hk]
    rfl
  · rw [← hino] at hg
    exact ⟨fileRead_inside hg, fun i hi r T => nextEntry_withTail (by omega), dirEntryName_inside hg⟩

/-- A small volume with an empty file, open at `pos`. -/
def emptyAt (pos : Word) : OpenFile :=
  ⟨⟨1, 4, 3, fun _ => false, fun _ => true, fun _ _ => 0#16, fun _ _ => 0#8⟩, 1, 0#32, pos, 1#16⟩

/-- A byte is written into block 518, the last one; then the file is read from far behind its end. -/
def lastBlock : List SizeOp := [.file (.seek 0x81800#32), .file (.write [0x42#8]), .file (.seek 0xFFFFFFFF#32)]

theorem lastBlock_inside : (lastBlock.foldl OpenFile.sizeStep (emptyAt 0#32)).size = 0x81801#32 ∧
    ∀ r T pos count, fileRead (Bread.withTail r T) { iSize := 0x81801#32 } pos count =
      fileRead r { iSize := 0x81801#32 } pos count := by
  have hsize : (lastBlock.foldl OpenFile.sizeStep (emptyAt 0#32)).size = 0x81801#32 := by decide
  have h := (zones_inside (emptyAt 0#32) lastBlock (by decide) ⟨trivial, .inr (by decide), trivial, trivial⟩ _ rfl).2.2
    { iSize := 0x81801#32 } hsize.symm
  exact ⟨hsize, fun r T pos count => (h.1 pos count).1 r T⟩

/-- **A byte written at block 519**: the write is not cut short, and the zone's number is stored behind the indirect
block, which is zone 1. -/
theorem write_behind : ((emptyAt 0x81C00#32).fileWrite [0x42#8]).1 = 1 ∧
    ((emptyAt 0x81C00#32).fileWrite [0x42#8]).2.1.zone 1 7 = 1#16 ∧ (emptyAt 0x81C00#32).vol.block 1 1024 = 0#8 ∧
    ((emptyAt 0x81C00#32).fileWrite [0x42#8]).2.1.block 1 1024 = 2#8 := by
  decide

end Linux001

import Linux001.Fs.FileSpec
import Linux001.Fs.Mkminix
import Linux001.Lib.Overwrite
import Linux001.Lib.Run

/-!
# Fs — a file as an array of bytes

`file_write()` of `fs/file_dev.c`, and `sys_read()`, `sys_write()` and `sys_lseek()` of `kernel/sys.c` on
a regular file, against the array of bytes that a file is to be (`ByteFile`): positions that were never
written read as 0, and the size is the largest end of a write.

`new_block()` does not clear the zone it hands out.  Where every free zone holds zeroes (`Vol.Clean`),
mapping a block changes no byte of the file (`Mapped`), and a pass of `file_write()` overwrites just its
bytes (`write_bytes`).
-/

namespace Linux001

open Function

/-- `(7 + 512) * BLOCK_SIZE`. -/
def maxBytes : ℕ := 519 * blockSize

/-- A regular file that is open: its volume, its inode and its entry of `file_table[]`. -/
structure OpenFile where
  vol : Vol
  ino : ℕ
  /-- `i_size` -/
  size : Word
  /-- `f_pos` -/
  pos : Word
  /-- `f_mode` -/
  mode : BitVec 16

/-- What a task does with the file. -/
inductive FileOp where
  /-- `lseek(fd, offset, SEEK_SET)` -/
  | seek (offset : Word)
  | write (bs : List Byte)
  | read (count : Word)
  deriving DecidableEq

/-- What it gets: the value returned and the bytes stored. -/
structure FileAnswer where
  value : ℤ
  bytes : List Byte := []
  deriving DecidableEq

/-- The loop of `file_write`, with `bs` still to be written. -/
def fileWriteLoop (i : ℕ) : ℕ → Vol → Word → Word → List Byte → ℤ → ℤ × Vol × Word
  | 0, v, size, _, _, result => (result, v, size)
  | fuel + 1, v, size, pos, bs, result =>
    if bs = [] then (result, v, size)
    else if (v.mapZone i (pos.toNat / blockSize)).1 = 0#16 then
      (result, (v.mapZone i (pos.toNat / blockSize)).2, size)
    else
      let offset := pos.toNat % blockSize
      let n := min (blockSize - offset) bs.length
      let pos' := pos + BitVec.ofNat 32 n
      fileWriteLoop i fuel (v.write i (pos.toNat / blockSize) offset (bs.take n))
        (if size < pos' then pos' else size) pos' (bs.drop n) (result + n)

namespace OpenFile

/-- **`file_write`.**  Every pass that does not end the loop writes a byte, so `count + 1` passes are
enough. -/
def fileWrite (f : OpenFile) (bs : List Byte) : ℤ × Vol × Word :=
  fileWriteLoop f.ino (bs.length + 1) f.vol f.size f.pos bs 0

/-- The inode in core. -/
def minode (f : OpenFile) : MInode :=
  { iSize := f.size, iZone := fun k => if h : k.val < 8 then f.vol.zone f.ino ⟨k.val, h⟩ else 0#16 }

/-- **`sys_write`.** -/
def sysWrite (f : OpenFile) (bs : List Byte) : FileAnswer × OpenFile :=
  if f.mode = 0#16 then (⟨-1, []⟩, f)
  else
    let r := f.fileWrite bs
    (⟨r.1, []⟩, { f with
      vol := r.2.1
      size := r.2.2
      pos := if 0 < r.1 then f.pos + BitVec.ofInt 32 r.1 else f.pos })

/-- **`sys_read`.**  `file_read` takes the count as an `int`. -/
def sysRead (f : OpenFile) (count : Word) : FileAnswer × OpenFile :=
  if f.mode = 1#16 then (⟨-1, []⟩, f)
  else
    let r := fileRead (fun _ z => some (f.vol.block z)) f.minode f.pos count.toInt
    (⟨r.1, r.2⟩, { f with pos := if 0 < r.1 then f.pos + BitVec.ofInt 32 r.1 else f.pos })

/-- **`sys_lseek`.** -/
def sysLseek (f : OpenFile) (offset : Word) : ℕ → FileAnswer × OpenFile
  | 0 => (⟨offset.toInt, []⟩, { f with pos := offset })
  | 1 => (⟨(f.pos + offset).toInt, []⟩, { f with pos := f.pos + offset })
  | 2 => (⟨(f.size + offset).toInt, []⟩, { f with pos := f.size + offset })
  | _ => (⟨-1, []⟩, f)

def step (f : OpenFile) : FileOp → FileAnswer × OpenFile
  | .seek offset => f.sysLseek offset 0
  | .write bs => f.sysWrite bs
  | .read count => f.sysRead count

end OpenFile

/-- **What a file is to be.** -/
structure ByteFile where
  data : ℕ → Byte := fun _ => 0#8
  size : ℕ := 0
  pos : ℕ := 0

namespace ByteFile

def step (a : ByteFile) : FileOp → FileAnswer × ByteFile
  | .seek offset => (⟨offset.toNat, []⟩, { a with pos := offset.toNat })
  | .write bs =>
    (⟨bs.length, []⟩,
      { data := overwrite a.data a.pos bs
        size := if bs = [] then a.size else max a.size (a.pos + bs.length)
        pos := a.pos + bs.length })
  | .read count =>
    let n := min count.toInt.toNat (a.size - a.pos)
    (⟨n, (List.range n).map fun k => a.data (a.pos + k)⟩, { a with pos := a.pos + n })

end ByteFile

/-! ### The bytes of a file on the volume -/

namespace Vol

variable {v v' v₁ : Vol} {i k : ℕ} {z : BitVec 16} {p q : Place} {off : ℕ}

/-- What is read at a place: zeroes where no zone is stored. -/
def slot (v : Vol) (p : Place) : Block := if v.ref p = 0#16 then fun _ => 0#8 else v.block (v.ref p).toNat

/-- The byte at a position. -/
def bytes (v : Vol) (i : ℕ) : ℕ → Byte := fun q =>
  if h : q / blockSize < 519 then v.slot (placeOf i ⟨q / blockSize, h⟩) (q % blockSize) else 0#8

/-- Every free zone holds zeroes. -/
def Clean (v : Vol) : Prop :=
  ∀ j, v.zmap j = false → v.firstdatazone + j < v.nzones → v.block (v.firstdatazone + j) = fun _ => 0#8

/-- Zones may have been allocated for `i`; all that can be read of it is as it was. -/
structure Mapped (i : ℕ) (v v' : Vol) : Prop where
  within : Within i v v'
  clean : Clean v'
  slots : ∀ {p}, p.ino = i → p ≠ .direct i 7 → v'.slot p = v.slot p

/-- A zone that was free holds zeroes. -/
theorem Fresh.zero (hf : Fresh v z v₁) (hc : Clean v) : v.block z.toNat = fun _ => 0#8 := by
  have hlow := hf.low
  have he : v.firstdatazone + (z.toNat - v.firstdatazone) = z.toNat := by omega
  have h := hc _ hf.clear (by rw [he]; exact hf.high)
  rwa [he] at h

/-- An indirect block that is allocated is blank. -/
theorem Clean.blank (hc : Clean v) (hs : Super v) (hu : Fits (v.mapZone i k).2) : Blank v i k := by
  intro hk h7 hne j
  have hu₁ := hu.indirect (by omega : ¬ k < 7)
  unfold Vol.indirect at hu₁
  rw [if_pos h7] at hu₁
  rcases alloc_cases hs hu₁ with e | hf
  · exact absurd (congrArg Prod.fst e) hne
  rw [hf.zero hc]
  show (0#8 ++ 0#8 : BitVec 16) = 0#16
  decide

/-- **Mapping a block changes nothing that can be read**: the zones that are stored hold zeroes. -/
theorem Filled.mapped (h : Filled i v v') (hs : Super v) (hc : Clean v) : Mapped i v v' where
  within := h.within
  clean j hj hlt := by
    have hpos := hs.pos
    rw [h.first, h.last] at hlt
    have hfree : v.zmap j = false := Bool.eq_false_iff.mpr fun hz => Bool.false_ne_true (hj.symm.trans (h.mono hz))
    rw [h.first, ← hc j hfree hlt]
    -- the indirect block is in use
    refine h.block _ (by omega) fun e => ?_
    have hne : v'.ref (.direct i 7) ≠ 0#16 := fun e' => by
      rw [e'] at e
      have : (0#16).toNat = 0 := rfl
      omega
    have hbit := (h.excl.used hne).bit
    rw [← e, h.first, Nat.add_sub_cancel_left] at hbit
    exact Bool.false_ne_true (hj.symm.trans hbit)
  slots {p} hp hne := by
    have hblock : v'.ref p ≠ 0#16 → v'.block (v'.ref p).toNat = v.block (v'.ref p).toNat := fun h₁ =>
      h.block _ (fun e => h₁ (BitVec.eq_of_toNat_eq e)) fun e => hne (h.excl.unique h₁ (BitVec.eq_of_toNat_eq e))
    unfold slot
    by_cases h₀ : v.ref p = 0#16
    · rw [if_pos h₀]
      split
      · rfl
      next h₁ =>
      obtain ⟨hlow, hhigh, -⟩ := h.excl.used h₁
      rw [h.first] at hlow
      rw [h.last] at hhigh
      have he : v.firstdatazone + ((v'.ref p).toNat - v.firstdatazone) = (v'.ref p).toNat := by omega
      have hzero := hc _ (h.fresh h₀ h₁) (by rwa [he])
      rwa [hblock h₁, ← he]
    · have hr := h.kept h₀
      rw [hr] at hblock
      rw [hr, if_neg h₀, if_neg h₀, hblock h₀]

theorem setBytes_eq (b : Block) (off : ℕ) (bs : List Byte) : b.setBytes off bs = overwrite b off bs := by
  funext n
  unfold Block.setBytes
  split
  · next hn =>
    unfold overwrite
    rw [if_pos hn.1, List.getD_eq_getElem?_getD, List.getElem?_eq_getElem (by omega), Option.getD_some,
      Option.getD_some]
  · next hn => exact (overwrite_outside (by omega)).symm

theorem placeOf_inj {a b : Fin 519} (h : placeOf i a = placeOf i b) : a = b := by
  unfold placeOf at h
  split at h <;> split at h
  · simpa [Fin.ext_iff] using h
  · cases h
  · cases h
  · simp only [Place.indirect.injEq, true_and, Fin.mk.injEq] at h
    exact Fin.ext (by omega)

/-- Bytes are written into the zone at a data place. -/
theorem slot_putData (h : Excl v) {p₀ : Place} (hp₀ : p₀.ino = i) (hne : p₀ ≠ .direct i 7) (hz : v.ref p₀ ≠ 0#16)
    (b : Block) (p : Place) : (v.setBlock (v.ref p₀) b).slot p = if p = p₀ then b else v.slot p := by
  unfold slot
  rw [ref_putData h hp₀ hne hz]
  by_cases e : p = p₀
  · rw [e, if_neg hz, if_pos rfl]
    exact update_self ..
  rw [if_neg e]
  split
  · rfl
  next hp =>
  have hzone : (v.ref p).toNat ≠ (v.ref p₀).toNat := fun e' => e (h.unique hp (BitVec.eq_of_toNat_eq e'))
  exact update_of_ne hzone ..

theorem Clean.putData (hc : Clean v) (hz : v.Marked z) (b : Block) : Clean (v.setBlock z b) := by
  intro j hj hlt
  have hne : v.firstdatazone + j ≠ z.toNat := by
    intro e
    have hbit := hz.bit
    rw [← e, Nat.add_sub_cancel_left] at hbit
    exact Bool.false_ne_true (hj.symm.trans hbit)
  exact (update_of_ne hne ..).trans (hc j hj hlt)

/-- The bytes of a file of which one block has been written. -/
theorem bytes_put {bs : List Byte} (k : Fin 519) (hoff : off + bs.length ≤ blockSize)
    (hself : v'.slot (placeOf i k) = overwrite (v.slot (placeOf i k)) off bs)
    (hrest : ∀ k', k' ≠ k → v'.slot (placeOf i k') = v.slot (placeOf i k')) :
    v'.bytes i = overwrite (v.bytes i) (k.val * blockSize + off) bs := by
  funext q
  have hk := k.isLt
  unfold blockSize at *
  by_cases e : q / 1024 = k.val
  · have hb : ∀ u : Vol, u.bytes i q = u.slot (placeOf i k) (q % 1024) := by
      intro u
      unfold bytes blockSize
      rw [dif_pos (by omega)]
      congr 3
    unfold overwrite
    rw [hb, hb, hself]
    unfold overwrite
    have hindex : q % 1024 - off = q - (k.val * 1024 + off) := by omega
    rw [hindex]
    exact if_congr (by omega) rfl rfl
  · rw [overwrite_outside (by omega)]
    unfold bytes blockSize
    split
    · next hq => rw [hrest _ fun e' => e (congrArg Fin.val e')]
    · rfl

/-- **A pass of `file_write`** overwrites its bytes. -/
theorem write_bytes (h : ZoneInv v) (hc : Clean v) (hi : v.imap i = true) (k : Fin 519)
    {bs : List Byte} (hoff : off + bs.length ≤ blockSize) (hz : (v.mapZone i k.val).1 ≠ 0#16)
    (hu : Fits (v.write i k.val off bs)) :
    ZoneInv (v.write i k.val off bs) ∧ Clean (v.write i k.val off bs) ∧ (v.write i k.val off bs).imap i = true ∧
      (v.write i k.val off bs).bytes i = overwrite (v.bytes i) (k.val * blockSize + off) bs := by
  unfold Vol.write at hu ⊢
  rw [if_neg hz] at hu ⊢
  obtain ⟨hfilled, hr⟩ := h.excl.mapZone h.super hi k hu (hc.blank h.super hu)
  have hm := hfilled.mapped h.super hc
  have hr := hr hz
  generalize (v.mapZone i k.val).2 = v₁ at hfilled hm hr hu ⊢
  rw [← hr] at hz ⊢
  have hw := hm.within.excl.putData (placeOf_ino i k) (placeOf_ne i k) hz
    ((v₁.block (v₁.ref (placeOf i k)).toNat).setBytes off bs)
  have hslot := slot_putData hm.within.excl (placeOf_ino i k) (placeOf_ne i k) hz
    ((v₁.block (v₁.ref (placeOf i k)).toNat).setBytes off bs)
  refine ⟨⟨hw.super (hm.within.super h.super), hw.excl⟩, hm.clean.putData (hm.within.excl.used hz) _,
    by rw [hw.imap, hm.within.imap, hi], ?_⟩
  refine bytes_put k hoff ?_ fun k' hk' => ?_
  · rw [hslot, if_pos rfl, setBytes_eq, ← hm.slots (placeOf_ino i k) (placeOf_ne i k)]
    unfold slot
    rw [if_neg hz]
  · rw [hslot, if_neg fun e => hk' (placeOf_inj e)]
    exact hm.slots (placeOf_ino i k') (placeOf_ne i k')

end Vol

/-! ### The loop of `file_write` -/

/-- Bits of the zone map have only been set. -/
structure Vol.Grew (v v' : Vol) : Prop where
  bits : v'.bits = v.bits
  first : v'.firstdatazone = v.firstdatazone
  last : v'.nzones = v.nzones
  zmap : ∀ j, v.zmap j = true → v'.zmap j = true

namespace Vol

variable {v v' v₁ : Vol} {i k : ℕ} {z : BitVec 16}

theorem Grew.refl (v : Vol) : Grew v v := ⟨rfl, rfl, rfl, fun _ h => h⟩

theorem Grew.trans (h : Grew v v₁) (h' : Grew v₁ v') : Grew v v' :=
  ⟨h'.bits.trans h.bits, h'.first.trans h.first, h'.last.trans h.last, fun j hj => h'.zmap j (h.zmap j hj)⟩

theorem Grew.alloc (v : Vol) : Grew v v.alloc.2 :=
  ⟨v.alloc_bits, v.alloc_first.1, v.alloc_first.2, fun _ => v.alloc_zmap⟩

/-- Whatever is stored after an allocation. -/
theorem Grew.of_alloc (hb : v'.bits = v.alloc.2.bits) (hf : v'.firstdatazone = v.alloc.2.firstdatazone)
    (hl : v'.nzones = v.alloc.2.nzones) (hz : v'.zmap = v.alloc.2.zmap) : Grew v v' :=
  (Grew.alloc v).trans ⟨hb, hf, hl, fun j hj => by rw [hz]; exact hj⟩

theorem Grew.mapZone (v : Vol) (i k : ℕ) : Grew v (v.mapZone i k).2 := by
  have hentry : ∀ (u : Vol) (ind : BitVec 16) (j : ℕ), Grew u (u.entry ind j).2 := by
    intro u ind j
    unfold Vol.entry
    split
    · exact .of_alloc rfl rfl rfl rfl
    · exact .refl u
  have hindirect : Grew v (v.indirect i).2 := by
    unfold Vol.indirect
    split
    · exact .of_alloc rfl rfl rfl rfl
    · exact .refl v
  unfold Vol.mapZone
  split
  · split
    · exact .of_alloc rfl rfl rfl rfl
    · exact .refl v
  · split
    · exact hindirect
    · exact hindirect.trans (hentry ..)

theorem Grew.write (v : Vol) (i k off : ℕ) (bs : List Byte) : Grew v (v.write i k off bs) := by
  have hm := Grew.mapZone v i k
  unfold Vol.write
  split
  · exact hm
  · exact ⟨hm.bits, hm.first, hm.last, hm.zmap⟩

theorem Grew.fits (h : Grew v v') (hu : Fits v') : Fits v := by
  have hle := inUse_mono h.bits h.zmap
  unfold Fits at *
  rw [h.first, h.last] at hu
  exact hle.trans hu

end Vol

section WriteLoop

variable {i : ℕ}

theorem fileWriteLoop_grew (i fuel : ℕ) (v : Vol) (size pos : Word) (bs : List Byte) (result : ℤ) :
    Vol.Grew v (fileWriteLoop i fuel v size pos bs result).2.1 := by
  induction fuel generalizing v size pos bs result with
  | zero => exact .refl v
  | succ fuel ih =>
    unfold fileWriteLoop
    split
    · exact .refl v
    split
    · exact .mapZone v i _
    · exact (Vol.Grew.write v i _ _ _).trans (ih ..)

/-- What a write that is not cut short has done. -/
structure FileWrote (i : ℕ) (v : Vol) (size : Word) (pos : ℕ) (bs : List Byte) (v' : Vol) (size' : Word) : Prop where
  inv : v'.ZoneInv
  clean : v'.Clean
  used : v'.imap i = true
  bytes : v'.bytes i = overwrite (v.bytes i) pos bs
  size : size'.toNat = if bs = [] then size.toNat else max size.toNat (pos + bs.length)

/-- **The loop**, from any point of it on. -/
theorem fileWriteLoop_wrote {fuel : ℕ} {v : Vol} {size pos : Word} {bs : List Byte} {result : ℤ}
    (hf : bs.length < fuel) (h : v.ZoneInv) (hc : v.Clean) (hi : v.imap i = true)
    (hend : pos.toNat + bs.length ≤ maxBytes)
    (hall : (fileWriteLoop i fuel v size pos bs result).1 = result + bs.length)
    (hu : (fileWriteLoop i fuel v size pos bs result).2.1.Fits) :
    FileWrote i v size pos.toNat bs (fileWriteLoop i fuel v size pos bs result).2.1
      (fileWriteLoop i fuel v size pos bs result).2.2 := by
  induction fuel generalizing v size pos bs result with
  | zero => omega
  | succ fuel ih =>
    unfold fileWriteLoop at hall hu ⊢
    by_cases hb : bs = []
    · rw [if_pos hb]
      exact ⟨h, hc, hi, by rw [hb, overwrite_nil], by rw [if_pos hb]⟩
    have hlen : 0 < bs.length := List.length_pos_iff.mpr hb
    rw [if_neg hb] at hall hu ⊢
    by_cases hz : (v.mapZone i (pos.toNat / blockSize)).1 = 0#16
    · -- cut short: the bytes that are left have not been written
      rw [if_pos hz] at hall
      omega
    rw [if_neg hz] at hall hu ⊢
    dsimp only at hall hu ⊢
    unfold maxBytes at hend
    generalize hn : min (blockSize - pos.toNat % blockSize) bs.length = n at hall hu ⊢
    have hmod : pos.toNat % blockSize < blockSize := Nat.mod_lt _ (by decide)
    have hdiv := Nat.div_add_mod pos.toNat blockSize
    have hn₁ : pos.toNat % blockSize + n ≤ blockSize := by omega
    have hn₂ : n ≤ bs.length := by omega
    have hn₃ : 0 < n := by omega
    have hk : pos.toNat / blockSize < 519 := Nat.div_lt_of_lt_mul (by omega)
    have hpos : (pos + BitVec.ofNat 32 n).toNat = pos.toNat + n := by
      rw [BitVec.toNat_add, BitVec.toNat_ofNat]
      unfold blockSize at hend
      omega
    have htake : (bs.take n).length = n := by rw [List.length_take]; omega
    have hfit : pos.toNat % blockSize + (bs.take n).length ≤ blockSize := by
      rw [htake]
      exact hn₁
    obtain ⟨h₁, hc₁, hi₁, hbytes⟩ := Vol.write_bytes h hc hi ⟨_, hk⟩ hfit hz
      ((fileWriteLoop_grew ..).fits hu)
    have hw := ih (by rw [List.length_drop]; omega) h₁ hc₁ hi₁
      (by rw [hpos, List.length_drop]; unfold maxBytes; omega)
      (by rw [hall, List.length_drop]; omega) hu
    refine ⟨hw.inv, hw.clean, hw.used, ?_, ?_⟩
    · rw [hw.bytes, hbytes, hpos]
      have hsplit : bs = bs.take n ++ bs.drop n := (List.take_append_drop n bs).symm
      conv_rhs => rw [hsplit, overwrite_append, htake]
      rw [show pos.toNat / blockSize * blockSize + pos.toNat % blockSize = pos.toNat by
        rw [Nat.mul_comm]; exact hdiv]
    have hsize : (if size < pos + BitVec.ofNat 32 n then pos + BitVec.ofNat 32 n else size).toNat =
        max size.toNat (pos.toNat + n) := by
      split
      · next hlt =>
        have := BitVec.lt_def.mp hlt
        omega
      · next hlt =>
        have : ¬ size.toNat < _ := fun h => hlt (BitVec.lt_def.mpr h)
        omega
    have hdrop := List.length_drop (i := n) (l := bs)
    rw [hw.size, hpos, if_neg hb, hsize]
    by_cases hd : bs.drop n = []
    · rw [if_pos hd]
      rw [hd, List.length_nil] at hdrop
      omega
    · rw [if_neg hd, hdrop]
      omega

end WriteLoop

/-! ### The calls -/

namespace OpenFile

variable {f : OpenFile} {a : ByteFile} {bs : List Byte}

/-- **The file is the array.** -/
structure Is (f : OpenFile) (a : ByteFile) : Prop where
  inv : f.vol.ZoneInv
  clean : f.vol.Clean
  used : f.vol.imap f.ino = true
  bytes : ∀ q < maxBytes, f.vol.bytes f.ino q = a.data q
  size : f.size.toNat = a.size
  sizeMax : a.size ≤ maxBytes
  pos : f.pos.toNat = a.pos
  posMax : a.pos ≤ maxBytes
  mode : f.mode ≠ 0#16 ∧ f.mode ≠ 1#16

/-- No position from `(7 + 512) * 1024` on is written, and no zone is missing or beyond the data zones. -/
def InBounds (f : OpenFile) : FileOp → Prop
  | .seek offset => offset.toNat < maxBytes
  | .write bs =>
    f.pos.toNat + bs.length ≤ maxBytes ∧ (f.sysWrite bs).1.value = bs.length ∧ (f.sysWrite bs).2.vol.Fits
  | .read _ => True

/-- `f_pos` after a call that returned `n`. -/
theorem pos_add {pos : Word} {n : ℕ} (h : pos.toNat + n < 2 ^ 32) :
    (if (0 : ℤ) < n then pos + BitVec.ofInt 32 n else pos).toNat = pos.toNat + n := by
  split
  · rw [BitVec.ofInt_natCast, BitVec.toNat_add, BitVec.toNat_ofNat]
    omega
  · omega

theorem sysWrite_eq (hm : f.mode ≠ 0#16) (bs : List Byte) :
    f.sysWrite bs = (⟨(f.fileWrite bs).1, []⟩, { f with
      vol := (f.fileWrite bs).2.1
      size := (f.fileWrite bs).2.2
      pos := if 0 < (f.fileWrite bs).1 then f.pos + BitVec.ofInt 32 (f.fileWrite bs).1 else f.pos }) := if_neg hm

theorem Is.write (h : f.Is a) (hb : f.InBounds (.write bs)) :
    (f.step (.write bs)).1 = (a.step (.write bs)).1 ∧ (f.step (.write bs)).2.Is (a.step (.write bs)).2 := by
  obtain ⟨hend, hall, hfits⟩ := hb
  have hmax : maxBytes < 2 ^ 31 := by decide
  have heq := sysWrite_eq h.mode.1 bs
  rw [heq] at hall hfits
  dsimp only at hall hfits
  have hw : FileWrote f.ino f.vol f.size f.pos.toNat bs (f.fileWrite bs).2.1 (f.fileWrite bs).2.2 :=
    fileWriteLoop_wrote (Nat.lt_succ_self bs.length) h.inv h.clean h.used hend
      (hall.trans (Int.zero_add _).symm) hfits
  have hpos : (if 0 < (f.fileWrite bs).1 then f.pos + BitVec.ofInt 32 (f.fileWrite bs).1 else f.pos).toNat =
      f.pos.toNat + bs.length := by
    rw [hall]
    exact pos_add (by omega)
  show (f.sysWrite bs).1 = _ ∧ (f.sysWrite bs).2.Is _
  rw [heq]
  refine ⟨?_, hw.inv, hw.clean, hw.used, fun q hq => ?_, ?_, ?_, ?_, ?_, h.mode⟩
  · exact congrArg (FileAnswer.mk · []) hall
  · refine (congrFun hw.bytes q).trans ?_
    rw [h.pos]
    unfold overwrite
    rw [h.bytes q hq]
    rfl
  · refine hw.size.trans ?_
    rw [h.size, h.pos]
    rfl
  · have := h.sizeMax
    show (if bs = [] then a.size else max a.size (a.pos + bs.length)) ≤ maxBytes
    rw [← h.pos]
    split <;> omega
  · exact hpos.trans (by rw [h.pos]; rfl)
  · show a.pos + bs.length ≤ maxBytes
    rw [← h.pos]
    exact hend

theorem zone_minode (hi : f.vol.imap f.ino = true) {k : ℕ} (hk : k < 519) :
    f.minode.zone (fun _ z => some (f.vol.block z)) k = some (f.vol.ref (Vol.placeOf f.ino ⟨k, hk⟩)).toNat := by
  unfold MInode.zone Vol.placeOf
  by_cases h7 : k < 7
  · rw [dif_pos h7, dif_pos h7]
    have hz : f.minode.iZone ⟨k, by omega⟩ = f.vol.zone f.ino ⟨k, by omega⟩ := dif_pos (by simp; omega)
    have hr : f.vol.ref (.direct f.ino ⟨k, by omega⟩) = f.vol.zone f.ino ⟨k, by omega⟩ := if_pos hi
    rw [hz, hr]
  rw [dif_neg h7, dif_neg h7]
  have hz : f.minode.iZone 7 = f.vol.zone f.ino 7 := rfl
  rw [hz]
  by_cases h0 : f.vol.zone f.ino 7 = 0#16
  · have hr : f.vol.ref (.indirect f.ino ⟨k - 7, by omega⟩) = 0#16 := if_neg fun h => h.2 h0
    rw [if_pos h0, hr]
    rfl
  · rw [if_neg h0, Vol.ref_indirect hi h0]
    rfl

/-- What `file_read` finds at a position. -/
theorem byteAt_minode (hi : f.vol.imap f.ino = true) {q : ℕ} (hq : q < maxBytes) :
    f.minode.byteAt (fun _ z => some (f.vol.block z)) q = some (f.vol.bytes f.ino q) := by
  have hk : q / blockSize < 519 := Nat.div_lt_of_lt_mul ((Nat.mul_comm 519 blockSize).symm ▸ hq)
  unfold MInode.byteAt Vol.bytes Vol.slot
  rw [zone_minode hi hk, dif_pos hk]
  dsimp only
  by_cases h0 : f.vol.ref (Vol.placeOf f.ino ⟨q / blockSize, hk⟩) = 0#16
  · rw [if_pos h0, if_pos (by rw [h0]; rfl)]
  have hne : (f.vol.ref (Vol.placeOf f.ino ⟨q / blockSize, hk⟩)).toNat ≠ 0 := fun e => h0 (BitVec.eq_of_toNat_eq e)
  rw [if_neg h0, if_neg hne]
  rfl

theorem sysRead_eq (hm : f.mode ≠ 1#16) (count : Word) {n : ℕ}
    (hr : fileRead (fun _ z => some (f.vol.block z)) f.minode f.pos count.toInt = ((n : ℤ), bs)) :
    f.sysRead count = (⟨n, bs⟩, { f with pos := if (0 : ℤ) < n then f.pos + BitVec.ofInt 32 n else f.pos }) := by
  unfold sysRead
  rw [if_neg hm, hr]

theorem Is.read (h : f.Is a) (count : Word) :
    (f.step (.read count)).1 = (a.step (.read count)).1 ∧ (f.step (.read count)).2.Is (a.step (.read count)).2 := by
  have hmax : maxBytes < 2 ^ 31 := by decide
  have hsize := h.size
  have hsizeMax := h.sizeMax
  have hpos := h.pos
  have hposMax := h.posMax
  generalize hn : min count.toInt.toNat (a.size - a.pos) = n
  have hread : fileRead (fun _ z => some (f.vol.block z)) f.minode f.pos count.toInt =
      ((n : ℤ), (List.range n).map fun k => a.data (a.pos + k)) := by
    have hroom : f.pos < f.minode.iSize → (f.minode.iSize - f.pos).toNat < 2 ^ 31 := by
      intro hlt
      have hs : f.minode.iSize.toNat = a.size := hsize
      rw [BitVec.toNat_sub_of_le (BitVec.le_of_lt hlt), hs]
      omega
    have hs : f.minode.iSize.toNat = a.size := hsize
    have hbytes : f.minode.bytesFrom (fun _ z => some (f.vol.block z)) a.pos (n + 0) =
        ((List.range n).map fun k => a.data (a.pos + k)) ++ [] := by
      refine MInode.bytesFrom_add (fun k hk => ?_) 0
      rw [byteAt_minode h.used (by omega), h.bytes _ (by omega)]
    rw [Nat.add_zero, List.append_nil] at hbytes
    rw [fileRead, fileReadLoop_eq (Nat.lt_succ_self _) hroom rfl, hs, hpos, hn, hbytes]
    simp
  show (f.sysRead count).1 = _ ∧ (f.sysRead count).2.Is _
  rw [sysRead_eq h.mode.2 count hread]
  dsimp only [ByteFile.step]
  rw [hn]
  refine ⟨rfl, h.inv, h.clean, h.used, h.bytes, hsize, hsizeMax, ?_, ?_, h.mode⟩
  · exact (pos_add (by omega)).trans (by rw [hpos])
  · show a.pos + n ≤ maxBytes
    omega

theorem Is.seek (h : f.Is a) {offset : Word} (hb : f.InBounds (.seek offset)) :
    (f.step (.seek offset)).1 = (a.step (.seek offset)).1 ∧
      (f.step (.seek offset)).2.Is (a.step (.seek offset)).2 := by
  have hlt : offset.toNat < maxBytes := hb
  have hmax : maxBytes < 2 ^ 31 := by decide
  have hint : offset.toInt = offset.toNat := BitVec.toInt_eq_toNat_of_lt (by omega)
  refine ⟨congrArg (FileAnswer.mk · []) hint, h.inv, h.clean, h.used, h.bytes, h.size, h.sizeMax, rfl, ?_, h.mode⟩
  exact hlt.le

theorem Is.step (h : f.Is a) {op : FileOp} (hb : f.InBounds op) :
    (f.step op).1 = (a.step op).1 ∧ (f.step op).2.Is (a.step op).2 := by
  cases op with
  | seek offset => exact h.seek hb
  | write bs => exact h.write hb
  | read count => exact h.read count

/-- A file that has just been created, and opened for reading and writing. -/
structure Created (f : OpenFile) : Prop where
  inv : f.vol.ZoneInv
  used : f.vol.imap f.ino = true
  zones : ∀ k, f.vol.zone f.ino k = 0#16
  size : f.size = 0#32
  pos : f.pos = 0#32
  mode : f.mode ≠ 0#16 ∧ f.mode ≠ 1#16

/-- Nothing can be read of it. -/
theorem Created.is (h : f.Created) (hc : f.vol.Clean) : f.Is {} := by
  refine ⟨h.inv, hc, h.used, fun q _ => ?_, by rw [h.size]; rfl, Nat.zero_le _, by rw [h.pos]; rfl, Nat.zero_le _,
    h.mode⟩
  have hhole : ∀ k, f.vol.ref (Vol.placeOf f.ino k) = 0#16 := by
    intro k
    unfold Vol.placeOf
    split
    · exact (if_pos h.used).trans (h.zones _)
    · exact if_neg fun hc => hc.2 (h.zones 7)
  unfold Vol.bytes Vol.slot
  split
  · rw [if_pos (hhole _)]
  · rfl

/-- **A file behaves as a zero-filled array of bytes**, if the free zones hold zeroes when it is
created. -/
theorem file_is_bytes (f : OpenFile) (ops : List FileOp) (h : f.Created) (hc : f.vol.Clean)
    (hb : Run.Guarded (fun f op => (OpenFile.step f op).2) InBounds f ops) :
    Run.answers OpenFile.step f ops = Run.answers ByteFile.step {} ops ∧
      (Run.final OpenFile.step f ops).size.toNat = (Run.final ByteFile.step {} ops).size := by
  obtain ⟨hanswers, his⟩ := Run.Guarded.sim (fun h hb => h.step hb) hb (h.is hc)
  exact ⟨hanswers, his.size⟩

/-! ### A new file on a used disk -/

/-- `lseek(fd, 1, SEEK_SET)`, `write(fd, "B", 1)`, `lseek(fd, 0, SEEK_SET)`, `read(fd, buf, 2)`. -/
def skipOne : List FileOp := [.seek 1#32, .write [0x42#8], .seek 0#32, .read 2#32]

/-- The inode 2, new on a disk that has only been formatted. -/
def onFresh : OpenFile := ⟨Vol.rootImage.run [.create 2], 2, 0#32, 0#32, 0x42#16⟩

/-- The inode 2, new on a disk where a file that held "A" has been deleted. -/
def onUsed : OpenFile :=
  ⟨Vol.rootImage.run [.create 2, .write 2 0 0 [0x41#8], .truncate 2, .forget 2, .create 2], 2, 0#32, 0#32, 0x42#16⟩

theorem rootImage_clean : Vol.rootImage.Clean := by
  intro j _ _
  show (if 20 ≤ 20 + j ∧ 20 + j < 20 + 1 then [Vol.blankBlock].getD (20 + j - 20) fun _ => 0#8
    else if 7 < 1 ∧ 20 + j = 20 + 1 then Vol.indBlock 20 1 else fun _ => 0#8) = fun _ => 0#8
  split
  · cases j with
    | zero => rfl
    | succ j => omega
  · exact if_neg fun h => absurd h.1 (show ¬ 7 < 1 by decide)

theorem file_is_bytes_onFresh :
    Run.answers OpenFile.step onFresh skipOne = Run.answers ByteFile.step {} skipOne := by
  have hfits : onFresh.vol.Fits := Vol.rootImage_fits (n := 0) (fun _ _ => rfl) rfl rfl (by decide)
  have hcreated : onFresh.Created :=
    ⟨(Vol.mkminix_inv Vol.mkminix_root).run ⟨⟨hfits, nofun⟩, trivial⟩, by decide, by decide, rfl, rfl, by decide⟩
  have hwrite : ((onFresh.sysLseek 1#32 0).2.sysWrite [0x42#8]).2.vol.Fits :=
    Vol.rootImage_fits (fun _ hj => update_of_ne hj.ne' ..) rfl rfl (by decide)
  refine (file_is_bytes onFresh skipOne hcreated rootImage_clean ?_).1
  exact ⟨show (1#32).toNat < maxBytes by decide, ⟨by decide, by decide, hwrite⟩,
    show (0#32).toNat < maxBytes by decide, trivial, trivial⟩

/-- **The old file's byte is read.** -/
theorem file_shows_deleted :
    (∀ k, onUsed.vol.zone onUsed.ino k = 0#16) ∧
      Run.answers OpenFile.step onUsed skipOne = [⟨1, []⟩, ⟨1, []⟩, ⟨0, []⟩, ⟨2, [0x41#8, 0x42#8]⟩] ∧
      Run.answers ByteFile.step {} skipOne = [⟨1, []⟩, ⟨1, []⟩, ⟨0, []⟩, ⟨2, [0#8, 0x42#8]⟩] := by
  decide

end OpenFile

end Linux001

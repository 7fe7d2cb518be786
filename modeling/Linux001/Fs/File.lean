import Linux001.Kernel.Task

/-!
# Fs — reading a file

`struct m_inode` and `file_read()` of `fs/file_dev.c`.  What the buffer cache returns for a
block is a parameter, `Bread`: the block's bytes, or `none` when `bread()` fails.
-/

namespace Linux001

/-- `b_data` of a buffer.  Offsets from 1024 on are whatever follows the buffer in memory. -/
abbrev Block := ℕ → Byte

/-- `bread(dev, block)`. -/
abbrev Bread := BitVec 16 → ℕ → Option Block

/-- `struct m_inode`. -/
structure MInode where
  iMode : BitVec 16 := 0#16
  iUid : BitVec 16 := 0#16
  iSize : Word := 0#32
  iMtime : Word := 0#32
  iGid : Byte := 0#8
  iNlinks : Byte := 0#8
  iZone : Fin 9 → BitVec 16 := fun _ => 0#16
  iDev : BitVec 16 := 0#16
  iNum : Word := 0#32
  iCount : Byte := 0#8
  iDirt : Bool := false
  iPipe : Bool := false

/-- The in-core inodes and the blocks behind them, as `file_read` sees them. -/
structure FsView where
  inode : InodeRef → MInode
  bread : Bread

def blockSize : ℕ := 1024

/-- `NR_BUFFERS`. -/
def nrBuffers : ℕ := 256

/-- `((unsigned short *)b_data)[k]`. -/
def Block.short (b : Block) (k : ℕ) : BitVec 16 := b (2 * k + 1) ++ b (2 * k)

/-- The zone that holds block `k` of a file, `some 0` for a hole; `none` when the indirect
block cannot be read. -/
def MInode.zone (ino : MInode) (bread : Bread) (k : ℕ) : Option ℕ :=
  if h : k < 7 then some (ino.iZone ⟨k, by omega⟩).toNat
  else if ino.iZone 7 = 0#16 then some 0
  else (bread ino.iDev (ino.iZone 7).toNat).map fun b => (Block.short b (k - 7)).toNat

/-- The loop of `file_read`.  `out` are the bytes stored so far, in order.  The count and the
result are C `int`s, and so is the room left in the file: past `2 ^ 31` it is negative, the
pass stores nothing and moves `pos` to the end. -/
def fileReadLoop (bread : Bread) (ino : MInode) :
    ℕ → Word → ℤ → ℤ → List Byte → ℤ × List Byte
  | 0, _, _, result, out => (result, out)
  | fuel + 1, pos, count, result, out =>
    if 0 < count ∧ pos < ino.iSize then
      match ino.zone bread (pos.toNat / blockSize) with
      | none => (result, out)
      | some block =>
        let offset := pos.toNat % blockSize
        let size : ℤ := min (min ((blockSize - offset : ℕ) : ℤ) count) (ino.iSize - pos).toInt
        let next := fun (data : Block) =>
          fileReadLoop bread ino fuel (pos + BitVec.ofInt 32 size) (count - size) (result + size)
            (out ++ (List.range size.toNat).map fun k => data (offset + k))
        if block = 0 then next fun _ => 0#8
        else
          match bread ino.iDev block with
          | none => (result, out)
          | some data => next data
    else (result, out)

/-- **`file_read`.**  The value returned, and the bytes stored at `buf`, `buf + 1`, …  Every
pass that does not end the loop lowers `count`, so `count + 1` passes are enough. -/
def fileRead (bread : Bread) (ino : MInode) (pos : Word) (count : ℤ) : ℤ × List Byte :=
  fileReadLoop bread ino (count.toNat + 1) pos count 0 []

/-! ### Bytes of a page -/

/-- The byte at offset `o` of a page; words are little endian. -/
def getByte (p : Page) (o : Fin 4096) : Byte :=
  (p ⟨o.val / 4, by have := o.isLt; omega⟩).extractLsb' (8 * (o.val % 4)) 8

/-- `w` with byte `j` replaced. -/
def setByteWord (w : Word) (j : ℕ) (b : Byte) : Word :=
  (w &&& ~~~(0xFF#32 <<< (8 * j))) ||| (b.setWidth 32 <<< (8 * j))

/-- A page with the byte at offset `o` replaced. -/
def setByte (p : Page) (o : Fin 4096) (b : Byte) : Page :=
  Function.update p ⟨o.val / 4, by have := o.isLt; omega⟩
    (setByteWord (p ⟨o.val / 4, by have := o.isLt; omega⟩) (o.val % 4) b)

/-- `put_fs_byte(bs[k], page + k)` for every `k`. -/
def putBytes (p : Page) (bs : List Byte) : Page :=
  bs.zipIdx.foldl (fun p x => if h : x.2 < 4096 then setByte p ⟨x.2, h⟩ x.1 else p) p

/-! ### An image page -/

/-- **`page_in_image`.**  Fills the fresh page of `va` from the executable.  The result is `1`
if the page was filled, `0` for the zero tail of a segment, `-1` if the address is not part of
the image or the file is too short; the bytes that were read stay in the page. -/
def pageInImage (fs : FsView) (t : Task) (va : Word) (p : Page) : ℤ × Page :=
  match t.exeInode with
  | none => (-1, p)
  | some e =>
    match t.regionAt va with
    | none => (-1, p)
    | some r =>
      let delta := va - r.va
      if r.filesz ≤ delta then (0, p)
      else
        let n := min (r.filesz - delta).toNat pageSize
        let rd := fileRead fs.bread (fs.inode e) (r.fileOff + delta) n
        (if rd.1 = n then 1 else -1, putBytes p rd.2)

end Linux001

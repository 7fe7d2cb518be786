import Linux001.Fs.ZoneInv
import Linux001.Lib.Bits
import Linux001.Lib.Run

/-!
# Fs — the bitmaps on the disk

`new_block()`, `free_block()` and `new_inode()` of `fs/bitmap.c` on the bytes of the bitmap blocks.
The loops run over whole blocks of 8192 bits.  The image has 1004 data zones and 512 inodes, and
`mkminix` leaves the bits behind them clear, so the loops go on into that padding when the last zone
or the last inode is in use.

* `scan_some`, `scan_none`: the two loops find the first clear bit of the blocks that can be read.
* `allocators_in_range_iff`: the allocators stay inside the filesystem, and `free_block` undoes
  `new_block`, exactly as long as a zone and an inode of the filesystem is free or the padding is set.
* `full_disk_leaves_range`: on a full disk they return zone 1024, the first of the swap area, and
  inode 513.
* `maps_run`: the map of `Fs.Zone` is these bits.
-/

namespace Linux001

open Function BitVec Vol

/-! ### The bits of a block -/

namespace Block

/-- `b_data[j / 8] & (1 << (j % 8))`. -/
def bit (b : Block) (j : ℕ) : Bool := Bits.has (b (j / 8)) (BitVec.twoPow 8 (j % 8))

/-- `b_data[j / 8] |= 1 << (j % 8)`. -/
def setBit (b : Block) (j : ℕ) : Block :=
  update b (j / 8) (b (j / 8) ||| BitVec.twoPow 8 (j % 8))

/-- `b_data[j / 8] &= ~(1 << (j % 8))`. -/
def clearBit (b : Block) (j : ℕ) : Block :=
  update b (j / 8) (b (j / 8) &&& ~~~(BitVec.twoPow 8 (j % 8)))

theorem bit_eq (b : Block) (j : ℕ) : b.bit j = (b (j / 8)).getLsbD (j % 8) := Bits.has_twoPow _ _

theorem bit_setBit (b : Block) (j k : ℕ) : (b.setBit j).bit k = (decide (k = j) || b.bit k) := by
  have hlt : k % 8 < 8 := Nat.mod_lt _ (by omega)
  rw [bit_eq, bit_eq, setBit]
  by_cases hbyte : k / 8 = j / 8
  · rw [hbyte, update_self, getLsbD_or, getLsbD_twoPow, Bool.or_comm]
    congr 1
    rw [Bool.eq_iff_iff, Bool.and_eq_true, decide_eq_true_iff, decide_eq_true_iff, decide_eq_true_iff]
    omega
  · have hne : k ≠ j := fun h => hbyte (by rw [h])
    rw [update_of_ne hbyte, decide_eq_false hne, Bool.false_or]

theorem bit_clearBit (b : Block) (j k : ℕ) : (b.clearBit j).bit k = (decide (k ≠ j) && b.bit k) := by
  have hlt : k % 8 < 8 := Nat.mod_lt _ (by omega)
  rw [bit_eq, bit_eq, clearBit]
  by_cases hbyte : k / 8 = j / 8
  · rw [hbyte, update_self, getLsbD_and, getLsbD_not, getLsbD_twoPow, Bool.and_comm]
    congr 1
    rw [Bool.eq_iff_iff]
    simp only [Bool.and_eq_true, Bool.not_eq_true', Bool.and_eq_false_imp, decide_eq_true_iff,
      decide_eq_false_iff_not]
    omega
  · have hne : k ≠ j := fun h => hbyte (by rw [h])
    rw [update_of_ne hbyte, decide_eq_true hne, Bool.true_and]

/-- Clearing a bit that was clear before it was set brings the block back. -/
theorem clearBit_setBit {b : Block} {j : ℕ} (h : b.bit j = false) : (b.setBit j).clearBit j = b := by
  rw [bit_eq] at h
  unfold clearBit setBit
  rw [update_self, update_idem]
  have hbyte : (b (j / 8) ||| twoPow 8 (j % 8)) &&& ~~~(twoPow 8 (j % 8)) = b (j / 8) := by
    apply eq_of_getLsbD_eq
    intro k hk
    simp only [getLsbD_and, getLsbD_or, getLsbD_not, getLsbD_twoPow, hk,
      decide_true, Bool.true_and]
    by_cases e : j % 8 = k
    · rw [← e, h]
      simp
    · simp [e]
  rw [hbyte, update_eq_self]

end Block

/-! ### The maps -/

/-- What `fs/bitmap.c` reads of `struct super_block`. -/
structure SuperBlock where
  ninodes : BitVec 16
  nzones : BitVec 16
  imapBlocks : BitVec 16
  zmapBlocks : BitVec 16
  firstdatazone : BitVec 16

/-- The device as `bread` gives it: which blocks can be read, and their bytes. -/
structure Device where
  readable : ℕ → Bool
  block : ℕ → Block

namespace Device

/-- Bit `k` of the map that begins at block `base`. -/
def bit (d : Device) (base k : ℕ) : Bool := (d.block (base + k / 8192)).bit (k % 8192)

/-- A bit that `bread` gives access to, and that is clear. -/
def Free (d : Device) (base k : ℕ) : Prop := d.readable (base + k / 8192) = true ∧ d.bit base k = false

def setBlock (d : Device) (n : ℕ) (b : Block) : Device := { d with block := update d.block n b }

/-- The loops of `new_block` and `new_inode`: block by block, and bit by bit in each. -/
def scan (d : Device) (base : ℕ) : ℕ → ℕ → Option (ℕ × ℕ)
  | _, 0 => none
  | i, n + 1 =>
    if d.readable (base + i) = true then
      match Vol.findClear (d.block (base + i)).bit 0 8192 with
      | some j => some (i, j)
      | none => scan d base (i + 1) n
    else scan d base (i + 1) n

end Device

/-- `2 + sb->s_imap_blocks`: the first block of the zone map. -/
def SuperBlock.zmapBase (sb : SuperBlock) : ℕ := 2 + sb.imapBlocks.toNat

/-- **`new_block`.** -/
def newBlock (sb : SuperBlock) (d : Device) : ℕ × Device :=
  match d.scan sb.zmapBase 0 sb.zmapBlocks.toNat with
  | none => (0, d)
  | some (i, j) =>
    (sb.firstdatazone.toNat + i * 8192 + j, d.setBlock (sb.zmapBase + i) ((d.block (sb.zmapBase + i)).setBit j))

/-- **`free_block`.** -/
def freeBlock (sb : SuperBlock) (d : Device) (z : ℕ) : Device :=
  if z < sb.firstdatazone.toNat ∨ sb.nzones.toNat ≤ z then d
  else
    let bit := z - sb.firstdatazone.toNat
    let n := sb.zmapBase + bit / 8192
    if d.readable n = false then d
    else if (d.block n).bit (bit % 8192) then d.setBlock n ((d.block n).clearBit (bit % 8192))
    else d

/-- **`new_inode`**, up to the number of the inode.  `room` says for which inodes `iget` has a slot. -/
def newInode (sb : SuperBlock) (d : Device) (room : ℕ → Bool) : Option ℕ × Device :=
  match d.scan 2 0 sb.imapBlocks.toNat with
  | none => (none, d)
  | some (i, j) =>
    (if room (i * 8192 + j + 1) then some (i * 8192 + j + 1) else none,
      d.setBlock (2 + i) ((d.block (2 + i)).setBit j))

/-! ### What the loops find -/

theorem findClear_none {zmap : ℕ → Bool} {a n : ℕ} (h : findClear zmap a n = none) :
    ∀ j, a ≤ j → j < a + n → zmap j = true := by
  induction n generalizing a with
  | zero => intro j h₁ h₂; omega
  | succ n ih =>
    unfold findClear at h
    split at h
    · next ha =>
      intro j h₁ h₂
      by_cases e : j = a
      · rw [e, ha]
      · exact ih h j (by omega) (by omega)
    · cases h

/-- Everything the loops say about the bit that they stop at. -/
structure Device.First (d : Device) (base a n i j : ℕ) : Prop where
  bound : j < 8192
  low : a ≤ i
  high : i < a + n
  free : d.Free base (i * 8192 + j)
  least : ∀ k, a ≤ k / 8192 → d.Free base k → i * 8192 + j ≤ k

namespace Device

variable {d : Device} {base : ℕ} {i : ℕ}

/-- The bits of a block of the map. -/
theorem free_of_bit {j : ℕ} (hj : j < 8192) (hr : d.readable (base + i) = true)
    (hbit : (d.block (base + i)).bit j = false) : d.Free base (i * 8192 + j) := by
  have hdiv : (i * 8192 + j) / 8192 = i := by omega
  have hmod : (i * 8192 + j) % 8192 = j := by omega
  rw [Free, bit, hdiv, hmod]
  exact ⟨hr, hbit⟩

/-- Nothing is free in a block that the inner loop has passed. -/
theorem not_free_of_passed {k : ℕ} (hk : k / 8192 = i)
    (h : d.readable (base + i) = true → findClear (d.block (base + i)).bit 0 8192 = none) :
    ¬d.Free base k := by
  intro hfree
  subst hk
  have hset := findClear_none (h hfree.1) (k % 8192) (by omega) (by omega)
  rw [← bit, hfree.2] at hset
  cases hset

/-- **If the loops find nothing, no bit is free.** -/
theorem scan_none {a n : ℕ} (h : d.scan base a n = none) :
    ∀ k, a ≤ k / 8192 → k / 8192 < a + n → ¬d.Free base k := by
  induction n generalizing a with
  | zero => intro k h₁ h₂; omega
  | succ n ih =>
    intro k hlow hhigh
    have hstep : (d.readable (base + a) = true →
        findClear (d.block (base + a)).bit 0 8192 = none) ∧ d.scan base (a + 1) n = none := by
      unfold scan at h
      split at h
      · split at h
        · cases h
        · next hc => exact ⟨fun _ => hc, h⟩
      · next hr => exact ⟨fun h' => absurd h' hr, h⟩
    by_cases e : k / 8192 = a
    · exact not_free_of_passed e hstep.1
    · exact ih hstep.2 k (by omega) (by omega)

/-- **The loops find the first clear bit** of the blocks that can be read. -/
theorem scan_some {a n j : ℕ} (h : d.scan base a n = some (i, j)) : d.First base a n i j := by
  induction n generalizing a with
  | zero => cases h
  | succ n ih =>
    -- the rest of the loop, after a block without a clear bit
    have hrest (hpass : d.readable (base + a) = true → findClear (d.block (base + a)).bit 0 8192 = none)
        (h : d.scan base (a + 1) n = some (i, j)) : d.First base a (n + 1) i j := by
      obtain ⟨hbound, hlow, hhigh, hfree, hleast⟩ := ih h
      refine ⟨hbound, by omega, by omega, hfree, ?_⟩
      intro k hk hkfree
      by_cases e : k / 8192 = a
      · exact absurd hkfree (not_free_of_passed e hpass)
      · exact hleast k (by omega) hkfree
    unfold scan at h
    split at h
    · next hr =>
      split at h
      · next j' hj' =>
        obtain ⟨rfl, rfl⟩ := Prod.mk.inj (Option.some.inj h)
        obtain ⟨hclear, -, hlt, hset⟩ := findClear_some hj'
        refine ⟨by omega, le_rfl, by omega, free_of_bit (by omega) hr hclear, ?_⟩
        intro k hk hkfree
        by_contra hbefore
        have hdiv : k / 8192 = a := by omega
        have hbit := hset (k % 8192) (by omega) (by omega)
        rw [← hdiv, ← bit, hkfree.2] at hbit
        cases hbit
      · next hc => exact hrest (fun _ => hc) h
    · next hr => exact hrest (fun h' => absurd h' hr) h

@[simp] theorem setBlock_readable (n : ℕ) (b : Block) : (d.setBlock n b).readable = d.readable := rfl

theorem setBlock_self (n : ℕ) (b : Block) : (d.setBlock n b).block n = b := update_self ..

theorem setBlock_of_ne {m n : ℕ} {b : Block} (h : m ≠ n) : (d.setBlock n b).block m = d.block m :=
  update_of_ne h ..

/-- A bit of the map is set; no other one changes. -/
theorem bit_setBlock {j : ℕ} (hj : j < 8192) (k : ℕ) :
    (d.setBlock (base + i) ((d.block (base + i)).setBit j)).bit base k =
      (decide (k = i * 8192 + j) || d.bit base k) := by
  rw [bit, bit]
  by_cases e : k / 8192 = i
  · rw [e, setBlock_self, Block.bit_setBit]
    congr 1
    rw [Bool.eq_iff_iff, decide_eq_true_iff, decide_eq_true_iff]
    omega
  · have hk : k ≠ i * 8192 + j := by omega
    rw [setBlock_of_ne (by omega), decide_eq_false hk, Bool.false_or]

end Device

/-! ### The allocators -/

/-- The map has a free bit below `n`, or none at all. -/
def Device.Spare (d : Device) (base blocks n : ℕ) : Prop :=
  (∃ k < n, k / 8192 < blocks ∧ d.Free base k) ∨ ∀ k, k / 8192 < blocks → ¬d.Free base k

/-- The first free bit of the map. -/
structure Device.Least (d : Device) (base blocks k : ℕ) : Prop where
  bound : k / 8192 < blocks
  free : d.Free base k
  least : ∀ k' < k, ¬d.Free base k'

section Allocators

variable {sb : SuperBlock} {d : Device} {j n : ℕ}

/-- A free bit of the filesystem keeps the loops from going on behind it. -/
theorem Device.First.lt_of_spare {base blocks i : ℕ} (h : d.First base 0 blocks i j)
    (hs : d.Spare base blocks n) : i * 8192 + j < n := by
  obtain ⟨k, hk, -, hfree⟩ | hnone := hs
  · exact lt_of_le_of_lt (h.least k (Nat.zero_le _) hfree) hk
  have hb := h.bound
  have hhigh := h.high
  exact absurd h.free (hnone _ (by omega))

/-- **`free_block` undoes `new_block`.** -/
theorem freeBlock_setBit {i : ℕ} (hj : j < 8192) (hfree : d.Free sb.zmapBase (i * 8192 + j))
    (hlt : sb.firstdatazone.toNat + (i * 8192 + j) < sb.nzones.toNat) :
    freeBlock sb (d.setBlock (sb.zmapBase + i) ((d.block (sb.zmapBase + i)).setBit j))
      (sb.firstdatazone.toNat + i * 8192 + j) = d := by
  have hbit : sb.firstdatazone.toNat + i * 8192 + j - sb.firstdatazone.toNat = i * 8192 + j := by omega
  have hdiv : (i * 8192 + j) / 8192 = i := by omega
  have hmod : (i * 8192 + j) % 8192 = j := by omega
  obtain ⟨hr, hclear⟩ := hfree
  rw [Device.bit, hdiv, hmod] at hclear
  rw [hdiv] at hr
  have hset : ((d.block (sb.zmapBase + i)).setBit j).bit j = true := by
    rw [Block.bit_setBit, decide_eq_true rfl, Bool.true_or]
  unfold freeBlock
  rw [if_neg (by omega), hbit]
  simp only [hdiv, hmod, Device.setBlock_readable, hr, Device.setBlock_self, hset, if_true,
    Bool.true_eq_false, if_false, Block.clearBit_setBit hclear]
  unfold Device.setBlock
  rw [update_idem, update_eq_self]

/-- What an allocation does to a map: bit `k` was clear and is set, and the other bits are as before. -/
structure Device.Takes (d : Device) (base k : ℕ) (d' : Device) : Prop where
  clear : d.bit base k = false
  set : d'.bit base k = true
  others : ∀ k', k' ≠ k → d'.bit base k' = d.bit base k'

/-- What `new_block` has to do: it returns 0 and changes nothing, or a zone of the filesystem whose bit
was clear and is set, and which `free_block` gives back.  The sectors of the zone are below the swap
area. -/
def NewBlockOk (sb : SuperBlock) (d : Device) : Prop :=
  newBlock sb d = (0, d) ∨
    sb.firstdatazone.toNat ≤ (newBlock sb d).1 ∧ (newBlock sb d).1 < sb.nzones.toNat ∧
    d.Takes sb.zmapBase ((newBlock sb d).1 - sb.firstdatazone.toNat) (newBlock sb d).2 ∧
    freeBlock sb (newBlock sb d).2 (newBlock sb d).1 = d ∧
    (sb.nzones.toNat ≤ 1024 → (newBlock sb d).1 * 2 + 1 < swapStartLba)

/-- What `new_inode` has to do: an inode that it returns is in the table, and its bit was clear and is
set. -/
def NewInodeOk (sb : SuperBlock) (d : Device) (room : ℕ → Bool) : Prop :=
  ∀ n, (newInode sb d room).1 = some n →
    1 ≤ n ∧ n ≤ sb.ninodes.toNat ∧ d.Takes 2 (n - 1) (newInode sb d room).2

theorem Device.First.isLeast {base i : ℕ} (h : d.First base 0 n i j) :
    d.Least base n (i * 8192 + j) := by
  have hb := h.bound
  have hhigh := h.high
  refine ⟨by omega, h.free, fun k' hk' hfree => ?_⟩
  have hle := h.least k' (Nat.zero_le _) hfree
  omega

theorem Device.First.takes {base a i : ℕ} (h : d.First base a n i j) :
    d.Takes base (i * 8192 + j) (d.setBlock (base + i) ((d.block (base + i)).setBit j)) := by
  refine ⟨h.free.2, ?_, fun k' hk' => ?_⟩
  · rw [bit_setBlock h.bound, decide_eq_true rfl, Bool.true_or]
  · rw [bit_setBlock h.bound, decide_eq_false hk', Bool.false_or]

/-- **`new_block` stays inside the filesystem**, and `free_block` undoes it. -/
theorem newBlock_in_range
    (hs : d.Spare sb.zmapBase sb.zmapBlocks.toNat (sb.nzones.toNat - sb.firstdatazone.toNat)) :
    NewBlockOk sb d := by
  unfold NewBlockOk newBlock
  cases hscan : d.scan sb.zmapBase 0 sb.zmapBlocks.toNat with
  | none => exact .inl rfl
  | some ij =>
    obtain ⟨i, j⟩ := ij
    have hfirst := Device.scan_some hscan
    have hlt := hfirst.lt_of_spare hs
    have hbit : sb.firstdatazone.toNat + i * 8192 + j - sb.firstdatazone.toNat = i * 8192 + j := by
      omega
    refine .inr ⟨?_, ?_, ?_, ?_, fun hle => ?_⟩
    · show sb.firstdatazone.toNat ≤ sb.firstdatazone.toNat + i * 8192 + j
      omega
    · show sb.firstdatazone.toNat + i * 8192 + j < sb.nzones.toNat
      omega
    · rw [hbit]
      exact hfirst.takes
    · exact freeBlock_setBit hfirst.bound hfirst.free (by omega)
    · show (sb.firstdatazone.toNat + i * 8192 + j) * 2 + 1 < swapStartLba
      unfold swapStartLba
      omega

/-- **`new_inode` stays inside the inode table.** -/
theorem newInode_in_range {room : ℕ → Bool} (hs : d.Spare 2 sb.imapBlocks.toNat sb.ninodes.toNat) :
    NewInodeOk sb d room := by
  intro n hn
  unfold newInode at hn ⊢
  cases hscan : d.scan 2 0 sb.imapBlocks.toNat with
  | none =>
    rw [hscan] at hn
    cases hn
  | some ij =>
    obtain ⟨i, j⟩ := ij
    rw [hscan] at hn
    have hfirst := Device.scan_some hscan
    have hlt := hfirst.lt_of_spare hs
    obtain ⟨-, rfl⟩ : room (i * 8192 + j + 1) = true ∧ i * 8192 + j + 1 = n := by
      simpa using hn
    exact ⟨by omega, by omega, hfirst.takes⟩

/-- Without a free bit of the filesystem the loops stop at one behind it. -/
theorem Device.exists_scan_of_not_spare {base blocks : ℕ} (hs : ¬d.Spare base blocks n) :
    ∃ i j, d.scan base 0 blocks = some (i, j) ∧ n ≤ i * 8192 + j := by
  cases hscan : d.scan base 0 blocks with
  | none => exact absurd (.inr fun k hk => scan_none hscan k (Nat.zero_le _) (by omega)) hs
  | some ij =>
    obtain ⟨i, j⟩ := ij
    refine ⟨i, j, rfl, ?_⟩
    by_contra hlt
    have hfirst := scan_some hscan
    have hb := hfirst.bound
    have hhigh := hfirst.high
    exact hs (.inl ⟨i * 8192 + j, by omega, by omega, hfirst.free⟩)

/-- Without a free zone, `new_block` leaves the filesystem. -/
theorem spare_of_newBlock (h : NewBlockOk sb d) :
    d.Spare sb.zmapBase sb.zmapBlocks.toNat (sb.nzones.toNat - sb.firstdatazone.toNat) := by
  by_contra hs
  obtain ⟨i, j, hscan, hge⟩ := Device.exists_scan_of_not_spare hs
  unfold NewBlockOk newBlock at h
  rw [hscan] at h
  obtain h | ⟨-, hlt, -⟩ := h
  · -- the bit is set, so the device is another one
    have hfirst := Device.scan_some hscan
    have hset := hfirst.takes.set
    rw [(Prod.mk.inj h).2, hfirst.free.2] at hset
    cases hset
  · have hlt : sb.firstdatazone.toNat + i * 8192 + j < sb.nzones.toNat := hlt
    omega

/-- Without a free inode, `new_inode` leaves the inode table if `iget` has a slot. -/
theorem spare_of_newInode {room : ℕ → Bool} (h : NewInodeOk sb d room) {k : ℕ}
    (hk : d.Least 2 sb.imapBlocks.toNat k) (hroom : room (k + 1) = true) :
    d.Spare 2 sb.imapBlocks.toNat sb.ninodes.toNat := by
  by_contra hs
  obtain ⟨i, j, hscan, hge⟩ := Device.exists_scan_of_not_spare hs
  have hfirst := Device.scan_some hscan
  obtain rfl : i * 8192 + j = k := by
    have hle := hfirst.least k (Nat.zero_le _) hk.free
    by_contra hne
    exact hk.least _ (by omega) hfirst.free
  have hsome : (newInode sb d room).1 = some (i * 8192 + j + 1) := by
    unfold newInode
    rw [hscan]
    exact if_pos hroom
  have hle := (h _ hsome).2.1
  omega

/-- **The allocators stay inside the filesystem** exactly if the zone map has a free bit there or no
free bit at all, and the inode map too, unless `iget` has no slot for the first free one. -/
theorem allocators_in_range_iff (sb : SuperBlock) (d : Device) (room : ℕ → Bool) :
    NewBlockOk sb d ∧ NewInodeOk sb d room ↔
      d.Spare sb.zmapBase sb.zmapBlocks.toNat (sb.nzones.toNat - sb.firstdatazone.toNat) ∧
      (d.Spare 2 sb.imapBlocks.toNat sb.ninodes.toNat ∨
        ∀ k, d.Least 2 sb.imapBlocks.toNat k → room (k + 1) = false) := by
  constructor
  · rintro ⟨hb, hi⟩
    refine ⟨spare_of_newBlock hb, ?_⟩
    by_contra hnot
    push Not at hnot
    obtain ⟨hs, k, hk, hroom⟩ := hnot
    exact hs (spare_of_newInode hi hk (by simpa using hroom))
  · rintro ⟨hb, hi | hi⟩
    · exact ⟨newBlock_in_range hb, newInode_in_range hi⟩
    refine ⟨newBlock_in_range hb, fun n hn => ?_⟩
    unfold newInode at hn
    cases hscan : d.scan 2 0 sb.imapBlocks.toNat with
    | none =>
      rw [hscan] at hn
      cases hn
    | some ij =>
      obtain ⟨i, j⟩ := ij
      have hfirst := Device.scan_some hscan
      rw [hscan] at hn
      have hroom : room (i * 8192 + j + 1) = true := by
        by_contra hno
        cases (if_neg hno).symm.trans hn
      rw [hi _ hfirst.isLeast] at hroom
      cases hroom

end Allocators

/-- The superblock of `mkminix`. -/
def imageSuper : SuperBlock := ⟨512#16, 1024#16, 1#16, 1#16, 20#16⟩

/-- Maps whose first `ni` and `nz` bits are set, and the rest clear. -/
def usedUpTo (ni nz : ℕ) : Device where
  readable _ := true
  block n k :=
    let used := if n = 2 then ni else if n = 3 then nz else 0
    if k < used / 8 then 0xFF#8 else if k = used / 8 then BitVec.ofNat 8 (2 ^ (used % 8) - 1) else 0#8

/-- **On a full disk the allocators leave the filesystem.**  All 512 inodes and all 1004 zones are in
use: `new_block` returns zone 1024, whose first sector is the first of the swap area, `free_block`
leaves its bit set, and `new_inode` returns inode 513. -/
theorem full_disk_leaves_range :
    (newBlock imageSuper (usedUpTo 512 1004)).1 = 1024 ∧ 1024 * 2 = swapStartLba ∧
    (freeBlock imageSuper (newBlock imageSuper (usedUpTo 512 1004)).2 1024).bit 3 1004 = true ∧
    (newInode imageSuper (usedUpTo 512 1004) (fun _ => true)).1 = some 513 := by
  decide +kernel

/-! ### The maps of `Fs.Zone` -/

/-- The zone map of a volume is on the device, all of whose blocks can be read. -/
structure Device.Maps (sb : SuperBlock) (d : Device) (v : Vol) : Prop where
  first : v.firstdatazone = sb.firstdatazone.toNat
  nzones : v.nzones = sb.nzones.toNat
  bits : v.bits = sb.zmapBlocks.toNat * 8192
  zmap : ∀ k < v.bits, v.zmap k = d.bit sb.zmapBase k
  readable : ∀ n, d.readable n = true

section Maps

variable {sb : SuperBlock} {d : Device} {v : Vol}

/-- **`new_block` of `Fs.Zone` is `new_block` on the bytes.** -/
theorem newBlock_maps (h : d.Maps sb v) :
    (newBlock sb d).1 = (v.newBlock.getD (0, v)).1 ∧ (newBlock sb d).2.Maps sb (v.newBlock.getD (0, v)).2 := by
  have hbits := h.bits
  have hfree : ∀ {k}, k < v.bits → (d.Free sb.zmapBase k ↔ v.zmap k = false) := fun hk => by
    rw [h.zmap _ hk]
    exact ⟨And.right, fun hb => ⟨h.readable _, hb⟩⟩
  unfold newBlock Vol.newBlock
  rcases hscan : d.scan sb.zmapBase 0 sb.zmapBlocks.toNat with _ | ⟨i, j⟩ <;>
    rcases hfind : findClear v.zmap 0 v.bits with _ | m
  · exact ⟨rfl, h⟩
  · obtain ⟨hclear, -, hm, -⟩ := findClear_some hfind
    exact absurd ((hfree (by omega)).mpr hclear) (Device.scan_none hscan m (by omega) (by omega))
  · obtain ⟨hbound, -, hhigh, hclear, -⟩ := Device.scan_some hscan
    have := (hfree (by omega)).mp hclear
    rw [findClear_none hfind _ (by omega) (by omega)] at this
    cases this
  · -- both are the least
    obtain ⟨hbound, -, hhigh, hclear, hleast⟩ := Device.scan_some hscan
    obtain ⟨hm, -, hm', hset⟩ := findClear_some hfind
    have hle := hleast m (by omega) ((hfree (by omega)).mpr hm)
    have hge : ¬i * 8192 + j < m := fun hlt => by
      have := (hfree (by omega)).mp hclear
      rw [hset _ (by omega) hlt] at this
      cases this
    obtain rfl : m = i * 8192 + j := by omega
    refine ⟨?_, h.first, h.nzones, hbits, fun k hk => ?_, h.readable⟩
    · exact (Nat.add_assoc ..).trans (congrArg (· + _) h.first.symm)
    · show update v.zmap (i * 8192 + j) true k = _
      rw [Device.bit_setBlock hbound, ← h.zmap k hk, update_apply]
      split <;> simp [*]

/-- A bit of the map is cleared; no other one changes. -/
theorem Device.bit_clearBlock (d : Device) (base k k' : ℕ) :
    (d.setBlock (base + k / 8192) ((d.block (base + k / 8192)).clearBit (k % 8192))).bit base k' =
      (decide (k' ≠ k) && d.bit base k') := by
  rw [bit, bit]
  by_cases e : k' / 8192 = k / 8192
  · rw [e, setBlock_self, Block.bit_clearBit]
    congr 1
    rw [Bool.eq_iff_iff, decide_eq_true_iff, decide_eq_true_iff]
    omega
  · have hk : k' ≠ k := fun h => e (by rw [h])
    rw [setBlock_of_ne (by omega), decide_eq_true hk, Bool.true_and]

/-- **`free_block` of `Fs.Zone` is `free_block` on the bytes.** -/
theorem freeBlock_maps (h : d.Maps sb v) (z : BitVec 16) : (freeBlock sb d z.toNat).Maps sb (v.freeBlock z) := by
  unfold freeBlock Vol.freeBlock
  rw [h.first, h.nzones]
  split
  · exact h
  simp only [h.readable, Bool.true_eq_false, if_false]
  split
  · refine ⟨rfl, rfl, h.bits, fun k hk => ?_, h.readable⟩
    show update v.zmap _ false k = _
    rw [Device.bit_clearBlock, ← h.zmap k hk, update_apply]
    split <;> simp [*]
  · next hclear =>
    refine ⟨rfl, rfl, h.bits, fun k hk => ?_, h.readable⟩
    show update v.zmap _ false k = _
    rw [update_apply]
    split
    · next e => rw [e, Device.bit, Bool.eq_false_of_not_eq_true hclear]
    · exact h.zmap k hk

/-- `new_block`, or `free_block` of a zone, with what it returns. -/
def mapOp (sb : SuperBlock) (d : Device) : Option (BitVec 16) → ℕ × Device
  | none => newBlock sb d
  | some z => (0, freeBlock sb d z.toNat)

def Vol.mapOp (v : Vol) : Option (BitVec 16) → ℕ × Vol
  | none => v.newBlock.getD (0, v)
  | some z => (0, v.freeBlock z)

/-- **The bits and the map of `Fs.Zone` are one allocator**: over any calls they return the same zones, and stay the
same map. -/
theorem maps_run (h : d.Maps sb v) (ops : List (Option (BitVec 16))) :
    Run.answers (mapOp sb) d ops = Run.answers Vol.mapOp v ops ∧
      (Run.final (mapOp sb) d ops).Maps sb (Run.final Vol.mapOp v ops) := by
  refine Run.Guarded.sim (R := Device.Maps sb) ?_ (Run.guarded_true _ d ops) h
  rintro d v (_ | z) h -
  · exact newBlock_maps h
  · exact ⟨rfl, freeBlock_maps h z⟩

theorem maps_run_image : Run.answers Vol.mapOp
    ⟨20, 1024, 8192, (usedUpTo 8 3).bit 3, fun _ => true, fun _ _ => 0, fun _ _ => 0⟩ [none, some 23#16, none] =
      [23, 0, 23] :=
  (maps_run (show (usedUpTo 8 3).Maps imageSuper _ from
    ⟨rfl, rfl, rfl, fun _ _ => rfl, fun _ => rfl⟩) _).1.symm.trans (by decide)

end Maps

end Linux001

import Linux001.Layout
import Linux001.Lib.Bits

/-!
# Mm — page-table entries

The bits of `include/linux/mm.h`, the three entries `mm/memory.c` writes and what each test on
them answers.  An entry is a plain word: `present`, `cow` and the rest are the tests
`pte & PTE_…` of the source.
-/

namespace Linux001
open Bits BitVec

def ptePresent : Word := 0x001#32
def pteRw : Word := 0x002#32
def pteUser : Word := 0x004#32
def pteAccessed : Word := 0x020#32
/-- The CPU's Dirty bit; no C code reads it. -/
def pteDirty : Word := 0x040#32
def pteCow : Word := 0x200#32
def pteSwapped : Word := 0x800#32

def present (w : Word) : Bool := has w ptePresent
def writable (w : Word) : Bool := has w pteRw
def userBit (w : Word) : Bool := has w pteUser
def accessed (w : Word) : Bool := has w pteAccessed
def cow (w : Word) : Bool := has w pteCow
def swapped (w : Word) : Bool := has w pteSwapped

/-- `PTE_SWAP_SLOT`. -/
def swapSlot (w : Word) : ℕ := (w >>> 12).toNat

/-- `pa | PTE_PRESENT | PTE_RW | PTE_USER`. -/
def mapEntry (f : Frame) : Word := frameAddr f ||| ptePresent ||| pteRw ||| pteUser

/-- `PTE_SWAPPED | (slot << 12)`. -/
def swapEntry (slot : ℕ) : Word := pteSwapped ||| (BitVec.ofNat 32 slot <<< 12)

/-- `(pte & ~PTE_RW) | PTE_COW`. -/
def cowEntry (w : Word) : Word := (w &&& ~~~pteRw) ||| pteCow

/-! ### The tests are bits -/

theorem present_eq (w : Word) : present w = w.getLsbD 0 := has_twoPow w 0
theorem writable_eq (w : Word) : writable w = w.getLsbD 1 := has_twoPow w 1
theorem userBit_eq (w : Word) : userBit w = w.getLsbD 2 := has_twoPow w 2
theorem accessed_eq (w : Word) : accessed w = w.getLsbD 5 := has_twoPow w 5
theorem cow_eq (w : Word) : cow w = w.getLsbD 9 := has_twoPow w 9
theorem swapped_eq (w : Word) : swapped w = w.getLsbD 11 := has_twoPow w 11

@[simp] theorem present_zero : present 0#32 = false := has_zero _
@[simp] theorem cow_zero : cow 0#32 = false := has_zero _
@[simp] theorem swapped_zero : swapped 0#32 = false := has_zero _

/-! ### Frames and addresses -/

/-- Two words with the same bits from 12 on name the same frame. -/
theorem frameOf_congr {w w' : Word} (h : ∀ k, k < 20 → w.getLsbD (12 + k) = w'.getLsbD (12 + k)) :
    frameOf w = frameOf w' := by
  apply eq_of_getLsbD_eq
  intro k hk
  simp only [frameOf, getLsbD_extractLsb', hk, decide_true, Bool.true_and]
  exact h k hk

/-- A word below `2 ^ 12` has no bit from 12 on. -/
theorem getLsbD_flag {c : Word} (hc : c.toNat < 4096) (k : ℕ) : c.getLsbD (12 + k) = false := by
  rw [getLsbD]
  apply Nat.testBit_lt_two_pow
  calc c.toNat < 2 ^ 12 := hc
    _ ≤ 2 ^ (12 + k) := Nat.pow_le_pow_right (by omega) (by omega)

theorem frameOf_or {w c : Word} (hc : c.toNat < 4096) : frameOf (w ||| c) = frameOf w :=
  frameOf_congr fun k _ => by simp [getLsbD_flag hc k]

theorem frameOf_and_not {w c : Word} (hc : c.toNat < 4096) : frameOf (w &&& ~~~c) = frameOf w :=
  frameOf_congr fun k hk => by
    have : 12 + k < 32 := by omega
    simp only [getLsbD_and, getLsbD_not, getLsbD_flag hc k, this, decide_true,
      Bool.not_false, Bool.and_true]

@[simp] theorem frameOf_frameAddr (f : Frame) : frameOf (frameAddr f) = f := by
  apply eq_of_getLsbD_eq
  intro k hk
  have h₁ : 12 + k < 32 := by omega
  simp [frameOf, frameAddr, hk, h₁]

theorem toNat_frameAddr (f : Frame) : (frameAddr f).toNat = f.toNat * 4096 := by
  have := f.isLt
  simp only [frameAddr, toNat_shiftLeft, toNat_setWidth, Nat.shiftLeft_eq]
  omega

/-! ### The three entries -/

@[simp] theorem frameOf_mapEntry (f : Frame) : frameOf (mapEntry f) = f := by
  unfold mapEntry
  rw [frameOf_or (by decide), frameOf_or (by decide), frameOf_or (by decide), frameOf_frameAddr]

@[simp] theorem present_mapEntry (f : Frame) : present (mapEntry f) = true := by
  simp [present_eq, mapEntry, ptePresent]

@[simp] theorem writable_mapEntry (f : Frame) : writable (mapEntry f) = true := by
  simp [writable_eq, mapEntry, pteRw]

@[simp] theorem userBit_mapEntry (f : Frame) : userBit (mapEntry f) = true := by
  simp [userBit_eq, mapEntry, pteUser]

@[simp] theorem cow_mapEntry (f : Frame) : cow (mapEntry f) = false := by
  simp [cow_eq, mapEntry, ptePresent, pteRw, pteUser, frameAddr]

@[simp] theorem swapped_mapEntry (f : Frame) : swapped (mapEntry f) = false := by
  simp [swapped_eq, mapEntry, ptePresent, pteRw, pteUser, frameAddr]

@[simp] theorem present_swapEntry (s : ℕ) : present (swapEntry s) = false := by
  simp [present_eq, swapEntry, pteSwapped]

@[simp] theorem cow_swapEntry (s : ℕ) : cow (swapEntry s) = false := by
  simp [cow_eq, swapEntry, pteSwapped]

@[simp] theorem swapped_swapEntry (s : ℕ) : swapped (swapEntry s) = true := by
  simp [swapped_eq, swapEntry, pteSwapped]

theorem swapSlot_swapEntry {s : ℕ} (hs : s < nrSwapSlots) : swapSlot (swapEntry s) = s := by
  unfold nrSwapSlots at hs
  have h₁ : swapEntry s >>> 12 = BitVec.ofNat 32 s := by
    apply eq_of_getLsbD_eq
    intro k hk
    simp only [swapEntry, getLsbD_ushiftRight, getLsbD_or, getLsbD_shiftLeft,
      getLsbD_flag (c := pteSwapped) (by decide) k, Bool.false_or, Nat.add_sub_cancel_left]
    by_cases h : 12 + k < 32
    · simp [h]
    -- a slot number has no bit from 20 on
    have : (BitVec.ofNat 32 s).getLsbD k = false := by
      rw [BitVec.getLsbD]
      apply Nat.testBit_lt_two_pow
      calc (BitVec.ofNat 32 s).toNat ≤ s := by simp [Nat.mod_le]
        _ < 2 ^ 9 := hs
        _ ≤ 2 ^ k := Nat.pow_le_pow_right (by omega) (by omega)
    simp [h, this]
  unfold swapSlot
  rw [h₁, toNat_ofNat]
  omega

theorem swapEntry_inj {s t : ℕ} (hs : s < nrSwapSlots) (ht : t < nrSwapSlots)
    (h : swapEntry s = swapEntry t) : s = t := by
  rw [← swapSlot_swapEntry hs, ← swapSlot_swapEntry ht, h]

theorem swapEntry_ne_zero (s : ℕ) : swapEntry s ≠ 0#32 := fun h => by
  have := swapped_swapEntry s
  rw [h] at this
  simp at this

@[simp] theorem frameOf_cowEntry (w : Word) : frameOf (cowEntry w) = frameOf w := by
  unfold cowEntry
  rw [frameOf_or (by decide), frameOf_and_not (by decide)]

@[simp] theorem present_cowEntry (w : Word) : present (cowEntry w) = present w := by
  simp [present_eq, cowEntry, pteRw, pteCow]

@[simp] theorem writable_cowEntry (w : Word) : writable (cowEntry w) = false := by
  simp [writable_eq, cowEntry, pteRw, pteCow]

@[simp] theorem userBit_cowEntry (w : Word) : userBit (cowEntry w) = userBit w := by
  simp [userBit_eq, cowEntry, pteRw, pteCow]

@[simp] theorem cow_cowEntry (w : Word) : cow (cowEntry w) = true := by
  simp [cow_eq, cowEntry, pteCow]

@[simp] theorem swapped_cowEntry (w : Word) : swapped (cowEntry w) = swapped w := by
  simp [swapped_eq, cowEntry, pteRw, pteCow]

/-! ### The Accessed and Dirty bits -/

/-- `w'` differs from `w` in the Accessed and Dirty bits at most, as far as the kernel can
tell. -/
structure SameEntry (w w' : Word) : Prop where
  present : present w' = present w
  writable : writable w' = writable w
  userBit : userBit w' = userBit w
  cow : cow w' = cow w
  swapped : swapped w' = swapped w
  frame : frameOf w' = frameOf w

theorem SameEntry.refl (w : Word) : SameEntry w w := ⟨rfl, rfl, rfl, rfl, rfl, rfl⟩

theorem SameEntry.symm {w w' : Word} (h : SameEntry w w') : SameEntry w' w :=
  ⟨h.present.symm, h.writable.symm, h.userBit.symm, h.cow.symm, h.swapped.symm, h.frame.symm⟩

theorem SameEntry.trans {w w' w'' : Word} (h : SameEntry w w') (h' : SameEntry w' w'') :
    SameEntry w w'' :=
  ⟨h'.present.trans h.present, h'.writable.trans h.writable, h'.userBit.trans h.userBit,
    h'.cow.trans h.cow, h'.swapped.trans h.swapped, h'.frame.trans h.frame⟩

/-- `pte & ~PTE_ACCESSED`. -/
theorem sameEntry_clear (w : Word) : SameEntry w (w &&& ~~~pteAccessed) := by
  refine ⟨?_, ?_, ?_, ?_, ?_, frameOf_and_not (by decide)⟩ <;>
    simp [present_eq, writable_eq, userBit_eq, cow_eq, swapped_eq, pteAccessed]

theorem accessed_clear (w : Word) : accessed (w &&& ~~~pteAccessed) = false := by
  simp [accessed_eq, pteAccessed]

/-- The CPU sets Accessed on every touch. -/
theorem sameEntry_access (w : Word) : SameEntry w (w ||| pteAccessed) := by
  refine ⟨?_, ?_, ?_, ?_, ?_, frameOf_or (by decide)⟩ <;>
    simp [present_eq, writable_eq, userBit_eq, cow_eq, swapped_eq, pteAccessed]

/-- The CPU sets Dirty on every write. -/
theorem sameEntry_dirty (w : Word) : SameEntry w (w ||| pteDirty) := by
  refine ⟨?_, ?_, ?_, ?_, ?_, frameOf_or (by decide)⟩ <;>
    simp [present_eq, writable_eq, userBit_eq, cow_eq, swapped_eq, pteDirty]

end Linux001

import Mathlib.Data.Finite.Prod
import Mathlib.Data.Finite.Sum
import Mathlib.Tactic.IntervalCases

/-!
# Layout — machine words, frames and the memory map

The 386's `unsigned long` is `BitVec 32`.  A physical page is named by its *frame*, the top 20
bits of its address: the kernel maps all of RAM at its own address, so the pointers that
`mm/memory.c` makes out of page addresses are frames here.  A page holds 1024 words.

The constants are those of `include/memlayout.h`, `include/linux/mm.h` and
`include/linux/memmap.h`.
-/

namespace Linux001

open BitVec

/-- `unsigned long`. -/
abbrev Word := BitVec 32

/-- `unsigned char`. -/
abbrev Byte := BitVec 8

/-- A physical page number: bits 12..31 of a physical address. -/
abbrev Frame := BitVec 20

/-- An index into a page of words. -/
abbrev Ix := Fin 1024

/-- The contents of a page. -/
abbrev Page := Ix → Word

instance finite_bitVec {n : ℕ} : Finite (BitVec n) := Finite.of_injective BitVec.toFin fun _ _ h =>
  BitVec.eq_of_toFin_eq h

/-! The tables of the kernel have a first index. -/

instance neZero_two : NeZero 2 := ⟨by decide⟩
instance neZero_eight : NeZero 8 := ⟨by decide⟩
instance neZero_nine : NeZero 9 := ⟨by decide⟩
instance neZero_signals : NeZero 32 := ⟨by decide⟩
instance neZero_tasks : NeZero 64 := ⟨by decide⟩
instance neZero_blocks : NeZero 519 := ⟨by decide⟩

def pageSize : ℕ := 4096

/-- `KERNEL_LOW_MEM`: nothing below it is in `mem_map`. -/
def lowMem : ℕ := 0x100000

def nrTasks : ℕ := 64

/-- `USED`: the count of a permanently reserved page. -/
def used : ℕ := 100

/-! ### The user window -/

def userBase : Word := 0x08000000#32
def userWindowTop : Word := 0x08400000#32
def userProgStart : Word := 0x08000000#32
def userProgEnd : Word := 0x08100000#32
def userHeapStart : Word := 0x08100000#32
def userHeapEnd : Word := 0x08200000#32
def userStackFloor : Word := 0x08300000#32
def userStackTop : Word := 0x083FF000#32
def userTailTop : Word := 0x08400000#32

/-- `USER_PDE_INDEX`. -/
def userPdeIndex : Ix := 32

/-- `KERNEL_PT_COUNT`: the page tables of the identity map. -/
def kernelPtCount : ℕ := 4

/-- `kernel_pg_dir = PAGE_DIRECTORY`. -/
def kernelPgDir : Frame := 0x100#20

/-- The `k`th kernel page table, `PAGE_TABLE_0 + (k << 12)`. -/
def kernelTable (k : ℕ) : Frame := 0x101#20 + BitVec.ofNat 20 k

/-! ### The swap area -/

def swapStartLba : ℕ := 2048
def swapSlotSectors : ℕ := 8
def nrSwapSlots : ℕ := 512

/-! ### Addresses -/

/-- The address of a frame's first byte. -/
def frameAddr (f : Frame) : Word := f.setWidth 32 <<< 12

/-- `pte & PT_MASK`, as a frame. -/
def frameOf (w : Word) : Frame := w.extractLsb' 12 20

/-- `va >> 22`. -/
def pdeIx (va : Word) : Ix := ⟨va.toNat / 2 ^ 22, by have := va.isLt; omega⟩

/-- `(va >> 12) & 0x3FF`. -/
def pteIx (va : Word) : Ix := ⟨va.toNat / 4096 % 1024, Nat.mod_lt _ (by omega)⟩

/-- `USER_BASE + i * PAGE_SIZE`. -/
def userVa (i : Ix) : Word := userBase + BitVec.ofNat 32 (i.val * 4096)

/-- `address & PT_MASK`. -/
def pageBase (addr : Word) : Word := addr &&& 0xFFFFF000#32

theorem pageBase_eq (a : Word) : pageBase a = (a >>> 12) <<< 12 := by
  have hmask : 0xFFFFF000#32 = allOnes 32 <<< 12 := by decide
  unfold pageBase
  rw [hmask]
  apply eq_of_getLsbD_eq
  intro k hk
  simp only [getLsbD_and, getLsbD_shiftLeft, getLsbD_allOnes, getLsbD_ushiftRight]
  by_cases h : k < 12
  · simp [h]
  have h₁ : 12 + (k - 12) = k := by omega
  have h₂ : k - 12 < 32 := by omega
  simp [h, hk, h₁, h₂]

theorem toNat_pageBase (a : Word) : (pageBase a).toNat = a.toNat / 4096 * 4096 := by
  have := a.isLt
  rw [pageBase_eq, toNat_shiftLeft, toNat_ushiftRight, Nat.shiftLeft_eq, Nat.shiftRight_eq_div_pow]
  omega

theorem pdeIx_pageBase (a : Word) : pdeIx (pageBase a) = pdeIx a := by
  apply Fin.ext
  show (pageBase a).toNat / 2 ^ 22 = a.toNat / 2 ^ 22
  rw [toNat_pageBase]
  omega

theorem pteIx_pageBase (a : Word) : pteIx (pageBase a) = pteIx a := by
  apply Fin.ext
  show (pageBase a).toNat / 4096 % 1024 = a.toNat / 4096 % 1024
  rw [toNat_pageBase]
  omega

theorem userVa_pteIx {a : Word} (h : pdeIx a = userPdeIndex) : userVa (pteIx a) = pageBase a := by
  have h₁ : a.toNat / 2 ^ 22 = 32 := congrArg Fin.val h
  apply eq_of_toNat_eq
  rw [toNat_pageBase]
  simp only [userVa, userBase, pteIx, toNat_add, toNat_ofNat]
  omega

/-- **`user_addr_ok`.**  Is `[addr, addr + len)` inside one of the regions a user process may
touch?  The sum wraps at 32 bits. -/
def userAddrOk (addr len : Word) : Bool :=
  let e := addr + len
  if e < addr then false
  else if userProgStart ≤ addr ∧ e ≤ userProgEnd then true
  else if userHeapStart ≤ addr ∧ e ≤ userHeapEnd then true
  else if userStackFloor ≤ addr ∧ e ≤ userStackTop then true
  else if userStackTop ≤ addr ∧ e ≤ userTailTop then true
  else false

/-- A legal user address lies in the user window. -/
theorem userAddrOk_window {a : Word} (h : userAddrOk a 1#32 = true) :
    userBase ≤ a ∧ a < userWindowTop := by
  unfold userAddrOk at h
  simp only [userProgStart, userProgEnd, userHeapStart, userHeapEnd, userStackFloor, userStackTop,
    userTailTop, userBase, userWindowTop, le_def, lt_def, toNat_add,
    toNat_ofNat] at *
  split_ifs at h <;> omega

/-- The regions begin and end at a page. -/
theorem userAddrOk_pageBase (a : Word) : userAddrOk (pageBase a) 1#32 = userAddrOk a 1#32 := by
  have h := toNat_pageBase a
  have hlt := a.isLt
  unfold userAddrOk
  simp only [userProgStart, userProgEnd, userHeapStart, userHeapEnd, userStackFloor, userStackTop,
    userTailTop, le_def, lt_def, toNat_add, toNat_ofNat, h]
  split_ifs <;> first | rfl | omega

/-- The `i`th page of the user window is one a user process may touch. -/
def UserPage (i : Ix) : Prop := userAddrOk (userVa i) 1#32 = true

theorem pdeIx_of_userAddrOk {a : Word} (h : userAddrOk a 1#32 = true) : pdeIx a = userPdeIndex := by
  obtain ⟨h₁, h₂⟩ := userAddrOk_window h
  simp only [userBase, userWindowTop, le_def, lt_def, toNat_ofNat] at h₁ h₂
  apply Fin.ext
  show a.toNat / 2 ^ 22 = 32
  omega

theorem userPage_pteIx {a : Word} (h : userAddrOk a 1#32 = true) : UserPage (pteIx a) := by
  unfold UserPage
  rw [userVa_pteIx (pdeIx_of_userAddrOk h), userAddrOk_pageBase, h]

/-- Every address of a legal page is legal. -/
theorem UserPage.addr {a : Word} (h : UserPage (pteIx a)) (hx : pdeIx a = userPdeIndex) :
    userAddrOk a 1#32 = true := by
  unfold UserPage at h
  rwa [userVa_pteIx hx, userAddrOk_pageBase] at h

end Linux001

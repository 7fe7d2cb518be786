import Linux001.Fs.File
import Linux001.Lib.Ledger
import Linux001.Lib.Update
import Linux001.Mm.Pte

/-!
# Mm — physical memory, the page allocator's map and the swap device

The state of `mm/memory.c`: RAM, `mem_map[]`, `swap_map[]`, the sectors of the disk image and
the reclaimer's two counters.  `mem_map[]` is indexed by frame here; its index `MAP_NR(addr)` in
the source is the frame less that of `LOW_MEM`.

The disk may fail.  `hdFault n` says what happens to the `n`th transfer: `none` if it succeeds,
`some k` if it fails after `k` sectors.  "Disk I/O succeeds" is `hdFault = fun _ => none`.

The statistics counters that only `mm_report()` reads are left out, `nr_unmapped` apart: it
counts the copy-on-write mappings the reclaimer has dropped.  Three fields are history variables,
written where the code does the thing they record and read by no function: `wentOut`, what the
page of an entry held when it was written to swap, `nrReclaims`, how often `get_free_page` found
no free frame, and `nrStarved`, how often `try_to_free_page` was called with nothing to take but
a copy-on-write mapping.
-/

namespace Linux001

open Function List

/-- The RAM a machine can have: `main()` passes `mem_init` a page aligned `memory_end` between
`MEMORY_END_MINIMUM` and `KERNEL_IDENTITY_TOP`. -/
structure Ram where
  memoryEnd : ℕ
  maxMapNr : ℕ
  maxMapNr_eq : maxMapNr = (memoryEnd - lowMem) / pageSize
  aligned : 4096 ∣ memoryEnd
  lower : 0x400000 ≤ memoryEnd
  upper : memoryEnd ≤ 0x1000000

/-- A sector of the disk, as 128 words. -/
abbrev Sector := Fin 128 → Word

/-- The state of `mm/memory.c`. -/
structure Mm where
  ram : Ram
  memMap : Frame → ℕ
  mem : Frame → Page
  swapMap : ℕ → Bool
  disk : ℕ → Sector
  hdFault : ℕ → Option ℕ
  hdCount : ℕ
  evictCursor : ℕ
  nrUnmapped : ℕ
  wentOut : Frame → Ix → Page
  nrReclaims : ℕ
  nrStarved : ℕ

def zeroPage : Page := fun _ => 0#32

/-- The frame of index `i` of `mem_map[]`: `LOW_MEM + i * PAGE_SIZE`. -/
def frameNr (i : ℕ) : Frame := 0x100#20 + BitVec.ofNat 20 i

namespace Mm

/-- `((unsigned long *)page)[i] = w`. -/
def setWord (m : Mm) (f : Frame) (i : Ix) (w : Word) : Mm :=
  { m with mem := update₂ m.mem f i w }

/-- A whole page is written. -/
def setPage (m : Mm) (f : Frame) (p : Page) : Mm := { m with mem := update m.mem f p }

/-- `f` is a frame of `mem_map[]`. -/
def InMap (m : Mm) (f : Frame) : Prop := 0x100 ≤ f.toNat ∧ f.toNat - 0x100 < m.ram.maxMapNr

/-! ### Frames -/

/-- The frames of `mem_map[]`, in index order. -/
def frames (m : Mm) : List Frame := (List.range m.ram.maxMapNr).map frameNr

/-- The scan of `get_free_page` for an entry that is 0. -/
@[irreducible] def findFree (m : Mm) : Option Frame := m.frames.find? fun f => m.memMap f = 0

/-- `mem_map[i] = 1` and the page is zeroed. -/
def takeFrame (m : Mm) (f : Frame) : Mm :=
  { m with memMap := update m.memMap f 1, mem := update m.mem f zeroPage }

/-- **`free_page`.**  Drops one reference, for an address the map covers. -/
@[irreducible] def freePage (m : Mm) (addr : Word) : Mm :=
  if addr.toNat < lowMem then m
  else if m.ram.memoryEnd ≤ addr.toNat then m
  else if addr.toNat % pageSize ≠ 0 then m
  else
    let f := frameOf addr
    if m.ram.maxMapNr ≤ (addr.toNat - lowMem) / pageSize then m
    else if m.memMap f = 0 then m
    else if used ≤ m.memMap f then m
    else { m with memMap := update m.memMap f (m.memMap f - 1) }

/-- **`count_free_pages`.** -/
def countFreePages (m : Mm) : ℕ := m.frames.countP fun f => m.memMap f = 0

/-! ### The disk -/

/-- Sector `j` of a page. -/
def sectorOf (p : Page) (j : ℕ) : Sector := fun k =>
  p ⟨(j * 128 + k.val) % 1024, Nat.mod_lt _ (Nat.succ_pos 1023)⟩

/-- The sectors the next transfer moves, out of `n`. -/
def moved (m : Mm) (n : ℕ) : ℕ :=
  match m.hdFault m.hdCount with
  | none => n
  | some k => min k n

/-- **`hd_write_sectors`** from the page `f`; `false` is `-1`. -/
def hdWriteSectors (m : Mm) (lba n : ℕ) (f : Frame) : Bool × Mm :=
  ((m.hdFault m.hdCount).isNone,
    { m with
      disk := fun s => if lba ≤ s ∧ s < lba + m.moved n then sectorOf (m.mem f) (s - lba) else m.disk s
      hdCount := m.hdCount + 1 })

/-- **`hd_read_sectors`** into the page `f`; `false` is `-1`. -/
def hdReadSectors (m : Mm) (lba n : ℕ) (f : Frame) : Bool × Mm :=
  ((m.hdFault m.hdCount).isNone,
    { m with
      mem := update m.mem f fun i =>
        if i.val / 128 < m.moved n then
          m.disk (lba + i.val / 128) ⟨i.val % 128, Nat.mod_lt _ (by omega)⟩
        else m.mem f i
      hdCount := m.hdCount + 1 })

/-! ### Swap slots -/

/-- The first sector of a slot. -/
def slotLba (slot : ℕ) : ℕ := swapStartLba + slot * swapSlotSectors

/-- The page a slot's sectors hold. -/
def slotPage (m : Mm) (slot : ℕ) : Page := fun i =>
  m.disk (slotLba slot + i.val / 128) ⟨i.val % 128, Nat.mod_lt _ (by omega)⟩

/-- **`swap_free_slot`.** -/
def swapFreeSlot (m : Mm) (slot : ℕ) : Mm :=
  if slot < nrSwapSlots then { m with swapMap := update m.swapMap slot false } else m

/-- The scan of `swap_alloc_slot` for an entry that is 0. -/
def findSlot (m : Mm) : Option ℕ := (List.range nrSwapSlots).find? fun s => !m.swapMap s

/-- **`swap_alloc_slot`.** -/
def swapAllocSlot (m : Mm) : Option ℕ × Mm :=
  match m.findSlot with
  | some s => (some s, { m with swapMap := update m.swapMap s true })
  | none => (none, m)

/-- **`swap_out_page`.**  The slot the page went to, or `none`. -/
def swapOutPage (m : Mm) (pa : Frame) : Option ℕ × Mm :=
  match m.swapAllocSlot with
  | (none, m₁) => (none, m₁)
  | (some slot, m₁) =>
    match m₁.hdWriteSectors (slotLba slot) swapSlotSectors pa with
    | (false, m₂) => (none, m₂.swapFreeSlot slot)
    | (true, m₂) => (some slot, m₂)

/-- **`swap_in_page`.**  `false` is `-1`. -/
def swapInPage (m : Mm) (slot : ℕ) (pa : Frame) : Bool × Mm :=
  if nrSwapSlots ≤ slot then (false, m)
  else m.hdReadSectors (slotLba slot) swapSlotSectors pa

/-! ### Page directories -/

/-- **`user_pt`**: the page table of a directory's user window. -/
def userPt (m : Mm) (pgdir : Option Frame) : Option Frame :=
  match pgdir with
  | none => none
  | some d => if present (m.mem d userPdeIndex) then some (frameOf (m.mem d userPdeIndex)) else none

/-- **`pte_slot`**: the table and the index of the entry for `va`. -/
def pteSlot (m : Mm) (d : Frame) (va : Word) : Option (Frame × Ix) :=
  if present (m.mem d (pdeIx va)) then some (frameOf (m.mem d (pdeIx va)), pteIx va) else none

/-- **`page_is_zero`.** -/
def pageIsZero (m : Mm) (f : Frame) : Bool := (List.finRange 1024).all fun i => m.mem f i == 0#32

end Mm

/-! ### What the allocator does -/

theorem toNat_frameNr {i : ℕ} (hi : i < 0xF00) : (frameNr i).toNat = 0x100 + i := by
  simp only [frameNr, BitVec.toNat_add, BitVec.toNat_ofNat]
  omega

theorem Ram.maxMapNr_le (r : Ram) : r.maxMapNr ≤ 0xF00 := by
  have h₁ := r.upper
  have h₂ := r.maxMapNr_eq
  unfold lowMem pageSize at h₂
  omega

namespace Mm
variable {m m₁ : Mm} {f g : Frame} {i : Ix} {w : Word} {s : ℕ} {m' : Mm} {l : List Frame}

theorem mem_frames : f ∈ m.frames ↔ m.InMap f := by
  have hle := m.ram.maxMapNr_le
  simp only [frames, mem_map, mem_range, InMap]
  constructor
  · rintro ⟨i, hi, rfl⟩
    rw [toNat_frameNr (by omega)]
    omega
  · rintro ⟨h₁, h₂⟩
    refine ⟨f.toNat - 0x100, h₂, BitVec.eq_of_toNat_eq ?_⟩
    rw [toNat_frameNr (by omega)]
    omega

theorem findFree_some (h : m.findFree = some f) : m.memMap f = 0 ∧ m.InMap f := by
  unfold findFree at h
  obtain ⟨h₁, h₂⟩ := find?_eq_some_iff_append.mp h
  refine ⟨by simpa using h₁, mem_frames.mp ?_⟩
  obtain ⟨l, l', hl, -⟩ := h₂
  rw [hl]
  simp

/-- A frame of the map has an address `free_page` accepts, so it loses one reference unless it
is reserved. -/
theorem freePage_frameAddr (hf : m.InMap f) :
    m.freePage (frameAddr f) = { m with memMap := Ledger.lower used m.memMap f } := by
  obtain ⟨h₁, h₂⟩ := hf
  have ha := toNat_frameAddr f
  have hr := m.ram.aligned
  have hlow := m.ram.lower
  have hn := m.ram.maxMapNr_eq
  unfold lowMem pageSize at hn
  have e₁ : ¬ (frameAddr f).toNat < lowMem := by unfold lowMem; omega
  have e₂ : ¬ m.ram.memoryEnd ≤ (frameAddr f).toNat := by omega
  have e₃ : ¬ (frameAddr f).toNat % pageSize ≠ 0 := by unfold pageSize; omega
  have e₄ : ¬ m.ram.maxMapNr ≤ ((frameAddr f).toNat - lowMem) / pageSize := by
    unfold lowMem pageSize; omega
  unfold freePage
  rw [if_neg e₁, if_neg e₂, if_neg e₃]
  simp only [frameOf_frameAddr]
  rw [if_neg e₄]
  unfold Ledger.lower
  by_cases h₀ : m.memMap f = 0
  · have hu : m.memMap f < used := by rw [h₀]; decide
    rw [if_pos h₀, if_pos hu, h₀]
    -- nothing is subtracted from 0
    have : update m.memMap f (0 - 1) = m.memMap := by
      rw [Nat.zero_sub, ← h₀, update_eq_self]
    rw [this]
  · rw [if_neg h₀]
    by_cases hu : used ≤ m.memMap f
    · rw [if_pos hu, if_neg (by omega)]
    · rw [if_neg hu, if_pos (by omega)]

/-- `free_page` changes counts only. -/
theorem freePage_eq (m : Mm) (a : Word) : m.freePage a = { m with memMap := (m.freePage a).memMap } := by
  unfold freePage
  simp only
  split_ifs <;> rfl

@[simp] theorem freePage_mem (a : Word) : (m.freePage a).mem = m.mem := by rw [freePage_eq]
@[simp] theorem freePage_ram (a : Word) : (m.freePage a).ram = m.ram := by rw [freePage_eq]
@[simp] theorem freePage_swapMap (a : Word) : (m.freePage a).swapMap = m.swapMap := by
  rw [freePage_eq]
@[simp] theorem freePage_disk (a : Word) : (m.freePage a).disk = m.disk := by rw [freePage_eq]
@[simp] theorem freePage_wentOut (a : Word) : (m.freePage a).wentOut = m.wentOut := by
  rw [freePage_eq]
@[simp] theorem freePage_nrUnmapped (a : Word) : (m.freePage a).nrUnmapped = m.nrUnmapped := by
  rw [freePage_eq]
@[simp] theorem freePage_nrStarved (a : Word) : (m.freePage a).nrStarved = m.nrStarved := by
  rw [freePage_eq]
@[simp] theorem freePage_nrReclaims (a : Word) : (m.freePage a).nrReclaims = m.nrReclaims := by
  rw [freePage_eq]

theorem slotPage_congr (h : m'.disk = m.disk) : m'.slotPage = m.slotPage := by
  unfold slotPage
  rw [h]

@[simp] theorem freePage_slotPage (a : Word) : (m.freePage a).slotPage = m.slotPage := by
  rw [freePage_eq]; rfl

/-- The counts after `free_page` depend on the counts before it. -/
theorem freePage_memMap_congr (m m' : Mm) (hr : m'.ram = m.ram) (hm : m'.memMap = m.memMap)
    (a : Word) : (m'.freePage a).memMap = (m.freePage a).memMap := by
  unfold freePage
  rw [hr, hm]
  simp only
  split_ifs <;> simp [hm]

theorem freePage_memMap_of_ne {a : Word} (e : g ≠ frameOf a) : (m.freePage a).memMap g = m.memMap g := by
  unfold freePage
  simp only
  split_ifs
  all_goals first | rfl | exact update_of_ne e _ _

theorem freePage_setWord (a : Word) :
    (m.setWord g i w).freePage a = (m.freePage a).setWord g i w := by
  rw [freePage_eq, freePage_memMap_congr m (m.setWord g i w) rfl rfl, freePage_eq m]
  rfl

/-! ### How many frames are free -/

theorem frames_nodup : m.frames.Nodup := by
  have hle := m.ram.maxMapNr_le
  refine List.Nodup.map_on (fun i hi j hj e => ?_) nodup_range
  rw [mem_range] at hi hj
  have := congrArg BitVec.toNat e
  rw [toNat_frameNr (by omega), toNat_frameNr (by omega)] at this
  omega

theorem countFreePages_of_none (h : m.findFree = none) : m.countFreePages = 0 := by
  unfold findFree at h
  unfold countFreePages
  rw [countP_eq_zero]
  exact find?_eq_none.mp h

/-- Free frames stay free. -/
theorem countFreePages_mono (hr : m'.ram = m.ram)
    (h : ∀ f, m.memMap f = 0 → m'.memMap f = 0) : m.countFreePages ≤ m'.countFreePages := by
  unfold countFreePages frames
  rw [hr]
  exact countP_mono_left fun f _ hf => by simpa using h f (by simpa using hf)

theorem countFreePages_freePage (a : Word) : m.countFreePages ≤ (m.freePage a).countFreePages := by
  refine countFreePages_mono (freePage_ram a) fun g hg => ?_
  unfold freePage
  simp only
  split_ifs
  any_goals exact hg
  by_cases e : g = frameOf a
  · subst e
    simp [hg]
  · simp [e, hg]

/-- In a list without repetitions one element counts once. -/
theorem countP_le_of_ne (hl : l.Nodup) {p q : Frame → Bool}
    (h : ∀ g, g ≠ f → p g = true → q g = true) : l.countP p ≤ l.countP q + 1 := by
  induction l with
  | nil => simp
  | cons g l ih =>
    obtain ⟨hg, hl⟩ := nodup_cons.mp hl
    rw [countP_cons, countP_cons]
    by_cases e : g = f
    · -- the rest of the list does not hold `f`
      have hle : l.countP p ≤ l.countP q := countP_mono_left fun x hx =>
        h x fun ex => hg (by rw [e, ← ex]; exact hx)
      split_ifs <;> omega
    have := ih hl
    by_cases hp : p g = true
    · rw [if_pos hp, if_pos (h g e hp)]
      omega
    · rw [if_neg hp]
      omega

theorem countFreePages_takeFrame : m.countFreePages ≤ (m.takeFrame f).countFreePages + 1 := by
  refine countP_le_of_ne (f := f) frames_nodup fun g e hg => ?_
  simp only [takeFrame, update_of_ne e]
  exact hg

/-- Frames known to be free are counted. -/
theorem length_le_countFreePages (hl : l.Nodup)
    (h : ∀ g ∈ l, m.InMap g ∧ m.memMap g = 0) : l.length ≤ m.countFreePages := by
  unfold countFreePages
  rw [countP_eq_length_filter]
  refine (hl.subperm fun g hg => ?_).length_le
  exact mem_filter.mpr ⟨mem_frames.mpr (h g hg).1, by simpa using (h g hg).2⟩

/-- One more frame is free. -/
theorem countFreePages_lt (hr : m'.ram = m.ram)
    (h : ∀ g, m'.memMap g = 0 → m.memMap g = 0) (hin : m.InMap f) (hf : m.memMap f = 0)
    (hf' : m'.memMap f ≠ 0) : m'.countFreePages < m.countFreePages := by
  have hfr : m'.frames = m.frames := by unfold frames; rw [hr]
  have hcard : ∀ m₁ : Mm, m₁.frames = m.frames →
      m₁.countFreePages = (m.frames.toFinset.filter fun g => m₁.memMap g = 0).card := fun m₁ e => by
    unfold countFreePages
    rw [e, countP_eq_length_filter, ← toFinset_card_of_nodup (frames_nodup.filter _), toFinset_filter]
    simp
  rw [hcard m' hfr, hcard m rfl]
  refine Finset.card_lt_card ⟨fun g hg => ?_, fun hsub => ?_⟩
  · rw [Finset.mem_filter] at hg ⊢
    exact ⟨hg.1, h g hg.2⟩
  · have := hsub (Finset.mem_filter.mpr ⟨mem_toFinset.mpr (mem_frames.mpr hin), hf⟩)
    exact hf' (Finset.mem_filter.mp this).2

/-! ### Reading back what was written -/

@[simp] theorem setWord_same : (m.setWord f i w).mem f i = w := update₂_self

theorem setWord_of_ne (e : g ≠ f) : (m.setWord f i w).mem g = m.mem g := update₂_of_ne_left e

theorem setWord_of_not {j : Ix} (e : ¬ (g = f ∧ j = i)) : (m.setWord f i w).mem g j = m.mem g j :=
  update₂_of_ne e

@[simp] theorem setPage_same {p : Page} : (m.setPage f p).mem f = p := by simp [setPage]

theorem setPage_of_ne {p : Page} (e : g ≠ f) : (m.setPage f p).mem g = m.mem g := by
  simp [setPage, e]

/-! ### What a transfer changes -/

theorem findSlot_some (h : m.findSlot = some s) : s < nrSwapSlots ∧ m.swapMap s = false := by
  obtain ⟨h₁, l, l', hl, -⟩ := find?_eq_some_iff_append.mp h
  have hm : s ∈ range nrSwapSlots := by rw [hl]; simp
  exact ⟨mem_range.mp hm, by simpa using h₁⟩

/-- The sectors of a slot are its own. -/
theorem slotLba_disjoint {s s' j : ℕ} (e : s' ≠ s) (hj : j < swapSlotSectors) :
    ¬ (slotLba s ≤ slotLba s' + j ∧ slotLba s' + j < slotLba s + swapSlotSectors) := by
  unfold slotLba swapSlotSectors at *
  omega

/-- A page in eight sectors reads back as the page. -/
theorem sectorOf_apply (p : Page) (i : Ix) :
    sectorOf p (i.val / 128) ⟨i.val % 128, Nat.mod_lt _ (by omega)⟩ = p i := by
  unfold sectorOf
  congr 1
  apply Fin.ext
  show (i.val / 128 * 128 + i.val % 128) % 1024 = i.val
  have := i.isLt
  omega

/-- What a write to slot `s` may change, whether it succeeds or not. -/
theorem hdWriteSectors_slot_other {s' : ℕ} (e : s' ≠ s) :
    (m.hdWriteSectors (slotLba s) swapSlotSectors f).2.slotPage s' = m.slotPage s' := by
  have hm : m.moved swapSlotSectors ≤ swapSlotSectors := by
    unfold moved; split <;> simp
  funext i
  have hi : i.val / 128 < swapSlotSectors := by
    have := i.isLt; unfold swapSlotSectors; omega
  have hd := slotLba_disjoint e hi
  show (if _ then _ else m.disk _) _ = m.disk _ _
  rw [if_neg (by omega)]

theorem hdWriteSectors_slot (hok : (m.hdWriteSectors (slotLba s) swapSlotSectors f).1 = true) :
    (m.hdWriteSectors (slotLba s) swapSlotSectors f).2.slotPage s = m.mem f := by
  have hf : m.hdFault m.hdCount = none := by simpa [hdWriteSectors] using hok
  funext i
  have hi : i.val / 128 < swapSlotSectors := by
    have := i.isLt; unfold swapSlotSectors; omega
  show (if _ then sectorOf (m.mem f) (slotLba s + i.val / 128 - slotLba s) else m.disk _) _ = _
  simp only [moved, hf]
  rw [if_pos (by omega), Nat.add_sub_cancel_left, sectorOf_apply]

theorem swapFreeSlot_of_lt (hs : s < nrSwapSlots) :
    m.swapFreeSlot s = { m with swapMap := update m.swapMap s false } := if_pos hs

/-- A page that went out: the slot was free, it holds the page now and no other slot changed. -/
theorem swapOutPage_some (h : m.swapOutPage f = (some s, m₁)) :
    m.findSlot = some s ∧ m₁.slotPage s = m.mem f ∧ (∀ s', s' ≠ s → m₁.slotPage s' = m.slotPage s') ∧ m₁ = { m with
        swapMap := update m.swapMap s true, disk := m₁.disk, hdCount := m.hdCount + 1 } := by
  unfold swapOutPage swapAllocSlot at h
  cases hf : m.findSlot with
  | none => simp [hf] at h
  | some s₀ =>
    simp only [hf] at h
    set m₀ : Mm := { m with swapMap := update m.swapMap s₀ true } with hm₀
    cases hw : m₀.hdWriteSectors (slotLba s₀) swapSlotSectors f with
    | mk ok m₂ =>
      cases ok with
      | false => simp [hw] at h
      | true =>
        simp only [hw, Prod.mk.injEq, Option.some.injEq] at h
        obtain ⟨rfl, rfl⟩ := h
        have h₁ := hdWriteSectors_slot (by rw [hw])
        have h₂ := fun s' (e : s' ≠ s₀) => hdWriteSectors_slot_other (m := m₀) (f := f) e
        rw [hw] at h₁
        simp only [hw] at h₂
        refine ⟨rfl, h₁, h₂, ?_⟩
        have h₃ : m₂ = (m₀.hdWriteSectors (slotLba s₀) swapSlotSectors f).2 := by rw [hw]
        rw [h₃]
        rfl

/-- A page that could not go out: at most the sectors of a free slot have changed. -/
theorem swapOutPage_none (h : m.swapOutPage f = (none, m₁)) :
    (∀ s, m.swapMap s = true → m₁.slotPage s = m.slotPage s) ∧
      m₁ = { m with disk := m₁.disk, hdCount := m₁.hdCount } := by
  unfold swapOutPage swapAllocSlot at h
  cases hf : m.findSlot with
  | none =>
    simp only [hf, Prod.mk.injEq, true_and] at h
    subst h
    exact ⟨fun _ _ => rfl, rfl⟩
  | some s₀ =>
    obtain ⟨hlt, hfree⟩ := findSlot_some hf
    simp only [hf] at h
    set m₀ : Mm := { m with swapMap := update m.swapMap s₀ true } with hm₀
    cases hw : m₀.hdWriteSectors (slotLba s₀) swapSlotSectors f with
    | mk ok m₂ =>
      cases ok with
      | true => simp [hw] at h
      | false =>
        simp only [hw, Prod.mk.injEq, true_and] at h
        have h₂ := fun s' (e : s' ≠ s₀) => hdWriteSectors_slot_other (m := m₀) (f := f) e
        simp only [hw] at h₂
        have h₃ : m₂ = (m₀.hdWriteSectors (slotLba s₀) swapSlotSectors f).2 := by rw [hw]
        rw [swapFreeSlot_of_lt hlt] at h
        subst h
        refine ⟨fun s hs => h₂ s fun e => ?_, ?_⟩
        · rw [e, hfree] at hs; cases hs
        · -- the slot is given back, so the map is what it was
          have hmap : update (update m.swapMap s₀ true) s₀ false = m.swapMap := by
            rw [update_idem, ← hfree, update_eq_self]
          rw [h₃]
          simp only [hdWriteSectors, hm₀, hmap]

/-- A page that came back holds what its slot holds. -/
theorem swapInPage_true (h : m.swapInPage s f = (true, m₁)) :
    s < nrSwapSlots ∧ m₁ = { m with mem := update m.mem f (m.slotPage s), hdCount := m.hdCount + 1 } := by
  unfold swapInPage at h
  by_cases hs : nrSwapSlots ≤ s
  · simp [hs] at h
  rw [if_neg hs] at h
  simp only [hdReadSectors, Prod.mk.injEq, Option.isNone_iff_eq_none] at h
  obtain ⟨hok, rfl⟩ := h
  refine ⟨by omega, ?_⟩
  simp only [moved, hok]
  congr 2
  funext i
  have hi : i.val / 128 < swapSlotSectors := by
    have := i.isLt; unfold swapSlotSectors; omega
  rw [if_pos hi]
  rfl

/-- A failed read leaves some page in the frame. -/
theorem swapInPage_false (h : m.swapInPage s f = (false, m₁)) :
    ∃ p, m₁ = { m.setPage f p with hdCount := m₁.hdCount } := by
  unfold swapInPage at h
  by_cases hs : nrSwapSlots ≤ s
  · simp only [hs, if_true, Prod.mk.injEq, true_and] at h
    subst h
    exact ⟨m.mem f, by simp [setPage]⟩
  · rw [if_neg hs] at h
    simp only [hdReadSectors, Prod.mk.injEq] at h
    obtain ⟨-, rfl⟩ := h
    exact ⟨_, rfl⟩

end Mm

end Linux001

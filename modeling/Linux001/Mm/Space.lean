import Linux001.Mm.Reclaim

/-!
# Mm — address spaces

The functions of `mm/memory.c` that build, copy and tear down a user address space: one page
directory with the kernel's entries, and one page table for the user window.
-/

namespace Linux001

/-- The entry of a directory for the `k`th kernel table: present, writable, supervisor only. -/
def kernelEntry (k : ℕ) : Word := frameAddr (kernelTable k) ||| ptePresent ||| pteRw

/-- What every directory holds outside the user window. -/
def kernelPde (j : Ix) : Word := if j.val < kernelPtCount then kernelEntry j.val else 0#32

/-- The loop of `alloc_user_pgdir` that fills in the kernel's entries. -/
def Mm.putKernelEntries (m : Mm) (pgdir : Frame) : Mm :=
  (List.finRange 4).foldl (fun m i => m.setWord pgdir (i.castLE (by omega)) (kernelEntry i.val)) m

/-- **`alloc_user_pgdir`.** -/
def allocUserPgdir (tk : TaskTable) (m : Mm) : Option Frame × Mm :=
  match getFreePage tk m with
  | (none, m₁) => (none, m₁)
  | (some pgdir, m₁) =>
    match getFreePage tk m₁ with
    | (none, m₂) => (none, m₂.freePage (frameAddr pgdir))
    | (some pt, m₂) =>
      (some pgdir, (m₂.putKernelEntries pgdir).setWord pgdir userPdeIndex (mapEntry pt))

/-- **`alloc_user_page`.** -/
def allocUserPage (tk : TaskTable) (m : Mm) (pgdir : Frame) (va : Word) : Option Frame × Mm :=
  match getFreePage tk m with
  | (none, m₁) => (none, m₁)
  | (some pa, m₁) =>
    match m₁.pteSlot pgdir va with
    | none => (none, m₁.freePage (frameAddr pa))
    | some (pt, i) => (some pa, m₁.setWord pt i (mapEntry pa))

/-- **`map_user_page`**, with the flags all its callers pass. -/
def Mm.mapUserPage (m : Mm) (pgdir : Frame) (va : Word) (pa : Frame) : Mm :=
  match m.pteSlot pgdir va with
  | none => m
  | some (pt, i) => m.setWord pt i (mapEntry pa)

/-! ### Copying -/

/-- `copy_page_tables` meets a page that is out on the swap device: it is brought back first.
`none` is the `return -1`. -/
def copySwapIn (tk : TaskTable) (m : Mm) (spt : Frame) (i : Ix) : Option Unit × Mm :=
  let slot := swapSlot (m.mem spt i)
  match getFreePage tk m with
  | (none, m₁) => (none, m₁)
  | (some frame, m₁) =>
    match m₁.swapInPage slot frame with
    | (false, m₂) => (none, m₂.freePage (frameAddr frame))
    | (true, m₂) => (some (), (m₂.swapFreeSlot slot).setWord spt i (mapEntry frame))

/-- `mem_map[MAP_NR(pa)]++`, unless the page is reserved. -/
def Mm.sharePage (m : Mm) (f : Frame) : Mm :=
  if m.memMap f < used then { m with memMap := Function.update m.memMap f (m.memMap f + 1) } else m

theorem Mm.sharePage_eq (m : Mm) (f : Frame) :
    m.sharePage f = { m with memMap := Ledger.raise used m.memMap f } := by
  unfold Mm.sharePage Ledger.raise
  split <;> rfl

/-- One more user of a present page, and neither side may write it. -/
def Mm.shareEntry (m : Mm) (spt dpt : Frame) (i : Ix) : Mm :=
  let pte := m.mem spt i
  ((m.sharePage (frameOf pte)).setWord spt i (cowEntry pte)).setWord dpt i (cowEntry pte)

/-- The second half of the body of `copy_page_tables`' loop. -/
def copyShare (spt dpt : Frame) (s : ℕ × Mm) (i : Ix) : ℕ × Mm :=
  if present (s.2.mem spt i) then (s.1 + 1, s.2.shareEntry spt dpt i) else s

/-- The body of `copy_page_tables`' loop.  The state is `shared` and the memory; `.error m` is
`return -1`. -/
def copyEntry (tk : TaskTable) (spt dpt : Frame) (s : ℕ × Mm) (i : Ix) : Except Mm (ℕ × Mm) :=
  let pte := s.2.mem spt i
  if present pte = false ∧ swapped pte then
    match copySwapIn tk s.2 spt i with
    | (none, m₁) => .error m₁
    | (some _, m₁) => .ok (copyShare spt dpt (s.1, m₁) i)
  else .ok (copyShare spt dpt s i)

/-- **`copy_page_tables`.**  The number of pages shared, `none` for `-1`. -/
def copyPageTables (tk : TaskTable) (m : Mm) (fromPgdir toPgdir : Frame) : Option ℕ × Mm :=
  match m.userPt (some fromPgdir), m.userPt (some toPgdir) with
  | some spt, some dpt =>
    match (List.finRange 1024).foldlM (copyEntry tk spt dpt) (0, m) with
    | .error m₁ => (none, m₁)
    | .ok (shared, m₁) => (some shared, m₁)
  | _, _ => (none, m)

/-! ### Tearing down -/

/-- The body of `free_page_tables`' loop. -/
def freeEntry (pt : Frame) (m : Mm) (i : Ix) : Mm :=
  let pte := m.mem pt i
  let m₁ :=
    if present pte then m.freePage (frameAddr (frameOf pte))
    else if swapped pte then m.swapFreeSlot (swapSlot pte)
    else m
  m₁.setWord pt i 0#32

/-- **`free_page_tables`** over the whole user window, which is how it is called. -/
def freePageTables (m : Mm) (pgdir : Frame) : Mm :=
  match m.userPt (some pgdir) with
  | none => m
  | some pt =>
    (((List.finRange 1024).foldl (freeEntry pt) m).freePage (frameAddr pt)).setWord
      pgdir userPdeIndex 0#32

/-- **`free_user_space`** of a directory that is not 0. -/
def freeUserSpace (m : Mm) (pgdir : Frame) : Mm :=
  (freePageTables m pgdir).freePage (frameAddr pgdir)

end Linux001

import Linux001.Mm.SystemInv

/-!
# Mm — what the machine starts from

`main()` hands RAM out once: `setup_paging` builds the identity map, `mem_init` reserves the
kernel's tables and the map itself, `buffer_init` reserves the buffer cache.  After that every
frame is free or reserved for good.

`Booted` is what runs start from: no address space yet, every frame free, reserved, or the page
of a kernel owner.  The machine `main()` sets up is one (`booted_boot`), and a booted machine
meets the invariant (`Booted.inv`).
-/

namespace Linux001

open Function List Finset Books

/-! ### The map at boot -/

def kernelTablesEnd : ℕ := 0x105000
def bufferCacheTop : ℕ := 0x3F0000

/-- `sizeof(struct buffer_head)`. -/
def bufferHeadSize : ℕ := 36

/-- `MAP_NR`. -/
def mapNr (addr : ℕ) : ℕ := (addr - lowMem) / pageSize

/-- `mem_map[j] = USED`, for an entry that is 0 or for any. -/
def reserveEntry (r : Ram) (onlyFree : Bool) (map : Frame → ℕ) (j : ℕ) : Frame → ℕ :=
  if j < r.maxMapNr ∧ (onlyFree = true → map (frameNr j) = 0) then
    update map (frameNr j) used
  else map

/-- `for (j = first; j <= last && j < max_map_nr; j++)` over `reserveEntry`. -/
def reserve (r : Ram) (onlyFree : Bool) (first last : ℕ) (map : Frame → ℕ) : Frame → ℕ :=
  (List.range' first (last + 1 - first)).foldl (reserveEntry r onlyFree) map

/-- `ktables`: the page directory and the identity map's tables. -/
def ktables : ℕ := (kernelTablesEnd - lowMem + pageSize - 1) / pageSize

/-- **`mem_init`.**  `mem_map[]` itself is four bytes an entry, at the top of RAM. -/
def memInit (startMem : ℕ) (r : Ram) : Frame → ℕ :=
  let mapStart := r.memoryEnd - r.maxMapNr * 4
  let map₁ := reserve r false 0 (ktables - 1) fun _ => 0
  let map₂ := reserve r false (mapNr (mapStart / pageSize * pageSize)) (mapNr (r.memoryEnd - 1)) map₁
  if lowMem + ktables * pageSize < startMem then reserve r true ktables (mapNr (startMem - 1)) map₂
  else map₂

/-- **`buffer_init`**, as far as `mem_map[]` is concerned. -/
def bufferInit (bufferEnd : ℕ) (r : Ram) (map : Frame → ℕ) : Frame → ℕ :=
  let dataStart := bufferEnd - nrBuffers * bufferHeadSize - nrBuffers * blockSize
  reserve r false (mapNr (dataStart / pageSize * pageSize)) (mapNr (bufferEnd - 1)) map

/-- **`setup_paging`.**  The directory's first entries are the tables, `P | RW`; the tables map
address to address, supervisor only. -/
def setupPaging (mem : Frame → Page) : Frame → Page := fun f i =>
  if f = kernelPgDir then
    if i.val < kernelPtCount then frameAddr (kernelTable i.val) ||| 0x003#32 else 0#32
  else if 0x101 ≤ f.toNat ∧ f.toNat < 0x101 + kernelPtCount then
    frameAddr (BitVec.ofNat 20 ((f.toNat - 0x101) * 1024 + i.val)) ||| 0x003#32
  else mem f i

/-- The machine as `main()` leaves it for its tasks: `cr0` is what the boot loader left, with PG
and PE set; `task[0]` runs in the kernel's own directory. -/
def boot (r : Ram) (startMem : ℕ) (cr0 : Word) (mem : Frame → Page) (disk : ℕ → Sector)
    (hdFault : ℕ → Option ℕ) (init : Task) : Sys where
  mm :=
    { ram := r
      memMap := bufferInit bufferCacheTop r (memInit startMem r)
      mem := setupPaging mem
      swapMap := fun _ => false
      disk := disk
      hdFault := hdFault
      hdCount := 0
      evictCursor := 0
      nrUnmapped := 0
      wentOut := fun _ _ => zeroPage
      nrReclaims := 0
      nrStarved := 0 }
  tk := update (fun _ => none) 0 (some (init.withDir none))
  cr0 := cr0 ||| 0x80000001#32
  live := ∅
  kern := ∅

/-! ### Booted machines -/

/-- No address space has been made yet. -/
structure Booted (s : Sys) : Prop where
  live : s.live = ∅
  tasks : ∀ {n t}, s.tk n = some t → t.pgDir = none
  kern : ∀ {f}, f ∈ s.kern → s.mm.InMap f ∧ s.mm.memMap f = 1
  rest : ∀ {f}, f ∉ s.kern → s.mm.memMap f = 0 ∨ used ≤ s.mm.memMap f
  kernelDir : used ≤ s.mm.memMap kernelPgDir
  kernelTables : ∀ k < kernelPtCount, used ≤ s.mm.memMap (kernelTable k)
  identity : ∀ k < kernelPtCount, ∀ i, cow (s.mm.mem (kernelTable k) i) = false
  slots : ∀ {i}, i < nrSwapSlots → s.mm.swapMap i = false

/-- The books before the first address space. -/
def Books.initial (kern : Finset Frame) : Books where
  live := ∅
  kern := kern
  tbl := id
  pte := fun _ _ => 0#32
  hold := fun _ _ => none
  leak := fun _ => 0

theorem Books.cells_initial {kern : Finset Frame} {c : Cell} {f : Frame} :
    (Books.initial kern).cells c = some f ↔ c = .kern f ∧ f ∈ kern := by
  cases c with
  | kern g =>
    by_cases hg : g ∈ kern
    · simp only [cells, initial, hg, if_true, Option.some.injEq, Cell.kern.injEq]
      exact ⟨fun e => ⟨e, e ▸ hg⟩, And.left⟩
    · simp only [cells, initial, hg, if_false, Cell.kern.injEq, reduceCtorEq, false_iff, not_and]
      exact fun e => e ▸ hg
  | dir | table | pte => simp [cells, initial]

namespace Booted
variable {s : Sys}

/-- What a run from `s` starts from. -/
def start (h : Booted s) (few : Prop) : Boot where
  nrUnmapped := s.mm.nrUnmapped
  reserved := {f | used ≤ s.mm.memMap f}
  few := few
  ktable k := s.mm.mem (kernelTable k)
  plain := h.identity
  kernel := h.kernelTables
  kernelDir := h.kernelDir

theorem accounts (h : Booted s) (few : Prop) :
    Accounts (h.start few) s.mm (Books.initial s.kern).cells (fun _ => 0) ∅ where
  held hc := by
    obtain ⟨-, hf⟩ := cells_initial.mp hc
    obtain ⟨hin, h₁⟩ := h.kern hf
    refine ⟨hin, fun hr => ?_⟩
    have hr : used ≤ s.mm.memMap _ := hr
    rw [h₁] at hr
    exact absurd hr (by decide)
  sole c c' f _ hc hc' := by
    rw [(cells_initial.mp hc).1, (cells_initial.mp hc').1]
  coherent hc := by cases (cells_initial.mp hc).1
  dead _ := rfl
  balance f hlt := by
    by_cases hf : f ∈ s.kern
    · -- the owner's cell is the only one
      have hc : (initial s.kern).cells (.kern f) = some f := cells_kern hf
      have hle : Ledger.refs (initial s.kern).cells f ≤ ({()} : Finset Unit).card :=
        Ledger.refs_le_card (fun _ => ()) _ (fun _ _ => Finset.mem_singleton_self _)
          fun c c' hc hc' _ => by
            rw [(cells_initial.mp hc).1, (cells_initial.mp hc').1]
      have hpos := Ledger.refs_pos hc
      rw [card_singleton] at hle
      rw [(h.kern hf).2, Nat.le_antisymm hle hpos]
      rfl
    · have hzero : s.mm.memMap f = 0 := (h.rest hf).resolve_right (by omega)
      rw [hzero, Ledger.refs_eq_zero_iff.mpr fun c hc => hf (cells_initial.mp hc).2]
      rfl
  reserved hf := hf
  since := le_rfl
  noLeak _ _ := rfl
  few _ := by decide
  capped _ _ _ hf := hf

/-- **A booted machine meets the invariant.** -/
theorem inv (h : Booted s) (few : Prop) : SysInv (h.start few) s := by
  refine ⟨initial s.kern, h.live.symm, rfl, ⟨h.accounts few, ⟨?_, ?_, ?_⟩, ⟨?_, ?_, ?_, ?_⟩, ⟨?_, ?_, ?_⟩, ?_⟩⟩
  · exact fun hd => absurd hd (notMem_empty _)
  · exact fun hd => absurd hd (notMem_empty _)
  · exact fun _ _ => rfl
  · exact fun hd => absurd hd (notMem_empty _)
  · exact fun _ _ _ hd => absurd hd (notMem_empty _)
  · exact fun hd => absurd hd (notMem_empty _)
  · exact fun hd => absurd hd (notMem_empty _)
  · intro i hi
    simp [h.slots hi, initial]
  · exact fun _ hd => absurd hd (notMem_empty _)
  · exact fun _ hd => absurd hd (notMem_empty _)
  · intro n t d ht hd
    rw [h.tasks ht] at hd
    cases hd

end Booted

/-! ### The machine `main()` sets up -/

section Boot
variable {r : Ram} {onlyFree : Bool} {first last j : ℕ} {map : Frame → ℕ} {f : Frame} {startMem : ℕ}

theorem foldl_reserveEntry_cases (js : List ℕ) (map : Frame → ℕ) :
    js.foldl (reserveEntry r onlyFree) map f = used ∨ js.foldl (reserveEntry r onlyFree) map f = map f := by
  induction js generalizing map with
  | nil => exact .inr rfl
  | cons j js ih =>
    have h₁ : reserveEntry r onlyFree map j f = used ∨ reserveEntry r onlyFree map j f = map f := by
      unfold reserveEntry
      split
      · by_cases e : f = frameNr j
        · exact .inl (by rw [e, update_self])
        · exact .inr (update_of_ne e _ _)
      · exact .inr rfl
    rw [foldl_cons]
    rcases ih (reserveEntry r onlyFree map j) with h | h
    · exact .inl h
    · rw [h]
      exact h₁

theorem foldl_reserveEntry_mem {js : List ℕ} (hmem : j ∈ js) (hj : j < r.maxMapNr) :
    js.foldl (reserveEntry r false) map (frameNr j) = used := by
  induction js generalizing map with
  | nil => cases hmem
  | cons k js ih =>
    rw [foldl_cons]
    rcases mem_cons.mp hmem with rfl | hmem
    · have h₁ : reserveEntry r false map j (frameNr j) = used := by simp [reserveEntry, hj]
      exact (foldl_reserveEntry_cases js _).elim id fun e => e.trans h₁
    · exact ih hmem

/-- An entry is reserved or left alone. -/
theorem reserve_cases (r : Ram) (onlyFree : Bool) (first last : ℕ) (map : Frame → ℕ) (f : Frame) :
    reserve r onlyFree first last map f = used ∨ reserve r onlyFree first last map f = map f :=
  foldl_reserveEntry_cases _ _

/-- What is reserved stays reserved. -/
theorem reserve_of_used (h : map f = used) : reserve r onlyFree first last map f = used :=
  (reserve_cases r onlyFree first last map f).elim id fun e => e.trans h

theorem reserve_range (h₁ : first ≤ j) (h₂ : j ≤ last) (hj : j < r.maxMapNr) :
    reserve r false first last map (frameNr j) = used :=
  foldl_reserveEntry_mem (mem_range'_1.mpr (by omega)) hj

theorem reserve_outside (hj : j < r.maxMapNr) (h : j < first ∨ last < j) :
    reserve r onlyFree first last map (frameNr j) = map (frameNr j) := by
  unfold reserve
  have hmem : ∀ k ∈ range' first (last + 1 - first), k ≠ j := fun k hk => by
    have := mem_range'_1.mp hk
    omega
  generalize range' first (last + 1 - first) = js at hmem
  induction js generalizing map with
  | nil => rfl
  | cons k js ih =>
    rw [foldl_cons, ih fun k' hk' => hmem k' (mem_cons_of_mem _ hk')]
    unfold reserveEntry
    split
    · next hk =>
      refine update_of_ne (fun e => hmem k (mem_cons_self ..) ?_) _ _
      have := r.maxMapNr_le
      have e := congrArg BitVec.toNat e
      rw [toNat_frameNr (by omega), toNat_frameNr (by omega)] at e
      omega
    · rfl

/-- The first frames of the map are the directory and the tables of the identity map. -/
theorem memInit_tables (hj : j < ktables) :
    memInit startMem r (frameNr j) = used := by
  have hmax : j < r.maxMapNr := by
    have := r.lower
    have := r.maxMapNr_eq
    have hk : ktables = 5 := by decide
    unfold lowMem pageSize at this
    omega
  have h₁ : reserve r false 0 (ktables - 1) (fun _ => 0) (frameNr j) = used :=
    reserve_range (Nat.zero_le j) (by omega) hmax
  unfold memInit
  split
  · exact reserve_of_used (reserve_of_used h₁)
  · exact reserve_of_used h₁

theorem memInit_cases (startMem : ℕ) (r : Ram) (f : Frame) :
    memInit startMem r f = used ∨ memInit startMem r f = 0 := by
  have h₁ := reserve_cases r false 0 (ktables - 1) (fun _ => 0) f
  have h₂ := fun map (hm : map f = used ∨ map f = 0) => (reserve_cases r false
    (mapNr ((r.memoryEnd - r.maxMapNr * 4) / pageSize * pageSize)) (mapNr (r.memoryEnd - 1)) map f).elim
      .inl fun e => e ▸ hm
  unfold memInit
  split
  · exact (reserve_cases r true _ _ _ f).elim .inl fun e => e ▸ h₂ _ h₁
  · exact h₂ _ h₁

/-- **The machine `main()` sets up is booted.** -/
theorem booted_boot (r : Ram) (startMem : ℕ) (cr0 : Word) (mem : Frame → Page)
    (disk : ℕ → Sector) (hdFault : ℕ → Option ℕ) (init : Task) :
    Booted (boot r startMem cr0 mem disk hdFault init) where
  live := rfl
  tasks {n t} hn := by
    change update (fun _ => none) 0 (some (init.withDir none)) n = some t at hn
    by_cases e : n = 0
    · subst e
      obtain rfl : init.withDir none = t := by simpa using hn
      rfl
    · rw [update_of_ne e] at hn
      cases hn
  kern hf := absurd hf (notMem_empty _)
  rest {f} _ := by
    show bufferInit bufferCacheTop r (memInit startMem r) f = 0 ∨
      used ≤ bufferInit bufferCacheTop r (memInit startMem r) f
    unfold bufferInit
    rcases reserve_cases r false _ _ (memInit startMem r) f with h | h
    · exact .inr h.ge
    · rw [h]
      exact (memInit_cases startMem r f).symm.imp id Eq.ge
  kernelDir := (reserve_of_used (memInit_tables (j := 0) (by decide))).ge
  kernelTables k hk := by
    have e : kernelTable k = frameNr (k + 1) := by
      unfold kernelPtCount at hk
      interval_cases k <;> decide
    have hk' : k + 1 < ktables := by
      have : ktables = 5 := by decide
      unfold kernelPtCount at hk
      omega
    rw [e]
    exact (reserve_of_used (memInit_tables hk')).ge
  identity k hk i := by
    have hk' : kernelTable k ≠ kernelPgDir ∧ 0x101 ≤ (kernelTable k).toNat ∧
        (kernelTable k).toNat < 0x101 + kernelPtCount := by
      unfold kernelPtCount at hk
      interval_cases k <;> decide
    show cow (setupPaging mem (kernelTable k) i) = false
    rw [setupPaging, if_neg hk'.1, if_pos hk'.2]
    simp [cow_eq, frameAddr]
  slots _ := rfl

/-- The frames between the buffer cache and `mem_map[]` are free. -/
theorem boot_free (cr0 : Word) (mem : Frame → Page) (disk : ℕ → Sector)
    (hdFault : ℕ → Option ℕ) (init : Task) (hs : startMem ≤ bufferCacheTop)
    (h₁ : mapNr bufferCacheTop ≤ j)
    (h₂ : j < mapNr ((r.memoryEnd - r.maxMapNr * 4) / pageSize * pageSize)) :
    (boot r startMem cr0 mem disk hdFault init).mm.memMap (frameNr j) = 0 := by
  have hj : j < r.maxMapNr := by
    have := r.maxMapNr_eq
    unfold mapNr lowMem pageSize at *
    omega
  have hmem : memInit startMem r (frameNr j) = 0 := by
    have hbuf : mapNr bufferCacheTop = 752 := by decide
    have hk : ktables = 5 := by decide
    have hlast : mapNr (startMem - 1) < j := by
      unfold mapNr lowMem pageSize bufferCacheTop at *
      omega
    unfold memInit
    split
    · rw [reserve_outside hj (.inr hlast), reserve_outside hj (.inl h₂), reserve_outside hj (.inr (by omega))]
    · rw [reserve_outside hj (.inl h₂), reserve_outside hj (.inr (by omega))]
  show bufferInit bufferCacheTop r (memInit startMem r) (frameNr j) = 0
  unfold bufferInit
  rw [reserve_outside hj (.inr ?_), hmem]
  have : mapNr (bufferCacheTop - 1) = 751 := by decide
  have : mapNr bufferCacheTop = 752 := by decide
  omega

/-- How many they are. -/
theorem boot_room (cr0 : Word) (mem : Frame → Page) (disk : ℕ → Sector)
    (hdFault : ℕ → Option ℕ) (init : Task) (hs : startMem ≤ bufferCacheTop) :
    mapNr ((r.memoryEnd - r.maxMapNr * 4) / pageSize * pageSize) - mapNr bufferCacheTop ≤
      (boot r startMem cr0 mem disk hdFault init).mm.countFreePages := by
  have hmax : mapNr ((r.memoryEnd - r.maxMapNr * 4) / pageSize * pageSize) ≤ r.maxMapNr := by
    have := r.maxMapNr_eq
    unfold mapNr lowMem pageSize at *
    omega
  have hle := r.maxMapNr_le
  generalize hlo : mapNr bufferCacheTop = lo
  generalize hhi : mapNr ((r.memoryEnd - r.maxMapNr * 4) / pageSize * pageSize) = hi at hmax
  have hl := Mm.length_le_countFreePages (m := (boot r startMem cr0 mem disk hdFault init).mm)
    (l := (range' lo (hi - lo)).map frameNr) ?_ fun g hg => ?_
  · simpa using hl
  · refine List.Nodup.map_on (fun i hi j hj e => ?_) nodup_range'
    have hi := mem_range'_1.mp hi
    have hj := mem_range'_1.mp hj
    have e := congrArg BitVec.toNat e
    rw [toNat_frameNr (by omega), toNat_frameNr (by omega)] at e
    omega
  · obtain ⟨j, hj, rfl⟩ := mem_map.mp hg
    have hj := mem_range'_1.mp hj
    refine ⟨?_, boot_free cr0 mem disk hdFault init hs (by omega) (by omega)⟩
    show 0x100 ≤ (frameNr j).toNat ∧ (frameNr j).toNat - 0x100 < r.maxMapNr
    rw [toNat_frameNr (by omega)]
    omega

end Boot

/-! ### A machine -/

/-- A machine with 16 MB. -/
def ram16 : Ram where
  memoryEnd := 0x1000000
  maxMapNr := 0xF00
  maxMapNr_eq := by decide
  aligned := by decide
  lower := by decide
  upper := by decide

/-- It has just been booted; the kernel's image ends at `0x60000`. -/
def machine : Sys :=
  boot ram16 0x61000 0#32 (fun _ => zeroPage) (fun _ _ => 0#32) (fun _ => none) {}

theorem machine_booted : Booted machine := booted_boot _ _ _ _ _ _ _

/-- No files. -/
def noFiles : FsView := ⟨fun _ => {}, fun _ _ => none⟩

theorem machine_room : 3000 ≤ machine.mm.countFreePages :=
  le_trans (by decide) (boot_room _ _ _ _ _ (show 0x61000 ≤ bufferCacheTop by decide))

end Linux001

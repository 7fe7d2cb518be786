import Linux001.Lib.Run
import Linux001.Mm.Boot

/-!
# Mm — What is never handed out

From the state that `mem_init()` and `buffer_init()` leave, any calls of `get_free_page()` and
`free_page()`: the three reservations cover their regions for every size of RAM, and `free_page()`
refuses whatever would undo one (`reserved_never_allocated`).
-/

namespace Linux001

open Function

/-- A call of the page allocator. -/
inductive PageCall where
  | get
  | free (addr : Word)

/-- The state after the call. -/
def Mm.call (tk : TaskTable) (m : Mm) : PageCall → Mm
  | .get => (getFreePage tk m).2
  | .free addr => m.freePage addr

/-- The page at `addr` is in RAM, and overlaps neither the kernel's tables nor the buffer cache nor
`mem_map[]`. -/
structure Unreserved (r : Ram) (addr : ℕ) : Prop where
  ram : lowMem ≤ addr ∧ addr + pageSize ≤ r.memoryEnd
  tables : kernelTablesEnd ≤ addr
  cache : addr + pageSize ≤ bufferCacheTop - nrBuffers * bufferHeadSize - nrBuffers * blockSize ∨
    bufferCacheTop ≤ addr
  map : addr + pageSize ≤ r.memoryEnd - r.maxMapNr * 4

/-- The frames that `mem_init` and `buffer_init` do not reserve. -/
theorem boot_unreserved {r : Ram} {startMem j : ℕ} (hj : j < r.maxMapNr)
    (h : bufferInit bufferCacheTop r (memInit startMem r) (frameNr j) ≠ used) :
    Unreserved r (frameAddr (frameNr j)).toNat := by
  have hmax := r.maxMapNr_eq
  have hle := r.maxMapNr_le
  have htables : ¬j < ktables := fun hlt => h (reserve_of_used (memInit_tables hlt))
  have hmap : j < mapNr ((r.memoryEnd - r.maxMapNr * 4) / pageSize * pageSize) := by
    by_contra hlt
    have hmap : ∀ map, reserve r false (mapNr ((r.memoryEnd - r.maxMapNr * 4) / pageSize * pageSize))
        (mapNr (r.memoryEnd - 1)) map (frameNr j) = used := fun map =>
      reserve_range (by omega) (by unfold mapNr lowMem pageSize at *; omega) hj
    refine h (reserve_of_used ?_)
    unfold memInit
    split
    · exact reserve_of_used (hmap _)
    · exact hmap _
  have hcache : ¬(_ ≤ j ∧ j ≤ _) := fun hin => h (reserve_range hin.1 hin.2 hj)
  rw [toNat_frameAddr, toNat_frameNr (by omega)]
  unfold ktables mapNr lowMem pageSize kernelTablesEnd bufferCacheTop nrBuffers bufferHeadSize blockSize at *
  refine ⟨?_, ?_, ?_, ?_⟩ <;> simp only [kernelTablesEnd, lowMem, pageSize, bufferCacheTop, nrBuffers,
    bufferHeadSize, blockSize] <;> omega

section Reserved
variable {tk : TaskTable} {m : Mm} {f : Frame}

/-- `free_page` leaves alone a frame that is reserved, or that is not the one at the address. -/
theorem Mm.freePage_keeps {addr : Word} (h : used ≤ m.memMap f ∨ addr ≠ frameAddr f) :
    (m.freePage addr).memMap f = m.memMap f := by
  unfold Mm.freePage
  simp only
  split_ifs with h₁ h₂ h₃ h₄ h₅ h₆
  any_goals rfl
  refine update_of_ne ?_ _ _
  rintro rfl
  refine h.elim h₆ fun hne => hne (BitVec.eq_of_toNat_eq ?_)
  rw [toNat_frameAddr, frameOf, BitVec.extractLsb'_toNat, Nat.shiftRight_eq_div_pow]
  unfold pageSize at h₃
  omega

variable (h : ∀ n t, tk n = some t → t.pgDir = none)

include h

/-- **`get_free_page` without address spaces**: the reclaimer finds nothing to take. -/
theorem getFreePage_kernel (m : Mm) : ∃ m₁, m₁.memMap = m.memMap ∧ m₁.ram = m.ram ∧
    (getFreePage tk m = (none, m₁) ∨ ∃ f, m₁.findFree = some f ∧ getFreePage tk m = (some f, m₁.takeFrame f)) := by
  obtain ⟨m₁, hr, hres⟩ := getFreePage_spec tk m
  have hno : ∀ {m : Mm} {t pt i}, ¬ Scanned tk m t pt i := by
    rintro m t pt i ⟨⟨n, hn⟩, ⟨d, hd, -⟩, -, -⟩
    rw [h n t hn] at hd
    cases hd
  suffices hsame : m₁.memMap = m.memMap ∧ m₁.ram = m.ram from ⟨m₁, hsame.1, hsame.2, hres⟩
  clear hres
  induction hr with
  | refl => exact ⟨rfl, rfl⟩
  | tail _ hstep ih =>
    rcases hstep with hq | ht | ⟨k, j, -, rfl⟩
    · cases hq with
      | unaccess hs => exact absurd hs hno
      | ioFail hf =>
        rw [(Mm.swapOutPage_none hf).2]
        exact ih
    · cases ht with
      | drop hs | swapOut hs | dropShare hs => exact absurd hs hno
    · exact ih

/-- What it returns was free, and what is in use stays as it was. -/
theorem getFreePage_frame (m : Mm) (f : Frame) : (getFreePage tk m).2.ram = m.ram ∧
    ((getFreePage tk m).1 = some f → m.memMap f = 0 ∧ m.InMap f ∧ (getFreePage tk m).2.memMap f = 1) ∧
    (m.memMap f ≠ 0 → (getFreePage tk m).2.memMap f = m.memMap f) := by
  obtain ⟨m₁, hm, hr, e | ⟨g, hg, e⟩⟩ := getFreePage_kernel h m
  · rw [e]
    exact ⟨hr, (fun hf => by cases hf), fun _ => congrFun hm f⟩
  · obtain ⟨h₀, hin⟩ := Mm.findFree_some hg
    rw [hm] at h₀
    unfold Mm.InMap at hin ⊢
    rw [hr] at hin
    rw [e]
    refine ⟨hr, fun hf => ?_, fun hne => ?_⟩
    · obtain rfl := Option.some.inj hf
      exact ⟨h₀, hin, update_self ..⟩
    · have hfg : f ≠ g := by
        rintro rfl
        exact hne h₀
      exact (update_of_ne hfg _ _).trans (congrFun hm f)

/-- A frame in use keeps its count, but for a `free_page` of it, if it is not reserved. -/
theorem Mm.calls_keep {l : List PageCall} (hpos : m.memMap f ≠ 0)
    (hl : ∀ c ∈ l, used ≤ m.memMap f ∨ c ≠ .free (frameAddr f)) :
    (l.foldl (Mm.call tk) m).memMap f = m.memMap f := by
  induction l generalizing m with
  | nil => rfl
  | cons c l ih =>
    obtain ⟨hc, hl⟩ := List.forall_mem_cons.mp hl
    have hk : (m.call tk c).memMap f = m.memMap f := by
      cases c with
      | free addr => exact Mm.freePage_keeps (hc.imp id fun hne e => hne (e ▸ rfl))
      | get => exact (getFreePage_frame h m f).2.2 hpos
    exact (ih (by rwa [hk]) (by rwa [hk])).trans hk

end Reserved

/-- **Reserved memory is never handed out**, and no page twice without a `free_page` of it, whatever
`free_page` is called with. -/
theorem reserved_never_allocated (r : Ram) (startMem : ℕ) (cr0 : Word) (mem : Frame → Page) (disk : ℕ → Sector)
    (hdFault : ℕ → Option ℕ) (init : Task) (calls later : List PageCall) (f : Frame) :
    let s := boot r startMem cr0 mem disk hdFault init
    let m := calls.foldl (Mm.call s.tk) s.mm
    (getFreePage s.tk m).1 = some f → Unreserved r (frameAddr f).toNat ∧
      ((getFreePage s.tk (later.foldl (Mm.call s.tk) (getFreePage s.tk m).2)).1 = some f →
        .free (frameAddr f) ∈ later) := by
  intro s m hf
  have hno : ∀ n t, s.tk n = some t → t.pgDir = none := fun _ _ =>
    (booted_boot r startMem cr0 mem disk hdFault init).tasks
  have hram : m.ram = r := Run.inv (I := fun m : Mm => m.ram = r) (fun {m c} hr => hr ▸ by
    cases c with
    | get => exact (getFreePage_frame hno m f).1
    | free addr => exact m.freePage_ram addr) calls rfl
  obtain ⟨h₀, hin, h₁⟩ := (getFreePage_frame hno m f).2.1 hf
  refine ⟨?_, fun hf' => ?_⟩
  · obtain ⟨j, hj, rfl⟩ : ∃ j < r.maxMapNr, f = frameNr j := by
      rw [← hram]
      simpa [Mm.frames, eq_comm] using Mm.mem_frames.mpr hin
    -- a frame that is reserved at boot would still be
    refine @boot_unreserved _ startMem _ hj fun hres => ?_
    have hkeep := Mm.calls_keep hno (m := s.mm) (l := calls) (hres.trans_ne (by decide)) fun _ _ => .inl hres.ge
    exact absurd ((hkeep.symm.trans h₀).symm.trans hres) (by decide)
  · by_contra hmem
    have hkeep := Mm.calls_keep hno (l := later) (h₁.trans_ne (by decide)) fun c hc => .inr fun e => hmem (e ▸ hc)
    have hzero := ((getFreePage_frame hno _ f).2.1 hf').1
    rw [hkeep, h₁] at hzero
    cases hzero

/-- A `free_page` that is refused, and two pages. -/
theorem reserved_never_allocated_machine : let m := machine.mm.freePage 0#32
    ∃ f, (getFreePage machine.tk m).1 = some f ∧ Unreserved ram16 (frameAddr f).toNat ∧
      (getFreePage machine.tk (getFreePage machine.tk (getFreePage machine.tk m).2).2).1 ≠ some f := by
  intro m
  have hm : m = machine.mm := by simp [m, Mm.freePage, lowMem]
  cases hf : machine.mm.findFree with
  | none => exact absurd (Mm.countFreePages_of_none hf ▸ machine_room) (by decide)
  | some f =>
    have hget : (getFreePage machine.tk m).1 = some f := by
      unfold getFreePage
      rw [hm, hf]
    obtain ⟨hin, htwice⟩ := reserved_never_allocated ram16 _ _ _ _ _ _ [.free 0#32] [.get] f hget
    exact ⟨f, hget, hin, fun h => by simpa using htwice h⟩

end Linux001

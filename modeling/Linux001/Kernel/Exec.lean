import Linux001.Mm.Eager
import Linux001.Mm.View

/-!
# Kernel — the image that `sys_execve()` sets up

The program header loop of `sys_execve()` writes no page: it records, for every LOAD segment, where
its bytes are (`Phdr.region`), and `page_in_image()` reads them on the first fault.  The loop is
followed from the header bytes in the file on; `Phdr.elfByte` is what the header means, and
`image_read_iff` compares the two.  The checks of the loop add at 32 bits (`regions_inside_iff`).
-/

namespace Linux001

open Function List

/-! ### Program headers -/

/-- `rd32(b + o)`. -/
def rd32 (b : List Byte) (o : ℕ) : Word :=
  b.getD (o + 3) 0#8 ++ b.getD (o + 2) 0#8 ++ b.getD (o + 1) 0#8 ++ b.getD o 0#8

/-- `rd16(b + o)`. -/
def rd16 (b : List Byte) (o : ℕ) : BitVec 16 := b.getD (o + 1) 0#8 ++ b.getD o 0#8

/-- The fields of a program header that the loop reads. -/
structure Phdr where
  pType : Word
  pOffset : Word
  pVaddr : Word
  pFilesz : Word
  pMemsz : Word
  pFlags : Word
  deriving DecidableEq

/-- `PT_LOAD`. -/
def ptLoad : Word := 1#32

/-- `ELF_HDR_MAX_SKIP`. -/
def elfHdrMaxSkip : Word := 0x1000#32

namespace Phdr

def ofBytes (b : List Byte) : Phdr := ⟨rd32 b 0, rd32 b 4, rd32 b 8, rd32 b 16, rd32 b 20, rd32 b 24⟩

/-- The loop passes over the header; the sum wraps at 32 bits. -/
def skipped (p : Phdr) : Bool :=
  p.pType ≠ ptLoad ∨ p.pMemsz = 0#32 ∨ p.pVaddr + p.pMemsz ≤ userProgStart

/-- The segment with its first `skip` bytes left out. -/
def drop (p : Phdr) (skip : Word) : Phdr :=
  { p with
    pOffset := p.pOffset + skip, pVaddr := p.pVaddr + skip, pFilesz := p.pFilesz - skip
    pMemsz := if skip < p.pMemsz then p.pMemsz - skip else 0#32 }

/-- A segment that starts below the image base is trimmed to it; `none` if it starts more than a
page below. -/
def trim (p : Phdr) : Option Phdr :=
  if p.pVaddr < userProgStart then
    let skip := userProgStart - p.pVaddr
    if elfHdrMaxSkip < skip then none
    else some (p.drop (if p.pFilesz < skip then p.pFilesz else skip))
  else some p

/-- The trimmed segment is not inside the program image; the sums wrap at 32 bits. -/
def outside (p : Phdr) : Bool :=
  userProgEnd < p.pVaddr + p.pFilesz ∨ userProgEnd < p.pVaddr + p.pMemsz ∨ p.pVaddr < userProgStart

/-- The region that is recorded for a segment. -/
def region (p : Phdr) : ExeRegion :=
  let page := pageBase p.pVaddr
  let back := p.pVaddr - page
  { va := page
    fileOff := if back ≤ p.pOffset then p.pOffset - back else 0#32
    filesz := p.pFilesz + back
    memsz := p.pMemsz + back
    flags := p.pFlags }

end Phdr

/-! ### The header loop -/

/-- `exe_regions`, `nr_exe_regions` and `max_end`, which the loop writes. -/
structure Image where
  region : Fin 4 → ExeRegion
  nr : ℕ := 0
  maxEnd : Word := 0#32

namespace Image

/-- The next entry of the table; `none` if it is full. -/
def record (m : Image) (r : ExeRegion) : Option Image :=
  if h : m.nr < 4 then some { m with region := update m.region ⟨m.nr, h⟩ r, nr := m.nr + 1 }
  else none

/-- `max_end` covers the segment. -/
def reach (m : Image) (p : Phdr) : Image :=
  { m with maxEnd := if m.maxEnd < p.pVaddr + p.pMemsz then p.pVaddr + p.pMemsz else m.maxEnd }

/-- One pass of the loop, for a header that has been read; `false` is `goto fail_as`. -/
def load (m : Image) (p : Phdr) : Bool × Image :=
  if p.skipped then (true, m)
  else
    match p.trim with
    | none => (false, m)
    | some p =>
      if p.outside then (false, m)
      else if p.pMemsz = 0#32 then (true, m.reach p)
      else
        match m.record p.region with
        | none => (false, m)
        | some m => (true, m.reach p)

/-- The loop over the headers `i`, `i + 1`, …, `n` of them. -/
def loadAll (read : ℕ → Option Phdr) : ℕ → ℕ → Image → Bool × Image
  | 0, _, m => (true, m)
  | n + 1, i, m =>
    match read i with
    | none => (false, m)
    | some p =>
      match m.load p with
      | (false, m) => (false, m)
      | (true, m) => loadAll read n (i + 1) m

def regions (m : Image) : List ExeRegion := ((List.finRange 4).take m.nr).map m.region

end Image

/-- The `i`th program header: `sys_lseek` and `sys_read` of 32 bytes. -/
def readPhdr (bread : Bread) (ino : MInode) (phoff : Word) (phentsize : BitVec 16) (i : ℕ) :
    Option Phdr :=
  let pos := phoff + BitVec.ofNat 32 i * phentsize.setWidth 32
  if pos.toInt < 0 then none
  else
    let r := fileRead bread ino pos 32
    if r.1 = 32 then some (.ofBytes r.2) else none

/-! ### What the loop records -/

/-- The segment that the loop records for a header. -/
def Phdr.segment (p : Phdr) : Option Phdr :=
  if p.skipped then none else p.trim.filter fun p => p.pMemsz ≠ 0#32

/-- The accepted segments of a file, as trimmed. -/
def segments (read : ℕ → Option Phdr) (i n : ℕ) : List Phdr :=
  ((List.range' i n).filterMap read).filterMap Phdr.segment

/-- A segment that ends behind the image base has bytes left when it is trimmed. -/
theorem Phdr.trim_pos {p q : Phdr} (hs : p.skipped = false) (ht : p.trim = some q) : q.pMemsz ≠ 0#32 := by
  obtain ⟨-, hs⟩ := not_or.mp (of_decide_eq_false hs)
  obtain ⟨hz, hend⟩ := not_or.mp hs
  have hdrop : p.pVaddr < userProgStart → ∀ k, k ≤ userProgStart - p.pVaddr → (p.drop k).pMemsz ≠ 0#32 := by
    intro hlow k hk
    simp only [drop, userProgStart] at hk hend hlow ⊢
    rw [if_pos (by bv_omega)]
    bv_omega
  unfold trim at ht
  simp only at ht
  split_ifs at ht with hlow hskip hfile
  · cases ht
    exact hdrop hlow _ (by bv_omega)
  · cases ht
    exact hdrop hlow _ (by bv_omega)
  · cases ht
    exact hz

/-- The file's part of a segment wraps around when it is moved to the start of its page, as the region
has it. -/
def Phdr.Wraps (p : Phdr) : Prop :=
  userProgStart ≤ p.pVaddr ∧ 2 ^ 32 ≤ p.pFilesz.toNat + p.pVaddr.toNat % 4096

/-- **What the checks of the loop leave out**: the segment ends below 4 GB, and the file has no more of it
than memory.  One of the two is enough if the file's part wraps around. -/
def Phdr.Sound (p : Phdr) : Prop :=
  (p.pFilesz ≤ p.pMemsz ∧ p.pVaddr.toNat + p.pMemsz.toNat < 2 ^ 32) ∨
    p.Wraps ∧ (p.pFilesz ≤ p.pMemsz ∨ p.pVaddr.toNat + p.pMemsz.toNat < 2 ^ 32)

/-- A segment that is trimmed begins at the image base. -/
theorem Phdr.trim_cases {p q : Phdr} (ht : p.trim = some q) (ho : q.outside = false) :
    (userProgStart ≤ p.pVaddr ∧ q = p) ∨
      p.pVaddr < userProgStart ∧ userProgStart - p.pVaddr ≤ p.pFilesz ∧
        q = p.drop (userProgStart - p.pVaddr) := by
  obtain ⟨-, ho⟩ := not_or.mp (of_decide_eq_false ho)
  obtain ⟨-, hva⟩ := not_or.mp ho
  unfold trim at ht
  simp only at ht
  split_ifs at ht with hlow hskip hfile
  · -- the whole file's part is left out, and the segment still begins below the base
    obtain rfl := Option.some.inj ht
    simp only [drop, userProgStart] at hva hfile hlow
    bv_omega
  · exact .inr ⟨hlow, BitVec.not_lt.mp hfile, (Option.some.inj ht).symm⟩
  · exact .inl ⟨BitVec.not_lt.mp hlow, (Option.some.inj ht).symm⟩

/-- **The region of an accepted segment**, by its header. -/
theorem Phdr.region_sound_iff {p q : Phdr} (hs : p.skipped = false) (ht : p.trim = some q)
    (ho : q.outside = false) :
    (q.region.va.toNat + q.region.memsz.toNat < 2 ^ 32 ∧ q.region.filesz ≤ q.region.memsz) ↔ p.Sound := by
  obtain ⟨-, hs⟩ := not_or.mp (of_decide_eq_false hs)
  obtain ⟨hz, hend⟩ := not_or.mp hs
  have hpage := toNat_pageBase p.pVaddr
  unfold Sound Wraps
  obtain ⟨hva, rfl⟩ | ⟨hlow, hfile, rfl⟩ := trim_cases ht ho
  · simp only [region]
    generalize pageBase q.pVaddr = page at hpage ⊢
    simp only [userProgStart] at hend hva ⊢
    bv_omega
  · have hbase : pageBase userProgStart = userProgStart := by decide
    have hstart : p.pVaddr + (userProgStart - p.pVaddr) = userProgStart := by bv_omega
    have hmem : userProgStart - p.pVaddr < p.pMemsz := by
      simp only [userProgStart] at hend hlow ⊢
      bv_omega
    simp only [region, drop, hstart, hbase, if_pos hmem]
    simp only [userProgStart] at hend hlow hfile hmem ⊢
    bv_omega

namespace Image

variable {m m' : Image} {p : Phdr} {read : ℕ → Option Phdr}

theorem reach_regions : (m.reach p).regions = m.regions := rfl

theorem regions_record {r : ExeRegion} (h : m.record r = some m') : m'.regions = m.regions ++ [r] := by
  have htake : ∀ k : Fin 4, (finRange 4).take (k.val + 1) = (finRange 4).take k.val ++ [k] := by
    decide
  have hnot : ∀ k : Fin 4, k ∉ (finRange 4).take k.val := by decide
  unfold record at h
  split at h
  · next hlt =>
    obtain rfl := Option.some.inj h
    show ((finRange 4).take (m.nr + 1)).map (update m.region ⟨m.nr, hlt⟩ r) = _
    rw [htake ⟨m.nr, hlt⟩, map_append, map_singleton, update_self]
    refine congrArg (· ++ [r]) (map_congr_left fun k hk => ?_)
    refine update_of_ne ?_ _ _
    rintro rfl
    exact hnot ⟨m.nr, hlt⟩ hk
  · cases h

/-- **What an accepted header does**: nothing, or its segment is recorded. -/
theorem load_cases (h : m.load p = (true, m')) : (p.skipped = true ∧ m' = m) ∨
    ∃ q m₁, p.skipped = false ∧ p.trim = some q ∧ q.outside = false ∧ q.pMemsz ≠ 0#32 ∧
      m.record q.region = some m₁ ∧ m' = m₁.reach q := by
  unfold load at h
  split at h
  · next hs =>
    cases h
    exact .inl ⟨hs, rfl⟩
  next hs =>
  have hs : p.skipped = false := by simpa using hs
  cases ht : p.trim with
  | none =>
    rw [ht] at h
    cases h
  | some q =>
    have hz := Phdr.trim_pos hs ht
    simp only [ht, if_neg hz] at h
    split at h
    · cases h
    next ho =>
    cases hr : m.record q.region with
    | none =>
      rw [hr] at h
      cases h
    | some m₁ =>
      simp only [hr, Prod.mk.injEq, true_and] at h
      exact .inr ⟨q, m₁, hs, rfl, by simpa using ho, hz, hr, h.symm⟩

/-- An accepted header adds the region of its segment, if it has one. -/
theorem load_regions (h : m.load p = (true, m')) :
    m'.regions = m.regions ++ p.segment.toList.map Phdr.region := by
  unfold Phdr.segment
  rcases load_cases h with ⟨hs, rfl⟩ | ⟨q, m₁, hs, ht, -, hz, hr, rfl⟩
  · simp [hs]
  · rw [if_neg (by simp [hs]), ht]
    simpa [Option.filter, hz, reach_regions] using regions_record hr

/-- **The table is the segments', in the order of the headers.** -/
theorem loadAll_regions {n i : ℕ} (h : loadAll read n i m = (true, m')) :
    m'.regions = m.regions ++ (segments read i n).map Phdr.region := by
  induction n generalizing i m with
  | zero =>
    cases h
    simp [segments]
  | succ n ih =>
    unfold loadAll at h
    cases hp : read i with
    | none =>
      rw [hp] at h
      cases h
    | some p =>
      simp only [hp] at h
      cases hl : m.load p with
      | mk ok m₁ =>
        rw [hl] at h
        cases ok with
        | false => cases h
        | true =>
          rw [ih h, load_regions hl, append_assoc]
          congr 1
          cases hseg : p.segment <;>
            simp [segments, range'_succ, hp, hseg]

/-! ### Where the regions lie -/

/-- `max_end` is the largest end of a region, and 0 without one. -/
def EndsAt (m : Image) : Prop := (∀ r ∈ m.regions, r.va + r.memsz ≤ m.maxEnd) ∧
  ((m.regions = [] ∧ m.maxEnd = 0#32) ∨ ∃ r ∈ m.regions, r.va + r.memsz = m.maxEnd)

/-- What the checks of the loop come to: the ends wrap at 32 bits, and `p_filesz` is not compared. -/
structure Checked (m : Image) : Prop where
  nr : m.nr ≤ 4
  va : ∀ r ∈ m.regions, pageBase r.va = r.va ∧ userProgStart ≤ r.va ∧ r.va + r.memsz ≤ userProgEnd
  ends : m.EndsAt

theorem Checked.load (hm : Checked m) (h : m.load p = (true, m')) : Checked m' := by
  rcases load_cases h with ⟨-, rfl⟩ | ⟨q, m₁, -, -, ho, -, hr, rfl⟩
  · exact hm
  obtain ⟨-, ho⟩ := not_or.mp (of_decide_eq_false ho)
  obtain ⟨hend, hva⟩ := not_or.mp ho
  have hregion : q.region.va + q.region.memsz = q.pVaddr + q.pMemsz := by
    simp only [Phdr.region]
    bv_omega
  have hbase : pageBase q.region.va = q.region.va ∧ userProgStart ≤ q.region.va := by
    have hpage := toNat_pageBase q.pVaddr
    refine ⟨BitVec.eq_of_toNat_eq ?_, BitVec.le_def.mpr ?_⟩
    · simp only [Phdr.region, toNat_pageBase]
      omega
    · have := BitVec.le_def.mp (BitVec.not_lt.mp hva)
      simp only [Phdr.region, toNat_pageBase, userProgStart, BitVec.toNat_ofNat] at this ⊢
      omega
  have hregs : (m₁.reach q).regions = m.regions ++ [q.region] := reach_regions.trans (regions_record hr)
  have hmax : m₁.maxEnd = m.maxEnd ∧ m₁.nr ≤ 4 := by
    unfold record at hr
    split at hr
    · cases hr
      exact ⟨rfl, by assumption⟩
    · cases hr
  refine ⟨hmax.2, fun r hr => ?_, ?_⟩
  · rw [hregs] at hr
    rcases mem_append.mp hr with hr | hr
    · exact hm.va r hr
    · obtain rfl := mem_singleton.mp hr
      exact ⟨hbase.1, hbase.2, by rw [hregion]; bv_omega⟩
  have hreach : (m₁.reach q).maxEnd = if m.maxEnd < q.pVaddr + q.pMemsz then q.pVaddr + q.pMemsz else m.maxEnd := by
    rw [← hmax.1]
    rfl
  unfold EndsAt
  rw [hregs, hreach, ← hregion]
  obtain ⟨hle, hlast⟩ := hm.ends
  split
  · next hlt =>
    refine ⟨fun r hr => ?_, .inr ⟨q.region, by simp, rfl⟩⟩
    rcases mem_append.mp hr with hr | hr
    · have := hle r hr
      bv_omega
    · rw [mem_singleton.mp hr]
      exact BitVec.le_refl _
  · next hge =>
    refine ⟨fun r hr => ?_, ?_⟩
    · rcases mem_append.mp hr with hr | hr
      · exact hle r hr
      · rw [mem_singleton.mp hr]
        bv_omega
    · rcases hlast with ⟨-, h₀⟩ | ⟨r, hr, e⟩
      · exact .inr ⟨q.region, by simp, by bv_omega⟩
      · exact .inr ⟨r, mem_append_left _ hr, e⟩

theorem Checked.loadAll {n i : ℕ} (hm : Checked m) (h : loadAll read n i m = (true, m')) : Checked m' := by
  induction n generalizing i m with
  | zero =>
    cases h
    exact hm
  | succ n ih =>
    unfold Image.loadAll at h
    split at h
    · cases h
    split at h
    · cases h
    · next hl => exact ih (hm.load hl) h

/-- Every header of an accepted program that is not passed over is inside the image as far as the checks
go. -/
theorem loadAll_inside {n i : ℕ} (h : loadAll read n i m = (true, m')) {k : ℕ} (hk : k < n)
    (hp : read (i + k) = some p) (hs : p.skipped = false) :
    ∃ q, p.trim = some q ∧ q.outside = false := by
  induction n generalizing i m k with
  | zero => omega
  | succ n ih =>
    unfold loadAll at h
    split at h
    · cases h
    next p₀ hp₀ =>
    split at h
    · cases h
    next m₁ hl =>
    cases k with
    | zero =>
      obtain rfl : p₀ = p := Option.some.inj (hp₀.symm.trans hp)
      rcases load_cases hl with ⟨hs', -⟩ | ⟨q, -, -, ht, ho, -⟩
      · rw [hs] at hs'
        cases hs'
      · exact ⟨q, ht, ho⟩
    | succ k =>
      rw [show i + (k + 1) = i + 1 + k by omega] at hp
      exact ih h (k := k) (by omega) hp

/-- The accepted segments come from headers that are not passed over, and are inside the image. -/
theorem mem_segments {n : ℕ} (h : Image.loadAll read n 0 m = (true, m')) {q : Phdr} (hq : q ∈ segments read 0 n) :
    ∃ i < n, ∃ p, read i = some p ∧ p.skipped = false ∧ p.trim = some q ∧ q.outside = false := by
  simp only [segments, mem_filterMap, mem_range'_1, Phdr.segment] at hq
  obtain ⟨p, ⟨i, hi, hp⟩, hq⟩ := hq
  split at hq
  · cases hq
  next hs =>
  have hs : p.skipped = false := by simpa using hs
  obtain ⟨ht, -⟩ := Option.filter_eq_some_iff.mp hq
  obtain ⟨q', ht', ho⟩ := loadAll_inside h (k := i) (by omega) (by simpa using hp) hs
  obtain rfl : q' = q := Option.some.inj (ht'.symm.trans ht)
  exact ⟨i, by omega, p, hp, hs, ht, ho⟩

/-- The recorded regions are those of the headers that are not passed over. -/
theorem mem_regions_iff {n : ℕ} {r₀ : Fin 4 → ExeRegion} {r : ExeRegion}
    (h : Image.loadAll read n 0 { region := r₀ } = (true, m)) :
    r ∈ m.regions ↔ ∃ i < n, ∃ p q, read i = some p ∧ p.skipped = false ∧ p.trim = some q ∧
      q.outside = false ∧ q.region = r := by
  rw [loadAll_regions h, show regions { region := r₀ } = [] from rfl, nil_append]
  rw [mem_map]
  constructor
  · rintro ⟨q, hq, rfl⟩
    obtain ⟨i, hi, p, hp, hs, ht, ho⟩ := mem_segments h hq
    exact ⟨i, hi, p, q, hp, hs, ht, ho, rfl⟩
  · rintro ⟨i, hi, p, q, hp, hs, ht, -, rfl⟩
    refine ⟨q, ?_, rfl⟩
    simp only [segments, mem_filterMap, mem_range'_1, Phdr.segment]
    refine ⟨p, ⟨i, by omega, hp⟩, ?_⟩
    rw [if_neg (by simp [hs]), Option.filter_eq_some_iff]
    exact ⟨ht, by simpa using Phdr.trim_pos hs ht⟩

/-- **The table of an accepted program** is inside the image exactly if every header that is not passed
over is sound. -/
theorem regions_inside_iff {n : ℕ} {r₀ : Fin 4 → ExeRegion}
    (h : Image.loadAll read n 0 { region := r₀ } = (true, m)) :
    (m.nr ≤ 4 ∧ m.EndsAt ∧ ∀ r ∈ m.regions, pageBase r.va = r.va ∧ userProgStart ≤ r.va ∧
      r.va.toNat + r.memsz.toNat ≤ userProgEnd.toNat ∧ r.filesz ≤ r.memsz) ↔
    ∀ i < n, ∀ p, read i = some p → p.skipped = false → p.Sound := by
  have h₀ : Checked { region := r₀ } := ⟨Nat.zero_le 4, by simp [regions], by simp [regions], .inl ⟨rfl, rfl⟩⟩
  have hm := h₀.loadAll h
  constructor
  · rintro ⟨-, -, hr⟩ i hi p hp hs
    obtain ⟨q, ht, ho⟩ := loadAll_inside h hi (by simpa using hp) hs
    obtain ⟨-, -, hend, hfile⟩ := hr q.region ((mem_regions_iff h).mpr ⟨i, hi, p, q, hp, hs, ht, ho, rfl⟩)
    exact (Phdr.region_sound_iff hs ht ho).mp ⟨hend.trans_lt (by decide), hfile⟩
  · intro hall
    refine ⟨hm.nr, hm.ends, fun r hmem => ?_⟩
    obtain ⟨hbase, hva, hend⟩ := hm.va r hmem
    obtain ⟨i, hi, p, q, hp, hs, ht, ho, rfl⟩ := (mem_regions_iff h).mp hmem
    obtain ⟨hwrap, hfile⟩ := (Phdr.region_sound_iff hs ht ho).mpr (hall i hi p hp hs)
    refine ⟨hbase, hva, ?_, hfile⟩
    rw [BitVec.le_def, BitVec.toNat_add_of_lt hwrap] at hend
    exact hend

/-- The table of one header. -/
def single (p : Phdr) : Bool × Image := Image.loadAll (fun _ => some p) 1 0 { region := fun _ => {} }

/-- A segment with a tail of zeroes. -/
def bssSeg : Phdr := ⟨ptLoad, 0x1000#32, 0x08000010#32, 0x20#32, 0x800#32, 6#32⟩

theorem bssSeg_inside : (single bssSeg).1 = true ∧ ∀ r ∈ (single bssSeg).2.regions,
    r.va.toNat + r.memsz.toNat ≤ userProgEnd.toNat := by
  have h : Image.loadAll (fun _ => some bssSeg) 1 0 { region := fun _ => {} } = (true, (single bssSeg).2) := rfl
  have hsound : ∀ i < 1, ∀ p, some bssSeg = some p → p.skipped = false → p.Sound := by
    rintro i - p hp -
    obtain rfl := Option.some.inj hp
    exact .inl ⟨by decide, by decide⟩
  exact ⟨rfl, fun r hr => (((regions_inside_iff h).mpr hsound).2.2 r hr).2.2.1⟩

def hugeSeg : Phdr := ⟨ptLoad, 0#32, 0x08001000#32, 0#32, 0xFFFFF800#32, 6#32⟩

/-- **A segment of almost 4 GB is accepted**: its end wraps around to 0x08000800, which the check of `max_end`
accepts too.  So is one with more bytes in the file than in memory. -/
theorem hugeSeg_accepted : (single hugeSeg).1 = true ∧ (single hugeSeg).2.maxEnd = 0x08000800#32 ∧
    (single hugeSeg).2.regions = [⟨0x08001000#32, 0#32, 0#32, 0xFFFFF800#32, 6#32⟩] ∧
    (single { bssSeg with pFilesz := 0x1000#32 }).1 = true ∧
    (single { bssSeg with pFilesz := 0x1000#32 }).2.regions =
      [⟨0x08000000#32, 0xFF0#32, 0x1010#32, 0x810#32, 6#32⟩] := by
  decide

end Image

/-! ### What a segment means -/

/-- The byte of a file at `pos`, if the file has it and it can be read. -/
def MInode.fileByte (ino : MInode) (bread : Bread) (pos : ℕ) : Option Byte :=
  if pos < ino.iSize.toNat then ino.byteAt bread pos else none

/-- The byte that a segment has at `va`: the file's, and zero behind `p_filesz`.  `none`: the file
cannot deliver it. -/
def Phdr.elfByte (ino : MInode) (bread : Bread) (p : Phdr) (va : Word) : Option Byte :=
  if va - p.pVaddr < p.pFilesz then ino.fileByte bread (p.pOffset.toNat + (va - p.pVaddr).toNat)
  else some 0#8

/-- The bytes that a region gives to the page at `page`. -/
def ExeRegion.pageBytes (ino : MInode) (bread : Bread) (r : ExeRegion) (page : Word) : List Byte :=
  if r.filesz ≤ page - r.va then []
  else
    ino.bytesFrom bread (r.fileOff + (page - r.va)).toNat
      (min (min (r.filesz - (page - r.va)).toNat pageSize) (ino.room (r.fileOff + (page - r.va))))

/-- The byte that the loader gives to `va`: that of the first segment whose region has the page,
and zero where that has none. -/
def loadedByte (ino : MInode) (bread : Bread) (segs : List Phdr) (va : Word) : Byte :=
  if userProgStart ≤ va ∧ va < userProgEnd then
    match segs.find? fun q => q.region.covers (pageBase va) with
    | some q => ((q.region.pageBytes ino bread (pageBase va))[(pageOffset va).val]?).getD 0#8
    | none => 0#8
  else 0#8

/-- What the first read of a byte is to do: deliver it, or kill the task if the file cannot. -/
def ReadsAs (want : Option Byte) (o : Outcome) : Prop :=
  match want with
  | some b => o = .done b
  | none => o = .killed

section
variable {fs : FsView} {t : Task} {e : InodeRef} {va : Word}

theorem progWindow_pageBase (va : Word) : (userProgStart ≤ pageBase va ∧ pageBase va < userProgEnd) ↔
    (userProgStart ≤ va ∧ va < userProgEnd) := by
  simp only [userProgStart, userProgEnd, BitVec.le_def, BitVec.lt_def, BitVec.toNat_ofNat,
    toNat_pageBase, Nat.reducePow, Nat.reduceMod]
  omega

theorem imageByte_segments {segs : List Phdr} (he : t.exeInode = some e)
    (hr : t.regions = segs.map Phdr.region) (hx : pdeIx va = userPdeIndex) :
    t.imageByte fs (pteIx va) (pageOffset va) = loadedByte (fs.inode e) fs.bread segs va := by
  have hat : t.regionAt (pageBase va) = (segs.find? fun q => q.region.covers (pageBase va)).map Phdr.region := by
    unfold Task.regionAt
    rw [hr, find?_map]
    rfl
  unfold Task.imageByte loadedByte
  rw [userVa_pteIx hx]
  refine if_congr (progWindow_pageBase va) ?_ rfl
  unfold Task.imageBytes ExeRegion.pageBytes
  rw [he, hat]
  cases segs.find? fun q => q.region.covers (pageBase va) <;> rfl

end

/-- **A segment that is loaded right** at `va`: it ends below 4 GB, has no more bytes in the file than in memory,
the file reaches back to the page it begins in, and the file's bytes from the start of `va`'s page on can be
read. -/
structure Phdr.Loads (p : Phdr) (ino : MInode) (bread : Bread) (va : Word) : Prop where
  below : p.pVaddr.toNat + p.pMemsz.toNat < 2 ^ 32
  filesz : p.pFilesz ≤ p.pMemsz
  back : p.pVaddr.toNat % 4096 ≤ p.pOffset.toNat
  read : va - p.pVaddr < p.pFilesz → ino.iSize.toNat < 2 ^ 31 ∧ ∀ k ≤ (pageOffset va).val,
    (ino.fileByte bread (p.pOffset.toNat + (va - p.pVaddr).toNat - k)).isSome = true

section
variable {ino : MInode} {bread : Bread} {p : Phdr} {va : Word}

/-- Where the page of `va` is in the segment's region. -/
theorem Phdr.Loads.page (h : p.Loads ino bread va) (hva : va - p.pVaddr < p.pMemsz) :
    p.region.covers (pageBase va) = true ∧ p.region.filesz.toNat = p.pFilesz.toNat + p.pVaddr.toNat % 4096 ∧
    (pageBase va - p.region.va).toNat + (pageOffset va).val = (va - p.pVaddr).toNat + p.pVaddr.toNat % 4096 ∧
    p.region.fileOff.toNat = p.pOffset.toNat - p.pVaddr.toNat % 4096 := by
  have hbelow := h.below
  have hfile := h.filesz
  have hback := h.back
  have hpage := toNat_pageBase p.pVaddr
  have hbase := toNat_pageBase va
  have hsub : (p.pVaddr - pageBase p.pVaddr).toNat = p.pVaddr.toNat % 4096 := by bv_omega
  refine ⟨?_, ?_, ?_, ?_⟩
  · refine decide_eq_true ⟨?_, ?_⟩ <;> simp only [Phdr.region] <;> bv_omega
  · simp only [Phdr.region]
    bv_omega
  · simp only [Phdr.region, pageOffset]
    bv_omega
  · simp only [Phdr.region]
    rw [if_pos (by bv_omega)]
    bv_omega

/-- The byte that the loader takes from the segment. -/
theorem Phdr.Loads.byte (h : p.Loads ino bread va) (hva : va - p.pVaddr < p.pMemsz) :
    p.elfByte ino bread va = some (((p.region.pageBytes ino bread (pageBase va))[(pageOffset va).val]?).getD 0#8) := by
  obtain ⟨-, hsz, hoff, hpos⟩ := h.page hva
  have hback := h.back
  unfold Phdr.elfByte ExeRegion.pageBytes
  by_cases hin : va - p.pVaddr < p.pFilesz
  · obtain ⟨hsize, hread⟩ := h.read hin
    have hin' := BitVec.lt_def.mp hin
    -- where the page begins in the file
    obtain ⟨a, ha⟩ : ∃ a, p.pOffset.toNat + (va - p.pVaddr).toNat = a + (pageOffset va).val :=
      ⟨_, (Nat.sub_add_cancel (by omega)).symm⟩
    rw [ha] at hread
    have hlt : a + (pageOffset va).val < ino.iSize.toNat := by
      by_contra hge
      have hb := hread 0 (Nat.zero_le _)
      rw [Nat.sub_zero, MInode.fileByte, if_neg hge] at hb
      cases hb
    have hbytes : ∀ k < (pageOffset va).val + 1, ino.byteAt bread (a + k) =
        some ((ino.byteAt bread (a + k)).getD 0#8) := by
      intro k hk
      have hb := hread ((pageOffset va).val - k) (Nat.sub_le ..)
      rw [show a + (pageOffset va).val - ((pageOffset va).val - k) = a + k by omega, MInode.fileByte,
        if_pos (by omega)] at hb
      obtain ⟨x, hx⟩ := Option.isSome_iff_exists.mp hb
      rw [hx]
      rfl
    have hstart : (p.region.fileOff + (pageBase va - p.region.va)).toNat = a := by
      rw [BitVec.toNat_add_of_lt] <;> omega
    have hle : (pageBase va - p.region.va).toNat < p.region.filesz.toNat := by omega
    have hcount : (pageOffset va).val < min (min (p.region.filesz - (pageBase va - p.region.va)).toNat pageSize)
        (ino.room (p.region.fileOff + (pageBase va - p.region.va))) := by
      refine lt_min (lt_min ?_ (pageOffset va).isLt) ?_
      · rw [BitVec.toNat_sub_of_le (BitVec.le_def.mpr hle.le)]
        omega
      · unfold MInode.room
        rw [if_pos ⟨by bv_omega, by bv_omega⟩]
        bv_omega
    obtain ⟨n, hn⟩ := Nat.exists_eq_add_of_lt hcount
    rw [if_pos hin, if_neg (BitVec.not_le.mpr (BitVec.lt_def.mpr hle)), hn, hstart, Nat.add_right_comm,
      MInode.bytesFrom_add hbytes, getElem?_append_left (by simp), getElem?_map, getElem?_range (Nat.lt_succ_self _),
      ha, MInode.fileByte, if_pos hlt]
    exact hbytes _ (Nat.lt_succ_self _)
  · rw [if_neg hin, getElem?_eq_none_iff.mpr]
    · rfl
    split
    · exact Nat.zero_le _
    · refine (MInode.length_bytesFrom_le ..).trans ((Nat.min_le_left ..).trans ((Nat.min_le_left ..).trans ?_))
      bv_omega

/-- The loader's byte is the segment's, if no segment before it has the page. -/
theorem loadedByte_of_loads {l₁ l₂ : List Phdr} (ho : p.outside = false) (h : p.Loads ino bread va)
    (hva : va - p.pVaddr < p.pMemsz) (hfirst : ∀ q ∈ l₁, q.region.covers (pageBase va) = false) :
    userAddrOk va 1#32 = true ∧ p.elfByte ino bread va = some (loadedByte ino bread (l₁ ++ p :: l₂) va) := by
  have hbelow := h.below
  obtain ⟨-, ho⟩ := not_or.mp (of_decide_eq_false ho)
  obtain ⟨hend, hlow⟩ := not_or.mp ho
  have hwin : userProgStart ≤ va ∧ va < userProgEnd := by
    unfold userProgStart userProgEnd at *
    constructor <;> bv_omega
  have hok : userAddrOk va 1#32 = true := by
    unfold userAddrOk
    unfold userProgStart userProgEnd at *
    rw [if_neg (by bv_omega), if_pos (by bv_omega)]
  have hfind : (l₁ ++ p :: l₂).find? (fun q => q.region.covers (pageBase va)) = some p := by
    rw [find?_append, find?_eq_none.mpr fun q hq => by simp [hfirst q hq], Option.none_or, find?_cons, (h.page hva).1]
  rw [loadedByte, if_pos hwin, hfind]
  exact ⟨hok, h.byte hva⟩

end

/-! ### The first read -/

section
variable {s₀ : Sys} {d pt : Frame} {fs : FsView} {t : Task} {n : Slot} {va : Word}

end

/-! ### Two segments in one page -/

/-- A new process, at the first fault. -/
theorem spawn_state (t₀ : Task) : ∃ t d pt,
    (run machine [.spawn 1 t₀]).tk 1 = some t ∧ t.withDir none = t₀.withDir none ∧ t.pgDir = some d ∧
    (run machine [.spawn 1 t₀]).mm.userPt (some d) = some pt ∧
    (∀ i, (run machine [.spawn 1 t₀]).mm.mem pt i = 0#32) ∧
    (getFreePage (run machine [.spawn 1 t₀]).tk (run machine [.spawn 1 t₀]).mm).1.isSome = true := by
  have hops : ∀ op ∈ [Op.spawn 1 t₀], op.Ring3 := by simp [Op.Ring3]
  obtain ⟨b, h, hk, hv⟩ := machine_run hops (by simp)
  have hroom := machine_room
  have hroom' := hk.room
  have hview : machine.view 1 = none := rfl
  have hv₁ : (run machine [.spawn 1 t₀]).view 1 = some { task := t₀.withDir none, vm := some fun _ => none } := by
    rw [hv]
    simp [Eager.step, Eager.spawn, hview]
  obtain ⟨t, d, ht, htt, hd, hpages⟩ := Sys.view_own hv₁
  have hl := h.inv.tasks ht hd
  refine ⟨t, d, b.tbl d, ht, htt, hd, h.inv.userPt_eq hl, fun i => ?_, ?_⟩
  · have hpg := congrFun hpages i
    rw [h.inv.pages_eq hl] at hpg
    have hp : present (b.pte d i) = false := by
      rw [← h.inv.mem_tbl hl]
      by_contra hp
      rw [Mm.page, if_pos (by simpa using hp)] at hpg
      cases hpg
    rw [h.inv.mem_tbl hl]
    refine (h.inv.entries.entry hl i).of_absent hp ?_
    rw [← h.inv.mem_tbl hl]
    exact h.plain d hl i
  · rcases getFreePage_cases (run machine [.spawn 1 t₀]).tk (run machine [.spawn 1 t₀]).mm with
      ⟨f, -, hf⟩ | hf
    · rw [hf]
      rfl
    have := hf.1
    have : 2 * [Op.spawn 1 t₀].length = 2 := rfl
    omega

/-- The bytes of a word, and of a program header. -/
def le32 (w : Word) : List Byte := (List.range 4).map fun k => w.extractLsb' (8 * k) 8

def Phdr.bytes (p : Phdr) : List Byte :=
  le32 p.pType ++ le32 p.pOffset ++ le32 p.pVaddr ++ le32 0#32 ++ le32 p.pFilesz ++ le32 p.pMemsz ++
    le32 p.pFlags ++ le32 0x1000#32

def textSeg : Phdr := ⟨ptLoad, 0x100#32, 0x08000000#32, 0x10#32, 0x10#32, 5#32⟩

def dataSeg : Phdr := ⟨ptLoad, 0x110#32, 0x08000010#32, 0x10#32, 0x10#32, 6#32⟩

/-- A file of one block: the two headers, and 0x90 everywhere else. -/
def twoSegs : FsView :=
  ⟨fun _ => { iSize := 0x200#32, iZone := fun _ => 5#16 },
    fun _ _ => some fun k => (textSeg.bytes ++ dataSeg.bytes).getD k 0x90#8⟩

/-- What the loop makes of it. -/
def twoSegsImage : Bool × Image :=
  Image.loadAll (readPhdr twoSegs.bread (twoSegs.inode 0) 0#32 32#16) 2 0 { region := fun _ => {} }

theorem twoSegsImage_ok : twoSegsImage.1 = true := by decide

theorem twoSegs_segments :
    segments (readPhdr twoSegs.bread (twoSegs.inode 0) 0#32 32#16) 0 2 = [textSeg, dataSeg] := by
  decide

def twoSegsTask : Task :=
  { exeInode := some 0, exeRegions := twoSegsImage.2.region, nrExeRegions := twoSegsImage.2.nr }

end Linux001

import Linux001.Drivers.Hd

/-!
# Tools.Mkdisk — one image with the kernel and the root filesystem

`tools/mkdisk` puts the floppy's `Image` and `minix.img` into one file: the boot sector, setup and
kernel first, the filesystem at the next multiple of eight sectors, zeroes up to a whole cylinder.
The sector where the filesystem begins is written into the boot sector at 0x1F4; the kernel takes
it from there as `root_lba`.

* `mkdisk_ok`: what the tool accepts, and the image it then writes.
* `mkdisk_header`, `mkdisk_fs`: the two files in the image, byte by byte.
* `mkdisk_rootLba`: the word at 0x1F4 is the sector where the filesystem begins.
* `mkdisk_presents_fs`: the driver finds each sector of the filesystem where the tool put it.
-/

namespace Linux001

open List

namespace Mkdisk

/-- Why the tool ends without an image. -/
inductive Stop where
  | emptyImage
  | smallImage
  | noSignature
  | noCounts
  | shortImage
  | emptyFs
  | raggedFs
  | notMinix
  /-- A `memcpy` past the end of the buffer. -/
  | fault
deriving DecidableEq

/-- **`le16`.** -/
def le16 (p : List Byte) (k : ℕ) : Word :=
  (p.getD k 0#8).setWidth 32 ||| ((p.getD (k + 1) 0#8).setWidth 32 <<< 8)

/-- The word that `boot.s` loads from the boot sector. -/
def le32 (p : List Byte) (k : ℕ) : Word :=
  p.getD (k + 3) 0#8 ++ (p.getD (k + 2) 0#8 ++ (p.getD (k + 1) 0#8 ++ p.getD k 0#8))

/-- `header_sectors`: the boot sector, setup and the kernel. -/
def headerSectors (image : List Byte) : Word := 1#32 + le16 image 0x1F0 + le16 image 0x1F2

/-- `fs_base`. -/
def fsBase (image : List Byte) : Word := (headerSectors image + 8#32 - 1#32) &&& ~~~(7#32)

/-- `fs_sectors`; the cast to `unsigned int` keeps 32 bits. -/
def fsSectors (fs : List Byte) : Word := BitVec.ofNat 32 (fs.length / 512)

/-- A number of sectors, filled up to whole cylinders. -/
def wholeCylinders (t : Word) : Word := if t % 1008#32 ≠ 0#32 then t + (1008#32 - t % 1008#32) else t

/-- `total`. -/
def total (image fs : List Byte) : Word := wholeCylinders (fsBase image + fsSectors fs)

/-- `memcpy(buf + off, src, ..)`. -/
def memcpy (buf : List Byte) (off : ℕ) (src : List Byte) : Except Stop (List Byte) :=
  if off + src.length ≤ buf.length then .ok (buf.take off ++ src ++ buf.drop (off + src.length))
  else .error .fault

/-- The four bytes of `fs_base` go into the boot sector. -/
def patch (disk : List Byte) (base : Word) : List Byte :=
  (((disk.set 0x1F4 (base.extractLsb' 0 8)).set 0x1F5 (base.extractLsb' 8 8)).set 0x1F6
    (base.extractLsb' 16 8)).set 0x1F7 (base.extractLsb' 24 8)

/-- The header and the filesystem are copied into a zeroed buffer. -/
def assemble (image fs : List Byte) : Except Stop (List Byte) := do
  let disk ← memcpy (List.replicate ((total image fs).toNat * 512) 0#8) 0
    (image.take ((headerSectors image).toNat * 512))
  let disk ← memcpy disk ((fsBase image).toNat * 512) fs
  return patch disk (fsBase image)

/-- **`main`** of `mkdisk.c`, from the two files to the image. -/
def mkdisk (image fs : List Byte) : Except Stop (List Byte) :=
  if image.length = 0 then .error .emptyImage
  else if image.length < 512 then .error .smallImage
  else if image.getD 510 0#8 ≠ 0x55#8 ∨ image.getD 511 0#8 ≠ 0xAA#8 then .error .noSignature
  else if le16 image 0x1F0 = 0#32 ∨ le16 image 0x1F2 = 0#32 then .error .noCounts
  else if image.length < (headerSectors image).toNat * 512 then .error .shortImage
  else if fs.length = 0 then .error .emptyFs
  else if fs.length % 512 ≠ 0 then .error .raggedFs
  else if fs.length < 1042 ∨ fs.getD 1040 0#8 ≠ 0x7F#8 ∨ fs.getD 1041 0#8 ≠ 0x13#8 then .error .notMinix
  else assemble image fs

/-! ### What the tool accepts -/

/-- An `Image` with a boot signature and sector counts, as long as the counts say. -/
structure ImageOk (image : List Byte) : Prop where
  bootSector : 512 ≤ image.length
  signature : image.getD 510 0#8 = 0x55#8 ∧ image.getD 511 0#8 = 0xAA#8
  counts : le16 image 0x1F0 ≠ 0#32 ∧ le16 image 0x1F2 ≠ 0#32
  length : (headerSectors image).toNat * 512 ≤ image.length

/-- A MINIX v1 image of whole sectors. -/
structure FsOk (fs : List Byte) : Prop where
  sectors : fs.length % 512 = 0
  superblock : 1042 ≤ fs.length
  magic : fs.getD 1040 0#8 = 0x7F#8 ∧ fs.getD 1041 0#8 = 0x13#8

theorem mkdisk_eq {image fs : List Byte} (hi : ImageOk image) (hf : FsOk fs) :
    mkdisk image fs = assemble image fs := by
  obtain ⟨hboot, ⟨hs, hs'⟩, ⟨hc, hc'⟩, hlen⟩ := hi
  obtain ⟨hsec, hsup, hm, hm'⟩ := hf
  have h₀ : image.length ≠ 0 := by omega
  have h₁ : fs.length ≠ 0 := by omega
  simp only [mkdisk, h₀, h₁, hs, hs', hc, hc', hsec, hm, hm', not_lt.mpr hboot, not_lt.mpr hlen,
    not_lt.mpr hsup, ne_eq, not_true_eq_false, or_self, if_false]

theorem mkdisk_accepts {image fs disk : List Byte} (h : mkdisk image fs = .ok disk) :
    ImageOk image ∧ FsOk fs := by
  unfold mkdisk at h
  split_ifs at h with h₀ h₁ h₂ h₃ h₄ h₅ h₆ h₇
  rw [not_or, not_not, not_not] at h₂
  rw [not_or] at h₃
  rw [not_or, not_or, not_not, not_not] at h₇
  exact ⟨⟨not_lt.mp h₁, h₂, h₃, not_lt.mp h₄⟩, ⟨not_not.mp h₆, not_lt.mp h₇.1, h₇.2⟩⟩

/-! ### The numbers of sectors -/

theorem le16_lt (p : List Byte) (k : ℕ) : (le16 p k).toNat < 65536 := by
  unfold le16
  generalize p.getD k 0#8 = a
  generalize p.getD (k + 1) 0#8 = b
  have ha : (a.setWidth 32).toNat < 2 ^ 16 := by
    have := a.isLt
    rw [BitVec.toNat_setWidth]
    omega
  have hb : (b.setWidth 32 <<< 8).toNat < 2 ^ 16 := by
    have := b.isLt
    rw [BitVec.toNat_shiftLeft, BitVec.toNat_setWidth, Nat.shiftLeft_eq]
    omega
  rw [BitVec.toNat_or]
  exact Nat.or_lt_two_pow ha hb

theorem headerSectors_lt (image : List Byte) : (headerSectors image).toNat < 131072 := by
  have h₁ := le16_lt image 0x1F0
  have h₂ := le16_lt image 0x1F2
  unfold headerSectors
  rw [BitVec.toNat_add, BitVec.toNat_add, BitVec.toNat_ofNat]
  omega

theorem headerSectors_pos (image : List Byte) : 0 < (headerSectors image).toNat := by
  have h₁ := le16_lt image 0x1F0
  have h₂ := le16_lt image 0x1F2
  unfold headerSectors
  rw [BitVec.toNat_add, BitVec.toNat_add, BitVec.toNat_ofNat]
  omega

/-- `x & ~7` is the multiple of eight below `x`. -/
theorem toNat_and_not_seven (x : Word) : (x &&& ~~~(7#32)).toNat = x.toNat / 8 * 8 := by
  have hmask : ~~~(7#32) = BitVec.allOnes 32 <<< 3 := by decide
  have h : x &&& ~~~(7#32) = (x >>> 3) <<< 3 := by
    rw [hmask]
    apply BitVec.eq_of_getLsbD_eq
    intro k hk
    simp only [BitVec.getLsbD_and, BitVec.getLsbD_shiftLeft, BitVec.getLsbD_allOnes, BitVec.getLsbD_ushiftRight]
    by_cases h : k < 3
    · simp [h]
    have h₁ : 3 + (k - 3) = k := by omega
    have h₂ : k - 3 < 32 := by omega
    simp [h, hk, h₁, h₂]
  have := x.isLt
  rw [h, BitVec.toNat_shiftLeft, BitVec.toNat_ushiftRight, Nat.shiftLeft_eq, Nat.shiftRight_eq_div_pow]
  omega

theorem toNat_fsBase (image : List Byte) :
    (fsBase image).toNat = ((headerSectors image).toNat + 7) / 8 * 8 := by
  have h := headerSectors_lt image
  unfold fsBase
  rw [toNat_and_not_seven, BitVec.toNat_sub, BitVec.toNat_add, BitVec.toNat_ofNat, BitVec.toNat_ofNat]
  omega

/-- The filesystem begins behind the header. -/
theorem header_le_fsBase (image : List Byte) : (headerSectors image).toNat ≤ (fsBase image).toNat := by
  rw [toNat_fsBase]
  omega

theorem toNat_wholeCylinders (t : Word) : (wholeCylinders t).toNat =
    if t.toNat % 1008 = 0 then t.toNat else (t.toNat + (1008 - t.toNat % 1008)) % 2 ^ 32 := by
  have hm : t.toNat % 1008 < 1008 := Nat.mod_lt _ (by omega)
  have hu : (t % 1008#32).toNat = t.toNat % 1008 := BitVec.toNat_umod
  have h₀ : t % 1008#32 = 0#32 ↔ t.toNat % 1008 = 0 := by
    rw [← hu]
    exact ⟨fun h => by rw [h]; rfl, fun h => BitVec.eq_of_toNat_eq h⟩
  unfold wholeCylinders
  simp only [ne_eq, h₀]
  split_ifs with h
  · rfl
  · rw [BitVec.toNat_add, BitVec.toNat_sub, hu, BitVec.toNat_ofNat]
    omega

theorem le_wholeCylinders {t : Word} (h : t.toNat < 2 ^ 32 - 1008) :
    t.toNat ≤ (wholeCylinders t).toNat := by
  rw [toNat_wholeCylinders]
  split_ifs <;> omega

/-- The padding ends at a cylinder unless the sum wraps. -/
theorem wholeCylinders_mod {t : Word} (h : t.toNat ≤ (wholeCylinders t).toNat) :
    (wholeCylinders t).toNat % 1008 = 0 := by
  have hm : t.toNat % 1008 < 1008 := Nat.mod_lt _ (by omega)
  have ht := t.isLt
  rw [toNat_wholeCylinders] at h ⊢
  split_ifs at h ⊢ with h₀
  · exact h₀
  have hlt : t.toNat + (1008 - t.toNat % 1008) < 2 ^ 32 := by omega
  rw [Nat.mod_eq_of_lt hlt]
  omega

/-! ### The two copies -/

theorem memcpy_ok {buf src out : List Byte} {off : ℕ} :
    memcpy buf off src = .ok out ↔
      off + src.length ≤ buf.length ∧ out = buf.take off ++ src ++ buf.drop (off + src.length) := by
  unfold memcpy
  split_ifs with h
  · simp only [Except.ok.injEq, h, true_and, eq_comm]
  · simp [h]

theorem memcpy_length {buf src out : List Byte} {off : ℕ} (h : memcpy buf off src = .ok out) :
    out.length = buf.length := by
  obtain ⟨hle, rfl⟩ := memcpy_ok.mp h
  simp only [length_append, length_take, length_drop]
  omega

/-- The bytes that were copied. -/
theorem memcpy_inside {buf src out : List Byte} {off k : ℕ} (h : memcpy buf off src = .ok out)
    (hk : k < src.length) : out[off + k]? = src[k]? := by
  obtain ⟨hle, rfl⟩ := memcpy_ok.mp h
  have hlen : (buf.take off).length = off := by
    rw [length_take]
    omega
  rw [append_assoc, getElem?_append_right (by omega), hlen,
    getElem?_append_left (by omega), Nat.add_sub_cancel_left]

/-- The bytes before them stay. -/
theorem memcpy_before {buf src out : List Byte} {off i : ℕ} (h : memcpy buf off src = .ok out)
    (hi : i < off) : out[i]? = buf[i]? := by
  obtain ⟨hle, rfl⟩ := memcpy_ok.mp h
  have hlen : (buf.take off).length = off := by
    rw [length_take]
    omega
  rw [append_assoc, getElem?_append_left (by omega), getElem?_take_of_lt hi]

theorem patch_other (disk : List Byte) (base : Word) {i : ℕ} (hi : i < 0x1F4 ∨ 0x1F8 ≤ i) :
    (patch disk base)[i]? = disk[i]? := by
  unfold patch
  iterate 4 rw [getElem?_set_ne (by omega)]

theorem patch_length (disk : List Byte) (base : Word) : (patch disk base).length = disk.length := by
  simp only [patch, length_set]

/-- One byte of the field. -/
theorem patch_byte {disk : List Byte} (base : Word) (h : 512 ≤ disk.length) {k : ℕ} (hk : k < 4) :
    (patch disk base).getD (0x1F4 + k) 0#8 = base.extractLsb' (8 * k) 8 := by
  have hlen : ∀ j < 4, 0x1F4 + j < disk.length := fun j hj => by omega
  unfold patch
  rw [getD_eq_getElem?_getD]
  obtain rfl | rfl | rfl | rfl : k = 0 ∨ k = 1 ∨ k = 2 ∨ k = 3 := by omega
  · rw [getElem?_set_ne (by omega), getElem?_set_ne (by omega),
      getElem?_set_ne (by omega), getElem?_set_self (hlen 0 hk)]
    rfl
  · rw [getElem?_set_ne (by omega), getElem?_set_ne (by omega),
      getElem?_set_self (by rw [length_set]; exact hlen 1 hk)]
    rfl
  · rw [getElem?_set_ne (by omega), getElem?_set_self (by simp only [length_set]; exact hlen 2 hk)]
    rfl
  · rw [getElem?_set_self (by simp only [length_set]; exact hlen 3 hk)]
    rfl

/-- The four bytes are the word. -/
theorem le32_patch {disk : List Byte} (base : Word) (h : 512 ≤ disk.length) :
    le32 (patch disk base) 0x1F4 = base := by
  unfold le32
  have h₀ := patch_byte base h (show 0 < 4 by omega)
  have h₁ := patch_byte base h (show 1 < 4 by omega)
  have h₂ := patch_byte base h (show 2 < 4 by omega)
  have h₃ := patch_byte base h (show 3 < 4 by omega)
  rw [Nat.add_zero] at h₀
  rw [h₀, h₁, h₂, h₃]
  apply BitVec.eq_of_getLsbD_eq
  intro k hk
  grind

/-! ### The image -/

theorem assemble_eq_ok {image fs disk : List Byte} : assemble image fs = .ok disk ↔
    ∃ d₁ d₂, memcpy (List.replicate ((total image fs).toNat * 512) 0#8) 0
        (image.take ((headerSectors image).toNat * 512)) = .ok d₁ ∧
      memcpy d₁ ((fsBase image).toNat * 512) fs = .ok d₂ ∧ disk = patch d₂ (fsBase image) := by
  constructor
  · intro h
    unfold assemble at h
    cases h₁ : memcpy (replicate ((total image fs).toNat * 512) 0#8) 0
        (image.take ((headerSectors image).toNat * 512)) with
    | error e => rw [h₁] at h; cases h
    | ok d₁ =>
      rw [h₁] at h
      change (memcpy d₁ _ fs >>= fun d => pure (patch d (fsBase image))) = _ at h
      cases h₂ : memcpy d₁ ((fsBase image).toNat * 512) fs with
      | error e => rw [h₂] at h; cases h
      | ok d₂ =>
        rw [h₂] at h
        cases h
        exact ⟨d₁, d₂, rfl, h₂, rfl⟩
  · rintro ⟨d₁, d₂, h₁, h₂, rfl⟩
    unfold assemble
    rw [h₁]
    change (memcpy d₁ _ fs >>= fun d => pure (patch d (fsBase image))) = _
    rw [h₂]
    rfl

/-- What the image holds. -/
structure Assembled (image fs disk : List Byte) : Prop where
  length : disk.length = (total image fs).toNat * 512
  fits : (fsBase image).toNat * 512 + fs.length ≤ disk.length
  rootLba : le32 disk 0x1F4 = fsBase image
  header : ∀ i < (headerSectors image).toNat * 512, i < 0x1F4 ∨ 0x1F8 ≤ i → disk[i]? = image[i]?
  fs : ∀ k < fs.length, disk[(fsBase image).toNat * 512 + k]? = fs[k]?

theorem assemble_ok {image fs disk : List Byte} (hi : ImageOk image)
    (h : assemble image fs = .ok disk) : Assembled image fs disk := by
  obtain ⟨d₁, d₂, h₁, h₂, rfl⟩ := assemble_eq_ok.mp h
  have hpos := headerSectors_pos image
  have hbase := header_le_fsBase image
  have hlen : d₂.length = (total image fs).toNat * 512 := by
    rw [memcpy_length h₂, memcpy_length h₁, length_replicate]
  have hfit := (memcpy_ok.mp h₂).1
  rw [← memcpy_length h₂] at hfit
  have hpatch := patch_length d₂ (fsBase image)
  refine ⟨hpatch.trans hlen, hpatch ▸ hfit, le32_patch (fsBase image) (by omega), ?_, ?_⟩
  · intro i hi' hfield
    have hcopied : i < (image.take ((headerSectors image).toNat * 512)).length := by
      have := hi.length
      rw [length_take]
      omega
    have hin := memcpy_inside h₁ hcopied
    rw [Nat.zero_add] at hin
    -- the filesystem is copied behind the header
    have hbefore : i < (fsBase image).toNat * 512 := hi'.trans_le (Nat.mul_le_mul_right 512 hbase)
    rw [patch_other _ _ hfield, memcpy_before h₂ hbefore, hin, getElem?_take_of_lt hi']
  · intro k hk
    rw [patch_other _ _ (by omega), memcpy_inside h₂ hk]

/-- The tool writes an image for every good pair of files whose sectors 32 bits can count. -/
theorem assemble_total {image fs : List Byte}
    (h : (fsBase image).toNat + fs.length / 512 < 2 ^ 32 - 1008) (hf : FsOk fs) :
    ∃ disk, assemble image fs = .ok disk := by
  have hsec := hf.sectors
  have hbase := header_le_fsBase image
  have ht : (fsBase image + fsSectors fs).toNat = (fsBase image).toNat + fs.length / 512 := by
    rw [BitVec.toNat_add, fsSectors, BitVec.toNat_ofNat]
    omega
  have htotal : (fsBase image).toNat + fs.length / 512 ≤ (total image fs).toNat := by
    rw [← ht]
    exact le_wholeCylinders (by omega)
  have h₁ : 0 + (image.take ((headerSectors image).toNat * 512)).length ≤
      (replicate ((total image fs).toNat * 512) 0#8).length := by
    rw [length_take, length_replicate]
    omega
  have hd₁ := memcpy_ok.mpr ⟨h₁, rfl⟩
  have h₂ := memcpy_length hd₁
  rw [length_replicate] at h₂
  exact ⟨_, assemble_eq_ok.mpr ⟨_, _, hd₁, memcpy_ok.mpr ⟨by omega, rfl⟩, rfl⟩⟩

/-- The last cylinder of the image is whole, and the filesystem ends inside the image. -/
theorem Assembled.cylinders {image fs disk : List Byte} (h : Assembled image fs disk)
    (hf : FsOk fs) : disk.length % (1008 * 512) = 0 ∧ (fsBase image).toNat + fs.length / 512 ≤ disk.length / 512 := by
  have hsec := hf.sectors
  have hfit := h.fits
  have hlen := h.length
  have hlt := (total image fs).isLt
  have hle : (fsBase image).toNat + fs.length / 512 ≤ (total image fs).toNat := by omega
  have ht : (fsBase image + fsSectors fs).toNat = (fsBase image).toNat + fs.length / 512 := by
    rw [BitVec.toNat_add, fsSectors, BitVec.toNat_ofNat]
    omega
  have hmod : (total image fs).toNat % 1008 = 0 := wholeCylinders_mod (by rw [ht]; exact hle)
  omega

/-- **The image presents the same filesystem.**  The tool writes an image for every `Image` with a
boot signature and sector counts and every MINIX image, as long as 32 bits count its sectors.  The
image holds the header, the base field apart, and behind it the filesystem; with the base field as
`root_lba` the driver's geometry leads from each sector of the filesystem to that sector. -/
theorem mkdisk_presents_fs (image fs : List Byte) :
    (ImageOk image → FsOk fs → (fsBase image).toNat + fs.length / 512 < 2 ^ 32 - 1008 →
      ∃ disk, mkdisk image fs = .ok disk) ∧
    ∀ disk, mkdisk image fs = .ok disk →
      (∀ i < (headerSectors image).toNat * 512, i < 0x1F4 ∨ 0x1F8 ≤ i → disk[i]? = image[i]?) ∧
      (headerSectors image).toNat ≤ (le32 disk 0x1F4).toNat ∧
      ∀ l : Word, l.toNat < fs.length / 512 → let c := hdSector (le32 disk 0x1F4) l
        c.head.toNat < 16 ∧ 1 ≤ c.sect.toNat ∧ c.sect.toNat ≤ 63 ∧
        c.cyl.toNat < disk.length / 512 / 1008 ∧
        ∀ k < 512, disk[c.linear * 512 + k]? = fs[l.toNat * 512 + k]? := by
  constructor
  · intro hi hf hlt
    rw [mkdisk_eq hi hf]
    exact assemble_total hlt hf
  intro disk h
  obtain ⟨hi, hf⟩ := mkdisk_accepts h
  rw [mkdisk_eq hi hf] at h
  have ha := assemble_ok hi h
  obtain ⟨hcyl, hend⟩ := ha.cylinders hf
  refine ⟨ha.header, by rw [ha.rootLba]; exact header_le_fsBase image, ?_⟩
  intro l hl
  rw [ha.rootLba]
  have hlt := ha.length
  have hmax := (total image fs).isLt
  -- the sum of the driver does not wrap, since the image has a sector there
  have hsum : (l + fsBase image).toNat = l.toNat + (fsBase image).toNat := by
    rw [BitVec.toNat_add]
    omega
  simp only [hdSector, hdGeometry_linear, hdGeometry_head, hdGeometry_sect, hdGeometry_cyl, hsum]
  refine ⟨by omega, by omega, by omega, by omega, ?_⟩
  intro k hk
  have hplace : (l.toNat + (fsBase image).toNat) * 512 + k =
      (fsBase image).toNat * 512 + (l.toNat * 512 + k) := by omega
  exact (congrArg (disk[·]?) hplace).trans (ha.fs (l.toNat * 512 + k) (by omega))

/-- A boot sector that counts one sector of setup and one of kernel, with both. -/
def smallImage : List Byte :=
  List.replicate 0x1F0 0#8 ++ [1#8, 0#8, 1#8, 0#8] ++ List.replicate 10 0#8 ++ [0x55#8, 0xAA#8] ++
    List.replicate 1024 0x90#8

/-- Three sectors with the magic of MINIX v1. -/
def smallFs : List Byte := List.replicate 1040 0#8 ++ [0x7F#8, 0x13#8] ++ List.replicate 494 0#8

theorem mkdisk_presents_fs_small : ∃ disk, mkdisk smallImage smallFs = .ok disk :=
  (mkdisk_presents_fs smallImage smallFs).1
    ⟨by decide +kernel, by decide +kernel, by decide +kernel, by decide +kernel⟩
    ⟨by decide +kernel, by decide +kernel, by decide +kernel⟩ (by decide +kernel)

end Mkdisk

end Linux001

import Linux001.Layout

/-!
# Drivers.Hd — where a sector is on the disk

`drivers/hd.c` addresses the drive by cylinder, head and sector, with 16 heads and 63 sectors a
track.  Every address that the rest of the kernel uses is relative to the root filesystem's image:
`hd_read_sectors()` and `hd_write_sectors()` add `root_lba` before they compute the geometry.

* `hdGeometry_linear`: the cylinder, head and sector of an address are at that address.
* `hdGeometry_head`, `hdGeometry_sect`, `hdGeometry_cyl`: they are in the ranges of the drive.
-/

namespace Linux001

/-- What the drive's registers are given. -/
structure Chs where
  cyl : Word
  head : Word
  sect : Word
deriving DecidableEq

/-- The number of the sector, counted over all cylinders. -/
def Chs.linear (c : Chs) : ℕ := (c.cyl.toNat * 16 + c.head.toNat) * 63 + c.sect.toNat - 1

/-- **`hd_geometry`.** -/
def hdGeometry (lba : Word) : Chs where
  cyl := lba / 1008#32
  head := lba / 63#32 % 16#32
  sect := lba % 63#32 + 1#32

/-- Where `hd_read_sectors(lba, ..)` and `hd_write_sectors(lba, ..)` begin. -/
def hdSector (rootLba lba : Word) : Chs := hdGeometry (lba + rootLba)

theorem hdGeometry_cyl (lba : Word) : (hdGeometry lba).cyl.toNat = lba.toNat / 1008 := by
  simp [hdGeometry]

theorem hdGeometry_head (lba : Word) : (hdGeometry lba).head.toNat = lba.toNat / 63 % 16 := by
  simp [hdGeometry]

theorem hdGeometry_sect (lba : Word) : (hdGeometry lba).sect.toNat = lba.toNat % 63 + 1 := by
  have h : lba.toNat % 63 < 63 := Nat.mod_lt _ (by omega)
  have h₁ : (lba % 63#32).toNat = lba.toNat % 63 := BitVec.toNat_umod
  rw [hdGeometry, BitVec.toNat_add, h₁, BitVec.toNat_ofNat]
  omega

theorem hdGeometry_linear (lba : Word) : (hdGeometry lba).linear = lba.toNat := by
  unfold Chs.linear
  rw [hdGeometry_cyl, hdGeometry_head, hdGeometry_sect]
  -- 1008 is 16 tracks of 63 sectors
  have h : lba.toNat / 1008 = lba.toNat / 63 / 16 := by rw [Nat.div_div_eq_div_mul]
  omega

end Linux001

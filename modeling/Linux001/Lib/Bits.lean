import Mathlib.Data.Nat.Bits

/-!
# Lib — bit tests on machine words

`has w b` is C's `w & b` used as a condition.  At a single-bit mask it is a bit of `w`
(`has_twoPow`), so a test on a word built with `|`, `&` and `~` is computed by simp.
-/

namespace Bits

variable {n : ℕ} {x : BitVec 8}

/-- `w & b`, as a truth value. -/
def has (w b : BitVec n) : Bool := w &&& b != 0#n

theorem has_twoPow (w : BitVec n) (k : ℕ) : has w (BitVec.twoPow n k) = w.getLsbD k := by
  unfold has
  rw [BitVec.and_twoPow]
  by_cases hk : w.getLsbD k
  · have hlt : k < n := BitVec.lt_of_getLsbD hk
    have hne : BitVec.twoPow n k ≠ 0#n := fun h => by
      have := congrArg (fun x => BitVec.getLsbD x k) h
      simp [hlt] at this
    simp [hk, hne]
  · simp [hk]

@[simp] theorem has_zero (b : BitVec n) : has 0#n b = false := by simp [has]

/-! ### Counters that may wrap -/

theorem toNat_succ (h : x ≠ 255#8) : (x + 1#8).toNat = x.toNat + 1 := by
  have h₁ : x.toNat ≠ 255 := fun e => h (BitVec.eq_of_toNat_eq e)
  have := x.isLt
  rw [BitVec.toNat_add]
  simp only [BitVec.toNat_ofNat]
  omega

theorem toNat_pred (h : 1 ≤ x.toNat) : (x - 1#8).toNat + 1 = x.toNat := by
  have := x.isLt
  rw [BitVec.toNat_sub]
  simp only [BitVec.toNat_ofNat]
  omega

end Bits

import Mathlib.Data.List.Basic

/-!
# Lib — a run of places overwritten

`overwrite f pos l` is `f` with the elements of `l` at `pos`, `pos + 1`, …  What is written in pieces is
written as a whole (`overwrite_append`).  Records of one size that stand one behind the other are found
by their number (`getElem?_flatMap`).
-/

section

universe u

variable {α : Type u} {f : ℕ → α} {pos q : ℕ} {l l' : List α} {β : Type u} {g : β → List α}

def overwrite (f : ℕ → α) (pos : ℕ) (l : List α) : ℕ → α := fun q =>
  if pos ≤ q then (l[q - pos]?).getD (f q) else f q

@[simp] theorem overwrite_nil : overwrite f pos [] = f := by
  funext q
  simp [overwrite]

theorem overwrite_at (k : ℕ) : overwrite f pos l (pos + k) = (l[k]?).getD (f (pos + k)) := by
  unfold overwrite
  rw [if_pos (Nat.le_add_right _ _), Nat.add_sub_cancel_left]

/-- Outside of the run nothing changes. -/
theorem overwrite_outside (h : q < pos ∨ pos + l.length ≤ q) : overwrite f pos l q = f q := by
  unfold overwrite
  split
  · rw [List.getElem?_eq_none (by omega), Option.getD_none]
  · rfl

/-- The second piece goes behind the first. -/
theorem overwrite_append : overwrite f pos (l ++ l') = overwrite (overwrite f pos l) (pos + l.length) l' := by
  funext q
  unfold overwrite
  by_cases h : pos ≤ q
  · rw [if_pos h, if_pos h]
    by_cases hl : q - pos < l.length
    · rw [List.getElem?_append_left hl, if_neg (by omega)]
    · rw [List.getElem?_append_right (by omega), if_pos (by omega), List.getElem?_eq_none (by omega : l.length ≤ q - pos),
        Option.getD_none, Nat.sub_sub]
  · rw [if_neg h, if_neg (by omega), if_neg h]

/-- The second piece may be written first. -/
theorem overwrite_prepend : overwrite (overwrite f (pos + l.length) l') pos l = overwrite f pos (l ++ l') := by
  funext q
  unfold overwrite
  by_cases h : pos ≤ q
  · rw [if_pos h, if_pos h]
    by_cases hl : q - pos < l.length
    · rw [List.getElem?_append_left hl, List.getElem?_eq_getElem hl]
      rfl
    · rw [List.getElem?_append_right (by omega), List.getElem?_eq_none (by omega : l.length ≤ q - pos),
        Option.getD_none, if_pos (by omega), Nat.sub_sub]
  · rw [if_neg h, if_neg h, if_neg (by omega)]

/-- Records of size `c`: number `k` begins at `c * k`. -/
theorem getElem?_flatMap {c : ℕ} (hg : ∀ x, (g x).length = c) (xs : List β)
    (k : ℕ) {j : ℕ} (hj : j < c) : (xs.flatMap g)[c * k + j]? = (xs[k]?).bind fun x => (g x)[j]? := by
  induction xs generalizing k with
  | nil => rfl
  | cons x xs ih =>
    rw [List.flatMap_cons]
    cases k with
    | zero =>
      rw [Nat.mul_zero, Nat.zero_add, List.getElem?_append_left (by rw [hg]; exact hj)]
      rfl
    | succ k =>
      rw [Nat.mul_succ, List.getElem?_append_right (by rw [hg]; omega), hg,
        show c * k + c + j - c = c * k + j by omega, ih]
      rfl

theorem length_flatMap_const {c : ℕ} (hg : ∀ x, (g x).length = c) (xs : List β) :
    (xs.flatMap g).length = c * xs.length := by
  induction xs with
  | nil => rfl
  | cons x xs ih => rw [List.flatMap_cons, List.length_append, hg, ih, List.length_cons, Nat.mul_succ, Nat.add_comm]

end

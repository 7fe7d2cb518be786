import Mathlib.Data.List.Range
import Mathlib.Algebra.Order.Group.Int

/-!
# Lib — a ring of cells

`N` cells and two offsets below `N`: cells are filled at `head` and emptied at `tail`, and an offset
that passes the end goes back to 0.  `size` is the number of filled cells, at most `N - 1`, and
`contents` what is in them, the oldest first.
-/

namespace RingBuf

open Function List

universe u

variable {α : Type u} {cell : ℕ → α} {N head tail : ℕ}

/-- The number of filled cells. -/
def size (N head tail : ℕ) : ℕ := (((head : ℤ) - tail) % N).toNat

/-- The next offset. -/
def inc (N p : ℕ) : ℕ := (p + 1) % N

/-- What is in the filled cells. -/
def contents (cell : ℕ → α) (N head tail : ℕ) : List α :=
  (List.range (size N head tail)).map fun i => cell ((tail + i) % N)

theorem inc_lt (h : 0 < N) (p : ℕ) : inc N p < N := Nat.mod_lt _ h

theorem size_lt (h : 0 < N) (head tail : ℕ) : size N head tail < N := by
  have h₁ := Int.emod_nonneg ((head : ℤ) - tail) (by omega : (N : ℤ) ≠ 0)
  have h₂ := Int.emod_lt_of_pos ((head : ℤ) - tail) (by omega : (0 : ℤ) < N)
  unfold size
  omega

section
variable (hh : head < N) (ht : tail < N)
include hh ht

/-- The two cases: the filled cells are in one piece, or go over the end. -/
theorem size_cases :
    tail ≤ head ∧ size N head tail = head - tail ∨ head < tail ∧ size N head tail = head + N - tail := by
  unfold size
  by_cases h : tail ≤ head
  · left
    rw [Int.emod_eq_of_lt (by omega) (by omega)]
    omega
  · right
    rw [← Int.add_emod_right, Int.emod_eq_of_lt (by omega) (by omega)]
    omega

omit hh ht in
theorem inc_cases {p : ℕ} (h : p < N) : p + 1 < N ∧ inc N p = p + 1 ∨ p + 1 = N ∧ inc N p = 0 := by
  unfold inc
  by_cases e : p + 1 = N
  · exact .inr ⟨e, by rw [e, Nat.mod_self]⟩
  · exact .inl ⟨by omega, Nat.mod_eq_of_lt (by omega)⟩

theorem size_eq_zero_iff : size N head tail = 0 ↔ head = tail := by
  rcases size_cases hh ht with h | h <;> omega

theorem size_push (h : size N head tail < N - 1) :
    size N (inc N head) tail = size N head tail + 1 := by
  have hi : inc N head < N := inc_lt (by omega) head
  rcases size_cases hh ht with h₁ | h₁ <;> rcases size_cases hi ht with h₂ | h₂ <;>
    rcases inc_cases hh with h₃ | h₃ <;> omega

theorem size_pop (h : head ≠ tail) :
    size N head (inc N tail) + 1 = size N head tail := by
  have hi : inc N tail < N := inc_lt (by omega) tail
  rcases size_cases hh ht with h₁ | h₁ <;> rcases size_cases hh hi with h₂ | h₂ <;>
    rcases inc_cases ht with h₃ | h₃ <;> omega

/-- The next free cell is after the filled ones. -/
theorem tail_add_size : (tail + size N head tail) % N = head := by
  rcases size_cases hh ht with ⟨h, e⟩ | ⟨h, e⟩
  · rw [e, Nat.add_sub_cancel' h, Nat.mod_eq_of_lt hh]
  · have : tail + (head + N - tail) = head + N := by omega
    rw [e, this, Nat.add_mod_right, Nat.mod_eq_of_lt hh]

omit hh ht in
theorem length_contents : (contents cell N head tail).length = size N head tail := by
  unfold contents
  rw [length_map, length_range]

/-- A filled cell is not the free one. -/
theorem cell_ne_head {i : ℕ} (hi : i < size N head tail) :
    (tail + i) % N ≠ head := by
  have hlt : i < N := hi.trans (size_lt (by omega) head tail)
  have hwrap : (tail + i) % N = tail + i ∧ tail + i < N ∨ (tail + i) % N = tail + i - N ∧ N ≤ tail + i := by
    by_cases h : tail + i < N
    · exact .inl ⟨Nat.mod_eq_of_lt h, h⟩
    · exact .inr ⟨by rw [Nat.mod_eq_sub_mod (by omega), Nat.mod_eq_of_lt (by omega)], by omega⟩
  rcases size_cases hh ht with h | h <;> omega

end

/-- **A value goes into the free cell.** -/
theorem contents_push (cell : ℕ → α) (hh : head < N) (ht : tail < N) (h : size N head tail < N - 1) (x : α) :
    contents (update cell head x) N (inc N head) tail = contents cell N head tail ++ [x] := by
  unfold contents
  rw [size_push hh ht h, range_succ, map_append, map_singleton, tail_add_size hh ht, update_self]
  refine congrArg (· ++ [x]) (map_congr_left fun i hi => ?_)
  exact update_of_ne (cell_ne_head hh ht (mem_range.mp hi)) ..

/-- **The oldest value is taken out.** -/
theorem contents_pop (cell : ℕ → α) (hh : head < N) (ht : tail < N) (h : head ≠ tail) :
    contents cell N head tail = cell tail :: contents cell N head (inc N tail) := by
  unfold contents
  rw [← size_pop hh ht h, range_succ_eq_map, map_cons, map_map, Nat.add_zero, Nat.mod_eq_of_lt ht]
  refine congrArg (cell tail :: ·) (map_congr_left fun i _ => ?_)
  show cell ((tail + (i + 1)) % N) = cell ((inc N tail + i) % N)
  rw [inc, Nat.mod_add_mod, Nat.add_right_comm, Nat.add_assoc]

end RingBuf

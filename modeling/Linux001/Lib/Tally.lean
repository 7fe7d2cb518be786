import Mathlib.Algebra.BigOperators.Fin
import Mathlib.Algebra.Order.BigOperators.Group.Finset

/-!
# Lib — counting over a table

A table `f : κ → α` with finitely many entries, each of which counts for `g (f k)`.  When one entry is
replaced, the total loses what the old one counted for and gains what the new one counts for.
-/

namespace Tally

open Function Finset

universe u v

variable {κ : Type u} {α : Type v} [Fintype κ] {f : κ → α} {g : α → ℕ}

/-- What the entries count for together. -/
@[irreducible] def total (f : κ → α) (g : α → ℕ) : ℕ := ∑ k, g (f k)

/-- **One entry is replaced.** -/
theorem total_update [DecidableEq κ] (f : κ → α) (g : α → ℕ) (k : κ) (x : α) :
    total (update f k x) g + g (f k) = total f g + g x := by
  have hnew : total (update f k x) g = ∑ m, update (fun m => g (f m)) k (g x) m := by
    unfold total
    refine sum_congr rfl fun m _ => ?_
    by_cases e : m = k
    · rw [e, update_self, update_self]
    · rw [update_of_ne e, update_of_ne e]
  have hold : total f g = g (f k) + ∑ m ∈ univ \ {k}, g (f m) := by
    rw [total, ← sum_sdiff (subset_univ {k}), sum_singleton, Nat.add_comm]
  rw [hnew, sum_update_of_mem (mem_univ k), hold]
  omega

/-- An entry counts for no more than all of them. -/
theorem le_total (f : κ → α) (g : α → ℕ) (k : κ) : g (f k) ≤ total f g := by
  unfold total
  exact single_le_sum (f := fun k => g (f k)) (fun _ _ => Nat.zero_le _) (mem_univ k)

theorem total_le {b : ℕ} (h : ∀ k, g (f k) ≤ b) :
    total f g ≤ Fintype.card κ * b := by
  have := sum_le_card_nsmul univ (fun k => g (f k)) b fun k _ => h k
  simpa [total] using this

theorem total_congr {f' : κ → α} (h : ∀ k, g (f' k) = g (f k)) : total f' g = total f g := by
  unfold total
  exact sum_congr rfl fun k _ => h k

/-- A loop over a list counts as the list does. -/
theorem total_eq_countP {n : ℕ} (f : Fin n → α) (p : α → Prop) [DecidablePred p] :
    total f (fun a => if p a then 1 else 0) = (List.finRange n).countP fun k => p (f k) := by
  rw [total, Fin.sum_univ_def]
  induction List.finRange n with
  | nil => rfl
  | cons a l ih =>
    rw [List.map_cons, List.sum_cons, ih, List.countP_cons]
    by_cases h : p (f a)
    · simp [h, Nat.add_comm]
    · simp [h]

/-- A list that loses an entry counts one less of what the entry stood for. -/
theorem count_map_erase {β : Type*} [BEq α] [LawfulBEq α] [DecidableEq β] (f : α → β) {a : α} {l : List α} (h : a ∈ l)
    (b : β) : (l.map f).count b = ((l.erase a).map f).count b + if f a = b then 1 else 0 := by
  rw [((List.perm_cons_erase h).map f).count_eq b, List.map_cons, List.count_cons]
  simp

end Tally

import Mathlib.Logic.Function.Basic

/-!
# Lib — updates of a function

What is read from a function with one value replaced, and `update₂ f a b c`, which is `f` with the
value at `(a, b)` replaced: an array of arrays with one element written.
-/

section

universe u v w

variable {α : Type u} {β : Type v} {γ : Type w} [DecidableEq α] [DecidableEq β]

/-- `f` with the value at `(a, b)` replaced by `c`. -/
def update₂ (f : α → β → γ) (a : α) (b : β) (c : γ) : α → β → γ :=
  Function.update f a (Function.update (f a) b c)

variable {f : α → β → γ} {a x : α} {b y : β} {c : γ} {d : γ}

@[simp] theorem update₂_self : update₂ f a b c a b = c := by simp [update₂]

theorem update₂_row : update₂ f a b c a = Function.update (f a) b c := by simp [update₂]

theorem update₂_of_ne_left (e : x ≠ a) : update₂ f a b c x = f x := by simp [update₂, e]

theorem update₂_of_ne_right (e : y ≠ b) : update₂ f a b c x y = f x y := by
  by_cases h : x = a
  · subst h; simp [update₂, e]
  · rw [update₂_of_ne_left h]

theorem update₂_of_ne (e : ¬ (x = a ∧ y = b)) : update₂ f a b c x y = f x y := by
  by_cases h : x = a
  · exact update₂_of_ne_right fun hy => e ⟨h, hy⟩
  · rw [update₂_of_ne_left h]

/-- What is read is the value that was written, or an old one. -/
theorem of_update_eq {g : α → γ} (h : Function.update g a c x = d) :
    x = a ∧ c = d ∨ x ≠ a ∧ g x = d := by
  by_cases e : x = a
  · subst e
    rw [Function.update_self] at h
    exact .inl ⟨rfl, h⟩
  · rw [Function.update_of_ne e] at h
    exact .inr ⟨e, h⟩

/-- The same in the row that has been written. -/
theorem of_update₂_eq (h : update₂ f a b c a y = d) : y = b ∧ c = d ∨ y ≠ b ∧ f a y = d := by
  rw [update₂_row] at h
  exact of_update_eq h

/-- An entry that is removed is not read. -/
theorem of_update_none {g : α → Option γ} (h : Function.update g a none x = some d) :
    x ≠ a ∧ g x = some d := by
  rcases of_update_eq h with ⟨-, e⟩ | h
  · cases e
  · exact h

/-- What is in a list that is read is in the list that was written, or in an old one. -/
theorem of_mem_update {g : α → List γ} {l : List γ} (h : d ∈ Function.update g a l x) : d ∈ l ∨ d ∈ g x := by
  by_cases e : x = a
  · subst e
    rw [Function.update_self] at h
    exact .inl h
  · rw [Function.update_of_ne e] at h
    exact .inr h

theorem update₂_eq_self : update₂ f a b (f a b) = f := by simp [update₂]

end

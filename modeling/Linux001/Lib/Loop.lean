import Mathlib.Data.List.FinRange

/-!
# Lib — loops that may return

`l.foldlM f s` in `Except ρ` is a loop over `l` whose body either goes on with a new state
(`.ok`) or leaves the enclosing function with a result (`.error`).  `Sat I Q` says of the
outcome of such a loop that a state it ends in satisfies `I` and a result it returns satisfies
`Q`.  The rules below are the invariant rules for these loops and for plain folds, with an
invariant that may depend on the index for loops over `List.finRange n`.
-/

namespace Loop

universe u v w

variable {α : Type w} {σ : Type u} {ρ : Type v} {I : σ → Prop} {Q : ρ → Prop} {x : Except ρ σ}
  {s : σ} {P : σ → Prop} {f : σ → α → Except ρ σ} {l : List α}

/-- The loop went on to a state with `I`, or returned a result with `Q`. -/
inductive Sat (I : σ → Prop) (Q : ρ → Prop) : Except ρ σ → Prop where
  | ok {s : σ} (h : I s) : Sat I Q (.ok s)
  | error {r : ρ} (h : Q r) : Sat I Q (.error r)

theorem Sat.of_ok (h : Sat I Q (.ok s : Except ρ σ)) : I s := by
  cases h with
  | ok h => exact h

theorem Sat.of_error {r : ρ} (h : Sat I Q (.error r : Except ρ σ)) : Q r := by
  cases h with
  | error h => exact h

theorem Sat.mono {I' : σ → Prop} {Q' : ρ → Prop} (h : Sat I Q x)
    (hI : ∀ s, I s → I' s) (hQ : ∀ r, Q r → Q' r) : Sat I' Q' x := by
  cases h with
  | ok h => exact .ok (hI _ h)
  | error h => exact .error (hQ _ h)

theorem Sat.bind {τ : Type u} {J : τ → Prop} {f : σ → Except ρ τ}
    (h : Sat I Q x) (hf : ∀ s, I s → Sat J Q (f s)) : Sat J Q (x >>= f) := by
  cases h with
  | ok h => exact hf _ h
  | error h => exact .error h

theorem Sat.trivial : Sat (fun _ => True) (fun _ => True) x := by
  cases x with
  | ok _ => exact .ok True.intro
  | error _ => exact .error True.intro

theorem Sat.and (h : Sat I Q x) (h' : Sat P (fun _ => True) x) :
    Sat (fun s => I s ∧ P s) Q x := by
  cases h with
  | ok h => exact .ok ⟨h, h'.of_ok⟩
  | error h => exact .error h

/-- The invariant rule. -/
theorem foldlM_sat (hs : I s)
    (hf : ∀ a ∈ l, ∀ s, I s → Sat I Q (f s a)) : Sat I Q (l.foldlM f s) := by
  induction l generalizing s with
  | nil => exact .ok hs
  | cons a l ih =>
    rw [List.foldlM_cons]
    exact (hf a (by simp) s hs).bind fun s' hs' =>
      ih hs' fun b hb => hf b (List.mem_cons_of_mem a hb)

/-- One element establishes `P` and no other undoes it. -/
theorem foldlM_reach {a : α}
    (ha : a ∈ l) (hs : I s) (hf : ∀ b ∈ l, ∀ s, I s → Sat I Q (f s b))
    (hP : ∀ b ∈ l, ∀ s, P s → Sat P (fun _ => True) (f s b))
    (hhit : ∀ s, I s → Sat P (fun _ => True) (f s a)) :
    Sat (fun s => I s ∧ P s) Q (l.foldlM f s) := by
  induction l generalizing s with
  | nil => cases ha
  | cons b l ih =>
    have hf' : ∀ c ∈ l, ∀ s, I s → Sat I Q (f s c) := fun c hc => hf c (List.mem_cons_of_mem b hc)
    have hP' : ∀ c ∈ l, ∀ s, P s → Sat P (fun _ => True) (f s c) := fun c hc =>
      hP c (List.mem_cons_of_mem b hc)
    rw [List.foldlM_cons]
    rcases List.mem_cons.mp ha with rfl | ha
    · exact ((hf a (by simp) s hs).and (hhit s hs)).bind fun s' hs' =>
        foldlM_sat hs' fun c hc s'' hs'' => (hf' c hc s'' hs''.1).and (hP' c hc s'' hs''.2)
    · exact (hf b (by simp) s hs).bind fun s' hs' => ih ha hs' hf' hP'

section Index
variable {n : ℕ} {J : ℕ → σ → Prop}

/-- The elements of `finRange n` from `k` on. -/
theorem drop_finRange_cons {k : ℕ} (hk : k < n) :
    (List.finRange n).drop k = ⟨k, hk⟩ :: (List.finRange n).drop (k + 1) := by
  rw [List.drop_eq_getElem_cons (by simpa using hk)]
  simp

/-- The invariant rule, with an invariant that depends on the index. -/
theorem foldlM_finRange {f : σ → Fin n → Except ρ σ} (hs : J 0 s)
    (hf : ∀ (i : Fin n) s, J i s → Sat (J (i + 1)) Q (f s i)) :
    Sat (J n) Q ((List.finRange n).foldlM f s) := by
  suffices h : ∀ m k s, n - k = m → k ≤ n → J k s → Sat (J n) Q (((List.finRange n).drop k).foldlM f s) by
    exact h (n - 0) 0 s rfl (Nat.zero_le n) hs
  intro m
  induction m with
  | zero =>
    intro k s hm hk hJ
    obtain rfl : k = n := by omega
    rw [List.drop_of_length_le (by simp)]
    exact .ok hJ
  | succ m ih =>
    intro k s hm hk hJ
    have hkn : k < n := by omega
    rw [drop_finRange_cons hkn, List.foldlM_cons]
    exact (hf ⟨k, hkn⟩ s hJ).bind fun s' hs' => ih (k + 1) s' (by omega) (by omega) hs'

/-- The same rule for a loop without early return. -/
theorem foldl_finRange {f : σ → Fin n → σ} (hs : J 0 s)
    (hf : ∀ (i : Fin n) s, J i s → J (i + 1) (f s i)) : J n ((List.finRange n).foldl f s) := by
  have h : Sat (J n) (fun _ : Unit => False) ((List.finRange n).foldlM (fun s i => pure (f s i)) s) :=
    foldlM_finRange hs fun i s hJ => .ok (hf i s hJ)
  rw [List.foldlM_pure] at h
  exact h.of_ok

end Index

end Loop

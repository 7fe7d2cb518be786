import Mathlib.Data.List.Basic

/-!
# Lib — runs of a state machine

A machine takes a step for each element of a list.  `Guarded ok` says that every step of such a run
meets a condition on the state it starts from, and an invariant that such steps keep holds at the end.
A machine that answers each step is compared with another by a relation that such steps keep
(`Guarded.sim`).
-/

namespace Run

universe u v

variable {σ : Type u} {ι : Type v} {step : σ → ι → σ} {ok : σ → ι → Prop} {I : σ → Prop} {s : σ} {l : List ι}

/-- Every step of the run meets the condition. -/
def Guarded (step : σ → ι → σ) (ok : σ → ι → Prop) : σ → List ι → Prop
  | _, [] => True
  | s, a :: l => ok s a ∧ Guarded step ok (step s a) l

instance decidableGuarded [∀ s a, Decidable (ok s a)] :
    (s : σ) → (l : List ι) → Decidable (Guarded step ok s l)
  | _, [] => isTrue trivial
  | s, a :: l => @instDecidableAnd _ _ _ (decidableGuarded (step s a) l)

theorem guarded_true (step : σ → ι → σ) (s : σ) (l : List ι) : Guarded step (fun _ _ => True) s l := by
  induction l generalizing s with
  | nil => trivial
  | cons a l ih => exact ⟨trivial, ih _⟩

/-- **The invariant rule.** -/
theorem Guarded.inv (hstep : ∀ {s a}, I s → ok s a → I (step s a))
    (hg : Guarded step ok s l) (hs : I s) : I (l.foldl step s) := by
  induction l generalizing s with
  | nil => exact hs
  | cons a l ih => exact ih hg.2 (hstep hs hg.1)

/-- The rule for a machine that needs no condition. -/
theorem inv (hstep : ∀ {s a}, I s → I (step s a)) (l : List ι) (hs : I s) : I (l.foldl step s) := by
  induction l generalizing s with
  | nil => exact hs
  | cons a l ih => exact ih (hstep hs)

section Answers

universe w x

variable {τ : Type w} {ω : Type x}

/-- The answers of a machine to a run. -/
def answers (f : σ → ι → ω × σ) : σ → List ι → List ω
  | _, [] => []
  | s, a :: l => (f s a).1 :: answers f (f s a).2 l

/-- The state that a machine which answers ends in. -/
def final (f : σ → ι → ω × σ) (s : σ) (l : List ι) : σ := l.foldl (fun s a => (f s a).2) s

/-- **The simulation rule**: equal answers, and the relation at the end. -/
theorem Guarded.sim {f : σ → ι → ω × σ} {g : τ → ι → ω × τ} {R : σ → τ → Prop}
    (hstep : ∀ {s t a}, R s t → ok s a → (f s a).1 = (g t a).1 ∧ R (f s a).2 (g t a).2) {t : τ}
    (hg : Guarded (fun s a => (f s a).2) ok s l) (h : R s t) :
    answers f s l = answers g t l ∧ R (final f s l) (final g t l) := by
  induction l generalizing s t with
  | nil => exact ⟨rfl, h⟩
  | cons a l ih =>
    obtain ⟨he, hr⟩ := hstep h hg.1
    obtain ⟨hes, hrs⟩ := ih hg.2 hr
    exact ⟨by rw [answers, answers, he, hes], hrs⟩

end Answers

end Run

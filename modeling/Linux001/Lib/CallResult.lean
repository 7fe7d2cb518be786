import Mathlib.Data.List.Basic

/-!
# Lib — calls that may not return

A call returns, or its caller sleeps for good, or it goes wrong: it follows a null pointer or searches
without end.  `Holds P` says that it does not go wrong, and that `P` holds if it returns.
-/

universe u v

/-- What becomes of a call. -/
inductive CallResult (α : Type u) where
  | done (a : α)
  | asleep
  | fault

namespace CallResult

variable {α : Type u} {β : Type v} {P : α → Prop} {Q : β → Prop} {o : CallResult α}
  {P' : α → Prop} {f : α → CallResult β} {σ : Type u} {ι : Type v} {step : σ → ι → CallResult σ} {I : σ → Prop} {l : List ι}

/-- One call after another. -/
def bind (o : CallResult α) (f : α → CallResult β) : CallResult β :=
  match o with
  | done a => f a
  | asleep => asleep
  | fault => fault

/-- The call does not go wrong, and what it returns has `P`. -/
def Holds (P : α → Prop) : CallResult α → Prop
  | done a => P a
  | asleep => True
  | fault => False

theorem Holds.mono (h : o.Holds P) (hP : ∀ a, P a → P' a) : o.Holds P' := by
  cases o with
  | done a => exact hP a h
  | asleep => trivial
  | fault => exact h

theorem Holds.and (h : o.Holds P) (h' : o.Holds P') : o.Holds fun a => P a ∧ P' a := by
  cases o with
  | done a => exact ⟨h, h'⟩
  | asleep => trivial
  | fault => exact h

/-- **The rule for one call after another.** -/
theorem Holds.bind (h : o.Holds P) (hf : ∀ a, P a → (f a).Holds Q) :
    (o.bind f).Holds Q := by
  cases o with
  | done a => exact hf a h
  | asleep => trivial
  | fault => exact h.elim

/-- The caller does not sleep for good. -/
def Awake : CallResult α → Prop
  | done _ => True
  | asleep => False
  | fault => True

theorem Awake.bind (h : o.Awake) (hP : o.Holds P)
    (hf : ∀ a, P a → (f a).Awake) : (o.bind f).Awake := by
  cases o with
  | done a => exact hf a hP
  | asleep => exact h
  | fault => trivial

theorem Awake.bind_done (h : o.Awake) (f : α → β) : (o.bind fun a => done (f a)).Awake := by
  cases o with
  | done a => trivial
  | asleep => exact h
  | fault => trivial

theorem Holds.returns (h : o.Holds P) (ha : o.Awake) : ∃ a, o = done a := by
  cases o with
  | done a => exact ⟨a, rfl⟩
  | asleep => exact ha.elim
  | fault => exact h.elim

/-- A run of calls. -/
def run {σ : Type u} {ι : Type v} (step : σ → ι → CallResult σ) : σ → List ι → CallResult σ
  | s, [] => done s
  | s, a :: l => (step s a).bind fun s' => run step s' l

/-- **The rule for a run.** -/
theorem run_holds {c : ι → Prop}
    (hstep : ∀ {s a}, I s → c a → (step s a).Holds I) {s : σ} (hl : ∀ a ∈ l, c a) (hs : I s) :
    (run step s l).Holds I := by
  induction l generalizing s with
  | nil => exact hs
  | cons a l ih =>
    exact (hstep hs (hl a List.mem_cons_self)).bind fun s' hs' =>
      ih (fun x hx => hl x (List.mem_cons_of_mem a hx)) hs'

/-- Every call of the run that is reached meets a condition on the state it starts from. -/
def Guarded {σ : Type u} {ι : Type v} (step : σ → ι → CallResult σ) (c : σ → ι → Prop) : σ → List ι → Prop
  | _, [] => True
  | s, a :: l =>
    c s a ∧ match step s a with
      | done s' => Guarded step c s' l
      | asleep => True
      | fault => True

/-- **The rule for a run of calls under a condition.** -/
theorem Guarded.holds {c : σ → ι → Prop}
    (hstep : ∀ {s a}, I s → c s a → (step s a).Holds I) {s : σ} (hl : Guarded step c s l) (hs : I s) :
    (run step s l).Holds I := by
  induction l generalizing s with
  | nil => exact hs
  | cons a l ih =>
    have h₁ := hstep hs hl.1
    have h₂ := hl.2
    unfold run
    cases hd : step s a with
    | done s' =>
      rw [hd] at h₁ h₂
      exact ih h₂ h₁
    | asleep => trivial
    | fault =>
      rw [hd] at h₁
      exact h₁

end CallResult

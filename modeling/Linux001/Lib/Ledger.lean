import Mathlib.Data.Set.Card
import Mathlib.Data.Finite.Sum

/-!
# Lib — reference ledgers

A *ledger* `h : κ → Option ρ` says which resource each cell of a finite type `κ` refers to.
`refs h r` is the number of cells that refer to `r`.  A counter `count : ρ → ℕ` is *balanced*
against a ledger when `count r` is the number of cells that refer to `r`, together with
`leak r` references that no cell accounts for.  A counter that has reached the cap `k` is
saturated: it stands for a resource that is never given back, and nothing is asked of it.

The five moves of a reference-counted store are updates of the ledger at one or two cells:
`take`, `drop`, `share`, `move` and `forget`.  Each keeps the counter balanced.
-/

noncomputable section

namespace Ledger

open Function

variable {κ ρ : Type*}

/-- The number of cells that refer to `r`. -/
def refs (h : κ → Option ρ) (r : ρ) : ℕ := {c | h c = some r}.ncard

/-- `1` at the resource `x` refers to, `0` elsewhere. -/
def one [DecidableEq ρ] (x : Option ρ) (r : ρ) : ℕ := if x = some r then 1 else 0

@[simp] theorem one_none [DecidableEq ρ] (r : ρ) : one (none : Option ρ) r = 0 := by simp [one]

@[simp] theorem one_some [DecidableEq ρ] (r : ρ) : one (some r) r = 1 := by simp [one]

theorem one_some_of_ne [DecidableEq ρ] {r s : ρ} (e : s ≠ r) : one (some s) r = 0 := by
  simp [one, e]

section Refs
variable [Finite κ]

theorem refs_eq_zero_iff {h : κ → Option ρ} {r : ρ} : refs h r = 0 ↔ ∀ c, h c ≠ some r := by
  unfold refs
  rw [Set.ncard_eq_zero, Set.eq_empty_iff_forall_notMem]
  exact Iff.rfl

theorem refs_pos {h : κ → Option ρ} {r : ρ} {c : κ} (hc : h c = some r) : 0 < refs h r := by
  rw [Nat.pos_iff_ne_zero]
  exact fun h₀ => refs_eq_zero_iff.mp h₀ c hc

/-- A cell apart, `refs` is a sum. -/
theorem refs_split [DecidableEq κ] [DecidableEq ρ] (h : κ → Option ρ) (c : κ) (r : ρ) :
    refs h r = {c' | c' ≠ c ∧ h c' = some r}.ncard + one (h c) r := by
  unfold refs one
  by_cases e : h c = some r
  · have hs : {c' | h c' = some r} = insert c {c' | c' ≠ c ∧ h c' = some r} := by
      ext c'
      by_cases e' : c' = c
      · subst e'; simp [e]
      · simp [e']
    rw [hs, Set.ncard_insert_of_notMem (by simp), if_pos e]
  · have hs : {c' | h c' = some r} = {c' | c' ≠ c ∧ h c' = some r} := by
      ext c'
      by_cases e' : c' = c
      · subst e'; simp [e]
      · simp [e']
    rw [hs, if_neg e, Nat.add_zero]

/-- **One entry rewritten.**  The count at `r` loses the old entry and gains the new one. -/
theorem refs_update [DecidableEq κ] [DecidableEq ρ] (h : κ → Option ρ) (c : κ) (x : Option ρ)
    (r : ρ) : refs (update h c x) r + one (h c) r = refs h r + one x r := by
  rw [refs_split (update h c x) c, refs_split h c, update_self]
  have hs : {c' | c' ≠ c ∧ update h c x c' = some r} =
      {c' | c' ≠ c ∧ h c' = some r} := by
    ext c'
    by_cases e : c' = c
    · simp [e]
    · simp [e]
  rw [hs]
  omega

omit [Finite κ] in
/-- If the cells that refer to `r` are told apart by a label, there are at most as many of them
as labels. -/
theorem refs_le_card {α : Type*} {h : κ → Option ρ} {r : ρ} (label : κ → α) (L : Finset α)
    (hmem : ∀ c, h c = some r → label c ∈ L)
    (hinj : ∀ c c', h c = some r → h c' = some r → label c = label c' → c = c') :
    refs h r ≤ L.card := by
  rw [← Set.ncard_coe_finset L]
  exact Set.ncard_le_ncard_of_injOn label (fun c hc => hmem c hc)
    (fun c hc c' hc' e => hinj c c' hc hc' e) L.finite_toSet

end Refs

/-! ### Sole holders -/

/-- A cell of `S` shares what it refers to with no other cell. -/
def Sole (S : κ → Prop) (h : κ → Option ρ) : Prop :=
  ∀ ⦃c c' r⦄, S c → h c = some r → h c' = some r → c' = c

section Sole
variable [DecidableEq κ] {S : κ → Prop} {h : κ → Option ρ} {c c₀ : κ} {r : ρ}

/-- A cleared ledger refers to less. -/
theorem update_none_eq_some {c' : κ} (hc : update h c none c' = some r) :
    h c' = some r ∧ c' ≠ c := by
  by_cases e : c' = c
  · subst e; simp at hc
  · rw [update_of_ne e] at hc
    exact ⟨hc, e⟩

theorem update_none_of_none {c' : κ} (hc : h c' = none) : update h c none c' = none := by
  by_cases e : c' = c
  · rw [e, update_self]
  · rw [update_of_ne e, hc]

theorem Sole.clear (hs : Sole S h) : Sole S (update h c none) :=
  fun _ _ _ hS h₁ h₂ => hs hS (update_none_eq_some h₁).1 (update_none_eq_some h₂).1

/-- A cell of `S` is cleared: nobody is left. -/
theorem Sole.unheld (hs : Sole S h) (hS : S c) (hc : h c = some r) (c' : κ) :
    update h c none c' ≠ some r := fun h' =>
  (update_none_eq_some h').2 (hs hS hc (update_none_eq_some h').1)

/-- A cell takes what nobody refers to. -/
theorem Sole.fresh (hs : Sole S h) (hr : ∀ c', h c' ≠ some r) :
    Sole S (update h c (some r)) := by
  intro c₁ c₂ s hS h₁ h₂
  by_cases e₁ : c₁ = c
  · subst e₁
    obtain rfl : r = s := by simpa using h₁
    by_contra e₂
    rw [update_of_ne e₂] at h₂
    exact hr c₂ h₂
  · rw [update_of_ne e₁] at h₁
    by_cases e₂ : c₂ = c
    · subst e₂
      obtain rfl : r = s := by simpa using h₂
      exact absurd h₁ (hr c₁)
    · rw [update_of_ne e₂] at h₂
      exact hs hS h₁ h₂

/-- A cell outside `S` joins another one outside `S`. -/
theorem Sole.share (hs : Sole S h) (hc : ¬ S c) (hc₀ : ¬ S c₀) (h₀ : h c₀ = some r) :
    Sole S (update h c (some r)) := by
  intro c₁ c₂ s hS h₁ h₂
  have e₁ : c₁ ≠ c := fun e => hc (e ▸ hS)
  rw [update_of_ne e₁] at h₁
  by_cases e₂ : c₂ = c
  · subst e₂
    obtain rfl : r = s := by simpa using h₂
    exact absurd (hs hS h₁ h₀ ▸ hS) hc₀
  · rw [update_of_ne e₂] at h₂
    exact hs hS h₁ h₂

end Sole

/-! ### Balanced counters -/

/-- Below the cap, the counter is the number of references plus the leaked ones. -/
def Balanced (cap : ℕ) (h : κ → Option ρ) (count leak : ρ → ℕ) : Prop :=
  ∀ r, count r < cap → count r = refs h r + leak r

/-- One reference fewer at `r`; a saturated counter stays where it is. -/
def lower [DecidableEq ρ] (cap : ℕ) (count : ρ → ℕ) (r : ρ) : ρ → ℕ :=
  if count r < cap then update count r (count r - 1) else count

/-- One reference more at `r`; a saturated counter stays where it is. -/
def raise [DecidableEq ρ] (cap : ℕ) (count : ρ → ℕ) (r : ρ) : ρ → ℕ :=
  if count r < cap then update count r (count r + 1) else count

section Counters
variable [DecidableEq ρ] {cap : ℕ} {count : ρ → ℕ} {r s : ρ}

theorem lower_of_ne (e : s ≠ r) : lower cap count r s = count s := by
  unfold lower; split <;> simp [e]

theorem raise_of_ne (e : s ≠ r) : raise cap count r s = count s := by
  unfold raise; split <;> simp [e]

theorem lower_self (h : count r < cap) : lower cap count r r = count r - 1 := by
  simp [lower, h]

theorem raise_self (h : count r < cap) : raise cap count r r = count r + 1 := by
  simp [raise, h]

theorem lower_lt_cap (h : lower cap count r s < cap) : count s < cap := by
  by_cases e : s = r
  · subst e
    by_contra hn
    simp [lower, hn] at h
  · rwa [lower_of_ne e] at h

theorem raise_lt_cap (h : raise cap count r s < cap) : count s < cap := by
  by_cases e : s = r
  · subst e
    by_contra hn
    simp [raise, hn] at h
  · rwa [raise_of_ne e] at h

theorem lower_le : lower cap count r s ≤ count s := by
  unfold lower
  split
  · by_cases e : s = r
    · subst e; simp
    · simp [e]
  · exact Nat.le_refl _

/-- Saturation is for good. -/
theorem lower_cap_le (h : cap ≤ count s) : cap ≤ lower cap count r s :=
  Nat.le_of_not_lt fun hl => absurd (lower_lt_cap hl) (Nat.not_lt.mpr h)

theorem raise_cap_le (h : cap ≤ count s) : cap ≤ raise cap count r s :=
  Nat.le_of_not_lt fun hl => absurd (raise_lt_cap hl) (Nat.not_lt.mpr h)

end Counters

section Moves
variable [Finite κ] [DecidableEq κ] [DecidableEq ρ]
variable {cap : ℕ} {h : κ → Option ρ} {count leak : ρ → ℕ} {c c' : κ} {r : ρ}

omit [DecidableEq κ] [DecidableEq ρ] in
/-- A resource with counter `0` has no reference. -/
theorem Balanced.unheld (hb : Balanced cap h count leak) (hcap : 0 < cap) (hr : count r = 0) :
    (∀ c, h c ≠ some r) ∧ leak r = 0 := by
  have := hb r (hr ▸ hcap)
  exact ⟨refs_eq_zero_iff.mp (by omega), by omega⟩

section
variable (hb : Balanced cap h count leak)
include hb

/-- A free resource is handed to an empty cell. -/
theorem Balanced.take (hcap : 0 < cap) (hr : count r = 0)
    (hc : h c = none) :
    Balanced cap (update h c (some r)) (update count r 1) leak := by
  intro s hs
  have hu := refs_update h c (some r) s
  rw [hc, one_none] at hu
  by_cases e : s = r
  · subst e
    have h₀ := hb s (hr ▸ hcap)
    rw [one_some] at hu
    rw [update_self]
    omega
  · rw [update_of_ne e] at hs ⊢
    rw [one_some_of_ne (Ne.symm e)] at hu
    have := hb s hs
    omega

/-- A cell gives its reference back. -/
theorem Balanced.drop (hc : h c = some r) :
    Balanced cap (update h c none) (lower cap count r) leak := by
  intro s hs
  have hu := refs_update h c none s
  have hs' := lower_lt_cap hs
  have h₀ := hb s hs'
  rw [hc, one_none] at hu
  by_cases e : s = r
  · subst e
    rw [one_some] at hu
    rw [lower_self hs']
    omega
  · rw [one_some_of_ne (Ne.symm e)] at hu
    rw [lower_of_ne e]
    omega

/-- One more cell refers to `r`; what the cell held before is leaked. -/
theorem Balanced.share :
    Balanced cap (update h c (some r)) (raise cap count r)
      (fun s => leak s + one (h c) s) := by
  intro s hs
  show _ = _ + (leak s + one (h c) s)
  have hu := refs_update h c (some r) s
  have hs' := raise_lt_cap hs
  have h₀ := hb s hs'
  by_cases e : s = r
  · subst e
    rw [one_some] at hu
    rw [raise_self hs']
    omega
  · rw [one_some_of_ne (Ne.symm e)] at hu
    rw [raise_of_ne e]
    omega

/-- A cell is emptied without giving its reference back. -/
theorem Balanced.forget :
    Balanced cap (update h c none) count (fun s => leak s + one (h c) s) := by
  intro s hs
  show _ = _ + (leak s + one (h c) s)
  have hu := refs_update h c none s
  rw [one_none] at hu
  have := hb s hs
  omega

/-- A reference moves from one cell to another; what the second held before is leaked. -/
theorem Balanced.move (hne : c ≠ c') (hc : h c = some r) :
    Balanced cap (update (update h c none) c' (some r)) count
      (fun s => leak s + one (h c') s) := by
  intro s hs
  show _ = _ + (leak s + one (h c') s)
  have hu := refs_update (update h c none) c' (some r) s
  have hv := refs_update h c none s
  rw [update_of_ne (Ne.symm hne)] at hu
  rw [hc, one_none] at hv
  have := hb s hs
  omega

end

end Moves

end Ledger

end

import Mathlib.Data.List.Nodup

/-!
# Lib — doubly linked lists

A heap of cells with two pointers each is a pair of functions `next` and `prev`.  `Seg next prev p s l q e`
says that the cells `l` are linked one after the other: the first is `s` and points back to `p`, the last
is `q` and points on to `e`.  A chain that ends in a null pointer is a segment that starts with one on the
left and ends with one on the right, and a ring is a segment that ends where it starts.

A segment is taken apart where a pointer is written, and put together again with the pointer's new value.
-/

namespace Linked

open Function List

universe u

variable {α : Type u} {next prev next' prev' : α → Option α} {p q s e : Option α} {l l₁ l₂ : List α} {a b : α}
  {test : α → Bool} {n : ℕ}

/-- The cells `l`, linked in both directions. -/
def Seg (next prev : α → Option α) (p s : Option α) : List α → Option α → Option α → Prop
  | [], q, e => p = q ∧ s = e
  | a :: l, q, e => s = some a ∧ prev a = p ∧ Seg next prev (some a) (next a) l q e

/-- A chain from `s`, without a cell before it and after it. -/
def Chain (next prev : α → Option α) (s : Option α) (l : List α) : Prop := ∃ q, Seg next prev none s l q none

/-- A segment that ends where it starts. -/
def Ring (next prev : α → Option α) (l : List α) : Prop := ∃ p s, Seg next prev p s l p s

theorem seg_append : Seg next prev p s (l₁ ++ l₂) q e ↔
    ∃ p' s', Seg next prev p s l₁ p' s' ∧ Seg next prev p' s' l₂ q e := by
  induction l₁ generalizing p s with
  | nil =>
    constructor
    · exact fun h => ⟨p, s, ⟨rfl, rfl⟩, h⟩
    · rintro ⟨p', s', ⟨rfl, rfl⟩, h⟩
      exact h
  | cons a l₁ ih =>
    constructor
    · rintro ⟨h₁, h₂, h⟩
      obtain ⟨p', s', h₃, h₄⟩ := ih.mp h
      exact ⟨p', s', ⟨h₁, h₂, h₃⟩, h₄⟩
    · rintro ⟨p', s', ⟨h₁, h₂, h₃⟩, h₄⟩
      exact ⟨h₁, h₂, ih.mpr ⟨p', s', h₃, h₄⟩⟩

instance decidableSeg [DecidableEq α] (next prev : α → Option α) :
    (p s : Option α) → (l : List α) → (q e : Option α) → Decidable (Seg next prev p s l q e)
  | p, s, [], q, e => inferInstanceAs (Decidable (p = q ∧ s = e))
  | _, _, a :: l, q, e =>
    @instDecidableAnd _ _ _ (@instDecidableAnd _ _ _ (decidableSeg next prev (some a) (next a) l q e))

/-- Only the pointers of the cells matter. -/
theorem Seg.congr (h : Seg next prev p s l q e) (hn : ∀ x ∈ l, next' x = next x)
    (hp : ∀ x ∈ l, prev' x = prev x) : Seg next' prev' p s l q e := by
  induction l generalizing p s with
  | nil => exact h
  | cons a l ih =>
    obtain ⟨h₁, h₂, h₃⟩ := h
    refine ⟨h₁, (hp a mem_cons_self).trans h₂, ?_⟩
    rw [hn a mem_cons_self]
    exact ih h₃ (fun x hx => hn x (mem_cons_of_mem a hx)) fun x hx => hp x (mem_cons_of_mem a hx)

theorem Chain.congr (h : Chain next prev s l) (hn : ∀ x ∈ l, next' x = next x)
    (hp : ∀ x ∈ l, prev' x = prev x) : Chain next' prev' s l := by
  obtain ⟨q, h⟩ := h
  exact ⟨q, h.congr hn hp⟩

section

variable [DecidableEq α] {w : Option α}

/-- The pointer back from the first cell is written. -/
theorem Seg.setPrev (h : Seg next prev p s (a :: l) q e) (hnd : (a :: l).Nodup) :
    Seg next (update prev a w) w s (a :: l) q e := by
  obtain ⟨h₁, -, h₃⟩ := h
  refine ⟨h₁, update_self .., h₃.congr (fun _ _ => rfl) fun x hx => update_of_ne ?_ _ _⟩
  rintro rfl
  exact (nodup_cons.mp hnd).1 hx

/-- The pointer on from the last cell is written. -/
theorem Seg.setNext (h : Seg next prev p s (l ++ [a]) q e) (hnd : (l ++ [a]).Nodup) :
    Seg (update next a w) prev p s (l ++ [a]) q w := by
  obtain ⟨p', s', h₁, h₂, h₃, h₄, -⟩ := seg_append.mp h
  refine seg_append.mpr ⟨p', s', h₁.congr (fun x hx => update_of_ne ?_ _ _) fun _ _ => rfl, h₂, h₃, h₄,
    update_self ..⟩
  rintro rfl
  exact (nodup_append.mp hnd).2.2 x hx x mem_cons_self rfl

end

/-- The last cell of a segment. -/
theorem Seg.last (h : Seg next prev p s (l ++ [a]) q e) : q = some a ∧ next a = e := by
  obtain ⟨p', s', -, -, -, h₄, h₅⟩ := seg_append.mp h
  exact ⟨h₄.symm, h₅⟩

/-! ### Chains -/

/-- The first cell that passes the test, from `s` on; `none` if there is no end to the search. -/
def search (next : α → Option α) (test : α → Bool) : ℕ → Option α → Option (Option α)
  | _, none => some none
  | 0, some _ => none
  | n + 1, some a => if test a then some (some a) else search next test n (next a)

theorem Seg.search (h : Seg next prev p s l q none) (hn : l.length ≤ n) :
    search next test n s = some (l.find? test) := by
  induction l generalizing p s n with
  | nil =>
    obtain ⟨-, rfl⟩ := h
    cases n <;> rfl
  | cons a l ih =>
    obtain ⟨rfl, -, h⟩ := h
    obtain ⟨n, rfl⟩ : ∃ m, n = m + 1 := ⟨n - 1, by simp at hn; omega⟩
    unfold Linked.search
    rw [find?_cons]
    cases test a with
    | true => rfl
    | false => exact ih h (Nat.le_of_succ_le_succ hn)

/-- **A search of a chain ends.** -/
theorem Chain.search (h : Chain next prev s l) (hn : l.length ≤ n) :
    search next test n s = some (l.find? test) := by
  obtain ⟨q, h⟩ := h
  exact h.search hn

section

variable [DecidableEq α]

/-- `a->next = e`, or the head of the chain if there is no `a`. -/
def relinkNext (next : α → Option α) (a : Option α) (e : Option α) : α → Option α :=
  match a with
  | some a => update next a e
  | none => next

/-- `a->prev = p`, if there is an `a`. -/
def relinkPrev (prev : α → Option α) (a : Option α) (p : Option α) : α → Option α :=
  match a with
  | some a => update prev a p
  | none => prev

/-- **A cell is taken out of a chain.** -/
theorem Chain.erase (h : Chain next prev s l) (hnd : l.Nodup) (ha : a ∈ l) :
    Chain (relinkNext next (prev a) (next a)) (relinkPrev prev (next a) (prev a))
      (if prev a = none then next a else s) (l.erase a) ∧
    (prev a = none → s = some a) ∧ (∀ x, prev a = some x → x ∈ l) ∧ ∀ x, next a = some x → x ∈ l := by
  obtain ⟨q, h⟩ := h
  obtain ⟨l₁, l₂, rfl⟩ := append_of_mem ha
  have hnot : a ∉ l₁ := fun h => (nodup_append.mp hnd).2.2 a h a mem_cons_self rfl
  have hnd₁ : l₁.Nodup := (nodup_append.mp hnd).1
  have hnd₂ : l₂.Nodup := (nodup_cons.mp (nodup_append.mp hnd).2.1).2
  have hdis : ∀ x ∈ l₁, ∀ y ∈ l₂, x ≠ y := fun x hx y hy =>
    (nodup_append.mp hnd).2.2 x hx y (mem_cons_of_mem a hy)
  rw [erase_append_right _ hnot, erase_cons_head]
  obtain ⟨p', s', h₁, rfl, h₃, h₄⟩ := seg_append.mp h
  -- what follows the cell points back to what was before it
  obtain ⟨q', hright⟩ : ∃ q', Seg next (relinkPrev prev (next a) (prev a)) (prev a) (next a) l₂ q' none := by
    cases l₂ with
    | nil =>
      obtain ⟨-, h₅⟩ := h₄
      exact ⟨prev a, rfl, h₅⟩
    | cons y l₂ =>
      have hy : next a = some y := h₄.1
      rw [hy] at h₄ ⊢
      exact ⟨q, h₄.setPrev hnd₂⟩
  have hsucc : ∀ x, next a = some x → x ∈ l₂ := fun x hx => by
    cases l₂ with
    | nil =>
      obtain ⟨-, h₅⟩ := h₄
      rw [hx] at h₅
      cases h₅
    | cons y l₂ =>
      have hy : next a = some y := h₄.1
      rw [hx] at hy
      cases hy
      exact mem_cons_self
  have hback : ∀ x ∈ l₁, relinkPrev prev (next a) (prev a) x = prev x := fun x hx => by
    cases hn : next a with
    | none => rfl
    | some y => exact update_of_ne (hdis x hx y (hsucc y hn)) _ _
  rcases eq_nil_or_concat l₁ with rfl | ⟨l₀, b, rfl⟩
  · obtain ⟨rfl, rfl⟩ := h₁
    rw [h₃] at hright ⊢
    refine ⟨⟨_, hright⟩, fun _ => rfl, fun x hx => (by cases hx), fun x hx => ?_⟩
    exact mem_cons_of_mem a (hsucc x hx)
  rw [concat_eq_append] at *
  have hb : prev a = some b := h₃.trans h₁.last.1
  rw [hb] at hright hback ⊢
  rw [h₁.last.1] at h₁
  refine ⟨⟨q', seg_append.mpr ⟨some b, next a, ?_, ?_⟩⟩, fun h => (by cases h), fun x hx => ?_, fun x hx => ?_⟩
  · exact (h₁.congr (fun _ _ => rfl) hback).setNext hnd₁
  · refine hright.congr (fun x hx => update_of_ne ?_ _ _) fun _ _ => rfl
    exact (hdis b (by simp) x hx).symm
  · cases hx
    simp
  · exact mem_append_right _ (mem_cons_of_mem a (hsucc x hx))

/-- **A cell is put at the front of a chain.** -/
theorem Chain.cons (h : Chain next prev s l) (hnd : l.Nodup) (ha : a ∉ l) :
    Chain (update next a s) (relinkPrev (update prev a none) s (some a)) (some a) (a :: l) := by
  obtain ⟨q, h⟩ := h
  have hne : ∀ x ∈ l, x ≠ a := fun x hx e => ha (e ▸ hx)
  have h' : Seg (update next a s) (update prev a none) none s l q none :=
    h.congr (fun x hx => update_of_ne (hne x hx) _ _) fun x hx => update_of_ne (hne x hx) _ _
  cases l with
  | nil =>
    obtain ⟨-, rfl⟩ := h
    exact ⟨some a, rfl, update_self .., rfl, update_self ..⟩
  | cons y l =>
    obtain rfl := h.1
    refine ⟨q, rfl, ?_, ?_⟩
    · exact (update_of_ne (hne y mem_cons_self).symm _ _).trans (update_self ..)
    · rw [update_self]
      exact h'.setPrev hnd

end

/-! ### Rings -/

/-- A ring may be entered anywhere. -/
theorem Ring.rotate (l₁ l₂ : List α) (h : Ring next prev (l₁ ++ l₂)) : Ring next prev (l₂ ++ l₁) := by
  obtain ⟨p, s, h⟩ := h
  obtain ⟨p', s', h₁, h₂⟩ := seg_append.mp h
  exact ⟨p', s', seg_append.mpr ⟨p, s, h₂, h₁⟩⟩

/-- A cell of a ring has a neighbour on either side. -/
theorem Ring.neighbours (h : Ring next prev l) (ha : a ∈ l) : (∃ x, prev a = some x) ∧ ∃ y, next a = some y := by
  obtain ⟨l₁, l₂, rfl⟩ := append_of_mem ha
  obtain ⟨p, s, rfl, h₂, h₃⟩ := h.rotate l₁ (a :: l₂)
  change Seg next prev (some a) (next a) (l₂ ++ l₁) p (some a) at h₃
  refine ⟨?_, ?_⟩
  · rcases eq_nil_or_concat (l₂ ++ l₁) with e | ⟨l₀, z, e⟩
    · rw [e] at h₃
      exact ⟨a, h₂.trans h₃.1.symm⟩
    · rw [e, concat_eq_append] at h₃
      exact ⟨z, h₂.trans h₃.last.1⟩
  · cases hl : l₂ ++ l₁ with
    | nil =>
      rw [hl] at h₃
      exact ⟨a, h₃.2⟩
    | cons y m =>
      rw [hl] at h₃
      exact ⟨y, h₃.1⟩

/-- The first cell that passes the test, once around from `a` up to `stop`. -/
def round [DecidableEq α] (next : α → Option α) (test : α → Bool) (stop : α) : ℕ → α → Option (Option α)
  | 0, _ => none
  | n + 1, a =>
    if test a then some (some a)
    else
      match next a with
      | none => some none
      | some b => if b = stop then some none else round next test stop n b

theorem Seg.round [DecidableEq α] {stop : α}
    (h : Seg next prev p (some a) (a :: l) q (some stop)) (hs : stop ∉ l) (hn : l.length < n) :
    round next test stop n a = some ((a :: l).find? test) := by
  induction l generalizing p a n with
  | nil =>
    obtain ⟨-, -, -, h₄⟩ := h
    obtain ⟨n, rfl⟩ : ∃ m, n = m + 1 := ⟨n - 1, by omega⟩
    unfold Linked.round
    rw [find?_cons, h₄]
    cases test a <;> simp
  | cons b l ih =>
    obtain ⟨-, -, h₃⟩ := h
    have hb : next a = some b := h₃.1
    rw [hb] at h₃
    obtain ⟨n, rfl⟩ : ∃ m, n = m + 1 := ⟨n - 1, by omega⟩
    unfold Linked.round
    rw [find?_cons, hb]
    cases test a with
    | true => rfl
    | false =>
      have hne : b ≠ stop := fun e => hs (e ▸ mem_cons_self)
      simp only [Bool.false_eq_true, if_false, hne]
      exact ih h₃ (fun h => hs (mem_cons_of_mem b h)) (Nat.lt_of_succ_lt_succ hn)

/-- **A search of a ring ends.** -/
theorem Ring.round [DecidableEq α] (h : Ring next prev (a :: l)) (hnd : (a :: l).Nodup)
    (hn : l.length < n) : round next test a n a = some ((a :: l).find? test) := by
  obtain ⟨p, s, h⟩ := h
  obtain rfl : s = some a := h.1
  exact h.round (nodup_cons.mp hnd).1 hn

section

variable [DecidableEq α]

/-- **A cell is taken out of a ring.** -/
theorem Ring.erase {x y : α} (h : Ring next prev (a :: l)) (hnd : (a :: l).Nodup) (hl : l ≠ []) (hx : prev a = some x)
    (hy : next a = some y) : Ring (update next x (some y)) (update prev y (some x)) l ∧ x ∈ l ∧ y ∈ l := by
  obtain ⟨p, s, rfl, h₂, h₃⟩ := h
  have hnd' := (nodup_cons.mp hnd).2
  rw [hx] at h₂
  rw [hy] at h₃
  obtain rfl := h₂
  cases l with
  | nil => exact absurd rfl hl
  | cons b l =>
    obtain rfl : y = b := Option.some.inj h₃.1
    rcases eq_nil_or_concat (y :: l) with e | ⟨l₀, z, e⟩
    · cases e
    rw [concat_eq_append] at e
    have hz : some x = some z := by
      have := h₃
      rw [e] at this
      exact this.last.1
    cases hz
    refine ⟨⟨some x, some y, ?_⟩, by rw [e]; simp, mem_cons_self⟩
    have h₄ := h₃.setPrev (w := some x) hnd'
    rw [e] at h₄ hnd' ⊢
    exact h₄.setNext hnd'

/-- **A cell is put before the first cell of a ring**, which is behind the last. -/
theorem Ring.insert {x : α} (h : Ring next prev (l ++ [b])) (hnd : (l ++ [b]).Nodup) (ha : a ∉ l ++ [b])
    (hx : next b = some x) :
    Ring (update (update next a (some x)) b (some a))
      (update (update prev a (some b)) x (some a)) (a :: (l ++ [b])) := by
  obtain ⟨p, s, h⟩ := h
  obtain ⟨rfl, hs⟩ := h.last
  rw [hx] at hs
  obtain rfl := hs
  have hne : ∀ x ∈ l ++ [b], x ≠ a := fun x hx e => ha (e ▸ hx)
  have hab : a ≠ b := (hne b (by simp)).symm
  have hmem : x ∈ l ++ [b] := by
    cases l with
    | nil => rw [Option.some.inj h.1]; exact mem_cons_self
    | cons y l => rw [Option.some.inj h.1]; exact mem_cons_self
  have hax : a ≠ x := (hne x hmem).symm
  have h' : Seg (update next a (some x)) (update prev a (some b)) (some b) (some x) (l ++ [b])
      (some b) (some x) :=
    h.congr (fun y hy => update_of_ne (hne y hy) _ _) fun y hy => update_of_ne (hne y hy) _ _
  have h₁ : Seg (update next a (some x)) (update (update prev a (some b)) x (some a))
      (some a) (some x) (l ++ [b]) (some b) (some x) := by
    cases hl : l ++ [b] with
    | nil => simp at hl
    | cons y m =>
      rw [hl] at h' hnd
      obtain rfl : x = y := Option.some.inj h'.1
      exact h'.setPrev hnd
  refine ⟨some b, some a, rfl, ?_, ?_⟩
  · rw [update_of_ne hax, update_self]
  · rw [update_of_ne hab, update_self]
    exact h₁.setNext hnd

end

end Linked

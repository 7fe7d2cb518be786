import Linux001.Mm.Books
import Linux001.Mm.Space

/-!
# Mm — the invariant of the memory manager

The invariant ties the state of `mm/memory.c` to the books, in five parts: the accounts
(`Accounts`), the directories and tables in memory (`Shape`), what an entry may be and what its
cell refers to (`Entries`), the swap slots (`Slots`), and the tasks' directories.

Each lemma below is one thing the code does to the state, together with the books after it.
-/

namespace Linux001

open Function (update_of_ne update_self)
open Ledger Books

/-- The entry maps a page of the user's. -/
structure Mapped (w : Word) : Prop where
  present : present w = true
  user : userBit w = true
  inCore : swapped w = false
  /-- An entry is writable or copy-on-write, and never both. -/
  rw : writable w = !cow w

theorem mapped_mapEntry (f : Frame) : Mapped (mapEntry f) :=
  ⟨present_mapEntry f, userBit_mapEntry f, swapped_mapEntry f, by simp⟩

theorem Mapped.cowEntry {w : Word} (h : Mapped w) : Mapped (cowEntry w) :=
  ⟨by simp [h.present], by simp [h.user], by simp [h.inCore], by simp⟩

theorem Mapped.sameEntry {w w' : Word} (h : Mapped w) (hs : SameEntry w w') : Mapped w' :=
  ⟨by rw [hs.present, h.present], by rw [hs.userBit, h.user], by rw [hs.swapped, h.inCore],
    by rw [hs.writable, hs.cow, h.rw]⟩

/-- An entry, and what its cell refers to. -/
inductive EntryOk : Word → Option Frame → Prop where
  | page {w : Word} (h : Mapped w) : EntryOk w (some (frameOf w))
  | empty {x : Option Frame} : EntryOk 0#32 x
  | out {s : ℕ} (h : s < nrSwapSlots) : EntryOk (swapEntry s) none

theorem EntryOk.of_present {w : Word} {x : Option Frame} (h : EntryOk w x) (hp : present w = true) :
    Mapped w ∧ x = some (frameOf w) := by
  cases h with
  | page h => exact ⟨h, rfl⟩
  | empty => simp at hp
  | out => simp at hp

theorem EntryOk.present_of_cow {w : Word} {x : Option Frame} (h : EntryOk w x)
    (hc : cow w = true) : present w = true := by
  cases h with
  | page h => exact h.present
  | empty => simp at hc
  | out => simp at hc

theorem EntryOk.of_swapped {w : Word} {x : Option Frame} (h : EntryOk w x) (hp : present w = false)
    (hs : swapped w = true) : ∃ s < nrSwapSlots, w = swapEntry s ∧ x = none := by
  cases h with
  | page h => rw [h.present] at hp; cases hp
  | empty => simp at hs
  | @out s h => exact ⟨s, h, rfl, rfl⟩

theorem EntryOk.of_absent {w : Word} {x : Option Frame} (h : EntryOk w x) (hp : present w = false)
    (hs : swapped w = false) : w = 0#32 := by
  cases h with
  | page h => rw [h.present] at hp; cases hp
  | empty => rfl
  | out => simp at hs

/-- No swap entry. -/
def InCore (w : Word) : Prop := swapped w = false

theorem InCore.ne {w : Word} (h : InCore w) (s : ℕ) : w ≠ swapEntry s := fun e => by
  unfold InCore at h
  rw [e, swapped_swapEntry] at h
  cases h

theorem EntryOk.inCore {w : Word} {x : Option Frame} (h : EntryOk w x)
    (hw : present w = true ∨ x ≠ none) : InCore w := by
  cases h with
  | page h => exact h.inCore
  | empty => exact swapped_zero
  | out => rcases hw with hw | hw <;> simp at hw

/-! ### The parts of the invariant -/

/-- A frame that is neither a directory, a table nor one of the kernel's tables. -/
structure Books.Data (b : Books) (f : Frame) : Prop where
  dir : f ∉ b.live
  table : ∀ d ∈ b.live, b.tbl d ≠ f
  kernel : ∀ k < kernelPtCount, kernelTable k ≠ f

/-- The directories and tables in memory. -/
structure Shape (B : Boot) (m : Mm) (b : Books) : Prop where
  dir : ∀ {d}, d ∈ b.live → m.mem d = Function.update kernelPde userPdeIndex (mapEntry (b.tbl d))
  table : ∀ {d}, d ∈ b.live → m.mem (b.tbl d) = b.pte d
  kernel : ∀ {k}, k < kernelPtCount → ∀ i, m.mem (kernelTable k) i = B.ktable k i

/-- Entries and their cells. -/
structure Entries (B : Boot) (m : Mm) (b : Books) : Prop where
  entry : ∀ {d}, d ∈ b.live → ∀ i, EntryOk (b.pte d i) (b.hold d i)
  /-- Unless a mapping has been dropped without its reference, an absent page has none. -/
  fresh : m.nrUnmapped = B.nrUnmapped → ∀ {d i}, d ∈ b.live → present (b.pte d i) = false → b.hold d i = none
  /-- A page that is not copy-on-write is mapped once. -/
  own : ∀ {d i d' i'}, d ∈ b.live → present (b.pte d i) = true → cow (b.pte d i) = false →
    b.hold d' i' = some (frameOf (b.pte d i)) → d' = d ∧ i' = i
  /-- Only pages that a user process may touch have an entry. -/
  legal : ∀ {d i}, d ∈ b.live → b.pte d i ≠ 0#32 → UserPage i

/-- `swap_map[]` and what is on the swap device. -/
structure Slots (m : Mm) (b : Books) : Prop where
  taken : ∀ {s}, s < nrSwapSlots → (m.swapMap s = true ↔ ∃ d ∈ b.live, ∃ i, b.pte d i = swapEntry s)
  unique : ∀ {s d i d' i'}, s < nrSwapSlots → d ∈ b.live → d' ∈ b.live →
    b.pte d i = swapEntry s → b.pte d' i' = swapEntry s → d' = d ∧ i' = i
  kept : ∀ {s d i}, s < nrSwapSlots → d ∈ b.live → b.pte d i = swapEntry s → m.slotPage s = m.wentOut (b.tbl d) i

/-- **The invariant.** -/
structure Inv (B : Boot) (tk : TaskTable) (m : Mm) (b : Books) : Prop where
  accounts : Accounts B m b.cells b.leak b.live
  shape : Shape B m b
  entries : Entries B m b
  slots : Slots m b
  tasks : ∀ {n t d}, tk n = some t → t.pgDir = some d → d ∈ b.live

variable {B : Boot} {tk : TaskTable} {m m' : Mm} {b : Books}
variable {d d' f : Frame} {i i' : Ix} {w : Word} {x : Option Frame} {s : ℕ} {p : Page} {b' : Books}

/-! ### Kinds of frames -/

namespace Inv

section
variable (h : Inv B tk m b)
include h

theorem tbl_inj (hd : d ∈ b.live) (hd' : d' ∈ b.live)
    (e : b.tbl d = b.tbl d') : d = d' := by
  have := h.accounts.sole (by trivial) (cells_table hd)
    (by rw [cells_table hd', e])
  simpa using this.symm

theorem tbl_ne_dir (hd : d ∈ b.live) (hd' : d' ∈ b.live) : b.tbl d ≠ d' :=
  fun e => by
    have := h.accounts.sole (by trivial) (cells_table hd)
      (by rw [cells_dir hd', e])
    cases this

theorem tbl_ne_kernel (hd : d ∈ b.live) {k : ℕ} (hk : k < kernelPtCount) :
    kernelTable k ≠ b.tbl d := fun e =>
  (h.accounts.held (cells_table hd)).2 (e ▸ B.kernel k hk)

/-- A frame that a kernel owner or an entry refers to holds no page table. -/
theorem data {c : Cell} (hc : b.cells c = some f)
    (hdir : ∀ d, c ≠ .dir d) (htab : ∀ d, c ≠ .table d) : b.Data f where
  dir hf := hdir f (h.accounts.sole (by trivial) (cells_dir hf) hc)
  table d hd e := htab d (h.accounts.sole (by trivial) (cells_table hd) (e ▸ hc))
  kernel k hk e := (h.accounts.held hc).2 (e ▸ B.kernel k hk)

theorem data_kern (hf : f ∈ b.kern) : b.Data f :=
  h.data (cells_kern hf) (by simp) (by simp)

theorem data_hold (hf : b.hold d i = some f) : b.Data f :=
  h.data (c := .pte d i) hf (by simp) (by simp)

/-- An entry of a live table, as the code reads it. -/
theorem mem_tbl (hd : d ∈ b.live) : m.mem (b.tbl d) i = b.pte d i := by
  rw [h.shape.table hd]

theorem userPt_eq (hd : d ∈ b.live) : m.userPt (some d) = some (b.tbl d) := by
  simp [Mm.userPt, h.shape.dir hd]

theorem tbl_eq {pt : Frame} (hd : d ∈ b.live) (hpt : m.userPt (some d) = some pt) : b.tbl d = pt :=
  Option.some.inj ((h.userPt_eq hd).symm.trans hpt)

section
variable (hd : d ∈ b.live) (hp : present (b.pte d i) = true)
include hd hp

/-- A present entry's cell refers to its frame. -/
theorem hold_eq :
    b.hold d i = some (frameOf (b.pte d i)) := ((h.entries.entry hd i).of_present hp).2

theorem mapped :
    Mapped (b.pte d i) := ((h.entries.entry hd i).of_present hp).1

/-- A present entry's page is one a user process may touch. -/
theorem userPage :
    UserPage i :=
  h.entries.legal hd fun e => by
    rw [e, present_zero] at hp
    cases hp

/-- If an entry shares its frame with a cell, both are copy-on-write. -/
theorem shared
    (hx : b.hold d' i' = some (frameOf (b.pte d i))) (e : ¬ (d' = d ∧ i' = i)) :
    cow (b.pte d i) = true ∧ (d' ∈ b.live → present (b.pte d' i') = true → cow (b.pte d' i') = true) := by
  refine ⟨?_, fun hd' hp' => ?_⟩
  · by_contra hc
    exact e (h.entries.own hd hp (by simpa using hc) hx)
  · by_contra hc
    have hf : b.hold d i = some (frameOf (b.pte d' i')) := by
      rw [h.hold_eq hd hp, ← hx, h.hold_eq hd' hp']
    obtain ⟨h₁, h₂⟩ := h.entries.own hd' hp' (by simpa using hc) hf
    exact e ⟨h₁.symm, h₂.symm⟩

end

end

end Inv

/-! ### How the parts change -/

theorem Shape.congr (h : Shape B m b) (hm : ∀ g, ¬ b.Data g → m'.mem g = m.mem g) :
    Shape B m' b where
  dir hd := by rw [hm _ fun hg => hg.dir hd]; exact h.dir hd
  table hd := by rw [hm _ fun hg => hg.table _ hd rfl]; exact h.table hd
  kernel hk i := by rw [hm _ fun hg => hg.kernel _ hk rfl]; exact h.kernel hk i

/-- The shape depends on the live directories, their tables and entries. -/
theorem Shape.books (h : Shape B m b) (hl : b'.live = b.live) (ht : b'.tbl = b.tbl)
    (hp : b'.pte = b.pte) : Shape B m b' where
  dir hd := by rw [ht]; exact h.dir (hl ▸ hd)
  table hd := by rw [ht, hp]; exact h.table (hl ▸ hd)
  kernel := h.kernel

/-- Only data pages have been written. -/
theorem Shape.update (h : Shape B m b) (hf : b.Data f)
    (hm : m'.mem = Function.update m.mem f p) : Shape B m' b :=
  h.congr fun g hg => by
    have e : g ≠ f := fun e => hg (e ▸ hf)
    rw [hm, update_of_ne e]

/-- An entry of a live table has been written. -/
theorem Inv.shape_setPte (h : Inv B tk m b) (hd : d ∈ b.live)
    (hm : m'.mem = update₂ m.mem (b.tbl d) i w) : Shape B m' (b.setPte d i w) where
  dir {d'} hd' := by
    rw [hm, update₂_of_ne_left (h.tbl_ne_dir hd hd').symm]
    exact h.shape.dir hd'
  table {d'} hd' := by
    by_cases e : d' = d
    · subst e
      show m'.mem (b.tbl d') = update₂ b.pte d' i w d'
      rw [hm, update₂_row, update₂_row, h.shape.table hd]
    · have e' : b.tbl d' ≠ b.tbl d := fun e' => e (h.tbl_inj hd' hd e')
      show m'.mem (b.tbl d') = update₂ b.pte d i w d'
      rw [hm, update₂_of_ne_left e', update₂_of_ne_left e]
      exact h.shape.table hd'
  kernel {k} hk j := by
    rw [hm, update₂_of_ne_left (h.tbl_ne_kernel hd hk)]
    exact h.shape.kernel hk j

/-- An entry and its cell are rewritten. -/
theorem Entries.set (e : Entries B m b) (hok : EntryOk w x) (hleg : w ≠ 0#32 → UserPage i)
    (hu : m'.nrUnmapped = B.nrUnmapped → m.nrUnmapped = B.nrUnmapped)
    (hfresh : m'.nrUnmapped = B.nrUnmapped → present w = false → x = none)
    (hown : ∀ f d' i', x = some f → b.hold d' i' = some f → ¬ (d' = d ∧ i' = i) → (present w = true → cow w = true) ∧
        (d' ∈ b.live → present (b.pte d' i') = true → cow (b.pte d' i') = true)) :
    Entries B m' ((b.setPte d i w).setHold d i x) where
  legal {d' i'} hd' hw := by
    change update₂ b.pte d i w d' i' ≠ 0#32 at hw
    by_cases e' : d' = d ∧ i' = i
    · obtain ⟨rfl, rfl⟩ := e'
      rw [update₂_self] at hw
      exact hleg hw
    · rw [update₂_of_ne e'] at hw
      exact e.legal hd' hw
  entry {d'} hd' i' := by
    show EntryOk (update₂ b.pte d i w d' i') (update₂ b.hold d i x d' i')
    by_cases e' : d' = d ∧ i' = i
    · obtain ⟨rfl, rfl⟩ := e'
      simpa using hok
    · rw [update₂_of_ne e', update₂_of_ne e']
      exact e.entry hd' i'
  fresh hu' {d' i'} hd' hp := by
    change present (update₂ b.pte d i w d' i') = false at hp
    show update₂ b.hold d i x d' i' = none
    by_cases e' : d' = d ∧ i' = i
    · obtain ⟨rfl, rfl⟩ := e'
      rw [update₂_self] at hp ⊢
      exact hfresh hu' hp
    · rw [update₂_of_ne e'] at hp ⊢
      exact e.fresh (hu hu') hd' hp
  own {d₁ i₁ d₂ i₂} hd₁ hp hc hx := by
    change present (update₂ b.pte d i w d₁ i₁) = true at hp
    change cow (update₂ b.pte d i w d₁ i₁) = false at hc
    change update₂ b.hold d i x d₂ i₂ = some (frameOf (update₂ b.pte d i w d₁ i₁)) at hx
    by_cases e₁ : d₁ = d ∧ i₁ = i
    · obtain ⟨rfl, rfl⟩ := e₁
      rw [update₂_self] at hp hc hx
      by_contra e₂
      rw [update₂_of_ne e₂] at hx
      have hw := (hown _ d₂ i₂ (hok.of_present hp).2 hx e₂).1 hp
      rw [hc] at hw
      cases hw
    · rw [update₂_of_ne e₁] at hp hc hx
      by_cases e₂ : d₂ = d ∧ i₂ = i
      · obtain ⟨rfl, rfl⟩ := e₂
        rw [update₂_self] at hx
        have h₁ := ((e.entry hd₁ i₁).of_present hp).2
        have hw := (hown _ d₁ i₁ hx h₁ e₁).2 hd₁ hp
        rw [hc] at hw
        cases hw
      · rw [update₂_of_ne e₂] at hx
        exact e.own hd₁ hp hc hx

theorem Entries.books (e : Entries B m b) (hl : b'.live = b.live) (hp : b'.pte = b.pte)
    (hh : b'.hold = b.hold) : Entries B m b' where
  entry hd := by rw [hp, hh]; exact e.entry (hl ▸ hd)
  fresh hu {_ _} hd := by rw [hp, hh]; exact e.fresh hu (hl ▸ hd)
  own hd := by rw [hp, hh]; exact e.own (hl ▸ hd)
  legal hd := by rw [hp]; exact e.legal (hl ▸ hd)

theorem Entries.congr (e : Entries B m b) (hu : m'.nrUnmapped = m.nrUnmapped) : Entries B m' b where
  entry := e.entry
  fresh := by rw [hu]; exact e.fresh
  own := e.own
  legal := e.legal

theorem Slots.congr (h : Slots m b) (hs : m'.swapMap = m.swapMap)
    (hp : ∀ s, m.swapMap s = true → m'.slotPage s = m.slotPage s) (hw : m'.wentOut = m.wentOut) :
    Slots m' b where
  taken {s} hlt := by rw [hs]; exact h.taken hlt
  unique := h.unique
  kept {s d i} hlt hd he := by
    rw [hp s ((h.taken hlt).mpr ⟨d, hd, i, he⟩), hw]
    exact h.kept hlt hd he

theorem Slots.books (h : Slots m b) (hl : b'.live = b.live) (ht : b'.tbl = b.tbl)
    (hp : b'.pte = b.pte) : Slots m b' where
  taken hlt := by rw [hl, hp]; exact h.taken hlt
  unique hlt hd hd' := by rw [hp]; exact h.unique hlt (hl ▸ hd) (hl ▸ hd')
  kept hlt hd := by rw [hp, ht]; exact h.kept hlt (hl ▸ hd)

/-- An entry that names no slot gives way to another one. -/
theorem Slots.set (h : Slots m b) (hold : InCore (b.pte d i)) (hnew : InCore w)
    (hs : m'.swapMap = m.swapMap) (hp : m'.slotPage = m.slotPage) (hw : m'.wentOut = m.wentOut) :
    Slots m' (b.setPte d i w) := by
  have key : ∀ {s d' i'}, update₂ b.pte d i w d' i' = swapEntry s ↔ b.pte d' i' = swapEntry s := by
    intro s d' i'
    by_cases e : d' = d ∧ i' = i
    · obtain ⟨rfl, rfl⟩ := e
      rw [update₂_self]
      exact ⟨fun e => absurd e (hnew.ne s), fun e => absurd e (hold.ne s)⟩
    · rw [update₂_of_ne e]
  refine ⟨fun {s} hlt => ?_, fun hlt hd hd' h₁ h₂ => h.unique hlt hd hd' (key.mp h₁) (key.mp h₂), fun hlt hd he => ?_⟩
  · rw [hs, h.taken hlt]
    exact exists_congr fun d' => and_congr_right fun _ => exists_congr fun i' => key.symm
  · rw [hp, hw]
    exact h.kept hlt hd (key.mp he)

/-- A page has gone out to a free slot. -/
theorem Slots.fill (h : Slots m b) (hinj : ∀ d' ∈ b.live, b.tbl d' = b.tbl d → d' = d)
    (hd : d ∈ b.live) (hlt : s < nrSwapSlots) (hfree : m.swapMap s = false)
    (hold : InCore (b.pte d i)) (hs : m'.swapMap = Function.update m.swapMap s true)
    (hp : m'.slotPage s = p) (hp' : ∀ s', s' ≠ s → m'.slotPage s' = m.slotPage s')
    (hw : m'.wentOut = update₂ m.wentOut (b.tbl d) i p) :
    Slots m' (b.setPte d i (swapEntry s)) := by
  -- the slot was free, so no entry named it
  have hno : ∀ {d' i'}, d' ∈ b.live → b.pte d' i' ≠ swapEntry s := fun {d' i'} hd' e => by
    rw [(h.taken hlt).mpr ⟨d', hd', i', e⟩] at hfree
    cases hfree
  have key : ∀ {s' d' i'}, s' < nrSwapSlots → d' ∈ b.live → (update₂ b.pte d i (swapEntry s) d' i' = swapEntry s' ↔
        (s' = s ∧ d' = d ∧ i' = i) ∨ (s' ≠ s ∧ b.pte d' i' = swapEntry s')) := by
    intro s' d' i' hlt' hd'
    by_cases e : d' = d ∧ i' = i
    · obtain ⟨rfl, rfl⟩ := e
      rw [update₂_self]
      refine ⟨fun e => .inl ⟨swapEntry_inj hlt' hlt e.symm, rfl, rfl⟩, ?_⟩
      rintro (⟨rfl, -⟩ | ⟨-, e⟩)
      · rfl
      · exact absurd e (hold.ne s')
    · rw [update₂_of_ne e]
      refine ⟨fun e' => .inr ⟨fun es => hno hd' (es ▸ e'), e'⟩, ?_⟩
      rintro (⟨-, e'⟩ | ⟨-, e'⟩)
      · exact absurd e' e
      · exact e'
  refine ⟨fun {s'} hlt' => ?_, fun {s' d₁ i₁ d₂ i₂} hlt' h₁ h₂ e₁ e₂ => ?_, fun {s' d' i'} hlt' hd' e => ?_⟩
  · by_cases es : s' = s
    · subst es
      rw [hs, update_self]
      exact ⟨fun _ => ⟨d, hd, i, (key hlt hd).mpr (.inl ⟨rfl, rfl, rfl⟩)⟩, fun _ => rfl⟩
    rw [hs, update_of_ne es, h.taken hlt']
    constructor
    · rintro ⟨d', hd', i', e⟩
      exact ⟨d', hd', i', (key hlt' hd').mpr (.inr ⟨es, e⟩)⟩
    · rintro ⟨d', hd', i', e⟩
      rcases (key hlt' hd').mp e with ⟨e', -⟩ | ⟨-, e'⟩
      · exact absurd e' es
      · exact ⟨d', hd', i', e'⟩
  · rcases (key hlt' h₁).mp e₁ with ⟨es, rfl, rfl⟩ | ⟨es, e₁'⟩
    · rcases (key hlt' h₂).mp e₂ with ⟨-, rfl, rfl⟩ | ⟨es', -⟩
      · exact ⟨rfl, rfl⟩
      · exact absurd es es'
    · rcases (key hlt' h₂).mp e₂ with ⟨es', -⟩ | ⟨-, e₂'⟩
      · exact absurd es' es
      · exact h.unique hlt' h₁ h₂ e₁' e₂'
  · rcases (key hlt' hd').mp e with ⟨rfl, rfl, rfl⟩ | ⟨es, e'⟩
    · show m'.slotPage s' = m'.wentOut (b.tbl d') i'
      rw [hp, hw, update₂_self]
    have hne : ¬ (b.tbl d' = b.tbl d ∧ i' = i) := fun ⟨h₁, h₂⟩ => by
      obtain rfl := hinj d' hd' h₁
      exact hold.ne s' (h₂ ▸ e')
    show m'.slotPage s' = m'.wentOut (b.tbl d') i'
    rw [hp' s' es, hw, update₂_of_ne hne]
    exact h.kept hlt' hd' e'

/-- The entry that named a slot is gone, and the slot is free again. -/
theorem Slots.clear (h : Slots m b) (hd : d ∈ b.live) (hlt : s < nrSwapSlots)
    (hold : b.pte d i = swapEntry s) (hnew : InCore w)
    (hs : m'.swapMap = Function.update m.swapMap s false) (hp : m'.slotPage = m.slotPage)
    (hw : m'.wentOut = m.wentOut) : Slots m' (b.setPte d i w) := by
  have key : ∀ {s' d' i'}, s' < nrSwapSlots → d' ∈ b.live →
      (update₂ b.pte d i w d' i' = swapEntry s' ↔ s' ≠ s ∧ b.pte d' i' = swapEntry s') := by
    intro s' d' i' hlt' hd'
    by_cases e : d' = d ∧ i' = i
    · obtain ⟨rfl, rfl⟩ := e
      rw [update₂_self]
      refine ⟨fun e => absurd e (hnew.ne s'), fun ⟨es, e⟩ => ?_⟩
      exact absurd (swapEntry_inj hlt' hlt (e.symm.trans hold)) es
    · rw [update₂_of_ne e]
      refine ⟨fun e' => ⟨fun es => ?_, e'⟩, fun h => h.2⟩
      subst es
      exact e (h.unique hlt hd hd' hold e')
  refine ⟨fun {s'} hlt' => ?_, fun hlt' h₁ h₂ e₁ e₂ => ?_, fun hlt' hd' e => ?_⟩
  · by_cases es : s' = s
    · subst es
      rw [hs, update_self]
      refine ⟨fun h => absurd h (by simp), ?_⟩
      rintro ⟨d', hd', i', e⟩
      exact absurd rfl ((key hlt' hd').mp e).1
    · rw [hs, update_of_ne es, h.taken hlt']
      exact exists_congr fun d' => and_congr_right fun hd' => exists_congr fun i' =>
        ⟨fun e => (key hlt' hd').mpr ⟨es, e⟩, fun e => ((key hlt' hd').mp e).2⟩
  · exact h.unique hlt' h₁ h₂ ((key hlt' h₁).mp e₁).2 ((key hlt' h₂).mp e₂).2
  · rw [hp, hw]
    exact h.kept hlt' hd' ((key hlt' hd').mp e).2

end Linux001

import Linux001.Mm.State

/-!
# Mm — the books

The abstract side of the memory manager: which place refers to which frame.  A *cell* is a place
that can hold a reference: a live directory (to itself), its table, a page of a kernel owner, a
page-table entry.  `Books` records what every cell refers to, and the entries of the live tables.
`Accounts` says that `mem_map[]` counts the references, and that a directory, a table or a
kernel page is referred to by one cell only.

An entry's cell and the entry itself can differ: when the reclaimer's fallback empties a
copy-on-write entry it keeps the reference, so the cell goes on referring to the frame.  When
such an entry is filled or torn down the reference is lost, and `leak` counts it.
-/

namespace Linux001

open Function
open Ledger

/-- A place that can refer to a frame. -/
inductive Cell where
  | dir (d : Frame)
  | table (d : Frame)
  | kern (f : Frame)
  | pte (d : Frame) (i : Ix)
  deriving DecidableEq

instance : Finite Cell := by
  let g : Cell → (Frame ⊕ Frame) ⊕ (Frame ⊕ (Frame × Ix))
    | .dir d => .inl (.inl d)
    | .table d => .inl (.inr d)
    | .kern f => .inr (.inl f)
    | .pte d i => .inr (.inr (d, i))
  refine Finite.of_injective g fun c c' h => ?_
  cases c <;> cases c' <;> simp_all [g]

/-- The cells whose frame nobody else refers to. -/
def Cell.Structural : Cell → Prop
  | .pte .. => False
  | _ => True

/-- Who refers to what. -/
structure Books where
  live : Finset Frame
  kern : Finset Frame
  tbl : Frame → Frame
  pte : Frame → Ix → Word
  hold : Frame → Ix → Option Frame
  leak : Frame → ℕ

/-- What a run starts from: the counter of dropped mappings, the reserved frames (the kernel's
own tables among them), what is in those tables, and whether every address space has a task
slot. -/
structure Boot where
  nrUnmapped : ℕ
  reserved : Set Frame
  few : Prop
  ktable : ℕ → Page
  plain : ∀ k < kernelPtCount, ∀ i, cow (ktable k i) = false
  kernel : ∀ k < kernelPtCount, kernelTable k ∈ reserved
  kernelDir : kernelPgDir ∈ reserved

namespace Books

/-- The ledger of the books. -/
def cells (b : Books) : Cell → Option Frame
  | .dir d => if d ∈ b.live then some d else none
  | .table d => if d ∈ b.live then some (b.tbl d) else none
  | .kern f => if f ∈ b.kern then some f else none
  | .pte d i => b.hold d i

def setPte (b : Books) (d : Frame) (i : Ix) (w : Word) : Books :=
  { b with pte := update₂ b.pte d i w }

def setHold (b : Books) (d : Frame) (i : Ix) (x : Option Frame) : Books :=
  { b with hold := update₂ b.hold d i x }

/-- What a cell refers to is lost. -/
def lose (b : Books) (d : Frame) (i : Ix) : Books :=
  { b with leak := fun f => b.leak f + one (b.hold d i) f }

def addKern (b : Books) (f : Frame) : Books := { b with kern := insert f b.kern }

def dropKern (b : Books) (f : Frame) : Books := { b with kern := b.kern.erase f }

/-- Two kernel pages become a directory and its table. -/
def addDir (b : Books) (d pt : Frame) : Books :=
  { b with
    live := insert d b.live
    kern := (b.kern.erase d).erase pt
    tbl := update b.tbl d pt
    pte := update b.pte d fun _ => 0#32 }

def dropDir (b : Books) (d : Frame) : Books := { b with live := b.live.erase d }

/-- The address spaces and the kernel's pages are the same ones. -/
structure SameSpaces (b b' : Books) : Prop where
  live : b'.live = b.live
  kern : b'.kern = b.kern
  tbl : b'.tbl = b.tbl

theorem SameSpaces.refl (b : Books) : b.SameSpaces b := ⟨rfl, rfl, rfl⟩

theorem SameSpaces.trans {b b' b'' : Books} (h : b.SameSpaces b') (h' : b'.SameSpaces b'') :
    b.SameSpaces b'' :=
  ⟨h'.live.trans h.live, h'.kern.trans h.kern, h'.tbl.trans h.tbl⟩

variable {b : Books} {d pt f : Frame} {i : Ix} {w : Word} {x : Option Frame} {c : Cell}

theorem cells_setHold : (b.setHold d i x).cells = update b.cells (.pte d i) x := by
  funext c
  cases c with
  | pte d' i' =>
    by_cases e : d' = d ∧ i' = i
    · obtain ⟨rfl, rfl⟩ := e
      simp [cells, setHold]
    · rw [update_of_ne (by simpa using e)]
      exact update₂_of_ne e
  | dir | table | kern => rw [update_of_ne (by simp)]; rfl

theorem cells_addKern : (b.addKern f).cells = update b.cells (.kern f) (some f) := by
  funext c
  cases c with
  | kern g =>
    by_cases e : g = f
    · subst e; simp [cells, addKern]
    · simp [cells, addKern, e]
  | dir | table | pte => rw [update_of_ne (by simp)]; rfl

theorem cells_dropKern : (b.dropKern f).cells = update b.cells (.kern f) none := by
  funext c
  cases c with
  | kern g =>
    by_cases e : g = f
    · subst e; simp [cells, dropKern]
    · simp [cells, dropKern, e]
  | dir | table | pte => rw [update_of_ne (by simp)]; rfl

theorem cells_dropDir :
    (b.dropDir d).cells = update (update b.cells (.table d) none) (.dir d) none := by
  funext c
  cases c with
  | dir d' | table d' =>
    by_cases e : d' = d
    · subst e; simp [cells, dropDir]
    · simp [cells, dropDir, e]
  | kern | pte => rw [update_of_ne (by simp), update_of_ne (by simp)]; rfl

theorem cells_addDir :
    (b.addDir d pt).cells = update (update ((b.dropKern d).dropKern pt).cells
      (.dir d) (some d)) (.table d) (some pt) := by
  funext c
  cases c with
  | dir d' | table d' =>
    by_cases e : d' = d
    · subst e; simp [cells, addDir]
    · simp [cells, addDir, dropKern, e]
  | kern | pte => rw [update_of_ne (by simp), update_of_ne (by simp)]; rfl

theorem cells_dir (h : d ∈ b.live) : b.cells (.dir d) = some d := if_pos h
theorem cells_table (h : d ∈ b.live) : b.cells (.table d) = some (b.tbl d) := if_pos h
theorem cells_kern (h : f ∈ b.kern) : b.cells (.kern f) = some f := if_pos h

end Books

/-! ### Accounts -/

/-- `mem_map[]` agrees with the ledger `h` of the address spaces `live`. -/
structure Accounts (B : Boot) (m : Mm) (h : Cell → Option Frame) (leak : Frame → ℕ)
    (live : Finset Frame) : Prop where
  /-- Only frames of the map that are not reserved are referred to. -/
  held : ∀ {c f}, h c = some f → m.InMap f ∧ f ∉ B.reserved
  /-- A directory, a table and a kernel page have one cell. -/
  sole : Sole Cell.Structural h
  /-- A frame is mapped at one index only, in however many tables. -/
  coherent : ∀ {d d' i i' f}, h (.pte d i) = some f → h (.pte d' i') = some f → i' = i
  dead : ∀ {d i}, d ∉ live → h (.pte d i) = none
  balance : Balanced used h m.memMap leak
  reserved : ∀ {f}, f ∈ B.reserved → used ≤ m.memMap f
  since : B.nrUnmapped ≤ m.nrUnmapped
  noLeak : m.nrUnmapped = B.nrUnmapped → ∀ f, leak f = 0
  few : B.few → live.card < used
  capped : B.few → m.nrUnmapped = B.nrUnmapped → ∀ {f}, used ≤ m.memMap f → f ∈ B.reserved

namespace Accounts
variable {B : Boot} {m m' : Mm} {h : Cell → Option Frame} {leak : Frame → ℕ} {live : Finset Frame}
variable {d d' f : Frame} {i i' : Ix} {c : Cell}

/-- The cells that refer to a mapped frame are entries of different tables. -/
theorem refs_le (a : Sole Cell.Structural h)
    (hco : ∀ {d d' i i' f}, h (.pte d i) = some f → h (.pte d' i') = some f → i' = i)
    (hdead : ∀ {d i}, d ∉ live → h (.pte d i) = none) (hf : h (.pte d i) = some f) :
    refs h f ≤ live.card := by
  let label : Cell → Frame
    | .dir d | .table d | .kern d | .pte d _ => d
  have hpte : ∀ c, h c = some f → ∃ d', c = .pte d' i := by
    intro c hc
    cases c with
    | pte d' i' => exact ⟨d', by rw [hco hf hc]⟩
    | dir | table | kern => exact absurd (a (by trivial) hc hf) (by simp)
  refine refs_le_card label live (fun c hc => ?_) fun c c' hc hc' e => ?_
  · obtain ⟨d', rfl⟩ := hpte c hc
    by_contra hd
    rw [hdead hd] at hc
    cases hc
  · obtain ⟨d₁, rfl⟩ := hpte c hc
    obtain ⟨d₂, rfl⟩ := hpte c' hc'
    simpa [label] using e

variable (a : Accounts B m h leak live)

include a

theorem congr (hr : m'.ram = m.ram) (hm : m'.memMap = m.memMap)
    (hu : m'.nrUnmapped = m.nrUnmapped) : Accounts B m' h leak live where
  held hc := by
    have := a.held hc
    unfold Mm.InMap at this ⊢
    rwa [hr]
  sole := a.sole
  coherent := a.coherent
  dead := a.dead
  balance := by rw [hm]; exact a.balance
  reserved hf := by rw [hm]; exact a.reserved hf
  since := by rw [hu]; exact a.since
  noLeak := by rw [hu]; exact a.noLeak
  few := a.few
  capped := by rw [hu, hm]; exact a.capped

/-- A frame with count 0 is referred to by no cell, and is not reserved. -/
theorem free (hf : m.memMap f = 0) :
    (∀ c, h c ≠ some f) ∧ f ∉ B.reserved := by
  refine ⟨(a.balance.unheld (by decide) hf).1, fun hr => ?_⟩
  have := a.reserved hr
  rw [hf] at this
  exact absurd this (by decide)

/-- A free frame goes to a kernel owner. -/
theorem take (hf : m.memMap f = 0) (hin : m.InMap f)
    (hc : h (.kern f) = none) :
    Accounts B (m.takeFrame f) (update h (.kern f) (some f)) leak live := by
  obtain ⟨hfree, hres⟩ := a.free hf
  refine ⟨fun {c g} hg => ?_, a.sole.fresh hfree, fun hg hg' => ?_, fun hd => ?_,
    a.balance.take (by decide) hf hc, fun {g} hg => ?_, a.since, a.noLeak, a.few,
    fun hfew hu g hg => ?_⟩
  · by_cases e : c = .kern f
    · subst e
      obtain rfl : f = g := by simpa using hg
      exact ⟨hin, hres⟩
    · rw [update_of_ne e] at hg
      exact a.held hg
  · rw [update_of_ne (by simp)] at hg hg'
    exact a.coherent hg hg'
  · rw [update_of_ne (by simp)]
    exact a.dead hd
  · have e : g ≠ f := fun e => hres (e ▸ hg)
    show used ≤ update m.memMap f 1 g
    rw [update_of_ne e]
    exact a.reserved hg
  · change used ≤ update m.memMap f 1 g at hg
    by_cases e : g = f
    · rw [e, update_self] at hg
      exact absurd hg (by decide)
    · rw [update_of_ne e] at hg
      exact a.capped hfew hu hg

/-- A cell gives its reference back. -/
theorem drop (hc : h c = some f) :
    Accounts B (m.freePage (frameAddr f)) (update h c none) leak live := by
  rw [Mm.freePage_frameAddr (a.held hc).1]
  refine ⟨fun hg => a.held (update_none_eq_some hg).1, a.sole.clear,
    fun hg hg' => a.coherent (update_none_eq_some hg).1 (update_none_eq_some hg').1, fun {d i} hd => ?_,
    a.balance.drop hc, fun hg => lower_cap_le (a.reserved hg), a.since, a.noLeak, a.few,
    fun hfew hu g hg => a.capped hfew hu ?_⟩
  · exact update_none_of_none (a.dead hd)
  · exact hg.trans lower_le

/-- A kernel owner's page becomes the frame of another cell; what that cell referred to is
lost. -/
theorem move (hf : h (.kern f) = some f) (e : c ≠ .kern f)
    (hlive : ∀ d i, c = .pte d i → d ∈ live)
    (hold : m.nrUnmapped = B.nrUnmapped → h c = none) :
    Accounts B m (update (update h (.kern f) none) c (some f))
      (fun g => leak g + one (h c) g) live := by
  have hfree := a.sole.unheld (by trivial) hf
  have hpte : ∀ {d i}, update h (.kern f) none (.pte d i) = h (.pte d i) :=
    update_of_ne (by simp) _ _
  refine ⟨fun {c' g} hg => ?_, a.sole.clear.fresh hfree, fun {d d' i i' g} hg hg' => ?_,
    fun {d i} hd => ?_, a.balance.move e.symm hf, a.reserved, a.since, fun hu g => ?_, a.few, a.capped⟩
  · by_cases e' : c' = c
    · subst e'
      obtain rfl : f = g := by simpa using hg
      exact a.held hf
    · rw [update_of_ne e'] at hg
      exact a.held (update_none_eq_some hg).1
  · -- `f` was nobody else's, so a frame two entries map is one they mapped before
    by_cases e₁ : Cell.pte d i = c
    · by_cases e₂ : Cell.pte d' i' = c
      · have := e₁.trans e₂.symm
        simp only [Cell.pte.injEq] at this
        exact this.2.symm
      · rw [e₁, update_self] at hg
        rw [update_of_ne e₂, ← hg] at hg'
        exact absurd hg' (hfree _)
    · rw [update_of_ne e₁] at hg
      by_cases e₂ : Cell.pte d' i' = c
      · rw [e₂, update_self] at hg'
        rw [← hg'] at hg
        exact absurd hg (hfree _)
      · rw [update_of_ne e₂] at hg'
        rw [hpte] at hg hg'
        exact a.coherent hg hg'
  · have e' : Cell.pte d i ≠ c := fun e' => hd (hlive d i e'.symm)
    rw [update_of_ne e', hpte]
    exact a.dead hd
  · rw [hold hu, one_none, a.noLeak hu]

/-- One more entry, at the same index of another table, maps a mapped frame; what its cell
referred to is lost.  With few address spaces the count stays below the cap. -/
theorem share (hf : h (.pte d i) = some f) (hd : d' ∈ live)
    (hold : m.nrUnmapped = B.nrUnmapped → h (.pte d' i) = none) :
    Accounts B { m with memMap := raise used m.memMap f } (update h (.pte d' i) (some f))
      (fun g => leak g + one (h (.pte d' i)) g) live := by
  have hsole : Sole Cell.Structural (update h (.pte d' i) (some f)) :=
    a.sole.share id id hf
  have hco : ∀ {d₁ d₂ i₁ i₂ g}, update h (.pte d' i) (some f) (.pte d₁ i₁) = some g →
      update h (.pte d' i) (some f) (.pte d₂ i₂) = some g → i₂ = i₁ := by
    intro d₁ d₂ i₁ i₂ g h₁ h₂
    by_cases e₁ : Cell.pte d₁ i₁ = .pte d' i
    · obtain ⟨rfl, rfl⟩ : d₁ = d' ∧ i₁ = i := by simpa using e₁
      obtain rfl : f = g := by simpa using h₁
      by_cases e₂ : Cell.pte d₂ i₂ = .pte d₁ i₁
      · exact (by simpa using e₂ : d₂ = d₁ ∧ i₂ = i₁).2
      · rw [update_of_ne e₂] at h₂
        exact a.coherent hf h₂
    · rw [update_of_ne e₁] at h₁
      by_cases e₂ : Cell.pte d₂ i₂ = .pte d' i
      · obtain ⟨rfl, rfl⟩ : d₂ = d' ∧ i₂ = i := by simpa using e₂
        obtain rfl : f = g := by simpa using h₂
        exact a.coherent h₁ hf
      · rw [update_of_ne e₂] at h₂
        exact a.coherent h₁ h₂
  have hdead : ∀ {d₁ i₁}, d₁ ∉ live → update h (.pte d' i) (some f) (.pte d₁ i₁) = none := by
    intro d₁ i₁ hd₁
    have e : Cell.pte d₁ i₁ ≠ .pte d' i := fun e => hd₁ ((by simpa using e : _ ∧ _).1 ▸ hd)
    rw [update_of_ne e]
    exact a.dead hd₁
  have hbal := a.balance.share (c := .pte d' i) (r := f)
  have hleak : m.nrUnmapped = B.nrUnmapped → ∀ g, leak g + one (h (.pte d' i)) g = 0 := fun hu g => by
    rw [hold hu, one_none, a.noLeak hu]
  refine ⟨fun {c g} hg => ?_, hsole, hco, hdead, hbal, fun hg => raise_cap_le (a.reserved hg),
    a.since, hleak, a.few, fun hfew hu g hg => ?_⟩
  · by_cases e : c = .pte d' i
    · subst e
      obtain rfl : f = g := by simpa using hg
      exact a.held hf
    · rw [update_of_ne e] at hg
      exact a.held hg
  by_contra hres
  have hlt : m.memMap g < used := Nat.lt_of_not_le fun hle => hres (a.capped hfew hu hle)
  change used ≤ raise used m.memMap f g at hg
  by_cases e : g = f
  · subst e
    -- the new count is the number of tables that map the frame
    have h₁ := a.balance g hlt
    have h₂ := refs_update h (.pte d' i) (some g) g
    have h₃ := refs_le hsole hco hdead (d := d') (i := i) (f := g) (by simp)
    have h₄ := a.few hfew
    rw [a.noLeak hu] at h₁
    rw [hold hu, one_none, one_some] at h₂
    rw [raise_self hlt] at hg
    omega
  · rw [raise_of_ne e] at hg
    omega

/-- An entry's reference is lost. -/
theorem forget
    (hold : m.nrUnmapped = B.nrUnmapped → h c = none) :
    Accounts B m (update h c none) (fun g => leak g + one (h c) g) live where
  held hg := a.held (update_none_eq_some hg).1
  sole := a.sole.clear
  coherent hg hg' := a.coherent (update_none_eq_some hg).1 (update_none_eq_some hg').1
  dead hd := update_none_of_none (a.dead hd)
  balance := a.balance.forget
  reserved := a.reserved
  since := a.since
  noLeak hu g := by rw [hold hu, one_none, a.noLeak hu]
  few := a.few
  capped := a.capped

/-- A mapping has been dropped without its reference. -/
theorem unmapped (hr : m'.ram = m.ram) (hm : m'.memMap = m.memMap)
    (hu : m'.nrUnmapped = m.nrUnmapped + 1) : Accounts B m' h leak live where
  held hc := by
    have := a.held hc
    unfold Mm.InMap at this ⊢
    rwa [hr]
  sole := a.sole
  coherent := a.coherent
  dead := a.dead
  balance := by rw [hm]; exact a.balance
  reserved hf := by rw [hm]; exact a.reserved hf
  since := by have := a.since; omega
  noLeak h := by have := a.since; omega
  few := a.few
  capped _ h := by have := a.since; omega

/-- One more address space. -/
theorem enlive (hd : B.few → live.card + 1 < used) :
    Accounts B m h leak (insert d live) where
  held := a.held
  sole := a.sole
  coherent := a.coherent
  dead hd' := a.dead fun h' => hd' (Finset.mem_insert_of_mem h')
  balance := a.balance
  reserved := a.reserved
  since := a.since
  noLeak := a.noLeak
  few hf := (Finset.card_insert_le _ _).trans_lt (hd hf)
  capped := a.capped

/-- An address space without references goes. -/
theorem bury (hd : ∀ i, h (.pte d i) = none) :
    Accounts B m h leak (live.erase d) where
  held := a.held
  sole := a.sole
  coherent := a.coherent
  dead {d' i} hd' := by
    by_cases e : d' = d
    · subst e; exact hd i
    · exact a.dead fun h' => hd' (Finset.mem_erase.mpr ⟨e, h'⟩)
  balance := a.balance
  reserved := a.reserved
  since := a.since
  noLeak := a.noLeak
  few hf := Finset.card_erase_le.trans_lt (a.few hf)
  capped := a.capped

end Accounts

end Linux001

import Linux001.Mm.Boot

/-!
# Mm — frame ownership

`mem_map[f]` is at least the number of mappings of `f`, plus one if `f` is a directory, a user
page table or a kernel owner's page.  This holds in every state of every run from a booted
machine, whatever the number of address spaces, and whenever inside an operation the allocator
had to reclaim.  So `get_free_page` hands out frames that nobody uses (`frame_ownership`).

A count that reaches `USED` stays there: the frame is never freed again.  With at most 100
address spaces that changes nothing; with more of them a frame they all share is reserved for
good, and its count says no more.
-/

namespace Linux001
open Ledger Finset

namespace Sys

/-- Entry `i` of the user page table of `d` is present and maps `f`. -/
def maps (s : Sys) (d : Frame) (i : Ix) (f : Frame) : Bool :=
  match s.mm.userPt (some d) with
  | none => false
  | some pt => present (s.mm.mem pt i) && frameOf (s.mm.mem pt i) = f

/-- How many entries of live address spaces map `f`. -/
def mappings (s : Sys) (f : Frame) : ℕ :=
  ((s.live ×ˢ (Finset.univ : Finset Ix)).filter fun e => s.maps e.1 e.2 f).card

/-- `f` is a live directory, the user page table of one, or a kernel owner's page. -/
def InUse (s : Sys) (f : Frame) : Prop :=
  f ∈ s.live ∨ (∃ d ∈ s.live, s.mm.userPt (some d) = some f) ∨ f ∈ s.kern

instance (s : Sys) (f : Frame) : Decidable (s.InUse f) := inferInstanceAs (Decidable (_ ∨ _ ∨ _))

end Sys

variable {B : Boot} {s : Sys} {b : Books} {d f : Frame} {i : Ix}

/-! ### What the code sees and what the books say -/

section
variable (h : Inv B s.tk s.mm b)
include h

theorem Inv.maps_hold (hd : d ∈ b.live) (hm : s.maps d i f = true) :
    b.hold d i = some f := by
  unfold Sys.maps at hm
  simp only [h.userPt_eq hd, h.mem_tbl hd, Bool.and_eq_true, decide_eq_true_eq] at hm
  rw [h.hold_eq hd hm.1, hm.2]

theorem Inv.inUse_cell (hl : b.live = s.live) (hu : s.InUse f) :
    (∃ c, c.Structural ∧ (∀ g, c ≠ .kern g) ∧ b.cells c = some f) ∨ f ∈ s.kern := by
  rcases hu with hd | ⟨d, hd, hp⟩ | hk
  · exact .inl ⟨.dir f, by trivial, by simp, Books.cells_dir (hl ▸ hd)⟩
  · rw [h.userPt_eq (hl ▸ hd)] at hp
    exact .inl ⟨.table d, by trivial, by simp, by rw [Books.cells_table (hl ▸ hd), hp]⟩
  · exact .inr hk

/-- Every mapping has its cell. -/
theorem Inv.mappings_le (hl : b.live = s.live) :
    s.mappings f ≤ refs b.cells f := by
  have hinj : Function.Injective fun e : Frame × Ix => Cell.pte e.1 e.2 := fun e e' he => by
    simpa [Prod.ext_iff] using he
  unfold Sys.mappings refs
  rw [← Set.ncard_coe_finset, ← Set.ncard_image_of_injective _ hinj]
  refine Set.ncard_le_ncard ?_
  rintro _ ⟨⟨d, i⟩, he, rfl⟩
  obtain ⟨hd, hm⟩ := mem_filter.mp (mem_coe.mp he)
  exact h.maps_hold (hl ▸ (mem_product.mp hd).1) hm

/-- A frame in use has one reference and no mapping. -/
theorem Inv.mappings_structural (hl : b.live = s.live) {c : Cell}
    (hc : c.Structural) (hf : b.cells c = some f) : s.mappings f = 0 := by
  unfold Sys.mappings
  rw [card_eq_zero, filter_eq_empty_iff]
  rintro ⟨d, i⟩ he hm
  have hh : b.cells (.pte d i) = some f := h.maps_hold (hl ▸ (mem_product.mp he).1) hm
  rw [← h.accounts.sole hc hf hh] at hc
  exact hc

/-- A frame is mapped at most once in every address space. -/
theorem Inv.mappings_le_card (hl : b.live = s.live) :
    s.mappings f ≤ s.live.card := by
  rcases Nat.eq_zero_or_pos (s.mappings f) with h₀ | hpos
  · rw [h₀]
    exact Nat.zero_le _
  obtain ⟨⟨d, i⟩, he⟩ := card_pos.mp hpos
  obtain ⟨hd, hm⟩ := mem_filter.mp he
  have hh : b.cells (.pte d i) = some f := h.maps_hold (hl ▸ (mem_product.mp hd).1) hm
  rw [← hl]
  exact (h.mappings_le hl).trans
    (Accounts.refs_le h.accounts.sole h.accounts.coherent h.accounts.dead hh)

end

/-! ### Ownership -/

/-- The users of a frame are counted. -/
theorem SysInv.owners_le (h : SysInv B s) (hf : s.mm.memMap f < used ∨ s.live.card ≤ used) :
    s.mappings f + (if s.InUse f then 1 else 0) ≤ s.mm.memMap f := by
  obtain ⟨b, hl, hk, hi⟩ := h
  have hbal := hi.accounts.balance f
  split
  · next hu =>
    have hcell : ∃ c, c.Structural ∧ b.cells c = some f := by
      rcases hi.inUse_cell hl hu with ⟨c, hc, -, hcf⟩ | hf
      · exact ⟨c, hc, hcf⟩
      · exact ⟨.kern f, by trivial, Books.cells_kern (hk ▸ hf)⟩
    obtain ⟨c, hc, hcf⟩ := hcell
    have hpos := refs_pos hcf
    rw [hi.mappings_structural hl hc hcf]
    unfold used at hbal
    omega
  · have h₁ := hi.mappings_le (f := f) hl
    have h₂ := hi.mappings_le_card (f := f) hl
    omega

/-- What the allocator hands out, nobody uses. -/
theorem SysInv.getFreePage_unused (h : SysInv B s) {m : Mm}
    (hg : getFreePage s.tk s.mm = (some f, m)) :
    { s with mm := m }.mappings f = 0 ∧ ¬ { s with mm := m }.InUse f := by
  obtain ⟨b, hl, hk, hi⟩ := h
  obtain ⟨m₁, b₁, -, hd₁, e | ⟨g, e, -, h₁, hfree⟩⟩ := hi.getFreePage
  · rw [e] at hg
    cases hg
  rw [e] at hg
  obtain ⟨rfl, rfl⟩ : g = f ∧ m₁.takeFrame g = m := by simpa using hg
  have hl₁ : (b₁.addKern g).live = s.live := hd₁.spaces.live.trans hl
  have hcell : (b₁.addKern g).cells (.kern g) = some g :=
    Books.cells_kern (mem_insert_self _ _)
  refine ⟨Inv.mappings_structural h₁ hl₁ (by trivial) hcell, fun hu => ?_⟩
  rcases Inv.inUse_cell (s := { s with mm := m₁.takeFrame g }) h₁ hl₁ hu with ⟨c, -, hne, hcf⟩ | hf
  · rw [Books.cells_addKern, Function.update_of_ne (hne g)] at hcf
    exact hfree c hcf
  · exact hfree (.kern g) (Books.cells_kern (hd₁.spaces.kern ▸ hk ▸ hf))

/-- **Frame ownership.**  In every state a run reaches from a booted machine, the count of a frame
covers its mappings in live address spaces and its use as a directory, a table or a kernel
owner's page; and the frame `get_free_page` returns is mapped and used by nobody. -/
theorem frame_ownership {s₀ : Sys} (h₀ : Booted s₀) (ops : List Op) :
    (∀ f, (run s₀ ops).mm.memMap f < used ∨ (run s₀ ops).live.card ≤ used →
      (run s₀ ops).mappings f + (if (run s₀ ops).InUse f then 1 else 0) ≤ (run s₀ ops).mm.memMap f) ∧
    ∀ f m, getFreePage (run s₀ ops).tk (run s₀ ops).mm = (some f, m) →
      { run s₀ ops with mm := m }.mappings f = 0 ∧ ¬ { run s₀ ops with mm := m }.InUse f := by
  have h := (h₀.inv False).run ops False.elim
  exact ⟨fun f hf => h.owners_le hf, fun f m hg => h.getFreePage_unused hg⟩

/-- A process stores to its heap, forks and exits, and a page is reclaimed. -/
def forkAndReclaim : List Op :=
  [.spawn 1 {}, .access noFiles 1 true (.store userHeapStart 0x41#8), .fork 1 2, .reclaim, .exit 1]

theorem forkAndReclaim_ownership :
    (∀ f, (run machine forkAndReclaim).mm.memMap f < used ∨ (run machine forkAndReclaim).live.card ≤ used →
      (run machine forkAndReclaim).mappings f + (if (run machine forkAndReclaim).InUse f then 1 else 0) ≤
          (run machine forkAndReclaim).mm.memMap f) ∧
    ∀ f m, getFreePage (run machine forkAndReclaim).tk (run machine forkAndReclaim).mm = (some f, m) →
      { run machine forkAndReclaim with mm := m }.mappings f = 0 ∧
        ¬ { run machine forkAndReclaim with mm := m }.InUse f :=
  frame_ownership machine_booted forkAndReclaim

end Linux001

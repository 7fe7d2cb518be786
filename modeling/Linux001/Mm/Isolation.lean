import Linux001.Mm.Eager

/-!
# Mm — what a user directory maps

A user directory has the four identity tables, out of the user's reach, and one table of its own;
whatever that table maps is a page of user data at a legal address (`user_isolation`).  Beside
the operations of `Mm/System.lean` a run may take page faults by themselves: `do_no_page()` at
any address, with any error code the processor can push there.
-/

namespace Linux001

variable {B : Boot} {s : Sys} {d pt : Frame} {n : Slot} {t : Task} {fs : FsView} {err addr : Word} {b : Books}

namespace Sys

/-- `do_no_page(err, eip, addr)`, called by the task in slot `n`. -/
def fault (s : Sys) (fs : FsView) (n : Slot) (err addr : Word) : Sys :=
  match s.tk n with
  | none => s
  | some t =>
    match doNoPage fs s.tk t s.mm err addr with
    | (true, m) => { s with mm := m }
    | (false, m) => { s with mm := m }.exit n

/-- The entry that translates `addr` for the task in slot `n` is present. -/
def translates (s : Sys) (n : Slot) (addr : Word) : Bool :=
  match s.tk n with
  | none => false
  | some t =>
    match s.mm.userPt t.pgDir with
    | none => false
    | some pt => pdeIx addr = userPdeIndex && present (s.mm.mem pt (pteIx addr))

end Sys

/-- An operation, or a page fault. -/
inductive Event where
  | op (o : Op)
  | fault (fs : FsView) (n : Slot) (err addr : Word)

/-- **One event.**  The processor pushes an error code with P clear only where it has met no
present entry; otherwise the code is arbitrary. -/
def Event.step (s : Sys) : Event → Sys
  | .op o => Linux001.step s o
  | .fault fs n err addr =>
    if present err = false ∧ s.translates n addr then s else s.fault fs n err addr

def Event.run (s : Sys) (es : List Event) : Sys := es.foldl Event.step s

/-! ### Events keep the invariant -/

theorem SysInv.fault (h : SysInv B s) (hp : present err = false → s.translates n addr = false) :
    SysInv B (s.fault fs n err addr) := by
  unfold Sys.fault
  cases ht : s.tk n with
  | none => exact h
  | some t =>
    obtain ⟨b, hl, hk, hi⟩ := h
    have hkept : Kept B s.tk b (doNoPage fs s.tk t s.mm err addr).2 := by
      cases hd : t.pgDir with
      | none => exact ⟨b, by simpa [doNoPage, hd] using hi, .refl b⟩
      | some d =>
        have hd' := hi.tasks ht hd
        refine (hi.doNoPage fs hd hd' fun he hx => ?_).1.1
        have := hp he
        simpa [Sys.translates, ht, hd, hi.userPt_eq hd', hx, hi.mem_tbl hd'] using this
    have hs₁ := SysInv.kept hl hk hkept
    simp only
    split
    · next m hr =>
      rw [hr] at hs₁
      exact hs₁
    · next m hr =>
      rw [hr] at hs₁
      exact hs₁.exit n

theorem SysInv.event (h : SysInv B s) (hfew : ¬ B.few) (e : Event) : SysInv B (e.step s) := by
  cases e with
  | op o => exact h.step o fun hf => absurd hf hfew
  | fault fs n err addr =>
    simp only [Event.step]
    split
    · exact h
    next hn =>
    refine h.fault fun he => ?_
    simpa [he] using hn

theorem SysInv.events (h : SysInv B s) (hfew : ¬ B.few) (es : List Event) :
    SysInv B (Event.run s es) := by
  induction es generalizing s with
  | nil => exact h
  | cons e es ih => exact ih (h.event hfew e)

/-! ### What the invariant says of a directory -/

/-- A frame that a user may be given: a page of memory that was not reserved at boot, and that is
no directory, no table and no page of the kernel's. -/
structure UserFrame (s₀ s : Sys) (f : Frame) : Prop where
  aligned : pageSize ∣ (frameAddr f).toNat
  low : lowMem ≤ (frameAddr f).toNat
  high : (frameAddr f).toNat + pageSize ≤ s.mm.ram.memoryEnd
  reserved : s₀.mm.memMap f < used
  dir : f ∉ s.live
  table : ∀ d ∈ s.live, s.mm.userPt (some d) ≠ some f
  kernelDir : f ≠ kernelPgDir
  kernelTable : ∀ k < kernelPtCount, f ≠ kernelTable k
  kern : f ∉ s.kern

/-- The directory has the identity tables, without the user bit, and the user's table. -/
structure UserDir (s : Sys) (d : Frame) : Prop where
  entries : ∀ k : Ix, present (s.mm.mem d k) = true ↔ k.val < kernelPtCount ∨ k = userPdeIndex
  kernel : ∀ k : Ix, k.val < kernelPtCount →
    frameOf (s.mm.mem d k) = kernelTable k.val ∧ userBit (s.mm.mem d k) = false

theorem kernelEntry_spec : ∀ k < kernelPtCount, present (kernelEntry k) = true ∧
    userBit (kernelEntry k) = false ∧ frameOf (kernelEntry k) = kernelTable k := by
  decide

theorem Inv.userDir (h : Inv B s.tk s.mm b) (hd : d ∈ b.live) : UserDir s d := by
  have hdir := h.shape.dir hd
  have hk : ∀ {k : Ix}, k ≠ userPdeIndex → s.mm.mem d k = kernelPde k := fun e => by
    rw [hdir, Function.update_of_ne e]
  refine ⟨fun k => ?_, fun k hlt => ?_⟩
  · by_cases e : k = userPdeIndex
    · subst e
      rw [hdir, Function.update_self]
      simp
    · rw [hk e, kernelPde]
      split
      · next hlt => simp [(kernelEntry_spec k.val hlt).1, hlt]
      · next hlt => simp [hlt, e]
  · have e : k ≠ userPdeIndex := fun e => by
      rw [e] at hlt
      exact absurd hlt (by decide)
    rw [hk e, kernelPde, if_pos hlt]
    exact ⟨(kernelEntry_spec k.val hlt).2.2, (kernelEntry_spec k.val hlt).2.1⟩

theorem Mm.InMap.bounds {m : Mm} {f : Frame} (h : m.InMap f) :
    lowMem ≤ (frameAddr f).toNat ∧ (frameAddr f).toNat + pageSize ≤ m.ram.memoryEnd := by
  have ha := toNat_frameAddr f
  have he := m.ram.maxMapNr_eq
  have hd := m.ram.aligned
  have hl := m.ram.lower
  unfold Mm.InMap at h
  unfold lowMem pageSize at *
  omega

theorem Inv.userFrame {s₀ : Sys} {i : Ix} (h₀ : Booted s₀)
    (h : Inv (h₀.start False) s.tk s.mm b) (hl : b.live = s.live) (hk : b.kern = s.kern)
    (hd : d ∈ b.live) (hp : present (b.pte d i) = true) :
    UserFrame s₀ s (frameOf (b.pte d i)) := by
  have hold := h.hold_eq hd hp
  have hdata := h.data_hold hold
  obtain ⟨hin, hres⟩ := h.accounts.held (c := .pte d i) hold
  obtain ⟨hlow, hhigh⟩ := hin.bounds
  exact {
    aligned := by
      rw [toNat_frameAddr]
      exact Dvd.intro_left _ rfl
    low := hlow
    high := hhigh
    reserved := Nat.lt_of_not_le hres
    dir := hl ▸ hdata.dir
    table := fun d' hd' e => by
      rw [← hl] at hd'
      exact hdata.table d' hd' (h.tbl_eq hd' e)
    kernelDir := fun e => hres (e ▸ (h₀.start False).kernelDir)
    kernelTable := fun k hk e => hdata.kernel k hk e.symm
    kern := fun hf => by
      have hc := Books.cells_kern (hk ▸ hf)
      cases h.accounts.sole (by trivial) hc (show b.cells (.pte d i) = _ from hold) }

/-- **User memory is isolated.**  In every state that operations and page faults lead to, a live
user directory has the identity tables, out of the user's reach, and a table of its own; what is
present in that lies at a legal address and maps a frame that may be the user's. -/
theorem user_isolation {s₀ : Sys} (h₀ : Booted s₀) (es : List Event)
    (hd : d ∈ (Event.run s₀ es).live) :
    UserDir (Event.run s₀ es) d ∧ ∃ pt, (Event.run s₀ es).mm.userPt (some d) = some pt ∧
      ∀ a, pdeIx a = userPdeIndex → present ((Event.run s₀ es).mm.mem pt (pteIx a)) = true →
        userAddrOk a 1#32 = true ∧
          UserFrame s₀ (Event.run s₀ es) (frameOf ((Event.run s₀ es).mm.mem pt (pteIx a))) := by
  obtain ⟨b, hl, hk, h⟩ := (h₀.inv False).events id es
  rw [← hl] at hd
  refine ⟨h.userDir hd, b.tbl d, h.userPt_eq hd, fun a hx hp => ?_⟩
  rw [h.mem_tbl hd] at hp ⊢
  exact ⟨(h.userPage hd hp).addr hx, h.userFrame h₀ hl hk hd hp⟩

/-- A process that has stored to its heap. -/
def storeOnce : List Op := [.spawn 1 {}, .access noFiles 1 true (.store userHeapStart 0x41#8)]

theorem storeOnce_present : ∃ d ∈ (Event.run machine (storeOnce.map .op)).live, ∃ pt,
    (Event.run machine (storeOnce.map .op)).mm.userPt (some d) = some pt ∧
    present ((Event.run machine (storeOnce.map .op)).mm.mem pt (pteIx userHeapStart)) = true := by
  have hops : ∀ op ∈ storeOnce, op.Ring3 := by simp [storeOnce, Op.Ring3]
  obtain ⟨b, h, -, hv⟩ := machine_run hops (by decide)
  obtain ⟨t, d, ht, -, hd, hpages⟩ := Sys.view_own (n := 1) (by rw [hv]; rfl)
  have hl := h.inv.tasks ht hd
  have hpg : ((run machine storeOnce).mm.pages d (pteIx userHeapStart)).isSome = true := by
    rw [hpages]
    rfl
  rw [h.inv.pages_eq hl, Mm.page_isSome] at hpg
  exact ⟨d, h.live ▸ hl, _, h.inv.userPt_eq hl, hpg⟩

theorem storeOnce_isolated : ∃ d ∈ (Event.run machine (storeOnce.map .op)).live, ∃ pt,
    (Event.run machine (storeOnce.map .op)).mm.userPt (some d) = some pt ∧
    present ((Event.run machine (storeOnce.map .op)).mm.mem pt (pteIx userHeapStart)) = true ∧
    UserFrame machine (Event.run machine (storeOnce.map .op))
      (frameOf ((Event.run machine (storeOnce.map .op)).mm.mem pt (pteIx userHeapStart))) := by
  obtain ⟨d, hl, pt, hpt, hpg⟩ := storeOnce_present
  obtain ⟨-, pt', hpt', hall⟩ := user_isolation machine_booted (storeOnce.map .op) hl
  obtain rfl := Option.some.inj (hpt.symm.trans hpt')
  exact ⟨d, hl, pt, hpt, hpg, (hall userHeapStart (by decide) hpg).2⟩

/-- **A frame is at one address**: all who share it have it at one page, nobody twice. -/
theorem frame_at_one_page {s₀ : Sys} (h₀ : Booted s₀) (es : List Event) (f : Frame) :
    {i | ∃ d ∈ (Event.run s₀ es).live, (Event.run s₀ es).maps d i f}.Subsingleton := by
  rintro i ⟨d, hd, hm⟩ i' ⟨d', hd', hm'⟩
  obtain ⟨b, hl, -, h⟩ := (h₀.inv False).events id es
  exact h.accounts.coherent (h.maps_hold (hl ▸ hd') hm') (h.maps_hold (hl ▸ hd) hm)

theorem storeOnce_at_one_page : ∃ f, {i | ∃ d ∈ (Event.run machine (storeOnce.map .op)).live,
    (Event.run machine (storeOnce.map .op)).maps d i f} = {pteIx userHeapStart} := by
  obtain ⟨d, hl, pt, hpt, hpg⟩ := storeOnce_present
  refine ⟨frameOf ((Event.run machine (storeOnce.map .op)).mm.mem pt (pteIx userHeapStart)),
    (frame_at_one_page machine_booted _ _).eq_singleton_of_mem ⟨d, hl, ?_⟩⟩
  simp [Sys.maps, hpt, hpg]

end Linux001

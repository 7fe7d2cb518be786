import Linux001.Mm.Lost

/-!
# Mm — the pool after everybody has gone

In a run in which `try_to_free_page()` is never left with nothing to take but a copy-on-write
mapping, every dropped entry drops its reference: once all address spaces are gone, the pool of
free frames is the one the run began with and every swap slot is free (`no_frame_leak`).

The copy-on-write fallback empties an entry and keeps its reference, so the frame never comes
back (`fallback_leaks`).
-/

namespace Linux001

open Function Sys

variable {B : Boot} {s : Sys} {n n' : Slot} {d f : Frame} {t : Task}
  {b b' : Books} {pt : Frame} {ops : List Op}

/-! ### The counters over a run -/

theorem Sys.exit_acts (s : Sys) (n : Slot) : Acts s.mm (s.exit n).mm := by
  unfold exit
  split
  · exact .refl _
  split
  · exact .refl _
  split
  · exact .refl _
  · exact .of_plain (freeUserSpace_counts _ _)

theorem Sys.access_acts (s : Sys) (fs : FsView) (n : Slot) (user : Bool) (a : Access) :
    Acts s.mm (s.access fs n user a).2.mm := by
  unfold access
  split
  · exact .refl _
  next t _ =>
  have h := cpuAccess_acts fs s.tk t (wpOf s.cr0) user a 2 s.mm
  split
  · next m hr =>
    rw [hr] at h
    exact h.trans (exit_acts { s with mm := m } n)
  · next hr =>
    rw [hr] at h
    exact h

theorem Sys.fork_acts (s : Sys) (n' : Slot) (t : Task) (d : Frame) :
    Acts s.mm (s.fork n' t d).mm := by
  have h₁ := allocUserPgdir_acts (update s.tk n' (some (t.withDir none))) s.mm
  unfold fork
  generalize allocUserPgdir (update s.tk n' (some (t.withDir none))) s.mm = r at h₁
  obtain ⟨_ | d', m₁⟩ := r
  · exact h₁
  have h₂ := copyPageTables_acts (update s.tk n' (some (t.withDir (some d')))) m₁ d d'
  simp only
  generalize copyPageTables (update s.tk n' (some (t.withDir (some d')))) m₁ d d' = x
    at h₂
  obtain ⟨_ | c, m₂⟩ := x
  · exact (h₁.trans h₂).then_plain (freeUserSpace_counts m₂ d')
  · exact h₁.trans h₂

/-- Whatever an operation does is a sequence of acts. -/
theorem step_acts (s : Sys) (op : Op) : Acts s.mm (step s op).mm := by
  cases op with
  | create =>
    have h := allocUserPgdir_acts s.tk s.mm
    simp only [step]
    split <;> next hr => rw [hr] at h; exact h
  | setTask =>
    simp only [step]
    split <;> exact .refl _
  | copy d d' =>
    have h := copyPageTables_acts s.tk s.mm d d'
    simp only [step]
    split
    · split
      · next hr => rw [hr] at h; exact h
      · next hr => rw [hr] at h; exact h.then_plain (freeUserSpace_counts _ _)
    · exact .refl _
  | free d =>
    simp only [step]
    split
    · exact .of_plain (freeUserSpace_counts _ _)
    · exact .refl _
  | access fs n user a =>
    simp only [step]
    split
    · exact s.access_acts fs n user a
    · exact .refl _
  | spawn n t =>
    have h := allocUserPgdir_acts s.tk s.mm
    simp only [step]
    split
    · split <;> next hr => rw [hr] at h; exact h
    · exact .refl _
  | fork n n' =>
    simp only [step]
    split
    · split
      · exact .refl _
      · exact s.fork_acts _ _ _
    · exact .refl _
  | exit n => exact s.exit_acts n
  | kget =>
    have h := getFreePage_acts s.tk s.mm
    simp only [step]
    split <;> next hr => rw [hr] at h; exact h
  | kfree f =>
    simp only [step]
    split
    · exact .of_plain (s.mm.freePage_counts _)
    · exact .refl _
  | kwrite f p =>
    simp only [step]
    split
    · exact .of_plain ⟨rfl, rfl, rfl, rfl, rfl⟩
    · exact .refl _
  | reclaim => exact .single (.reclaim s.tk s.mm)

theorem run_acts (s : Sys) (ops : List Op) : Acts s.mm (run s ops).mm := by
  induction ops generalizing s with
  | nil => exact .refl _
  | cons op ops ih => exact (step_acts s op).trans (ih (step s op))

/-! ### When everybody has gone -/

/-- Without address spaces only kernel owners refer to frames. -/
theorem Books.cells_of_dead (hl : b.live = ∅)
    (hdead : ∀ {d i}, d ∉ b.live → b.cells (.pte d i) = none) {c : Cell} (hc : b.cells c = some f) :
    f ∈ b.kern := by
  have hd : ∀ d, d ∉ b.live := fun d => by rw [hl]; exact Finset.notMem_empty d
  cases c with
  | dir d => exact absurd hc (by simp [cells, hd d])
  | table d => exact absurd hc (by simp [cells, hd d])
  | pte d i =>
    rw [hdead (hd d)] at hc
    cases hc
  | kern g =>
    by_cases hg : g ∈ b.kern
    · rw [cells_kern hg] at hc
      obtain rfl : g = f := by simpa using hc
      exact hg
    · exact absurd hc (by simp [cells, hg])

/-- **No frame leak.**  A run begins with a booted machine and a disk that does not fail, keeps
to at most 99 address spaces, and never calls `try_to_free_page` with nothing to take but a
copy-on-write mapping.  If in the end all address spaces are gone and the kernel owners have the
pages they began with, the frames that are free are as many as at the start, and every swap slot
is free. -/
theorem no_frame_leak {s₀ : Sys} (h₀ : Booted s₀) (ops : List Op)
    (hio : ∀ k, s₀.mm.hdFault k = none) (hfew : Few s₀ ops)
    (hst : (run s₀ ops).mm.nrStarved = s₀.mm.nrStarved)
    (hlive : (run s₀ ops).live = ∅) (hkern : (run s₀ ops).kern = s₀.kern) :
    (run s₀ ops).mm.countFreePages = s₀.mm.countFreePages ∧ ∀ i < nrSwapSlots, (run s₀ ops).mm.swapMap i = false := by
  have hk := (run_acts s₀ ops).keeps
  have hu : (run s₀ ops).mm.nrUnmapped = s₀.mm.nrUnmapped := by
    have := hk.starved hio
    omega
  obtain ⟨b, hl, hkb, h⟩ := (h₀.inv True).run ops fun _ => hfew
  rw [hlive] at hl
  rw [hkern] at hkb
  have hcell : ∀ {c f}, b.cells c = some f → f ∈ s₀.kern := fun hc =>
    hkb ▸ Books.cells_of_dead hl h.accounts.dead hc
  have hfree : ∀ f, (run s₀ ops).mm.memMap f = 0 ↔ s₀.mm.memMap f = 0 := by
    intro f
    constructor
    · intro hf
      obtain ⟨hno, hres⟩ := h.accounts.free hf
      have hfk : f ∉ s₀.kern := fun hfk => hno _ (Books.cells_kern (hkb.symm ▸ hfk))
      exact (h₀.rest hfk).resolve_right hres
    intro hf
    have hlt : (run s₀ ops).mm.memMap f < used := by
      by_contra hge
      have hres : used ≤ s₀.mm.memMap f := h.accounts.capped trivial hu (Nat.le_of_not_lt hge)
      rw [hf] at hres
      exact absurd hres (by decide)
    rw [h.accounts.balance f hlt, h.accounts.noLeak hu f, Ledger.refs_eq_zero_iff.mpr fun c hc => ?_]
    have := (h₀.kern (hcell hc)).2
    rw [hf] at this
    cases this
  refine ⟨le_antisymm (Mm.countFreePages_mono hk.ram.symm fun f => (hfree f).mp)
    (Mm.countFreePages_mono hk.ram fun f => (hfree f).mpr), fun i hi => ?_⟩
  rw [← Bool.not_eq_true, h.slots.taken hi]
  rintro ⟨d, hd, -⟩
  rw [hl] at hd
  exact absurd hd (Finset.notMem_empty d)

/-! ### The fallback leaks -/

/-- A frame whose last mapping the fallback has dropped stays in use when its process exits. -/
theorem Calm.leaks {i : Ix} (h : Calm B s b)
    (h' : Calm B (step s .reclaim) b') (hio : ∀ k, s.mm.hdFault k = none)
    (ht : s.tk n = some t) (hd : t.pgDir = some d) (hn : n ≠ 0)
    (hpt : s.mm.userPt (some d) = some pt) (hp : present (s.mm.mem pt i) = true)
    (hst : Starved s.tk s.mm) (hpg : (step s .reclaim).mm.pages d = fun _ => none) :
    s.mm.InMap (frameOf (s.mm.mem pt i)) ∧ frameOf (s.mm.mem pt i) ∉ B.reserved ∧ frameOf (s.mm.mem pt i) ∉ s.kern ∧
      ((step s .reclaim).exit n).mm.memMap (frameOf (s.mm.mem pt i)) ≠ 0 := by
  have hl := h.inv.tasks ht hd
  obtain rfl := h.inv.tbl_eq hl hpt
  rw [h.inv.mem_tbl hl] at hp ⊢
  have hold := h.inv.hold_eq hl hp
  have hdata := h.inv.data_hold hold
  obtain ⟨hin, hres⟩ := h.inv.accounts.held (c := .pte d i) hold
  refine ⟨hin, hres, fun hk => ?_, fun hz => ?_⟩
  · have hk' := Books.cells_kern (h.kern.symm ▸ hk)
    cases h.inv.accounts.sole (c := .kern (frameOf (b.pte d i))) (by trivial) hk' (show b.cells (.pte d i) = _ from hold)
  have hl' : d ∈ b'.live := by
    rw [h'.live]
    show d ∈ s.live
    rw [← h.live]
    exact hl
  have hm : (step s .reclaim).mm.memMap = s.mm.memMap :=
    (tryToFreePage_starved hio hst).2.1
  have hno : ∀ j, present ((step s .reclaim).mm.mem (b'.tbl d) j) = false := by
    intro j
    have := congrFun hpg j
    rw [h'.inv.pages_eq hl'] at this
    rw [← Mm.page_isSome, this]
    rfl
  have htbl : b'.tbl d = b.tbl d := h'.inv.tbl_eq hl'
    ((SysInv.reclaim_userPt ⟨b, h.live, h.kern, h.inv⟩ ht hd).trans (h.inv.userPt_eq hl))
  have hexit : ((step s .reclaim).exit n).mm = freeUserSpace (step s .reclaim).mm d := by
    have ht' : (step s .reclaim).tk n = some t := ht
    unfold Sys.exit
    simp only [ht', if_neg hn, hd]
    rfl
  rw [hexit, freeUserSpace_memMap (h'.inv.userPt_eq hl') hno
    (htbl ▸ (hdata.table d hl).symm) fun e => hdata.dir (by rw [e]; exact hl), hm] at hz
  exact (h.inv.accounts.free hz).1 (.pte d i) hold

/-- What a run that ends so leaves behind. -/
theorem leak_of_fallback {s₀ : Sys} (h₀ : Booted s₀) {i : Ix}
    (h : Calm (h₀.start False) (run s₀ ops) b)
    (h' : Calm (h₀.start False) (step (run s₀ ops) .reclaim) b')
    (hio : ∀ k, (run s₀ ops).mm.hdFault k = none) (hram : (run s₀ ops).mm.ram = s₀.mm.ram)
    (hkern : (run s₀ ops).kern = s₀.kern) (hlive : (run s₀ ops).live = {d})
    (ht : (run s₀ ops).tk n = some t) (hd : t.pgDir = some d) (hn : n ≠ 0)
    (hpt : (run s₀ ops).mm.userPt (some d) = some pt)
    (hp : present ((run s₀ ops).mm.mem pt i) = true)
    (hst : Starved (run s₀ ops).tk (run s₀ ops).mm)
    (hpg : (step (run s₀ ops) .reclaim).mm.pages d = fun _ => none) :
    (run s₀ (ops ++ [.reclaim, .exit n])).live = ∅ ∧ (run s₀ (ops ++ [.reclaim, .exit n])).kern = s₀.kern ∧
      (run s₀ (ops ++ [.reclaim, .exit n])).mm.countFreePages < s₀.mm.countFreePages := by
  obtain ⟨hin, hres, hk, hne⟩ := h.leaks h' hio ht hd hn hpt hp hst hpg
  have hrun : run s₀ (ops ++ [.reclaim, .exit n]) = (step (run s₀ ops) .reclaim).exit n :=
    List.foldl_append ..
  have hram' : (run s₀ (ops ++ [.reclaim, .exit n])).mm.ram = s₀.mm.ram :=
    (run_acts s₀ (ops ++ [.reclaim, .exit n])).keeps.ram
  have hend : SysInv (h₀.start False) (run s₀ (ops ++ [.reclaim, .exit n])) :=
    (h₀.inv False).run _ False.elim
  rw [hrun] at hram' hend ⊢
  generalize run s₀ ops = s at *
  have hexit : (step s .reclaim).exit n =
      { step s .reclaim with
        tk := update s.tk n (some t.releaseExe) }.free d := by
    have ht' : (step s .reclaim).tk n = some t := ht
    unfold exit
    simp only [ht', if_neg hn, hd]
    rfl
  have hlive' : ((step s .reclaim).exit n).live = s.live.erase d := by rw [hexit]; rfl
  have hkern' : ((step s .reclaim).exit n).kern = s.kern := by rw [hexit]; rfl
  refine ⟨by rw [hlive', hlive, Finset.erase_singleton], hkern'.trans hkern, ?_⟩
  obtain ⟨be, hle, hke, hie⟩ := hend
  -- what is free in the end was free at the start
  have hsub : ∀ g, ((step s .reclaim).exit n).mm.memMap g = 0 → s₀.mm.memMap g = 0 := by
    intro g hg
    obtain ⟨hno, hrg⟩ := hie.accounts.free hg
    have hgk : g ∉ s₀.kern := fun hgk => hno (.kern g) (Books.cells_kern (by
      rw [hke, hkern', hkern]
      exact hgk))
    exact (h₀.rest hgk).resolve_right hrg
  have hfree : s₀.mm.memMap (frameOf (s.mm.mem pt i)) = 0 :=
    (h₀.rest (hkern ▸ hk)).resolve_right hres
  refine Mm.countFreePages_lt hram' hsub ?_ hfree hne
  unfold Mm.InMap at hin ⊢
  rw [← hram]
  exact hin

/-- Kernel owners alone take and give back kernel pages. -/
def Op.Kernel : Op → Bool
  | .kget | .kfree _ => true
  | _ => false

theorem Sys.exit_kern (s : Sys) (n : Slot) : (s.exit n).kern = s.kern := by
  unfold exit
  split
  · rfl
  split
  · rfl
  · split <;> rfl

theorem step_kern {op : Op} (hop : op.Kernel = false) : (step s op).kern = s.kern := by
  cases op with
  | create => simp only [step]; split <;> rfl
  | setTask => simp only [step]; split <;> rfl
  | copy d d' =>
    simp only [step]
    split
    · split <;> rfl
    · rfl
  | free d => simp only [step]; split <;> rfl
  | access fs n user a =>
    simp only [step, access]
    split
    · split
      · rfl
      split
      · exact exit_kern _ n
      · rfl
    · rfl
  | spawn n t =>
    simp only [step]
    split
    · split <;> rfl
    · rfl
  | fork n n' =>
    simp only [step]
    split
    · split
      · rfl
      unfold fork
      split
      · rfl
      · simp only
        split <;> rfl
    · rfl
  | exit n => exact exit_kern s n
  | kget => cases hop
  | kfree f => cases hop
  | kwrite f p => simp only [step]; split <;> rfl
  | reclaim => rfl

theorem run_kern (hops : ∀ op ∈ ops, op.Kernel = false) : (run s ops).kern = s.kern := by
  induction ops generalizing s with
  | nil => rfl
  | cons op ops ih =>
    obtain ⟨hop, hops⟩ := List.forall_mem_cons.mp hops
    exact (ih hops).trans (step_kern hop)

/-- **A leak.**  A process stores and forks, the child exits, the reclaimer finds nothing but the
copy-on-write page, and the process exits: nobody is left, and a frame is missing. -/
theorem fallback_leaks : (run machine (storeForkExit ++ [.reclaim, .exit 1])).live = ∅ ∧
    (run machine (storeForkExit ++ [.reclaim, .exit 1])).kern = machine.kern ∧
    (run machine (storeForkExit ++ [.reclaim, .exit 1])).mm.countFreePages < machine.mm.countFreePages := by
  obtain ⟨b, t, d, h, ht, hd, hl, -, hk, -⟩ := storeForkExit_state
  obtain ⟨-, b', t', d', pt, ht', hd', -, -, -, -, hpt, hp, -, hst, h', -, -, hpg⟩ := storeForkExit_reclaim
  obtain rfl : t = t' := by simpa [ht] using ht'
  obtain rfl : d = d' := by simpa [hd] using hd'
  exact leak_of_fallback machine_booted h h' (fun k => by rw [hk.counts.hdFault]; rfl) hk.counts.ram
    (run_kern (by decide)) hl ht hd (by decide) hpt hp hst hpg

/-- A process stores and forks, and both exit: the pool is what it was. -/
theorem storeForkExit_pool :
    (run machine (storeForkExit ++ [.exit 1])).mm.countFreePages = machine.mm.countFreePages ∧
      ∀ i < nrSwapSlots, (run machine (storeForkExit ++ [.exit 1])).mm.swapMap i = false := by
  have hops : ∀ op ∈ storeForkExit ++ [.exit 1], op.Ring3 := by simp [storeForkExit, Op.Ring3]
  have howned : ∀ op ∈ storeForkExit ++ [.exit 1], op.Owned := by simp [storeForkExit, Op.Owned]
  have ho : machine.Owned := fun d hd => absurd hd (Finset.notMem_empty d)
  obtain ⟨b, h, hk, hv⟩ := machine_run hops (by decide)
  refine no_frame_leak machine_booted (storeForkExit ++ [.exit 1]) (fun _ => rfl) (ho.few howned)
    hk.counts.nrStarved (Finset.eq_empty_of_forall_notMem fun d hd => ?_) (run_kern (by decide))
  -- a live directory is the directory of a task, and no task has one
  obtain ⟨n, t, ht, hp⟩ := (ho.run howned) d hd
  have hno : ∀ n : Slot, (((storeForkExit ++ [Op.exit 1]).foldl Eager.step machine.view) n).any
      (·.vm.isSome) = false := by decide
  have := hno n
  rw [← hv, show (run machine (storeForkExit ++ [.exit 1])).view n = _ from viewOf_some ht, hp] at this
  cases this

end Linux001

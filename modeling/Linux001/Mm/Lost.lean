import Linux001.Mm.Eager
import Linux001.Mm.View

/-!
# Mm — what a process loses to the reclaimer

A page that `try_to_free_page()` takes without writing it to swap is gone: its entry is empty,
and the next access meets what the demand path builds, zeroes or the bytes of the executable
(`SysInv.reclaim_load`).  So the process sees no difference exactly if that is what the page
held, byte by byte: for copy-on-write pages (`dropped_share_reads`) and for the pages the first
two passes drop (`dropped_page_reads`).
-/

namespace Linux001

open Function Sys

variable {B : Boot} {s : Sys} {b b' : Books} {m m' : Mm} {tk : TaskTable}
variable {d d' f pt : Frame} {n n' : Slot} {t t' : Task} {i : Ix} {p : Page} {fs : FsView} {addr : Word}

/-! ### A vanished page -/

section
variable (h : Calm B s b)
include h

/-- **A page taken and not written to swap** has vanished from its process's memory, and nothing
else has changed that a process can see. -/
theorem Calm.reclaim (hr : (tryToFreePage s.tk s.mm).1 = true)
    (hs : (tryToFreePage s.tk s.mm).2.swapMap = s.mm.swapMap) :
    ∃ n t d pt i b', s.tk n = some t ∧ t.pgDir = some d ∧ s.mm.userPt (some d) = some pt ∧
      present (s.mm.mem pt i) = true ∧ Calm B (step s .reclaim) b' ∧
      (step s .reclaim).mm.mem pt i = 0#32 ∧
      s.mm.countFreePages ≤ (step s .reclaim).mm.countFreePages ∧
      (step s .reclaim).view = update s.view n (some
        { task := t.withDir none, vm := some (update (s.mm.pages d) i none) }) := by
  obtain ⟨m₁, hq, hres⟩ := tryToFreePage_spec s.tk s.mm
  have hst := (s.mm.noteStarved_still s.tk).trans (still_of_quiets hq)
  obtain ⟨-, ht⟩ := hres.resolve_left fun e => by rw [e] at hr; cases hr
  obtain ⟨t, pt, i, hsc, hmem, hroom⟩ := ht.emptied (hs.trans hst.swapMap.symm)
  obtain ⟨b', h', hd'⟩ := h.inv.reclaims (tryToFreePage_reclaims s.tk s.mm)
  change Inv B s.tk (step s .reclaim).mm b' at h'
  change (step s .reclaim).mm.mem = _ at hmem
  have hsc₀ := hsc.of_sameWords hst.words.symm
  obtain ⟨n, hn⟩ := hsc₀.task
  obtain ⟨d, hd, hl, rfl, -, -⟩ : ∃ d, t.pgDir = some d ∧ d ∈ b.live ∧ pt = b.tbl d ∧
      s.mm.mem pt i = b.pte d i ∧ present (b.pte d i) = true := by
    obtain ⟨d, hl, hd, hrest⟩ := h.inv.scanned hsc₀
    exact ⟨d, hd, hl, hrest⟩
  have hzero : (step s .reclaim).mm.mem (b.tbl d) i = 0#32 := by
    rw [hmem, Mm.setWord_same]
  have hsame : ∀ {g j}, ¬ (g = b.tbl d ∧ j = i) →
      SameEntry (s.mm.mem g j) ((step s .reclaim).mm.mem g j) := fun {g j} e => by
    rw [hmem, Mm.setWord_of_not e]
    exact hst.words g j
  have hpage : ∀ {d' j}, d' ∈ b.live → ¬ (d' = d ∧ j = i) →
      (step s .reclaim).mm.page (b.tbl d') j = s.mm.page (b.tbl d') j := by
    intro d' j hl' e
    refine Mm.page_sameEntry (hsame fun e' => e ⟨h.inv.tbl_inj hl' hl e'.1, e'.2⟩) fun hp => ?_
    rw [h.inv.mem_tbl hl'] at hp ⊢
    exact hd'.data (h.inv.data_hold (h.inv.hold_eq hl' hp)).table
  refine ⟨n, t, d, b.tbl d, i, b', hn, hd, h.inv.userPt_eq hl, hsc₀.present,
    ⟨hd'.spaces.live.trans h.live, hd'.spaces.kern.trans h.kern, h', h.few, fun d' hl' j => ?_,
      h.apart⟩, hzero, ?_, h.view_update hn hd fun {d'} hl' => ?_⟩
  · rw [hd'.spaces.live] at hl'
    rw [hd'.spaces.tbl]
    by_cases e : d' = d ∧ j = i
    · rw [e.1, e.2, hzero, swapped_zero]
    · rw [(hsame fun e' => e ⟨h.inv.tbl_inj hl' hl e'.1, e'.2⟩).swapped]
      exact h.plain d' hl' j
  · exact (Mm.countFreePages_mono hst.ram fun f hf => by rw [hst.memMap, hf]).trans hroom
  rw [h'.pages_eq (hd'.spaces.live.symm ▸ hl'), hd'.spaces.tbl, h.inv.pages_eq hl']
  funext j
  by_cases e : d' = d ∧ j = i
  · obtain ⟨rfl, rfl⟩ := e
    rw [if_pos rfl, h.inv.pages_eq hl, update_self]
    unfold Mm.page
    rw [hzero, present_zero]
    rfl
  · rw [hpage hl' e]
    split
    · next e' =>
      subst e'
      rw [h.inv.pages_eq hl, update_of_ne fun ej => e ⟨rfl, ej⟩]
    · rfl

section
variable (ht : s.tk n = some t) (hd : t.pgDir = some d)
include ht hd

/-- The scan looks at every page of a process. -/
theorem Calm.scanned_of
    (hp : (s.mm.pages d i).isSome = true) : Scanned s.tk s.mm t (b.tbl d) i := by
  have hl := h.inv.tasks ht hd
  rw [h.inv.pages_eq hl, Mm.page_isSome] at hp
  have hne : d ≠ kernelPgDir := fun e =>
    (h.inv.accounts.held (Books.cells_dir hl)).2 (e ▸ B.kernelDir)
  refine ⟨⟨n, ht⟩, ⟨d, hd, hne, h.inv.userPt_eq hl⟩, hp, ?_⟩
  rw [h.inv.mem_tbl hl] at hp ⊢
  exact (h.inv.mapped hl hp).user

/-- With nothing but copy-on-write pages the reclaimer has to fall back. -/
theorem Calm.starved
    (hsh : ∀ d' ∈ s.live, s.mm.Shares d') (hp : (s.mm.pages d i).isSome = true) :
    Starved s.tk s.mm := by
  have hall : ∀ {t pt i}, Scanned s.tk s.mm t pt i → cow (s.mm.mem pt i) = true := by
    intro t pt i hs
    obtain ⟨d', hl', -, rfl, -, -⟩ := h.inv.scanned hs
    exact hsh d' (h.live ▸ hl') _ i (h.inv.userPt_eq hl') hs.present
  have hs := h.scanned_of ht hd hp
  refine starved_iff.mpr ⟨⟨t, b.tbl d, i, hs, hall hs⟩, fun t pt i hs => ?_⟩
  simp [Mm.takeable, hall hs]

/-- If there is one page only, that is what the reclaimer takes. -/
theorem Calm.reclaim_only
    (hl : s.live = {d}) (hpg : s.mm.pages d = update (fun _ => none) i (some p))
    (hr : (tryToFreePage s.tk s.mm).1 = true)
    (hs : (tryToFreePage s.tk s.mm).2.swapMap = s.mm.swapMap) :
    ∃ b' pt, s.mm.userPt (some d) = some pt ∧ present (s.mm.mem pt i) = true ∧ Calm B (step s .reclaim) b' ∧
      s.mm.countFreePages ≤ (step s .reclaim).mm.countFreePages ∧
      (step s .reclaim).mm.mem pt i = 0#32 ∧
      (step s .reclaim).mm.pages d = fun _ => none := by
  obtain ⟨n', t', d', pt, j, b', ht', hd', hpt, hp, h', hz, hroom, hv⟩ := h.reclaim hr hs
  obtain rfl : d' = d := by
    rw [← Finset.mem_singleton, ← hl, ← h.live]
    exact h.inv.tasks ht' hd'
  obtain rfl : n' = n := h.apart ht ht' hd hd'
  obtain rfl : t = t' := by simpa [ht] using ht'
  obtain rfl : j = i := by
    by_contra hj
    have hsome : (s.mm.pages d' j).isSome = true := by
      unfold Mm.pages
      rw [hpt]
      exact Mm.page_isSome.trans hp
    rw [hpg, update_of_ne hj] at hsome
    cases hsome
  refine ⟨b', pt, hpt, hp, h', hroom, hz, ?_⟩
  refine pages_eq_of_view ht hd ?_
  rw [hv, update_self, hpg, update_idem, update_eq_self]
  rfl

end

/-- The one address space, if only one task has pages. -/
theorem Calm.live_singleton (how : s.Owned) (ht : s.tk n = some t)
    (hd : t.pgDir = some d) (hno : ∀ k, k ≠ n → (s.view k).any (·.vm.isSome) = false) :
    s.live = {d} := by
  refine Finset.eq_singleton_iff_unique_mem.mpr ⟨h.live ▸ h.inv.tasks ht hd, fun d' hd' => ?_⟩
  obtain ⟨k, t', htk, hdk⟩ := how d' hd'
  have hk : k = n := by
    by_contra hk
    have := hno k hk
    rw [show s.view k = _ from viewOf_some htk, hdk] at this
    cases this
  subst hk
  rw [ht] at htk
  obtain rfl : t = t' := by simpa using htk
  simpa [hd] using hdk.symm

/-- **A child that exits leaves its parent's pages copy-on-write.** -/
theorem Calm.fork_exit (ht : s.tk n = some t) (hn' : s.tk n' = none)
    (hd : t.pgDir = some d) (h₀ : n' ≠ 0) (hroom : 2 ≤ s.mm.countFreePages) :
    (run s [.fork n n', .exit n']).tk n = some t ∧ (run s [.fork n n', .exit n']).mm.Shares d := by
  have hne : n ≠ n' := fun e => by rw [← e, ht] at hn'; cases hn'
  have hfork : step s (.fork n n') = s.fork n' t d := by
    simp only [step, ht, hn', hd]
  obtain ⟨b₁, h₁, -, ⟨hsh, -⟩, hv⟩ := h.fork ht hn' hd fun hp => by
    have := hp.1
    omega
  have htk : (s.fork n' t d).tk n = some t := (fork_tk_of_ne hne).trans ht
  -- the child has a directory of its own
  obtain ⟨t', d', ht', -, hd', -⟩ := view_own (by rw [hv, update_self])
  have hdd : d ≠ d' := fun e => hne (h₁.apart ht' htk hd' (e ▸ hd))
  have hexit : run s [.fork n n', .exit n'] =
      { s.fork n' t d with tk := update (s.fork n' t d).tk n' (some t'.releaseExe) }.free d' := by
    show (step s (.fork n n')).exit n' = _
    rw [hfork]
    unfold Sys.exit
    simp only [ht', if_neg h₀, hd']
  rw [hexit]
  refine ⟨detach_of_ne ?_ (by rw [hd]; simpa using hdd),
    h₁.inv.freeUserSpace_shares (h₁.inv.tasks ht' hd') (h₁.inv.tasks htk hd) hdd hsh⟩
  show update _ _ _ _ = _
  rw [update_of_ne hne, htk]

end

/-! ### What is read afterwards -/

theorem demandFill_eq_iff :
    demandFill fs t (userVa i) zeroPage = p ↔ ∀ o, t.imageByte fs i o = getByte p o := by
  constructor
  · rintro rfl o
    rw [getByte_demandFill]
  · intro h
    refine page_ext fun o => ?_
    rw [getByte_demandFill, h]

/-- A load, with a frame left for it. -/
theorem Calm.load (h : Calm B s b) (ht : s.tk n = some t)
    (hd : t.pgDir = some d) (hroom : 1 ≤ s.mm.countFreePages)
    (hto : touched fs (t.withDir none) (s.mm.pages d) addr = some p) :
    (s.access fs n true (.load addr)).1 = .done (getByte p (pageOffset addr)) := by
  obtain ⟨-, -, -, ho, -⟩ := h.access fs n (.load addr) fun hp => by
    have := hp.1
    omega
  rw [ho, Eager.access, show s.view n = _ from viewOf_some ht, hd]
  simp only [Option.map_some, Access.addr, hto]
  rfl

/-- After a store, with a frame left for it, the page is the process's own. -/
theorem Calm.store_own {v : Byte} (h : Calm B s b)
    (ht : s.tk n = some t) (hd : t.pgDir = some d) (hroom : 1 ≤ s.mm.countFreePages)
    (hto : touched fs (t.withDir none) (s.mm.pages d) addr = some p)
    (ht' : (s.access fs n true (.store addr v)).2.tk n = some t') (hd' : t'.pgDir = some d')
    (hpt : (s.access fs n true (.store addr v)).2.mm.userPt (some d') = some pt) :
    cow ((s.access fs n true (.store addr v)).2.mm.mem pt (pteIx addr)) = false := by
  obtain ⟨-, -, -, ho, -⟩ := h.access fs n (.store addr v) fun hp => by
    have := hp.1
    omega
  have hdone : (s.access fs n true (.store addr v)).1 = .done v := by
    rw [ho, Eager.access, show s.view n = _ from viewOf_some ht, hd]
    simp only [Option.map_some, Access.addr, hto]
    rfl
  have hi : SysInv B s := ⟨b, h.live, h.kern, h.inv⟩
  rw [access_tk (Prod.ext hdone rfl), ht] at ht'
  obtain rfl : t = t' := by simpa using ht'
  obtain rfl : d = d' := by simpa [hd] using hd'
  exact hi.store_own ht hd (Prod.ext hdone rfl) hpt

/-- **A copy-on-write page the fallback has unmapped** reads as before exactly where the demand
path builds what it held. -/
theorem dropped_share_reads {s₀ : Sys} (h₀ : Booted s₀) (ops : List Op)
    (ht : (run s₀ ops).tk n = some t) (hd : t.pgDir = some d)
    (hpt : (run s₀ ops).mm.userPt (some d) = some pt)
    (hp : present ((run s₀ ops).mm.mem pt i) = true) (hc : cow ((run s₀ ops).mm.mem pt i) = true)
    (hdrop : present ((step (run s₀ ops) .reclaim).mm.mem pt i) = false)
    {fs : FsView} {addr : Word} {x : Byte} {s' : Sys} (hi : pteIx addr = i)
    (hr : (step (run s₀ ops) .reclaim).access fs n true (.load addr) = (.done x, s')) :
    (x = getByte ((run s₀ ops).mm.mem (frameOf ((run s₀ ops).mm.mem pt i))) (pageOffset addr) ↔
      t.imageByte fs i (pageOffset addr) =
        getByte ((run s₀ ops).mm.mem (frameOf ((run s₀ ops).mm.mem pt i))) (pageOffset addr)) ∧
    (s'.mm.pages d i = some ((run s₀ ops).mm.mem (frameOf ((run s₀ ops).mm.mem pt i))) ↔ ∀ o, t.imageByte fs i o =
        getByte ((run s₀ ops).mm.mem (frameOf ((run s₀ ops).mm.mem pt i))) o) := by
  subst hi
  have h := (h₀.inv False).run ops False.elim
  obtain ⟨hx, hpg⟩ := h.reclaim_load ht hd hpt (h.reclaim_share ht hd hpt hp hc hdrop) hr
  rw [hx, hpg, Option.some.injEq, getByte_demandFill]
  exact ⟨.rfl, demandFill_eq_iff⟩

/-- A process stores to its heap and forks; the child exits. -/
def storeForkExit : List Op :=
  [.spawn 1 {}, .access noFiles 1 true (.store userHeapStart 0x41#8), .fork 1 2, .exit 2]

/-- The one process has one page, and that is still copy-on-write. -/
theorem storeForkExit_state : ∃ b t d, Calm (machine_booted.start False) (run machine storeForkExit) b ∧
    (run machine storeForkExit).tk 1 = some t ∧ t.pgDir = some d ∧
    (run machine storeForkExit).live = {d} ∧ (run machine storeForkExit).mm.Shares d ∧
    Calls 8 machine.mm (run machine storeForkExit).mm ∧
    (run machine storeForkExit).mm.pages d =
      update (fun _ => none) (pteIx userHeapStart) (some (setByte zeroPage 0 0x41#8)) := by
  have hops : ∀ op ∈ storeForkExit, op.Ring3 := by simp [storeForkExit, Op.Ring3]
  have hroom := machine_room
  obtain ⟨b, h, hk, hv⟩ := machine_run hops (by decide)
  -- after the store
  obtain ⟨b₂, h₂, hk₂, hv₂⟩ := machine_run
    (fun op h => hops op (List.mem_of_mem_take h) : ∀ op ∈ storeForkExit.take 2, op.Ring3) (by decide)
  obtain ⟨t, d, ht, -, hd, -⟩ := view_own (s := run machine (storeForkExit.take 2)) (n := 1) (by rw [hv₂]; rfl)
  have hroom₂ := hk₂.room
  obtain ⟨ht', hsh⟩ := h₂.fork_exit ht (view_none (by rw [hv₂]; rfl)) hd (by decide : (2 : Slot) ≠ 0)
    (le_trans (by decide) (Nat.sub_le_of_le_add (hroom.trans hroom₂)))
  refine ⟨b, t, d, h, ht', hd, ?_, hsh, hk, ?_⟩
  · refine h.live_singleton (Sys.Owned.run (fun d hd => absurd hd (Finset.notMem_empty d))
      (by simp [storeForkExit, Op.Owned])) ht' hd ?_
    rw [hv]
    decide
  · refine pages_eq_of_view ht' hd ?_
    rw [hv]
    rfl

/-- It is what the reclaimer takes. -/
theorem storeForkExit_reclaim : ∃ b b' t d pt, (run machine storeForkExit).tk 1 = some t ∧ t.pgDir = some d ∧
    Calm (machine_booted.start False) (run machine storeForkExit) b ∧
    1 ≤ (run machine storeForkExit).mm.countFreePages ∧
    (run machine storeForkExit).mm.pages d =
      update (fun _ => none) (pteIx userHeapStart) (some (setByte zeroPage 0 0x41#8)) ∧
    (run machine storeForkExit).live = {d} ∧
    (run machine storeForkExit).mm.userPt (some d) = some pt ∧
    present ((run machine storeForkExit).mm.mem pt (pteIx userHeapStart)) = true ∧
    cow ((run machine storeForkExit).mm.mem pt (pteIx userHeapStart)) = true ∧
    Starved (run machine storeForkExit).tk (run machine storeForkExit).mm ∧
    Calm (machine_booted.start False) (step (run machine storeForkExit) .reclaim) b' ∧
    2984 ≤ (step (run machine storeForkExit) .reclaim).mm.countFreePages ∧
    (step (run machine storeForkExit) .reclaim).mm.mem pt (pteIx userHeapStart) = 0#32 ∧
    (step (run machine storeForkExit) .reclaim).mm.pages d = fun _ => none := by
  obtain ⟨b, t, d, h, ht, hd, hl, hsh, hk, hpg⟩ := storeForkExit_state
  have hst : Starved (run machine storeForkExit).tk (run machine storeForkExit).mm :=
    h.starved ht hd (fun d' hd' => by
      rw [hl, Finset.mem_singleton] at hd'
      rw [hd']
      exact hsh) (by rw [hpg, update_self]; rfl)
  obtain ⟨hr, -, hs⟩ := tryToFreePage_starved (fun k => by rw [hk.counts.hdFault]; rfl) hst
  obtain ⟨b', pt, hpt, hp, h', hroom, hz, hpg'⟩ := h.reclaim_only ht hd hl hpg hr hs
  have h₁ := machine_room
  have h₂ := hk.room
  exact ⟨b, b', t, d, pt, ht, hd, h, by omega, hpg, hl, hpt, hp, hsh pt _ hpt hp, hst, h', by omega, hz, hpg'⟩

/-- The frame of the one page. -/
theorem Mm.frame_of_pages (hpt : m.userPt (some d) = some pt) (hp : present (m.mem pt i) = true)
    (hpg : m.pages d = update (fun _ => none) i (some p)) : m.mem (frameOf (m.mem pt i)) = p := by
  have hi : m.pages d i = some (m.mem (frameOf (m.mem pt i))) := by
    unfold Mm.pages
    rw [hpt]
    exact if_pos hp
  rw [hpg, update_self] at hi
  exact (Option.some.inj hi).symm

/-- The heap page is not the image's, so the byte is not read again. -/
theorem storeForkExit_reads : ∃ x s',
    (step (run machine storeForkExit) .reclaim).access noFiles 1 true (.load userHeapStart) =
      (.done x, s') ∧ x ≠ 0x41#8 := by
  obtain ⟨b, b', t, d, pt, ht, hd, -, -, hpg, -, hpt, hp, hc, -, h', hroom, hz, hpg'⟩ := storeForkExit_reclaim
  have hload : ((step (run machine storeForkExit) .reclaim).access noFiles 1 true
      (.load userHeapStart)).1 = .done (getByte zeroPage (pageOffset userHeapStart)) :=
    h'.load ht hd (by omega) (by rw [hpg']; rfl)
  refine ⟨_, _, Prod.ext hload rfl, fun hx => ?_⟩
  have hpage := Mm.frame_of_pages hpt hp hpg
  have himage := (dropped_share_reads machine_booted storeForkExit ht hd hpt hp hc
    (by rw [hz, present_zero]) rfl (Prod.ext hload rfl)).1.mp (by rw [hx, hpage]; decide)
  rw [hpage, Task.imageByte, if_neg (by decide)] at himage
  exact absurd himage (by decide)

/-- **What the process stored is gone**: it reads 0x41, then the reclaimer runs, and it reads 0. -/
theorem dropped_share_lost : ∃ t d pt, (run machine storeForkExit).tk 1 = some t ∧
    t.pgDir = some d ∧ (run machine storeForkExit).mm.userPt (some d) = some pt ∧
    present ((run machine storeForkExit).mm.mem pt (pteIx userHeapStart)) = true ∧
    cow ((run machine storeForkExit).mm.mem pt (pteIx userHeapStart)) = true ∧
    (step (run machine storeForkExit) .reclaim).mm.mem pt (pteIx userHeapStart) = 0#32 ∧
    ((run machine storeForkExit).access noFiles 1 true (.load userHeapStart)).1 = .done 0x41#8 ∧
    ((step (run machine storeForkExit) .reclaim).access noFiles 1 true (.load userHeapStart)).1 = .done 0#8 := by
  obtain ⟨b, b', t, d, pt, ht, hd, h, hroom₀, hpg, -, hpt, hp, hc, -, h', hroom, hz, hpg'⟩ := storeForkExit_reclaim
  refine ⟨t, d, pt, ht, hd, hpt, hp, hc, hz, ?_, ?_⟩
  · rw [h.load ht hd hroom₀ (by rw [hpg]; rfl), getByte_setByte]
    rfl
  · rw [h'.load ht hd (by omega) (p := zeroPage) (by rw [hpg']; rfl), getByte_zeroPage]

/-- **A page dropped because it is zero or text** reads as before exactly where the demand path
builds what it held. -/
theorem dropped_page_reads {s₀ : Sys} (h₀ : Booted s₀) (ops : List Op)
    (ht : (run s₀ ops).tk n = some t) (hd : t.pgDir = some d)
    (hpt : (run s₀ ops).mm.userPt (some d) = some pt)
    (hp : present ((run s₀ ops).mm.mem pt i) = true) (hc : cow ((run s₀ ops).mm.mem pt i) = false)
    (hdrop : (step (run s₀ ops) .reclaim).mm.mem pt i = 0#32)
    {fs : FsView} {addr : Word} {x : Byte} {s' : Sys} (hi : pteIx addr = i)
    (hr : (step (run s₀ ops) .reclaim).access fs n true (.load addr) = (.done x, s')) :
    (x = getByte ((run s₀ ops).mm.mem (frameOf ((run s₀ ops).mm.mem pt i))) (pageOffset addr) ↔
      t.imageByte fs i (pageOffset addr) =
        getByte ((run s₀ ops).mm.mem (frameOf ((run s₀ ops).mm.mem pt i))) (pageOffset addr)) ∧
    (s'.mm.pages d i = some ((run s₀ ops).mm.mem (frameOf ((run s₀ ops).mm.mem pt i))) ↔ ∀ o, t.imageByte fs i o =
        getByte ((run s₀ ops).mm.mem (frameOf ((run s₀ ops).mm.mem pt i))) o) := by
  subst hi
  have h := (h₀.inv False).run ops False.elim
  obtain ⟨hx, hpg⟩ := h.reclaim_load ht hd hpt hdrop hr
  rw [hx, hpg, Option.some.injEq, getByte_demandFill]
  exact ⟨.rfl, demandFill_eq_iff⟩

/-- A file of one byte, 0x90. -/
def textFile : FsView := ⟨fun _ => { iSize := 1#32, iZone := fun _ => 5#16 }, fun _ _ => some fun _ => 0x90#8⟩

/-- A task whose executable is that byte, in a segment that may be read and executed. -/
def textTask : Task :=
  { exeInode := some 0, nrExeRegions := 1,
    exeRegions := fun _ => { va := userProgStart, filesz := 1#32, memsz := 0x1000#32, flags := 5#32 } }

/-- It stores to its own text. -/
def storeText : List Op := [.spawn 1 textTask, .access textFile 1 true (.store userProgStart 0x41#8)]

/-- The page it finds there. -/
def textPage : Page := demandFill textFile textTask userProgStart zeroPage

theorem textPage_byte : getByte textPage 0 = 0x90#8 := by
  unfold textPage
  rw [show userProgStart = userVa 0 from rfl, getByte_demandFill]
  decide

theorem storeText_state : ∃ b t d, Calm (machine_booted.start False) (run machine storeText) b ∧
    (run machine storeText).tk 1 = some t ∧ t.withDir none = textTask ∧ t.pgDir = some d ∧
    (run machine storeText).live = {d} ∧ 2996 ≤ (run machine storeText).mm.countFreePages ∧
    (∀ pt, (run machine storeText).mm.userPt (some d) = some pt →
      cow ((run machine storeText).mm.mem pt (pteIx userProgStart)) = false) ∧
    (run machine storeText).mm.pages d =
      update (fun _ => none) (pteIx userProgStart) (some (setByte textPage 0 0x41#8)) := by
  have hops : ∀ op ∈ storeText, op.Ring3 := by simp [storeText, Op.Ring3]
  have hroom := machine_room
  obtain ⟨b, h, hk, hv⟩ := machine_run hops (by decide)
  have hroom' := hk.room
  obtain ⟨t, d, ht, htt, hd, hpg⟩ := view_own (n := 1) (by rw [hv]; rfl)
  refine ⟨b, t, d, h, ht, htt, hd, ?_, ?_, ?_, hpg⟩
  · refine h.live_singleton (Sys.Owned.run (fun d hd => absurd hd (Finset.notMem_empty d))
      (by simp [storeText, Op.Owned])) ht hd ?_
    rw [hv]
    decide
  · have : 2 * storeText.length = 4 := rfl
    omega
  · -- before the store
    obtain ⟨b₁, h₁, hk₁, hv₁⟩ := machine_run
      (fun op h => hops op (List.mem_of_mem_take h) : ∀ op ∈ storeText.take 1, op.Ring3) (by decide)
    obtain ⟨t₁, d₁, ht₁, htt₁, hd₁, hpg₁⟩ := view_own (s := run machine (storeText.take 1)) (n := 1) (by
      rw [hv₁]; rfl)
    have hroom₁ := hk₁.room
    have hlen : 2 * (storeText.take 1).length = 2 := rfl
    have hrun : run machine storeText =
        ((run machine (storeText.take 1)).access textFile 1 true (.store userProgStart 0x41#8)).2 :=
      step_access _ textFile 1 _
    intro pt hpt
    rw [hrun] at hpt ht ⊢
    refine h₁.store_own (p := textPage) ht₁ hd₁ (by omega) ?_ ht hd hpt
    rw [hpg₁, htt₁]
    rfl

/-- The reclaimer takes the page as text. -/
theorem storeText_reclaim : ∃ b b' t d pt,
    (run machine storeText).tk 1 = some t ∧ t.withDir none = textTask ∧ t.pgDir = some d ∧
    Calm (machine_booted.start False) (run machine storeText) b ∧ 1 ≤ (run machine storeText).mm.countFreePages ∧
    (run machine storeText).mm.pages d =
      update (fun _ => none) (pteIx userProgStart) (some (setByte textPage 0 0x41#8)) ∧
    (run machine storeText).mm.userPt (some d) = some pt ∧
    present ((run machine storeText).mm.mem pt (pteIx userProgStart)) = true ∧
    cow ((run machine storeText).mm.mem pt (pteIx userProgStart)) = false ∧
    Calm (machine_booted.start False) (step (run machine storeText) .reclaim) b' ∧
    1 ≤ (step (run machine storeText) .reclaim).mm.countFreePages ∧
    (step (run machine storeText) .reclaim).mm.mem pt (pteIx userProgStart) = 0#32 ∧
    (step (run machine storeText) .reclaim).mm.pages d = fun _ => none := by
  obtain ⟨b, t, d, h, ht, htt, hd, hl, hroom, hc, hpg⟩ := storeText_state
  have hs := h.scanned_of ht hd (by rw [hpg, update_self]; rfl)
  have htext : isCleanText t (userVa (pteIx userProgStart)) = true := by
    change isCleanText (t.withDir none) _ = true
    rw [htt]
    decide
  have hc' := hc _ (h.inv.userPt_eq (h.inv.tasks ht hd))
  obtain ⟨hr, hsw, -⟩ := tryToFreePage_text hs hc' htext
  obtain ⟨b', pt, hpt, hp, h', hroom', hz, hpg'⟩ := h.reclaim_only ht hd hl hpg hr hsw
  exact ⟨b, b', t, d, pt, ht, htt, hd, h, by omega, hpg, hpt, hp, hc pt hpt, h', by omega, hz, hpg'⟩

/-- The byte stored is not the file's, so it is not read again. -/
theorem storeText_reads : ∃ x s',
    (step (run machine storeText) .reclaim).access textFile 1 true (.load userProgStart) =
      (.done x, s') ∧ x ≠ 0x41#8 := by
  obtain ⟨b, b', t, d, pt, ht, htt, hd, -, -, hpg, hpt, hp, hc, h', hroom, hz, hpg'⟩ := storeText_reclaim
  have hload : ((step (run machine storeText) .reclaim).access textFile 1 true
      (.load userProgStart)).1 = .done (getByte textPage (pageOffset userProgStart)) :=
    h'.load ht hd hroom (by rw [hpg', htt]; rfl)
  refine ⟨_, _, Prod.ext hload rfl, fun hx => ?_⟩
  have hpage := Mm.frame_of_pages hpt hp hpg
  have himage := (dropped_page_reads machine_booted storeText ht hd hpt hp hc hz rfl
    (Prod.ext hload rfl)).1.mp (by rw [hx, hpage, getByte_setByte]; rfl)
  rw [hpage, getByte_setByte] at himage
  change Task.imageByte textFile (t.withDir none) _ _ = _ at himage
  rw [htt] at himage
  exact absurd himage (by decide)

/-- **What the process stored is gone**: it reads 0x41, then the reclaimer runs, and it reads
the file's 0x90. -/
theorem dropped_text_lost : ∃ t d pt, (run machine storeText).tk 1 = some t ∧
    t.pgDir = some d ∧ (run machine storeText).mm.userPt (some d) = some pt ∧
    present ((run machine storeText).mm.mem pt (pteIx userProgStart)) = true ∧
    cow ((run machine storeText).mm.mem pt (pteIx userProgStart)) = false ∧
    (step (run machine storeText) .reclaim).mm.mem pt (pteIx userProgStart) = 0#32 ∧
    ((run machine storeText).access textFile 1 true (.load userProgStart)).1 = .done 0x41#8 ∧
    ((step (run machine storeText) .reclaim).access textFile 1 true (.load userProgStart)).1 = .done 0x90#8 := by
  obtain ⟨b, b', t, d, pt, ht, htt, hd, h, hroom₀, hpg, hpt, hp, hc, h', hroom, hz, hpg'⟩ := storeText_reclaim
  refine ⟨t, d, pt, ht, hd, hpt, hp, hc, hz, ?_, ?_⟩
  · rw [h.load ht hd hroom₀ (by rw [hpg, htt]; rfl), getByte_setByte]
    rfl
  · rw [h'.load ht hd hroom (by rw [hpg', htt]; rfl)]
    exact congrArg _ textPage_byte

end Linux001

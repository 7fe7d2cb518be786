import Linux001.Mm.Eager
import Linux001.Mm.View

/-!
# Mm — the kernel's stores into shared pages

After a fork the RW bit is what keeps a shared page from being written.  The processor asks it of
Ring3 always, and of Ring0 only if `CR0.WP` is set; `setup_paging` ORs `0x80000001` into `CR0` and
leaves WP as it finds it.  So `put_fs_byte()` into a page that is still shared goes to the frame
that all the sharers have (`kernel_store_iff`).
-/

namespace Linux001

open Option Sys

variable {B : Boot} {tk : TaskTable} {m : Mm} {b : Books} {s s₀ : Sys} {d d' pt : Frame} {i : Ix}
variable {fs : FsView} {t : Task} {n : Slot} {addr cr0 : Word} {v : Byte} {f : Frame}

/-! ### `CR0` -/

theorem Sys.exit_cr0 (s : Sys) (n : Slot) : (s.exit n).cr0 = s.cr0 := by
  unfold exit
  split
  · rfl
  split
  · rfl
  · split <;> rfl

theorem Sys.access_cr0 (s : Sys) (fs : FsView) (n : Slot) (user : Bool) (a : Access) :
    (s.access fs n user a).2.cr0 = s.cr0 := by
  unfold access
  split
  · rfl
  split
  · exact exit_cr0 _ n
  · rfl

/-- No operation loads `CR0`. -/
theorem step_cr0 (s : Sys) (op : Op) : (step s op).cr0 = s.cr0 := by
  cases op with
  | access fs n user a =>
    simp only [step]
    split
    · exact s.access_cr0 fs n user a
    · rfl
  | exit n => exact s.exit_cr0 n
  | fork n n' =>
    simp only [step, fork]
    split
    · split
      · rfl
      split
      · rfl
      · split <;> rfl
    · rfl
  | setTask | kfree | kwrite | free =>
    simp only [step]
    split <;> rfl
  | copy =>
    simp only [step]
    split
    · split <;> rfl
    · rfl
  | spawn =>
    simp only [step]
    split
    · split <;> rfl
    · rfl
  | create | kget =>
    simp only [step]
    split <;> rfl
  | reclaim => rfl

theorem run_cr0 (s : Sys) (ops : List Op) : (run s ops).cr0 = s.cr0 := by
  induction ops generalizing s with
  | nil => rfl
  | cons op ops ih => exact (ih (step s op)).trans (step_cr0 s op)

/-- `setup_paging` does not touch WP. -/
theorem wpOf_setupPaging (cr0 : Word) : wpOf (cr0 ||| 0x80000001#32) = wpOf cr0 := by
  have h : ∀ w : Word, wpOf w = w.getLsbD 16 := fun w => Bits.has_twoPow w 16
  rw [h, h]
  simp

/-! ### The store -/

theorem setByte_eq_self (p : Page) (o : Fin 4096) (v : Byte) : setByte p o v = p ↔ getByte p o = v := by
  constructor
  · intro h
    rw [← h, getByte_setByte, if_pos rfl]
  · intro h
    refine page_ext fun o' => ?_
    rw [getByte_setByte]
    split
    · next e => rw [e, h]
    · rfl

/-- The frame that the `i`th page of the directory's user window is in. -/
def Mm.frameAt (m : Mm) (d : Frame) (i : Ix) : Option Frame :=
  (m.userPt (some d)).bind fun pt => if present (m.mem pt i) then some (frameOf (m.mem pt i)) else none

theorem Inv.frameAt_eq (h : Inv B tk m b) (hd : d ∈ b.live) (i : Ix) :
    m.frameAt d i = if present (b.pte d i) then some (frameOf (b.pte d i)) else none := by
  simp [Mm.frameAt, h.userPt_eq hd, h.mem_tbl hd]

namespace Inv

/-- A store through a present entry: what the other address spaces have afterwards. -/
theorem perform_page (h : Inv B tk m b) (hl : d ∈ b.live) (hp : present (b.pte d i) = true)
    (hl' : d' ∈ b.live) (hne : d' ≠ d) (j : Ix) :
    (m.perform (b.tbl d) i (.store addr v)).2.page (b.tbl d') j = (m.page (b.tbl d') j).map fun p =>
        if m.frameAt d' j = some (frameOf (b.pte d i)) then setByte p (pageOffset addr) v else p := by
  have hdata := h.data_hold (h.hold_eq hl hp)
  have ht : b.tbl d' ≠ b.tbl d := fun e => hne (h.tbl_inj hl' hl e)
  have hf : ∀ p : Page, ((m.setWord (b.tbl d) i (b.pte d i ||| pteAccessed ||| pteDirty)).setPage
      (frameOf (b.pte d i)) p).mem (b.tbl d') = m.mem (b.tbl d') := fun p => by
    rw [Mm.setPage_of_ne (hdata.table d' hl'), Mm.setWord_of_ne ht]
  simp only [Mm.perform, h.mem_tbl hl, Mm.page, hf, h.mem_tbl hl', h.frameAt_eq hl']
  by_cases hp' : present (b.pte d' j) = true
  · have hdata' := h.data_hold (h.hold_eq hl' hp')
    simp only [hp', if_true, map_some, some.injEq]
    by_cases e : frameOf (b.pte d' j) = frameOf (b.pte d i)
    · rw [if_pos e, e, Mm.setPage_same, Mm.setWord_of_ne (hdata.table d hl).symm]
    · rw [if_neg e, Mm.setPage_of_ne e, Mm.setWord_of_ne (hdata'.table d hl).symm]
  · simp [hp']

end Inv

/-- **The kernel stores into a page that is mapped**: whoever else has the frame sees the byte. -/
theorem SysInv.kernel_store (h : SysInv B s) (hwp : wpOf s.cr0 = false)
    (ht : s.tk n = some t) (hd : t.pgDir = some d) (hx : pdeIx addr = userPdeIndex)
    (hf : s.mm.frameAt d (pteIx addr) = some f) :
    ∃ s', s.access fs n false (.store addr v) = (.done v, s') ∧ ∀ d' ∈ s.live, d' ≠ d →
      s'.mm.pages d' = fun j => (s.mm.pages d' j).map fun p =>
        if s.mm.frameAt d' j = some f then setByte p (pageOffset addr) v else p := by
  obtain ⟨b, hlive, -, h⟩ := h
  have hl := h.tasks ht hd
  rw [h.frameAt_eq hl] at hf
  obtain ⟨hp, hf⟩ : present (b.pte d (pteIx addr)) = true ∧ frameOf (b.pte d (pteIx addr)) = f := by
    split at hf
    · next hp => exact ⟨hp, some.inj hf⟩
    · cases hf
  have hw : s.mm.walk false d addr true false = .ok (b.tbl d, pteIx addr) := by
    rw [h.walk_user false true false hl hx, if_pos hp, if_neg (by simp)]
  have hacc : s.access fs n false (.store addr v) =
      (.done v, { s with mm := (s.mm.perform (b.tbl d) (pteIx addr) (.store addr v)).2 }) := by
    simp only [Sys.access, ht, cpuAccess, hd, Access.addr, Access.write, hwp, hw]
    rfl
  refine ⟨_, hacc, fun d' hd' hne => ?_⟩
  rw [← hlive] at hd'
  obtain ⟨b', h', hs'⟩ := h.perform hl hp (.store addr v)
  rw [h'.pages_eq (hs'.live ▸ hd'), hs'.tbl, h.pages_eq hd', ← hf]
  exact funext fun j => h.perform_page hl hp hd' hne j

/-- A page is there exactly where a frame is. -/
theorem SysInv.pages_frameAt (h : SysInv B s) (hd : d ∈ s.live) (i : Ix) :
    s.mm.pages d i = (s.mm.frameAt d i).map s.mm.mem := by
  obtain ⟨b, hlive, -, h⟩ := h
  rw [← hlive] at hd
  rw [h.pages_eq hd, h.frameAt_eq hd, Mm.page, h.mem_tbl hd]
  split <;> rfl

/-- **The kernel's stores and copy-on-write.**  A store into a page that is mapped goes through, and
every other address space keeps its pages exactly if none has the frame, or if the byte was there
already. -/
theorem kernel_store_iff {f : Frame} (h₀ : Booted s₀) (hcr : s₀.cr0 = cr0 ||| 0x80000001#32)
    (hwp : wpOf cr0 = false) (ops : List Op) (ht : (run s₀ ops).tk n = some t) (hd : t.pgDir = some d)
    (hx : pdeIx addr = userPdeIndex) (hf : (run s₀ ops).mm.frameAt d (pteIx addr) = some f) :
    ∃ s', (run s₀ ops).access fs n false (.store addr v) = (.done v, s') ∧
      ((∀ d' ∈ (run s₀ ops).live, d' ≠ d → s'.mm.pages d' = (run s₀ ops).mm.pages d') ↔
        (∀ d' ∈ (run s₀ ops).live, d' ≠ d → ∀ j, (run s₀ ops).mm.frameAt d' j ≠ some f) ∨
          getByte ((run s₀ ops).mm.mem f) (pageOffset addr) = v) := by
  have h := (h₀.inv False).run ops False.elim
  have hcr' : wpOf (run s₀ ops).cr0 = false := by rw [run_cr0, hcr, wpOf_setupPaging, hwp]
  generalize run s₀ ops = s at *
  obtain ⟨s', hs', hpages⟩ := h.kernel_store hcr' ht hd hx hf
  refine ⟨s', hs', fun hall => ?_, fun hor d' hd' hne => ?_⟩
  · by_contra hcon
    rw [not_or] at hcon
    obtain ⟨hsh, hb⟩ := hcon
    push Not at hsh
    obtain ⟨d', hd', hne, j, hj⟩ := hsh
    have := congrFun ((hpages d' hd' hne).symm.trans (hall d' hd' hne)) j
    rw [h.pages_frameAt hd', hj] at this
    simp only [if_true, map_some] at this
    exact hb ((setByte_eq_self _ _ _).mp (some.inj this))
  · rw [hpages d' hd' hne]
    funext j
    rw [h.pages_frameAt hd']
    by_cases hj : s.mm.frameAt d' j = some f
    · rw [hj]
      simp only [if_true, map_some, some.injEq]
      rcases hor with hsh | hb
      · exact absurd hj (hsh d' hd' hne j)
      · exact (setByte_eq_self _ _ _).mpr hb
    · simp only [hj, if_false]
      exact map_id'

/-! ### After a fork -/

theorem Mm.Twins.frameAt {pt' : Frame} (h : m.Twins d d') (hpt : m.userPt (some d) = some pt)
    (hpt' : m.userPt (some d') = some pt') (hf : m.frameAt d i = some f) : m.frameAt d' i = some f := by
  simp only [Mm.frameAt, hpt, hpt', bind_some] at hf ⊢
  split at hf
  · next hp => rw [h pt pt' i hpt hpt' hp, if_pos hp, hf]
  · cases hf

/-- A process stores to its heap and forks. -/
def storeFork : List Op :=
  [.spawn 1 {}, .access noFiles 1 true (.store userHeapStart 0x41#8), .fork 1 2]

/-- Parent and child have the page in one frame. -/
theorem storeFork_state : ∃ t t' d d' f, (run machine storeFork).tk 1 = some t ∧ t.pgDir = some d ∧
    (run machine storeFork).tk 2 = some t' ∧ t'.pgDir = some d' ∧ d ∈ (run machine storeFork).live ∧
    d ≠ d' ∧ (run machine storeFork).mm.frameAt d (pteIx userHeapStart) = some f ∧
    (run machine storeFork).mm.frameAt d' (pteIx userHeapStart) = some f ∧
    (run machine storeFork).mm.mem f = setByte zeroPage 0 0x41#8 := by
  have hops : ∀ op ∈ storeFork, op.Ring3 := by simp [storeFork, Op.Ring3]
  have hroom := machine_room
  obtain ⟨b, h, -, hv⟩ := machine_run hops (by decide)
  -- before the fork
  obtain ⟨b₂, h₂, hk₂, hv₂⟩ := machine_run
    (fun op h => hops op (List.mem_of_mem_take h) : ∀ op ∈ storeFork.take 2, op.Ring3) (by decide)
  have hview₂ : (run machine (storeFork.take 2)).view 2 = none := by
    rw [hv₂]
    rfl
  obtain ⟨t, d, ht, -, hd, -⟩ := view_own (s := run machine (storeFork.take 2)) (n := 1) (by rw [hv₂]; rfl)
  have hroom₂ := hk₂.room
  have hlen : 2 * (storeFork.take 2).length = 4 := rfl
  have hrun : run machine storeFork = (run machine (storeFork.take 2)).fork 2 t d := by
    show step (run machine (storeFork.take 2)) (.fork 1 2) = _
    simp only [step, ht, view_none hview₂, hd]
  obtain ⟨-, -, -, ⟨-, d', hne, ht', htw⟩, -⟩ := h₂.fork ht (view_none hview₂) hd fun hp => by
    have := hp.1
    omega
  have ht₁ : (run machine storeFork).tk 1 = some t := by
    rw [hrun, fork_tk_of_ne (by decide), ht]
  rw [← hrun] at ht' htw
  -- after it
  have hpg := congrFun (pages_eq_of_view ht₁ hd (by rw [hv]; rfl)) (pteIx userHeapStart)
  have hl := h.inv.tasks ht₁ hd
  have hl' := h.inv.tasks ht' rfl
  have hs := (machine_booted.inv False).run storeFork False.elim
  have hlive : d ∈ (run machine storeFork).live := h.live ▸ hl
  rw [hs.pages_frameAt hlive] at hpg
  obtain ⟨f, hf, hm⟩ := map_eq_some_iff.mp (hpg.trans (Function.update_self _ _ _))
  exact ⟨t, _, d, d', f, ht₁, hd, ht', rfl, hlive, hne.symm, hf,
    htw.frameAt (h.inv.userPt_eq hl) (h.inv.userPt_eq hl') hf, hm⟩

/-- **The parent sees what the kernel has stored for the child**: its 0x41 has become 0x42. -/
theorem kernel_store_seen : ∃ t' d d' f s', (run machine storeFork).tk 2 = some t' ∧ t'.pgDir = some d' ∧
    d ∈ (run machine storeFork).live ∧ d ≠ d' ∧
    (run machine storeFork).access noFiles 2 false (.store userHeapStart 0x42#8) = (.done 0x42#8, s') ∧
    (run machine storeFork).mm.frameAt d (pteIx userHeapStart) = some f ∧
    (run machine storeFork).mm.pages d (pteIx userHeapStart) = some (setByte zeroPage 0 0x41#8) ∧
    s'.mm.pages d (pteIx userHeapStart) = some (setByte (setByte zeroPage 0 0x41#8) 0 0x42#8) := by
  obtain ⟨t, t', d, d', f, -, -, ht', hd', hl, hne, hf, hf', hm⟩ := storeFork_state
  have h := (machine_booted.inv False).run storeFork False.elim
  have hwp : wpOf (run machine storeFork).cr0 = false := by
    rw [run_cr0]
    decide
  have hpg := h.pages_frameAt hl (pteIx userHeapStart)
  rw [hf, map_some, hm] at hpg
  obtain ⟨s', hs', hpages⟩ : ∃ s', (run machine storeFork).access noFiles 2 false
      (.store userHeapStart 0x42#8) = (.done 0x42#8, s') ∧ _ :=
    h.kernel_store hwp ht' hd' (by decide) hf'
  refine ⟨t', d, d', f, s', ht', hd', hl, hne, hs', hf, hpg, ?_⟩
  rw [hpages d hl hne]
  simp only [hpg, hf, if_true, map_some]
  rfl

/-- The byte that is there already may be stored. -/
theorem kernel_store_same : ∃ d d' s', d ∈ (run machine storeFork).live ∧ d ≠ d' ∧
    (run machine storeFork).access noFiles 2 false (.store userHeapStart 0x41#8) = (.done 0x41#8, s') ∧
    s'.mm.pages d = (run machine storeFork).mm.pages d := by
  obtain ⟨t, t', d, d', f, -, -, ht', hd', hl, hne, -, hf', hm⟩ := storeFork_state
  have hb : getByte ((run machine storeFork).mm.mem f) (pageOffset userHeapStart) = 0x41#8 := by
    rw [hm, getByte_setByte]
    rfl
  obtain ⟨s', hs', hiff⟩ : ∃ s', (run machine storeFork).access noFiles 2 false
      (.store userHeapStart 0x41#8) = (.done 0x41#8, s') ∧ _ :=
    kernel_store_iff machine_booted rfl (by decide : wpOf 0#32 = false) storeFork ht' hd' (by decide) hf'
  exact ⟨d, d', s', hl, hne, hs', hiff.mpr (.inr hb) d hl hne⟩

end Linux001

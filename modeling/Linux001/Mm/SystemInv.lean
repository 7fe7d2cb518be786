import Linux001.Mm.System

/-!
# Mm — the invariant over whole runs

Every operation keeps the invariant (`SysInv.step`), so it holds in every state a run reaches
from a booted machine (`SysInv.run`).  With `few` there are never more than 99 address spaces.
That is so if every directory belongs to a task slot (`Sys.Owned.few`).
-/

namespace Linux001

open Finset Function

open Function (update_of_ne update_self)

variable {B : Boot} {s : Sys} {n n' : Slot} {d d' : Frame} {t : Task} {m : Mm} {tk : TaskTable} {b : Books}
  {x : Option Task}

/-- **The invariant of the system.** -/
def SysInv (B : Boot) (s : Sys) : Prop :=
  ∃ b, b.live = s.live ∧ b.kern = s.kern ∧ Inv B s.tk s.mm b

/-! ### The tasks -/

/-- The invariant sees the tasks' directories only. -/
theorem Inv.retask {tk' : TaskTable} (h : Inv B tk m b)
    (ht : ∀ {n t d}, tk' n = some t → t.pgDir = some d → d ∈ b.live) : Inv B tk' m b :=
  ⟨h.accounts, h.shape, h.entries, h.slots, ht⟩

theorem Inv.retask_update
    (h : Inv B tk m b) (hx : ∀ t ∈ x, ∀ d, t.pgDir = some d → d ∈ b.live) :
    Inv B (update tk n x) m b := by
  refine h.retask fun {k t d} hk hd => ?_
  by_cases e : k = n
  · subst e
    exact hx t (by simpa using hk) d hd
  · rw [update_of_ne e] at hk
    exact h.tasks hk hd

theorem Inv.retask_task (h : Inv B tk m b) (ht : ∀ d, t.pgDir = some d → d ∈ b.live) :
    Inv B (update tk n (some t)) m b := by
  refine h.retask_update fun t' ht' d hd => ?_
  obtain rfl : t = t' := by simpa using ht'
  exact ht d hd

theorem detach_some (h : detach tk d n = some t) :
    t.pgDir ≠ some d ∧ ∀ d', t.pgDir = some d' → ∃ t', tk n = some t' ∧ t'.pgDir = some d' := by
  obtain ⟨t₀, h₀, rfl⟩ := Option.map_eq_some_iff.mp h
  split
  · exact ⟨by simp, by simp⟩
  · next hne => exact ⟨hne, fun d' hd' => ⟨t₀, h₀, hd'⟩⟩

theorem detach_of_ne (h : tk n = some t) (hd : t.pgDir ≠ some d) :
    detach tk d n = some t := by
  simp [detach, h, hd]

/-- After `free_user_space(d)` the tasks' directories are the other live ones. -/
theorem Inv.detach_tasks (h : Inv B tk m b) {n : Slot}
    {t : Task} {d' : Frame} (hn : detach tk d n = some t) (hd : t.pgDir = some d') :
    d' ∈ b.live.erase d := by
  obtain ⟨hne, hex⟩ := detach_some hn
  obtain ⟨t', ht', hp'⟩ := hex d' hd
  exact mem_erase.mpr ⟨fun e => hne (e ▸ hd), h.tasks ht' hp'⟩

/-! ### Parts of operations -/

namespace SysInv

/-- Only memory has changed, and no space. -/
theorem kept (hl : b.live = s.live) (hk : b.kern = s.kern)
    (h : Kept B s.tk b m) : SysInv B { s with mm := m } := by
  obtain ⟨b', h', hs⟩ := h
  exact ⟨b', hs.live.trans hl, hs.kern.trans hk, h'⟩

theorem free (h : SysInv B s) (hd : d ∈ s.live) : SysInv B (s.free d) := by
  obtain ⟨b, hl, hk, h⟩ := h
  obtain ⟨b', h', hl', hk'⟩ := h.freeUserSpace (hl ▸ hd) h.detach_tasks
  exact ⟨b', by rw [hl', hl]; rfl, hk'.trans hk, h'⟩

theorem exit (h : SysInv B s) (n : Slot) : SysInv B (s.exit n) := by
  unfold Sys.exit
  split
  · exact h
  next t ht =>
  obtain ⟨b, hl, hk, hi⟩ := h
  have hs₁ : SysInv B { s with tk := update s.tk n (some t.releaseExe) } :=
    ⟨b, hl, hk, hi.retask_task fun _ hd => hi.tasks ht hd⟩
  split
  · exact hs₁
  split
  · exact hs₁
  · next d hd => exact hs₁.free (hl ▸ hi.tasks ht hd)

theorem access (h : SysInv B s) (fs : FsView) {user : Bool} {a : Access}
    (hu : user = true ∨ pdeIx a.addr = userPdeIndex) : SysInv B (s.access fs n user a).2 := by
  unfold Sys.access
  split
  · exact h
  next t ht =>
  obtain ⟨b, hl, hk, hi⟩ := h
  have hkept : Kept B s.tk b (cpuAccess fs s.tk t (wpOf s.cr0) user a 2 s.mm).2 := by
    cases hd : t.pgDir with
    | none => exact ⟨b, by simpa [cpuAccess, hd] using hi, .refl b⟩
    | some d => exact hi.cpuAccess fs hd (hi.tasks ht hd) hu 2
  have hs₁ := kept hl hk hkept
  split
  · next m hr =>
    rw [hr] at hs₁
    exact hs₁.exit n
  · next m r hr =>
    rw [hr] at hs₁
    exact hs₁

/-- A new directory, for the task in a vacant slot. -/
theorem attach (hl : b.live = insert d s.live) (hk : b.kern = s.kern)
    (hi : Inv B s.tk m b) (hd : t.pgDir = some d) :
    SysInv B { s with mm := m, tk := update s.tk n (some t), live := insert d s.live } := by
  refine ⟨b, hl, hk, hi.retask_task fun d' hd' => ?_⟩
  obtain rfl : d = d' := by simpa [hd] using hd'
  rw [hl]
  exact mem_insert_self _ _

section
variable (h : SysInv B s)
include h

theorem fork (hfew : B.few → s.live.card + 1 < used) (ht : s.tk n = some t)
    (hd : t.pgDir = some d) : SysInv B (s.fork n' t d) := by
  obtain ⟨b, hl, hk, hi⟩ := h
  have hdl := hi.tasks ht hd
  have hi₀ : Inv B (update s.tk n' (some (t.withDir none))) s.mm b := hi.retask_task nofun
  unfold Sys.fork
  rcases hi₀.allocUserPgdir (hl ▸ hfew) with
    ⟨m₁, b₁, e₁, h₁, hs₁⟩ | ⟨d', m₁, b₁, e₁, h₁, hd', hl₁, hk₁, hz₁⟩
  · simp only [e₁]
    exact kept hl hk ⟨b₁, h₁.retask fun hn hd => hs₁.live ▸ hi.tasks hn hd, hs₁⟩
  simp only [e₁]
  have hne : d' ≠ d := fun e => hd' (e ▸ hdl)
  have hl₁' : b₁.live = insert d' s.live := by rw [hl₁, hl]
  have h₁s : Inv B s.tk m₁ b₁ := h₁.retask fun hn hd => by
    rw [hl₁]; exact mem_insert_of_mem (hi.tasks hn hd)
  have hatt : Inv B (update s.tk n' (some (t.withDir (some d')))) m₁ b₁ :=
    h₁s.retask_task fun _ hd => by
      rw [hl₁, ← Option.some.inj hd]
      exact mem_insert_self _ _
  obtain ⟨b₂, h₂, hs₂⟩ := hatt.copyPageTables
    (by rw [hl₁]; exact mem_insert_of_mem hdl) (by rw [hl₁]; exact mem_insert_self _ _)
    hne hz₁
  generalize copyPageTables (update s.tk n' (some (t.withDir (some d')))) m₁ d d' = r
    at h₂
  obtain ⟨r, m₂⟩ := r
  have hl₂ : b₂.live = insert d' s.live := hs₂.live.trans hl₁'
  have h₂s : Inv B s.tk m₂ b₂ := h₂.retask fun hn hd => by
    rw [hs₂.live]; exact h₁s.tasks hn hd
  cases r with
  | some c => exact attach (t := t.withDir (some d')) hl₂ (hs₂.kern.trans (hk₁.trans hk)) h₂s rfl
  | none =>
    have hlive : d' ∉ s.live := hl ▸ hd'
    have htk : ∀ {k t' d''}, s.tk k = some t' → t'.pgDir = some d'' → d'' ∈ b₂.live.erase d' := by
      intro k t' d'' hk' hd''
      rw [hl₂, erase_insert hlive, ← hl]
      exact hi.tasks hk' hd''
    obtain ⟨b₃, h₃, hl₃, hk₃⟩ := h₂s.freeUserSpace
      (by rw [hl₂]; exact mem_insert_self _ _) htk
    refine ⟨b₃, ?_, hk₃.trans (hs₂.kern.trans (hk₁.trans hk)), h₃⟩
    rw [hl₃, hl₂, erase_insert hlive]

/-- A failing copy is undone by tearing the fresh directory down. -/
theorem copy (hd : d ∈ s.live) (hd' : d' ∈ s.live) (e : d' ≠ d)
    (hf : s.Fresh d') : SysInv B (step s (.copy d d')) := by
  obtain ⟨b, hl, hk, hi⟩ := h
  have hz : ∀ i, b.pte d' i = 0#32 := fun i => by
    rw [← hi.mem_tbl (hl ▸ hd')]
    exact hf _ (hi.userPt_eq (hl ▸ hd')) i
  have h₁ := kept hl hk (hi.copyPageTables (hl ▸ hd) (hl ▸ hd') e hz)
  have hc : d ∈ s.live ∧ d' ∈ s.live ∧ d' ≠ d ∧ s.Fresh d' := ⟨hd, hd', e, hf⟩
  simp only [step, if_pos hc]
  generalize copyPageTables s.tk s.mm d d' = r at h₁
  obtain ⟨_ | c, m⟩ := r
  · exact h₁.free hd'
  · exact h₁

theorem kget : SysInv B (step s .kget) := by
  obtain ⟨b, hl, hk, hi⟩ := h
  obtain ⟨m₁, b₁, h₁, hd₁, e | ⟨f, e, -, hf, -⟩⟩ := hi.getFreePage
  · simp only [step, e]
    exact kept hl hk ⟨b₁, h₁, hd₁.spaces⟩
  simp only [step, e]
  refine ⟨b₁.addKern f, hd₁.spaces.live.trans hl, ?_, hf⟩
  show insert f b₁.kern = insert f s.kern
  rw [hd₁.spaces.kern, hk]

theorem setTask
    (hx : ∀ t ∈ x, ∀ d ∈ t.pgDir, d ∈ s.live) :
    SysInv B { s with tk := update s.tk n x } := by
  obtain ⟨b, hl, hk, hi⟩ := h
  exact ⟨b, hl, hk, hi.retask_update fun t ht d hd => hl ▸ hx t ht d hd⟩

/-- `alloc_user_pgdir` for no task. -/
theorem create (hfew : B.few → s.live.card + 1 < used) :
    SysInv B (step s .create) := by
  obtain ⟨b, hl, hk, hi⟩ := h
  rcases hi.allocUserPgdir (hl ▸ hfew) with
    ⟨m₁, b₁, e₁, h₁, hs₁⟩ | ⟨d, m₁, b₁, e₁, h₁, -, hl₁, hk₁, -⟩
  · simp only [step, e₁]
    exact kept hl hk ⟨b₁, h₁, hs₁⟩
  · simp only [step, e₁]
    exact ⟨b₁, by rw [hl₁, hl], hk₁.trans hk, h₁⟩

/-- `alloc_user_pgdir` for the task in a vacant slot. -/
theorem spawn (hfew : B.few → s.live.card + 1 < used) (hv : s.Vacant n) :
    SysInv B (step s (.spawn n t)) := by
  obtain ⟨b, hl, hk, hi⟩ := h
  rcases hi.allocUserPgdir (hl ▸ hfew) with
    ⟨m₁, b₁, e₁, h₁, hs₁⟩ | ⟨d, m₁, b₁, e₁, h₁, -, hl₁, hk₁, -⟩
  · simp only [step, if_pos hv, e₁]
    exact kept hl hk ⟨b₁, h₁, hs₁⟩
  simp only [step, if_pos hv, e₁]
  have htk : ∀ {k t' d'}, s.tk k = some t' → t'.pgDir = some d' → d' ∈ b₁.live :=
    fun hn hd => hl₁ ▸ mem_insert_of_mem (hi.tasks hn hd)
  exact attach (t := t.withDir (some d)) (by rw [hl₁, hl]) (hk₁.trans hk) (h₁.retask htk) rfl

theorem reclaim : SysInv B (step s .reclaim) := by
  obtain ⟨b, hl, hk, hi⟩ := h
  obtain ⟨b', h', hd'⟩ := hi.reclaims (tryToFreePage_reclaims s.tk s.mm)
  exact kept hl hk ⟨b', h', hd'.spaces⟩

/-! ### Steps and runs -/

/-- **Every operation keeps the invariant.** -/
protected theorem step (op : Op) (hfew : B.few → s.live.card + 1 < used) :
    SysInv B (step s op) := by
  cases op with
  | create => exact h.create hfew
  | setTask n x =>
    simp only [step]
    split
    · next hx => exact h.setTask hx
    · exact h
  | copy d d' =>
    by_cases hc : d ∈ s.live ∧ d' ∈ s.live ∧ d' ≠ d ∧ s.Fresh d'
    · exact h.copy hc.1 hc.2.1 hc.2.2.1 hc.2.2.2
    · simp only [step, if_neg hc]
      exact h
  | free d =>
    simp only [step]
    split
    · next hd => exact h.free hd
    · exact h
  | access fs n user a =>
    simp only [step]
    split
    · next hu => exact h.access fs hu
    · exact h
  | spawn n t =>
    by_cases hv : s.Vacant n
    · exact h.spawn hfew hv
    · simp only [step, if_neg hv]
      exact h
  | fork n n' =>
    simp only [step]
    split
    · next t ht _ =>
      split
      · exact h
      · next d hd => exact h.fork hfew ht hd
    · exact h
  | exit n => exact h.exit n
  | kget => exact h.kget
  | kfree f =>
    obtain ⟨b, hl, hk, hi⟩ := h
    simp only [step]
    split
    · next hf => exact ⟨b.dropKern f, hl, by rw [← hk]; rfl, hi.release (hk ▸ hf)⟩
    · exact ⟨b, hl, hk, hi⟩
  | kwrite f p =>
    obtain ⟨b, hl, hk, hi⟩ := h
    simp only [step]
    split
    · next hf => exact ⟨b, hl, hk, hi.setPage (hi.data_kern (hk ▸ hf))⟩
    · exact ⟨b, hl, hk, hi⟩
  | reclaim => exact h.reclaim

end

end SysInv

/-- At most 98 address spaces are live before every step of the run. -/
def Few (s : Sys) : List Op → Prop
  | [] => True
  | op :: ops => s.live.card + 1 < used ∧ Few (step s op) ops

/-- **The invariant holds along every run.** -/
protected theorem SysInv.run (h : SysInv B s) (ops : List Op) (hfew : B.few → Few s ops) :
    SysInv B (run s ops) := by
  induction ops generalizing s with
  | nil => exact h
  | cons op ops ih => exact ih (h.step op fun hf => (hfew hf).1) fun hf => (hfew hf).2

/-! ### Directories of tasks -/

/-- Every live directory is some task's. -/
def Sys.Owned (s : Sys) : Prop := ∀ d ∈ s.live, ∃ n t, s.tk n = some t ∧ t.pgDir = some d

namespace Sys.Owned

section
variable (ho : s.Owned)
include ho

theorem card_le : s.live.card ≤ nrTasks := by
  classical
  have hslot : ∀ d, ∃ k : Slot, d ∈ s.live → ∃ t, s.tk k = some t ∧ t.pgDir = some d := by
    intro d
    by_cases hd : d ∈ s.live
    · obtain ⟨k, t, ht, hp⟩ := ho d hd
      exact ⟨k, fun _ => ⟨t, ht, hp⟩⟩
    · exact ⟨0, fun h => absurd h hd⟩
  choose slot hslot using hslot
  have hle : s.live.card ≤ (univ : Finset Slot).card := by
    refine card_le_card_of_injOn slot (fun _ _ => mem_coe.mpr (mem_univ _))
      fun d hd d' hd' e => ?_
    obtain ⟨t, ht, hp⟩ := hslot d hd
    obtain ⟨t', ht', hp'⟩ := hslot d' hd'
    rw [← e, ht] at ht'
    obtain rfl : t = t' := by simpa using ht'
    simpa [hp] using hp'
  rwa [card_univ, Fintype.card_fin] at hle

theorem free (d : Frame) : (s.free d).Owned := by
  intro d' hd'
  obtain ⟨hne, hd'⟩ := mem_erase.mp hd'
  obtain ⟨n, t, ht, hp⟩ := ho d' hd'
  exact ⟨n, t, detach_of_ne ht (by rw [hp]; simpa using hne), hp⟩

/-- A slot gets a task with the directory of the old one, or with any if the old one had none. -/
theorem update (hn : ∀ t', s.tk n = some t' → ∀ d ∈ t'.pgDir, t.pgDir = some d)
    {l : Finset Frame} (hl : ∀ d ∈ l, d ∈ s.live ∨ t.pgDir = some d) :
    { s with mm := m, tk := update s.tk n (some t), live := l }.Owned := by
  intro d hd
  by_cases h : t.pgDir = some d
  · exact ⟨n, t, update_self _ _ _, h⟩
  obtain ⟨k, t', ht', hp⟩ := ho d ((hl d hd).resolve_right h)
  have e : k ≠ n := fun e => h (hn t' (e ▸ ht') d hp)
  exact ⟨k, t', by rw [← ht']; exact update_of_ne e _ _, hp⟩

theorem exit (n : Slot) : (s.exit n).Owned := by
  unfold Sys.exit
  split
  · exact ho
  next t ht =>
  have h₁ : { s with tk := Function.update s.tk n (some t.releaseExe) }.Owned :=
    ho.update (fun t' ht' d hd => by
      obtain rfl : t = t' := by simpa [ht] using ht'
      exact hd) fun d hd => .inl hd
  simp only
  split
  · exact h₁
  split
  · exact h₁
  · exact h₁.free _

theorem access (fs : FsView) (n : Slot) (user : Bool) (a : Access) :
    (s.access fs n user a).2.Owned := by
  unfold Sys.access
  split
  · exact ho
  split
  · next m _ => exact exit (s := { s with mm := m }) ho n
  · exact ho

protected theorem step {op : Op} (hop : op.Owned) : (step s op).Owned := by
  have hvacant : ∀ {n : Slot} {t : Task} {d m}, s.Vacant n →
      { s with mm := m, tk := Function.update s.tk n (some (t.withDir (some d)))
               live := insert d s.live }.Owned := fun hv =>
    ho.update (fun t' ht' d hd => by rw [hv t' ht'] at hd; cases hd) fun d' hd' =>
      (mem_insert.mp hd').symm.imp id fun e => by rw [e]; rfl
  cases op with
  | create | setTask | copy | free => exact hop.elim
  | access fs n user a =>
    simp only [step]
    split
    · exact ho.access fs n user a
    · exact ho
  | spawn n t =>
    simp only [step]
    split
    · next hv =>
      split
      · exact ho
      · exact hvacant hv
    · exact ho
  | fork n n' =>
    simp only [step]
    split
    · next t _ hn' =>
      split
      · exact ho
      unfold Sys.fork
      split
      · exact ho
      simp only
      split
      · exact hvacant fun t' h => by rw [hn'] at h; cases h
      · exact ho
    · exact ho
  | exit n => exact ho.exit n
  | kget =>
    simp only [step]
    split <;> exact ho
  | kfree f | kwrite f p =>
    simp only [step]
    split <;> exact ho
  | reclaim => exact ho

protected theorem run {ops : List Op} (hops : ∀ op ∈ ops, op.Owned) : (run s ops).Owned := by
  induction ops generalizing s with
  | nil => exact ho
  | cons op ops ih =>
    obtain ⟨hop, hops⟩ := List.forall_mem_cons.mp hops
    exact ih (ho.step hop) hops

/-- **With a task slot for every directory there are few address spaces.** -/
theorem few {ops : List Op} (hops : ∀ op ∈ ops, op.Owned) : Few s ops := by
  induction ops generalizing s with
  | nil => trivial
  | cons op ops ih =>
    obtain ⟨hop, hops⟩ := List.forall_mem_cons.mp hops
    refine ⟨?_, ih (ho.step hop) hops⟩
    have := ho.card_le
    unfold nrTasks at this
    unfold used
    omega

end

end Sys.Owned

end Linux001

import Linux001.Mm.Ownership
import Linux001.Mm.Pages

/-!
# Mm — copy-on-write fork is an eager copy

The eager machine (`Eager`) is what fork is for: a process is a task with its own pages, fork
copies them all, a store changes a page of the process that makes it, and a page that has never
been touched is filled at the first touch.  It has no frames, no counts and no page tables.

`Sys.view` is what the processes of a system see of it.  As long as `get_free_page` finds a free
frame, one operation of the system is one operation of the eager machine on that view
(`Calm.step`), with the same byte read, and so is a whole run (`cow_is_eager_copy`).
-/

namespace Linux001

open Function Finset Option

/-! ### The eager machine -/

/-- A process: its task, and its pages if it has an address space.  A page that has never been
touched is `none`. -/
structure Proc where
  task : Task
  vm : Option (Ix → Option Page)

/-- The eager machine. -/
abbrev Eager := Slot → Option Proc

namespace Eager

def exit (e : Eager) (n : Slot) : Eager :=
  match e n with
  | none => e
  | some p =>
    update e n
      (some { task := p.task.releaseExe, vm := if n = 0 then p.vm else none })

/-- A load or store: what it yields, and the machine after it. -/
def access (e : Eager) (fs : FsView) (n : Slot) (a : Access) : Outcome × Eager :=
  match e n with
  | none => (.killed, e)
  | some p =>
    match p.vm with
    | none => (.killed, e.exit n)
    | some v =>
      match touched fs p.task v a.addr with
      | none => (.killed, e.exit n)
      | some q =>
        (.done (a.apply q).1, update e n (some
          { p with vm := some (update v (pteIx a.addr) (some (a.apply q).2)) }))

def spawn (e : Eager) (n : Slot) (t : Task) : Eager :=
  update e n (some { task := t.withDir none, vm := some fun _ => none })

/-- The child gets a copy of every page. -/
def fork (e : Eager) (n n' : Slot) : Eager :=
  match e n, e n' with
  | some p, none => if p.vm.isSome then update e n' (some p) else e
  | _, _ => e

def step (e : Eager) : Op → Eager
  | .access fs n _ a => (e.access fs n a).2
  | .spawn n t => if (e n).any (·.vm.isSome) then e else e.spawn n t
  | .fork n n' => e.fork n n'
  | .exit n => e.exit n
  -- `waitpid` empties the slot of a task that has exited
  | .setTask n none => update e n none
  | _ => e

end Eager

/-! ### What the processes see -/

def viewOf (tk : TaskTable) (pages : Frame → Ix → Option Page) : Eager := fun n =>
  (tk n).map fun t => { task := t.withDir none, vm := t.pgDir.map pages }

/-- What the processes of a system see of it. -/
def Sys.view (s : Sys) : Eager := viewOf s.tk s.mm.pages

section View
variable {tk : TaskTable} {pg pg' : Frame → Ix → Option Page} {n : Slot} {t : Task}

theorem viewOf_congr (h : ∀ {n t d}, tk n = some t → t.pgDir = some d → pg' d = pg d) :
    viewOf tk pg' = viewOf tk pg := by
  funext n
  unfold viewOf
  cases ht : tk n with
  | none => rfl
  | some t =>
    cases hd : t.pgDir with
    | none => simp [hd]
    | some d => simp [hd, h ht hd]

theorem viewOf_update : viewOf (update tk n (some t)) pg =
    update (viewOf tk pg) n (some { task := t.withDir none, vm := t.pgDir.map pg }) := by
  funext k
  by_cases e : k = n
  · subst e; simp [viewOf]
  · simp [viewOf, e]

theorem viewOf_some (ht : tk n = some t) :
    viewOf tk pg n = some { task := t.withDir none, vm := t.pgDir.map pg } := by
  simp [viewOf, ht]

theorem viewOf_none (ht : tk n = none) : viewOf tk pg n = none := by
  simp [viewOf, ht]

end View

variable {B : Boot} {s : Sys} {b b' : Books} {m m' : Mm} {tk tk' : TaskTable}
variable {d d' f : Frame} {n n' : Slot} {t t' : Task} {i : Ix} {v : Ix → Option Page} {ops : List Op}

namespace Inv

/-- A directory that has not been written keeps its table. -/
theorem tbl_congr (h : Inv B tk m b) (h' : Inv B tk' m' b') (hd : d ∈ b.live) (hd' : d ∈ b'.live)
    (hm : m'.mem d = m.mem d) : b'.tbl d = b.tbl d := by
  refine h'.tbl_eq hd' (Eq.trans ?_ (h.userPt_eq hd))
  simp only [Mm.userPt, hm]

end Inv

theorem Sys.exit_calls (s : Sys) (n : Slot) : Calls 0 s.mm (s.exit n).mm := by
  unfold Sys.exit
  split
  · exact .of_eq ⟨rfl, rfl, rfl, rfl, rfl⟩ rfl
  split
  · exact .of_eq ⟨rfl, rfl, rfl, rfl, rfl⟩ rfl
  split
  · exact .of_eq ⟨rfl, rfl, rfl, rfl, rfl⟩ rfl
  · exact freeUserSpace_calls _ _

/-- A fork fills the child's slot only. -/
theorem Sys.fork_tk_of_ne {n' : Slot} {t : Task} (hne : n ≠ n') : (s.fork n' t d).tk n = s.tk n := by
  unfold Sys.fork
  split
  · rfl
  simp only
  split
  · exact update_of_ne hne _ _
  · rfl

/-- Every page of the directory is copy-on-write. -/
def Mm.Shares (m : Mm) (d : Frame) : Prop :=
  ∀ pt i, m.userPt (some d) = some pt → present (m.mem pt i) = true → cow (m.mem pt i) = true

/-- The entries of `d'` are those of `d`, where that has a page. -/
def Mm.Twins (m : Mm) (d d' : Frame) : Prop :=
  ∀ pt pt' i, m.userPt (some d) = some pt → m.userPt (some d') = some pt' →
    present (m.mem pt i) = true → m.mem pt' i = m.mem pt i

/-- They stay so when another address space goes. -/
theorem Inv.freeUserSpace_shares (h : Inv B tk m b) (hd : d ∈ b.live) (hd' : d' ∈ b.live)
    (hne : d' ≠ d) (hs : m.Shares d') : (freeUserSpace m d).Shares d' := by
  have hmem : ∀ g, g ≠ b.tbl d → g ≠ d → (freeUserSpace m d).mem g = m.mem g :=
    fun _ => freeUserSpace_mem (h.userPt_eq hd)
  have hpt : (freeUserSpace m d).userPt (some d') = some (b.tbl d') := by
    rw [← h.userPt_eq hd']
    simp only [Mm.userPt, hmem d' (h.tbl_ne_dir hd hd').symm hne]
  intro pt i hpt' hp
  obtain rfl : b.tbl d' = pt := by simpa [hpt] using hpt'
  rw [hmem _ (fun e => hne (h.tbl_inj hd' hd e)) (h.tbl_ne_dir hd' hd)] at hp ⊢
  exact hs _ i (h.userPt_eq hd') hp

theorem Sys.view_own {t' : Task} (h : s.view n = some { task := t', vm := some v }) :
    ∃ t d, s.tk n = some t ∧ t.withDir none = t' ∧ t.pgDir = some d ∧ s.mm.pages d = v := by
  obtain ⟨t, ht, hp⟩ := map_eq_some_iff.mp h
  obtain ⟨d, hd, hv⟩ := map_eq_some_iff.mp (congrArg Proc.vm hp)
  exact ⟨t, d, ht, congrArg Proc.task hp, hd, hv⟩

theorem Sys.pages_eq_of_view (ht : s.tk n = some t) (hd : t.pgDir = some d)
    (h : (s.view n).bind (·.vm) = some v) : s.mm.pages d = v := by
  rw [show s.view n = _ from viewOf_some ht, hd] at h
  exact some.inj h

theorem Sys.view_none (h : s.view n = none) : s.tk n = none := Option.map_eq_none_iff.mp h

/-! ### Calm states -/

/-- The invariant, no page on the swap device, and a directory of its own for every task. -/
structure Calm (B : Boot) (s : Sys) (b : Books) : Prop where
  live : b.live = s.live
  kern : b.kern = s.kern
  inv : Inv B s.tk s.mm b
  few : ¬ B.few
  plain : Plain b s.mm
  apart : ∀ {n n' t t' d}, s.tk n = some t → s.tk n' = some t' → t.pgDir = some d → t'.pgDir = some d → n' = n

namespace Calm

section
variable (h : Calm B s b)
include h

/-- Memory that belongs to no address space has changed. -/
theorem of_mem {k : Finset Frame} (h' : Inv B s.tk m' b')
    (hl : b'.live = b.live) (ht : b'.tbl = b.tbl) (hk : b'.kern = k)
    (hm : ∀ g, (∃ c, (∀ f, c ≠ .kern f) ∧ b.cells c = some g) → m'.mem g = s.mm.mem g) :
    Calm B { s with mm := m', kern := k } b' ∧
      { s with mm := m', kern := k }.view = s.view := by
  have hd : ∀ {d i}, d ∈ b.live → m'.page (b.tbl d) i = s.mm.page (b.tbl d) i ∧
      m'.mem (b.tbl d) = s.mm.mem (b.tbl d) := by
    intro d i hd
    refine h.inv.page_frame hd fun g hg => ?_
    obtain ⟨c, -, hc, hg⟩ := hg
    exact hm g ⟨c, hc, hg⟩
  refine ⟨⟨hl.trans h.live, hk, h', h.few, fun d hd' i => ?_, h.apart⟩, ?_⟩
  · rw [ht, (hd (i := i) (hl ▸ hd')).2]
    exact h.plain d (hl ▸ hd') i
  · refine viewOf_congr fun hn hp => ?_
    have hl' := h.inv.tasks hn hp
    rw [h'.pages_eq (hl.symm ▸ hl'), h.inv.pages_eq hl', ht]
    funext i
    exact (hd hl').1

section
variable (ht : s.tk n = some t) (hd : t.pgDir = some d)
include ht hd

/-- Only the pages of the task in slot `n` have changed. -/
theorem view_update
    (hpg : ∀ {d'}, d' ∈ b.live → m'.pages d' = if d' = d then v else s.mm.pages d') :
    viewOf s.tk m'.pages = update s.view n (some { task := t.withDir none, vm := some v }) := by
  funext k
  by_cases e : k = n
  · subst e
    rw [viewOf_some ht, hd, map_some, hpg (h.inv.tasks ht hd), if_pos rfl, update_self]
  rw [update_of_ne e]
  -- another task has another directory
  show viewOf s.tk m'.pages k = viewOf s.tk s.mm.pages k
  cases hk : s.tk k with
  | none => rw [viewOf_none hk, viewOf_none hk]
  | some t' =>
    rw [viewOf_some hk, viewOf_some hk]
    cases hd' : t'.pgDir with
    | none => rfl
    | some d' =>
      have hne : d' ≠ d := fun ed => e (h.apart ht hk hd (ed ▸ hd'))
      rw [map_some, map_some, hpg (h.inv.tasks hk hd'), if_neg hne]

/-- A page of the task in slot `n` has been written. -/
theorem access_done {a : Access}
    {p : Page} (h' : Inv B s.tk m' b') (hs : b.SameSpaces b')
    (hw : Wrote b d (pteIx a.addr) p s.mm m') :
    Calm B { s with mm := m' } b' ∧ { s with mm := m' }.view = update s.view n (some
      { task := t.withDir none
        vm := some (update (s.mm.page (b.tbl d)) (pteIx a.addr) (some p)) }) := by
  refine ⟨⟨hs.live.trans h.live, hs.kern.trans h.kern, h', h.few, ?_, h.apart⟩, ?_⟩
  · intro d' hd' i
    rw [hs.tbl]
    exact hw.plain h.plain d' (hs.live ▸ hd') i
  refine h.view_update ht hd fun {d'} hd' => ?_
  rw [h'.pages_eq (hs.live.symm ▸ hd'), hs.tbl, h.inv.pages_eq hd']
  funext i
  by_cases e : d' = d ∧ i = pteIx a.addr
  · obtain ⟨rfl, rfl⟩ := e
    rw [if_pos rfl, hw.page, update_self]
  rw [hw.others hd' e]
  split
  · next e' =>
    subst e'
    rw [update_of_ne fun ei => e ⟨rfl, ei⟩]
  · rfl

/-- `free_user_space` of a task's directory. -/
theorem free :
    ∃ b', Calm B (s.free d) b' ∧ (s.free d).view = update s.view n (some { task := t.withDir none, vm := none }) := by
  have hl := h.inv.tasks ht hd
  have hmem : ∀ g, g ≠ b.tbl d → g ≠ d → (freeUserSpace s.mm d).mem g = s.mm.mem g :=
    fun _ => freeUserSpace_mem (h.inv.userPt_eq hl)
  obtain ⟨b', h', hl', hk'⟩ := h.inv.freeUserSpace hl h.inv.detach_tasks
  -- what belongs to another address space is not written
  have hdir : ∀ {d'}, d' ∈ b'.live → d' ∈ b.live ∧ (freeUserSpace s.mm d).mem d' = s.mm.mem d' ∧
      b'.tbl d' = b.tbl d' ∧ (freeUserSpace s.mm d).mem (b.tbl d') = s.mm.mem (b.tbl d') := by
    intro d' hd'
    obtain ⟨hne, hlive⟩ := mem_erase.mp (hl' ▸ hd')
    have e := hmem d' (h.inv.tbl_ne_dir hl hlive).symm hne
    exact ⟨hlive, e, h.inv.tbl_congr h' hlive hd' e,
      hmem _ (fun e => hne (h.inv.tbl_inj hlive hl e)) (h.inv.tbl_ne_dir hlive hl)⟩
  have hpages : ∀ {d'}, d' ∈ b'.live → (freeUserSpace s.mm d).pages d' = s.mm.pages d' := by
    intro d' hd'
    obtain ⟨hlive, -, htbl, hte⟩ := hdir hd'
    rw [h'.pages_eq hd', h.inv.pages_eq hlive, htbl]
    funext i
    refine Mm.page_congr (by rw [hte]) fun hp => ?_
    rw [h.inv.mem_tbl hlive] at hp ⊢
    have hdata := h.inv.data_hold (h.inv.hold_eq hlive hp)
    exact hmem _ (hdata.table d hl).symm fun e => hdata.dir (e ▸ hl)
  refine ⟨b', ⟨by rw [hl', h.live]; rfl, hk'.trans h.kern, h', h.few, fun d' hd' i => ?_, ?_⟩, ?_⟩
  · obtain ⟨hlive, -, htbl, hte⟩ := hdir hd'
    show swapped ((freeUserSpace s.mm d).mem (b'.tbl d') i) = false
    rw [htbl, hte]
    exact h.plain d' hlive i
  · intro k k' t₁ t₂ d' hk hk' h₁ h₂
    obtain ⟨u₁, hu₁, hp₁⟩ := (detach_some hk).2 d' h₁
    obtain ⟨u₂, hu₂, hp₂⟩ := (detach_some hk').2 d' h₂
    exact h.apart hu₁ hu₂ hp₁ hp₂
  funext k
  show viewOf (detach s.tk d) (freeUserSpace s.mm d).pages k = _
  by_cases e : k = n
  · subst e
    have : detach s.tk d k = some (t.withDir none) := by simp [detach, ht, hd]
    rw [viewOf_some this, update_self]
    rfl
  rw [update_of_ne e]
  show _ = viewOf s.tk s.mm.pages k
  cases hk : s.tk k with
  | none => rw [viewOf_none hk, viewOf_none (by simp [detach, hk])]
  | some t' =>
    have hne : t'.pgDir ≠ some d := fun hd' => e (h.apart ht hk hd hd')
    rw [viewOf_some hk, viewOf_some (detach_of_ne hk hne)]
    cases hd' : t'.pgDir with
    | none => rfl
    | some d' =>
      have hlive : d' ∈ b'.live := by
        rw [hl']
        exact mem_erase.mpr ⟨fun e => hne (e ▸ hd'), h.inv.tasks hk hd'⟩
      rw [map_some, map_some, hpages hlive]

end

/-- **Exit.** -/
theorem exit (n : Slot) :
    ∃ b', Calm B (s.exit n) b' ∧ (s.exit n).view = s.view.exit n := by
  unfold Sys.exit Eager.exit
  cases ht : s.tk n with
  | none =>
    rw [show s.view n = none from viewOf_none ht]
    exact ⟨b, h, rfl⟩
  | some t =>
    rw [show s.view n = _ from viewOf_some ht]
    simp only
    have h₁ : Calm B { s with tk := update s.tk n (some t.releaseExe) } b := by
      have hsame : ∀ {k t₁ d}, update s.tk n (some t.releaseExe) k = some t₁ →
          t₁.pgDir = some d → ∃ t₂, s.tk k = some t₂ ∧ t₂.pgDir = some d := by
        intro k t₁ d hk hd
        by_cases e : k = n
        · subst e
          obtain rfl : t.releaseExe = t₁ := by simpa using hk
          exact ⟨t, ht, hd⟩
        · rw [update_of_ne e] at hk
          exact ⟨t₁, hk, hd⟩
      refine ⟨h.live, h.kern, h.inv.retask fun hk hd => ?_, h.few, h.plain, fun hk hk' hd hd' => ?_⟩
      · obtain ⟨t₂, ht₂, hd₂⟩ := hsame hk hd
        exact h.inv.tasks ht₂ hd₂
      · obtain ⟨t₂, ht₂, hd₂⟩ := hsame hk hd
        obtain ⟨t₃, ht₃, hd₃⟩ := hsame hk' hd'
        exact h.apart ht₂ ht₃ hd₂ hd₃
    have hv : ({ s with tk := update s.tk n (some t.releaseExe) } : Sys).view = update s.view n
          (some { task := (t.withDir none).releaseExe, vm := t.pgDir.map s.mm.pages }) :=
      viewOf_update
    by_cases hn : n = 0
    · rw [if_pos hn, if_pos hn]
      exact ⟨b, h₁, hv⟩
    rw [if_neg hn, if_neg hn]
    cases hd : t.pgDir with
    | none => exact ⟨b, h₁, by rw [hv, hd]; rfl⟩
    | some d =>
      obtain ⟨b', h', hv'⟩ := h₁.free (update_self _ _ _) hd
      refine ⟨b', h', ?_⟩
      rw [hv', hv, update_idem]
      rfl

/-- **Reaping**: the slot is free again. -/
theorem reap (n : Slot) :
    Calm B { s with tk := update s.tk n none } b ∧
      ({ s with tk := update s.tk n none } : Sys).view = update s.view n none := by
  have hsame : ∀ {k t}, update s.tk n none k = some t → s.tk k = some t := by
    intro k t hk
    by_cases e : k = n
    · subst e
      simp at hk
    · rwa [update_of_ne e] at hk
  refine ⟨⟨h.live, h.kern, h.inv.retask fun hk hd => h.inv.tasks (hsame hk) hd, h.few, h.plain,
    fun hk hk' => h.apart (hsame hk) (hsame hk')⟩, ?_⟩
  funext k
  by_cases e : k = n
  · subst e
    simp [Sys.view, viewOf]
  · simp [Sys.view, viewOf, e]

/-- **A load or store in Ring3**, with the byte it yields. -/
theorem access (fs : FsView) (n : Slot) (a : Access)
    (hc : ¬ Pressed 1 s.mm (s.access fs n true a).2.mm) :
    ∃ b', Calm B (s.access fs n true a).2 b' ∧ Calls 1 s.mm (s.access fs n true a).2.mm ∧
      (s.access fs n true a).1 = (s.view.access fs n a).1 ∧
      (s.access fs n true a).2.view = (s.view.access fs n a).2 := by
  obtain ⟨bₑ, hₑ, hvₑ⟩ := h.exit n
  have hkₑ : Calls 1 s.mm (s.exit n).mm := (s.exit_calls n).mono (by omega)
  unfold Sys.access Eager.access at *
  cases ht : s.tk n with
  | none =>
    rw [show s.view n = none from viewOf_none ht]
    exact ⟨b, h, ⟨⟨rfl, rfl, rfl, rfl, rfl⟩, Nat.le_succ _⟩, rfl, rfl⟩
  | some t =>
    rw [show s.view n = _ from viewOf_some ht]
    simp only [ht] at hc ⊢
    cases hd : t.pgDir with
    | none =>
      have e : cpuAccess fs s.tk t (wpOf s.cr0) true a 2 s.mm = (.killed, s.mm) := by
        simp [cpuAccess, hd]
      simp only [e, map_none]
      exact ⟨bₑ, hₑ, hkₑ, trivial, hvₑ⟩
    | some d =>
      have hl := h.inv.tasks ht hd
      have hpg := h.inv.pages_eq hl
      have hcpu : ¬ Pressed 1 s.mm (cpuAccess fs s.tk t (wpOf s.cr0) true a 2 s.mm).2 := by
        generalize cpuAccess fs s.tk t (wpOf s.cr0) true a 2 s.mm = r at hc
        obtain ⟨_ | _ | _, m₁⟩ := r
        · exact hc
        · exact fun hp => hc (hp.mono (Sys.exit_calls { s with mm := m₁ } n).counts.nrReclaims.ge)
        · exact hc
      have hkept : Kept B s.tk b (cpuAccess fs s.tk t (wpOf s.cr0) true a 2 s.mm).2 :=
        h.inv.cpuAccess fs hd hl (.inl rfl) 2
      obtain ⟨b', h', hs'⟩ := hkept
      simp only [map_some, hpg]
      rcases h.inv.cpuAccess_calm fs h.plain hd hl hcpu with
        ⟨hto, e⟩ | ⟨p, m', hto, e, hw, hk⟩
      · have hto' : touched fs (t.withDir none) (s.mm.page (b.tbl d)) a.addr = none := hto
        simp only [e, hto']
        exact ⟨bₑ, hₑ, hkₑ, trivial, hvₑ⟩
      have hto' : touched fs (t.withDir none) (s.mm.page (b.tbl d)) a.addr = some p := hto
      rw [e] at h'
      obtain ⟨h₁, h₂⟩ := h.access_done ht hd h' hs' hw
      simp only [e, hto']
      exact ⟨b', h₁, hk, trivial, h₂⟩

/-- A task with a new directory fills a slot without one. -/
theorem attach (h' : Inv B s.tk m' b') (hv : s.Vacant n) (hd : t.pgDir = some d)
    (hn : d ∉ b.live) (hl : b'.live = insert d b.live) (hk : b'.kern = b.kern) (hp : Plain b' m')
    (hpages : ∀ {d₁}, d₁ ∈ b.live → m'.pages d₁ = s.mm.pages d₁) :
    Calm B { s with mm := m', tk := update s.tk n (some t), live := insert d s.live } b' ∧
      ({ s with mm := m', tk := update s.tk n (some t), live := insert d s.live } : Sys).view =
        update s.view n (some { task := t.withDir none, vm := some (m'.pages d) }) := by
  have hne : ∀ {k t'}, s.tk k = some t' → t'.pgDir ≠ some d := fun hk hd' =>
    hn (h.inv.tasks hk hd')
  refine ⟨⟨by rw [hl, h.live], hk.trans h.kern, h'.retask_task fun d' hd' => ?_, h.few, hp,
    fun {k k' t₁ t₂ d'} hk₁ hk₂ h₁ h₂ => ?_⟩, ?_⟩
  · obtain rfl : d = d' := by simpa [hd] using hd'
    rw [hl]
    exact Finset.mem_insert_self _ _
  · change update s.tk n (some t) k = some t₁ at hk₁
    change update s.tk n (some t) k' = some t₂ at hk₂
    by_cases e₁ : k = n
    · by_cases e₂ : k' = n
      · rw [e₁, e₂]
      rw [update_of_ne e₂] at hk₂
      subst e₁
      obtain rfl : t = t₁ := by simpa using hk₁
      exact absurd (h₂.trans (h₁.symm.trans hd)) (hne hk₂)
    · rw [update_of_ne e₁] at hk₁
      by_cases e₂ : k' = n
      · subst e₂
        obtain rfl : t = t₂ := by simpa using hk₂
        exact absurd (h₁.trans (h₂.symm.trans hd)) (hne hk₁)
      · rw [update_of_ne e₂] at hk₂
        exact h.apart hk₁ hk₂ h₁ h₂
  · show viewOf (update s.tk n (some t)) m'.pages = _
    have hv : viewOf s.tk m'.pages = s.view := viewOf_congr fun hk hd' => hpages (h.inv.tasks hk hd')
    rw [viewOf_update, hd, map_some, hv]

/-- The pages of the old address spaces, after a new one has been made. -/
theorem pages_kept (h' : Inv B tk m' b') (hl : b'.live = insert d b.live)
    (hm : ∀ c g, b.cells c = some g → m'.mem g = s.mm.mem g) {d₁ : Frame} (hd₁ : d₁ ∈ b.live) :
    b'.tbl d₁ = b.tbl d₁ ∧ m'.mem (b.tbl d₁) = s.mm.mem (b.tbl d₁) ∧ m'.pages d₁ = s.mm.pages d₁ := by
  have hl₁ : d₁ ∈ b'.live := by rw [hl]; exact mem_insert_of_mem hd₁
  have ht := h.inv.tbl_congr h' hd₁ hl₁ (hm _ _ (Books.cells_dir hd₁))
  refine ⟨ht, hm _ _ (Books.cells_table hd₁), ?_⟩
  rw [h'.pages_eq hl₁, h.inv.pages_eq hd₁, ht]
  funext i
  exact (h.inv.page_frame hd₁ fun g ⟨c, hc⟩ => hm c g hc.2.2).1

/-- **A new process.** -/
theorem spawn (n : Slot) (t : Task)
    (hc : ¬ Pressed 2 s.mm (step s (.spawn n t)).mm) :
    ∃ b', Calm B (step s (.spawn n t)) b' ∧ Calls 2 s.mm (step s (.spawn n t)).mm ∧
      (step s (.spawn n t)).view = s.view.step (.spawn n t) := by
  by_cases hv : s.Vacant n
  · have hany : (s.view n).any (·.vm.isSome) = false := by
      cases ht : s.tk n with
      | none => rw [show s.view n = none from viewOf_none ht]; rfl
      | some t' => rw [show s.view n = _ from viewOf_some ht, hv t' ht]; rfl
    simp only [step, if_pos hv] at hc ⊢
    have hc₁ : ¬ Pressed 2 s.mm (allocUserPgdir s.tk s.mm).2 := by
      generalize allocUserPgdir s.tk s.mm = r at hc
      obtain ⟨_ | d, m₁⟩ := r <;> exact hc
    obtain ⟨d, m', b', e, hcalls, h', hd, hl, hk, hz, hm⟩ := h.inv.alloc_pages h.few hc₁
    have hdl : d ∈ b'.live := by rw [hl]; exact mem_insert_self _ _
    have hz' : ∀ i, m'.mem (b'.tbl d) i = 0#32 := fun i => by rw [h'.mem_tbl hdl, hz]
    simp only [e]
    have hplain : Plain b' m' := by
      intro d₁ hd₁ i
      rcases mem_insert.mp (hl ▸ hd₁) with rfl | hd₁
      · rw [hz', swapped_zero]
      obtain ⟨e₁, e₂, -⟩ := h.pages_kept h' hl hm hd₁
      rw [e₁, e₂]
      exact h.plain _ hd₁ i
    obtain ⟨h₁, h₂⟩ := h.attach (t := t.withDir (some d)) h' hv rfl hd hl hk hplain
      fun hd₁ => (h.pages_kept h' hl hm hd₁).2.2
    refine ⟨b', h₁, hcalls, h₂.trans ?_⟩
    have hnone : m'.pages d = fun _ => none := by
      rw [h'.pages_eq hdl]
      funext i
      unfold Mm.page
      rw [hz', present_zero]
      rfl
    rw [hnone]
    simp only [Eager.step, hany, Bool.false_eq_true, if_false]
    rfl
  · have hany : (s.view n).any (·.vm.isSome) = true := by
      unfold Sys.Vacant at hv
      push Not at hv
      obtain ⟨t', ht, hd⟩ := hv
      obtain ⟨d, hd⟩ := ne_none_iff_exists'.mp hd
      rw [show s.view n = _ from viewOf_some ht, hd]
      rfl
    simp only [step, if_neg hv, Eager.step, hany, if_true]
    exact ⟨b, h, ⟨⟨rfl, rfl, rfl, rfl, rfl⟩, Nat.le_add_right _ _⟩, trivial⟩

/-- **Fork.** -/
theorem fork (ht : s.tk n = some t) (hn' : s.tk n' = none) (hd : t.pgDir = some d)
    (hc : ¬ Pressed 2 s.mm (s.fork n' t d).mm) :
    ∃ b', Calm B (s.fork n' t d) b' ∧ Calls 2 s.mm (s.fork n' t d).mm ∧ ((s.fork n' t d).mm.Shares d ∧ ∃ d', d' ≠ d ∧
        (s.fork n' t d).tk n' = some (t.withDir (some d')) ∧ (s.fork n' t d).mm.Twins d d') ∧
      (s.fork n' t d).view = update s.view n' (some { task := t.withDir none, vm := some (s.mm.pages d) }) := by
  have hdl := h.inv.tasks ht hd
  have hv : s.Vacant n' := fun t' h => by rw [hn'] at h; cases h
  have h₀ : Inv B (update s.tk n' (some (t.withDir none))) s.mm b := h.inv.retask_task nofun
  unfold Sys.fork at hc ⊢
  have hc₁ : ¬ Pressed 2 s.mm
      (allocUserPgdir (update s.tk n' (some (t.withDir none))) s.mm).2 := by
    intro hp
    generalize allocUserPgdir (update s.tk n' (some (t.withDir none))) s.mm = r at hc hp
    obtain ⟨_ | d', m₁⟩ := r
    · exact hc hp
    have hle := (copyPageTables_acts (update s.tk n' (some (t.withDir (some d')))) m₁ d
      d').keeps.nrReclaims
    simp only at hc hp
    generalize copyPageTables (update s.tk n' (some (t.withDir (some d')))) m₁ d d' = x
      at hc hle
    obtain ⟨_ | c, m₂⟩ := x
    · exact hc (hp.mono (hle.trans (freeUserSpace_calls m₂ d').counts.nrReclaims.ge))
    · exact hc (hp.mono hle)
  obtain ⟨d', m₁, b₁, e₁, hcl₁, h₁, hd', hl₁, hk₁, hz₁, hm₁⟩ := h₀.alloc_pages h.few hc₁
  simp only [e₁]
  have hdl₁ : d ∈ b₁.live := by rw [hl₁]; exact mem_insert_of_mem hdl
  have hdl' : d' ∈ b₁.live := by rw [hl₁]; exact mem_insert_self _ _
  have hne : d' ≠ d := fun e => hd' (e ▸ hdl)
  have hold : ∀ {d₁}, d₁ ∈ b.live → _ := fun hd₁ => h.pages_kept h₁ hl₁ hm₁ hd₁
  have hplain : Plain b₁ m₁ := by
    intro d₁ hd₁ i
    rcases mem_insert.mp (hl₁ ▸ hd₁) with rfl | hd₁
    · rw [h₁.mem_tbl hdl', hz₁, swapped_zero]
    obtain ⟨e₁, e₂, -⟩ := hold hd₁
    rw [e₁, e₂]
    exact h.plain _ hd₁ i
  have h₁' : Inv B (update s.tk n' (some (t.withDir (some d')))) m₁ b₁ := by
    have := h₁.retask_task (n := n') (t := t.withDir (some d')) fun _ hd => some.inj hd ▸ hdl'
    rwa [update_idem] at this
  obtain ⟨c, m₂, e₂, hcl₂, hpl₂, hp₂, ho₂, hcow₂⟩ := h₁'.copy_pages hdl₁ hdl' hne hplain hz₁
  obtain ⟨b₂, h₂, hs₂⟩ := h₁'.copyPageTables hdl₁ hdl' hne hz₁
  rw [e₂] at h₂
  simp only [e₂]
  have hl₂ : ∀ {d₁}, d₁ ∈ b₁.live → m₂.pages d₁ = m₂.page (b₁.tbl d₁) := fun hd₁ => by
    rw [h₂.pages_eq (hs₂.live.symm ▸ hd₁), hs₂.tbl]
  have h₂s : Inv B s.tk m₂ b₂ := h₂.retask fun hn hd => by
    rw [hs₂.live, hl₁]
    exact mem_insert_of_mem (h.inv.tasks hn hd)
  have hplain₂ : Plain b₂ m₂ := by
    intro d₁ hd₁ i
    rw [hs₂.tbl]
    exact hpl₂ d₁ (hs₂.live ▸ hd₁) i
  obtain ⟨h₃, hv₃⟩ := h.attach (t := t.withDir (some d')) h₂s hv rfl hd' (hs₂.live.trans hl₁)
    (hs₂.kern.trans hk₁) hplain₂ fun {d₁} hd₁ => by
      have hd₁' : d₁ ∈ b₁.live := by rw [hl₁]; exact mem_insert_of_mem hd₁
      rw [← (hold hd₁).2.2, hl₂ hd₁', h₁.pages_eq hd₁']
      funext i
      exact ho₂ hd₁' (fun e => hd' (e ▸ hd₁)) i
  have hpt₂ : ∀ {d₁ pt}, d₁ ∈ b₁.live → m₂.userPt (some d₁) = some pt → b₁.tbl d₁ = pt := by
    intro d₁ pt hd₁ hpt
    rw [← hs₂.tbl, h₂.tbl_eq (hs₂.live.symm ▸ hd₁) hpt]
  have hboth : ∀ {pt i}, m₂.userPt (some d) = some pt → present (m₂.mem pt i) = true →
      cow (m₂.mem pt i) = true ∧ m₂.mem (b₁.tbl d') i = m₂.mem pt i := by
    intro pt i hpt hp
    obtain rfl := hpt₂ hdl₁ hpt
    refine hcow₂ i ?_
    rw [← Mm.page_isSome, ← ho₂ hdl₁ hne.symm i, Mm.page_isSome, hp]
  have htwins : m₂.Twins d d' := by
    intro pt pt' i hpt hpt' hp
    obtain rfl := hpt₂ hdl' hpt'
    exact (hboth hpt hp).2
  refine ⟨b₂, h₃, hcl₁.trans hcl₂,
    ⟨fun pt i hpt hp => (hboth hpt hp).1, d', hne, update_self _ _ _, htwins⟩, hv₃.trans ?_⟩
  have hpages : m₂.pages d' = s.mm.pages d := by
    rw [← (hold hdl).2.2, hl₂ hdl', h₁.pages_eq hdl₁]
    funext i
    exact hp₂ i
  rw [hpages]
  rfl

end

/-! ### Steps and runs -/

end Calm

/-- What a process does in Ring3, and what kernel owners of pages do.  A slot is emptied when its task
is reaped. -/
def Op.Ring3 : Op → Prop
  | .access _ _ user _ => user = true
  | .setTask _ t => t = none
  | .spawn .. | .fork .. | .exit _ | .kget | .kfree _ | .kwrite .. => True
  | _ => False

/-- What an operation yields to the process: the byte of a load or store. -/
def Sys.outcome (s : Sys) : Op → Option Outcome
  | .access fs n user a => some (s.access fs n user a).1
  | _ => none

def Eager.outcome (e : Eager) : Op → Option Outcome
  | .access fs n _ a => some (e.access fs n a).1
  | _ => none

/-- **One operation of the system is one operation of the eager machine.** -/
protected theorem Calm.step {op : Op} (h : Calm B s b) (hop : op.Ring3)
    (hc : ¬ Pressed 2 s.mm (step s op).mm) :
    ∃ b', Calm B (step s op) b' ∧ Calls 2 s.mm (step s op).mm ∧
      (step s op).view = s.view.step op ∧ s.outcome op = s.view.outcome op := by
  have hsame : Calls 2 s.mm s.mm := ⟨⟨rfl, rfl, rfl, rfl, rfl⟩, Nat.le_add_right _ _⟩
  cases op with
  | create | copy | free | reclaim => exact hop.elim
  | setTask n t =>
    obtain rfl : t = none := hop
    obtain ⟨h', hv⟩ := h.reap n
    have e : step s (.setTask n none) = { s with tk := update s.tk n none } := by simp [step]
    rw [e]
    exact ⟨b, h', hsame, hv, rfl⟩
  | access fs n user a =>
    obtain rfl : user = true := hop
    obtain ⟨b', h', hk, ho, hv⟩ := h.access fs n a fun hp => hc ⟨hp.1.trans (by omega), hp.2⟩
    exact ⟨b', h', hk.mono (by omega), hv, congrArg some ho⟩
  | spawn n t =>
    obtain ⟨b', h', hk, hv⟩ := h.spawn n t hc
    exact ⟨b', h', hk, hv, rfl⟩
  | fork n n' =>
    simp only [step, Eager.step, Eager.fork] at hc ⊢
    cases ht : s.tk n with
    | none =>
      rw [show s.view n = none from viewOf_none ht]
      exact ⟨b, h, hsame, rfl, rfl⟩
    | some t =>
      rw [show s.view n = _ from viewOf_some ht]
      cases ht' : s.tk n' with
      | some t' =>
        rw [show s.view n' = _ from viewOf_some ht']
        exact ⟨b, h, hsame, rfl, rfl⟩
      | none =>
        rw [show s.view n' = none from viewOf_none ht']
        cases hd : t.pgDir with
        | none =>
          simp only [hd]
          exact ⟨b, h, hsame, rfl, rfl⟩
        | some d =>
          simp only [ht, ht', hd] at hc ⊢
          obtain ⟨b', h', hk, -, hv⟩ := h.fork ht ht' hd hc
          exact ⟨b', h', hk, by simpa using hv, rfl⟩
  | exit n =>
    obtain ⟨b', h', hv⟩ := h.exit n
    exact ⟨b', h', (s.exit_calls n).mono (by omega), hv, rfl⟩
  | kget =>
    rcases getFreePage_cases s.tk s.mm with ⟨f, hf, e⟩ | hlt
    · simp only [step, e]
      have hm : ∀ g, (∃ c, (∀ f, c ≠ .kern f) ∧ b.cells c = some g) → (s.mm.takeFrame f).mem g = s.mm.mem g := by
        rintro g ⟨c, -, hg⟩
        have eg : g ≠ f := fun eg => h.inv.take_fresh hf c (eg ▸ hg)
        exact update_of_ne eg _ _
      obtain ⟨h', hv⟩ := h.of_mem (h.inv.take hf) rfl rfl (k := insert f s.kern)
        (by rw [← h.kern]; rfl) hm
      exact ⟨_, h', (Calls.take f).mono (by omega), hv, rfl⟩
    · have hp : Pressed 2 s.mm (getFreePage s.tk s.mm).2 := ⟨hlt.1.trans (by omega), hlt.2⟩
      simp only [step] at hc
      generalize getFreePage s.tk s.mm = r at hc hp
      obtain ⟨_ | f, m₁⟩ := r <;> exact absurd hp hc
  | kfree f =>
    simp only [step]
    split
    · next hf =>
      obtain ⟨h', hv⟩ := h.of_mem (h.inv.release (h.kern ▸ hf)) rfl rfl (k := s.kern.erase f)
        (by rw [← h.kern]; rfl) fun g _ => by rw [Mm.freePage_mem]
      exact ⟨_, h', hsame.then_free _, hv, rfl⟩
    · exact ⟨b, h, hsame, rfl, rfl⟩
  | kwrite f p =>
    simp only [step]
    split
    · next hf =>
      have hf' := Books.cells_kern (h.kern ▸ hf)
      have hm : ∀ g, (∃ c, (∀ f, c ≠ .kern f) ∧ b.cells c = some g) → (s.mm.setPage f p).mem g = s.mm.mem g := by
        rintro g ⟨c, hc, hg⟩
        exact Mm.setPage_of_ne fun eg =>
          hc f (h.inv.accounts.sole (by trivial) hf' (eg ▸ hg))
      obtain ⟨h', hv⟩ := h.of_mem (h.inv.setPage (h.inv.data_kern (h.kern ▸ hf))) rfl rfl h.kern hm
      exact ⟨b, h', hsame.then_eq ⟨rfl, rfl, rfl, rfl, rfl⟩ rfl, hv, rfl⟩
    · exact ⟨b, h, hsame, rfl, rfl⟩

/-- What the operations of a run yield, one after the other. -/
def Sys.trace (s : Sys) : List Op → List (Option Outcome)
  | [] => []
  | op :: ops => s.outcome op :: (step s op).trace ops

def Eager.trace (e : Eager) : List Op → List (Option Outcome)
  | [] => []
  | op :: ops => e.outcome op :: (e.step op).trace ops

/-- In no step of the run does `get_free_page` have to reclaim. -/
def Unpressed (s : Sys) : List Op → Prop
  | [] => True
  | op :: ops => (step s op).mm.nrReclaims = s.mm.nrReclaims ∧ Unpressed (step s op) ops

protected theorem Calm.run {ops : List Op} (h : Calm B s b) (hops : ∀ op ∈ ops, op.Ring3)
    (hu : Unpressed s ops) :
    ∃ b', Calm B (run s ops) b' ∧ Calls (2 * ops.length) s.mm (run s ops).mm ∧
      (run s ops).view = ops.foldl Eager.step s.view ∧ s.trace ops = s.view.trace ops := by
  induction ops generalizing s b with
  | nil => exact ⟨b, h, ⟨⟨rfl, rfl, rfl, rfl, rfl⟩, le_rfl⟩, rfl, rfl⟩
  | cons op ops ih =>
    obtain ⟨hop, hops⟩ := List.forall_mem_cons.mp hops
    obtain ⟨b₁, h₁, hk, hv, ho⟩ := h.step hop fun hp => hp.2.ne' hu.1
    obtain ⟨b₂, h₂, hk₂, hv₂, ht₂⟩ := ih h₁ hops hu.2
    rw [hv] at hv₂ ht₂
    refine ⟨b₂, h₂, (hk.trans hk₂).mono ?_, hv₂, by rw [Sys.trace, Eager.trace, ho, ht₂]⟩
    rw [List.length_cons]
    omega

/-- An operation takes at most two frames. -/
theorem Calm.unpressed (h : Calm B s b) (hops : ∀ op ∈ ops, op.Ring3)
    (hroom : 2 * ops.length ≤ s.mm.countFreePages) : Unpressed s ops := by
  induction ops generalizing s b with
  | nil => trivial
  | cons op ops ih =>
    rw [List.length_cons] at hroom
    obtain ⟨hop, hops⟩ := List.forall_mem_cons.mp hops
    obtain ⟨b₁, h₁, hk, -⟩ := h.step hop fun hp => by
      have := hp.1
      omega
    refine ⟨hk.counts.nrReclaims, ih h₁ hops ?_⟩
    have := hk.room
    omega

theorem Booted.calm (h : Booted s) : ∃ b, Calm (h.start False) s b := by
  obtain ⟨b, hl, hk, hi⟩ := h.inv False
  refine ⟨b, hl, hk, hi, id, fun d hd => ?_, fun hn _ hd => ?_⟩
  · rw [hl, h.live] at hd
    exact absurd hd (notMem_empty _)
  · rw [h.tasks hn] at hd
    cases hd

/-- A short run of the machine, and what its processes see. -/
theorem machine_run (hops : ∀ op ∈ ops, op.Ring3) (hlen : 2 * ops.length ≤ 3000) :
    ∃ b, Calm (machine_booted.start False) (run machine ops) b ∧
      Calls (2 * ops.length) machine.mm (run machine ops).mm ∧
      (run machine ops).view = ops.foldl Eager.step machine.view := by
  obtain ⟨b₀, h₀⟩ := machine_booted.calm
  obtain ⟨b, h, hk, hv, -⟩ := h₀.run hops (h₀.unpressed hops (hlen.trans machine_room))
  exact ⟨b, h, hk, hv⟩

/-- An entry that may be written is the only one that maps its frame. -/
theorem Inv.writable_sole (h : Inv B s.tk s.mm b) {pt : Frame} {i' : Ix} (hd : d ∈ b.live)
    (hd' : d' ∈ b.live) (hpt : s.mm.userPt (some d) = some pt)
    (hw : writable (s.mm.mem pt i) = true) (hm : s.maps d i f = true)
    (hm' : s.maps d' i' f = true) : d' = d ∧ i' = i := by
  obtain rfl := h.tbl_eq hd hpt
  unfold Sys.maps at hm
  simp only [h.userPt_eq hd, Bool.and_eq_true, decide_eq_true_eq] at hm
  rw [h.mem_tbl hd] at hm hw
  have hc : cow (b.pte d i) = false := by
    have := (h.mapped hd hm.1).rw
    rw [hw] at this
    simpa using this.symm
  refine h.entries.own hd hm.1 hc ?_
  rw [h.maps_hold hd' hm', hm.2]

/-- **Copy-on-write fork is an eager copy.**  In every run from a booted machine in which no step
has to reclaim, every load and store yields what it yields if fork copies every page at once, and
in the end every process has the pages it then has.  An entry with `PTE_RW` set is the only one
that maps its frame. -/
theorem cow_is_eager_copy {s₀ : Sys} (h₀ : Booted s₀) (ops : List Op)
    (hops : ∀ op ∈ ops, op.Ring3) (hu : Unpressed s₀ ops) :
    s₀.trace ops = s₀.view.trace ops ∧ (run s₀ ops).view = ops.foldl Eager.step s₀.view ∧
      ∀ d ∈ (run s₀ ops).live, ∀ d' ∈ (run s₀ ops).live, ∀ pt i i' f, (run s₀ ops).mm.userPt (some d) = some pt →
        writable ((run s₀ ops).mm.mem pt i) = true →
        (run s₀ ops).maps d i f = true → (run s₀ ops).maps d' i' f = true → d' = d ∧ i' = i := by
  obtain ⟨b, h⟩ := h₀.calm
  obtain ⟨b', h', -, hv, ht⟩ := h.run hops hu
  exact ⟨ht, hv, fun d hd d' hd' pt i i' f hpt hw hm hm' =>
    h'.inv.writable_sole (h'.live ▸ hd) (h'.live ▸ hd') hpt hw hm hm'⟩

/-- A process and the child it forks store to the same address; the child exits and is reaped, and a
second child in its slot sees what the process has. -/
def storeForkStore : List Op :=
  [.spawn 1 {}, .access noFiles 1 true (.store userHeapStart 0x41#8), .fork 1 2,
    .access noFiles 2 true (.store userHeapStart 0x42#8),
    .access noFiles 1 true (.load userHeapStart), .access noFiles 2 true (.load userHeapStart),
    .exit 2, .setTask 2 none, .fork 1 2, .access noFiles 2 true (.load userHeapStart)]

theorem storeForkStore_trace : machine.trace storeForkStore =
    [none, some (.done 0x41#8), none, some (.done 0x42#8), some (.done 0x41#8), some (.done 0x42#8),
      none, none, none, some (.done 0x41#8)] := by
  obtain ⟨b, hb⟩ := machine_booted.calm
  have hops : ∀ op ∈ storeForkStore, op.Ring3 := by simp [storeForkStore, Op.Ring3]
  have hroom : 2 * storeForkStore.length ≤ machine.mm.countFreePages :=
    le_trans (by decide) machine_room
  rw [(cow_is_eager_copy machine_booted storeForkStore hops (hb.unpressed hops hroom)).1]
  rfl

end Linux001

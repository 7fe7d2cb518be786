import Linux001.Kernel.Execve
import Linux001.Mm.Whole

/-!
# Kernel — a failed `sys_fork()`

`sys_fork()` with its references: the child begins as a copy of the parent's `task_struct` and takes
a hold on everything the copy points to, and the `fail` path gives some of it back.  It gives back
neither the executable nor the open files, and when the task page is too small it takes the copied
`pg_dir` for the child's and frees the parent's address space.  What a failed call leaves is the
state before it exactly if none of this can happen (`fork_failed_iff`).  The check of the task page
leaves out the frame that is built below the copied stack (`child_stack_fits_iff`).

The contents of the frame, the child's pid and its signal state are left out.
-/

namespace Linux001

open Function List

/-! ### References -/

/-- The inodes and open files, with `tty_file.f_count`. -/
structure Refs where
  s : Tables
  tty : BitVec 16

/-- The count of a file. -/
def Refs.count (r : Refs) : FileRef → BitVec 16
  | .tty => r.tty
  | .slot i => (r.s.file i).fCount

/-- `if (e) e->i_count++`. -/
def Refs.hold (r : Refs) : Option InodeRef → Refs
  | none => r
  | some e => { r with s := r.s.hold e }

/-- `if (e) e->i_count--`. -/
def Refs.drop (r : Refs) : Option InodeRef → Refs
  | none => r
  | some e => { r with s := r.s.drop e }

/-- `if (p->filp[fd]) p->filp[fd]->f_count++`. -/
def Refs.holdFile (t : Task) (r : Refs) (fd : Fin 64) : Refs :=
  match t.filp fd with
  | none => r
  | some .tty => { r with tty := r.tty + 1#16 }
  | some (.slot i) =>
    { r with
      s := { r.s with
        file := update r.s.file i { r.s.file i with fCount := (r.s.file i).fCount + 1#16 } } }

/-- What the child takes. -/
def Refs.share (r : Refs) (t : Task) : Refs :=
  (List.finRange 64).foldl (Refs.holdFile t) (((r.hold t.pwd).hold t.root).hold t.exeInode)

/-- What `fail` gives back. -/
def Refs.unshare (r : Refs) (t : Task) : Refs := (r.drop t.pwd).drop t.root

/-! ### The call -/

/-- `sizeof(struct task_struct)`. -/
def taskStructSize : ℤ := 712

/-- The live kernel stack of the parent, from above the frame at `syscall_esp` to its top. -/
def liveStack (t : Task) (ring3 : Bool) (syscallEsp : Word) : ℤ :=
  (t.tss.esp0 - (syscallEsp + if ring3 then 20#32 else 12#32)).toInt

/-- The guard: the stack fits the task page, above the `task_struct`. -/
def stackFits (t : Task) (ring3 : Bool) (syscallEsp : Word) : Bool :=
  0 ≤ liveStack t ring3 syscallEsp ∧ taskStructSize + liveStack t ring3 syscallEsp ≤ pageSize

/-- The first free slot of `task[]`. -/
def freeTask (tk : TaskTable) : Option Slot := (List.finRange 64).find? fun n => (tk n).isNone

/-- `fail`, from `task[nr] = NULL` on: the task page `p` goes back. -/
def Sys.giveBack (s : Sys) (p : Frame) : Sys :=
  { s with mm := s.mm.freePage (frameAddr p), kern := s.kern.erase p }

/-- **`sys_fork`** by the task `t`.  `none` for `-1`. -/
def sysFork (t : Task) (ring3 : Bool) (syscallEsp : Word) (s : Sys) (r : Refs) :
    Option Slot × Sys × Refs :=
  match getFreePage s.tk s.mm with
  | (none, m₁) => (none, { s with mm := m₁ }, r)
  | (some p, m₁) =>
    match freeTask s.tk with
    | none => (none, { s with mm := m₁.freePage (frameAddr p) }, r)
    | some n' =>
      -- slot 0 counts as none, but it has been filled
      if n' = 0 then
        (none, { s with mm := m₁.freePage (frameAddr p), tk := update s.tk 0 (some {}) }, r)
      else
        let s₁ : Sys := { s with mm := m₁, kern := insert p s.kern }
        if stackFits t ring3 syscallEsp = false then
          -- `p->pg_dir` is still the parent's
          let s₂ := match t.pgDir with
            | none => s₁
            | some d => { s₁ with mm := freeUserSpace m₁ d }
          (none, s₂.giveBack p, (r.share t).unshare t)
        else
          match t.pgDir, ring3 with
          | some d, true =>
            let s₂ := s₁.fork n' t d
            match s₂.tk n' with
            | none => (none, s₂.giveBack p, (r.share t).unshare t)
            | some _ => (some n', s₂, r.share t)
          | _, _ =>
            (some n', { s₁ with tk := update s.tk n' (some (t.withDir none)) }, r.share t)

/-! ### The references of a failed call -/

section
variable {t : Task} {r : Refs} {x : InodeRef} {o : Option InodeRef}

theorem hold_iCount_opt (r : Refs) (o : Option InodeRef) (x : InodeRef) :
    ((r.hold o).s.inode x).iCount = (r.s.inode x).iCount + if o = some x then 1#8 else 0#8 := by
  cases o with
  | none => simp [Refs.hold]
  | some e =>
    show ((r.s.hold e).inode x).iCount = _
    rw [hold_iCount]
    by_cases hx : x = e
    · simp [hx]
    · simp [hx, Ne.symm hx]

theorem drop_iCount_opt (r : Refs) (o : Option InodeRef) (x : InodeRef) :
    ((r.drop o).s.inode x).iCount = (r.s.inode x).iCount - if o = some x then 1#8 else 0#8 := by
  cases o with
  | none => simp [Refs.drop]
  | some e =>
    show ((r.s.drop e).inode x).iCount = _
    rw [drop_iCount]
    by_cases hx : x = e
    · simp [hx]
    · simp [hx, Ne.symm hx]

theorem holdFile_inode (t : Task) (r : Refs) (fd : Fin 64) :
    (r.holdFile t fd).s.inode = r.s.inode := by
  unfold Refs.holdFile
  split <;> rfl

theorem holdFile_count (t : Task) (r : Refs) (fd : Fin 64) (x : FileRef) :
    (r.holdFile t fd).count x = r.count x + if t.filp fd = some x then 1#16 else 0#16 := by
  unfold Refs.holdFile
  cases hf : t.filp fd with
  | none => simp
  | some y =>
    cases y with
    | tty => cases x <;> simp [Refs.count]
    | slot i =>
      cases x with
      | tty => simp [Refs.count]
      | slot j =>
        by_cases hj : j = i
        · simp [Refs.count, hj]
        · simp [Refs.count, hj, Ne.symm hj]

/-- The loop over the descriptors. -/
theorem holdFiles (t : Task) (l : List (Fin 64)) (r : Refs) :
    (l.foldl (Refs.holdFile t) r).s.inode = r.s.inode ∧
    ∀ x, (l.foldl (Refs.holdFile t) r).count x =
      r.count x + BitVec.ofNat 16 (l.countP fun fd => t.filp fd = some x) := by
  induction l generalizing r with
  | nil => exact ⟨rfl, fun x => by simp⟩
  | cons fd l ih =>
    obtain ⟨h₁, h₂⟩ := ih (r.holdFile t fd)
    refine ⟨h₁.trans (holdFile_inode t r fd), fun x => ?_⟩
    rw [foldl_cons, h₂, holdFile_count, countP_cons]
    by_cases hx : t.filp fd = some x
    · rw [if_pos hx, if_pos (by simpa using hx), BitVec.ofNat_add, BitVec.add_assoc, BitVec.add_comm 1#16]
    · simp [hx]

/-- The executable keeps the child's hold. -/
theorem unshare_iCount (r : Refs) (t : Task) (x : InodeRef) :
    ((((r.share t).unshare t)).s.inode x).iCount =
      (r.s.inode x).iCount + if t.exeInode = some x then 1#8 else 0#8 := by
  unfold Refs.unshare Refs.share
  rw [drop_iCount_opt, drop_iCount_opt, (holdFiles t _ _).1, hold_iCount_opt, hold_iCount_opt, hold_iCount_opt]
  split_ifs <;> bv_omega

/-- The files keep the child's holds. -/
theorem unshare_count (r : Refs) (t : Task) (x : FileRef) :
    ((r.share t).unshare t).count x =
      r.count x + BitVec.ofNat 16 ((List.finRange 64).countP fun fd => t.filp fd = some x) := by
  have hdrop : ∀ (r : Refs) o, (r.drop o).count x = r.count x := fun r o => by
    cases o <;> cases x <;> rfl
  have hhold : ∀ (r : Refs) o, (r.hold o).count x = r.count x := fun r o => by
    cases o <;> cases x <;> rfl
  unfold Refs.unshare Refs.share
  rw [hdrop, hdrop, (holdFiles t _ _).2, hhold, hhold, hhold]

/-- The counts are back exactly if there was nothing to give back that `fail` forgets. -/
theorem unshare_same_iff (r : Refs) (t : Task) :
    ((∀ x, ((r.share t).unshare t).count x = r.count x) ∧
      ∀ x, (((r.share t).unshare t).s.inode x).iCount = (r.s.inode x).iCount) ↔
    t.exeInode = none ∧ ∀ fd, t.filp fd = none := by
  constructor
  · rintro ⟨hf, hi⟩
    constructor
    · cases he : t.exeInode with
      | none => rfl
      | some e =>
        have := hi e
        rw [unshare_iCount, he, if_pos rfl] at this
        exact absurd this (by bv_omega)
    intro fd
    cases hfd : t.filp fd with
    | none => rfl
    | some x =>
      have := hf x
      rw [unshare_count] at this
      have hpos : 0 < (finRange 64).countP fun fd => decide (t.filp fd = some x) :=
        countP_pos_iff.mpr ⟨fd, mem_finRange fd, by simpa using hfd⟩
      have hle : ((finRange 64).countP fun fd => decide (t.filp fd = some x)) ≤ 64 :=
        (countP_le_length).trans (by simp)
      generalize ((finRange 64).countP fun fd => decide (t.filp fd = some x)) = k
        at this hpos hle
      exact absurd this (by bv_omega)
  · rintro ⟨he, hf⟩
    refine ⟨fun x => ?_, fun x => ?_⟩
    · rw [unshare_count, countP_eq_zero.mpr fun fd _ => by simp [hf fd]]
      simp
    · rw [unshare_iCount, he]
      simp

end

/-! ### The memory of a failed call -/

section
variable {B : Boot} {s s₂ : Sys} {t : Task} {r r' : Refs} {p d pt : Frame} {n n' : Slot} {ring3 : Bool}
variable {esp : Word}

theorem SysInv.giveBack (h : SysInv B s) (hp : p ∈ s.kern) : SysInv B (s.giveBack p) := by
  obtain ⟨b, hl, hk, hi⟩ := h
  refine ⟨b.dropKern p, hl, ?_, hi.release (hk ▸ hp)⟩
  show b.kern.erase p = s.kern.erase p
  rw [hk]

theorem freeUserSpace_userPt (m : Mm) (d : Frame) : (freeUserSpace m d).userPt (some d) = none := by
  have hmem : (freeUserSpace m d).mem = (freePageTables m d).mem := Mm.freePage_mem _
  simp only [Mm.userPt, hmem]
  unfold freePageTables
  cases hpt : m.userPt (some d) with
  | none =>
    exact hpt
  | some pt =>
    rw [Mm.setWord_same, present_zero]
    rfl

/-- The state is the one before the call, up to what the reclaimer does: `task[]`, the counts of files
and inodes, who owns which frames, and the parent's address space.  `mem_map[]` counts the owners and
nothing else, unless the reclaimer has ever emptied a copy-on-write mapping. -/
structure ForkUndone (u : ℕ) (t : Task) (s : Sys) (r : Refs) (s' : Sys) (r' : Refs) : Prop where
  tasks : s'.tk = s.tk
  file : ∀ x, r'.count x = r.count x
  inode : ∀ x, (r'.s.inode x).iCount = (r.s.inode x).iCount
  live : s'.live = s.live
  kern : s'.kern = s.kern
  space : ∀ d pt, t.pgDir = some d → s.mm.userPt (some d) = some pt → Whole d pt s.mm s'.mm
  counts : s'.mm.nrUnmapped = u → ∀ f, s'.mm.memMap f < used →
    s'.mm.memMap f = s'.mappings f + if s'.InUse f then 1 else 0

/-- The task page goes back, from a state in which nothing else is missing. -/
theorem ForkUndone.giveBack (h₂ : SysInv B s₂) (ht : s₂.tk = s.tk) (hl : s₂.live = s.live)
    (hk : s₂.kern = insert p s.kern) (hp : p ∉ s.kern)
    (hw : ∀ d pt, t.pgDir = some d → s.mm.userPt (some d) = some pt → Whole d pt s.mm s₂.mm)
    (hf : ∀ x, r'.count x = r.count x) (hi : ∀ x, (r'.s.inode x).iCount = (r.s.inode x).iCount) :
    ForkUndone B.nrUnmapped t s r (s₂.giveBack p) r' where
  tasks := ht
  file := hf
  inode := hi
  live := hl
  kern := by
    show s₂.kern.erase p = s.kern
    rw [hk, Finset.erase_insert hp]
  space d pt hd hpt := (hw d pt hd hpt).trans
    (.of_mem (fun g _ => congrFun (Mm.freePage_mem _) g) (Mm.freePage_wentOut _)
      (Mm.freePage_nrReclaims _))
  counts hu f hlt :=
    (h₂.giveBack (by rw [hk]; exact Finset.mem_insert_self _ _)).owners_eq hu hlt

/-- **A `sys_fork` that fails after it has claimed a slot leaves the state before the call, exactly if
the parent has no executable and no open file, and the task page was large enough or the parent has
no address space.** -/
theorem fork_failed_iff {s₀ : Sys} (h₀ : Booted s₀) (ops : List Op) (r : Refs)
    (ht : (run s₀ ops).tk n = some t)
    (hpage : (getFreePage (run s₀ ops).tk (run s₀ ops).mm).1.isSome = true)
    (hslot : freeTask (run s₀ ops).tk = some n') (hn' : n' ≠ 0)
    (hfail : (sysFork t ring3 esp (run s₀ ops) r).1 = none) :
    ForkUndone s₀.mm.nrUnmapped t (run s₀ ops) r (sysFork t ring3 esp (run s₀ ops) r).2.1
      (sysFork t ring3 esp (run s₀ ops) r).2.2 ↔
    t.exeInode = none ∧ (∀ fd, t.filp fd = none) ∧ (stackFits t ring3 esp = true ∨ t.pgDir = none) := by
  have hinv := (h₀.inv False).run ops False.elim
  generalize run s₀ ops = s at hinv ht hpage hslot hfail ⊢
  obtain ⟨b, hl, hk, hi⟩ := id hinv
  -- the task page
  obtain ⟨m₁, b₁, -, hd₁, e | ⟨p, e, -, hi₁, hfree⟩⟩ := hi.getFreePage
  · rw [e] at hpage
    cases hpage
  have hpk : p ∉ s.kern := fun h => hfree (.kern p) (Books.cells_kern (by
    rw [hd₁.spaces.kern, hk]
    exact h))
  have hw₁ : ∀ d pt, t.pgDir = some d → s.mm.userPt (some d) = some pt →
      Whole d pt s.mm (m₁.takeFrame p) := fun d pt hd hpt => by
    have hdl := hi.tasks ht hd
    rw [hi.userPt_eq hdl] at hpt
    obtain rfl := Option.some.inj hpt
    have := hi.getFreePage_whole hdl
    rwa [e] at this
  generalize m₁.takeFrame p = m₁ at e hi₁ hw₁
  have hinv₁ : SysInv (h₀.start False) { s with mm := m₁, kern := insert p s.kern } := by
    have := hinv.kget
    simpa only [step, e] using this
  unfold sysFork at hfail ⊢
  simp only [e, hslot, if_neg hn'] at hfail ⊢
  by_cases hfit : stackFits t ring3 esp = false
  · rw [if_pos hfit]
    rw [hfit]
    cases hd : t.pgDir with
    | none =>
      simp only
      refine ⟨fun h => ?_, fun h => ?_⟩
      · obtain ⟨he, hfd⟩ := (unshare_same_iff r t).mp ⟨h.file, h.inode⟩
        exact ⟨he, hfd, .inr trivial⟩
      · obtain ⟨he, hfd, -⟩ := h
        obtain ⟨hfile, hino⟩ := (unshare_same_iff r t).mpr ⟨he, hfd⟩
        exact ForkUndone.giveBack hinv₁ rfl rfl rfl hpk hw₁ hfile hino
    | some d =>
      refine ⟨fun h => ?_, fun h => by simp at h⟩
      -- the parent's own directory has been freed
      have hpt := hi.userPt_eq (hi.tasks ht hd)
      have huser := (h.space d _ hd hpt).userPt
      have hnone : ((freeUserSpace m₁ d).freePage (frameAddr p)).userPt (some d) = none := by
        rw [← freeUserSpace_userPt m₁ d]
        simp only [Mm.userPt, Mm.freePage_mem]
      rw [hpt] at huser
      exact absurd (hnone.symm.trans huser) (by simp)
  rw [if_neg hfit] at hfail ⊢
  cases hd : t.pgDir with
  | none =>
    rw [hd] at hfail
    simp at hfail
  | some d =>
    cases ring3 with
    | false =>
      rw [hd] at hfail
      simp at hfail
    | true =>
      rw [hd] at hfail
      simp only at hfail ⊢
      have hinv₂ : SysInv (h₀.start False)
          (Sys.fork { s with mm := m₁, kern := insert p s.kern } n' t d) :=
        hinv₁.fork False.elim ht hd
      have hw₂ : ∀ d' pt, t.pgDir = some d' → s.mm.userPt (some d') = some pt → Whole d' pt s.mm
          (Sys.fork { s with mm := m₁, kern := insert p s.kern } n' t d).mm := by
        intro d' pt hd' hpt
        obtain rfl : d = d' := by simpa [hd] using hd'
        have hw := hw₁ d pt hd hpt
        exact hw.trans (hinv₁.fork_whole False.elim ht hd (hw.userPt.trans hpt))
      cases hslot₂ : (Sys.fork { s with mm := m₁, kern := insert p s.kern } n' t d).tk n' with
      | some t' =>
        rw [hslot₂] at hfail
        cases hfail
      | none =>
        simp only
        obtain ⟨m₂, e₂⟩ := Sys.fork_failed hslot₂
        rw [e₂] at hinv₂ hw₂ ⊢
        refine ⟨fun h => ?_, fun h => ?_⟩
        · obtain ⟨he, hfd⟩ := (unshare_same_iff r t).mp ⟨h.file, h.inode⟩
          exact ⟨he, hfd, .inl (by simpa using hfit)⟩
        · obtain ⟨he, hfd, -⟩ := h
          obtain ⟨hfile, hino⟩ := (unshare_same_iff r t).mpr ⟨he, hfd⟩
          exact ForkUndone.giveBack hinv₂ rfl rfl rfl hpk hw₂ hfile hino

end

/-! ### A call that costs the parent its memory -/

/-- The initial task has nothing that could be lost. -/
theorem init_fork_undone : ∃ t, machine.tk 0 = some t ∧
    ForkUndone machine.mm.nrUnmapped t machine ⟨⟨fun _ => {}, fun _ => {}⟩, 1#16⟩
      (sysFork t false 0#32 machine ⟨⟨fun _ => {}, fun _ => {}⟩, 1#16⟩).2.1
      (sysFork t false 0#32 machine ⟨⟨fun _ => {}, fun _ => {}⟩, 1#16⟩).2.2 := by
  have hslot : freeTask machine.tk = some 1 := by decide
  obtain ⟨p, m₁, e⟩ : ∃ p m₁, getFreePage machine.tk machine.mm = (some p, m₁) := by
    rcases getFreePage_cases machine.tk machine.mm with ⟨f, -, e⟩ | hp
    · exact ⟨f, _, e⟩
    have := hp.1
    have := machine_room
    omega
  have hfit : stackFits {} false 0#32 = false := by decide
  refine ⟨{}, rfl, (fork_failed_iff (n := 0) machine_booted [] _ rfl ?_ hslot (by decide) ?_).mpr
    ⟨rfl, fun _ => rfl, .inr rfl⟩⟩
  · show (getFreePage machine.tk machine.mm).1.isSome = true
    rw [e]
    rfl
  · show (sysFork {} false 0#32 machine _).1 = none
    unfold sysFork
    simp only [e, hslot, if_neg (show (1 : Slot) ≠ 0 by decide), if_pos hfit]

/-- A task with the console open whose kernel stack starts two pages up. -/
def deepTask : Task :=
  { tss := { esp0 := 0x2000#32 }, filp := fun fd => if fd = 0 then some .tty else none }

/-- **The call fails, and the parent's address space is gone**: the parent still has the directory, and
there is no page table in it any more.  The console has one user too many. -/
theorem fork_frees_parent : ∃ t d pt, (run machine [.spawn 1 deepTask]).tk 1 = some t ∧
    t.pgDir = some d ∧ (run machine [.spawn 1 deepTask]).mm.userPt (some d) = some pt ∧
    (sysFork t true 0#32 (run machine [.spawn 1 deepTask]) ⟨⟨fun _ => {}, fun _ => {}⟩, 1#16⟩).1 = none ∧
    (sysFork t true 0#32 (run machine [.spawn 1 deepTask]) ⟨⟨fun _ => {}, fun _ => {}⟩, 1#16⟩).2.1.tk 1 = some t ∧
    (sysFork t true 0#32 (run machine [.spawn 1 deepTask])
      ⟨⟨fun _ => {}, fun _ => {}⟩, 1#16⟩).2.1.mm.userPt (some d) = none ∧
    (sysFork t true 0#32 (run machine [.spawn 1 deepTask])
      ⟨⟨fun _ => {}, fun _ => {}⟩, 1#16⟩).2.2.tty = 2#16 := by
  obtain ⟨t, d, pt, ht, hts, hd, hpt, -, hpage⟩ := spawn_state deepTask
  have hother : ∀ n, n ≠ 1 → (run machine [.spawn 1 deepTask]).tk n = machine.tk n := fun n hn => by
    show (step machine (.spawn 1 deepTask)).tk n = _
    simp only [step]
    split
    · split
      · rfl
      · exact update_of_ne hn _ _
    · rfl
  have hslot : freeTask (run machine [.spawn 1 deepTask]).tk = some 2 := by
    have hfree : (fun n => ((run machine [.spawn 1 deepTask]).tk n).isNone) =
        fun n : Slot => decide (n ≠ 0 ∧ n ≠ 1) := by
      funext n
      by_cases h₁ : n = 1
      · simp [h₁, ht]
      rw [hother n h₁]
      by_cases h₀ : n = 0
      · subst h₀
        rfl
      have : machine.tk n = none :=
        update_of_ne (f := fun _ => none) h₀ _
      simp [this, h₀, h₁]
    unfold freeTask
    rw [hfree]
    decide
  have hfit : stackFits t true 0#32 = false := by
    change stackFits (t.withDir none) true 0#32 = false
    rw [hts]
    decide
  have hcount : ∀ r : Refs, ((r.share t).unshare t).tty = r.tty + 1#16 := fun r => by
    have hfilp : (t.withDir none).filp = (deepTask.withDir none).filp := congrArg Task.filp hts
    change t.filp = deepTask.filp at hfilp
    have := unshare_count r t .tty
    rw [hfilp] at this
    exact this
  obtain ⟨p, m₁, e⟩ : ∃ p m₁, getFreePage (run machine [.spawn 1 deepTask]).tk
      (run machine [.spawn 1 deepTask]).mm = (some p, m₁) := by
    obtain ⟨p, hp⟩ := Option.isSome_iff_exists.mp hpage
    exact ⟨p, _, Prod.ext hp rfl⟩
  have hcall : sysFork t true 0#32 (run machine [.spawn 1 deepTask]) ⟨⟨fun _ => {}, fun _ => {}⟩, 1#16⟩ =
      (none, Sys.giveBack { run machine [.spawn 1 deepTask] with
          mm := freeUserSpace m₁ d, kern := insert p (run machine [.spawn 1 deepTask]).kern } p,
        ((Refs.share ⟨⟨fun _ => {}, fun _ => {}⟩, 1#16⟩ t).unshare t)) := by
    unfold sysFork
    simp only [e, hslot, if_neg (show (2 : Slot) ≠ 0 by decide), if_pos hfit, hd]
  refine ⟨t, d, pt, ht, hd, hpt, ?_⟩
  rw [hcall]
  refine ⟨rfl, ht, ?_, hcount _⟩
  rw [← freeUserSpace_userPt m₁ d]
  simp only [Sys.giveBack, Mm.userPt, Mm.freePage_mem]

/-! ### The child's kernel stack -/

/-- `child_sp`, in the task page `p`. -/
def childSp (t : Task) (ring3 : Bool) (syscallEsp p : Word) : Word :=
  p + 4096#32 - (t.tss.esp0 - (syscallEsp + if ring3 then 20#32 else 12#32))

/-- The words of the return frame. -/
def frameWords (ring3 : Bool) : ℕ := if ring3 then 16 else 14

/-- The bytes that `sys_fork` writes for the child's stack: the copy of the live stack, and the frame. -/
def StackWrite (t : Task) (ring3 : Bool) (syscallEsp p a : Word) : Prop :=
  (∃ i < (liveStack t ring3 syscallEsp).toNat, a = childSp t ring3 syscallEsp p + BitVec.ofNat 32 i) ∨
    -- `child_frame` is `child_sp` less the words of the frame
    ∃ i < frameWords ring3 * 4,
      a = childSp t ring3 syscallEsp p - BitVec.ofNat 32 (frameWords ring3 * 4) + BitVec.ofNat 32 i

/-- **The guard leaves out the frame.**  What is written stays above the `task_struct` exactly if the frame
fits too. -/
theorem child_stack_fits_iff {t : Task} {ring3 : Bool} {syscallEsp : Word} (p : Frame)
    (hfit : stackFits t ring3 syscallEsp = true) :
    (∀ a, StackWrite t ring3 syscallEsp (frameAddr p) a →
        (frameAddr p).toNat + taskStructSize ≤ a.toNat ∧ a.toNat < (frameAddr p).toNat + pageSize) ↔
      taskStructSize + liveStack t ring3 syscallEsp + frameWords ring3 * 4 ≤ pageSize := by
  have hwords : frameWords ring3 = 14 ∨ frameWords ring3 = 16 := by
    cases ring3
    · exact .inl rfl
    · exact .inr rfl
  have haddr : (frameAddr p).toNat = p.toNat * 4096 := toNat_frameAddr p
  have hp := p.isLt
  unfold StackWrite childSp
  unfold stackFits at hfit
  simp only [decide_eq_true_eq] at hfit
  unfold liveStack at hfit ⊢
  generalize t.tss.esp0 - (syscallEsp + if ring3 then 20#32 else 12#32) = size at hfit ⊢
  generalize frameAddr p = base at haddr ⊢
  generalize frameWords ring3 = w at hwords ⊢
  have hsize : size.toInt = size.toNat := by
    rw [BitVec.toInt_eq_toNat_cond] at hfit ⊢
    split at hfit <;> omega
  rw [hsize] at hfit ⊢
  unfold taskStructSize pageSize at hfit ⊢
  constructor
  · intro h
    have hlow := (h _ (.inr ⟨0, by omega, rfl⟩)).1
    bv_omega
  · rintro h a (⟨i, hi, rfl⟩ | ⟨i, hi, rfl⟩)
    · bv_omega
    · bv_omega

/-- A live stack that fills the page: the frame goes over the end of the `task_struct`. -/
theorem child_frame_overwrites : let t : Task := { tss := { esp0 := 3396#32 } }
    stackFits t false 0#32 = true ∧
      ∃ a, StackWrite t false 0#32 (frameAddr 0x200#20) a ∧
        (a.toNat : ℤ) < (frameAddr 0x200#20).toNat + taskStructSize :=
  ⟨by decide, _, .inr ⟨0, by decide, rfl⟩, by decide⟩

theorem child_stack_fits_words : let t : Task := { tss := { esp0 := 112#32 } }
    ∀ a, StackWrite t false 0#32 (frameAddr 0x200#20) a → (frameAddr 0x200#20).toNat + taskStructSize ≤ a.toNat ∧
      a.toNat < (frameAddr 0x200#20).toNat + pageSize :=
  (child_stack_fits_iff 0x200#20 (by decide)).mpr (by decide)

end Linux001

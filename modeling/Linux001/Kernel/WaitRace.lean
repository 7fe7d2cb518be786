import Linux001.Kernel.Wait

/-!
# Kernel — `sys_waitpid()` against `sys_exit()`

The two calls as sequences of steps, on one processor that the timer can take away between any two of
them: `sys_waitpid()` scans `task[]`, sets `TASK_INTERRUPTIBLE` and calls `schedule()`; `sys_exit()`
makes the task a zombie, posts `SIGCHLD` and wakes a parent that is interruptible.

A child that does all its steps between the scan and the store finds its parent running, and wakes
nobody.  Otherwise a parent never sleeps on a child that has finished (`exit_wakes_waiter`).
-/

namespace Linux001

open Function Option

/-- Where a task is in the two calls. -/
inductive WaitPc where
  /-- In neither. -/
  | user
  /-- `sys_waitpid()`: before the scan. -/
  | scan (pid options : Word)
  /-- After a scan that has found children, and none to reap. -/
  | scanned (pid options : Word)
  /-- The state is set. -/
  | set (pid options : Word)
  /-- In `schedule()`. -/
  | asleep (pid options : Word)
  /-- `sys_exit()`: the task is a zombie. -/
  | zombie
  /-- `SIGCHLD` is posted. -/
  | posted
  /-- The parent has been woken, if it was interruptible. -/
  | done
  deriving DecidableEq

namespace WaitPc

/-- The argument of a `sys_waitpid()` that the task is in. -/
def waitsOn : WaitPc → Option Word
  | .scan pid _ | .scanned pid _ | .set pid _ | .asleep pid _ => some pid
  | .user | .zombie | .posted | .done => none

end WaitPc

/-- One processor, and the tasks. -/
structure Race where
  tk : TaskTable
  pc : Slot → WaitPc
  current : Slot

/-- What happens. -/
inductive RaceOp where
  | fork
  | waitpid (pid options : Word)
  | exit (ret : Word)
  | signal (handler : Word)
  /-- The running task goes to sleep or stops, elsewhere in the kernel. -/
  | doze (st : TaskState)
  /-- The running task takes its next step in one of the two calls. -/
  | next
  /-- A task is woken, by a signal or by what it sleeps on. -/
  | wake (n : Slot)
  /-- `schedule()` gives the processor to a task. -/
  | switch (n : Slot)

namespace Race

/-- The init task and the write-back task. -/
def boot : Race := ⟨Sched.boot.tk, fun _ => .user, 0⟩

def setTask (s : Race) (n : Slot) (f : Task → Task) : Race :=
  { s with tk := update s.tk n ((s.tk n).map f) }

def setPc (s : Race) (c : WaitPc) : Race := { s with pc := update s.pc s.current c }

/-- `parent->signal |= (1 << SIGCHLD)`. -/
def post (s : Race) (t : Task) : Race :=
  if h : t.parent.toNat < 64 then
    s.setTask ⟨t.parent.toNat, h⟩ fun p =>
      if p.ignoresChild then p else { p with signal := p.signal ||| sigBit sigchld }
  else s

/-- `if (parent->state == TASK_INTERRUPTIBLE) parent->state = TASK_RUNNING`. -/
def wakeParent (s : Race) (t : Task) : Race :=
  if h : t.parent.toNat < 64 then
    s.setTask ⟨t.parent.toNat, h⟩ fun p =>
      if p.ignoresChild then p
      else { p with state := if p.state = .interruptible then .running else p.state }
  else s

/-- Some task can be selected. -/
def anyRunning (tk : TaskTable) : Bool :=
  (List.finRange 64).any fun n => (tk n).any fun t => t.state = .running

/-- The next step of the running task, in one of the two calls. -/
def next (s : Race) (t : Task) : Race :=
  match s.pc s.current with
  | .user | .done => s
  | .scan pid options =>
    match reapable s.tk s.current pid with
    | some i => { s with tk := update s.tk i none }.setPc .user
    | none =>
      if foundAny s.tk s.current = false ∨ options &&& 1#32 ≠ 0#32 then s.setPc .user
      else s.setPc (.scanned pid options)
  | .scanned pid options =>
    (s.setTask s.current fun t => { t with state := .interruptible }).setPc (.set pid options)
  | .set pid options => { s with tk := autoReap s.current s.tk }.setPc (.asleep pid options)
  | .asleep pid options =>
    -- `schedule()` comes back to the task it selects, or to its caller if there is none
    if t.state = .running ∨ anyRunning s.tk = false then
      (s.setTask s.current fun t => { t with state := .running }).setPc (.scan pid options)
    else s
  | .zombie => (s.post t).setPc .posted
  | .posted => (s.wakeParent t).setPc .done

/-- The running task is in neither call, and can make one. -/
def idle (s : Race) (t : Task) : Bool := s.pc s.current = .user ∧ t.state = .running

/-- **`sys_fork`**, when it succeeds. -/
def sysFork (s : Race) (t : Task) : Race :=
  match Sched.freeTask s.tk with
  | none => s
  | some n =>
    { s with
      tk := update s.tk n (some (Sched.child t s.current n))
      pc := update s.pc n .user }

/-- **`sys_exit`**: the store that makes the task a zombie. -/
def sysExit (s : Race) (ret : Word) : Race :=
  if s.current = 0 ∨ s.current = syncTaskSlot then s
  else (s.setTask s.current fun t => { t with exitCode := ret, state := .zombie }).setPc .zombie

/-- **One step.** -/
def step (s : Race) (op : RaceOp) : Race :=
  match s.tk s.current with
  | none => s
  | some t =>
    match op with
    | .fork => if s.idle t then s.sysFork t else s
    | .waitpid pid options =>
      if s.idle t ∧ t.ignoresChild = false then s.setPc (.scan pid options) else s
    | .exit ret => if s.idle t then s.sysExit ret else s
    | .signal handler =>
      if s.idle t then s.setTask s.current (Task.signalChild handler) else s
    | .doze st =>
      if s.idle t ∧ st ≠ .zombie then s.setTask s.current fun t => { t with state := st } else s
    | .next => s.next t
    | .wake n =>
      s.setTask n fun t => if t.state = .zombie then t else { t with state := .running }
    | .switch n =>
      if ((autoReap s.current s.tk) n).any fun t => t.state = .running then
        { s with tk := autoReap s.current s.tk, current := n }
      else s

/-- **A run.** -/
def run (s : Race) (ops : List RaceOp) : Race := ops.foldl step s

/-- **A lost wake-up**: a task is in `sys_waitpid()` and not runnable, and a child that it waits for has
finished its exit. -/
def Lost (s : Race) : Prop :=
  ∃ n pid t c u, (s.pc n).waitsOn = some pid ∧ s.tk n = some t ∧ t.state ≠ .running ∧
    c ≠ 0 ∧ s.tk c = some u ∧ matching n pid u ∧ s.pc c = .done

variable {s : Race} {n m : Slot} {t u : Task} {pid options : Word} {f : Task → Task}
  {tk tk' : TaskTable} {c : WaitPc}

/-! ### The invariant -/

/-- What holds between any two steps. -/
structure RaceInv (s : Race) : Prop where
  /-- Who waits does not ignore `SIGCHLD`, and is interruptible if it is not running. -/
  patient : ∀ {n pid t}, (s.pc n).waitsOn = some pid → s.tk n = some t →
    t.ignoresChild = false ∧ (t.state = .running ∨ t.state = .interruptible)
  early : ∀ {n pid options t}, s.pc n = .scan pid options ∨ s.pc n = .scanned pid options →
    s.tk n = some t → t.state = .running
  clean : ∀ {n pid options c u}, s.pc n = .scanned pid options → c ≠ 0 → s.tk c = some u → matching n pid u = false
  found : ¬ s.Lost

theorem matching_iff : matching n pid u = true ↔
    u.parent = BitVec.ofNat 32 n.val ∧ ¬ (0 < pid.toInt ∧ u.pid ≠ pid) ∧ u.state = .zombie := by
  unfold matching
  rw [decide_eq_true_eq]

theorem matching_of_not_zombie (h : u.state ≠ .zombie) : matching n pid u = false := by
  rw [Bool.eq_false_iff]
  exact fun hm => h (matching_iff.mp hm).2.2

/-- Tasks leave, or are woken, and nothing else that matters happens. -/
def Tame (tk tk' : TaskTable) : Prop :=
  ∀ m u', tk' m = some u' → ∃ u, tk m = some u ∧ u'.ignoresChild = u.ignoresChild ∧
    u'.parent = u.parent ∧ u'.pid = u.pid ∧
    (u'.state = u.state ∨ u.state ≠ .zombie ∧ u'.state = .running)

theorem Tame.refl (tk : TaskTable) : Tame tk tk := fun _ u' h => ⟨u', h, rfl, rfl, rfl, .inl rfl⟩

theorem Tame.remove (tk : TaskTable) (i : Slot) : Tame tk (update tk i none) := by
  intro m u' h
  exact Tame.refl tk m u' (of_update_none h).2

theorem Tame.trans {tk'' : TaskTable} (h : Tame tk tk') (h' : Tame tk' tk'') : Tame tk tk'' := by
  intro m u'' hu
  obtain ⟨u', hu', e₁, e₂, e₃, e₄⟩ := h' m u'' hu
  obtain ⟨u, hu, f₁, f₂, f₃, f₄⟩ := h m u' hu'
  refine ⟨u, hu, e₁.trans f₁, e₂.trans f₂, e₃.trans f₃, ?_⟩
  rcases e₄ with e₄ | ⟨hz, e₄⟩ <;> rcases f₄ with f₄ | ⟨hz', f₄⟩
  · exact .inl (e₄.trans f₄)
  · exact .inr ⟨hz', e₄.trans f₄⟩
  · exact .inr ⟨f₄ ▸ hz, e₄⟩
  · exact .inr ⟨hz', e₄⟩

theorem Tame.autoReap (c : Slot) (tk : TaskTable) : Tame tk (autoReap c tk) := by
  unfold Linux001.autoReap
  generalize List.finRange 64 = l
  induction l generalizing tk with
  | nil => exact Tame.refl tk
  | cons i l ih =>
    have hstep : Tame tk (reapStep c tk i) := by
      unfold reapStep
      cases tk i with
      | none => exact Tame.refl tk
      | some z =>
        simp only
        split
        · exact Tame.refl tk
        · exact Tame.remove tk i
    exact hstep.trans (ih _)

/-- One task is changed in such a way. -/
theorem Tame.setTask
    (hf : ∀ u, s.tk n = some u → (f u).ignoresChild = u.ignoresChild ∧ (f u).parent = u.parent ∧
      (f u).pid = u.pid ∧ ((f u).state = u.state ∨ u.state ≠ .zombie ∧ (f u).state = .running)) :
    Tame s.tk (s.setTask n f).tk := by
  intro m u' h
  rcases of_update_eq h with ⟨rfl, e⟩ | ⟨-, h⟩
  · obtain ⟨u, hu, rfl⟩ := map_eq_some_iff.mp e
    exact ⟨u, hu, hf u hu⟩
  · exact Tame.refl s.tk m u' h

/-- Such a change keeps the invariant. -/
theorem RaceInv.tame (h : RaceInv s) (ht : Tame s.tk tk') (c : Slot) :
    RaceInv ⟨tk', s.pc, c⟩ := by
  have hback : ∀ {m u'}, tk' m = some u' → ∀ {n pid}, matching n pid u' = true →
      ∃ u, s.tk m = some u ∧ matching n pid u = true := by
    intro m u' hu' n pid hm
    obtain ⟨u, hu, -, e₂, e₃, e₄⟩ := ht _ _ hu'
    obtain ⟨h₁, h₂, h₃⟩ := matching_iff.mp hm
    refine ⟨u, hu, matching_iff.mpr ⟨e₂ ▸ h₁, e₃ ▸ h₂, ?_⟩⟩
    rcases e₄ with e₄ | ⟨-, e₄⟩
    · exact e₄.symm.trans h₃
    · rw [e₄] at h₃
      cases h₃
  refine ⟨fun hw hu' => ?_, fun hpc hu' => ?_, fun hpc h0 hu' => ?_, ?_⟩
  · obtain ⟨u, hu, e₁, -, -, e₄⟩ := ht _ _ hu'
    obtain ⟨hig, hst⟩ := h.patient hw hu
    refine ⟨e₁.trans hig, ?_⟩
    rcases e₄ with e₄ | ⟨-, e₄⟩
    · rw [e₄]
      exact hst
    · exact .inl e₄
  · obtain ⟨u, hu, -, -, -, e₄⟩ := ht _ _ hu'
    rcases e₄ with e₄ | ⟨-, e₄⟩
    · exact e₄.trans (h.early hpc hu)
    · exact e₄
  · rw [Bool.eq_false_iff]
    intro hm
    obtain ⟨u, hu, hmu⟩ := hback hu' hm
    exact absurd hmu (Bool.eq_false_iff.mp (h.clean hpc h0 hu))
  · rintro ⟨n, pid, t', c, u', hw, ht', hst, h0, hu', hm, hd⟩
    obtain ⟨t, htt, -, -, -, e₄⟩ := ht _ _ ht'
    obtain ⟨u, hu, hmu⟩ := hback hu' hm
    refine h.found ⟨n, pid, t, c, u, hw, htt, ?_, h0, hu, hmu, hd⟩
    rcases e₄ with e₄ | ⟨-, e₄⟩
    · exact e₄ ▸ hst
    · exact absurd e₄ hst

/-- **The running task moves on.** -/
theorem RaceInv.setPc (h : RaceInv s)
    (hp : ∀ pid t, c.waitsOn = some pid → s.tk s.current = some t →
      t.ignoresChild = false ∧ (t.state = .running ∨ t.state = .interruptible))
    (he : ∀ pid options t, c = .scan pid options ∨ c = .scanned pid options →
      s.tk s.current = some t → t.state = .running)
    (hc : ∀ pid options, c = .scanned pid options → ∀ m u, m ≠ 0 → s.tk m = some u → matching s.current pid u = false)
    (hf : ∀ pid t, c.waitsOn = some pid → s.tk s.current = some t → t.state ≠ .running →
      ∀ m u, m ≠ 0 → s.tk m = some u → matching s.current pid u = true → s.pc m ≠ .done)
    (hd : c = .done → ∀ t, s.tk s.current = some t → ∀ n pid t', (s.pc n).waitsOn = some pid →
      s.tk n = some t' → t'.state ≠ .running → matching n pid t = false) : RaceInv (s.setPc c) := by
  have hcases : ∀ n, n = s.current ∧ (s.setPc c).pc n = c ∨ n ≠ s.current ∧ (s.setPc c).pc n = s.pc n := by
    intro n
    by_cases e : n = s.current
    · subst e
      exact .inl ⟨rfl, update_self ..⟩
    · exact .inr ⟨e, update_of_ne e ..⟩
  refine ⟨fun {n pid u} hw hu => ?_, fun {n pid o u} hpc hu => ?_, fun {n pid o m u} hpc h0 hu => ?_, ?_⟩
  · rcases hcases n with ⟨rfl, e⟩ | ⟨-, e⟩
    · exact hp pid u (e ▸ hw) hu
    · exact h.patient (e ▸ hw) hu
  · rcases hcases n with ⟨rfl, e⟩ | ⟨-, e⟩
    · exact he pid o u (e ▸ hpc) hu
    · exact h.early (e ▸ hpc) hu
  · rcases hcases n with ⟨rfl, e⟩ | ⟨-, e⟩
    · exact hc pid o (e ▸ hpc) m u h0 hu
    · exact h.clean (e ▸ hpc) h0 hu
  · rintro ⟨n, pid, t', m, u, hw, ht', hst, h0, hu, hm, hdone⟩
    rcases hcases n with ⟨rfl, e⟩ | ⟨hn, e⟩ <;> rcases hcases m with ⟨rfl, e'⟩ | ⟨hmc, e'⟩
    · rw [hdone] at hw
      cases hw
    · exact hf pid t' (e ▸ hw) ht' hst m u h0 hu hm (e'.symm.trans hdone)
    · exact absurd hm (Bool.eq_false_iff.mp (hd (e'.symm.trans hdone) u hu n pid t' (e ▸ hw) ht' hst))
    · exact h.found ⟨n, pid, t', m, u, e ▸ hw, ht', hst, h0, hu, hm, e'.symm.trans hdone⟩

/-- A place that neither waits nor is the end of an exit. -/
theorem RaceInv.setPc_quiet (h : RaceInv s) (hw : c.waitsOn = none) (hd : c ≠ .done) :
    RaceInv (s.setPc c) := by
  have hno : ∀ {pid}, c.waitsOn ≠ some pid := by
    intro pid e
    rw [hw] at e
    cases e
  refine h.setPc (fun _ _ e => absurd e hno) (fun pid o t e => ?_) (fun pid o e => ?_)
    (fun _ _ e => absurd e hno) fun e => absurd e hd
  · rcases e with rfl | rfl
    · cases hw
    · cases hw
  · subst e
    cases hw

/-! ### The steps -/

/-- **A child is born**, running and in neither call. -/
theorem RaceInv.sysFork (h : RaceInv s) : RaceInv (s.sysFork t) := by
  unfold Race.sysFork
  cases hf : Sched.freeTask s.tk with
  | none => exact h
  | some i =>
    have htk : ∀ {m u}, update s.tk i (some (Sched.child t s.current i)) m = some u →
        m = i ∧ u.state = .running ∨ m ≠ i ∧ s.tk m = some u := by
      intro m u hu
      rcases of_update_eq hu with ⟨e, ⟨⟩⟩ | hu
      · exact .inl ⟨e, rfl⟩
      · exact .inr hu
    have hpc : ∀ {m c}, update s.pc i .user m = c → c ≠ .user → m ≠ i ∧ s.pc m = c := by
      intro m c e hc
      rcases of_update_eq e with ⟨-, e⟩ | h
      · exact absurd e.symm hc
      · exact h
    have hwait : ∀ {m pid}, (update s.pc i .user m).waitsOn = some pid → m ≠ i ∧ (s.pc m).waitsOn = some pid := by
      intro m pid hw
      obtain ⟨hm, e⟩ := hpc rfl fun e => by
        rw [e] at hw
        cases hw
      exact ⟨hm, e ▸ hw⟩
    refine ⟨fun {n pid u} hw hu => ?_, fun {n pid o u} he hu => ?_, fun {n pid o m u} he h0 hu => ?_, ?_⟩
    · obtain ⟨hn, hw⟩ := hwait hw
      rcases htk hu with ⟨e, -⟩ | ⟨-, hu⟩
      · exact absurd e hn
      · exact h.patient hw hu
    · rcases htk hu with ⟨-, hst⟩ | ⟨hn, hu⟩
      · exact hst
      rcases he with he | he
      · exact h.early (.inl (hpc he (by simp)).2) hu
      · exact h.early (.inr (hpc he (by simp)).2) hu
    · obtain ⟨-, hn⟩ := hpc he (by simp)
      rcases htk hu with ⟨-, hst⟩ | ⟨-, hu⟩
      · exact matching_of_not_zombie (by simp [hst])
      · exact h.clean hn h0 hu
    · rintro ⟨n, pid, t', m, u, hw, ht', hst, h0, hu, hm, hd⟩
      obtain ⟨hn, hw⟩ := hwait hw
      obtain ⟨hmi, hd⟩ := hpc hd (by simp)
      rcases htk ht' with ⟨e, -⟩ | ⟨-, ht'⟩
      · exact hn e
      rcases htk hu with ⟨e, -⟩ | ⟨-, hu⟩
      · exact hmi e
      · exact h.found ⟨n, pid, t', m, u, hw, ht', hst, h0, hu, hm, hd⟩

/-- A change of one task, by cases. -/
theorem setTask_some (h : (s.setTask n f).tk m = some u) :
    m = n ∧ (∃ v, s.tk n = some v ∧ u = f v) ∨ m ≠ n ∧ s.tk m = some u := by
  rcases of_update_eq h with ⟨e, h⟩ | h
  · obtain ⟨v, hv, rfl⟩ := map_eq_some_iff.mp h
    exact .inl ⟨e, v, hv, rfl⟩
  · exact .inr h

/-- **A task that is in neither call changes itself**; if it becomes a zombie, nobody has just looked
for it. -/
theorem RaceInv.own (h : RaceInv s) (hpc : s.pc s.current = .user)
    (hf : ∀ t, s.tk s.current = some t → ∀ n pid options, s.pc n = .scanned pid options →
      matching n pid (f t) = false) : RaceInv (s.setTask s.current f) := by
  have hne : ∀ {n pid}, (s.pc n).waitsOn = some pid → n ≠ s.current := by
    rintro n pid hw rfl
    rw [hpc] at hw
    cases hw
  refine ⟨fun {n pid u} hw hu => ?_, fun {n pid o u} he hu => ?_, fun {n pid o m u} he h0 hu => ?_, ?_⟩
  · rcases setTask_some hu with ⟨e, -⟩ | ⟨-, hu⟩
    · exact absurd e (hne hw)
    · exact h.patient hw hu
  · rcases setTask_some hu with ⟨e, -⟩ | ⟨-, hu⟩
    · refine absurd e (hne (show (s.pc n).waitsOn = some pid from ?_))
      rcases he with he | he
      · exact congrArg WaitPc.waitsOn he
      · exact congrArg WaitPc.waitsOn he
    · exact h.early he hu
  · rcases setTask_some hu with ⟨-, v, hv, rfl⟩ | ⟨-, hu⟩
    · exact hf v hv n pid o he
    · exact h.clean he h0 hu
  · rintro ⟨n, pid, t', m, u, hw, ht', hst, h0, hu, hm, hd⟩
    rcases setTask_some ht' with ⟨e, -⟩ | ⟨-, ht'⟩
    · exact hne hw e
    rcases setTask_some hu with ⟨rfl, -⟩ | ⟨-, hu⟩
    · cases hpc.symm.trans hd
    · exact h.found ⟨n, pid, t', m, u, hw, ht', hst, h0, hu, hm, hd⟩

/-- **A parent goes to sleep** when there is no child to reap. -/
theorem RaceInv.sleep (h : RaceInv s) (hpc : s.pc s.current = .set pid options)
    (hno : ∀ m u, m ≠ 0 → s.tk m = some u → matching s.current pid u = false) :
    RaceInv (s.setTask s.current fun t => { t with state := .interruptible }) := by
  refine ⟨fun {n pid u} hw hu => ?_, fun {n pid o u} he hu => ?_, fun {n pid o m u} he h0 hu => ?_, ?_⟩
  · rcases setTask_some hu with ⟨rfl, v, hv, rfl⟩ | ⟨-, hu⟩
    · exact ⟨(h.patient hw hv).1, .inr rfl⟩
    · exact h.patient hw hu
  · rcases setTask_some hu with ⟨rfl, -⟩ | ⟨-, hu⟩
    · rcases he with he | he
      · cases hpc.symm.trans he
      · cases hpc.symm.trans he
    · exact h.early he hu
  · rcases setTask_some hu with ⟨-, v, -, rfl⟩ | ⟨-, hu⟩
    · exact matching_of_not_zombie (nofun)
    · exact h.clean he h0 hu
  · rintro ⟨n, pid', t', m, u, hw, ht', hst, h0, hu, hm, hd⟩
    rcases setTask_some hu with ⟨-, v, -, rfl⟩ | ⟨-, hu⟩
    · cases (matching_iff.mp hm).2.2
    rcases setTask_some ht' with ⟨rfl, -⟩ | ⟨-, ht'⟩
    · have e : pid = pid' := some.inj ((congrArg WaitPc.waitsOn hpc).symm.trans hw)
      subst e
      exact Bool.eq_false_iff.mp (hno m u h0 hu) hm
    · exact h.found ⟨n, pid', t', m, u, hw, ht', hst, h0, hu, hm, hd⟩

/-- A scan that finds nothing has looked at every child. -/
theorem reapable_none (h : reapable tk n pid = none) (h0 : m ≠ 0) (hu : tk m = some u) :
    matching n pid u = false := by
  have hm := List.find?_eq_none.mp h m (List.mem_finRange m)
  simpa [h0, hu] using hm

theorem Tame.post (s : Race) (t : Task) : Tame s.tk (s.post t).tk := by
  unfold Race.post
  split
  · refine Tame.setTask fun u _ => ?_
    split
    · exact ⟨rfl, rfl, rfl, .inl rfl⟩
    · exact ⟨rfl, rfl, rfl, .inl rfl⟩
  · exact Tame.refl s.tk

theorem Tame.wakeParent (s : Race) (t : Task) : Tame s.tk (s.wakeParent t).tk := by
  unfold Race.wakeParent
  split
  · refine Tame.setTask fun u _ => ?_
    split
    · exact ⟨rfl, rfl, rfl, .inl rfl⟩
    refine ⟨rfl, rfl, rfl, ?_⟩
    split
    · next hi => exact .inr ⟨by simp [hi], rfl⟩
    · exact .inl rfl
  · exact Tame.refl s.tk

theorem post_eq (s : Race) (t : Task) : s.post t = ⟨(s.post t).tk, s.pc, s.current⟩ := by
  unfold post
  split
  · rfl
  · rfl

theorem wakeParent_eq (s : Race) (t : Task) : s.wakeParent t = ⟨(s.wakeParent t).tk, s.pc, s.current⟩ := by
  unfold wakeParent
  split
  · rfl
  · rfl

/-- **The notice wakes a parent that waits.** -/
theorem wakeParent_wakes (h : RaceInv s) (hw : (s.pc n).waitsOn = some pid)
    (hpar : t.parent = BitVec.ofNat 32 n.val) (hu : (s.wakeParent t).tk n = some u) : u.state = .running := by
  have hn : t.parent.toNat = n.val := by
    rw [hpar, BitVec.toNat_ofNat]
    omega
  have hlt : t.parent.toNat < 64 := by omega
  have hslot : (⟨t.parent.toNat, hlt⟩ : Slot) = n := Fin.ext hn
  unfold Race.wakeParent at hu
  rw [dif_pos hlt, hslot] at hu
  rcases setTask_some hu with ⟨-, v, hv, rfl⟩ | ⟨hne, -⟩
  · obtain ⟨hig, hst⟩ := h.patient hw hv
    rw [if_neg (by simp [hig])]
    rcases hst with hst | hst
    · simp [hst]
    · simp [hst]
  · exact absurd rfl hne

/-- **A step of one of the two calls.** -/
theorem RaceInv.next (h : RaceInv s) (ht : s.tk s.current = some t) : RaceInv (s.next t) := by
  unfold Race.next
  cases hpc : s.pc s.current with
  | user => exact h
  | done => exact h
  | scan pid o =>
    have hw : (s.pc s.current).waitsOn = some pid := by rw [hpc]; rfl
    have hrun := h.early (.inl hpc) ht
    simp only
    cases hr : reapable s.tk s.current pid with
    | some i => exact (h.tame (Tame.remove s.tk i) s.current).setPc_quiet rfl (by simp)
    | none =>
      simp only
      split
      · exact h.setPc_quiet rfl (by simp)
      refine h.setPc (fun _ u _ hu => h.patient hw hu) (fun _ _ u _ hu => h.early (.inl hpc) hu)
        (fun pid' o' e m u h0 hu => ?_) (fun _ u _ hu hst => absurd (h.early (.inl hpc) hu) hst) (by simp)
      cases e
      exact reapable_none hr h0 hu
  | scanned pid o =>
    have hw : (s.pc s.current).waitsOn = some pid := by rw [hpc]; rfl
    have hset : RaceInv (s.setPc (.set pid o)) :=
      h.setPc (fun _ u _ hu => h.patient hw hu) (by simp) (by simp)
        (fun _ u _ hu hst => absurd (h.early (.inr hpc) hu) hst) (by simp)
    exact hset.sleep (update_self ..) fun m u h0 hu => h.clean hpc h0 hu
  | set pid o =>
    have hw : (s.pc s.current).waitsOn = some pid := by rw [hpc]; rfl
    have h' := h.tame (Tame.autoReap s.current s.tk) s.current
    refine h'.setPc (fun _ u _ hu => h'.patient hw hu) (by simp) (by simp)
      (fun pid' u e hu hst m v h0 hv hm hd => ?_) (by simp)
    obtain rfl : pid = pid' := some.inj e
    exact h'.found ⟨s.current, pid, u, m, v, hw, hu, hst, h0, hv, hm, hd⟩
  | asleep pid o =>
    have hw : (s.pc s.current).waitsOn = some pid := by rw [hpc]; rfl
    simp only
    split
    · have hrun : Tame s.tk (s.setTask s.current fun t => { t with state := .running }).tk := by
        refine Tame.setTask fun u hu => ⟨rfl, rfl, rfl, .inr ⟨?_, rfl⟩⟩
        rcases (h.patient hw hu).2 with e | e
        · simp [e]
        · simp [e]
      have h' := h.tame hrun s.current
      have hst : ∀ u, (s.setTask s.current fun t => { t with state := .running }).tk s.current = some u →
          u.state = .running := by
        intro u hu
        rcases setTask_some hu with ⟨-, v, -, rfl⟩ | ⟨e, -⟩
        · rfl
        · exact absurd rfl e
      exact h'.setPc (fun _ u _ hu => h'.patient hw hu) (fun _ _ u _ hu => hst u hu) (by simp)
        (fun _ u _ hu e => absurd (hst u hu) e) (by simp)
    · exact h
  | zombie =>
    rw [post_eq]
    exact (h.tame (Tame.post s t) s.current).setPc_quiet rfl (by simp)
  | posted =>
    have h' := h.tame (Tame.wakeParent s t) s.current
    simp only
    rw [wakeParent_eq]
    refine h'.setPc (by simp [WaitPc.waitsOn]) (by simp) (by simp) (by simp [WaitPc.waitsOn])
      fun _ v hv n pid t' hw ht' hst => ?_
    rw [Bool.eq_false_iff]
    intro hm
    obtain ⟨u, hu, -, e, -⟩ := Tame.wakeParent s t _ _ hv
    obtain rfl := some.inj (ht.symm.trans hu)
    exact hst (wakeParent_wakes h hw (e.symm.trans (matching_iff.mp hm).1) ht')

/-- The task in slot `n` has just scanned, and would reap `t` if it were a zombie. -/
def missedBy (s : Race) (n : Slot) (t : Task) : Bool :=
  match s.pc n with
  | .scanned pid _ => matching n pid { t with state := .zombie }
  | .user | .scan .. | .set .. | .asleep .. | .zombie | .posted | .done => false

/-- No task becomes a zombie while its parent is between the scan and the store. -/
def Careful (s : Race) : RaceOp → Prop
  | .exit _ => ∀ n, (s.tk s.current).all fun t => !s.missedBy n t
  | .fork | .waitpid .. | .signal _ | .doze _ | .next | .wake _ | .switch _ => True

instance decidableCareful (s : Race) : (op : RaceOp) → Decidable (s.Careful op)
  | .exit _ => inferInstanceAs (Decidable (∀ n, (s.tk s.current).all fun t => !s.missedBy n t))
  | .fork | .waitpid .. | .signal _ | .doze _ | .next | .wake _ | .switch _ => isTrue trivial

/-- **A task becomes a zombie.** -/
theorem RaceInv.sysExit {ret : Word} (h : RaceInv s) (hpc : s.pc s.current = .user)
    (hc : s.Careful (.exit ret)) : RaceInv (s.sysExit ret) := by
  unfold Race.sysExit
  split
  · exact h
  refine (h.own hpc fun t ht n pid o hn => ?_).setPc_quiet rfl (by simp)
  have hno : matching n pid { t with state := .zombie } = false := by
    simpa [ht, missedBy, hn] using hc n
  exact hno

/-- **One step.** -/
theorem RaceInv.step {op : RaceOp} (h : RaceInv s) (hc : s.Careful op) : RaceInv (s.step op) := by
  unfold Race.step
  cases ht : s.tk s.current with
  | none => exact h
  | some t =>
    have hidle : s.idle t = true → s.pc s.current = .user ∧ t.state = .running := by
      unfold idle
      rw [decide_eq_true_eq]
      exact id
    cases op with
    | fork =>
      simp only
      split
      · exact h.sysFork
      · exact h
    | waitpid pid o =>
      simp only
      split
      · next hi =>
        obtain ⟨-, hrun⟩ := hidle hi.1
        have hself : ∀ u, s.tk s.current = some u → u = t := fun u hu =>
          some.inj (hu.symm.trans ht)
        refine h.setPc (fun _ u _ hu => ?_) (fun _ _ u _ hu => hself u hu ▸ hrun) (by simp)
          (fun _ u _ hu hst => absurd (hself u hu ▸ hrun) hst) (by simp)
        obtain rfl := hself u hu
        exact ⟨hi.2, .inl hrun⟩
      · exact h
    | exit ret =>
      simp only
      split
      · next hi => exact h.sysExit (hidle hi).1 hc
      · exact h
    | signal handler =>
      simp only
      split
      · next hi =>
        obtain ⟨hpc, hrun⟩ := hidle hi
        refine h.own hpc fun u hu n pid o _ => matching_of_not_zombie ?_
        obtain rfl := some.inj (ht.symm.trans hu)
        obtain ⟨hs, e⟩ := t.signalChild_cases handler
        simp [e, hrun]
      · exact h
    | doze st =>
      simp only
      split
      · next hi => exact h.own (hidle hi.1).1 fun u _ n pid o _ => matching_of_not_zombie hi.2
      · exact h
    | next => exact h.next ht
    | wake n =>
      refine h.tame (Tame.setTask fun u _ => ?_) s.current
      split
      · exact ⟨rfl, rfl, rfl, .inl rfl⟩
      · next hz => exact ⟨rfl, rfl, rfl, .inr ⟨hz, rfl⟩⟩
    | switch n =>
      simp only
      split
      · exact h.tame (Tame.autoReap s.current s.tk) n
      · exact h

/-! ### Whole runs -/

/-- Every step of a run is careful. -/
def CarefulRun (s : Race) (ops : List RaceOp) : Prop := Run.Guarded step Careful s ops

instance decidableCarefulRun (s : Race) (ops : List RaceOp) : Decidable (CarefulRun s ops) :=
  Run.decidableGuarded s ops

theorem raceInv_boot : RaceInv boot where
  patient hw := by cases hw
  early he := by rcases he with he | he <;> cases he
  clean he := by cases he
  found := by
    rintro ⟨n, pid, -, -, -, hw, -⟩
    cases hw

theorem RaceInv.run {ops : List RaceOp} (h : RaceInv s) (hc : CarefulRun s ops) : RaceInv (s.run ops) :=
  Run.Guarded.inv RaceInv.step hc h

/-- **No lost wake-up**, in every run in which no task becomes a zombie while its parent is between the
scan of a `sys_waitpid()` that waits for it and the store that follows: a task that is in
`sys_waitpid()` and not runnable has no child to reap that has finished its exit. -/
theorem exit_wakes_waiter (ops : List RaceOp) (hc : CarefulRun boot ops) : ¬ (boot.run ops).Lost :=
  (raceInv_boot.run hc).found

/-- The timer takes the processor away after the scan, and the child exits. -/
def exitInTheGap : List RaceOp :=
  [.fork, .waitpid (-1#32) 0#32, .next, .switch 1, .exit 7#32, .next, .next, .switch 0, .next, .next]

/-- The child exits when the parent sleeps. -/
def exitAfterSleep : List RaceOp :=
  [.fork, .waitpid (-1#32) 0#32, .next, .next, .next, .switch 1, .exit 7#32, .next, .next]

/-- **A wake-up is lost**: the parent sleeps, and its child has finished. -/
theorem exitInTheGap_lost : (boot.run exitInTheGap).Lost := by
  refine ⟨0, -1#32, ((boot.run exitInTheGap).tk 0).get (by decide +kernel), 1,
    ((boot.run exitInTheGap).tk 1).get (by decide +kernel), by decide +kernel, (some_get _).symm,
    by decide +kernel, by decide, (some_get _).symm, by decide +kernel, by decide +kernel⟩

theorem exitAfterSleep_wakes :
    (boot.run exitAfterSleep).pc 0 = .asleep (-1#32) 0#32 ∧ (boot.run exitAfterSleep).pc 1 = .done ∧
      ¬ (boot.run exitAfterSleep).Lost :=
  ⟨by decide +kernel, by decide +kernel, exit_wakes_waiter exitAfterSleep (by decide +kernel)⟩

end Race
end Linux001

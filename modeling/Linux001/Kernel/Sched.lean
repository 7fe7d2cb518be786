import Linux001.Kernel.Signal

/-!
# Kernel — the scheduler

`schedule()` and `do_timer()` of `kernel/sched.c`, with the calls that touch what they read: the
states, `counter` and `priority`.  The selection is a scan of `task[]` from the top for the largest
counter, and it is repeated after every task has been recharged.  `counter` and `priority` are signed
words, and the recharge wraps.

As long as `sys_nice()` leaves every priority at `2 ^ 30` or below, no counter becomes negative, and
the scan finds a runnable task after one recharge at most (`schedule_selects`).
-/

namespace Linux001

open Function Option List

/-! ### Selecting -/

/-- `(counter >> 1) + priority`. -/
def Task.recharge (t : Task) : Task := { t with counter := t.counter.sshiftRight 1 + t.priority }

/-- Every task is recharged. -/
def rechargeAll (tk : TaskTable) : TaskTable := fun n => (tk n).map Task.recharge

/-- One slot of the scan; the largest counter so far, and who has it. -/
def pickStep (tk : TaskTable) (best : ℤ × Option Slot) (n : Slot) : ℤ × Option Slot :=
  match tk n with
  | none => best
  | some t =>
    if t.state = .running ∧ best.1 < t.counter.toInt then (t.counter.toInt, some n) else best

/-- The scan, from the last slot down. -/
def pick (tk : TaskTable) : ℤ × Option Slot := (List.finRange 64).reverse.foldl (pickStep tk) (-1, none)

/-- How `schedule()` ends. -/
inductive Choice where
  | switch (n : Slot)
  /-- The `hlt` of the branch for no runnable task. -/
  | idle
  deriving DecidableEq

/-- The `while (1)` loop of `schedule`, in at most `fuel` passes; `none` if it takes more. -/
def scheduleLoop : ℕ → TaskTable → Option (Choice × TaskTable)
  | 0, _ => none
  | fuel + 1, tk =>
    match pick tk with
    | (c, next) =>
      if 0 < c then next.map fun n => (.switch n, tk)
      else if c < 0 then some (.idle, rechargeAll tk)
      else scheduleLoop fuel (rechargeAll tk)

/-- `task[w]`. -/
def taskAt (tk : TaskTable) (w : Word) : Option Task :=
  if h : w.toNat < 64 then tk ⟨w.toNat, h⟩ else none

/-- `handlers[SIGCHLD] == SIG_IGN`. -/
def Task.ignoresChild (t : Task) : Bool := t.handlers 17 = sigIgn

/-- The parent is there, and does not ignore `SIGCHLD`. -/
def waitsFor (tk : TaskTable) (z : Task) : Bool :=
  match taskAt tk z.parent with
  | none => false
  | some p => !p.ignoresChild

/-- One slot of the auto-reap loop. -/
def reapStep (current : Slot) (tk : TaskTable) (n : Slot) : TaskTable :=
  match tk n with
  | none => tk
  | some z =>
    if n = current ∨ z.state ≠ .zombie ∨ waitsFor tk z then tk else update tk n none

/-- The auto-reap loop of `schedule`. -/
def autoReap (current : Slot) (tk : TaskTable) : TaskTable := (List.finRange 64).foldl (reapStep current) tk

/-- `task[]` and `current`. -/
structure Sched where
  tk : TaskTable
  current : Slot

namespace Sched

/-- **`schedule`**, with at most one recharge; `none` if the loop goes on after it. -/
def schedule (s : Sched) : Option (Choice × Sched) :=
  (scheduleLoop 2 (autoReap s.current s.tk)).map fun r =>
    match r.1 with
    | .switch n => (.switch n, { tk := r.2, current := n })
    | .idle => (.idle, { s with tk := r.2 })

def setTask (s : Sched) (n : Slot) (f : Task → Task) : Sched :=
  { s with tk := update s.tk n ((s.tk n).map f) }

/-- **`sys_nice`.** -/
def sysNice (s : Sched) (increment : Word) : Sched :=
  s.setTask s.current fun t =>
    if 0 < (t.priority - increment).toInt then { t with priority := t.priority - increment } else t

/-- The child of `sys_fork`. -/
def child (t : Task) (parent pid : Slot) : Task :=
  { t with
    parent := BitVec.ofNat 32 parent.val, pid := BitVec.ofNat 32 pid.val, counter := t.priority
    state := .running }

/-- The first free slot. -/
def freeTask (tk : TaskTable) : Option Slot := (List.finRange 64).find? fun n => (tk n).isNone

/-- What `sys_fork` does here: the child is a copy in the first free slot. -/
def sysFork (s : Sched) : Sched :=
  match freeTask s.tk, s.tk s.current with
  | some n, some t =>
    if n = 0 then s else { s with tk := update s.tk n (some (child t s.current n)) }
  | _, _ => s

/-- The end of `do_timer`: the running task loses a tick, and the processor with the last. -/
def tick (s : Sched) : Option Sched :=
  let s₁ := s.setTask s.current fun t =>
    if 0 < t.counter.toInt then { t with counter := t.counter - 1#32 } else t
  match s₁.tk s.current with
  | none => some s₁
  | some t => if 0 < t.counter.toInt then some s₁ else s₁.schedule.map Prod.snd

/-- The notification of the parent in `sys_exit`. -/
def notify (s : Sched) (w : Word) : Sched :=
  if h : w.toNat < 64 then
    s.setTask ⟨w.toNat, h⟩ fun p =>
      if p.ignoresChild then p
      else
        { p with
          signal := p.signal ||| sigBit sigchld
          state := if p.state = .interruptible then .running else p.state }
  else s

/-- `sys_exit`, up to its `schedule()`; the task in slot 0 stays. -/
def sysExit (s : Sched) (ret : Word) : Sched :=
  match s.tk s.current with
  | none => s
  | some t =>
    if s.current = 0 then s.setTask 0 fun t => { t with state := .running }
    else (s.setTask s.current fun t => { t with exitCode := ret, state := .zombie }).notify t.parent

end Sched

/-- What happens to the tasks. -/
inductive SchedOp where
  | fork
  | exit (ret : Word)
  | nice (increment : Word)
  | tick
  /-- A task's state changes: it goes to sleep, it is woken, it is stopped. -/
  | setState (n : Slot) (st : TaskState)
  | schedule

namespace Sched

/-- **One step**; `none` if a `schedule()` in it recharges more than once. -/
def step (s : Sched) : SchedOp → Option Sched
  | .fork => some s.sysFork
  | .exit ret => some (s.sysExit ret)
  | .nice inc => some (s.sysNice inc)
  | .tick => s.tick
  | .setState n st => some (s.setTask n fun t => { t with state := st })
  | .schedule => s.schedule.map Prod.snd

/-- **A run.** -/
def run (s : Sched) (ops : List SchedOp) : Option Sched := ops.foldlM step s

/-- The tasks that `sched_init()` leaves. -/
def boot : Sched where
  tk n :=
    if n = 0 then some { counter := 15#32, priority := 15#32 }
    else if n = 63 then some { counter := 10#32, priority := 10#32, pid := 63#32 }
    else none
  current := 0

/-! ### The scan -/

variable {tk : TaskTable} {s s' : Sched} {n : Slot} {t : Task} {c : Slot}

/-- A task that `schedule()` may switch to. -/
def Runnable (tk : TaskTable) (n : Slot) (t : Task) : Prop := tk n = some t ∧ t.state = .running

/-- **What the scan has found**, after the slots `l`. -/
theorem pickStep_foldl (tk : TaskTable) (l : List Slot) (best : ℤ × Option Slot) :
    (l.foldl (pickStep tk) best = best ∨
      ∃ n t, Runnable tk n t ∧ l.foldl (pickStep tk) best = (t.counter.toInt, some n)) ∧
    best.1 ≤ (l.foldl (pickStep tk) best).1 ∧
    ∀ n ∈ l, ∀ t, Runnable tk n t → t.counter.toInt ≤ (l.foldl (pickStep tk) best).1 := by
  induction l generalizing best with
  | nil => exact ⟨.inl rfl, le_rfl, fun n hn => nomatch hn⟩
  | cons n l ih =>
    have hstep : (pickStep tk best n = best ∨ ∃ t, Runnable tk n t ∧ pickStep tk best n = (t.counter.toInt, some n)) ∧
        best.1 ≤ (pickStep tk best n).1 ∧
        ∀ t, Runnable tk n t → t.counter.toInt ≤ (pickStep tk best n).1 := by
      unfold pickStep Runnable
      cases hn : tk n with
      | none => exact ⟨.inl rfl, le_rfl, fun t ht => nomatch ht.1⟩
      | some u =>
        simp only
        split
        · next h =>
          refine ⟨.inr ⟨u, ⟨rfl, h.1⟩, rfl⟩, h.2.le, fun t ht => ?_⟩
          obtain rfl := some.inj ht.1
          exact le_rfl
        · next h =>
          refine ⟨.inl rfl, le_rfl, fun t ht => ?_⟩
          obtain rfl := some.inj ht.1
          exact not_lt.mp fun hlt => h ⟨ht.2, hlt⟩
    obtain ⟨hwho, hle, hself⟩ := hstep
    obtain ⟨iwho, ile, iall⟩ := ih (pickStep tk best n)
    rw [foldl_cons]
    refine ⟨?_, hle.trans ile, fun m hm t ht => ?_⟩
    · rcases iwho with e | h
      · rw [e]
        rcases hwho with h | ⟨t, ht, h⟩
        · exact .inl h
        · exact .inr ⟨n, t, ht, h⟩
      · exact .inr h
    · rcases mem_cons.mp hm with rfl | hm
      · exact (hself t ht).trans ile
      · exact iall m hm t ht

/-- **What the scan finds**: nobody, or a runnable task with the largest counter. -/
theorem pick_spec (tk : TaskTable) :
    (pick tk = (-1, none) ∨ ∃ n t, Runnable tk n t ∧ pick tk = (t.counter.toInt, some n)) ∧
      ∀ n t, Runnable tk n t → t.counter.toInt ≤ (pick tk).1 := by
  obtain ⟨hwho, -, hall⟩ := pickStep_foldl tk (finRange 64).reverse (-1, none)
  exact ⟨hwho, fun n => hall n (mem_reverse.mpr (mem_finRange n))⟩

/-! ### The invariant -/

/-- The priority is positive and not too large, and the counter is not negative. -/
structure Charged (t : Task) : Prop where
  pos : 1 ≤ t.priority.toInt
  le : t.priority.toInt ≤ 2 ^ 30
  counter : 0 ≤ t.counter.toInt

/-- Every task is. -/
def ChargedAll (tk : TaskTable) : Prop := ∀ n t, tk n = some t → Charged t

/-- **The recharge does not overflow.** -/
theorem Charged.recharge_toInt (h : Charged t) :
    t.recharge.counter.toInt = t.counter.toInt / 2 + t.priority.toInt := by
  have hlt : t.counter.toInt < 2 ^ 31 := BitVec.toInt_lt
  have hp := h.pos
  have hle := h.le
  have hc := h.counter
  show (t.counter.sshiftRight 1 + t.priority).toInt = _
  have hshift : (t.counter.sshiftRight 1).toInt = t.counter.toInt / 2 := by
    rw [BitVec.toInt_sshiftRight, Int.shiftRight_eq_div_pow]
    rfl
  rw [BitVec.toInt_add, hshift]
  exact Int.bmod_eq_of_le_mul_two (by omega) (by omega)

theorem Charged.recharge (h : Charged t) : Charged t.recharge := by
  refine ⟨h.pos, h.le, ?_⟩
  have hp := h.pos
  have hc := h.counter
  rw [h.recharge_toInt]
  omega

theorem Charged.recharge_pos (h : Charged t) : 0 < t.recharge.counter.toInt := by
  have hp := h.pos
  have hc := h.counter
  rw [h.recharge_toInt]
  omega

theorem ChargedAll.recharge (h : ChargedAll tk) : ChargedAll (rechargeAll tk) := by
  intro n t ht
  obtain ⟨u, hu, rfl⟩ := map_eq_some_iff.mp ht
  exact (h n u hu).recharge

theorem Runnable.recharge (ht : Runnable tk n t) : Runnable (rechargeAll tk) n t.recharge :=
  ⟨map_eq_some_iff.mpr ⟨t, ht.1, rfl⟩, ht.2⟩

/-! ### The loop -/

/-- A runnable task with the largest counter has been chosen. -/
def Chosen (tk : TaskTable) (n : Slot) : Prop :=
  ∃ t, Runnable tk n t ∧ ∀ m u, Runnable tk m u → u.counter.toInt ≤ t.counter.toInt

/-- One pass, when some runnable task has ticks left. -/
theorem scheduleLoop_switch (fuel : ℕ) (h : Runnable tk n t) (hpos : 0 < t.counter.toInt) :
    ∃ m, scheduleLoop (fuel + 1) tk = some (.switch m, tk) ∧ Chosen tk m := by
  obtain ⟨hwho, hall⟩ := pick_spec tk
  have hle := hall n t h
  unfold scheduleLoop
  rcases hwho with e | ⟨m, u, hu, e⟩
  · rw [e] at hle
    omega
  rw [e] at hle hall
  refine ⟨m, ?_, u, hu, hall⟩
  rw [e]
  simp only
  rw [if_pos (by omega)]
  rfl

/-- One pass, when nobody is runnable. -/
theorem scheduleLoop_idle {fuel : ℕ} (h : ∀ n t, ¬ Runnable tk n t) :
    scheduleLoop (fuel + 1) tk = some (.idle, rechargeAll tk) := by
  obtain ⟨hwho, -⟩ := pick_spec tk
  unfold scheduleLoop
  rcases hwho with e | ⟨m, u, hu, -⟩
  · rw [e]
    rfl
  · exact absurd hu (h m u)

/-- **Two passes are enough.** -/
theorem scheduleLoop_two (hc : ChargedAll tk) :
    (∃ n t, Runnable tk n t) ∧
        (∃ m tk', scheduleLoop 2 tk = some (.switch m, tk') ∧ (tk' = tk ∨ tk' = rechargeAll tk) ∧ Chosen tk' m) ∨
      (∀ n t, ¬ Runnable tk n t) ∧ scheduleLoop 2 tk = some (.idle, rechargeAll tk) := by
  by_cases hrun : ∃ n t, Runnable tk n t
  · left
    refine ⟨hrun, ?_⟩
    by_cases hpos : ∃ n t, Runnable tk n t ∧ 0 < t.counter.toInt
    · obtain ⟨n, t, ht, hp⟩ := hpos
      obtain ⟨m, hm, hch⟩ := scheduleLoop_switch 1 ht hp
      exact ⟨m, tk, hm, .inl rfl, hch⟩
    -- all counters are used up, so the first pass recharges
    obtain ⟨n, t, ht⟩ := hrun
    have hzero : pick tk = (0, (pick tk).2) := by
      obtain ⟨hwho, hall⟩ := pick_spec tk
      rcases hwho with e | ⟨m, u, hu, e⟩
      · have hle := hall n t ht
        have h0 := (hc n t ht.1).counter
        rw [e] at hle
        omega
      · have h0 := (hc m u hu.1).counter
        have hn : ¬ 0 < u.counter.toInt := fun h => hpos ⟨m, u, hu, h⟩
        have hz : u.counter.toInt = 0 := by omega
        rw [e, hz]
    obtain ⟨m, hm, hch⟩ := scheduleLoop_switch 0 ht.recharge (hc n t ht.1).recharge_pos
    refine ⟨m, rechargeAll tk, ?_, .inr rfl, hch⟩
    rw [← hm, scheduleLoop, hzero]
    rfl
  · right
    have hno : ∀ n t, ¬ Runnable tk n t := fun n t h => hrun ⟨n, t, h⟩
    exact ⟨hno, scheduleLoop_idle hno⟩

/-! ### Reaping -/

/-- **What the auto-reap loop does at one slot**: nothing, or a zombie that nobody waits for goes. -/
theorem reapStep_cases (c : Slot) (tk : TaskTable) (m : Slot) :
    reapStep c tk m = tk ∨ ∃ z, tk m = some z ∧ z.state = .zombie ∧ m ≠ c ∧ waitsFor tk z = false ∧
        reapStep c tk m = update tk m none := by
  unfold reapStep
  cases hm : tk m with
  | none => exact .inl rfl
  | some z =>
    by_cases hk : m = c ∨ z.state ≠ .zombie ∨ waitsFor tk z
    · exact .inl (if_pos hk)
    simp only [not_or, not_not, Bool.not_eq_true] at hk
    obtain ⟨hmc, hz, hw⟩ := hk
    refine .inr ⟨z, rfl, hz, hmc, hw, if_neg ?_⟩
    simp only [not_or, not_not, Bool.not_eq_true]
    exact ⟨hmc, hz, hw⟩

/-- It only removes tasks. -/
theorem autoReap_some (h : autoReap c tk n = some t) : tk n = some t := by
  unfold autoReap at h
  generalize finRange 64 = l at h
  induction l generalizing tk with
  | nil => exact h
  | cons m l ih =>
    have h₁ := ih h
    rcases reapStep_cases c tk m with e | ⟨z, -, -, -, -, e⟩
    · rwa [e] at h₁
    rw [e] at h₁
    by_cases hn : n = m
    · subst hn
      rw [update_self] at h₁
      cases h₁
    · rwa [update_of_ne hn] at h₁

/-- It removes no runnable task. -/
theorem autoReap_runnable : Runnable (autoReap c tk) n t ↔ Runnable tk n t := by
  refine ⟨fun h => ⟨autoReap_some h.1, h.2⟩, fun h => ⟨?_, h.2⟩⟩
  unfold autoReap
  generalize finRange 64 = l
  induction l generalizing tk with
  | nil => exact h.1
  | cons m l ih =>
    refine ih ⟨?_, h.2⟩
    rcases reapStep_cases c tk m with e | ⟨z, hz, hst, -, -, e⟩
    · rw [e]
      exact h.1
    rw [e]
    have hn : n ≠ m := by
      rintro rfl
      obtain rfl : t = z := some.inj (h.1.symm.trans hz)
      rw [h.2] at hst
      cases hst
    rw [update_of_ne hn]
    exact h.1

theorem ChargedAll.autoReap (h : ChargedAll tk) : ChargedAll (autoReap c tk) :=
  fun n t ht => h n t (autoReap_some ht)

/-! ### Steps -/

/-- What a call of `schedule()` comes to. -/
def Selects (s : Sched) : Prop :=
  (∃ n t, Runnable s.tk n t) ∧ (∃ m s', s.schedule = some (.switch m, s') ∧ s'.current = m ∧ Chosen s'.tk m) ∨
    (∀ n t, ¬ Runnable s.tk n t) ∧ ∃ s', s.schedule = some (.idle, s') ∧ s'.current = s.current

section
variable (h : ChargedAll s.tk) {f : Task → Task}
include h

/-- **A call of `schedule()`** keeps the invariant. -/
theorem schedule_spec :
    s.Selects ∧ ∃ c s', s.schedule = some (c, s') ∧ ChargedAll s'.tk := by
  have hr := h.autoReap (c := s.current)
  unfold Selects schedule
  rcases scheduleLoop_two hr with ⟨⟨n, t, ht⟩, m, tk', e, htk, hch⟩ | ⟨hno, e⟩
  · rw [e]
    have hc : ChargedAll tk' := by
      rcases htk with rfl | rfl
      · exact hr
      · exact hr.recharge
    exact ⟨.inl ⟨⟨n, t, autoReap_runnable.mp ht⟩, m, _, rfl, rfl, hch⟩, _, _, rfl, hc⟩
  · rw [e]
    exact ⟨.inr ⟨fun n t ht => hno n t (autoReap_runnable.mpr ht), _, rfl, rfl⟩, _, _, rfl, hr.recharge⟩

/-- A change of one task keeps the invariant if it keeps it for that task. -/
theorem ChargedAll.setTask
    (hf : ∀ t, s.tk n = some t → Charged t → Charged (f t)) : ChargedAll (s.setTask n f).tk := by
  intro m t ht
  by_cases e : m = n
  · subst e
    change update s.tk m _ m = some t at ht
    rw [update_self] at ht
    obtain ⟨u, hu, rfl⟩ := map_eq_some_iff.mp ht
    exact hf u hu (h m u hu)
  · change update s.tk n _ m = some t at ht
    rw [update_of_ne e] at ht
    exact h m t ht

/-- A change that touches neither the priority nor the counter. -/
theorem ChargedAll.keep
    (hf : ∀ t, (f t).priority = t.priority ∧ (f t).counter = t.counter) : ChargedAll (s.setTask n f).tk := by
  refine h.setTask fun t _ hc => ?_
  obtain ⟨hp, hcnt⟩ := hf t
  exact ⟨hp ▸ hc.pos, hp ▸ hc.le, hcnt ▸ hc.counter⟩

theorem ChargedAll.sysFork : ChargedAll s.sysFork.tk := by
  unfold Sched.sysFork
  split
  · next n t hn ht =>
    split
    · exact h
    intro m u hu
    have hc := h _ t ht
    change update s.tk n (some (child t s.current n)) m = some u at hu
    by_cases e : m = n
    · subst e
      rw [update_self] at hu
      obtain rfl := some.inj hu
      have hpos := hc.pos
      exact ⟨hc.pos, hc.le, by show 0 ≤ t.priority.toInt; omega⟩
    · rw [update_of_ne e] at hu
      exact h m u hu
  · exact h

theorem ChargedAll.sysExit {ret : Word} : ChargedAll (s.sysExit ret).tk := by
  unfold Sched.sysExit
  split
  · exact h
  split
  · exact h.keep fun _ => ⟨rfl, rfl⟩
  have hz := h.keep (n := s.current) (f := fun t => { t with exitCode := ret, state := .zombie })
    fun _ => ⟨rfl, rfl⟩
  unfold Sched.notify
  split
  · refine hz.keep fun p => ?_
    split
    · exact ⟨rfl, rfl⟩
    · exact ⟨rfl, rfl⟩
  · exact hz

end

/-- `sys_nice` is told to leave the priority at `2 ^ 30` or below. -/
def Careful (s : Sched) : SchedOp → Prop
  | .nice inc => ∀ t, s.tk s.current = some t → t.priority.toInt - inc.toInt ≤ 2 ^ 30
  | .fork | .exit _ | .tick | .setState .. | .schedule => True

/-- The increment that is accepted is subtracted without an overflow. -/
theorem ChargedAll.sysNice {inc : Word} (h : ChargedAll s.tk) (hc : s.Careful (.nice inc)) :
    ChargedAll (s.sysNice inc).tk := by
  refine h.setTask fun t ht hch => ?_
  split
  · next hpos =>
    have hle := hc t ht
    have h₁ := hch.pos
    have hi : inc.toInt < 2 ^ 31 := BitVec.toInt_lt
    have hsub : (t.priority - inc).toInt = t.priority.toInt - inc.toInt := by
      rw [BitVec.toInt_sub]
      exact Int.bmod_eq_of_le_mul_two (by omega) (by omega)
    rw [hsub] at hpos
    exact ⟨by show 1 ≤ (t.priority - inc).toInt; omega, by show (t.priority - inc).toInt ≤ 2 ^ 30; omega, hch.counter⟩
  · exact hch

theorem ChargedAll.tick (h : ChargedAll s.tk) : ∃ s', s.tick = some s' ∧ ChargedAll s'.tk := by
  have h₁ : ChargedAll (s.setTask s.current fun t =>
      if 0 < t.counter.toInt then { t with counter := t.counter - 1#32 } else t).tk := by
    refine h.setTask fun t _ hc => ?_
    split
    · next hpos =>
      have hlt : t.counter.toInt < 2 ^ 31 := BitVec.toInt_lt
      have hsub : (t.counter - 1#32).toInt = t.counter.toInt - 1 := by
        rw [BitVec.toInt_sub]
        exact Int.bmod_eq_of_le_mul_two (by simp; omega) (by simp; omega)
      exact ⟨hc.pos, hc.le, by show 0 ≤ (t.counter - 1#32).toInt; omega⟩
    · exact hc
  unfold Sched.tick
  simp only
  generalize (s.setTask s.current fun t =>
    if 0 < t.counter.toInt then { t with counter := t.counter - 1#32 } else t) = s₁ at h₁
  split
  · exact ⟨s₁, rfl, h₁⟩
  split
  · exact ⟨s₁, rfl, h₁⟩
  · obtain ⟨-, c, s', e, hs'⟩ := schedule_spec h₁
    exact ⟨s', by rw [e]; rfl, hs'⟩

theorem ChargedAll.step {op : SchedOp} (h : ChargedAll s.tk) (hc : s.Careful op) :
    ∃ s', s.step op = some s' ∧ ChargedAll s'.tk := by
  cases op with
  | fork => exact ⟨_, rfl, h.sysFork⟩
  | exit ret => exact ⟨_, rfl, h.sysExit⟩
  | nice inc => exact ⟨_, rfl, h.sysNice hc⟩
  | tick => exact h.tick
  | setState n st => exact ⟨_, rfl, h.keep fun _ => ⟨rfl, rfl⟩⟩
  | schedule =>
    obtain ⟨-, c, s', e, hs'⟩ := schedule_spec h
    exact ⟨s', by show s.schedule.map Prod.snd = _; rw [e]; rfl, hs'⟩

/-- In every step of the run. -/
def CarefulRun : Sched → List SchedOp → Prop
  | _, [] => True
  | s, op :: ops => s.Careful op ∧ ∀ s', s.step op = some s' → CarefulRun s' ops

theorem ChargedAll.run {ops : List SchedOp} (h : ChargedAll s.tk) (hc : CarefulRun s ops) :
    ∃ s', s.run ops = some s' ∧ ChargedAll s'.tk := by
  induction ops generalizing s with
  | nil => exact ⟨s, rfl, h⟩
  | cons op ops ih =>
    obtain ⟨s₁, e, h₁⟩ := h.step hc.1
    obtain ⟨s', e', h'⟩ := ih h₁ (hc.2 s₁ e)
    refine ⟨s', ?_, h'⟩
    unfold Sched.run
    rw [foldlM_cons, e]
    exact e'

theorem boot_charged : ChargedAll boot.tk := by
  intro n t ht
  change (if n = 0 then _ else if n = 63 then _ else none) = some t at ht
  split at ht
  · obtain rfl := some.inj ht
    exact ⟨by decide, by decide, by decide⟩
  split at ht
  · obtain rfl := some.inj ht
    exact ⟨by decide, by decide, by decide⟩
  · cases ht

/-- **The scheduler finds a runnable task**, in every run in which no priority is raised above
`2 ^ 30`: every priority is positive and no counter negative, the recharge does not overflow, and a
call of `schedule()` ends after at most one recharge, with a runnable task of the largest counter if
there is a runnable task, and idle only if there is none. -/
theorem schedule_selects (ops : List SchedOp) (hc : CarefulRun boot ops) :
    ∃ s, boot.run ops = some s ∧ (∀ n t, s.tk n = some t → 1 ≤ t.priority.toInt ∧ 0 ≤ t.counter.toInt ∧
        t.recharge.counter.toInt = t.counter.toInt / 2 + t.priority.toInt) ∧ s.Selects := by
  obtain ⟨s, e, h⟩ := boot_charged.run hc
  refine ⟨s, e, fun n t ht => ?_, (schedule_spec h).1⟩
  exact ⟨(h n t ht).pos, (h n t ht).counter, (h n t ht).recharge_toInt⟩

/-- The init task asks for the largest priority there is, and sleeps while the machine idles. -/
def niceAndSleep : List SchedOp :=
  [.nice (15#32 - 0x7fffffff#32), .setState 63 .interruptible, .setState 0 .interruptible, .schedule,
    .setState 0 .running]

/-- The same with a priority of 30. -/
def niceALittle : List SchedOp :=
  [.nice (15#32 - 30#32), .setState 63 .interruptible, .setState 0 .interruptible, .schedule, .setState 0 .running]

/-- **A priority near the top of the range overflows the counter**: the task is runnable, its counter
is negative, and `schedule()` goes idle. -/
theorem nice_overflows :
    (boot.run niceAndSleep).map (fun s =>
      ((s.tk 0).map fun t => (t.state, t.priority.toInt, t.counter.toInt), s.schedule.map Prod.fst)) =
      some (some (.running, 2147483647, -2147483642), some .idle) := by
  decide

theorem niceALittle_selects :
    ∃ s, boot.run niceALittle = some s ∧ s.Selects := by
  have hc : CarefulRun boot niceALittle := by
    refine ⟨fun t ht => ?_, fun _ _ => ⟨trivial, fun _ _ => ⟨trivial, fun _ _ => ⟨trivial, fun _ _ =>
      ⟨trivial, fun _ _ => trivial⟩⟩⟩⟩⟩
    obtain rfl := some.inj ht
    decide
  obtain ⟨s, e, -, hs⟩ := schedule_selects niceALittle hc
  exact ⟨s, e, hs⟩

end Sched

end Linux001

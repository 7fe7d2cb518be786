import Mathlib.Data.Fintype.Basic
import Linux001.Lib.Run
import Linux001.Lib.Update

/-!
# Drivers — the lock of the disk

`hd_lock()`, `hd_unlock()`, `sleep_on()` and `wake_up()` as the timer can cut them: a task stands at
one of the places of `HdPc`, and a step of the system is one statement of one runnable task.  Only
the test of `hd_locked` runs with interrupts off.

* `HdLock.Excl` is kept by every step: one task at most holds the lock.
* `HdLock.Linked` is kept where the timer spares the window between the failed test and `schedule()`
  and the body of `wake_up()` (`HdLock.Spared`): every sleeper is reached from `hd_lock_q`, or from a
  sleeper that is awake again and passes the wake-up on.
-/

namespace Linux001

open Function (update update_self update_of_ne)

/-- Where a task is in the code of the lock. -/
inductive HdPc (T : Type) where
  /-- Not in the lock's code. -/
  | out
  /-- At the top of the loop of `hd_lock()`. -/
  | test
  /-- The flag was set: interrupts are on again, and the call of `sleep_on()` comes next. -/
  | enter
  /-- `tmp = *p` is done. -/
  | read (tmp : Option T)
  /-- `*p = current` is done. -/
  | queued (tmp : Option T)
  /-- `current->state = TASK_UNINTERRUPTIBLE` is done: in `schedule()`. -/
  | asleep (tmp : Option T)
  /-- `hd_lock()` returned. -/
  | holding
  /-- `hd_locked = 0` is done: at the test of `wake_up()`. -/
  | wake
  /-- At `(*p)->state = TASK_RUNNING`. -/
  | store
  /-- At `*p = NULL`. -/
  | clear
  deriving DecidableEq

namespace HdPc

variable {T : Type}

/-- The sleeper that was first in the queue before this one. -/
def tmp : HdPc T → Option T
  | queued t | asleep t => t
  | _ => none

def Asleep : HdPc T → Prop
  | asleep _ => True
  | _ => False

/-- The queue may lead here. -/
def Enqueued : HdPc T → Prop
  | queued _ | asleep _ => True
  | _ => False

/-- Where a switch to another task does harm: between the failed test and `schedule()`, and between the
test of `wake_up()` and its last store. -/
def Window : HdPc T → Prop
  | enter | read _ | queued _ | store | clear => True
  | _ => False

/-- Where the task may wait for something else: for the drive, with the lock held. -/
def Elsewhere : HdPc T → Prop
  | out | holding => True
  | _ => False

/-- In `wake_up()`. -/
def Wakes : HdPc T → Prop
  | wake | store | clear => True
  | _ => False

instance decidableWindow : (p : HdPc T) → Decidable p.Window
  | enter | read _ | queued _ | store | clear => isTrue trivial
  | out | test | asleep _ | holding | wake => isFalse id

instance decidableElsewhere : (p : HdPc T) → Decidable p.Elsewhere
  | out | holding => isTrue trivial
  | test | enter | read _ | queued _ | asleep _ | wake | store | clear => isFalse id

theorem Asleep.enqueued {p : HdPc T} (h : p.Asleep) : p.Enqueued := by
  cases p <;> first | exact h | exact h.elim

theorem Elsewhere.not_enqueued {p : HdPc T} (h : p.Elsewhere) : ¬ p.Enqueued := by
  cases p <;> first | exact id | exact h.elim

theorem Enqueued.asleep {p : HdPc T} (h : p.Enqueued) (hw : ¬ p.Window) : p.Asleep := by
  cases p <;> first | exact h.elim | exact (hw trivial).elim | trivial

theorem tmp_of_not_enqueued {p : HdPc T} (h : ¬ p.Enqueued) : p.tmp = none := by
  cases p <;> first | rfl | exact (h trivial).elim

theorem Elsewhere.not_window {p : HdPc T} (h : p.Elsewhere) : ¬ p.Window := by
  cases p <;> first | exact id | exact h.elim

theorem Elsewhere.not_wakes {p : HdPc T} (h : p.Elsewhere) : ¬ p.Wakes := by
  cases p <;> first | exact id | exact h.elim

end HdPc

/-- The lock, its queue, and each task's state and place. -/
structure HdLock (T : Type) where
  /-- `hd_locked` -/
  locked : Bool
  /-- `hd_lock_q` -/
  queue : Option T
  /-- `state == TASK_RUNNING` -/
  running : T → Bool
  pc : T → HdPc T

/-- What can happen. -/
inductive HdOp (T : Type) where
  /-- A task calls `hd_lock()`. -/
  | lock (n : T)
  /-- A task runs its next statement of the lock's code. -/
  | go (n : T)
  /-- A task that is not in the lock's code blocks. -/
  | nap (n : T)
  /-- What it waited for has happened. -/
  | stir (n : T)
  deriving DecidableEq

namespace HdLock

variable {T : Type} [DecidableEq T]

def boot : HdLock T where
  locked := false
  queue := none
  running := fun _ => true
  pc := fun _ => .out

def goto (s : HdLock T) (n : T) (p : HdPc T) : HdLock T := { s with pc := update s.pc n p }

def setState (s : HdLock T) (n : T) (b : Bool) : HdLock T :=
  { s with running := update s.running n b }

/-- `tmp->state = TASK_RUNNING`, for a task that blocks. -/
def passOn (s : HdLock T) : Option T → HdLock T
  | none => s
  | some m => if s.running m then s else s.setState m true

/-- The next statement of a task. -/
def go (s : HdLock T) (n : T) : HdLock T :=
  match s.pc n with
  | .out => s
  -- `cli()` to `sti()`: nothing comes between
  | .test => if s.locked then s.goto n .enter else { s.goto n .holding with locked := true }
  | .enter => s.goto n (.read s.queue)
  | .read t => { s.goto n (.queued t) with queue := some n }
  | .queued t => (s.setState n false).goto n (.asleep t)
  | .asleep t => (s.passOn t).goto n .test
  | .holding => { s.goto n .wake with locked := false }
  | .wake => if s.queue.isSome then s.goto n .store else s.goto n .out
  | .store =>
    match s.queue with
    | none => s.goto n .clear
    | some h => (s.setState h true).goto n .clear
  | .clear => { s.goto n .out with queue := none }

/-- The scheduler runs a task whose state is `TASK_RUNNING`. -/
def step (s : HdLock T) : HdOp T → HdLock T
  | .lock n => if s.running n ∧ s.pc n = .out then s.goto n .test else s
  | .go n => if s.running n then s.go n else s
  | .nap n => if s.running n ∧ (s.pc n).Elsewhere then s.setState n false else s
  | .stir n => if (s.pc n).Elsewhere then s.setState n true else s

abbrev run (l : List (HdOp T)) : HdLock T := l.foldl step boot

/-- A task that blocks in `sleep_on(&hd_lock_q)`. -/
def Blocked (s : HdLock T) (w : T) : Prop := (s.pc w).Asleep ∧ s.running w = false

/-- The tasks a wake-up of the queue reaches: its head, and each one's `tmp`. -/
inductive Chained (s : HdLock T) : T → Prop
  | head {h : T} : s.queue = some h → Chained s h
  | next {m w : T} : Chained s m → (s.pc m).tmp = some w → Chained s w

/-- The tasks that a sleeper which is awake again reaches. -/
inductive Pending (s : HdLock T) : T → Prop
  | woken {m : T} : (s.pc m).Asleep → s.running m = true → Pending s m
  | passed {m w : T} : Pending s m → (s.pc m).tmp = some w → Pending s w

/-- A runnable task in `wake_up()` has not yet stored to the head of the queue. -/
def Waking (s : HdLock T) : Prop := ∃ m, s.running m = true ∧ (s.pc m = .wake ∨ s.pc m = .store)

/-- Some runnable task wakes `w`. -/
def WakeUp (s : HdLock T) (w : T) : Prop := s.Pending w ∨ s.Waking ∧ s.Chained w

/-- **The lock excludes.** -/
structure Excl (s : HdLock T) : Prop where
  locked : ∀ n, s.pc n = .holding → s.locked = true
  unique : ∀ n m, s.pc n = .holding → s.pc m = .holding → n = m
  held : s.locked = true → ∃ n, s.pc n = .holding

/-- What the statements of a window rely on. -/
def At (s : HdLock T) (m : T) : HdPc T → Prop
  | .enter => s.locked = true
  | .read t => s.locked = true ∧ t = s.queue
  | .queued _ => s.locked = true ∧ s.queue = some m
  | .clear => ∀ h, s.queue = some h → (s.pc h).Asleep ∧ s.running h = true
  | _ => True

/-- **The queue reaches every sleeper.**  A pointer to a sleeper is in one place: in `hd_lock_q`, or in
the `tmp` of one other. -/
structure Linked (s : HdLock T) : Prop where
  phase : ∀ m, s.At m (s.pc m)
  head : ∀ h, s.queue = some h → (s.pc h).Enqueued
  idle : ∀ h, s.queue = some h → s.running h = true → (∃ m, s.pc m = .clear) ∨ (s.pc h).Window
  tail : ∀ m w, (s.pc m).tmp = some w → s.Blocked w
  inj : ∀ m k w, (s.pc m).tmp = some w → (s.pc k).tmp = some w → m = k
  apart : ∀ m w, s.queue = some w → (s.pc m).tmp ≠ some w
  reached : ∀ w, s.Blocked w → s.Chained w ∨ s.Pending w
  waking : s.locked = false → s.queue ≠ none → ∃ m, s.running m = true ∧ (s.pc m).Wakes

/-- The timer does not switch away from a task in a window. -/
def Spared (s : HdLock T) (op : HdOp T) : Prop := ∀ m, (s.pc m).Window → op = .go m

/-! ### What a step does -/

variable {s s' : HdLock T} {n m w : T} {op : HdOp T} {p : HdPc T}

/-- The statements of the lock's code, and what a task does outside of it. -/
inductive Does (s : HdLock T) (n : T) : HdLock T → Prop
  | call : s.pc n = .out → Does s n (s.goto n .test)
  | fail : s.pc n = .test → s.locked = true → Does s n (s.goto n .enter)
  | take : s.pc n = .test → s.locked = false → Does s n { s.goto n .holding with locked := true }
  | read : s.pc n = .enter → Does s n (s.goto n (.read s.queue))
  | link {t : Option T} : s.pc n = .read t → Does s n { s.goto n (.queued t) with queue := some n }
  | sleep {t : Option T} : s.pc n = .queued t → Does s n ((s.setState n false).goto n (.asleep t))
  | pass {t : Option T} : s.pc n = .asleep t → s.running n = true → Does s n ((s.passOn t).goto n .test)
  | free : s.pc n = .holding → s.running n = true → Does s n { s.goto n .wake with locked := false }
  | look {h : T} : s.pc n = .wake → s.queue = some h → s.running n = true → Does s n (s.goto n .store)
  | nobody : s.pc n = .wake → s.queue = none → Does s n (s.goto n .out)
  | rouse {h : T} : s.pc n = .store → s.queue = some h → s.running n = true →
      Does s n ((s.setState h true).goto n .clear)
  | null : s.pc n = .store → s.queue = none → Does s n (s.goto n .clear)
  | unlink : s.pc n = .clear → Does s n { s.goto n .out with queue := none }
  | other (b : Bool) : (s.pc n).Elsewhere → Does s n (s.setState n b)

theorem go_does (hr : s.running n = true) : s.go n = s ∨ s.Does n (s.go n) := by
  unfold go
  split
  case h_1 => exact .inl rfl
  case h_2 hp =>
    by_cases hl : s.locked = true
    · rw [if_pos hl]
      exact .inr (.fail hp hl)
    · rw [if_neg hl]
      exact .inr (.take hp (Bool.eq_false_iff.mpr hl))
  case h_3 hp => exact .inr (.read hp)
  case h_4 hp => exact .inr (.link hp)
  case h_5 hp => exact .inr (.sleep hp)
  case h_6 hp => exact .inr (.pass hp hr)
  case h_7 hp => exact .inr (.free hp hr)
  case h_8 hp =>
    cases hq : s.queue with
    | none => exact .inr (.nobody hp hq)
    | some h => exact .inr (.look hp hq hr)
  case h_9 hp =>
    cases hq : s.queue with
    | none => exact .inr (.null hp hq)
    | some h => exact .inr (.rouse hp hq hr)
  case h_10 hp => exact .inr (.unlink hp)

/-- A step is one of these by one task; where the windows are spared, no other task is in one. -/
theorem step_does (s : HdLock T) (op : HdOp T) :
    s.step op = s ∨ ∃ n, s.Does n (s.step op) ∧ (s.Spared op → ∀ m, m ≠ n → ¬ (s.pc m).Window) := by
  cases op with
  | lock n =>
    by_cases hc : s.running n ∧ s.pc n = .out
    · refine .inr ⟨n, ?_, fun hs m _ hm => nomatch hs m hm⟩
      rw [step, if_pos hc]
      exact .call hc.2
    · exact .inl (if_neg hc)
  | go n =>
    by_cases hr : s.running n = true
    · rw [step, if_pos hr]
      refine (go_does hr).imp_right fun h => ⟨n, h, fun hs m hm hw => hm ?_⟩
      exact (HdOp.go.inj (hs m hw)).symm
    · exact .inl (if_neg hr)
  | nap n =>
    by_cases hc : s.running n ∧ (s.pc n).Elsewhere
    · refine .inr ⟨n, ?_, fun hs m _ hm => nomatch hs m hm⟩
      rw [step, if_pos hc]
      exact .other false hc.2
    · exact .inl (if_neg hc)
  | stir n =>
    by_cases hc : (s.pc n).Elsewhere
    · refine .inr ⟨n, ?_, fun hs m _ hm => nomatch hs m hm⟩
      rw [step, if_pos hc]
      exact .other true hc
    · exact .inl (if_neg hc)

theorem passOn_rest (s : HdLock T) (t : Option T) :
    (s.passOn t).locked = s.locked ∧ (s.passOn t).pc = s.pc ∧ (s.passOn t).queue = s.queue := by
  unfold passOn
  split
  · exact ⟨rfl, rfl, rfl⟩
  · split <;> exact ⟨rfl, rfl, rfl⟩

/-! ### One task holds the lock -/

omit [DecidableEq T] in
theorem Excl.boot : (boot : HdLock T).Excl where
  locked := nofun
  unique := nofun
  held := nofun

/-- A task that does not hold the lock moves, and does not take it. -/
theorem Excl.move (h : s.Excl) (hn : s.pc n ≠ .holding) (hp : p ≠ .holding) (hl : s'.locked = s.locked)
    (hpc : s'.pc = update s.pc n p) : s'.Excl := by
  have key : ∀ k, s'.pc k = .holding ↔ s.pc k = .holding := by
    intro k
    rw [hpc]
    by_cases e : k = n
    · subst e
      rw [update_self]
      exact iff_of_false hp hn
    · rw [update_of_ne e]
  refine ⟨fun k hk => ?_, fun k j hk hj => h.unique k j ((key k).mp hk) ((key j).mp hj), fun hh => ?_⟩
  · rw [hl]
    exact h.locked k ((key k).mp hk)
  · obtain ⟨k, hk⟩ := h.held (hl ▸ hh)
    exact ⟨k, (key k).mpr hk⟩

theorem Excl.does (h : s.Excl) (hd : s.Does n s') : s'.Excl := by
  -- every statement but the two that take and free the lock leaves the flag and the holder alone
  have move : ∀ {q p : HdPc T}, s.pc n = q → q ≠ .holding → p ≠ .holding → s'.locked = s.locked →
      s'.pc = update s.pc n p → s'.Excl := fun hq hn hp => h.move (hq ▸ hn) hp
  cases hd with
  | call hp => exact move hp nofun (p := .test) nofun rfl rfl
  | fail hp _ => exact move hp nofun (p := .enter) nofun rfl rfl
  | take hp hl =>
    have none : ∀ k, s.pc k ≠ .holding := fun k hk => Bool.false_ne_true (hl ▸ h.locked k hk)
    refine ⟨fun _ _ => rfl, fun k j hk hj => ?_, fun _ => ⟨n, update_self ..⟩⟩
    obtain ⟨rfl, -⟩ | ⟨-, hk⟩ := of_update_eq hk
    · obtain ⟨rfl, -⟩ | ⟨-, hj⟩ := of_update_eq hj
      · rfl
      · exact absurd hj (none j)
    · exact absurd hk (none k)
  | read hp => exact move hp nofun (p := .read s.queue) nofun rfl rfl
  | @link t hp => exact move hp nofun (p := .queued t) nofun rfl rfl
  | @sleep t hp => exact move hp nofun (p := .asleep t) nofun rfl rfl
  | @pass t hp _ =>
    refine move hp nofun (p := .test) nofun (passOn_rest s t).1 ?_
    exact congrArg (fun f => update f n HdPc.test) (passOn_rest s t).2.1
  | free hp _ =>
    have only : ∀ k, update s.pc n .wake k ≠ .holding := by
      intro k hk
      obtain ⟨-, e⟩ | ⟨hne, hk⟩ := of_update_eq hk
      · cases e
      · exact hne (h.unique k n hk hp)
    exact ⟨fun k hk => absurd hk (only k), fun k j hk _ => absurd hk (only k), nofun⟩
  | look hp _ _ => exact move hp nofun (p := .store) nofun rfl rfl
  | nobody hp _ => exact move hp nofun (p := .out) nofun rfl rfl
  | rouse hp _ _ => exact move hp nofun (p := .clear) nofun rfl rfl
  | null hp _ => exact move hp nofun (p := .clear) nofun rfl rfl
  | unlink hp => exact move hp nofun (p := .out) nofun rfl rfl
  | other _ _ => exact ⟨h.locked, h.unique, h.held⟩

theorem Excl.step (h : s.Excl) : (s.step op).Excl := by
  obtain e | ⟨n, hd, -⟩ := s.step_does op
  · exact e.symm ▸ h
  · exact h.does hd

theorem run_excl (l : List (HdOp T)) : (run l).Excl := Run.inv Excl.step l Excl.boot

/-! ### The queue reaches every sleeper -/

omit [DecidableEq T] in
theorem Linked.boot : (boot : HdLock T).Linked where
  phase := fun _ => trivial
  head := nofun
  idle := nofun
  tail := nofun
  inj := nofun
  apart := nofun
  reached := fun _ h => h.1.elim
  waking := fun _ h => absurd rfl h

section

omit [DecidableEq T]

theorem at_of_not_window (h : ¬ p.Window) : s.At m p := by
  cases p <;> first | trivial | exact (h trivial).elim

theorem Chained.mono (h : s.Chained w) (hq : s'.queue = s.queue)
    (ht : ∀ k v, s.Chained k → (s.pc k).tmp = some v → (s'.pc k).tmp = some v) : s'.Chained w := by
  induction h with
  | head hh => exact .head (hq.trans hh)
  | next hm hv ih => exact .next ih (ht _ _ hm hv)

theorem Pending.mono (h : s.Pending w)
    (hw : ∀ k, (s.pc k).Asleep → s.running k = true → (s'.pc k).Asleep ∧ s'.running k = true)
    (ht : ∀ k v, (s.pc k).tmp = some v → (s'.pc k).tmp = some v) : s'.Pending w := by
  induction h with
  | woken ha hr => exact .woken (hw _ ha hr).1 (hw _ ha hr).2
  | passed _ hv ih => exact .passed ih (ht _ _ hv)

/-- Where the head of the queue is awake, the whole queue is as good as awake. -/
theorem Chained.pending (h : s.Chained w) (hh : ∀ k, s.queue = some k → s.Pending k) : s.Pending w := by
  induction h with
  | head hk => exact hh _ hk
  | next _ hv ih => exact .passed ih hv

/-- Only the task that moves can be in a window after it has moved. -/
theorem phase_of (hpc : ∀ m, m ≠ n → s'.pc m = s.pc m) (hothers : ∀ m, m ≠ n → ¬ (s.pc m).Window)
    (hn : s'.At n (s'.pc n)) (m : T) : s'.At m (s'.pc m) := by
  by_cases e : m = n
  · exact e.symm ▸ hn
  · rw [hpc m e]
    exact at_of_not_window (hothers m e)

/-- A task that is not in `wake_up()` moves. -/
theorem Linked.waking_frame (h : s.Linked) (hn : ¬ (s.pc n).Wakes) (hl : s'.locked = s.locked)
    (hq : s'.queue = s.queue) (hpc : ∀ k, k ≠ n → s'.pc k = s.pc k) (hrun : ∀ k, k ≠ n → s.running k = true → s'.running k = true) :
    s'.locked = false → s'.queue ≠ none → ∃ m, s'.running m = true ∧ (s'.pc m).Wakes := by
  intro h₁ h₂
  obtain ⟨m, hm, hw⟩ := h.waking (hl ▸ h₁) (hq ▸ h₂)
  have hne : m ≠ n := fun e => hn (e ▸ hw)
  exact ⟨m, hrun m hne hm, (hpc m hne).symm ▸ hw⟩

/-- A step that changes nothing about the tasks the queue can lead to. -/
theorem Linked.frame (h : s.Linked) (hq : s'.queue = s.queue)
    (hpc : ∀ k, s'.pc k = s.pc k ∨ ¬ (s.pc k).Enqueued ∧ ¬ (s'.pc k).Enqueued)
    (hrun : ∀ k, (s.pc k).Enqueued → s'.running k = s.running k)
    (hphase : ∀ m, s'.At m (s'.pc m)) (hclear : ∀ m, s.pc m ≠ .clear)
    (hwaking : s'.locked = false → s'.queue ≠ none → ∃ m, s'.running m = true ∧ (s'.pc m).Wakes) :
    s'.Linked := by
  have keep : ∀ k, (s.pc k).Enqueued → s'.pc k = s.pc k := fun k hk =>
    (hpc k).resolve_right fun hn => hn.1 hk
  have back : ∀ k, (s'.pc k).Enqueued → s'.pc k = s.pc k := fun k hk =>
    (hpc k).resolve_right fun hn => hn.2 hk
  have tmp : ∀ k, (s'.pc k).tmp = (s.pc k).tmp := by
    intro k
    obtain e | ⟨hn, hn'⟩ := hpc k
    · rw [e]
    · rw [HdPc.tmp_of_not_enqueued hn, HdPc.tmp_of_not_enqueued hn']
  have blocked : ∀ k, s'.Blocked k ↔ s.Blocked k := by
    intro k
    constructor
    · rintro ⟨ha, hr⟩
      have e := back k ha.enqueued
      rw [e] at ha
      exact ⟨ha, (hrun k ha.enqueued).symm.trans hr⟩
    · rintro ⟨ha, hr⟩
      exact ⟨(keep k ha.enqueued).symm ▸ ha, (hrun k ha.enqueued).trans hr⟩
  refine ⟨hphase, fun k hk => ?_, fun k hk hr => ?_, fun m w hm => ?_, fun m k w hm hk => ?_,
    fun m w hw hm => ?_, fun w hw => ?_, hwaking⟩
  · have he := h.head k (hq ▸ hk)
    exact (keep k he).symm ▸ he
  · have he := h.head k (hq ▸ hk)
    obtain ⟨m, hm⟩ | hw := h.idle k (hq ▸ hk) ((hrun k he).symm.trans hr)
    · exact absurd hm (hclear m)
    · exact .inr ((keep k he).symm ▸ hw)
  · exact (blocked w).mpr (h.tail m w (tmp m ▸ hm))
  · exact h.inj m k w (tmp m ▸ hm) (tmp k ▸ hk)
  · exact h.apart m w (hq ▸ hw) (tmp m ▸ hm)
  · refine (h.reached w ((blocked w).mp hw)).imp (fun hc => hc.mono hq ?_) (fun hp => hp.mono ?_ ?_)
    · exact fun k v _ hv => (tmp k).trans hv
    · exact fun k ha hr => ⟨(keep k ha.enqueued).symm ▸ ha, (hrun k ha.enqueued).trans hr⟩
    · exact fun k v hv => (tmp k).trans hv

end

section
variable (h : s.Linked) (hothers : ∀ m, m ≠ n → ¬ (s.pc m).Window) {t : Option T}
include h hothers

/-- A task that the queue does not lead to moves. -/
theorem Linked.move {q : HdPc T} (hn : s.pc n = q)
    (hq : ¬ q.Enqueued) (hp : ¬ p.Enqueued) (hc : q ≠ .clear) (hqueue : s'.queue = s.queue)
    (hrun : s'.running = s.running) (hpc : s'.pc = update s.pc n p) (hat : s'.At n p)
    (hwaking : s'.locked = false → s'.queue ≠ none → ∃ m, s'.running m = true ∧ (s'.pc m).Wakes) :
    s'.Linked := by
  have self : s'.pc n = p := by rw [hpc, update_self]
  have rest : ∀ m, m ≠ n → s'.pc m = s.pc m := fun m hm => by rw [hpc, update_of_ne hm]
  refine h.frame hqueue (fun k => ?_) (fun k _ => congrFun hrun k) ?_ ?_ hwaking
  · by_cases e : k = n
    · subst e
      exact .inr ⟨hn.symm ▸ hq, self.symm ▸ hp⟩
    · exact .inl (rest k e)
  · exact phase_of rest hothers (self.symm ▸ hat)
  · intro m hm
    by_cases e : m = n
    · subst e
      exact hc (hn.symm.trans hm)
    · exact hothers m e (hm.symm ▸ trivial)

/-- `*p = current`: the queue is now this task and, through its `tmp`, what it was. -/
theorem Linked.link
    (hp : s.pc n = .read t) : { s.goto n (.queued t) with queue := some n }.Linked := by
  obtain ⟨hl, rfl⟩ : s.locked = true ∧ t = s.queue := by
    have := h.phase n
    rwa [hp] at this
  have self : (s.goto n (.queued s.queue)).pc n = .queued s.queue := update_self ..
  have own : ((s.goto n (.queued s.queue)).pc n).tmp = s.queue := congrArg HdPc.tmp self
  have rest : ∀ m, m ≠ n → (s.goto n (.queued s.queue)).pc m = s.pc m := fun m hm => update_of_ne hm ..
  have notSelf : ∀ {k}, (s.pc k).Enqueued → k ≠ n := by
    rintro k hk rfl
    rw [hp] at hk
    exact hk
  have tmp : ∀ k v, (s.pc k).tmp = some v → ((s.goto n (.queued s.queue)).pc k).tmp = some v := by
    intro k v hv
    by_cases e : k = n
    · subst e
      rw [hp] at hv
      cases hv
    · rwa [rest k e]
  -- the old head of the queue blocks: no task is in a window but this one
  have old : ∀ w, s.queue = some w → s.Blocked w := by
    intro w hw
    have he := h.head w hw
    have hne := notSelf he
    refine ⟨he.asleep (hothers w hne), Bool.eq_false_iff.mpr fun hr => ?_⟩
    obtain ⟨m, hm⟩ | hwin := h.idle w hw hr
    · refine hothers m (fun e => ?_) (hm.symm ▸ trivial)
      rw [e, hp] at hm
      cases hm
    · exact hothers w hne hwin
  have keep : ∀ {w}, s.Blocked w → { s.goto n (.queued s.queue) with queue := some n }.Blocked w := by
    rintro w ⟨ha, hr⟩
    exact ⟨(rest w (notSelf ha.enqueued)).symm ▸ ha, hr⟩
  refine ⟨phase_of rest hothers ?_, ?_, ?_, fun m w hm => ?_, fun m k w hm hk => ?_, fun m w hw hm => ?_,
    fun w hw => ?_, fun hf => absurd hl (Bool.eq_false_iff.mp hf)⟩
  · rw [self]
    exact ⟨hl, rfl⟩
  · rintro _ ⟨⟩
    exact self.symm ▸ trivial
  · rintro _ ⟨⟩ -
    exact .inr (self.symm ▸ trivial)
  · by_cases e : m = n
    · subst e
      exact keep (old w (own.symm.trans hm))
    · exact keep (h.tail m w (rest m e ▸ hm))
  · by_cases e : m = n
    · by_cases e' : k = n
      · exact e.trans e'.symm
      · subst e
        exact absurd (rest k e' ▸ hk) (h.apart k w (own.symm.trans hm))
    · by_cases e' : k = n
      · subst e'
        exact absurd (rest m e ▸ hm) (h.apart m w (own.symm.trans hk))
      · exact h.inj m k w (rest m e ▸ hm) (rest k e' ▸ hk)
  · obtain rfl : n = w := Option.some.inj hw
    by_cases e : m = n
    · subst e
      exact notSelf (h.head m (own.symm.trans hm)) rfl
    · exact notSelf (h.tail m n (rest m e ▸ hm)).1.enqueued rfl
  · have hne : w ≠ n := by
      rintro rfl
      exact (self ▸ hw.1 : (HdPc.queued s.queue).Asleep)
    obtain hc | hpend := h.reached w ⟨rest w hne ▸ hw.1, hw.2⟩
    · refine .inl ?_
      clear hw hne
      induction hc with
      | head hh => exact .next (.head rfl) (self.symm ▸ hh)
      | next _ hv ih => exact .next ih (tmp _ _ hv)
    · refine .inr (hpend.mono (fun k ha hr => ⟨?_, hr⟩) tmp)
      exact (rest k (notSelf ha.enqueued)).symm ▸ ha

/-- `current->state = TASK_UNINTERRUPTIBLE`: the head of the queue blocks. -/
theorem Linked.sleep
    (hp : s.pc n = .queued t) : ((s.setState n false).goto n (.asleep t)).Linked := by
  obtain ⟨hl, hq⟩ : s.locked = true ∧ s.queue = some n := by
    have := h.phase n
    rwa [hp] at this
  have self : ((s.setState n false).goto n (.asleep t)).pc n = .asleep t := update_self ..
  have rest : ∀ m, m ≠ n → ((s.setState n false).goto n (.asleep t)).pc m = s.pc m :=
    fun m hm => update_of_ne hm ..
  have off : ((s.setState n false).goto n (.asleep t)).running n = false := update_self ..
  have on : ∀ m, m ≠ n → ((s.setState n false).goto n (.asleep t)).running m = s.running m :=
    fun m hm => update_of_ne hm ..
  have tmp : ∀ k, (((s.setState n false).goto n (.asleep t)).pc k).tmp = (s.pc k).tmp := by
    intro k
    by_cases e : k = n
    · subst e
      rw [self, hp]
      rfl
    · rw [rest k e]
  have notSelf : ∀ {k}, (s.pc k).Asleep → k ≠ n := by
    rintro k hk rfl
    rw [hp] at hk
    exact hk
  refine ⟨phase_of rest hothers (self.symm ▸ trivial), fun k hk => ?_, fun k hk hr => ?_, fun m w hm => ?_,
    fun m k w hm hk => ?_, fun m w hw hm => ?_, fun w hw => ?_, fun hf => absurd hl (Bool.eq_false_iff.mp hf)⟩
  · obtain rfl : n = k := Option.some.inj (hq.symm.trans hk)
    exact self.symm ▸ trivial
  · obtain rfl : n = k := Option.some.inj (hq.symm.trans hk)
    exact absurd hr (Bool.eq_false_iff.mp off)
  · obtain ⟨ha, hr⟩ := h.tail m w (tmp m ▸ hm)
    exact ⟨(rest w (notSelf ha)).symm ▸ ha, (on w (notSelf ha)).trans hr⟩
  · exact h.inj m k w (tmp m ▸ hm) (tmp k ▸ hk)
  · exact h.apart m w hw (tmp m ▸ hm)
  · by_cases e : w = n
    · exact .inl (.head (e ▸ hq))
    refine (h.reached w ⟨rest w e ▸ hw.1, on w e ▸ hw.2⟩).imp (fun hc => hc.mono rfl ?_) (fun hpend => hpend.mono ?_ ?_)
    · exact fun k v _ hv => (tmp k).trans hv
    · exact fun k ha hr => ⟨(rest k (notSelf ha)).symm ▸ ha, (on k (notSelf ha)).trans hr⟩
    · exact fun k v hv => (tmp k).trans hv

omit h hothers in
theorem passOn_running (s : HdLock T) (t : Option T) (k : T) :
    (s.passOn t).running k = true ↔ s.running k = true ∨ t = some k := by
  cases t with
  | none => exact (or_iff_left nofun).symm
  | some m =>
    by_cases hm : s.running m = true
    · rw [passOn, if_pos hm]
      refine (or_iff_left_of_imp ?_).symm
      rintro ⟨⟩
      exact hm
    · rw [passOn, if_neg hm, setState]
      by_cases e : k = m
      · simp [e]
      · simp [update_of_ne e, Ne.symm e]

/-- The end of `sleep_on()`: what this task would have woken, it has woken. -/
theorem Linked.pass
    (hp : s.pc n = .asleep t) (hr : s.running n = true) : ((s.passOn t).goto n .test).Linked := by
  set s' := (s.passOn t).goto n .test with hs'
  have self : s'.pc n = .test := update_self ..
  have rest : ∀ m, m ≠ n → s'.pc m = s.pc m := fun m hm => by
    rw [hs', goto, (passOn_rest s t).2.1]
    exact update_of_ne hm ..
  have queue : s'.queue = s.queue := (passOn_rest s t).2.2
  have running : ∀ k, s'.running k = true ↔ s.running k = true ∨ t = some k := passOn_running s t
  have own : (s.pc n).tmp = t := by
    rw [hp]
    rfl
  have noWindow : ∀ m, ¬ (s.pc m).Window := by
    intro m hm
    by_cases e : m = n
    · rw [e, hp] at hm
      exact hm
    · exact hothers m e hm
  have asleep : ∀ k, s.queue = some k → s.running k = false := by
    refine fun k hk => Bool.eq_false_iff.mpr fun hr => ?_
    obtain ⟨m, hm⟩ | hw := h.idle k hk hr
    · exact noWindow m (hm.symm ▸ trivial)
    · exact noWindow k hw
  -- so the queue does not lead to this task
  have notSelf : ∀ {k}, s.running k = false → k ≠ n := by
    rintro k hk rfl
    exact Bool.false_ne_true (hk.symm.trans hr)
  have chained : ∀ {k}, s.Chained k → k ≠ n := by
    intro k hk
    cases hk with
    | head hh => exact notSelf (asleep k hh)
    | next _ hv => exact notSelf (h.tail _ k hv).2
  have tmp : ∀ {m w}, (s'.pc m).tmp = some w → m ≠ n ∧ (s.pc m).tmp = some w := by
    intro m w hm
    by_cases e : m = n
    · rw [e, self] at hm
      cases hm
    · exact ⟨e, rest m e ▸ hm⟩
  refine ⟨phase_of rest hothers (self.symm ▸ trivial), fun k hk => ?_, fun k hk hrk => ?_, fun m w hm => ?_,
    fun m k w hm hk => h.inj m k w (tmp hm).2 (tmp hk).2, fun m w hw hm => h.apart m w (queue ▸ hw) (tmp hm).2,
    fun w hw => ?_, ?_⟩
  · rw [queue] at hk
    exact (rest k (notSelf (asleep k hk))).symm ▸ h.head k hk
  · rw [queue] at hk
    obtain hrk | hrk := (running k).mp hrk
    · exact absurd hrk (Bool.eq_false_iff.mp (asleep k hk))
    · exact absurd (own.trans hrk) (h.apart n k hk)
  · obtain ⟨hne, hm⟩ := tmp hm
    obtain ⟨ha, hf⟩ := h.tail m w hm
    refine ⟨(rest w (notSelf hf)).symm ▸ ha, Bool.eq_false_iff.mpr fun hrw => ?_⟩
    obtain hrw | hrw := (running w).mp hrw
    · exact absurd hrw (Bool.eq_false_iff.mp hf)
    · exact hne (h.inj m n w hm (own.trans hrw))
  · have hne : w ≠ n := by
      rintro rfl
      exact (self ▸ hw.1 : (HdPc.test : HdPc T).Asleep)
    have hf : s.running w = false := Bool.eq_false_iff.mpr fun hf =>
      absurd ((running w).mpr (.inl hf)) (Bool.eq_false_iff.mp hw.2)
    obtain hc | hpend := h.reached w ⟨rest w hne ▸ hw.1, hf⟩
    · exact .inl (hc.mono queue fun k v hk hv => (rest k (chained hk)).symm ▸ hv)
    refine .inr ?_
    clear hw hf
    induction hpend with
    | @woken k ha hk => exact .woken ((rest k hne).symm ▸ ha) ((running k).mpr (.inl hk))
    | @passed m v _ hv ih =>
      by_cases e : m = n
      · -- the step itself wakes `v`
        subst e
        exact .woken ((rest v hne).symm ▸ (h.tail m v hv).1) ((running v).mpr (.inr (own.symm.trans hv)))
      · exact .passed (ih e) ((rest m e).symm ▸ hv)
  · refine h.waking_frame (by rw [hp]; exact id) (passOn_rest s t).1 queue rest ?_
    exact fun k _ hk => (running k).mpr (.inl hk)

/-- `(*p)->state = TASK_RUNNING`: with its head the whole queue is as good as awake. -/
theorem Linked.rouse {k : T}
    (hp : s.pc n = .store) (hq : s.queue = some k) (hr : s.running n = true) :
    ((s.setState k true).goto n .clear).Linked := by
  set s' := (s.setState k true).goto n .clear with hs'
  have self : s'.pc n = .clear := update_self ..
  have rest : ∀ m, m ≠ n → s'.pc m = s.pc m := fun m hm => update_of_ne hm ..
  have roused : s'.running k = true := update_self ..
  have still : ∀ m, m ≠ k → s'.running m = s.running m := fun m hm => update_of_ne hm ..
  have more : ∀ m, s.running m = true → s'.running m = true := by
    intro m hm
    by_cases e : m = k
    · exact e.symm ▸ roused
    · exact (still m e).trans hm
  have notSelf : ∀ {m}, (s.pc m).Enqueued → m ≠ n := by
    rintro m hm rfl
    rw [hp] at hm
    exact hm
  have tmp : ∀ m, (s'.pc m).tmp = (s.pc m).tmp := by
    intro m
    by_cases e : m = n
    · rw [e, self, hp]
      rfl
    · rw [rest m e]
  have hk : (s'.pc k).Asleep := by
    have he := h.head k hq
    rw [rest k (notSelf he)]
    exact he.asleep (hothers k (notSelf he))
  refine ⟨phase_of rest hothers ?_, fun m hm => ?_, fun m hm _ => .inl ⟨n, self⟩, fun m w hm => ?_,
    fun m j w hm hj => h.inj m j w (tmp m ▸ hm) (tmp j ▸ hj), fun m w hw hm => h.apart m w hw (tmp m ▸ hm),
    fun w hw => ?_, fun _ _ => ⟨n, more n hr, self.symm ▸ trivial⟩⟩
  · rw [self]
    intro m hm
    obtain rfl : k = m := Option.some.inj (hq.symm.trans hm)
    exact ⟨hk, roused⟩
  · obtain rfl : k = m := Option.some.inj (hq.symm.trans hm)
    exact hk.enqueued
  · obtain ⟨ha, hf⟩ := h.tail m w (tmp m ▸ hm)
    refine ⟨(rest w (notSelf ha.enqueued)).symm ▸ ha, (still w fun e => ?_).trans hf⟩
    exact h.apart m k hq (e ▸ tmp m ▸ hm)
  have hne : w ≠ k := by
    rintro rfl
    exact Bool.false_ne_true (hw.2.symm.trans roused)
  have hnn : w ≠ n := by
    rintro rfl
    exact (self ▸ hw.1 : (HdPc.clear : HdPc T).Asleep)
  refine .inr ?_
  obtain hc | hpend := h.reached w ⟨rest w hnn ▸ hw.1, still w hne ▸ hw.2⟩
  · have hc' : s'.Chained w := hc.mono rfl fun m v _ hv => (tmp m).trans hv
    refine hc'.pending fun m hm => ?_
    obtain rfl : k = m := Option.some.inj (hq.symm.trans hm)
    exact .woken hk roused
  · refine hpend.mono (fun m ha hm => ⟨?_, more m hm⟩) fun m v hv => (tmp m).trans hv
    exact (rest m (notSelf ha.enqueued)).symm ▸ ha

/-- `*p = NULL`: the task that the queue led to is awake and leads to the rest. -/
theorem Linked.unlink (hp : s.pc n = .clear) :
    { s.goto n .out with queue := none }.Linked := by
  have awake : ∀ k, s.queue = some k → (s.pc k).Asleep ∧ s.running k = true := by
    have := h.phase n
    rwa [hp] at this
  have self : (s.goto n .out).pc n = .out := update_self ..
  have rest : ∀ m, m ≠ n → (s.goto n .out).pc m = s.pc m := fun m hm => update_of_ne hm ..
  have tmp : ∀ m, ((s.goto n .out).pc m).tmp = (s.pc m).tmp := by
    intro m
    by_cases e : m = n
    · rw [e, self, hp]
      rfl
    · rw [rest m e]
  have keep : ∀ {k}, (s.pc k).Asleep → ((s.goto n .out).pc k).Asleep := by
    intro k hk
    rwa [rest k]
    rintro rfl
    rw [hp] at hk
    exact hk
  refine ⟨phase_of rest hothers (self.symm ▸ trivial), nofun, nofun, fun m w hm => ?_,
    fun m j w hm hj => h.inj m j w (tmp m ▸ hm) (tmp j ▸ hj), nofun, fun w hw => ?_, fun _ hn => absurd rfl hn⟩
  · obtain ⟨ha, hf⟩ := h.tail m w (tmp m ▸ hm)
    exact ⟨keep ha, hf⟩
  · have hne : w ≠ n := by
      rintro rfl
      exact (self ▸ hw.1 : (HdPc.out : HdPc T).Asleep)
    have hpend : s.Pending w := (h.reached w ⟨rest w hne ▸ hw.1, hw.2⟩).elim
      (fun hc => hc.pending fun k hk => .woken (awake k hk).1 (awake k hk).2) id
    exact .inr (hpend.mono (fun k ha hr => ⟨keep ha, hr⟩) fun m v hv => (tmp m).trans hv)

theorem Linked.does (hd : s.Does n s') : s'.Linked := by
  have self : ∀ p, (s.goto n p).pc n = p := fun p => update_self ..
  have rest : ∀ p m, m ≠ n → (s.goto n p).pc m = s.pc m := fun p m hm => update_of_ne hm ..
  cases hd with
  | call hp =>
    exact h.move hothers hp id id nofun rfl rfl rfl trivial
      (h.waking_frame (by rw [hp]; exact id) rfl rfl (rest _) fun _ _ hk => hk)
  | fail hp hl =>
    exact h.move hothers hp id id nofun rfl rfl rfl hl fun hf => absurd hl (Bool.eq_false_iff.mp hf)
  | take hp _ => exact h.move hothers hp id id nofun rfl rfl rfl trivial nofun
  | read hp =>
    have hl : s.locked = true := by
      have := h.phase n
      rwa [hp] at this
    exact h.move hothers hp id id nofun rfl rfl rfl ⟨hl, rfl⟩
      fun hf => absurd hl (Bool.eq_false_iff.mp hf)
  | link hp => exact h.link hothers hp
  | sleep hp => exact h.sleep hothers hp
  | pass hp hr => exact h.pass hothers hp hr
  | free hp hr =>
    refine h.move hothers hp id id nofun rfl rfl rfl trivial fun _ _ => ⟨n, hr, ?_⟩
    exact (self .wake).symm ▸ trivial
  | look hp _ hr =>
    refine h.move hothers hp id id nofun rfl rfl rfl trivial fun _ _ => ⟨n, hr, ?_⟩
    exact (self .store).symm ▸ trivial
  | nobody hp hq => exact h.move hothers hp id id nofun rfl rfl rfl trivial fun _ hne => absurd hq hne
  | rouse hp hq hr => exact h.rouse hothers hp hq hr
  | null hp hq =>
    refine h.move hothers hp id id nofun rfl rfl rfl ?_ fun _ hne => absurd hq hne
    exact fun k hk => nomatch hq.symm.trans hk
  | unlink hp => exact h.unlink hothers hp
  | other b he =>
    have on : ∀ m, m ≠ n → (s.setState n b).running m = s.running m := fun m hm => update_of_ne hm ..
    refine h.frame rfl (fun _ => .inl rfl) (fun k hk => on k ?_) (phase_of (fun _ _ => rfl) hothers ?_) (fun m hm => ?_) ?_
    · rintro rfl
      exact he.not_enqueued hk
    · exact at_of_not_window he.not_window
    · by_cases e : m = n
      · rw [← e, hm] at he
        exact he
      · exact hothers m e (hm.symm ▸ trivial)
    · exact h.waking_frame he.not_wakes rfl rfl (fun _ _ => rfl) fun k hk hr => (on k hk).trans hr

end

theorem Linked.step (h : s.Linked) (ho : s.Spared op) : (s.step op).Linked := by
  obtain e | ⟨n, hd, hothers⟩ := s.step_does op
  · exact e.symm ▸ h
  · exact h.does (hothers ho) hd

omit [DecidableEq T] in
/-- Where the lock is free, a runnable task wakes each sleeper. -/
theorem Linked.wakeUp (h : s.Linked) (hl : s.locked = false) (hw : s.Blocked w) : s.WakeUp w := by
  obtain hc | hp := h.reached w hw
  · have hq : s.queue ≠ none := by
      intro hq
      clear hw
      induction hc with
      | head hh => exact nomatch hq.symm.trans hh
      | next _ _ ih => exact ih
    obtain ⟨m, hr, hm⟩ := h.waking hl hq
    cases e : s.pc m with
    | wake => exact .inr ⟨⟨m, hr, .inl e⟩, hc⟩
    | store => exact .inr ⟨⟨m, hr, .inr e⟩, hc⟩
    | clear =>
      have awake := h.phase m
      rw [e] at awake
      exact .inl (hc.pending fun k hk => .woken (awake k hk).1 (awake k hk).2)
    | _ =>
      rw [e] at hm
      exact hm.elim
  · exact .inl hp

/-- **The lock excludes, and strands no waiter whose way into the queue the timer spares.** -/
theorem hd_lock_excludes (l : List (HdOp T)) :
    (∀ n m, (run l).pc n = .holding → (run l).pc m = .holding → n = m) ∧ (Run.Guarded step Spared boot l →
        ∀ w, (run l).Blocked w → (∃ n, (run l).pc n = .holding) ∨ (run l).WakeUp w) := by
  have hexcl := run_excl l
  refine ⟨hexcl.unique, fun hg w hw => ?_⟩
  have hlinked : (run l).Linked := Run.Guarded.inv (fun h ho => h.step ho) hg Linked.boot
  cases hl : (run l).locked with
  | false => exact .inr (hlinked.wakeUp hl hw)
  | true => exact .inl (hexcl.held hl)

instance decidableSpared [Fintype T] (s : HdLock T) (op : HdOp T) : Decidable (s.Spared op) :=
  Fintype.decidableForallFintype

/-- A task that finds the lock taken goes to sleep, and the holder frees the lock. -/
def contended : List (HdOp Bool) :=
  [.lock true, .go true, .lock false, .go false, .go false, .go false, .go false, .go true]

theorem hd_lock_excludes_contended :
    (run contended).Blocked false ∧ ((∃ n, (run contended).pc n = .holding) ∨ (run contended).WakeUp false) :=
  ⟨⟨trivial, rfl⟩, (hd_lock_excludes contended).2 (by decide) false ⟨trivial, rfl⟩⟩

/-- The timer switches after the failed test: the holder finds an empty queue, and then the other task
goes to sleep. -/
def missed : List (HdOp Bool) :=
  [.lock true, .go true, .lock false, .go false, .go true, .go true, .go false, .go false, .go false]

/-- The lock is free, and nobody is left in its code who would wake the waiter. -/
theorem hd_lock_misses :
    (run missed).locked = false ∧ (run missed).Blocked false ∧ (∀ n, (run missed).pc n ≠ .holding) ∧
      ¬ (run missed).WakeUp false := by
  have hpc : ∀ n, (run missed).pc n = bif n then .out else .asleep none := by decide
  refine ⟨rfl, ⟨trivial, rfl⟩, fun n hn => ?_, ?_⟩
  · cases n <;> exact nomatch (hpc _).symm.trans hn
  · rintro (hp | ⟨⟨m, -, hm⟩, -⟩)
    · cases hp with
      | woken _ hr => cases hr
      | @passed m _ _ hv => cases m <;> cases hv
    · cases m <;> rcases hm with hm | hm <;> cases hm

end HdLock

end Linux001

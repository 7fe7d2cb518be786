import Linux001.Kernel.Wait

/-!
# Kernel — the wait queues

`sleep_on()` and `wake_up()` of `fs/buffer.c`.  A queue is one pointer, to the task that went to sleep
last; each sleeper keeps the pointer that was there before in a variable of its own (`tmp`), and passes
the wake-up on to it.  So a pointer to a sleeper is in one place only, and whoever wakes it through
that place also removes it: this is the invariant (`QueueInv`), and it fails when anybody else makes a
sleeper runnable.

A pointer to a task is the number of its page: pages are handed out again, and a number that no task in
`task[]` has is a pointer to a page that was freed.
-/

namespace Linux001

open Function Option

/-- The queues: one per buffer, one per inode, and the disk driver's. -/
inductive WaitQueue where
  | bWait (b : Fin 256)
  | iWait (i : Fin 64)
  | hdLockQ
  deriving DecidableEq

/-- A task in `sleep_on()`: the queue, the sleeper before it, and whether `sys_select()` has called. -/
structure InSleep where
  queue : WaitQueue
  tmp : Option ℕ
  select : Bool

/-- The tasks and the queues. -/
structure Queues where
  tk : TaskTable
  /-- The page of the task in a slot. -/
  page : Slot → ℕ
  next : ℕ
  head : WaitQueue → Option ℕ
  sleeper : Slot → Option InSleep
  /-- `sleep_deadline[]`; 0 is none. -/
  deadline : Slot → Word
  jiffies : Word
  /-- A wake-up has gone to a page that is no task's. -/
  stray : Bool

/-- What happens to the tasks and the queues. -/
inductive QueueOp where
  | sleepOn (n : Slot) (q : WaitQueue)
  /-- `sys_select()` waits on a pipe, for `ticks` at most if that is not 0. -/
  | select (n : Slot) (q : WaitQueue) (ticks : Word)
  /-- The `schedule()` of a `sleep_on()` returns. -/
  | resume (n : Slot)
  | wakeUp (q : WaitQueue)
  /-- The queue of an inode is reset when the inode is claimed. -/
  | clear (q : WaitQueue)
  /-- A task sleeps on no queue, with or without a deadline, or is stopped. -/
  | nap (n : Slot) (st : TaskState) (deadline : Word)
  /-- A signal, or an alarm. -/
  | signal (n : Slot)
  /-- `do_timer()`: the deadlines. -/
  | tick
  /-- `event_sync()`. -/
  | eventSync
  | fork (n : Slot)
  | exit (n : Slot)
  /-- `sys_waitpid()` or `schedule()` frees a zombie. -/
  | reap (n : Slot)

namespace Queues

/-- The init task and the write-back task, and no sleepers. -/
def boot : Queues where
  tk := Sched.boot.tk
  page n := if n = syncTaskSlot then 1 else 0
  next := 2
  head _ := none
  sleeper _ := none
  deadline _ := 0#32
  jiffies := 0#32
  stray := false

def setState (s : Queues) (n : Slot) (st : TaskState) : Queues :=
  { s with tk := update s.tk n ((s.tk n).map fun t => { t with state := st }) }

/-- The task whose page it is. -/
def owner (s : Queues) (r : ℕ) : Option Slot :=
  (List.finRange 64).find? fun n => (s.tk n).isSome ∧ s.page n = r

/-- `p->state = TASK_RUNNING`. -/
def rouse (s : Queues) (r : ℕ) : Queues :=
  match s.owner r with
  | none => { s with stray := true }
  | some n => s.setState n .running

/-- **`wake_up`.** -/
def wakeUp (s : Queues) (q : WaitQueue) : Queues :=
  match s.head q with
  | none => s
  | some r => { s.rouse r with head := update s.head q none }

/-- **`sleep_on`**, up to its `schedule()`. -/
def sleepOn (s : Queues) (n : Slot) (q : WaitQueue) (select : Bool) : Queues :=
  { s.setState n .uninterruptible with
    head := update s.head q (some (s.page n))
    sleeper := update s.sleeper n (some ⟨q, s.head q, select⟩) }

/-- The end of `sleep_on`: the wake-up is passed on to a task that sleeps. -/
def passOn (s : Queues) : Option ℕ → Queues
  | none => s
  | some r =>
    match s.owner r with
    | none => { s with stray := true }
    | some n =>
      if (s.tk n).any fun t => t.state = .uninterruptible ∨ t.state = .interruptible then
        s.setState n .running
      else s

/-- `sleep_on` goes on after its `schedule()`, and returns; `sys_select` then clears its deadline. -/
def leave (s : Queues) (n : Slot) (e : InSleep) : Queues :=
  let s₁ := { s.passOn e.tmp with sleeper := update s.sleeper n none }
  if e.select then
    { s₁.setState n .running with deadline := update s.deadline n 0#32 }
  else s₁

/-- A task that can act. -/
def acts (s : Queues) (n : Slot) : Bool :=
  (s.tk n).any (fun t => t.state = .running) ∧ (s.sleeper n).isNone

/-- The deadline of a task has passed. -/
def expired (s : Queues) (n : Slot) : Bool :=
  s.deadline n ≠ 0#32 ∧ 0 ≤ (s.jiffies - s.deadline n).toInt

/-- A task whose deadline has passed is made runnable. -/
def wakeExpired (s : Queues) : TaskTable := fun n =>
  (s.tk n).map fun t =>
    if s.expired n ∧ (t.state = .interruptible ∨ t.state = .uninterruptible) then
      { t with state := .running }
    else t

/-- `do_timer`: a tick, and the deadlines. -/
def tick (s : Queues) : Queues :=
  let s₁ := { s with jiffies := s.jiffies + 1#32 }
  { s₁ with
    tk := s₁.wakeExpired
    deadline := fun n => if (s.tk n).isSome ∧ s₁.expired n then 0#32 else s.deadline n }

/-- **`sys_fork`**, when it succeeds. -/
def sysFork (s : Queues) (n : Slot) (t : Task) : Queues :=
  match Sched.freeTask s.tk with
  | none => s
  | some n' =>
    { s with
      tk := update s.tk n' (some (Sched.child t n n'))
      page := update s.page n' s.next
      next := s.next + 1 }

/-- No task can be selected. -/
def nobodyRuns (s : Queues) : Bool :=
  (List.finRange 64).all fun n => (s.tk n).all fun t => t.state ≠ .running

/-- **One step.** -/
def step (s : Queues) : QueueOp → Queues
  | .sleepOn n q => if s.acts n then s.sleepOn n q false else s
  | .select n q ticks =>
    if s.acts n then
      { s.sleepOn n q true with
        deadline := update s.deadline n (if ticks = 0#32 then 0#32 else s.jiffies + ticks) }
    else s
  | .resume n =>
    match s.sleeper n with
    | none => s
    | some e =>
      -- `schedule()` comes back to the task it selects, or to its caller if there is none
      if (s.tk n).any (fun t => t.state = .running) ∨ s.nobodyRuns then s.leave n e else s
  | .wakeUp q => s.wakeUp q
  | .clear q => { s with head := update s.head q none }
  | .nap n st deadline =>
    if s.acts n ∧ (st = .interruptible ∨ st = .stopped) then
      { s.setState n st with deadline := update s.deadline n deadline }
    else s
  | .signal n =>
    if (s.tk n).any fun t => t.state = .interruptible ∨ t.state = .stopped then s.setState n .running else s
  | .tick => s.tick
  | .eventSync =>
    if (s.tk syncTaskSlot).any fun t => t.state ≠ .running then s.setState syncTaskSlot .running else s
  | .fork n =>
    match s.tk n with
    | none => s
    | some t => if s.acts n then s.sysFork n t else s
  | .exit n =>
    if s.acts n ∧ n ≠ 0 ∧ n ≠ syncTaskSlot then s.setState n .zombie else s
  | .reap n =>
    if (s.tk n).any fun t => t.state = .zombie then { s with tk := update s.tk n none } else s

/-- **A run.** -/
def run (s : Queues) (ops : List QueueOp) : Queues := ops.foldl step s

variable {s s' : Queues} {n m : Slot} {q : WaitQueue} {r : ℕ} {t : Task} {e : InSleep} {st : TaskState}
  {d : Slot → Word}

/-! ### The invariant -/

/-- The page is that of a task in `task[]` that is blocked in `sleep_on()` on the queue. -/
def Blocked (s : Queues) (q : WaitQueue) (r : ℕ) : Prop :=
  ∃ n t e, s.tk n = some t ∧ s.page n = r ∧ t.state = .uninterruptible ∧ s.sleeper n = some e ∧ e.queue = q

/-- Every sleeper is known in at most one place, and there as a sleeper. -/
structure QueueInv (s : Queues) : Prop where
  lt : ∀ {n t}, s.tk n = some t → s.page n < s.next
  inj : ∀ {n m t u}, s.tk n = some t → s.tk m = some u → s.page n = s.page m → n = m
  inside : ∀ {n e}, s.sleeper n = some e → ∃ t, s.tk n = some t ∧ (t.state = .running ∨ t.state = .uninterruptible)
  heads : ∀ {q r}, s.head q = some r → s.Blocked q r
  tmps : ∀ {n e r}, s.sleeper n = some e → e.tmp = some r → s.Blocked e.queue r
  /-- The pointer of a queue is not a sleeper's. -/
  one : ∀ {n e q r}, s.sleeper n = some e → e.tmp = some r → s.head q ≠ some r
  two : ∀ {n n' e e' r}, s.sleeper n = some e → e.tmp = some r → s.sleeper n' = some e' → e'.tmp = some r → n = n'
  clean : s.stray = false

/-- Nobody refers to a task that is not blocked. -/
theorem QueueInv.not_tmp (h : QueueInv s) (ht : s.tk n = some t) (hst : t.state ≠ .uninterruptible)
    (he : s.sleeper m = some e) : e.tmp ≠ some (s.page n) := by
  intro hr
  obtain ⟨n', t', -, ht', hp, hst', -⟩ := h.tmps he hr
  obtain rfl := h.inj ht' ht hp
  exact hst (some.inj (ht.symm.trans ht') ▸ hst')

theorem QueueInv.not_head (h : QueueInv s) (ht : s.tk n = some t) (hst : t.state ≠ .uninterruptible) :
    s.head q ≠ some (s.page n) := by
  intro hr
  obtain ⟨n', t', -, ht', hp, hst', -⟩ := h.heads hr
  obtain rfl := h.inj ht' ht hp
  exact hst (some.inj (ht.symm.trans ht') ▸ hst')

/-- A page has an owner as long as the task is there. -/
theorem QueueInv.owner (h : QueueInv s) (ht : s.tk n = some t) : s.owner (s.page n) = some n := by
  cases ho : s.owner (s.page n) with
  | none =>
    have := List.find?_eq_none.mp ho n (List.mem_finRange n)
    simp [ht] at this
  | some m =>
    have hm := List.find?_some ho
    simp only [decide_eq_true_eq] at hm
    obtain ⟨u, hu⟩ := isSome_iff_exists.mp hm.1
    rw [h.inj hu ht hm.2]

/-- **Frame**: who is not in `sleep_on()` may change. -/
theorem QueueInv.frame (h : QueueInv s)
    (hlive : ∀ {n t}, s'.tk n = some t → (s.tk n).isSome)
    (hsame : ∀ {n e}, s.sleeper n = some e → (s'.tk n).map Task.state = (s.tk n).map Task.state)
    (hp : s'.page = s.page) (hn : s'.next = s.next) (hh : ∀ q, s'.head q = s.head q ∨ s'.head q = none)
    (hs : s'.sleeper = s.sleeper) (hc : s'.stray = s.stray) : QueueInv s' := by
  have hstate : ∀ {n t e}, s.sleeper n = some e → s.tk n = some t → ∃ t', s'.tk n = some t' ∧ t'.state = t.state := by
    intro n t e he ht
    have := hsame he
    rw [ht] at this
    exact map_eq_some_iff.mp this
  have hblocked : ∀ {q r}, s.Blocked q r → s'.Blocked q r := by
    rintro q r ⟨n, t, e, ht, hr, hst, he, hq⟩
    obtain ⟨t', ht', e'⟩ := hstate he ht
    exact ⟨n, t', e, ht', by rw [hp, hr], e'.trans hst, by rw [hs, he], hq⟩
  refine ⟨fun {n t} ht => ?_, fun {n m t u} ht hu hpg => ?_, fun {n e} he => ?_, fun {q r} hr => ?_,
    fun {n e r} he hr => ?_, fun {n e q r} he hr => ?_, fun {n n' e e' r} he hr he' hr' => ?_, hc.trans h.clean⟩
  · obtain ⟨u, hu⟩ := isSome_iff_exists.mp (hlive ht)
    rw [hp, hn]
    exact h.lt hu
  · obtain ⟨v, hv⟩ := isSome_iff_exists.mp (hlive ht)
    obtain ⟨w, hw⟩ := isSome_iff_exists.mp (hlive hu)
    rw [hp] at hpg
    exact h.inj hv hw hpg
  · rw [hs] at he
    obtain ⟨t, ht, hst⟩ := h.inside he
    obtain ⟨t', ht', e'⟩ := hstate he ht
    exact ⟨t', ht', e' ▸ hst⟩
  · rcases hh q with e | e
    · exact hblocked (h.heads (e ▸ hr))
    · rw [e] at hr
      cases hr
  · rw [hs] at he
    exact hblocked (h.tmps he hr)
  · rw [hs] at he
    rcases hh q with e' | e'
    · rw [e']
      exact h.one he hr
    · rw [e']
      exact nofun
  · rw [hs] at he he'
    exact h.two he hr he' hr'

/-- A change of state, by cases. -/
theorem setState_some (h : (s.setState n st).tk m = some t) :
    m = n ∧ t.state = st ∧ (s.tk n).isSome ∨ m ≠ n ∧ s.tk m = some t := by
  rcases of_update_eq h with ⟨hm, h⟩ | h
  · obtain ⟨u, hu, rfl⟩ := map_eq_some_iff.mp h
    exact .inl ⟨hm, rfl, by rw [hu]; rfl⟩
  · exact .inr h

theorem setState_tk_self (st : TaskState) (h : s.tk n = some t) :
    (s.setState n st).tk n = some { t with state := st } := by
  show update s.tk n ((s.tk n).map fun t => { t with state := st }) n = _
  rw [update_self, h]
  rfl

theorem setState_tk_of_ne (h : m ≠ n) : (s.setState n st).tk m = s.tk m :=
  update_of_ne h ..

theorem setState_live (h : (s.setState n st).tk m = some t) : (s.tk m).isSome := by
  rcases setState_some h with ⟨rfl, -, hm⟩ | ⟨-, hm⟩
  · exact hm
  · rw [hm]
    rfl

/-- The state of a task that is not in `sleep_on()` changes. -/
theorem QueueInv.setState (h : QueueInv s) (hn : s.sleeper n = none) :
    QueueInv { s.setState n st with deadline := d } := by
  refine h.frame setState_live (fun {m e} he => ?_) rfl rfl (fun _ => .inl rfl) rfl rfl
  have hm : m ≠ n := by
    rintro rfl
    rw [hn] at he
    cases he
  exact congrArg _ (setState_tk_of_ne hm)

/-! ### `sleep_on` and `wake_up` -/

theorem QueueInv.blocked_unique (h : QueueInv s) {q' : WaitQueue} (hb : s.Blocked q r) (hb' : s.Blocked q' r) :
    q = q' := by
  obtain ⟨n, t, e, ht, hp, -, he, rfl⟩ := hb
  obtain ⟨n', t', e', ht', hp', -, he', rfl⟩ := hb'
  obtain rfl := h.inj ht ht' (hp.trans hp'.symm)
  rw [some.inj (he.symm.trans he')]

theorem acts_iff : s.acts n = true ↔ (∃ t, s.tk n = some t ∧ t.state = .running) ∧ s.sleeper n = none := by
  unfold acts
  rw [decide_eq_true_eq, isNone_iff_eq_none]
  refine and_congr_left fun _ => ?_
  cases s.tk n with
  | none => simp
  | some t => simp

section
variable (h : QueueInv s)
include h

/-- **A task goes to sleep.**  What was the queue's pointer is now the sleeper's. -/
theorem QueueInv.sleepOn {select : Bool} (ha : s.acts n) :
    QueueInv { s.sleepOn n q select with deadline := d } := by
  obtain ⟨⟨t, ht, hrun⟩, hout⟩ := acts_iff.mp ha
  have hst : t.state ≠ .uninterruptible := by simp [hrun]
  have hself := setState_tk_self .uninterruptible ht
  have hne : ∀ {m e}, s.sleeper m = some e → m ≠ n := by
    rintro m e he rfl
    rw [hout] at he
    cases he
  have hblocked : ∀ {q' r}, s.Blocked q' r → Blocked { s.sleepOn n q select with deadline := d } q' r := by
    rintro q' r ⟨m, u, e, hu, hr, hstu, he, hq⟩
    exact ⟨m, u, e, (setState_tk_of_ne (hne he)).trans hu, hr, hstu, (update_of_ne (hne he) ..).trans he, hq⟩
  have hme : Blocked { s.sleepOn n q select with deadline := d } q (s.page n) :=
    ⟨n, _, _, hself, rfl, rfl, update_self .., rfl⟩
  refine ⟨fun {m u} hu => ?_, fun {m m' u u'} hu hu' hp => ?_, fun {m e} he => ?_, fun {q' r} hr => ?_,
    fun {m e r} he hr => ?_, fun {m e q' r} he hr hr' => ?_, fun {m m' e e' r} he hr he' hr' => ?_, h.clean⟩
  · obtain ⟨v, hv⟩ := isSome_iff_exists.mp (setState_live hu)
    exact h.lt hv
  · obtain ⟨v, hv⟩ := isSome_iff_exists.mp (setState_live hu)
    obtain ⟨v', hv'⟩ := isSome_iff_exists.mp (setState_live hu')
    exact h.inj hv hv' hp
  · rcases of_update_eq he with ⟨rfl, -⟩ | ⟨hm, he⟩
    · exact ⟨_, hself, .inr rfl⟩
    · obtain ⟨u, hu, hor⟩ := h.inside he
      exact ⟨u, (setState_tk_of_ne hm).trans hu, hor⟩
  · rcases of_update_eq hr with ⟨rfl, ⟨⟩⟩ | ⟨-, hr⟩
    · exact hme
    · exact hblocked (h.heads hr)
  · rcases of_update_eq he with ⟨-, ⟨⟩⟩ | ⟨-, he⟩
    · exact hblocked (h.heads hr)
    · exact hblocked (h.tmps he hr)
  · rcases of_update_eq he with ⟨-, ⟨⟩⟩ | ⟨-, he⟩ <;> rcases of_update_eq hr' with ⟨-, ⟨⟩⟩ | ⟨hq, hr'⟩
    · exact h.not_head ht hst hr
    · exact hq (h.blocked_unique (h.heads hr') (h.heads hr))
    · exact h.not_tmp ht hst he hr
    · exact h.one he hr hr'
  · rcases of_update_eq he with ⟨hm, ⟨⟩⟩ | ⟨-, he⟩ <;> rcases of_update_eq he' with ⟨hm', ⟨⟩⟩ | ⟨-, he'⟩
    · exact hm.trans hm'.symm
    · exact absurd hr (h.one he' hr')
    · exact absurd hr' (h.one he hr)
    · exact h.two he hr he' hr'

/-- **A task that nobody refers to is made runnable.** -/
theorem QueueInv.rouse (ht : s.tk n = some t) (hh : ∀ q, s.head q ≠ some (s.page n))
    (hs : ∀ {m e}, s.sleeper m = some e → e.tmp ≠ some (s.page n)) : QueueInv (s.setState n .running) := by
  have hself := setState_tk_self .running ht
  have hblocked : ∀ {q r}, r ≠ s.page n → s.Blocked q r → Blocked (s.setState n .running) q r := by
    rintro q r hr ⟨m, u, e, hu, rfl, hst, he, hq⟩
    have hm : m ≠ n := by
      rintro rfl
      exact hr rfl
    exact ⟨m, u, e, (setState_tk_of_ne hm).trans hu, rfl, hst, he, hq⟩
  refine ⟨fun {m u} hu => ?_, fun {m m' u u'} hu hu' hp => ?_, fun {m e} he => ?_, fun {q r} hr => ?_,
    fun {m e r} he hr => ?_, h.one, h.two, h.clean⟩
  · obtain ⟨v, hv⟩ := isSome_iff_exists.mp (setState_live hu)
    exact h.lt hv
  · obtain ⟨v, hv⟩ := isSome_iff_exists.mp (setState_live hu)
    obtain ⟨v', hv'⟩ := isSome_iff_exists.mp (setState_live hu')
    exact h.inj hv hv' hp
  · by_cases hm : m = n
    · subst hm
      exact ⟨_, hself, .inl rfl⟩
    · obtain ⟨u, hu, hor⟩ := h.inside he
      exact ⟨u, (setState_tk_of_ne hm).trans hu, hor⟩
  · refine hblocked ?_ (h.heads hr)
    rintro rfl
    exact hh q hr
  · refine hblocked ?_ (h.tmps he hr)
    rintro rfl
    exact hs he hr

/-- A queue is emptied. -/
theorem QueueInv.clear : QueueInv { s with head := update s.head q none } := by
  refine h.frame (fun ht => by rw [ht]; rfl) (fun _ => rfl) rfl rfl (fun q' => ?_) rfl rfl
  by_cases hq : q' = q
  · exact .inr (by rw [hq]; exact update_self ..)
  · exact .inl (update_of_ne hq ..)

/-- **`wake_up`** removes the only pointer to the task it wakes. -/
theorem QueueInv.wakeUp : QueueInv (s.wakeUp q) := by
  unfold Queues.wakeUp
  cases hr : s.head q with
  | none => exact h
  | some r =>
    obtain ⟨n, t, e, ht, rfl, -⟩ := h.heads hr
    have hown := h.owner ht
    simp only [Queues.rouse, hown]
    refine h.clear.rouse ht (fun q' hq' => ?_) fun he hr' => h.one he hr' hr
    by_cases hq : q' = q
    · rw [hq] at hq'
      cases (update_self ..).symm.trans hq'
    · have hq'' := (update_of_ne hq ..).symm.trans hq'
      exact hq (h.blocked_unique (h.heads hq'') (h.heads hr))

/-- **A sleeper that was woken leaves**, and passes the wake-up on. -/
theorem QueueInv.leave (he : s.sleeper n = some e) (ht : s.tk n = some t)
    (hrun : t.state = .running) : QueueInv (s.leave n e) := by
  have hsleep : ∀ {m e'}, update s.sleeper n none m = some e' → m ≠ n ∧ s.sleeper m = some e' :=
    of_update_none
  have hblocked : ∀ {q r}, s.Blocked q r → Blocked { s with sleeper := update s.sleeper n none } q r := by
    rintro q r ⟨m, u, e', hu, hr, hst, he', hq⟩
    have hm : m ≠ n := by
      rintro rfl
      rw [some.inj (hu.symm.trans ht), hrun] at hst
      cases hst
    exact ⟨m, u, e', hu, hr, hst, (update_of_ne hm ..).trans he', hq⟩
  have hout : QueueInv { s with sleeper := update s.sleeper n none } :=
    ⟨h.lt, h.inj, fun he' => h.inside (hsleep he').2, fun hr => hblocked (h.heads hr),
      fun he' hr => hblocked (h.tmps (hsleep he').2 hr), fun he' => h.one (hsleep he').2,
      fun he' hr he'' => h.two (hsleep he').2 hr (hsleep he'').2, h.clean⟩
  -- the task before it in the queue is known to nobody else
  have hpass : QueueInv { s.passOn e.tmp with sleeper := update s.sleeper n none } := by
    unfold passOn
    cases hr : e.tmp with
    | none => exact hout
    | some r =>
      obtain ⟨m, u, e', hu, rfl, -⟩ := h.tmps he hr
      simp only [h.owner hu]
      split
      · refine hout.rouse hu (fun q => h.one he hr) fun he' hr' => ?_
        obtain ⟨hm, he'⟩ := hsleep he'
        exact hm (h.two he' hr' he hr)
      · exact hout
  unfold Queues.leave
  split
  · exact hpass.setState (update_self ..)
  · exact hpass

/-! ### Whole runs -/

/-- A child starts in no queue. -/
theorem QueueInv.sysFork : QueueInv (s.sysFork n t) := by
  unfold Queues.sysFork
  cases hf : Sched.freeTask s.tk with
  | none => exact h
  | some i =>
    have hfree := Procs.freeTask_some hf
    have hne : ∀ {m u}, s.tk m = some u → m ≠ i := by
      rintro m u hu rfl
      rw [hfree] at hu
      cases hu
    have htk : ∀ {m u}, s.tk m = some u → update s.tk i (some (Sched.child t n i)) m = some u :=
      fun hu => (update_of_ne (hne hu) ..).trans hu
    have hpage : ∀ {m}, m ≠ i → update s.page i s.next m = s.page m := fun hm =>
      update_of_ne hm ..
    have hnew : update s.page i s.next i = s.next := update_self ..
    have hblocked : ∀ {q r}, s.Blocked q r → Blocked { s with
        tk := update s.tk i (some (Sched.child t n i))
        page := update s.page i s.next
        next := s.next + 1 } q r := by
      rintro q r ⟨m, u, e, hu, hr, hst, he, hq⟩
      exact ⟨m, u, e, htk hu, (hpage (hne hu)).trans hr, hst, he, hq⟩
    refine ⟨fun {m u} hu => ?_, fun {m m' u u'} hu hu' hp => ?_, fun {m e} he => ?_,
      fun hr => hblocked (h.heads hr), fun he hr => hblocked (h.tmps he hr), h.one, h.two, h.clean⟩
    · show update s.page i s.next m < s.next + 1
      rcases of_update_eq hu with ⟨rfl, -⟩ | ⟨hm, hu⟩
      · rw [hnew]
        exact Nat.lt_succ_self _
      · rw [hpage hm]
        exact Nat.lt_succ_of_lt (h.lt hu)
    · change update s.page i s.next m = update s.page i s.next m' at hp
      rcases of_update_eq hu with ⟨rfl, -⟩ | ⟨hm, hu⟩ <;> rcases of_update_eq hu' with ⟨hm', -⟩ | ⟨hm', hu'⟩
      · exact hm'.symm
      · rw [hnew, hpage hm'] at hp
        exact absurd hp (h.lt hu').ne'
      · rw [hm', hnew, hpage hm] at hp
        exact absurd hp (h.lt hu).ne
      · rw [hpage hm, hpage hm'] at hp
        exact h.inj hu hu' hp
    · obtain ⟨u, hu, hst⟩ := h.inside he
      exact ⟨u, htk hu, hst⟩

end

/-- Nobody but `wake_up()` and the next sleeper makes a task in `sleep_on()` runnable: `schedule()` does
not come back to it because nobody can run, its deadline does not pass, and it is not the write-back
task when `event_sync()` wakes that. -/
def Careful (s : Queues) : QueueOp → Prop
  | .resume n => (s.sleeper n).isSome → (s.tk n).any fun t => t.state = .running
  | .tick => ∀ n, (s.sleeper n).isSome → expired { s with jiffies := s.jiffies + 1#32 } n →
      (s.tk n).any fun t => t.state = .running
  | .eventSync => (s.sleeper syncTaskSlot).isSome → (s.tk syncTaskSlot).any fun t => t.state = .running
  | .sleepOn .. | .select .. | .wakeUp _ | .clear _ | .nap .. | .signal _ | .fork _ | .exit _ | .reap _ => True

instance decidableCareful (s : Queues) : (op : QueueOp) → Decidable (s.Careful op)
  | .resume n => inferInstanceAs (Decidable ((s.sleeper n).isSome → (s.tk n).any fun t => t.state = .running))
  | .tick => inferInstanceAs (Decidable (∀ n, (s.sleeper n).isSome →
      expired { s with jiffies := s.jiffies + 1#32 } n → (s.tk n).any fun t => t.state = .running))
  | .eventSync => inferInstanceAs (Decidable ((s.sleeper syncTaskSlot).isSome →
      (s.tk syncTaskSlot).any fun t => t.state = .running))
  | .sleepOn .. | .select .. | .wakeUp _ | .clear _ | .nap .. | .signal _ | .fork _ | .exit _ | .reap _ =>
    isTrue trivial

theorem any_state : ((s.tk n).any fun t => t.state = st) = true ↔
    ∃ t, s.tk n = some t ∧ t.state = st := by
  cases s.tk n with
  | none => simp
  | some t => simp

/-- A task whose state is neither of the two that `sleep_on()` leaves it in is not in `sleep_on()`. -/
theorem QueueInv.outside (h : QueueInv s) (ht : s.tk n = some t) (hr : t.state ≠ .running)
    (hu : t.state ≠ .uninterruptible) : s.sleeper n = none := by
  rw [eq_none_iff_forall_ne_some]
  intro e he
  obtain ⟨u, hu', hst⟩ := h.inside he
  obtain rfl := some.inj (ht.symm.trans hu')
  exact hst.elim hr hu

/-- **The deadlines**, when no task in `sleep_on()` is among those that have passed. -/
theorem QueueInv.tick (h : QueueInv s) (hc : s.Careful .tick) : QueueInv s.tick := by
  refine h.frame (fun {n t} ht => ?_) (fun {n e} he => ?_) rfl rfl (fun _ => .inl rfl) rfl rfl
  · obtain ⟨u, hu, -⟩ := map_eq_some_iff.mp ht
    exact isSome_iff_exists.mpr ⟨u, hu⟩
  show ((s.tk n).map _).map Task.state = _
  cases ht : s.tk n with
  | none => rfl
  | some t =>
    refine congrArg some ?_
    show Task.state (if _ then { t with state := .running } else t) = t.state
    split
    · next hx =>
      obtain ⟨u, hu, hrun⟩ := any_state.mp (hc n (by rw [he]; rfl) hx.1)
      obtain rfl := some.inj (ht.symm.trans hu)
      exact hrun.symm
    · rfl

/-- **One step.** -/
theorem QueueInv.step {op : QueueOp} (h : QueueInv s) (hc : s.Careful op) : QueueInv (s.step op) := by
  cases op with
  | sleepOn n q =>
    simp only [Queues.step]
    split
    · next ha => exact h.sleepOn ha
    · exact h
  | select n q ticks =>
    simp only [Queues.step]
    split
    · next ha => exact h.sleepOn ha
    · exact h
  | resume n =>
    cases he : s.sleeper n with
    | none => simpa only [Queues.step, he] using h
    | some e =>
      obtain ⟨t, ht, hrun⟩ := any_state.mp (hc (by rw [he]; rfl))
      simp only [Queues.step, he]
      split
      · exact h.leave he ht hrun
      · exact h
  | wakeUp q => exact h.wakeUp
  | clear q => exact h.clear
  | nap n st d =>
    simp only [Queues.step]
    split
    · next ha => exact h.setState (acts_iff.mp ha.1).2
    · exact h
  | signal n =>
    simp only [Queues.step]
    split
    · next ha =>
      cases ht : s.tk n with
      | none => simp [ht] at ha
      | some t =>
        simp only [ht, any_some, decide_eq_true_eq] at ha
        refine h.setState (h.outside ht ?_ ?_)
        · rcases ha with e | e <;> simp [e]
        · rcases ha with e | e <;> simp [e]
    · exact h
  | tick => exact h.tick hc
  | eventSync =>
    simp only [Queues.step]
    split
    · next ha =>
      refine h.setState ?_
      rw [eq_none_iff_forall_ne_some]
      intro e he
      obtain ⟨t, ht, hrun⟩ := any_state.mp (hc (by rw [he]; rfl))
      simp [ht, hrun] at ha
    · exact h
  | fork n =>
    cases ht : s.tk n with
    | none => simpa only [Queues.step, ht] using h
    | some t =>
      simp only [Queues.step, ht]
      split
      · exact h.sysFork
      · exact h
  | exit n =>
    simp only [Queues.step]
    split
    · next ha => exact h.setState (acts_iff.mp ha.1).2
    · exact h
  | reap n =>
    simp only [Queues.step]
    split
    · next ha =>
      obtain ⟨t, ht, hz⟩ := any_state.mp ha
      have hout := h.outside ht (by simp [hz]) (by simp [hz])
      refine h.frame (fun {m u} hu => ?_) (fun {m e} he => ?_) rfl rfl (fun _ => .inl rfl) rfl rfl
      · rw [(of_update_none hu).2]
        rfl
      · have hm : m ≠ n := by
          rintro rfl
          rw [hout] at he
          cases he
        exact congrArg _ (update_of_ne hm ..)
    · exact h

/-- Every step of a run is careful. -/
def CarefulRun (s : Queues) (ops : List QueueOp) : Prop := Run.Guarded step Careful s ops

instance decidableCarefulRun (s : Queues) (ops : List QueueOp) : Decidable (CarefulRun s ops) :=
  Run.decidableGuarded s ops

theorem queueInv_boot : QueueInv boot := by
  have hslot : ∀ {n t}, boot.tk n = some t → n = 0 ∨ n = syncTaskSlot := by
    intro n t ht
    change Sched.boot.tk n = some t at ht
    unfold Sched.boot at ht
    simp only at ht
    split at ht
    · next hn => exact .inl hn
    split at ht
    · next hn => exact .inr hn
    · cases ht
  have hpage : boot.page 0 = 0 ∧ boot.page syncTaskSlot = 1 := by decide
  refine ⟨fun {n t} ht => ?_, fun {n m t u} ht hu hp => ?_, nofun, nofun, nofun, nofun, nofun, rfl⟩
  · show boot.page n < 2
    rcases hslot ht with rfl | rfl
    · omega
    · omega
  · rcases hslot ht with rfl | rfl <;> rcases hslot hu with rfl | rfl
    · rfl
    · omega
    · omega
    · rfl

theorem QueueInv.run {ops : List QueueOp} (h : QueueInv s) (hc : CarefulRun s ops) : QueueInv (s.run ops) :=
  Run.Guarded.inv QueueInv.step hc h

/-- **The queues do not dangle**, in every run in which a task in `sleep_on()` is made runnable by
`wake_up()` or by the sleeper after it only: a queue's pointer is to a task in `task[]` that is blocked
in `sleep_on()` on this queue, and no wake-up has gone to a page that is no task's. -/
theorem queue_heads_live (ops : List QueueOp) (hc : CarefulRun boot ops) :
    (∀ q r, (boot.run ops).head q = some r → (boot.run ops).Blocked q r) ∧ (boot.run ops).stray = false :=
  have h := queueInv_boot.run hc
  ⟨fun _ _ hr => h.heads hr, h.clean⟩

/-- A child waits for a pipe for one tick and exits. -/
def selectAndExit : List QueueOp :=
  [.fork 0, .select 1 (.iWait 5) 1#32, .tick, .resume 1, .exit 1, .reap 1]

/-- Two tasks sleep on a queue, and both are woken. -/
def wakeChain : List QueueOp :=
  [.fork 0, .fork 0, .sleepOn 1 (.iWait 5), .sleepOn 2 (.iWait 5), .wakeUp (.iWait 5), .resume 2, .resume 1,
    .exit 1, .reap 1, .sleepOn 2 .hdLockQ]

/-- **The queue of the pipe points to a page that was freed**, and the next `wake_up()` writes there. -/
theorem select_leaves_head :
    (boot.run selectAndExit).head (.iWait 5) = some 2 ∧ (boot.run selectAndExit).owner 2 = none ∧
      ((boot.run selectAndExit).wakeUp (.iWait 5)).stray = true := by
  decide

theorem wakeChain_heads_live :
    (boot.run wakeChain).head .hdLockQ = some 3 ∧ (boot.run wakeChain).Blocked .hdLockQ 3 := by
  have h : (boot.run wakeChain).head .hdLockQ = some 3 := by decide
  exact ⟨h, (queue_heads_live wakeChain (by decide)).1 _ _ h⟩

end Queues
end Linux001

import Linux001.Kernel.Sched
import Linux001.Lib.Run
import Linux001.Lib.Update

/-!
# Kernel — children, and who reaps them

`sys_fork()`, `sys_exit()`, `sys_waitpid()` and the auto-reap of `schedule()`, over whole histories.
A child remembers its parent by the number of a slot, and slots are used again: what it remembers may
be the slot of a process that is not its parent.

The kernel's tables do not say who is who.  `born` numbers the processes, `sire` is the number of the
process whose `sys_fork()` made one, `passed` the code a process gave to `sys_exit()`, `freed` the
processes whose page has been freed, and `log` what `sys_waitpid()` has returned; no function of the
kernel reads them.

* `waitpid_reaps_own`: what is reaped is one's own, while no slot is taken that is remembered.
* `waitpid_reports_missing_iff`: when −1 and 0 mean what they should.
-/

namespace Linux001

open Function List Option Sched

open Function (update_of_ne update_self)

/-- `SYNC_TASK_SLOT`: the write-back task, which the kernel starts itself. -/
def syncTaskSlot : Slot := 63

/-- **`sys_signal(SIGCHLD, handler)`.** -/
def Task.signalChild (handler : Word) (t : Task) : Task :=
  if handler ≠ sigDfl ∧ handler ≠ sigIgn ∧ (handler < userProgStart ∨ userProgEnd ≤ handler) then t
  else { t with handlers := Function.update t.handlers 17 handler }

/-- It changes nothing else. -/
theorem Task.signalChild_cases (handler : Word) (t : Task) :
    ∃ hs, t.signalChild handler = { t with handlers := hs } := by
  unfold Task.signalChild
  split
  · exact ⟨t.handlers, rfl⟩
  · exact ⟨_, rfl⟩

/-- A zombie that `sys_waitpid(pid)` of the task in slot `n` reaps. -/
def matching (n : Slot) (pid : Word) (c : Task) : Bool :=
  c.parent = BitVec.ofNat 32 n.val ∧ ¬ (0 < pid.toInt ∧ c.pid ≠ pid) ∧ c.state = .zombie

/-- The first child that can be reaped. -/
def reapable (tk : TaskTable) (n : Slot) (pid : Word) : Option Slot :=
  (List.finRange 64).find? fun i => i ≠ 0 ∧ (tk i).any (matching n pid)

/-- There is a child. -/
def foundAny (tk : TaskTable) (n : Slot) : Bool :=
  (List.finRange 64).any fun i => i ≠ 0 ∧ (tk i).any fun c => c.parent = BitVec.ofNat 32 n.val

/-- What a `sys_waitpid()` has returned: the caller, the task it has reaped, the two values, and who
made that task. -/
structure Reaped where
  caller : ℕ
  child : ℕ
  pid : Word
  status : Word
  sire : Option ℕ
  deriving DecidableEq

/-- `task[]`, and who is in it. -/
structure Procs where
  tk : TaskTable
  /-- The arguments of a `sys_waitpid()` that sleeps. -/
  waiting : Slot → Option (Word × Word)
  born : Slot → ℕ
  sire : Slot → Option ℕ
  next : ℕ
  passed : ℕ → Option Word
  freed : List ℕ
  log : List Reaped

namespace Procs

/-- The init task and the write-back task. -/
def boot : Procs where
  tk := Sched.boot.tk
  waiting _ := none
  born n := if n = syncTaskSlot then 1 else 0
  sire _ := none
  next := 2
  passed _ := none
  freed := []
  log := []

/-- `task[i] = NULL; free_page(p)`. -/
def free (p : Procs) (n : Slot) : Procs :=
  { p with tk := Function.update p.tk n none, freed := p.born n :: p.freed }

/-- One slot of the auto-reap loop. -/
def reapStep (current : Slot) (p : Procs) (n : Slot) : Procs :=
  match p.tk n with
  | none => p
  | some z => if n = current ∨ z.state ≠ .zombie ∨ waitsFor p.tk z then p else p.free n

/-- The auto-reap loop of `schedule`. -/
def autoReap (p : Procs) (current : Slot) : Procs := (List.finRange 64).foldl (reapStep current) p

def setState (p : Procs) (n : Slot) (st : TaskState) : Procs :=
  { p with tk := Function.update p.tk n ((p.tk n).map fun t => { t with state := st }) }

/-- One pass of `sys_waitpid`'s loop, up to where it returns or has slept. -/
def wait (p : Procs) (n : Slot) (pid options : Word) : Procs :=
  match reapable p.tk n pid with
  | some i =>
    match p.tk i with
    | none => p
    | some c =>
      { p.free i with log := ⟨p.born n, p.born i, c.pid, c.exitCode, p.sire i⟩ :: p.log }
  | none =>
    if foundAny p.tk n = false ∨ options &&& 1#32 ≠ 0#32 then p
    else
      ({ p with waiting := Function.update p.waiting n (some (pid, options)) }.setState n
        .interruptible).autoReap n

/-- A task that is not a zombie. -/
def alive (p : Procs) (n : Slot) : Option Task := (p.tk n).filter fun t => t.state ≠ .zombie

/-- A task that can make a call. -/
def user (p : Procs) (n : Slot) : Option Task :=
  if n = syncTaskSlot ∨ p.waiting n ≠ none then none else p.alive n

/-- **`sys_fork`**, when it succeeds. -/
def sysFork (p : Procs) (n : Slot) (t : Task) : Procs :=
  match Sched.freeTask p.tk with
  | none => p
  | some n' =>
    if n' = 0 then p
    else
      { p with
        tk := Function.update p.tk n' (some (Sched.child t n n'))
        waiting := Function.update p.waiting n' none
        born := Function.update p.born n' p.next
        sire := Function.update p.sire n' (some (p.born n))
        next := p.next + 1 }

/-- **`sys_exit`**, up to its `schedule()`. -/
def sysExit (p : Procs) (n : Slot) (ret : Word) : Procs :=
  { p with
    tk := (Sched.sysExit ⟨p.tk, n⟩ ret).tk
    passed := if n = 0 then p.passed else Function.update p.passed (p.born n) (some ret) }

def sysSignal (p : Procs) (n : Slot) (handler : Word) : Procs :=
  { p with tk := Function.update p.tk n ((p.tk n).map (Task.signalChild handler)) }

end Procs

/-- What the tasks do. -/
inductive ProcOp where
  | fork (n : Slot)
  | exit (n : Slot) (ret : Word)
  | waitpid (n : Slot) (pid options : Word)
  /-- A `sys_waitpid()` that slept goes on. -/
  | resume (n : Slot)
  | signal (n : Slot) (handler : Word)
  | schedule (n : Slot)

namespace Procs

/-- **One step.** -/
def step (p : Procs) : ProcOp → Procs
  | .fork n =>
    match p.user n with
    | none => p
    | some t => p.sysFork n t
  | .exit n ret =>
    match p.user n with
    | none => p
    | some _ => p.sysExit n ret
  | .waitpid n pid options =>
    match p.user n with
    | none => p
    | some t => if t.ignoresChild then p else p.wait n pid options
  | .resume n =>
    match p.waiting n, p.alive n with
    | some (pid, options), some _ =>
      ({ p with waiting := Function.update p.waiting n none }.setState n .running).wait n pid options
    | _, _ => p
  | .signal n handler =>
    match p.user n with
    | none => p
    | some _ => p.sysSignal n handler
  | .schedule n =>
    match p.tk n with
    | none => p
    | some _ => p.autoReap n

/-- **A run.** -/
def run (p : Procs) (ops : List ProcOp) : Procs := ops.foldl step p

variable {p p' : Procs} {n m : Slot} {t : Task} {k : ℕ} {tk : TaskTable} {tk' : TaskTable} {pid : Word}

/-! ### The invariant -/

/-- Who is in `task[]`, and who has left it. -/
structure KinInv (p : Procs) : Prop where
  lt : ∀ {m t}, p.tk m = some t → p.born m < p.next
  inj : ∀ {m m' t t'}, p.tk m = some t → p.tk m' = some t' → p.born m = p.born m' → m = m'
  /-- The two tasks of the kernel are there. -/
  kernel : ∀ m, m = 0 ∨ m = syncTaskSlot → ∃ t, p.tk m = some t ∧ t.state ≠ .zombie
  /-- The slot that a child remembers is its parent's, if anybody's. -/
  kin : ∀ {m t}, p.tk m = some t → m ≠ 0 → m ≠ syncTaskSlot → ∃ k, p.sire m = some k ∧
    ∀ q u, p.tk q = some u → t.parent = BitVec.ofNat 32 q.val → p.born q = k
  code : ∀ {m t}, p.tk m = some t → t.state = .zombie → p.passed (p.born m) = some t.exitCode
  kept : ∀ {m t}, p.tk m = some t → p.born m ∉ p.freed
  once : ∀ k < p.next, (∀ m t, p.tk m = some t → p.born m ≠ k) → p.freed.count k = 1
  old : ∀ k ∈ p.freed, k < p.next
  exited : ∀ k ∈ p.freed, ∃ c, p.passed k = some c
  logged : ∀ e ∈ p.log, e.child ∈ p.freed ∧ e.sire = some e.caller ∧ p.passed e.child = some e.status

/-- The same tasks, with the same parents, the same zombies and the same codes. -/
def SameKin (tk tk' : TaskTable) : Prop :=
  ∀ m, (tk' m).map (fun t => (t.parent, t.exitCode, decide (t.state = .zombie))) =
    (tk m).map fun t => (t.parent, t.exitCode, decide (t.state = .zombie))

theorem SameKin.task (h : SameKin tk tk') {t' : Task} (ht : tk' m = some t') :
    ∃ t, tk m = some t ∧ t'.parent = t.parent ∧ t'.exitCode = t.exitCode ∧
      (t'.state = .zombie ↔ t.state = .zombie) := by
  have hm := h m
  rw [ht] at hm
  obtain ⟨t, hu, e⟩ := map_eq_some_iff.mp hm.symm
  obtain ⟨e₁, e₂, e₃⟩ : t.parent = t'.parent ∧ t.exitCode = t'.exitCode ∧
      (t.state = .zombie ↔ t'.state = .zombie) := by simpa using e
  exact ⟨t, hu, e₁.symm, e₂.symm, e₃.symm⟩

theorem SameKin.symm (h : SameKin tk tk') : SameKin tk' tk := fun m => (h m).symm

/-- A task changes in a way that does not matter here. -/
theorem SameKin.update {f : Task → Task}
    (hf : ∀ t, tk n = some t → (f t).parent = t.parent ∧ (f t).exitCode = t.exitCode ∧
      ((f t).state = .zombie ↔ t.state = .zombie)) : SameKin tk (update tk n ((tk n).map f)) := by
  intro m
  by_cases e : m = n
  · subst e
    rw [update_self]
    cases hm : tk m with
    | none => rfl
    | some t =>
      obtain ⟨h₁, h₂, h₃⟩ := hf t hm
      simp [h₁, h₂, h₃]
  · rw [update_of_ne e]

/-- The invariant does not look at the rest. -/
theorem KinInv.same (h : KinInv p) (hk : SameKin p.tk p'.tk) (hb : p'.born = p.born) (hs : p'.sire = p.sire)
    (hn : p'.next = p.next) (hp : p'.passed = p.passed) (hf : p'.freed = p.freed) (hl : p'.log = p.log) :
    KinInv p' := by
  refine ⟨fun {m t} ht => ?_, fun {m m' t t'} ht ht' e => ?_, fun m hm => ?_, fun {m t} ht h0 hs' => ?_,
    fun {m t} ht hz => ?_, fun {m t} ht => ?_, fun k hlt hno => ?_, ?_, ?_, ?_⟩
  · obtain ⟨u, hu, -⟩ := hk.task ht
    rw [hb, hn]
    exact h.lt hu
  · obtain ⟨u, hu, -⟩ := hk.task ht
    obtain ⟨u', hu', -⟩ := hk.task ht'
    rw [hb] at e
    exact h.inj hu hu' e
  · obtain ⟨u, hu, hz⟩ := h.kernel m hm
    obtain ⟨t, ht, -, -, hst⟩ := hk.symm.task hu
    exact ⟨t, ht, fun e => hz (hst.mpr e)⟩
  · obtain ⟨u, hu, hpar, -⟩ := hk.task ht
    obtain ⟨k, hsire, hq⟩ := h.kin hu h0 hs'
    refine ⟨k, by rw [hs, hsire], fun q v hv e => ?_⟩
    obtain ⟨w, hw, -⟩ := hk.task hv
    rw [hb]
    exact hq q w hw (hpar.symm.trans e)
  · obtain ⟨u, hu, -, hcode, hst⟩ := hk.task ht
    rw [hp, hb, hcode]
    exact h.code hu (hst.mp hz)
  · obtain ⟨u, hu, -⟩ := hk.task ht
    rw [hb, hf]
    exact h.kept hu
  · rw [hf]
    rw [hn] at hlt
    refine h.once k hlt fun m u hu => ?_
    obtain ⟨t, ht, -⟩ := hk.symm.task hu
    exact hb ▸ hno m t ht
  · rw [hn, hf]
    exact h.old
  · rw [hf, hp]
    exact h.exited
  · rw [hl, hf, hp]
    exact h.logged

theorem KinInv.setState {st : TaskState} (h : KinInv p) (hst : st ≠ .zombie)
    (hz : ∀ t, p.tk n = some t → t.state ≠ .zombie) : KinInv (p.setState n st) := by
  refine h.same (SameKin.update fun t ht => ⟨rfl, rfl, ?_⟩) rfl rfl rfl rfl rfl rfl
  exact iff_of_false hst (hz t ht)

/-! ### Reaping -/

/-- **A zombie leaves.** -/
theorem KinInv.free (h : KinInv p) (ht : p.tk n = some t) (hz : t.state = .zombie) : KinInv (p.free n) := by
  have hold : ∀ {m u}, (p.free n).tk m = some u → m ≠ n ∧ p.tk m = some u := of_update_none
  refine ⟨fun {m u} hu => h.lt (hold hu).2, fun {m m' u u'} hu hu' e => h.inj (hold hu).2 (hold hu').2 e,
    fun m hm => ?_, fun {m u} hu h0 hs => ?_, fun {m u} hu => h.code (hold hu).2, fun {m u} hu => ?_,
    fun k hlt hno => ?_, fun k hk => ?_, fun k hk => ?_, fun e he => ?_⟩
  · obtain ⟨u, hu, hzu⟩ := h.kernel m hm
    refine ⟨u, ?_, hzu⟩
    have e : m ≠ n := by
      rintro rfl
      exact hzu (some.inj (hu.symm.trans ht) ▸ hz)
    exact (update_of_ne e ..).trans hu
  · obtain ⟨k, hsire, hq⟩ := h.kin (hold hu).2 h0 hs
    exact ⟨k, hsire, fun q v hv => hq q v (hold hv).2⟩
  · obtain ⟨hne, hu⟩ := hold hu
    intro hmem
    rcases mem_cons.mp hmem with e | hmem
    · exact hne (h.inj hu ht e)
    · exact h.kept hu hmem
  · show (p.born n :: p.freed).count k = 1
    by_cases e : p.born n = k
    · subst e
      rw [count_cons_self, count_eq_zero_of_not_mem (h.kept ht)]
    rw [count_cons_of_ne e]
    refine h.once k hlt fun m u hu => ?_
    by_cases hm : m = n
    · rw [hm]
      exact e
    · exact hno m u ((update_of_ne hm ..).trans hu)
  · rcases mem_cons.mp hk with rfl | hk
    · exact h.lt ht
    · exact h.old k hk
  · rcases mem_cons.mp hk with rfl | hk
    · exact ⟨_, h.code ht hz⟩
    · exact h.exited k hk
  · obtain ⟨hf, hrest⟩ := h.logged e he
    exact ⟨mem_cons_of_mem _ hf, hrest⟩

/-- **What the auto-reap loop does at one slot.** -/
theorem reapStep_cases (c : Slot) (p : Procs) (m : Slot) :
    p.reapStep c m = p ∨ ∃ z, p.tk m = some z ∧ z.state = .zombie ∧ p.reapStep c m = p.free m := by
  unfold reapStep
  cases hm : p.tk m with
  | none => exact .inl rfl
  | some z =>
    by_cases hk : m = c ∨ z.state ≠ .zombie ∨ waitsFor p.tk z
    · exact .inl (if_pos hk)
    refine .inr ⟨z, rfl, ?_, if_neg hk⟩
    by_contra hz
    exact hk (.inr (.inl hz))

/-- It is the loop of `schedule()`. -/
theorem autoReap_tk (p : Procs) (c : Slot) : (p.autoReap c).tk = Linux001.autoReap c p.tk := by
  unfold autoReap Linux001.autoReap
  generalize finRange 64 = l
  induction l generalizing p with
  | nil => rfl
  | cons m l ih =>
    rw [foldl_cons, foldl_cons, ih]
    congr 1
    unfold reapStep Linux001.reapStep
    cases p.tk m with
    | none => rfl
    | some z =>
      simp only
      split
      · rfl
      · rfl

theorem KinInv.autoReap {c : Slot} (h : KinInv p) : KinInv (p.autoReap c) := by
  unfold Procs.autoReap
  generalize finRange 64 = l
  induction l generalizing p with
  | nil => exact h
  | cons m l ih =>
    refine ih ?_
    rcases reapStep_cases c p m with e | ⟨z, hz, hst, e⟩
    · rw [e]
      exact h
    · rw [e]
      exact h.free hz hst

/-! ### The calls -/

theorem reapable_some {i : Slot} (h : reapable p.tk n pid = some i) :
    i ≠ 0 ∧ ∃ c, p.tk i = some c ∧ c.parent = BitVec.ofNat 32 n.val ∧ c.state = .zombie ∧
      ¬ (0 < pid.toInt ∧ c.pid ≠ pid) := by
  have hi := find?_some h
  rw [decide_eq_true_eq] at hi
  obtain ⟨c, hc, hm⟩ := (Option.any_eq_true ..).mp hi.2
  have hm' := of_decide_eq_true hm
  exact ⟨hi.1, c, hc, hm'.1, hm'.2.2, hm'.2.1⟩

/-- **`sys_waitpid` reaps a child of its caller.** -/
theorem KinInv.wait {options : Word} (h : KinInv p) (ht : p.tk n = some t) (hz : t.state ≠ .zombie) :
    KinInv (p.wait n pid options) := by
  unfold Procs.wait
  cases hr : reapable p.tk n pid with
  | some i =>
    obtain ⟨h0, c, hc, hpar, hst, -⟩ := reapable_some hr
    simp only [hc]
    have hsync : i ≠ syncTaskSlot := by
      rintro rfl
      obtain ⟨u, hu, hzu⟩ := h.kernel syncTaskSlot (.inr rfl)
      exact hzu (some.inj (hu.symm.trans hc) ▸ hst)
    obtain ⟨k, hsire, hq⟩ := h.kin hc h0 hsync
    have hf := h.free hc hst
    refine { hf with logged := fun e he => ?_ }
    rcases mem_cons.mp he with rfl | he
    · refine ⟨mem_cons_self, ?_, h.code hc hst⟩
      rw [hsire, hq n t ht hpar]
    · exact hf.logged e he
  | none =>
    simp only
    split
    · exact h
    refine KinInv.autoReap (KinInv.setState ?_ (by decide) fun u hu => ?_)
    · exact h.same (fun _ => rfl) rfl rfl rfl rfl rfl rfl
    · exact some.inj (ht.symm.trans hu) ▸ hz

theorem alive_some (h : p.alive n = some t) : p.tk n = some t ∧ t.state ≠ .zombie := by
  obtain ⟨ht, hz⟩ := filter_eq_some_iff.mp h
  exact ⟨ht, by simpa using hz⟩

theorem user_some (h : p.user n = some t) : n ≠ syncTaskSlot ∧ p.tk n = some t ∧ t.state ≠ .zombie := by
  unfold user at h
  split at h
  · cases h
  · next hn => exact ⟨fun e => hn (.inl e), alive_some h⟩

theorem freeTask_some (h : freeTask tk = some n) : tk n = none := by
  have := find?_some h
  simpa using this

/-- A slot is not used again while a task remembers it as its parent's. -/
def Careful (p : Procs) : ProcOp → Prop
  | .fork _ => ∀ n', Sched.freeTask p.tk = some n' → ∀ m, (p.tk m).all fun t => t.parent ≠ BitVec.ofNat 32 n'.val
  | .exit .. | .waitpid .. | .resume _ | .signal .. | .schedule _ => True

instance decidableCareful (p : Procs) : (op : ProcOp) → Decidable (p.Careful op)
  | .fork _ => inferInstanceAs (Decidable (∀ n', Sched.freeTask p.tk = some n' →
      ∀ m, (p.tk m).all fun t => t.parent ≠ BitVec.ofNat 32 n'.val))
  | .exit .. | .waitpid .. | .resume _ | .signal .. | .schedule _ => isTrue trivial

/-- **A child is born.** -/
theorem KinInv.sysFork (h : KinInv p) (ht : p.tk n = some t) (hc : p.Careful (.fork n)) :
    KinInv (p.sysFork n t) := by
  unfold Procs.sysFork
  cases hf : freeTask p.tk with
  | none => exact h
  | some n' =>
    simp only
    split
    · exact h
    next hn0 =>
    have hfree := freeTask_some hf
    have hne : ∀ {m u}, p.tk m = some u → m ≠ n' := by
      rintro m u hu rfl
      rw [hfree] at hu
      cases hu
    have hborn : ∀ {m}, m ≠ n' → update p.born n' p.next m = p.born m := fun e =>
      update_of_ne e ..
    have hnew : update p.born n' p.next n' = p.next := update_self ..
    have hparent : (child t n n').parent = BitVec.ofNat 32 n.val := rfl
    have hslot : ∀ {q q' : Slot}, BitVec.ofNat 32 q.val = BitVec.ofNat 32 q'.val → q = q' := by
      intro q q' e
      have e' := congrArg BitVec.toNat e
      simp only [BitVec.toNat_ofNat] at e'
      exact Fin.ext (by omega)
    refine ⟨fun {m u} hu => ?_, fun {m m' u u'} hu hu' e => ?_, fun m hm => ?_, fun {m u} hu h0 hs => ?_,
      fun {m u} hu hz => ?_, fun {m u} hu => ?_, fun k hlt hno => ?_, fun k hk => ?_, h.exited, h.logged⟩
    · show update p.born n' p.next m < p.next + 1
      rcases of_update_eq hu with ⟨rfl, -⟩ | ⟨hm, hu⟩
      · rw [hnew]
        exact Nat.lt_succ_self _
      · rw [hborn hm]
        exact Nat.lt_succ_of_lt (h.lt hu)
    · change update p.born n' p.next m = update p.born n' p.next m' at e
      rcases of_update_eq hu with ⟨rfl, -⟩ | ⟨hm, hu⟩ <;> rcases of_update_eq hu' with ⟨hm', -⟩ | ⟨hm', hu'⟩
      · exact hm'.symm
      · rw [hnew, hborn hm'] at e
        exact absurd e (h.lt hu').ne'
      · rw [hm', hnew, hborn hm] at e
        exact absurd e (h.lt hu).ne
      · rw [hborn hm, hborn hm'] at e
        exact h.inj hu hu' e
    · obtain ⟨u, hu, hz⟩ := h.kernel m hm
      exact ⟨u, (update_of_ne (hne hu) ..).trans hu, hz⟩
    · show ∃ k, update p.sire n' (some (p.born n)) m = some k ∧
        ∀ q v, update p.tk n' (some (child t n n')) q = some v →
          u.parent = BitVec.ofNat 32 q.val → update p.born n' p.next q = k
      rcases of_update_eq hu with ⟨rfl, ⟨⟩⟩ | ⟨hm, hu⟩
      · refine ⟨p.born n, update_self .., fun q v _ e => ?_⟩
        obtain rfl := hslot (hparent.symm.trans e)
        exact hborn (hne ht)
      obtain ⟨k, hsire, hq⟩ := h.kin hu h0 hs
      refine ⟨k, (update_of_ne hm ..).trans hsire, fun q v hv e => ?_⟩
      rcases of_update_eq hv with ⟨rfl, -⟩ | ⟨hqn, hv⟩
      · have hpar := hc q hf m
        simp only [‹p.tk m = some u›, all_some, decide_eq_true_eq] at hpar
        exact absurd e hpar
      · rw [hborn hqn]
        exact hq q v hv e
    · show p.passed (update p.born n' p.next m) = some u.exitCode
      rcases of_update_eq hu with ⟨-, ⟨⟩⟩ | ⟨hm, hu⟩
      · cases hz
      · rw [hborn hm]
        exact h.code hu hz
    · show update p.born n' p.next m ∉ p.freed
      rcases of_update_eq hu with ⟨rfl, -⟩ | ⟨hm, hu⟩
      · rw [hnew]
        exact fun hk => lt_irrefl _ (h.old _ hk)
      · rw [hborn hm]
        exact h.kept hu
    · have hk : k ≠ p.next := fun e => hno n' _ (update_self ..) (hnew.trans e.symm)
      refine h.once k (by change k < p.next + 1 at hlt; omega) fun m u hu => ?_
      rw [← hborn (hne hu)]
      exact hno m u ((update_of_ne (hne hu) ..).trans hu)
    · exact Nat.lt_succ_of_lt (h.old k hk)

/-- **A task becomes a zombie.** -/
theorem KinInv.die (ret : Word) (h : KinInv p) (ht : p.tk n = some t) (h0 : n ≠ 0) (hs : n ≠ syncTaskSlot) :
    KinInv { p with
      tk := update p.tk n (some { t with exitCode := ret, state := .zombie })
      passed := update p.passed (p.born n) (some ret) } := by
  -- the task that was there, with the same parent
  have hold : ∀ {m u}, update p.tk n (some { t with exitCode := ret, state := .zombie }) m = some u →
      ∃ v, p.tk m = some v ∧ u.parent = v.parent := by
    intro m u hu
    rcases of_update_eq hu with ⟨rfl, ⟨⟩⟩ | ⟨-, hu⟩
    · exact ⟨t, ht, rfl⟩
    · exact ⟨u, hu, rfl⟩
  have hpassed : ∀ {k}, k ∈ p.freed → update p.passed (p.born n) (some ret) k = p.passed k := by
    intro k hk
    refine update_of_ne ?_ ..
    rintro rfl
    exact h.kept ht hk
  refine ⟨fun {m u} hu => ?_, fun {m m' u u'} hu hu' e => ?_, fun m hm => ?_, fun {m u} hu hm0 hms => ?_,
    fun {m u} hu hz => ?_, fun {m u} hu => ?_, fun k hlt hno => ?_, h.old, fun k hk => ?_, fun e he => ?_⟩
  · obtain ⟨v, hv, -⟩ := hold hu
    exact h.lt hv
  · obtain ⟨v, hv, -⟩ := hold hu
    obtain ⟨v', hv', -⟩ := hold hu'
    exact h.inj hv hv' e
  · obtain ⟨u, hu, hz⟩ := h.kernel m hm
    refine ⟨u, (update_of_ne ?_ ..).trans hu, hz⟩
    rintro rfl
    exact hm.elim h0 hs
  · obtain ⟨v, hv, hpar⟩ := hold hu
    obtain ⟨k, hsire, hq⟩ := h.kin hv hm0 hms
    refine ⟨k, hsire, fun q w hw e => ?_⟩
    obtain ⟨w', hw', -⟩ := hold hw
    exact hq q w' hw' (hpar.symm.trans e)
  · show update p.passed (p.born n) (some ret) (p.born m) = some u.exitCode
    rcases of_update_eq hu with ⟨rfl, ⟨⟩⟩ | ⟨hne, hu⟩
    · exact update_self ..
    · rw [update_of_ne fun e => hne (h.inj hu ht e)]
      exact h.code hu hz
  · obtain ⟨v, hv, -⟩ := hold hu
    exact h.kept hv
  · refine h.once k hlt fun m v hv => ?_
    by_cases e : m = n
    · subst e
      exact hno m _ (update_self ..)
    · exact hno m v ((update_of_ne e ..).trans hv)
  · show ∃ c, update p.passed (p.born n) (some ret) k = some c
    rw [hpassed hk]
    exact h.exited k hk
  · obtain ⟨hf, hsire, hst⟩ := h.logged e he
    exact ⟨hf, hsire, (hpassed hf).trans hst⟩

/-- The notice changes no more than the parent's signals, and wakes it. -/
theorem SameKin.notify (s : Sched) (w : Word) : SameKin s.tk (s.notify w).tk := by
  unfold Sched.notify
  split
  · refine SameKin.update fun u _ => ?_
    split
    · exact ⟨rfl, rfl, Iff.rfl⟩
    refine ⟨rfl, rfl, ?_⟩
    split
    · next hi => simp [hi]
    · exact Iff.rfl
  · exact fun _ => rfl

theorem KinInv.sysExit {ret : Word} (h : KinInv p) (ht : p.tk n = some t) (hz : t.state ≠ .zombie)
    (hs : n ≠ syncTaskSlot) : KinInv (p.sysExit n ret) := by
  unfold Procs.sysExit Sched.sysExit
  simp only [ht]
  split
  · next h0 =>
    subst h0
    refine h.same (SameKin.update fun u hu => ⟨rfl, rfl, iff_of_false (nofun) ?_⟩) rfl rfl rfl rfl rfl rfl
    exact some.inj (ht.symm.trans hu) ▸ hz
  next h0 =>
  refine (h.die ret ht h0 hs).same ?_ rfl rfl rfl rfl rfl rfl
  have e : (setTask ⟨p.tk, n⟩ n fun t => { t with exitCode := ret, state := .zombie }).tk =
      update p.tk n (some { t with exitCode := ret, state := .zombie }) := by
    show update p.tk n ((p.tk n).map _) = _
    rw [ht]
    rfl
  exact e ▸ SameKin.notify _ t.parent

/-! ### Whole runs -/

theorem kinInv_boot : KinInv boot := by
  have hcases : ∀ {m t}, boot.tk m = some t → (m = 0 ∨ m = syncTaskSlot) ∧ t.state = .running := by
    intro m t ht
    change Sched.boot.tk m = some t at ht
    unfold Sched.boot at ht
    simp only at ht
    split at ht
    · next hm =>
      obtain rfl := some.inj ht
      exact ⟨.inl hm, rfl⟩
    split at ht
    · next hm =>
      obtain rfl := some.inj ht
      exact ⟨.inr hm, rfl⟩
    · cases ht
  have hborn : boot.born 0 = 0 ∧ boot.born syncTaskSlot = 1 := by decide
  refine ⟨fun {m t} ht => ?_, fun {m m' t t'} ht ht' e => ?_, fun m hm => ?_, fun {m t} ht h0 hs => ?_,
    fun {m t} ht hz => ?_, fun {m t} _ => not_mem_nil, fun k hlt hno => ?_, by simp [boot], by simp [boot],
    by simp [boot]⟩
  · show boot.born m < 2
    rcases (hcases ht).1 with rfl | rfl
    · omega
    · omega
  · rcases (hcases ht).1 with rfl | rfl <;> rcases (hcases ht').1 with rfl | rfl
    · rfl
    · omega
    · omega
    · rfl
  · rcases hm with rfl | rfl
    · exact ⟨_, rfl, by decide⟩
    · exact ⟨_, rfl, by decide⟩
  · exact ((hcases ht).1.elim h0 hs).elim
  · rw [(hcases ht).2] at hz
    cases hz
  · have h₀ := hno 0 _ rfl
    have h₁ := hno syncTaskSlot _ rfl
    change k < 2 at hlt
    omega

/-- **One step.** -/
theorem KinInv.step {op : ProcOp} (h : KinInv p) (hc : p.Careful op) : KinInv (p.step op) := by
  cases op with
  | fork n =>
    cases hu : p.user n with
    | none => simpa only [Procs.step, hu] using h
    | some t =>
      obtain ⟨-, ht, -⟩ := user_some hu
      simpa only [Procs.step, hu] using h.sysFork ht hc
  | exit n ret =>
    cases hu : p.user n with
    | none => simpa only [Procs.step, hu] using h
    | some t =>
      obtain ⟨hs, ht, hz⟩ := user_some hu
      simpa only [Procs.step, hu] using h.sysExit ht hz hs
  | waitpid n pid options =>
    cases hu : p.user n with
    | none => simpa only [Procs.step, hu] using h
    | some t =>
      obtain ⟨-, ht, hz⟩ := user_some hu
      simp only [Procs.step, hu]
      split
      · exact h
      · exact h.wait ht hz
  | resume n =>
    cases hw : p.waiting n with
    | none => simpa only [Procs.step, hw] using h
    | some a =>
      cases ha : p.alive n with
      | none => simpa only [Procs.step, hw, ha] using h
      | some t =>
        obtain ⟨ht, hz⟩ := alive_some ha
        simp only [Procs.step, hw, ha]
        have hw' : KinInv { p with waiting := update p.waiting n none } :=
          h.same (fun _ => rfl) rfl rfl rfl rfl rfl rfl
        have hrun : KinInv (Procs.setState { p with waiting := update p.waiting n none } n .running) :=
          hw'.setState (by decide) fun u hu => some.inj (ht.symm.trans hu) ▸ hz
        refine hrun.wait (t := { t with state := .running }) ?_ (nofun)
        show update p.tk n ((p.tk n).map _) n = _
        rw [update_self, ht]
        rfl
  | signal n handler =>
    cases hu : p.user n with
    | none => simpa only [Procs.step, hu] using h
    | some t =>
      simp only [Procs.step, hu]
      refine h.same (SameKin.update fun t _ => ?_) rfl rfl rfl rfl rfl rfl
      obtain ⟨hs, e⟩ := t.signalChild_cases handler
      rw [e]
      exact ⟨rfl, rfl, Iff.rfl⟩
  | schedule n =>
    cases ht : p.tk n with
    | none => simpa only [Procs.step, ht] using h
    | some t => simpa only [Procs.step, ht] using h.autoReap

/-- No slot is used again too early, in a whole run. -/
def CarefulRun (p : Procs) (ops : List ProcOp) : Prop := Run.Guarded step Careful p ops

instance decidableCarefulRun (p : Procs) (ops : List ProcOp) : Decidable (CarefulRun p ops) :=
  Run.decidableGuarded p ops

theorem KinInv.run {ops : List ProcOp} (h : KinInv p) (hc : CarefulRun p ops) : KinInv (p.run ops) :=
  Run.Guarded.inv KinInv.step hc h

/-- A process has been here. -/
def Here (p : Procs) (k : ℕ) : Prop := ∃ m t, p.tk m = some t ∧ p.born m = k

/-- **Waiting for one's children.**  In every run in which no `sys_fork()` takes a slot that some task
still remembers as its parent's: what a `sys_waitpid()` reaps is a task that a `sys_fork()` of the same
process has made, and the status is the code this task has given to `sys_exit()`; and every process
that there has been is either in `task[]`, its page not freed, or it has exited and its page has been
freed once. -/
theorem waitpid_reaps_own (ops : List ProcOp) (hc : CarefulRun boot ops) :
    (∀ e ∈ (boot.run ops).log, e.sire = some e.caller ∧ (boot.run ops).passed e.child = some e.status) ∧
      ∀ k < (boot.run ops).next, (boot.run ops).Here k ∧ (boot.run ops).freed.count k = 0 ∨
          ¬ (boot.run ops).Here k ∧ (∃ c, (boot.run ops).passed k = some c) ∧ (boot.run ops).freed.count k = 1 := by
  have h := kinInv_boot.run hc
  refine ⟨fun e he => (h.logged e he).2, fun k hk => ?_⟩
  by_cases hin : (boot.run ops).Here k
  · obtain ⟨m, t, ht, rfl⟩ := hin
    exact .inl ⟨⟨m, t, ht, rfl⟩, count_eq_zero_of_not_mem (h.kept ht)⟩
  have hone := h.once k hk fun m t ht e => hin ⟨m, t, ht, e⟩
  have hmem : k ∈ (boot.run ops).freed := count_pos_iff.mp (by omega)
  exact .inr ⟨hin, h.exited k hmem, hone⟩

/-- A parent exits and is reaped, its slot is taken, and then its orphan exits. -/
def adoption : List ProcOp :=
  [.fork 0, .fork 1, .exit 1 0#32, .waitpid 0 (-1#32) 0#32, .fork 0, .exit 2 7#32, .waitpid 1 (-1#32) 0#32]

/-- Two children; one exits and is reaped, and the other then makes a child in the slot. -/
def family : List ProcOp :=
  [.fork 0, .fork 0, .exit 1 7#32, .waitpid 0 (-1#32) 0#32, .fork 2, .exit 1 9#32, .waitpid 2 1#32 0#32]

/-- **A process reaps a child of the task that had its slot before**: the caller is process 4, and
process 2 has made the child. -/
theorem waitpid_reaps_orphan : (boot.run adoption).log.head? = some ⟨4, 3, 2#32, 7#32, some 2⟩ := by
  decide

theorem family_reaps_own :
    (boot.run family).log = [⟨3, 4, 1#32, 9#32, some 3⟩, ⟨0, 2, 1#32, 7#32, some 0⟩] ∧
      ∀ e ∈ (boot.run family).log, e.sire = some e.caller ∧ (boot.run family).passed e.child = some e.status := by
  refine ⟨by decide, (waitpid_reaps_own family ?_).1⟩
  decide

/-! ### What the caller is told -/

/-- How a pass of `sys_waitpid`'s loop ends: it returns the number of a child that it has reaped, it returns −1
or 0, or it sleeps. -/
inductive WaitEnd where
  | reaped (pid : Word)
  | returns (value : Word)
  | sleeps
  deriving DecidableEq

/-- **`sys_waitpid`**, one pass of its loop; SIGCHLD is not ignored. -/
def waitEnd (p : Procs) (n : Slot) (pid options : Word) : WaitEnd :=
  match (reapable p.tk n pid).bind p.tk with
  | some c => .reaped c.pid
  | none =>
    if foundAny p.tk n = false then .returns (-1#32)
    else if options &&& 1#32 ≠ 0#32 then .returns 0#32
    else .sleeps

/-- It is what `wait` does: a pass that returns −1 or 0 leaves all as it is. -/
theorem wait_of_waitEnd (p : Procs) (n : Slot) (pid options : Word) :
    match p.waitEnd n pid options with
    | .reaped c => (p.wait n pid options).log.head?.map Reaped.pid = some c
    | .returns _ => p.wait n pid options = p
    | .sleeps => p.wait n pid options =
        ({ p with waiting := update p.waiting n (some (pid, options)) }.setState n .interruptible).autoReap n := by
  unfold waitEnd wait
  cases hr : reapable p.tk n pid with
  | some i =>
    obtain ⟨-, c, hc, -⟩ := reapable_some hr
    simp [hc]
  | none => grind

/-- There is a child that `sys_waitpid(pid)` asks for. -/
def hasChild (tk : TaskTable) (n : Slot) (pid : Word) : Bool :=
  (List.finRange 64).any fun i => i ≠ 0 ∧ (tk i).any fun c =>
    c.parent = BitVec.ofNat 32 n.val ∧ ¬ (0 < pid.toInt ∧ c.pid ≠ pid)

/-- A missing child is reported, and 0 stands for a child that is there and has not finished. -/
structure ReportsMissing (p : Procs) (n : Slot) (pid options : Word) : Prop where
  missing : hasChild p.tk n pid = false → p.waitEnd n pid options = .returns (-1#32)
  notYet : p.waitEnd n pid options = .returns 0#32 →
    options &&& 1#32 ≠ 0#32 ∧ hasChild p.tk n pid = true ∧ reapable p.tk n pid = none
  sleeps : p.waitEnd n pid options = .sleeps → hasChild p.tk n pid = true

/-- **`sys_waitpid` reports a missing child** exactly if the caller has the child, or no child at all: a child that
was not asked for counts as found. -/
theorem waitpid_reports_missing_iff (p : Procs) (n : Slot) (pid options : Word) :
    p.ReportsMissing n pid options ↔ hasChild p.tk n pid = true ∨ foundAny p.tk n = false := by
  cases hr : reapable p.tk n pid with
  | some i =>
    obtain ⟨h0, c, hc, hparent, -, hpid⟩ := reapable_some hr
    have hhas : hasChild p.tk n pid = true := by
      refine any_eq_true.mpr ⟨i, mem_finRange i, decide_eq_true ⟨h0, ?_⟩⟩
      rw [hc]
      exact decide_eq_true ⟨hparent, hpid⟩
    have hend : p.waitEnd n pid options = .reaped c.pid := by
      simp only [waitEnd, hr, bind_some, hc]
    exact iff_of_true ⟨fun e => absurd (hhas.symm.trans e) (by decide), fun e => (by rw [hend] at e; cases e),
      fun _ => hhas⟩ (.inl hhas)
  | none =>
    have hend : p.waitEnd n pid options = if foundAny p.tk n = false then .returns (-1#32)
        else if options &&& 1#32 ≠ 0#32 then .returns 0#32 else .sleeps := by
      simp only [waitEnd, hr, bind_none]
    refine ⟨fun h => ?_, fun h => ⟨?_, ?_, ?_⟩⟩
    · have := h.missing
      grind
    all_goals grind

/-- **The init task has a child, and waits for another number**: with WNOHANG it is told that the child has not
finished, and without it sleeps. -/
theorem waitpid_other_child :
    hasChild (boot.run [.fork 0]).tk 0 5#32 = false ∧ (boot.run [.fork 0]).waitEnd 0 5#32 1#32 = .returns 0#32 ∧
      (boot.run [.fork 0]).waitEnd 0 5#32 0#32 = .sleeps := by
  decide

end Procs

end Linux001

import Linux001.Kernel.Task

/-!
# Kernel — signals

The signal code of `kernel/process.c` and `kernel/asm.s`: dispositions and masks, delivery to a
handler on the way back to user mode, and `sigreturn`.  The tables that the source indexes by pid
are functions of the slot; `sig_sa_mask[pid][sig]` is one flat array, since `sys_sigaction` stores
past the end of a row.

A task that sleeps inside a call (`sigsuspend`, a stop) has its place in the code in `mode`, and
other tasks run meanwhile.  What `deliver_signal` writes to the user's stack is left out: the
kernel never reads it back.

`running`, `last` and `entered` record the handlers a task has entered and not yet returned from,
the frame it was last interrupted in, and how often a handler was to be entered; no function of
the kernel reads them.
-/

namespace Linux001

open Function

/-! ### Numbers -/

def sigint : ℕ := 2
def sigquit : ℕ := 3
def sigkill : ℕ := 9
def sigsegv : ℕ := 11
def sigpipe : ℕ := 13
def sigalrm : ℕ := 14
def sigchld : ℕ := 17
def sigcont : ℕ := 18
def sigstop : ℕ := 19

def sigDfl : Word := 0#32
def sigIgn : Word := 1#32

/-- `SIG_SA_MAX`. -/
def sigSaMax : ℕ := 18

/-- `1UL << sig`. -/
def sigBit (sig : ℕ) : Word := 1#32 <<< sig

/-- `SIG_UNBLOCKABLE`. -/
def sigUnblockable : Word := sigBit sigkill

def userCs : Word := 0x1B#32
def userDs : Word := 0x23#32
def sigframeMagic : Word := 0x51475346#32
def userSigreturnEntry : Word := 0x083FF100#32
def sigframeBytes : Word := 92#32

/-! ### Frames -/

/-- The frame of a system call: the registers it was entered with, and what `iret` pops. -/
structure UFrame where
  ebx : Word := 0#32
  ecx : Word := 0#32
  edx : Word := 0#32
  esi : Word := 0#32
  edi : Word := 0#32
  ebp : Word := 0#32
  eax : Word := 0#32
  gs : Word := 0#32
  fs : Word := 0#32
  es : Word := 0#32
  ds : Word := 0#32
  eip : Word := 0#32
  cs : Word := 0#32
  eflags : Word := 0#32
  esp : Word := 0#32
  ss : Word := 0#32
  deriving DecidableEq

/-- `struct sig_context`; `regs` are its last sixteen words. -/
structure SigContext where
  magic : Word := 0#32
  retaddr : Word := 0#32
  handler : Word := 0#32
  signo : Word := 0#32
  regs : UFrame := {}
  deriving DecidableEq

/-- Where a task is: in user mode, asleep in `sigsuspend` with its new and old mask, or stopped in
`do_signal` before the remaining signals. -/
inductive Mode where
  | user
  | suspended (f : UFrame) (new old : Word)
  | stopped (f : UFrame) (rest : List ℕ)
  deriving DecidableEq

/-- What a handler interrupted: the registers, `sig_blocked` before its own mask was added, and
which of the task's entries it was. -/
structure Saved where
  regs : UFrame
  blocked : Word
  nr : ℕ

/-- The tables, and the one `sigreturn_frame`. -/
structure SigTab where
  task : TaskTable
  blocked : Slot → Word
  suspendMask : Slot → Word
  suspendPending : Slot → Bool
  sa : Slot → Word
  saMask : ℕ → BitVec 16
  handlerMask : Slot → Word
  handlerMaskSaved : Slot → Bool
  sigreturnFrame : SigContext
  mode : Slot → Mode
  halted : Bool
  running : Slot → List Saved
  last : Slot → UFrame
  entered : Slot → ℕ

namespace SigTab

/-- `sig_sa_mask[n][sig]`. -/
def saIx (n : Slot) (sig : ℕ) : ℕ := n.val * sigSaMax + sig

/-- **`sig_action_mask`.** -/
def actionMask (s : SigTab) (n : Slot) (sig : ℕ) : BitVec 16 :=
  if 0 < sig ∧ sig < sigSaMax then s.saMask (saIx n sig) else 0#16

/-- **`sig_restore_suspend_mask`.** -/
def restoreSuspendMask (s : SigTab) (n : Slot) : SigTab :=
  if s.suspendPending n then
    { s with
      suspendPending := update s.suspendPending n false
      blocked := update s.blocked n (s.suspendMask n) }
  else s

/-- **`sigreturn_restore_mask`.** -/
def sigreturnRestoreMask (s : SigTab) (n : Slot) : SigTab :=
  if s.handlerMaskSaved n then
    { s with
      handlerMaskSaved := update s.handlerMaskSaved n false
      blocked := update s.blocked n (s.handlerMask n) }
  else s

/-- `*task[n] = t`. -/
def setTask (s : SigTab) (n : Slot) (t : Task) : SigTab :=
  { s with task := update s.task n (some t) }

theorem setTask_some {s : SigTab} {n k : Slot} {t t' : Task} (h : (s.setTask n t).task k = some t') :
    (k = n ∧ t' = t) ∨ (k ≠ n ∧ s.task k = some t') := by
  by_cases e : k = n
  · subst e
    exact .inl ⟨rfl, by simpa [setTask] using h.symm⟩
  · exact .inr ⟨e, by simpa [setTask, e] using h⟩

end SigTab

/-! ### Dispositions and masks -/

/-- A value `sys_signal` and `sys_sigaction` accept: a default, or an address in the program. -/
def handlerOk (handler : Word) : Bool :=
  handler = sigDfl ∨ handler = sigIgn ∨ (userProgStart ≤ handler ∧ handler < userProgEnd)

/-- The signal number of a call, if it is one that may be caught. -/
def catchable (sig : ℤ) : Option (Fin 32) :=
  if h : 1 ≤ sig ∧ sig < 32 ∧ sig ≠ sigkill then some ⟨sig.toNat, by omega⟩ else none

/-- **`sys_signal`.** -/
def sysSignal (s : SigTab) (n : Slot) (t : Task) (sig : ℤ) (handler : Word) : Word × SigTab :=
  match catchable sig with
  | none => (-1, s)
  | some k =>
    if handlerOk handler then
      (t.handlers k, s.setTask n { t with handlers := update t.handlers k handler })
    else (-1, s)

namespace SigTab

/-- `SIG_DFL` and `SIG_IGN` are not handlers.  For `sig >= SIG_SA_MAX` the store lies in the next
task's row. -/
def dropAction (s : SigTab) (n : Slot) (sig : ℕ) : SigTab :=
  { s with
    sa := update s.sa n (s.sa n &&& ~~~(sigBit sig))
    saMask := update s.saMask (saIx n sig) 0#16 }

/-- A handler that stays installed, with `(unsigned short)(mask & 0x1FFFF)`. -/
def putAction (s : SigTab) (n : Slot) (sig : ℕ) (mask : Word) : SigTab :=
  { s with
    sa := update s.sa n (s.sa n ||| sigBit sig)
    saMask := if sig < sigSaMax then
        update s.saMask (saIx n sig) ((mask &&& 0x1FFFF#32).setWidth 16)
      else s.saMask }

end SigTab

/-- **`sys_sigaction`**; `act` is what the caller's pointer points to. -/
def sysSigaction (s : SigTab) (n : Slot) (t : Task) (sig : ℤ) (act : Option (Word × Word × Word)) :
    Word × SigTab :=
  match catchable sig with
  | none => (-1, s)
  | some k =>
    match act with
    | none => (0, s)
    | some (handler, mask, _) =>
      if handlerOk handler then
        let s₁ := s.setTask n { t with handlers := update t.handlers k handler }
        if handler = sigDfl ∨ handler = sigIgn then (0, s₁.dropAction n k)
        else (0, s₁.putAction n k mask)
      else (-1, s)

/-- **`sys_sigprocmask`**; `set` is what the caller's pointer points to. -/
def sysSigprocmask (s : SigTab) (n : Slot) (how : ℤ) (set : Option Word) : Word × SigTab :=
  match set with
  | none => (0, s)
  | some w =>
    let put := fun mask =>
      ((0 : Word), { s with blocked := update s.blocked n (mask &&& ~~~sigUnblockable) })
    if how = 1 then put (s.blocked n ||| w)
    else if how = 2 then put (s.blocked n &&& ~~~w)
    else if how = 3 then put w
    else (-1, s)

/-- The mask `sys_sigsuspend` installs; `mask` is what the caller's pointer points to. -/
def suspendMaskOf : Option Word → Word
  | none => 0#32
  | some w => w &&& ~~~sigUnblockable

/-! ### Delivery -/

/-- Is the user's stack pointer one that `deliver_signal` builds a frame below? -/
def frameOk (esp : Word) : Bool :=
  ¬ (esp.slt userStackFloor ∨ userStackTop.slt esp ∨ (esp - 4#32 - sigframeBytes).slt userStackFloor)

/-- **`deliver_signal`.**  `prev` is the mask that was in force, for the record. -/
def deliverSignal (s : SigTab) (n : Slot) (sig : ℕ) (handler prev : Word) (f : UFrame) :
    SigTab × UFrame :=
  if frameOk f.esp then
    ({ s with
      sigreturnFrame :=
        { magic := sigframeMagic, retaddr := userSigreturnEntry, handler := handler
          signo := BitVec.ofNat 32 sig, regs := f }
      running := update s.running n (⟨f, prev, s.entered n⟩ :: s.running n)
      last := update s.last n f },
      { f with eip := handler, esp := f.esp - 4#32 - sigframeBytes })
  else (s, f)

namespace SigTab

/-- A handler that `signal()` installed is reset before it runs, except for SIGCHLD. -/
def resetHandler (s : SigTab) (n : Slot) (t : Task) (sig : Fin 32) : SigTab :=
  if sig.val ≠ sigchld ∧ (s.sa n).getLsbD sig = false then
    s.setTask n { t with handlers := update t.handlers sig sigDfl }
  else s

/-- The mask in force is saved, and the handler's own signal and `sa_mask` are blocked. -/
def pushMask (s : SigTab) (n : Slot) (sig : ℕ) : SigTab :=
  { s with
    handlerMask := update s.handlerMask n (s.blocked n)
    handlerMaskSaved := update s.handlerMaskSaved n true
    blocked := update s.blocked n
      (s.blocked n ||| (sigBit sig ||| (s.actionMask n sig).setWidth 32))
    entered := update s.entered n (s.entered n + 1) }

end SigTab

/-- The entry to a handler in `do_signal`. -/
def enterHandler (s : SigTab) (n : Slot) (t : Task) (sig : Fin 32) (f : UFrame) :
    SigTab × UFrame :=
  let s₁ := (s.resetHandler n t sig).restoreSuspendMask n
  deliverSignal (s₁.pushMask n sig) n sig (t.handlers sig) (s₁.blocked n) f

/-- The signals whose default action is `sys_exit`. -/
def fatal (sig : ℕ) : Bool :=
  sig = sigint ∨ sig = sigquit ∨ sig = sigkill ∨ sig = sigsegv ∨ sig = sigpipe ∨ sig = sigalrm

/-- How `do_signal` ends: it returns, perhaps into a handler; the task exits; or it stops. -/
inductive SigRet where
  | done (s : SigTab) (f : UFrame)
  | exit (s : SigTab) (sig : ℕ)
  | stop (s : SigTab) (rest : List ℕ)

/-- The caller is in Ring3. -/
def UFrame.ring3 (f : UFrame) : Bool := f.cs &&& 3#32 = 3#32

/-- The task's bit for `sig` is cleared. -/
def Task.consume (t : Task) (sig : ℕ) : Task := { t with signal := t.signal &&& ~~~(sigBit sig) }

/-- The loop of `do_signal` over the remaining signals. -/
def sigLoop (n : Slot) (f : UFrame) : List ℕ → SigTab → SigRet
  | [], s => .done (s.restoreSuspendMask n) f
  | sig :: rest, s =>
    match s.task n with
    | none => .done s f
    | some t =>
      if t.signal.getLsbD sig = false then sigLoop n f rest s
      else if sig = sigstop then .stop (s.setTask n { t.consume sig with state := .stopped }) rest
      else if sig = sigcont then
        sigLoop n f rest (s.setTask n { t.consume sig with
          state := if t.state = .stopped then .running else t.state })
      else if (s.blocked n).getLsbD sig then sigLoop n f rest s
      else
        let s₁ := s.setTask n (t.consume sig)
        let h := t.handlers (Fin.ofNat 32 sig)
        if h = sigIgn then sigLoop n f rest s₁
        else if h ≠ sigDfl ∧ f.ring3 then
          let r := enterHandler s₁ n (t.consume sig) (Fin.ofNat 32 sig) f
          .done r.1 r.2
        else if fatal sig then .exit s₁ sig
        else sigLoop n f rest s₁

/-- The signals `do_signal` looks at, in order. -/
def allSignals : List ℕ := (List.range 32).tail

/-- **`do_signal`.** -/
def doSignal (s : SigTab) (n : Slot) (f : UFrame) : SigRet :=
  match s.task n with
  | none => .done s f
  | some t =>
    if t.signal = 0#32 then .done (s.restoreSuspendMask n) f else sigLoop n f allSignals s

/-- **`sys_sigreturn`**: the frame it leaves, or `none` where it halts the machine. -/
def sysSigreturn (s : SigTab) (n : Slot) (_f : UFrame) : SigTab × Option UFrame :=
  let s₁ := { s.sigreturnRestoreMask n with running := update s.running n (s.running n).tail }
  let c := s.sigreturnFrame
  if c.magic = sigframeMagic ∧ c.retaddr = userSigreturnEntry ∧ c.regs.eip ≠ 0#32 ∧
      c.regs.cs = userCs ∧ c.regs.ss = userDs ∧ c.regs.esp &&& 3#32 = 0#32 ∧
      userStackFloor ≤ c.regs.esp ∧ c.regs.esp < userWindowTop then
    (s₁, some c.regs)
  else (s₁, none)

/-! ### The system -/

/-- A system call: those of the signal code, or any other with the value it returns. -/
inductive Call where
  | signal (sig : ℤ) (handler : Word)
  | sigaction (sig : ℤ) (act : Option (Word × Word × Word))
  | sigprocmask (how : ℤ) (set : Option Word)
  | sigsuspend (mask : Option Word)
  | sigreturn
  | other (ret : Word)

inductive SigOp where
  /-- The task in slot `n` makes a call from the frame `f`. -/
  | call (n : Slot) (f : UFrame) (c : Call)
  /-- The timer interrupts the task in slot `n`: `do_signal_from_intr`. -/
  | timer (n : Slot) (f : UFrame)
  /-- A task that sleeps in `sigsuspend` or is stopped goes on, if what it waits for holds. -/
  | wake (n : Slot)
  /-- A signal is posted by anybody. -/
  | post (n : Slot) (sig : Fin 32)
  /-- The signal half of `sys_fork` into the free slot `n'`. -/
  | fork (n n' : Slot)
  /-- The task exits and its slot is given back. -/
  | exit (n : Slot)

namespace SigTab

/-- A task is gone. -/
def leave (s : SigTab) (n : Slot) : SigTab :=
  { s with
    task := update s.task n none
    mode := update s.mode n .user
    running := update s.running n [] }

/-- The end of `do_signal`. -/
def finish (n : Slot) (f : UFrame) : SigRet → SigTab
  | .done s _ => { s with mode := update s.mode n .user }
  | .exit s _ => s.leave n
  | .stop s rest => { s with mode := update s.mode n (.stopped f rest) }

/-- `ret_from_sys_call`: `do_signal` is called only if a signal is pending. -/
def ret (s : SigTab) (n : Slot) (f : UFrame) : SigTab :=
  match s.task n with
  | none => s
  | some t =>
    if t.signal = 0#32 then { s with mode := update s.mode n .user }
    else finish n f (doSignal s n f)

/-- A posted signal. -/
def post (s : SigTab) (n : Slot) (sig : Fin 32) : SigTab :=
  match s.task n with
  | none => s
  | some t =>
    s.setTask n { t with
      signal := t.signal ||| sigBit sig
      state := if t.state = .interruptible ∨ (sig.val = sigcont ∧ t.state = .stopped) then .running
        else t.state }

/-- The child inherits the masks and the actions. -/
def fork (s : SigTab) (n n' : Slot) (t : Task) : SigTab :=
  { s with
    task := update s.task n' (some { t with state := .running })
    blocked := update s.blocked n' (s.blocked n)
    sa := update s.sa n' (s.sa n)
    handlerMask := update s.handlerMask n' (s.handlerMask n)
    handlerMaskSaved := update s.handlerMaskSaved n' false
    saMask := fun k => if k / sigSaMax = n'.val then s.saMask (saIx n (k % sigSaMax)) else s.saMask k
    mode := update s.mode n' .user
    running := update s.running n' [] }

/-- What a task in user mode does with a call. -/
def call (s : SigTab) (n : Slot) (t : Task) (f : UFrame) : Call → SigTab
  | .signal sig h => let r := sysSignal s n t sig h; r.2.ret n { f with eax := r.1 }
  | .sigaction sig act => let r := sysSigaction s n t sig act; r.2.ret n { f with eax := r.1 }
  | .sigprocmask how set => let r := sysSigprocmask s n how set; r.2.ret n { f with eax := r.1 }
  | .sigsuspend mask =>
    { s with
      blocked := update s.blocked n (suspendMaskOf mask)
      mode := update s.mode n (.suspended f (suspendMaskOf mask) (s.blocked n)) }
  | .sigreturn =>
    match sysSigreturn s n f with
    | (s₁, some f') => s₁.ret n f'
    | (s₁, none) => { s₁ with halted := true }
  | .other r => s.ret n { f with eax := r }

/-- **One operation.**  A machine that `sys_sigreturn` has halted does nothing more. -/
def step (s : SigTab) (op : SigOp) : SigTab :=
  if s.halted then s
  else
    match op with
    | .call n f c =>
      match s.task n, s.mode n with
      | some t, .user => s.call n t f c
      | _, _ => s
    | .timer n f =>
      match s.task n, s.mode n with
      | some _, .user => if f.ring3 then s.ret n f else s
      | _, _ => s
    | .wake n =>
      match s.task n, s.mode n with
      | some t, .suspended f new old =>
        if t.signal &&& ~~~new = 0#32 then s
        else
          { s with
            suspendMask := update s.suspendMask n old
            suspendPending := update s.suspendPending n true }.ret n { f with eax := -1 }
      | some t, .stopped f rest =>
        if t.state = .running then finish n f (sigLoop n f rest s) else s
      | _, _ => s
    | .post n sig => s.post n sig
    | .fork n n' =>
      match s.task n, s.task n', s.mode n with
      | some t, none, .user => s.fork n n' t
      | _, _, _ => s
    | .exit n => s.leave n

/-- **A run.** -/
def run (s : SigTab) (ops : List SigOp) : SigTab := ops.foldl step s

end SigTab

/-! ### What is kept -/

/-- What `do_signal` needs in order to end in `E`: a property that the consumption of a signal keeps. -/
structure SigRule (n : Slot) (f : UFrame) (P : SigTab → Prop) (E : SigRet → Prop) : Prop where
  task : ∀ {s t t'}, P s → s.task n = some t → t'.handlers = t.handlers → P (s.setTask n t')
  restore : ∀ {s}, P s → P (s.restoreSuspendMask n)
  done : ∀ {s}, P s → E (.done s f)
  enter : ∀ {s t sig}, P s → s.task n = some t → t.handlers sig ≠ sigDfl →
    E (.done (enterHandler s n t sig f).1 (enterHandler s n t sig f).2)
  exit : ∀ {s} sig, P s → E (.exit s sig)
  stop : ∀ {s} rest, P s → E (.stop s rest)

section
variable {n : Slot} {f : UFrame} {s : SigTab} {P Q : SigTab → Prop} {E : SigRet → Prop}

theorem SigRule.sigLoop (h : SigRule n f P E) (l : List ℕ) (hs : P s) : E (sigLoop n f l s) := by
  induction l generalizing s with
  | nil => exact h.done (h.restore hs)
  | cons sig rest ih =>
    rw [Linux001.sigLoop]
    cases ht : s.task n with
    | none => exact h.done hs
    | some t =>
      have h₁ : P (s.setTask n (t.consume sig)) := h.task hs ht rfl
      simp only
      split
      · exact ih hs
      split
      · exact h.stop rest (h.task hs ht rfl)
      split
      · exact ih (h.task hs ht rfl)
      split
      · exact ih hs
      split
      · exact ih h₁
      split
      · next hc => exact h.enter h₁ (update_self ..) hc.1
      split
      · exact h.exit sig h₁
      · exact ih h₁

theorem SigRule.ret (h : SigRule n f P E) (hE : ∀ {r}, E r → Q (SigTab.finish n f r)) (hs : P s)
    (gone : s.task n = none → Q s) : Q (s.ret n f) := by
  unfold SigTab.ret doSignal
  cases ht : s.task n with
  | none => exact gone ht
  | some t =>
    simp only
    split
    · exact hE (h.done hs)
    · exact hE (h.sigLoop _ hs)

/-- **The rule of one operation.** -/
theorem SigTab.step_rule {op : SigOp} (same : Q s)
    (call : ∀ {n f c t}, op = .call n f c → s.task n = some t → Q (s.call n t f c))
    (ret : ∀ {n f}, op = .timer n f → Q (s.ret n f))
    (wake : ∀ {n f new old}, s.mode n = .suspended f new old → Q ({ s with
      suspendMask := update s.suspendMask n old
      suspendPending := update s.suspendPending n true }.ret n { f with eax := -1 }))
    (goOn : ∀ {n f rest}, s.mode n = .stopped f rest → Q (finish n f (sigLoop n f rest s)))
    (post : ∀ {n sig}, Q (s.post n sig))
    (fork : ∀ {n n' t}, op = .fork n n' → s.task n = some t → Q (s.fork n n' t))
    (leave : ∀ {n}, Q (s.leave n)) : Q (s.step op) := by
  unfold SigTab.step
  split
  · exact same
  cases op with
  | call n f c =>
    simp only
    split
    · next ht _ => exact call rfl ht
    · exact same
  | timer n f =>
    simp only
    split
    · split
      · exact ret rfl
      · exact same
    · exact same
  | wake n =>
    simp only
    split
    · next hm =>
      split
      · exact same
      · exact wake hm
    · next hm =>
      split
      · exact goOn hm
      · exact same
    · exact same
  | post n sig => exact post
  | fork n n' =>
    simp only
    split
    · next ht _ _ => exact fork rfl ht
    · exact same
  | exit n => exact leave

end

end Linux001

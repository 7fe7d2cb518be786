import Linux001.Kernel.Signal
import Linux001.Lib.Update

/-!
# Kernel — SIGKILL and the masks

`sys_sigprocmask` and `sys_sigsuspend` strip SIGKILL from the masks they install, `sys_sigaction`
does not strip it from `sa_mask`, and `do_signal` adds `sa_mask` to `sig_blocked`.  So SIGKILL can
be blocked (`sigaction_blocks_sigkill`), and only in that way: in a run without such a call no mask
ever has the bit (`sigkill_never_blocked`).

`do_signal` consumes a signal and blocks it before `deliver_signal` looks at the stack pointer, which may refuse it
(`delivery_keeps_iff`).
-/

namespace Linux001

open Function SigTab List

variable {s s' : SigTab} {n n' : Slot} {t : Task} {f : UFrame} {sig k w : ℕ}

/-! ### Bits -/

theorem getLsbD_sigBit (hk : k < 32) : (sigBit sig).getLsbD k = decide (sig = k) := by
  unfold sigBit
  rw [BitVec.getLsbD_shiftLeft, BitVec.getLsbD_one]
  by_cases h : sig = k
  · simp [h, hk]
  have : ¬ (sig ≤ k ∧ k - sig = 0) := by omega
  by_cases h' : k < sig
  · simp [h, h']
  · have hne : k - sig ≠ 0 := by omega
    simp [h, hne]

/-- Bit SIGKILL of a mask. -/
def kills {w : ℕ} (m : BitVec w) : Bool := m.getLsbD sigkill

theorem kills_strip (m : Word) : kills (m &&& ~~~sigUnblockable) = false := by
  unfold kills sigUnblockable
  rw [BitVec.getLsbD_and, BitVec.getLsbD_not, getLsbD_sigBit (by decide)]
  simp

theorem kills_zero : kills (0#w) = false := by simp [kills]

theorem kills_or (a b : BitVec w) : kills (a ||| b) = (kills a || kills b) := by
  simp [kills]

theorem kills_update {α : Type} [DecidableEq α] {g : α → BitVec w} {a : α} {v : BitVec w}
    (h : ∀ k, kills (g k) = false) (hv : kills v = false) (k : α) :
    kills (update g a v k) = false :=
  (forall_update_iff g (p := fun _ x => kills x = false)).mpr ⟨hv, fun k _ => h k⟩ k

/-! ### No mask has the bit -/

/-- SIGKILL is in no mask, in force or saved, and nobody catches it. -/
structure NoKill (s : SigTab) : Prop where
  blocked : ∀ n, kills (s.blocked n) = false
  suspend : ∀ n, kills (s.suspendMask n) = false
  handler : ∀ n, kills (s.handlerMask n) = false
  action : ∀ k, kills (s.saMask k) = false
  asleep : ∀ {n f new old}, s.mode n = .suspended f new old → kills old = false
  dfl : ∀ {n t}, s.task n = some t → t.handlers 9 = sigDfl

/-- The calls that do not ask for SIGKILL in a handler's mask. -/
def Call.Spares : Call → Prop
  | .sigaction _ (some (_, mask, _)) => kills mask = false
  | _ => True

def SigOp.Spares : SigOp → Prop
  | .call _ _ c => c.Spares
  | _ => True

namespace NoKill

section
variable (h : NoKill s)
include h

theorem setTask (ht : t.handlers 9 = sigDfl) : NoKill (s.setTask n t) :=
  { h with
    dfl := fun hk => by
      rcases setTask_some hk with ⟨-, rfl⟩ | ⟨-, hk⟩
      · exact ht
      · exact h.dfl hk }

theorem block {w : Word} (hw : kills w = false) :
    NoKill { s with blocked := update s.blocked n w } :=
  { h with blocked := kills_update h.blocked hw }

theorem setMode {m : Mode} (hm : ∀ f new old, m = .suspended f new old → kills old = false) :
    NoKill { s with mode := update s.mode n m } :=
  { h with
    asleep := fun hk => by
      rcases of_update_eq hk with ⟨-, e⟩ | ⟨-, hk⟩
      · exact hm _ _ _ e
      · exact h.asleep hk }

theorem restoreSuspendMask : NoKill (s.restoreSuspendMask n) := by
  unfold SigTab.restoreSuspendMask
  split
  · exact { h.block (h.suspend n) with }
  · exact h

theorem sigreturnRestoreMask : NoKill (s.sigreturnRestoreMask n) := by
  unfold SigTab.sigreturnRestoreMask
  split
  · exact { h.block (h.handler n) with }
  · exact h

theorem deliverSignal (sig : ℕ) (handler prev : Word) (f : UFrame) :
    NoKill (deliverSignal s n sig handler prev f).1 := by
  unfold Linux001.deliverSignal
  split
  · exact { h with }
  · exact h

theorem resetHandler (ht : t.handlers 9 = sigDfl) {sig : Fin 32} (hne : sig ≠ 9) :
    NoKill (s.resetHandler n t sig) := by
  unfold SigTab.resetHandler
  split
  · refine h.setTask ?_
    show update t.handlers sig sigDfl 9 = sigDfl
    rw [update_of_ne hne.symm, ht]
  · exact h

/-- A handler runs with its own signal, which is not SIGKILL, and `sa_mask` blocked. -/
theorem pushMask (hne : sig ≠ 9) : NoKill (s.pushMask n sig) := by
  have hmask : kills (s.actionMask n sig) = false := by
    unfold actionMask
    split
    · exact h.action _
    · exact kills_zero
  have hwide : kills ((s.actionMask n sig).setWidth 32) = false := by
    unfold kills at hmask ⊢
    rw [BitVec.getLsbD_setWidth, hmask, Bool.and_false]
  have hsig : kills (sigBit sig) = false := by
    unfold kills
    rw [getLsbD_sigBit (by decide)]
    exact decide_eq_false hne
  refine { h with blocked := kills_update h.blocked ?_, handler := kills_update h.handler (h.blocked n) }
  rw [kills_or, kills_or, h.blocked, hsig, hwide]
  rfl

theorem enterHandler (ht : t.handlers 9 = sigDfl) {sig : Fin 32}
    (hs : t.handlers sig ≠ sigDfl) (f : UFrame) : NoKill (enterHandler s n t sig f).1 := by
  have hne : sig ≠ 9 := fun e => hs (by rw [e, ht])
  exact ((h.resetHandler ht hne).restoreSuspendMask.pushMask fun e => hne (Fin.ext e)).deliverSignal
    _ _ _ f

end

/-- The state in which `do_signal` ends. -/
def Ends (r : SigRet) : Prop :=
  match r with
  | .done s _ | .exit s _ | .stop s _ => NoKill s

theorem leave (h : NoKill s) : NoKill (s.leave n) := by
  have h₁ := h.setMode (n := n) (m := .user) nofun
  exact { h₁ with dfl := fun hk => h.dfl (of_update_none hk).2 }

theorem finish {r : SigRet} (h : Ends r) : NoKill (SigTab.finish n f r) := by
  cases r with
  | done s _ => exact setMode h nofun
  | exit s _ => exact leave h
  | stop s rest => exact setMode h nofun

theorem rule : SigRule n f NoKill Ends where
  task h ht e := h.setTask (by rw [e]; exact h.dfl ht)
  restore h := h.restoreSuspendMask
  done h := h
  enter h ht hs := h.enterHandler (h.dfl ht) hs f
  exit _ h := h
  stop _ h := h

theorem ret (h : NoKill s) : NoKill (s.ret n f) := rule.ret finish h fun _ => h

/-! ### The calls -/

theorem catchable_ne {sig : ℤ} {k : Fin 32} (hk : catchable sig = some k) : k ≠ 9 := by
  unfold catchable at hk
  split at hk
  · next hs =>
    intro e
    rw [e] at hk
    have : sig.toNat = 9 := congrArg Fin.val (Option.some.inj hk)
    have hs' : sig ≠ (sigkill : ℤ) := hs.2.2
    simp only [sigkill] at hs'
    omega
  · cases hk

section
variable (h : NoKill s)
include h

theorem install (ht : s.task n = some t) {sig : ℤ} {k : Fin 32} (hk : catchable sig = some k) (handler : Word) :
    NoKill (s.setTask n { t with handlers := update t.handlers k handler }) := by
  refine h.setTask ?_
  show update t.handlers k handler 9 = sigDfl
  rw [update_of_ne (catchable_ne hk).symm]
  exact h.dfl ht

theorem sysSignal (ht : s.task n = some t) (sig : ℤ) (handler : Word) :
    NoKill (sysSignal s n t sig handler).2 := by
  unfold Linux001.sysSignal
  split
  · exact h
  next k hk =>
  split
  · exact h.install ht hk handler
  · exact h

theorem dropAction (sig : ℕ) : NoKill (s.dropAction n sig) :=
  { h with action := kills_update h.action kills_zero }

theorem putAction (sig : ℕ) {mask : Word} (hm : kills mask = false) :
    NoKill (s.putAction n sig mask) := by
  have hmask : kills ((mask &&& 0x1FFFF#32).setWidth 16) = false := by
    unfold kills at hm ⊢
    rw [BitVec.getLsbD_setWidth, BitVec.getLsbD_and, hm, Bool.false_and, Bool.and_false]
  refine { h with action := fun j => ?_ }
  unfold SigTab.putAction
  split
  · exact kills_update h.action hmask j
  · exact h.action j

theorem sysSigaction (ht : s.task n = some t) (sig : ℤ)
    {act : Option (Word × Word × Word)} (ha : (Call.sigaction sig act).Spares) :
    NoKill (sysSigaction s n t sig act).2 := by
  unfold Linux001.sysSigaction
  split
  · exact h
  next k hk =>
  split
  · exact h
  next handler mask flags =>
  split
  · have h₁ := h.install ht hk handler
    split
    · exact h₁.dropAction k
    · exact h₁.putAction k ha
  · exact h

theorem sysSigprocmask (how : ℤ) (set : Option Word) :
    NoKill (sysSigprocmask s n how set).2 := by
  unfold Linux001.sysSigprocmask
  split
  · exact h
  split_ifs
  · exact h.block (kills_strip _)
  · exact h.block (kills_strip _)
  · exact h.block (kills_strip _)
  · exact h

theorem sysSigreturn : NoKill (sysSigreturn s n f).1 := by
  have h₁ := h.sigreturnRestoreMask (n := n)
  unfold Linux001.sysSigreturn
  simp only
  split <;> exact { h₁ with }

theorem call (ht : s.task n = some t) (f : UFrame) {c : Call} (hc : c.Spares) :
    NoKill (s.call n t f c) := by
  cases c with
  | signal sig handler => exact (h.sysSignal ht sig handler).ret
  | sigaction sig act => exact (h.sysSigaction ht sig hc).ret
  | sigprocmask how set => exact (h.sysSigprocmask how set).ret
  | sigsuspend mask =>
    have hnew : kills (suspendMaskOf mask) = false := by
      cases mask with
      | none => exact kills_zero
      | some w => exact kills_strip w
    refine (h.block hnew).setMode fun f' new old e => ?_
    obtain ⟨-, -, rfl⟩ := Mode.suspended.inj e
    exact h.blocked n
  | sigreturn =>
    have h₁ := h.sysSigreturn (n := n) (f := f)
    unfold SigTab.call
    generalize Linux001.sysSigreturn s n f = r at h₁
    obtain ⟨s₁, _ | f'⟩ := r
    · exact { h₁ with }
    · exact h₁.ret
  | other r => exact h.ret

theorem post (sig : Fin 32) : NoKill (s.post n sig) := by
  unfold SigTab.post
  split
  · exact h
  next ht =>
  have hd := h.dfl ht
  exact h.setTask hd

theorem fork (ht : s.task n = some t) : NoKill (s.fork n n' t) := by
  have hd := h.dfl ht
  have h₁ := (h.setTask (n := n') (t := { t with state := .running }) hd).block (n := n') (h.blocked n)
  have h₂ := h.setMode (n := n') (m := .user) nofun
  refine ⟨h₁.blocked, h.suspend, kills_update h.handler (h.handler n), fun k => ?_, h₂.asleep, h₁.dfl⟩
  show kills (if k / sigSaMax = n'.val then _ else _) = false
  split <;> exact h.action _

/-- **One operation.** -/
theorem step {op : SigOp} (hop : op.Spares) : NoKill (s.step op) := by
  refine step_rule h (fun e ht => ?_) (fun _ => h.ret) (fun hm => ret ?_)
    (fun _ => finish (rule.sigLoop _ h)) (h.post _) (fun _ ht => h.fork ht) h.leave
  · subst e
    exact h.call ht _ hop
  · exact { h with suspend := kills_update h.suspend (h.asleep hm) }

theorem run {ops : List SigOp} (hops : ∀ op ∈ ops, op.Spares) : NoKill (s.run ops) := by
  induction ops generalizing s with
  | nil => exact h
  | cons op ops ih =>
    obtain ⟨hop, hops⟩ := forall_mem_cons.mp hops
    exact ih (h.step hop) hops

end

end NoKill

/-! ### From boot -/

/-- The tables at boot: no masks, no handlers, every task in user mode. -/
structure SigTab.Initial (s : SigTab) : Prop where
  blocked : ∀ n, s.blocked n = 0#32
  suspend : ∀ n, s.suspendMask n = 0#32
  handler : ∀ n, s.handlerMask n = 0#32
  action : ∀ k, s.saMask k = 0#16
  mode : ∀ n, s.mode n = .user
  running : ∀ n, s.running n = []
  dfl : ∀ {n t}, s.task n = some t → ∀ k, t.handlers k = sigDfl

theorem SigTab.Initial.noKill (h : s.Initial) : NoKill s where
  blocked n := by rw [h.blocked]; exact kills_zero
  suspend n := by rw [h.suspend]; exact kills_zero
  handler n := by rw [h.handler]; exact kills_zero
  action k := by rw [h.action]; exact kills_zero
  asleep {n _ _ _} hm := by rw [h.mode] at hm; cases hm
  dfl ht := h.dfl ht 9

/-! ### The signal that decides -/

theorem consume_getLsbD (hk : k < 32) :
    (t.consume sig).signal.getLsbD k = (t.signal.getLsbD k && !decide (sig = k)) := by
  show (t.signal &&& ~~~(sigBit sig)).getLsbD k = _
  rw [BitVec.getLsbD_and, BitVec.getLsbD_not, getLsbD_sigBit hk]
  simp [hk]

/-- A pending signal that the loop of `do_signal` does not go past: it stops the task, is caught, or ends the task.
`b` is the mask in force. -/
def Decides (b : Word) (t : Task) (f : UFrame) (sig : ℕ) : Prop :=
  t.signal.getLsbD sig = true ∧ (sig = sigstop ∨ sig ≠ sigcont ∧ b.getLsbD sig = false ∧
    t.handlers (Fin.ofNat 32 sig) ≠ sigIgn ∧ (t.handlers (Fin.ofNat 32 sig) ≠ sigDfl ∧ f.ring3 = true ∨ fatal sig = true))

/-- How the loop ends there. -/
def decided (s : SigTab) (n : Slot) (t : Task) (f : UFrame) (sig : ℕ) (rest : List ℕ) : SigRet :=
  let s₁ := s.setTask n (t.consume sig)
  if sig = sigstop then .stop (s.setTask n { t.consume sig with state := .stopped }) rest
  else if t.handlers (Fin.ofNat 32 sig) ≠ sigDfl ∧ f.ring3 = true then
    .done (enterHandler s₁ n (t.consume sig) (Fin.ofNat 32 sig) f).1 (enterHandler s₁ n (t.consume sig) (Fin.ofNat 32 sig) f).2
  else .exit s₁ sig

/-- The loop goes past every other signal: only its own bit may change. -/
theorem sigLoop_passes (rest : List ℕ) (ht : s.task n = some t) (h : ¬ Decides (s.blocked n) t f sig) :
    ∃ t₁, sigLoop n f (sig :: rest) s = sigLoop n f rest (s.setTask n t₁) ∧ t₁.handlers = t.handlers ∧
      ∀ k < 32, k ≠ sig → t₁.signal.getLsbD k = t.signal.getLsbD k := by
  have hsame : s.setTask n t = s := by
    unfold setTask
    rw [← ht, update_eq_self]
  have hbits : ∀ k < 32, k ≠ sig → (t.consume sig).signal.getLsbD k = t.signal.getLsbD k := fun k hk hne => by
    rw [consume_getLsbD hk]
    simp [Ne.symm hne]
  rw [sigLoop, ht]
  simp only
  split
  · exact ⟨t, by rw [hsame], rfl, fun _ _ _ => rfl⟩
  next hset =>
  have hset' : t.signal.getLsbD sig = true := by simpa using hset
  split
  · next e => exact absurd ⟨hset', .inl e⟩ h
  split
  · exact ⟨_, rfl, rfl, hbits⟩
  next hcont =>
  split
  · exact ⟨t, by rw [hsame], rfl, fun _ _ _ => rfl⟩
  next hb =>
  split
  · exact ⟨_, rfl, rfl, hbits⟩
  next hign =>
  have hno : ¬ (_ ∨ _) := fun hd => h ⟨hset', .inr ⟨hcont, by simpa using hb, hign, hd⟩⟩
  rw [if_neg fun hc => hno (.inl hc), if_neg fun hc => hno (.inr hc)]
  exact ⟨_, rfl, rfl, hbits⟩

theorem sigLoop_decides (rest : List ℕ) (ht : s.task n = some t) (h : Decides (s.blocked n) t f sig) :
    sigLoop n f (sig :: rest) s = decided s n t f sig rest := by
  obtain ⟨hset, h⟩ := h
  rw [sigLoop, ht, decided]
  simp only [hset, Bool.true_eq_false, if_false]
  rcases h with e | ⟨hcont, hb, hign, hd⟩
  · rw [if_pos e, if_pos e]
  by_cases hstop : sig = sigstop
  · rw [if_pos hstop, if_pos hstop]
  simp only [hstop, hcont, hb, hign, if_false, Bool.false_eq_true]
  by_cases hc : t.handlers (Fin.ofNat 32 sig) ≠ sigDfl ∧ f.ring3 = true
  · rw [if_pos hc, if_pos hc]
  · rw [if_neg hc, if_neg hc, if_pos (hd.resolve_left hc)]

/-- **The loop ends at the first signal that decides**, or enters no handler. -/
theorem sigLoop_first {l : List ℕ} (hl : l.Pairwise (· < ·)) (hlt : ∀ k ∈ l, k < 32) (ht : s.task n = some t) :
    (∃ k s₁ t₁ rest, k ∈ l ∧ Decides (s.blocked n) t f k ∧ (∀ j ∈ l, j < k → ¬ Decides (s.blocked n) t f j) ∧
      t₁.handlers = t.handlers ∧ sigLoop n f l s = decided s₁ n t₁ f k rest) ∨
    (∀ j ∈ l, ¬ Decides (s.blocked n) t f j) ∧ ∃ s₁, sigLoop n f l s = .done s₁ f := by
  induction l generalizing s t with
  | nil => exact .inr ⟨nofun, _, rfl⟩
  | cons sig l ih =>
    obtain ⟨hlow, hl⟩ := pairwise_cons.mp hl
    by_cases hd : Decides (s.blocked n) t f sig
    · refine .inl ⟨sig, s, t, l, mem_cons_self, hd, fun j hj hlt => ?_, rfl, sigLoop_decides l ht hd⟩
      rcases mem_cons.mp hj with rfl | hj
      · omega
      · have := hlow j hj
        omega
    obtain ⟨t₁, e, hh, hbits⟩ := sigLoop_passes l ht hd
    -- the signals that are left are pending as before, and are handled as before
    have hsame : ∀ k ∈ l, Decides ((s.setTask n t₁).blocked n) t₁ f k ↔ Decides (s.blocked n) t f k := fun k hk => by
      unfold Decides
      rw [hh, hbits k (hlt k (mem_cons_of_mem _ hk)) (hlow k hk).ne']
      rfl
    rw [e]
    rcases ih (s := s.setTask n t₁) hl (fun k hk => hlt k (mem_cons_of_mem _ hk)) (update_self ..) with
      ⟨k, s₂, t₂, rest, hk, hdk, hno, hh', e'⟩ | ⟨hno, e'⟩
    · refine .inl ⟨k, s₂, t₂, rest, mem_cons_of_mem _ hk, (hsame k hk).mp hdk, fun j hj hlt' => ?_, hh'.trans hh, e'⟩
      rcases mem_cons.mp hj with rfl | hj
      · exact hd
      · exact fun h => hno j hj hlt' ((hsame j hj).mpr h)
    · refine .inr ⟨fun j hj => ?_, e'⟩
      rcases mem_cons.mp hj with rfl | hj
      · exact hd
      · exact fun h => hno j hj ((hsame j hj).mpr h)
theorem mem_allSignals : k ∈ allSignals ↔ 0 < k ∧ k < 32 := by
  unfold allSignals
  rw [tail_range, mem_range'_1]
  omega

theorem doSignal_first (ht : s.task n = some t) :
    (∃ k s₁ t₁ rest, k ∈ allSignals ∧ Decides (s.blocked n) t f k ∧
      (∀ j ∈ allSignals, j < k → ¬ Decides (s.blocked n) t f j) ∧
      t₁.handlers = t.handlers ∧ doSignal s n f = decided s₁ n t₁ f k rest) ∨
    (∀ j ∈ allSignals, ¬ Decides (s.blocked n) t f j) ∧ ∃ s₁, doSignal s n f = .done s₁ f := by
  unfold doSignal
  simp only [ht]
  split
  · next h0 =>
    refine .inr ⟨fun j _ hj => ?_, _, rfl⟩
    rw [Decides, h0, BitVec.getLsbD_zero] at hj
    exact Bool.false_ne_true hj.1
  · exact sigLoop_first (by decide) (fun k hk => (mem_allSignals.mp hk).2) ht

/-! ### A pending SIGKILL -/

/-- `do_signal` would enter a handler for `sig`. -/
def SigTab.Caught (s : SigTab) (n : Slot) (t : Task) (f : UFrame) (sig : ℕ) : Prop :=
  t.signal.getLsbD sig = true ∧ (s.blocked n).getLsbD sig = false ∧ f.ring3 = true ∧
    t.handlers (Fin.ofNat 32 sig) ≠ sigDfl ∧ t.handlers (Fin.ofNat 32 sig) ≠ sigIgn

/-- **SIGKILL is never blocked** in a run in which no `sigaction` asks for it in a handler's mask,
and a pending SIGKILL ends its task at the next `do_signal`, if that does not enter the handler of
a lower signal. -/
theorem sigkill_never_blocked {s₀ : SigTab} (h₀ : s₀.Initial) (ops : List SigOp)
    (hops : ∀ op ∈ ops, op.Spares) :
    (∀ n, kills ((s₀.run ops).blocked n) = false) ∧ ∀ n t f, (s₀.run ops).task n = some t → kills t.signal = true →
        (∀ sig < sigkill, ¬ (s₀.run ops).Caught n t f sig) →
        ∃ s' sig, doSignal (s₀.run ops) n f = .exit s' sig := by
  have h := h₀.noKill.run hops
  refine ⟨h.blocked, fun n t f ht hk hc => ?_⟩
  have hkill : Decides ((s₀.run ops).blocked n) t f sigkill :=
    ⟨hk, .inr ⟨by decide, h.blocked n, (h.dfl ht).trans_ne (by decide), .inr (by decide)⟩⟩
  -- so a signal up to SIGKILL decides, and no handler is entered for it
  rcases doSignal_first ht with ⟨k, s₁, t₁, rest, hk, hd, hno, hh, e⟩ | ⟨hno, -⟩
  · have hle : k ≤ sigkill := not_lt.mp fun hlt => hno _ (mem_allSignals.mpr (by decide)) hlt hkill
    have hstop : k ≠ sigstop := fun e => absurd (e ▸ hle) (by decide)
    obtain ⟨hp, hstop' | ⟨-, hb, hign, -⟩⟩ := hd
    · exact absurd hstop' hstop
    refine ⟨_, _, e.trans ((if_neg hstop).trans (if_neg fun hcaught => ?_))⟩
    rw [hh] at hcaught
    rcases hle.lt_or_eq with hlt | rfl
    · exact hc k hlt ⟨hp, hb, hcaught.2, hcaught.1, hign⟩
    · exact hcaught.1 (h.dfl ht)
  · exact absurd hkill (hno _ (mem_allSignals.mpr (by decide)))

/-! ### Two runs -/

/-- One task, in slot 1. -/
def oneTask : SigTab where
  task := fun n => if n = 1 then some {} else none
  blocked := fun _ => 0#32
  suspendMask := fun _ => 0#32
  suspendPending := fun _ => false
  sa := fun _ => 0#32
  saMask := fun _ => 0#16
  handlerMask := fun _ => 0#32
  handlerMaskSaved := fun _ => false
  sigreturnFrame := {}
  mode := fun _ => .user
  halted := false
  running := fun _ => []
  last := fun _ => {}
  entered := fun _ => 0

theorem oneTask_initial : oneTask.Initial := by
  refine ⟨fun _ => rfl, fun _ => rfl, fun _ => rfl, fun _ => rfl, fun _ => rfl, fun _ => rfl, ?_⟩
  intro n t ht k
  unfold oneTask at ht
  simp only at ht
  split at ht
  · obtain rfl := Option.some.inj ht
    rfl
  · cases ht

/-- A frame of a task in Ring3. -/
def ring3Frame : UFrame :=
  { eip := 0x08000100#32, cs := userCs, eflags := 0x202#32, esp := 0x083F0000#32, ss := userDs }

/-- A handler for signal 10 whose mask is `mask`, and then signal 10. -/
def catchTen (mask : Word) : List SigOp :=
  [.call 1 ring3Frame (.sigaction 10 (some (userProgStart, mask, 0#32))), .post 1 10, .timer 1 ring3Frame]

/-- In the handler SIGKILL is blocked, and `do_signal` passes it over. -/
theorem sigaction_blocks_sigkill :
    kills ((oneTask.run (catchTen 0x200#32)).blocked 1) = true ∧
      (∃ t, ((oneTask.run (catchTen 0x200#32)).post 1 9).task 1 = some t ∧ kills t.signal = true) ∧
      ∃ s, doSignal ((oneTask.run (catchTen 0x200#32)).post 1 9) 1 ring3Frame = .done s ring3Frame :=
  ⟨by decide, ⟨_, rfl, by decide⟩, ⟨_, rfl⟩⟩

theorem catchTen_sigkill :
    (∀ n, kills ((oneTask.run (catchTen 0x800#32 ++ [.post 1 9])).blocked n) = false) ∧
      ∃ s' sig, doSignal (oneTask.run (catchTen 0x800#32 ++ [.post 1 9])) 1 ring3Frame = .exit s' sig := by
  have hops : ∀ op ∈ catchTen 0x800#32 ++ [.post 1 9], op.Spares := by
    simp only [catchTen, cons_append, nil_append, forall_mem_cons, SigOp.Spares, Call.Spares]
    exact ⟨by decide, trivial, trivial, trivial, nofun⟩
  obtain ⟨h₁, h₂⟩ := sigkill_never_blocked oneTask_initial _ hops
  obtain ⟨t, ht, hsig⟩ : ∃ t, (oneTask.run (catchTen 0x800#32 ++ [.post 1 9])).task 1 = some t ∧
      t.signal = 0x200#32 := ⟨_, rfl, by decide⟩
  refine ⟨h₁, h₂ 1 t ring3Frame ht (by rw [hsig]; decide) fun sig hs hc => ?_⟩
  have hnone : ∀ sig < sigkill, (0x200#32).getLsbD sig = false := by decide
  rw [SigTab.Caught, hsig, hnone sig hs] at hc
  exact Bool.false_ne_true hc.1

/-! ### A refused delivery -/

/-- `do_signal` gives `sig` to `deliver_signal`: it is caught, and no lower signal decides. -/
def SigTab.HandsOver (s : SigTab) (n : Slot) (t : Task) (f : UFrame) (sig : ℕ) : Prop :=
  sig ∈ allSignals ∧ sig ≠ sigstop ∧ sig ≠ sigcont ∧ s.Caught n t f sig ∧
    ∀ j ∈ allSignals, j < sig → ¬ Decides (s.blocked n) t f j

/-- Unless the task exits or goes to a handler, it has the signal pending, with its mask and its handlers as they
were. -/
def SigTab.Keeps (s : SigTab) (n : Slot) (t : Task) (f : UFrame) (sig : ℕ) (r : SigRet) : Prop :=
  ∀ s', r = .done s' f ∨ (∃ rest, r = .stop s' rest) → s'.blocked n = s.blocked n ∧
    ∃ t', s'.task n = some t' ∧ t'.signal.getLsbD sig = true ∧ t'.handlers = t.handlers

theorem resetHandler_eq (s : SigTab) (n : Slot) (t : Task) (sig : Fin 32) :
    ∃ T, s.resetHandler n t sig = { s with task := T } := by
  unfold resetHandler
  split <;> exact ⟨_, rfl⟩

/-- When a handler is entered, the reset is all that happens to the dispositions. -/
theorem enterHandler_task (s : SigTab) (n : Slot) (t : Task) (sig : Fin 32) (f : UFrame) :
    (enterHandler s n t sig f).1.task = (s.resetHandler n t sig).task ∧ (enterHandler s n t sig f).1.sa = s.sa := by
  obtain ⟨T, e⟩ := resetHandler_eq s n t sig
  unfold enterHandler deliverSignal
  simp only [e]
  unfold restoreSuspendMask
  split <;> split <;> exact ⟨rfl, rfl⟩

/-- What is handed over is consumed first. -/
theorem SigTab.HandsOver.entered (ht : s.task n = some t) (h : s.HandsOver n t f sig) :
    ∃ s₁ t₁, s₁.task n = some t₁ ∧ t₁.signal.getLsbD sig = false ∧
      doSignal s n f = .done (enterHandler s₁ n t₁ (.ofNat 32 sig) f).1 (enterHandler s₁ n t₁ (.ofNat 32 sig) f).2 := by
  obtain ⟨hm, hstop, hcont, ⟨hp, hb, hr, hd, hi⟩, hno⟩ := h
  have hdec : Decides (s.blocked n) t f sig := ⟨hp, .inr ⟨hcont, hb, hi, .inl ⟨hd, hr⟩⟩⟩
  rcases doSignal_first ht with ⟨k, s₁, t₁, rest, hk, hdk, hno', hh, e⟩ | ⟨hno', -⟩
  · obtain rfl : k = sig := by
      rcases lt_trichotomy k sig with hlt | e | hlt
      · exact absurd hdk (hno k hk hlt)
      · exact e
      · exact absurd hdec (hno' sig hm hlt)
    rw [← hh] at hd
    refine ⟨s₁.setTask n (t₁.consume k), t₁.consume k, update_self .., ?_,
      e.trans ((if_neg hstop).trans (if_pos ⟨hd, hr⟩))⟩
    simp [consume_getLsbD (mem_allSignals.mp hm).2]
  · exact absurd hdec (hno' sig hm)

/-- **A refused delivery loses its signal**: nothing is lost exactly if `deliver_signal` accepts the stack pointer, or
is given no signal. -/
theorem delivery_keeps_iff (ht : s.task n = some t) :
    (∀ sig, s.HandsOver n t f sig → s.Keeps n t f sig (doSignal s n f)) ↔
      frameOk f.esp = true ∨ ∀ sig, ¬ s.HandsOver n t f sig := by
  refine ⟨fun hall => ?_, ?_⟩
  · by_cases hf : frameOk f.esp = true
    · exact .inl hf
    refine .inr fun sig h => ?_
    obtain ⟨s₁, t₁, ht₁, hgone, e⟩ := SigTab.HandsOver.entered ht h
    have hsame : (enterHandler s₁ n t₁ (.ofNat 32 sig) f).2 = f := by
      unfold enterHandler deliverSignal
      rw [if_neg hf]
    obtain ⟨-, t', ht', hp, -⟩ := hall sig h _ (.inl (by rw [e, hsame]))
    rw [(enterHandler_task ..).1, resetHandler] at ht'
    have hsig : t'.signal = t₁.signal := by
      split at ht'
      · cases (update_self ..).symm.trans ht'
        rfl
      · cases ht₁.symm.trans ht'
        rfl
    rw [hsig, hgone] at hp
    cases hp
  · rintro (hf | hno) sig h
    · obtain ⟨s₁, t₁, -, -, e⟩ := SigTab.HandsOver.entered ht h
      have hmoved : (enterHandler s₁ n t₁ (.ofNat 32 sig) f).2.esp ≠ f.esp := by
        unfold enterHandler deliverSignal sigframeBytes
        rw [if_pos hf]
        bv_omega
      rw [e]
      rintro s' (e' | ⟨rest, e'⟩)
      · exact absurd (congrArg UFrame.esp (SigRet.done.inj e').2) hmoved
      · cases e'
    · exact absurd h (hno sig)

/-- **With a wild stack pointer the signal is gone, its handler reset and the signal blocked**, and no handler has
run. -/
theorem refused_delivery_loses :
    let s := oneTask.run [.call 1 ring3Frame (.signal 10 userProgStart), .post 1 10, .timer 1 { ring3Frame with esp := 0#32 }]
    (s.task 1).map (fun t => (t.signal, t.handlers 10)) = some (0#32, sigDfl) ∧
      (s.blocked 1).getLsbD 10 = true ∧ s.running 1 = [] := by
  exact ⟨by decide, by decide, rfl⟩

theorem delivery_keeps_ten :
    let s := oneTask.run [.call 1 ring3Frame (.signal 10 userProgStart), .post 1 10]
    ∃ t, s.task 1 = some t ∧ s.HandsOver 1 t ring3Frame 10 ∧ s.Keeps 1 t ring3Frame 10 (doSignal s 1 ring3Frame) := by
  refine ⟨_, rfl, (fun h => ⟨h, (delivery_keeps_iff rfl).mpr (.inl rfl) 10 h⟩) ?_⟩
  unfold SigTab.HandsOver SigTab.Caught Decides
  decide

end Linux001

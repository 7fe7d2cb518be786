import Linux001.Kernel.Sigreturn

/-!
# Kernel — what `sigaction` stores

`sig_sa_mask` has eighteen entries for a task, of sixteen bits each.  `sys_sigaction` takes signal numbers up to
31 and does not look at the bound when it drops an action, and it takes masks of the signals up to 17.  So an
action that is dropped may be another task's (`sigaction_untouched_iff`), and a mask is kept only as far as
signal 15 (`action_kept_iff`).  `sys_signal` leaves the bit of `sig_sa` alone, so a handler that it installs
after `sigaction` is not reset (`last_installer_decides_iff`).
-/

namespace Linux001

open Function SigTab BitVec

variable {s s' : SigTab} {n m : Slot} {t : Task} {sig : Fin 32} {h : Word}

/-! ### Whose entry is written -/

/-- All that is not the action of the task in slot `n` for the signal `sig` is as before. -/
structure Untouched (n : Slot) (sig : ℕ) (s s' : SigTab) : Prop where
  rest : ∃ T A M, s' = { s with task := T, sa := A, saMask := M }
  task : ∀ m, m ≠ n → s'.task m = s.task m
  handlers : ∀ k : Fin 32, k.val ≠ sig → (s'.task n).map (·.handlers k) = (s.task n).map (·.handlers k)
  sa : ∀ m k, k < 32 → ¬ (m = n ∧ k = sig) → (s'.sa m).getLsbD k = (s.sa m).getLsbD k
  mask : ∀ m k, k < sigSaMax → ¬ (m = n ∧ k = sig) → s'.saMask (saIx m k) = s.saMask (saIx m k)

theorem Untouched.refl (n : Slot) (sig : ℕ) (s : SigTab) : Untouched n sig s s :=
  ⟨⟨_, _, _, rfl⟩, fun _ _ => rfl, fun _ _ => rfl, fun _ _ _ _ => rfl, fun _ _ _ _ => rfl⟩

/-- A word of `sig_sa` that is stored for one signal. -/
theorem sa_update {w : Word} {sig k : ℕ} (hw : ∀ k < 32, k ≠ sig → w.getLsbD k = (s.sa n).getLsbD k) (hk : k < 32)
    (hne : ¬ (m = n ∧ k = sig)) : (update s.sa n w m).getLsbD k = (s.sa m).getLsbD k := by
  by_cases e : m = n
  · subst e
    rw [update_self]
    exact hw k hk fun e => hne ⟨rfl, e⟩
  · rw [update_of_ne e]

/-- The handler and its bit are the caller's own; what is left are the entries of `sig_sa_mask`. -/
theorem untouched_iff (ht : s.task n = some t) {w : Word} {M : ℕ → BitVec 16}
    (hw : ∀ k < 32, k ≠ sig.val → w.getLsbD k = (s.sa n).getLsbD k) :
    Untouched n sig s { s.setTask n { t with handlers := update t.handlers sig h } with
        sa := update s.sa n w, saMask := M } ↔
      ∀ m k, k < sigSaMax → ¬ (m = n ∧ k = sig) → M (saIx m k) = s.saMask (saIx m k) := by
  refine ⟨fun hu => hu.mask, fun hM => ⟨⟨_, _, _, rfl⟩, fun m hm => update_of_ne hm .., fun k hk => ?_,
    fun m k hk hne => sa_update hw hk hne, hM⟩⟩
  have hk' : k ≠ sig := fun e => hk (congrArg Fin.val e)
  simp [setTask, ht, hk']

/-- The entry that a store to `sig_sa_mask[n][sig]` meets: for a signal that the row has no entry for, one of
the next row. -/
theorem saIx_eq_iff {sig k : ℕ} (hsig : sig < 32) (hk : k < sigSaMax) :
    saIx m k = saIx n sig ↔ sig < sigSaMax ∧ m = n ∧ k = sig ∨
      sigSaMax ≤ sig ∧ m.val = n.val + 1 ∧ k = sig - sigSaMax := by
  unfold saIx
  rw [Fin.ext_iff]
  simp only [sigSaMax] at *
  omega

/-- The other bits of `sig_sa` stay. -/
theorem sa_bits {w : Word} {sig k : ℕ} (hk : k < 32) (hne : k ≠ sig) :
    (w ||| sigBit sig).getLsbD k = w.getLsbD k ∧ (w &&& ~~~(sigBit sig)).getLsbD k = w.getLsbD k := by
  rw [getLsbD_or, getLsbD_and, getLsbD_not, getLsbD_sigBit hk]
  simp [hk, Ne.symm hne]

theorem putAction_untouched (ht : s.task n = some t) (mask : Word) :
    Untouched n sig s ((s.setTask n { t with handlers := update t.handlers sig h }).putAction n sig mask) := by
  refine (untouched_iff ht fun k hk hne => (sa_bits hk hne).1).mpr fun m k hk hne => ?_
  split
  · next hlt =>
    refine update_of_ne (fun e => ?_) ..
    rcases (saIx_eq_iff sig.isLt hk).mp e with ⟨-, e'⟩ | ⟨hle, -⟩
    · exact hne e'
    · omega
  · rfl

theorem dropAction_untouched_iff (ht : s.task n = some t) :
    Untouched n sig s ((s.setTask n { t with handlers := update t.handlers sig h }).dropAction n sig) ↔
      (sigSaMax ≤ sig.val → n.val + 1 < 64 → s.saMask (saIx n sig) = 0#16) := by
  refine (untouched_iff ht fun k hk hne => (sa_bits hk hne).2).trans
    ⟨fun hM hle hn => ?_, fun hz m k hk hne => ?_⟩
  · have hk : sig.val - sigSaMax < sigSaMax := by
      simp only [sigSaMax] at *
      omega
    have e : saIx ⟨n.val + 1, hn⟩ (sig.val - sigSaMax) = saIx n sig :=
      (saIx_eq_iff sig.isLt hk).mpr (.inr ⟨hle, rfl, rfl⟩)
    have hM' := hM ⟨n.val + 1, hn⟩ _ hk fun h => by simpa using congrArg Fin.val h.1
    rw [e] at hM'
    exact hM'.symm.trans (update_self ..)
  · by_cases e : saIx m k = saIx n sig
    · rcases (saIx_eq_iff sig.isLt hk).mp e with ⟨-, e'⟩ | ⟨hle, hm, -⟩
      · exact absurd e' hne
      · rw [e, hz hle (by have := m.isLt; omega)]
        exact update_self ..
    · exact update_of_ne e ..

theorem catchable_toNat {sig : ℤ} {k : Fin 32} (h : catchable sig = some k) : k.val = sig.toNat := by
  unfold catchable at h
  split at h
  · cases h
    rfl
  · cases h

/-- **What `sigaction` writes is its caller's action for the signal**, unless it drops the action for a signal
above 17: then it clears an entry of the task in the next slot, if there is one. -/
theorem sigaction_untouched_iff (ht : s.task n = some t) (sig : ℤ) (act : Option (Word × Word × Word)) :
    Untouched n sig.toNat s (sysSigaction s n t sig act).2 ↔
      ∀ k h mask flags, catchable sig = some k → act = some (h, mask, flags) → h = sigDfl ∨ h = sigIgn →
        sigSaMax ≤ k.val → n.val + 1 < 64 → s.saMask (saIx n k) = 0#16 := by
  unfold sysSigaction
  cases hk : catchable sig with
  | none => exact iff_of_true (.refl ..) nofun
  | some k =>
    rw [← catchable_toNat hk]
    cases act with
    | none => exact iff_of_true (.refl ..) nofun
    | some a =>
      obtain ⟨h, mask, flags⟩ := a
      simp only
      by_cases hd : h = sigDfl ∨ h = sigIgn
      · have hok : handlerOk h = true := by
          unfold handlerOk
          rcases hd with e | e <;> simp [e]
        rw [if_pos hok, if_pos hd]
        refine (dropAction_untouched_iff ht).trans ⟨?_, fun hz => hz k h mask flags rfl rfl hd⟩
        rintro hz _ _ _ _ ⟨⟩ ⟨⟩ -
        exact hz
      · refine iff_of_true ?_ fun _ _ _ _ _ e hd' => absurd (by cases e; exact hd') hd
        split
        · exact putAction_untouched ht mask
        · exact .refl ..

/-- A handler for signal 10 whose mask is signal 11, in the second task. -/
def actionOfTwo : SigTab :=
  twoTasks.run [.call 2 ring3Frame (.sigaction 10 (some (userProgStart, 0x800#32, 0#32)))]

/-- **The first task ignores signal 28, and the second task's mask is gone.** -/
theorem sigaction_spills : actionOfTwo.actionMask 2 10 = 0x800#16 ∧
    (actionOfTwo.run [.call 1 ring3Frame (.sigaction 28 (some (sigIgn, 0#32, 0#32)))]).actionMask 2 10 = 0#16 :=
  ⟨by decide, by decide⟩

theorem sigaction_untouched_ten :
    Untouched 1 10 actionOfTwo (sysSigaction actionOfTwo 1 {} 10 (some (sigIgn, 0#32, 0#32))).2 := by
  refine (sigaction_untouched_iff rfl 10 _).mpr fun k _ _ _ hk _ _ hle => ?_
  have : k.val = 10 := catchable_toNat hk
  simp only [sigSaMax] at hle
  omega

/-! ### What is kept of a mask -/

/-- What `sys_sigaction` reports. -/
def reported (s : SigTab) (n : Slot) (sig : Fin 32) : Option (Word × Word × Word) :=
  (s.task n).map fun t => (t.handlers sig, (s.actionMask n sig).setWidth 32,
    if (s.sa n).getLsbD sig then 1#32 else 0#32)

/-- `(unsigned short)(mask & 0x1FFFF)`. -/
theorem getLsbD_stored (m : Word) (k : ℕ) :
    (((m &&& 0x1FFFF#32).setWidth 16).setWidth 32).getLsbD k = (decide (k < 16) && m.getLsbD k) := by
  rw [getLsbD_setWidth, getLsbD_setWidth, getLsbD_and]
  by_cases hk : k < 16
  · have hones : ∀ k < 16, (0x1FFFF#32).getLsbD k = true := by decide
    rw [hones k hk, decide_eq_true hk, decide_eq_true (by omega), Bool.and_true, Bool.true_and]
  · rw [decide_eq_false hk, Bool.false_and, Bool.and_false, Bool.false_and]

theorem stored_eq_iff {m : Word} (hm : ∀ k, m.getLsbD k = true → 1 ≤ k ∧ k ≤ 17) :
    ((m &&& 0x1FFFF#32).setWidth 16).setWidth 32 = m ↔ m.getLsbD 16 = false ∧ m.getLsbD 17 = false := by
  constructor
  · intro e
    rw [← e, getLsbD_stored, getLsbD_stored]
    exact ⟨rfl, rfl⟩
  · rintro ⟨h₁, h₂⟩
    refine eq_of_getLsbD_eq fun k _ => ?_
    rw [getLsbD_stored]
    by_cases hk : k < 16
    · simp [hk]
    cases hb : m.getLsbD k with
    | false => simp
    | true =>
      obtain rfl | rfl : k = 16 ∨ k = 17 := by have := hm k hb; omega
      · rw [h₁] at hb
        cases hb
      · rw [h₂] at hb
        cases hb

/-- The action is kept: `sigaction` reports it, to the task and to a child, and a handler that is entered with this
entry of `sig_sa_mask` runs with the signals of `mask` blocked. -/
structure ActionKept (n : Slot) (sig : Fin 32) (h mask : Word) (s : SigTab) : Prop where
  query : reported s n sig = some (h, mask, 1#32)
  child : ∀ n' t, s.task n = some t → reported (s.fork n n' t) n' sig = some (h, mask, 1#32)
  honoured : ∀ s' t f k, s'.actionMask n sig = s.actionMask n sig → mask.getLsbD k = true →
    ((enterHandler s' n t sig f).1.blocked n).getLsbD k = true

/-- The mask in a handler: that in force, after a `sigsuspend` is over, and what the action asks for. -/
theorem enterHandler_blocked (s : SigTab) (n : Slot) (t : Task) (sig : Fin 32) (f : UFrame) :
    (enterHandler s n t sig f).1.blocked n =
      (s.restoreSuspendMask n).blocked n ||| (sigBit sig ||| (s.actionMask n sig).setWidth 32) := by
  obtain ⟨T, e⟩ := resetHandler_eq s n t sig
  have hpush : (enterHandler s n t sig f).1.blocked n =
      (({ s with task := T }.restoreSuspendMask n).pushMask n sig).blocked n := by
    rw [← e]
    unfold enterHandler deliverSignal
    split <;> rfl
  rw [hpush]
  unfold restoreSuspendMask
  split <;> exact update_self ..

/-- A child has its parent's actions. -/
theorem reported_fork (ht : s.task n = some t) (n' : Slot) : reported (s.fork n n' t) n' sig = reported s n sig := by
  have hsa : (s.fork n n' t).sa n' = s.sa n := update_self ..
  have hmask : (s.fork n n' t).actionMask n' sig = s.actionMask n sig := by
    unfold actionMask
    split
    · next hlt =>
      have e : saIx n' sig / sigSaMax = n'.val ∧ saIx n' sig % sigSaMax = sig.val := by
        unfold saIx
        simp only [sigSaMax] at *
        omega
      show (if saIx n' sig / sigSaMax = n'.val then _ else _) = _
      rw [if_pos e.1, e.2]
    · rfl
  unfold reported
  rw [hsa, hmask, ht]
  show (update s.task n' _ n').map _ = _
  rw [update_self]
  rfl

theorem handlerOk_of_mem (hh : userProgStart ≤ h ∧ h < userProgEnd) :
    handlerOk h = true ∧ ¬ (h = sigDfl ∨ h = sigIgn) := by
  refine ⟨?_, ?_⟩
  · unfold handlerOk
    simp [hh]
  · rintro (rfl | rfl)
    · exact absurd hh.1 (by decide)
    · exact absurd hh.1 (by decide)

/-- **An action is kept exactly if its mask has neither signal 16 nor SIGCHLD.** -/
theorem action_kept_iff (t : Task) (hs : 1 ≤ sig.val ∧ sig.val ≤ 17 ∧ sig.val ≠ sigkill) {mask : Word} (flags : Word)
    (hh : userProgStart ≤ h ∧ h < userProgEnd) (hm : ∀ k, mask.getLsbD k = true → 1 ≤ k ∧ k ≤ 17) :
    ActionKept n sig h mask (sysSigaction s n t sig.val (some (h, mask, flags))).2 ↔
      mask.getLsbD 16 = false ∧ mask.getLsbD 17 = false := by
  obtain ⟨hok, hne⟩ := handlerOk_of_mem hh
  have hc : catchable sig.val = some sig := by
    unfold catchable
    rw [dif_pos ⟨by omega, by omega, by omega⟩]
    rfl
  have hlt : sig.val < sigSaMax := by
    simp only [sigSaMax]
    omega
  have hput : (sysSigaction s n t sig.val (some (h, mask, flags))).2 =
      (s.setTask n { t with handlers := update t.handlers sig h }).putAction n sig mask := by
    simp only [sysSigaction, hc, hok, if_true, if_neg hne]
  rw [hput, ← stored_eq_iff hm]
  set s' := (s.setTask n { t with handlers := update t.handlers sig h }).putAction n sig mask
  have htask : s'.task n = some { t with handlers := update t.handlers sig h } := update_self ..
  have hentry : s'.saMask (saIx n sig) = (mask &&& 0x1FFFF#32).setWidth 16 := by
    show (if sig.val < sigSaMax then _ else _ : ℕ → BitVec 16) _ = _
    rw [if_pos hlt, update_self]
  have hmask : s'.actionMask n sig = (mask &&& 0x1FFFF#32).setWidth 16 := by
    unfold actionMask
    rw [if_pos ⟨hs.1, hlt⟩, hentry]
  have hbit : (s'.sa n).getLsbD sig = true := by
    show (update s.sa n (s.sa n ||| sigBit sig) n).getLsbD sig = true
    rw [update_self, getLsbD_or, getLsbD_sigBit sig.isLt]
    simp
  have hquery : reported s' n sig = some (h, ((mask &&& 0x1FFFF#32).setWidth 16).setWidth 32, 1#32) := by
    unfold reported
    rw [htask, hmask, hbit]
    simp
  refine ⟨fun hk => ?_, fun e => ?_⟩
  · exact congrArg (fun a => a.2.1) (Option.some.inj (hquery.symm.trans hk.query))
  rw [e] at hquery
  refine ⟨hquery, fun n' t' ht' => (reported_fork ht' n').trans hquery, fun s'' t' f k hs'' hk => ?_⟩
  rw [enterHandler_blocked, hs'', hmask, e, getLsbD_or, getLsbD_or, hk, Bool.or_true, Bool.or_true]

/-- **SIGCHLD in a mask is lost**: it is not reported, and not blocked in the handler. -/
theorem sigaction_loses_sigchld :
    reported (oneTask.run (catchTen 0x20000#32)) 1 10 = some (userProgStart, 0#32, 1#32) ∧
      ((oneTask.run (catchTen 0x20000#32)).running 1).length = 1 ∧
      ((oneTask.run (catchTen 0x20000#32)).blocked 1).getLsbD sigchld = false := by
  decide

theorem action_kept_eleven :
    ActionKept 1 10 userProgStart 0x800#32 (sysSigaction oneTask 1 {} 10 (some (userProgStart, 0x800#32, 0#32))).2 := by
  refine (action_kept_iff {} (by decide) 0#32 (by decide) fun k hk => ?_).mpr (by decide)
  have hbits : ∀ k < 32, (0x800#32).getLsbD k = true → 1 ≤ k ∧ k ≤ 17 := by decide
  exact hbits k (lt_of_getLsbD hk) hk

/-! ### Who has installed a handler -/

/-- The call that has installed a handler; for `signal`, with the bit of `sig_sa` that it has found. -/
inductive Installer where
  | signal (found : Bool)
  | sigaction
  deriving DecidableEq

/-- The operation sets the disposition of the task in slot `n` for `sig`, or puts a new task there. -/
def SigOp.Sets (n : Slot) (sig : Fin 32) : SigOp → Prop
  | .call m _ (.signal k h) => m = n ∧ catchable k = some sig ∧ handlerOk h
  | .call m _ (.sigaction k (some (h, _))) => m = n ∧ catchable k = some sig ∧ handlerOk h
  | .fork _ n' => n' = n
  | _ => False

/-- A run has led to `s`, and in it the handler of the task in slot `n` for `sig` was last installed so, by the
task itself or by the one that it was forked from. -/
inductive Last (sig : Fin 32) : Installer → SigTab → Slot → Prop
  | signal {s : SigTab} {n t k h} (f : UFrame) : s.task n = some t → catchable k = some sig →
      userProgStart ≤ h ∧ h < userProgEnd → Last sig (.signal ((s.sa n).getLsbD sig)) (s.call n t f (.signal k h)) n
  | sigaction {s : SigTab} {n t k h} (f : UFrame) (a : Word × Word) : s.task n = some t → catchable k = some sig →
      userProgStart ≤ h ∧ h < userProgEnd → Last sig .sigaction (s.call n t f (.sigaction k (some (h, a)))) n
  | fork {i} {s : SigTab} {n t} (n' : Slot) : Last sig i s n → s.task n = some t → Last sig i (s.fork n n' t) n'
  | step {i} {s : SigTab} {n} {op : SigOp} : Last sig i s n → ¬ op.Sets n sig → Last sig i (s.step op) n

/-- The bit of `sig_sa` that decides. -/
abbrev SaBit (n : Slot) (sig : Fin 32) (b : Bool) (s : SigTab) : Prop := (s.sa n).getLsbD sig = b

section
variable {b : Bool}

/-- `do_signal` does not write `sig_sa`. -/
theorem SaBit.rule (n m : Slot) (sig : Fin 32) (b : Bool) (f : UFrame) :
    SigRule m f (SaBit n sig b) fun r => SaBit n sig b (finish m f r) where
  task h _ _ := h
  restore h := by
    unfold restoreSuspendMask
    split <;> exact h
  done h := h
  enter {s t k} h _ _ := by
    have hsa : (enterHandler s m t k f).1.sa = s.sa := (enterHandler_task ..).2
    exact (congrArg (fun w => (w n).getLsbD sig) hsa).trans h
  exit _ h := h
  stop _ h := h

variable (hb : SaBit n sig b s)
include hb

theorem SaBit.ret (f : UFrame) : SaBit n sig b (s.ret m f) := (rule n m sig b f).ret id hb fun _ => hb

theorem SaBit.sysSignal (m : Slot) (t : Task) (k : ℤ) (h : Word) : SaBit n sig b (sysSignal s m t k h).2 := by
  unfold Linux001.sysSignal
  split
  · exact hb
  · split <;> exact hb

theorem SaBit.sysSigaction (m : Slot) (t : Task) (k : ℤ) (act : Option (Word × Word × Word))
    (hno : ∀ h a, act = some (h, a) → m = n → catchable k = some sig → ¬ handlerOk h) :
    SaBit n sig b (sysSigaction s m t k act).2 := by
  unfold Linux001.sysSigaction
  split
  · exact hb
  next j hj =>
  split
  · exact hb
  next h mask flags =>
  split
  · next hok =>
    have hne : ¬ (n = m ∧ sig.val = j.val) := fun e =>
      hno h (mask, flags) rfl e.1.symm (by rw [hj, Fin.ext e.2]) hok
    split
    · exact (sa_update (fun _ hk e => (sa_bits hk e).2) sig.isLt hne).trans hb
    · exact (sa_update (fun _ hk e => (sa_bits hk e).1) sig.isLt hne).trans hb
  · exact hb

theorem SaBit.call (f : UFrame) {c : Call} (hc : ¬ (SigOp.call m f c).Sets n sig) :
    SaBit n sig b (s.call m t f c) := by
  cases c with
  | signal k h => exact (hb.sysSignal m t k h).ret _
  | sigaction k act =>
    refine (hb.sysSigaction m t k act ?_).ret _
    rintro h a rfl rfl hk hok
    exact hc ⟨rfl, hk, hok⟩
  | sigprocmask how set =>
    refine ret ?_ _
    unfold sysSigprocmask
    split
    · exact hb
    · split_ifs <;> exact hb
  | sigsuspend mask => exact hb
  | sigreturn =>
    have h₁ : SaBit n sig b (sysSigreturn s m f).1 := by
      unfold sysSigreturn sigreturnRestoreMask
      simp only
      split <;> split <;> exact hb
    unfold SigTab.call
    generalize sysSigreturn s m f = r at h₁
    obtain ⟨s₁, _ | f'⟩ := r
    · exact h₁
    · exact h₁.ret _
  | other r => exact hb.ret _

/-- **One operation** keeps the bit, unless it sets the disposition. -/
theorem SaBit.step {op : SigOp} (hop : ¬ op.Sets n sig) : SaBit n sig b (s.step op) := by
  refine step_rule hb (fun e _ => ?_) (fun _ => hb.ret _) (fun _ => ret ?_ _)
    (fun _ => (rule n _ sig b _).sigLoop _ hb) (fun {m k} => ?_) (fun {m n' t} e _ => ?_) hb
  · subst e
    exact hb.call _ hop
  · exact hb
  · unfold SigTab.post
    split <;> exact hb
  · subst e
    have hsa : (s.fork m n' t).sa n = s.sa n := update_of_ne (fun e => hop e.symm) ..
    rwa [SaBit, hsa]

end

/-- The bit that decides is the one that the last installer has left. -/
theorem Last.saBit {i : Installer} (hl : Last sig i s n) : SaBit n sig (decide (i ≠ .signal false)) s := by
  induction hl with
  | @signal s n _ _ _ f _ _ _ =>
    refine SaBit.ret (SaBit.sysSignal ?_ ..) _
    show (s.sa n).getLsbD sig = _
    cases (s.sa n).getLsbD sig <;> rfl
  | @sigaction s n t k h f a _ hk hh =>
    obtain ⟨hok, hne⟩ := handlerOk_of_mem hh
    refine SaBit.ret ?_ _
    simp only [sysSigaction, hk, hok, if_true, if_neg hne]
    show (update s.sa n _ n).getLsbD sig = true
    rw [update_self, getLsbD_or, getLsbD_sigBit sig.isLt]
    simp
  | @fork i s n t n' _ _ ih =>
    have hsa : (s.fork n n' t).sa n' = s.sa n := update_self ..
    rwa [SaBit, hsa]
  | step _ hop ih => exact ih.step hop

/-- **The last installer decides whether a handler stays**, unless it is `signal` and has found the bit of an
earlier `sigaction`: then its handler stays, too. -/
theorem last_installer_decides_iff {i : Installer} (hl : Last sig i s n) (hs : sig.val ≠ sigchld)
    (hsa : s'.sa n = s.sa n) (ht : s'.task n = some t) (hh : t.handlers sig ≠ sigDfl) (f : UFrame) :
    ((enterHandler s' n t sig f).1.task n).map (·.handlers sig) =
        some (if i = .sigaction then t.handlers sig else sigDfl) ↔ i ≠ .signal true := by
  have hbit : (s.sa n).getLsbD sig = _ := hl.saBit
  rw [(enterHandler_task ..).1, resetHandler, hsa, hbit]
  rcases i with (_ | _) | _
  · simp [hs, setTask]
  · simp [hs, ht, hh]
  · simp [hs, ht]

/-- **A handler that `signal` has installed over one of `sigaction` is entered twice.** -/
theorem signal_over_sigaction :
    let s := oneTask.run [.call 1 ring3Frame (.sigaction 10 (some (userProgStart, 0#32, 0#32))),
      .call 1 ring3Frame (.signal 10 userProgStart), .post 1 10, .timer 1 ring3Frame, .call 1 ring3Frame .sigreturn,
      .post 1 10, .timer 1 ring3Frame]
    s.entered 1 = 2 ∧ (s.task 1).map (·.handlers 10) = some userProgStart := by
  decide

theorem last_installer_decides_ten :
    let s := oneTask.call 1 {} ring3Frame (.signal 10 userProgStart)
    ∃ t, s.task 1 = some t ∧ ((enterHandler s 1 t 10 ring3Frame).1.task 1).map (·.handlers 10) = some sigDfl :=
  have hl := @Last.signal 10 oneTask 1 {} 10 userProgStart ring3Frame rfl rfl (by decide)
  ⟨_, rfl, (last_installer_decides_iff hl (by decide) rfl rfl (by decide) ring3Frame).mpr (by decide)⟩

end Linux001

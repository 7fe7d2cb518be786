import Linux001.Fs.Pipe
import Linux001.Kernel.SignalMask

/-!
# Fs — writing to a pipe without readers

`write_pipe()` posts bit `SIGPIPE - 1`, and `do_signal()` looks for signal `sig` at bit `sig`, as
`sys_kill()` posts it.  So what becomes pending is SIGUSR2.

* `sigpipe_raised_iff`: SIGPIPE ends the task, or its handler is entered, exactly if it was pending before.
* `write_raises_sigusr2`: a task that writes to a pipe without readers goes on.
-/

namespace Linux001

open Function Pipe

variable {s : SigTab} {n : Slot} {t : Task} {f : UFrame} {p : Pipe} {w : Word}

/-- `write_pipe` finds no reader: at its first test, or when the pipe is full. -/
def Pipe.NoReader (p : Pipe) (n : Slot) : Prop :=
  p.iCount ≠ 2 ∧ ((∃ count, p.pc n = .wEntry count) ∨ ∃ count moved, p.pc n = .wTest count moved ∧ p.full = true)

theorem Pipe.NoReader.signal (h : p.NoReader n) (early : Bool) (byte : Byte) :
    (p.go early n byte).signal n = p.signal n ||| sigBit 12 := by
  obtain ⟨hc, ⟨count, hpc⟩ | ⟨count, moved, hpc, hfull⟩⟩ := h
  · simp [go, hpc, hc, return_, brokenPipe, wakeUp, sigpipe]
  · simp [go, hpc, hc, hfull, return_, brokenPipe, wakeUp, sigpipe]

/-- No fatal signal is pending that `do_signal` comes to before SIGPIPE. -/
def NoEarlier (w : Word) : Prop := ∀ sig < sigpipe, w.getLsbD sig = true → fatal sig = false

namespace SigTab

/-- The task's pending signals are `w`. -/
def pend (s : SigTab) (n : Slot) (t : Task) (w : Word) : SigTab := s.setTask n { t with signal := w }

/-- **SIGPIPE is raised**, where the pending signals were `w` and are `w'`: nothing else becomes pending, and
the next `do_signal` calls `sys_exit(128 + SIGPIPE)`. -/
def RaisesSigpipe (s : SigTab) (n : Slot) (t : Task) (f : UFrame) (w w' : Word) : Prop :=
  (∀ sig < 32, w'.getLsbD sig = true → w.getLsbD sig = false → sig = sigpipe) ∧
    ∃ s', doSignal (s.pend n t w') n f = .exit s' sigpipe

/-- The next `do_signal` enters the handler of SIGPIPE. -/
def EntersSigpipe (s : SigTab) (n : Slot) (t : Task) (f : UFrame) (w' : Word) : Prop :=
  ∃ s', doSignal (s.pend n t w') n f = .done s' { f with eip := t.handlers 13, esp := f.esp - 4#32 - sigframeBytes }

end SigTab

/-! ### SIGPIPE -/

theorem getLsbD_posted {k : ℕ} (hk : k < 32) :
    (w ||| sigBit 12).getLsbD k = (w.getLsbD k || decide (12 = k)) := by
  rw [BitVec.getLsbD_or, getLsbD_sigBit hk]

/-- SIGUSR2 is not fatal, so it does not matter that it is pending. -/
theorem noEarlier_posted : NoEarlier (w ||| sigBit 12) ↔ NoEarlier w := by
  refine ⟨fun h sig hs hp => h sig hs ?_, fun h sig hs hp => ?_⟩
  · rw [getLsbD_posted (hs.trans (by decide)), hp, Bool.true_or]
  · rw [getLsbD_posted (hs.trans (by decide)), Bool.or_eq_true, decide_eq_true_eq] at hp
    rcases hp with hp | rfl
    · exact h sig hs hp
    · decide

/-- `do_signal` ends at SIGPIPE, or as it does for the default actions of the others. -/
theorem doSignal_sigpipe (hb : s.blocked n = 0#32) (hd : ∀ sig, sig ≠ 13 → t.handlers sig = sigDfl)
    (hign : t.handlers 13 ≠ sigIgn) :
    ((w.getLsbD sigpipe = true ∧ NoEarlier w) ∧ ∃ s₁ t₁ rest, t₁.handlers = t.handlers ∧
      doSignal (s.pend n t w) n f = decided s₁ n t₁ f sigpipe rest) ∨
    ¬ (w.getLsbD sigpipe = true ∧ NoEarlier w) ∧ ((∃ s₁, doSignal (s.pend n t w) n f = .done s₁ f) ∨
      (∃ s₁ k, k ≠ sigpipe ∧ doSignal (s.pend n t w) n f = .exit s₁ k) ∨
        ∃ s₁ rest, doSignal (s.pend n t w) n f = .stop s₁ rest) := by
  have ht : (s.pend n t w).task n = some { t with signal := w } := update_self ..
  have hdfl : ∀ k < 32, k ≠ sigpipe → t.handlers (Fin.ofNat 32 k) = sigDfl := fun k hk hne =>
    hd _ fun e => hne ((Nat.mod_eq_of_lt hk).symm.trans (congrArg Fin.val e))
  have hpipe : Decides ((s.pend n t w).blocked n) { t with signal := w } f sigpipe ↔ w.getLsbD sigpipe = true :=
    ⟨fun h => h.1, fun h => ⟨h, .inr ⟨by decide, by rw [show (s.pend n t w).blocked n = 0#32 from hb]; decide,
      hign, .inr (by decide)⟩⟩⟩
  -- an earlier signal decides exactly if it is fatal
  have hlow : ∀ k, k ∈ allSignals → k < sigpipe →
      (Decides ((s.pend n t w).blocked n) { t with signal := w } f k ↔ w.getLsbD k = true ∧ fatal k = true) := by
    intro k hk hlt
    have h : ({ t with signal := w } : Task).handlers (Fin.ofNat 32 k) = sigDfl := hdfl k (mem_allSignals.mp hk).2 hlt.ne
    have hb' : (s.pend n t w).blocked n = 0#32 := hb
    have hign' : sigDfl ≠ sigIgn := by decide
    have hstop : k ≠ sigstop := fun e => absurd (e ▸ hlt) (by decide)
    have hcont : k ≠ sigcont := fun e => absurd (e ▸ hlt) (by decide)
    rw [Decides, h, hb']
    simp [hign', hstop, hcont]
  have hno : NoEarlier w ↔ ∀ k ∈ allSignals, k < sigpipe →
      ¬ Decides ((s.pend n t w).blocked n) { t with signal := w } f k := by
    refine ⟨fun h k hk hlt hdk => ?_, fun h k hlt hp => Bool.eq_false_iff.mpr fun hf => ?_⟩
    · obtain ⟨hp, hf⟩ := (hlow k hk hlt).mp hdk
      exact Bool.false_ne_true ((h k hlt hp).symm.trans hf)
    · have hk : k ∈ allSignals :=
        mem_allSignals.mpr ⟨Nat.pos_of_ne_zero fun e => by rw [e] at hf; exact absurd hf (by decide),
          hlt.trans (by decide)⟩
      exact h k hk hlt ((hlow k hk hlt).mpr ⟨hp, hf⟩)
  rw [← hpipe, hno]
  rcases doSignal_first ht with ⟨k, s₁, t₁, rest, hk, hdk, hfirst, hh, e⟩ | ⟨hnone, e⟩
  · by_cases h13 : k = sigpipe
    · exact .inl ⟨⟨h13 ▸ hdk, h13 ▸ hfirst⟩, s₁, t₁, rest, hh, h13 ▸ e⟩
    refine .inr ⟨fun h => ?_, .inr ?_⟩
    · rcases lt_or_gt_of_ne h13 with hlt | hgt
      · exact h.2 k hk hlt hdk
      · exact hfirst _ (by decide) hgt h.1
    rw [e, decided, hh]
    split
    · exact .inr ⟨_, _, rfl⟩
    · rw [if_neg fun h => h.1 (hdfl k (mem_allSignals.mp hk).2 h13)]
      exact .inl ⟨_, k, h13, rfl⟩
  · exact .inr ⟨fun h => hnone _ (by decide) h.1, .inl e⟩

/-- **Writing to a pipe without readers raises SIGPIPE** exactly if SIGPIPE and SIGUSR2 were pending before and
no other signal ends the task first; and a handler of SIGPIPE is entered exactly if SIGPIPE was pending, no
other signal ends the task first, and the stack has room for the frame. -/
theorem sigpipe_raised_iff (hp : p.NoReader n) (early : Bool) (byte : Byte) (hb : s.blocked n = 0#32)
    (hd : ∀ sig, sig ≠ 13 → t.handlers sig = sigDfl) :
    (t.handlers 13 = sigDfl → (s.RaisesSigpipe n t f (p.signal n) ((p.go early n byte).signal n) ↔
      (p.signal n).getLsbD sigpipe = true ∧ (p.signal n).getLsbD 12 = true ∧ NoEarlier (p.signal n))) ∧
    (t.handlers 13 ≠ sigDfl → t.handlers 13 ≠ sigIgn → f.ring3 = true →
      (s.EntersSigpipe n t f ((p.go early n byte).signal n) ↔
        (p.signal n).getLsbD sigpipe = true ∧ NoEarlier (p.signal n) ∧ frameOk f.esp = true)) := by
  rw [hp.signal]
  have hpost : ∀ k < 32, (p.signal n ||| sigBit 12).getLsbD k = ((p.signal n).getLsbD k || decide (12 = k)) :=
    fun k hk => getLsbD_posted hk
  have hpipe : (p.signal n ||| sigBit 12).getLsbD sigpipe = (p.signal n).getLsbD sigpipe :=
    (hpost 13 (by decide)).trans (Bool.or_false _)
  constructor
  · intro hdfl
    have honly : (∀ sig < 32, (p.signal n ||| sigBit 12).getLsbD sig = true → (p.signal n).getLsbD sig = false →
        sig = sigpipe) ↔ (p.signal n).getLsbD 12 = true := by
      refine ⟨fun h => ?_, fun h sig hs h₁ h₀ => ?_⟩
      · by_contra h12
        exact absurd (h 12 (by decide) (by rw [hpost 12 (by decide)]; simp) (Bool.eq_false_iff.mpr h12)) (by decide)
      · rw [hpost sig hs, h₀, Bool.false_or, decide_eq_true_eq] at h₁
        rw [← h₁, h] at h₀
        cases h₀
    unfold SigTab.RaisesSigpipe
    rw [honly]
    have hend := doSignal_sigpipe (f := f) (w := p.signal n ||| sigBit 12) hb hd (hdfl ▸ by decide)
    rw [noEarlier_posted, hpipe] at hend
    rcases hend with ⟨hyes, s₁, t₁, rest, hh, e⟩ | ⟨hno, he⟩
    · rw [e, decided, if_neg (by decide), if_neg fun h => h.1 (hh ▸ hdfl)]
      exact ⟨fun h => ⟨hyes.1, h.1, hyes.2⟩, fun h => ⟨h.2.1, _, rfl⟩⟩
    refine ⟨?_, fun h => absurd ⟨h.1, h.2.2⟩ hno⟩
    rintro ⟨-, s', he'⟩
    rcases he with ⟨s₁, e⟩ | ⟨s₁, k, hk, e⟩ | ⟨s₁, rest, e⟩
    · cases e.symm.trans he'
    · exact absurd (SigRet.exit.inj (e.symm.trans he')).2 hk
    · cases e.symm.trans he'
  · intro hcaught hign hring
    -- the frame of the handler is another one
    have hother : ∀ s' s'' : SigTab,
        SigRet.done s' f ≠ .done s'' { f with eip := t.handlers 13, esp := f.esp - 4#32 - sigframeBytes } := by
      intro s' s'' h
      have hesp : f.esp = f.esp - 4#32 - sigframeBytes := congrArg UFrame.esp (SigRet.done.inj h).2
      unfold sigframeBytes at hesp
      bv_omega
    unfold SigTab.EntersSigpipe
    have hend := doSignal_sigpipe (f := f) (w := p.signal n ||| sigBit 12) hb hd hign
    rw [noEarlier_posted, hpipe] at hend
    rcases hend with ⟨hyes, s₁, t₁, rest, hh, e⟩ | ⟨hno, he⟩
    · have hh' : t₁.handlers (Fin.ofNat 32 sigpipe) = t.handlers 13 := congrFun hh 13
      rw [e, decided, if_neg (by decide), if_pos ⟨hh' ▸ hcaught, hring⟩]
      unfold enterHandler deliverSignal
      by_cases hf : frameOk f.esp = true
      · simp only [if_pos hf]
        exact ⟨fun _ => ⟨hyes.1, hyes.2, hf⟩, fun _ => ⟨_, congrArg (fun x => SigRet.done _ { f with eip := x, esp := _ }) hh'⟩⟩
      simp only [if_neg hf]
      refine ⟨?_, fun h => absurd h.2.2 hf⟩
      rintro ⟨s'', he⟩
      exact absurd he (hother _ _)
    refine ⟨?_, fun h => absurd ⟨h.1, h.2.1⟩ hno⟩
    rintro ⟨s', he'⟩
    rcases he with ⟨s₁, e⟩ | ⟨s₁, k, hk, e⟩ | ⟨s₁, rest, e⟩
    · exact absurd (e.symm.trans he') (hother _ _)
    · cases e.symm.trans he'
    · cases e.symm.trans he'

/-- A pipe whose reading end has been closed, and a write of one byte; the signals `w` are pending. -/
def readerless (w : Word) : Pipe :=
  { (Pipe.new 1 fun _ => 0#8).run true [.close .rd 1, .write 1 1] with signal := fun _ => w }

theorem readerless_noReader (w : Word) : (readerless w).NoReader 1 :=
  ⟨(by decide : ((new 1 fun _ => 0#8).run true [.close .rd 1, .write 1 1]).iCount ≠ 2), .inl ⟨1, rfl⟩⟩

/-- With SIGPIPE and SIGUSR2 pending the write ends the task. -/
theorem readerless_raises :
    oneTask.RaisesSigpipe 1 {} ring3Frame 0x3000#32 (((readerless 0x3000#32).go true 1 0#8).signal 1) :=
  ((sigpipe_raised_iff (readerless_noReader 0x3000#32) true 0#8 rfl fun _ _ => rfl).1 rfl).mpr
    ⟨by decide, by decide, by unfold NoEarlier; decide⟩

/-- **The write raises SIGUSR2**, and the task goes on. -/
theorem write_raises_sigusr2 :
    ((readerless 0#32).go true 1 0#8).signal 1 = sigBit 12 ∧
      ∃ s, doSignal (oneTask.pend 1 {} (((readerless 0#32).go true 1 0#8).signal 1)) 1 ring3Frame = .done s ring3Frame :=
  ⟨by decide, _, rfl⟩

end Linux001

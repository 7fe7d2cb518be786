import Linux001.Fs.Pipe

/-!
# Fs — sleeping on a pipe

A task that sleeps in `read_pipe()` or `write_pipe()` has seen `i_count` at 2 before it went to sleep.
`iput()` changes `i_count` when the last descriptor of an end is closed, and wakes nobody: a task that
sleeps at this moment, or is just about to, is not told.
-/

namespace Linux001

open Function

namespace Pipe

variable {s s' : Pipe} {n m k : Slot} {early : Bool} {byte : Byte} {c : PipePc} {e : PipeEnd}

/-- A wake-up is on its way to a sleeper: it is runnable, or it is the one that such a sleeper wakes. -/
inductive Pending (s : Pipe) : Slot → Prop where
  | woken {n : Slot} (ha : (s.pc n).asleep) (hr : s.running n) : Pending s n
  | passed {m n : Slot} (hm : Pending s m) (ht : s.tmp m = some n) (ha : (s.pc n).asleep) : Pending s n

theorem Pending.exists_woken (h : s.Pending n) : ∃ m, (s.pc m).asleep ∧ s.running m := by
  induction h with
  | woken ha hr => exact ⟨_, ha, hr⟩
  | passed _ _ _ ih => exact ih

/-- **A task sleeps on a dead pipe**: as a reader on an empty one that nobody can write, or as a writer on
a full one that nobody can read, and no wake-up is on its way. -/
def Dead (s : Pipe) (n : Slot) : Prop :=
  ((∃ count, s.pc n = .rSleep count) ∧ s.empty ∧ s.closed .wr ∨
    (∃ count moved, s.pc n = .wSleep count moved) ∧ s.full ∧ s.closed .rd) ∧ ¬ s.Pending n

/-- An end counts for one as long as it has a descriptor. -/
def openEnds (s : Pipe) : ℕ := (if s.closed .rd then 0 else 1) + if s.closed .wr then 0 else 1

/-- `i_count` is the number of open ends, and it is 2 for a task that nobody has woken. -/
structure SleepInv (s : Pipe) : Prop where
  count : s.iCount = s.openEnds
  asleep : ∀ {n}, (s.pc n).checked ∨ (s.pc n).asleep ∧ s.running n = false → s.iCount = 2

theorem closed_iff : s.closed e ↔ ∀ n, s.fds e n = 0 := by
  unfold closed
  rw [decide_eq_true_eq]

/-- Nobody falls asleep, and the descriptors are as they were. -/
theorem SleepInv.frame (h : SleepInv s) (hi : s'.iCount = s.iCount) (hf : s'.fds = s.fds)
    (ha : ∀ {n}, (s'.pc n).checked ∨ (s'.pc n).asleep ∧ s'.running n = false →
      (s.pc n).checked ∨ (s.pc n).asleep ∧ s.running n = false) : SleepInv s' := by
  refine ⟨?_, fun hn => ?_⟩
  · rw [hi, h.count]
    unfold openEnds closed
    rw [hf]
  · rw [hi]
    exact h.asleep (ha hn)

/-- A task moves on to a place where it neither sleeps nor is about to; others may be woken. -/
theorem SleepInv.move (h : SleepInv s) (hi : s'.iCount = s.iCount) (hf : s'.fds = s.fds)
    (hpc : s'.pc = update s.pc n c) (hr : ∀ {k}, s.running k → s'.running k)
    (hc : c.checked = false) (ha : c.asleep = false) : SleepInv s' := by
  refine h.frame hi hf fun {k} hk => ?_
  rw [hpc] at hk
  by_cases e : k = n
  · rw [e, update_self, hc, ha] at hk
    rcases hk with hk | ⟨hk, -⟩
    · cases hk
    · cases hk
  rw [update_of_ne e] at hk
  refine hk.imp_right fun ⟨hs, hrun⟩ => ⟨hs, ?_⟩
  rw [Bool.eq_false_iff]
  intro hk'
  rw [hr hk'] at hrun
  cases hrun

theorem running_update (hk : s.running k) : update s.running n true k = true := by
  by_cases e : k = n
  · rw [e, update_self]
  · rw [update_of_ne e]
    exact hk

theorem wakeUp_running (hk : s.running k) : s.wakeUp.running k := by
  unfold wakeUp
  cases s.wait with
  | none => exact hk
  | some m => exact running_update hk

/-- A task that has seen both ends open is about to sleep. -/
theorem SleepInv.check (h : SleepInv s) (h2 : s.iCount = 2) (hi : s'.iCount = s.iCount) (hf : s'.fds = s.fds) :
    SleepInv s' := by
  refine ⟨?_, fun _ => hi.trans h2⟩
  rw [hi, h.count]
  unfold openEnds closed
  rw [hf]

/-- **A task goes on.** -/
theorem SleepInv.go (h : SleepInv s) : SleepInv (s.go early n byte) := by
  cases hpc : s.pc n with
  | out =>
    simp only [Pipe.go, hpc]
    exact h
  | rTest count =>
    simp only [Pipe.go, hpc]
    split
    · split
      · exact h.move rfl rfl rfl wakeUp_running rfl rfl
      · next h2 => exact h.check (not_not.mp h2) rfl rfl
    · exact h.move rfl rfl rfl id rfl rfl
  | rChecked count =>
    simp only [Pipe.go, hpc]
    exact h.check (h.asleep (.inl (by rw [hpc]; rfl))) rfl rfl
  | rSleep count =>
    simp only [Pipe.go, hpc]
    split
    · refine h.move rfl rfl rfl (fun hk => ?_) rfl rfl
      unfold resume
      cases s.tmp n with
      | none => exact hk
      | some m => exact running_update hk
    · exact h
  | rLoop count moved =>
    simp only [Pipe.go, hpc]
    split
    · exact h.move rfl rfl rfl id rfl rfl
    · exact h.move rfl rfl rfl wakeUp_running rfl rfl
  | rGive count moved b =>
    simp only [Pipe.go, hpc]
    exact h.move rfl rfl rfl id rfl rfl
  | wEntry count =>
    simp only [Pipe.go, hpc]
    split
    · exact h.move rfl rfl rfl wakeUp_running rfl rfl
    · exact h.move rfl rfl rfl wakeUp_running rfl rfl
  | wLoop count moved =>
    simp only [Pipe.go, hpc]
    split
    · exact h.move rfl rfl rfl id rfl rfl
    · exact h.move rfl rfl rfl wakeUp_running rfl rfl
  | wTest count moved =>
    simp only [Pipe.go, hpc]
    split
    · split
      · exact h.move rfl rfl rfl wakeUp_running rfl rfl
      · next h2 => exact h.check (not_not.mp h2) rfl rfl
    · exact h.move rfl rfl rfl id rfl rfl
  | wChecked count moved =>
    simp only [Pipe.go, hpc]
    exact h.check (h.asleep (.inl (by rw [hpc]; rfl))) rfl rfl
  | wSleep count moved =>
    simp only [Pipe.go, hpc]
    split
    · refine h.move rfl rfl rfl (fun hk => ?_) rfl rfl
      unfold resume
      cases s.tmp n with
      | none => exact hk
      | some m => exact running_update hk
    · exact h
  | wFetch count moved offset =>
    simp only [Pipe.go, hpc]
    exact h.move rfl rfl rfl (wakeUp_running) rfl rfl

/-- The other end is not touched by a change of one. -/
theorem closed_congr (h : ∀ n, s'.fds e n = 0 ↔ s.fds e n = 0) : s'.closed e = s.closed e := by
  rw [Bool.eq_iff_iff, closed_iff, closed_iff]
  exact forall_congr' h

theorem openEnds_congr (h : ∀ e, s'.closed e = s.closed e) : s'.openEnds = s.openEnds := by
  unfold openEnds
  rw [h .rd, h .wr]

/-- **The last descriptor of an end is closed**: one end less. -/
theorem openEnds_close (hn : s.closed e = false) (hc : s'.closed e)
    (ho : ∀ e', e' ≠ e → s'.closed e' = s.closed e') : s'.openEnds = s.openEnds - 1 := by
  unfold openEnds
  cases e with
  | rd =>
    rw [ho .wr (by decide), hn, hc]
    simp
  | wr =>
    rw [ho .rd (by decide), hn, hc]
    simp

/-- The last descriptor of an end is closed only when nobody sleeps that nobody has woken, and nobody is
about to sleep. -/
def Gentle (s : Pipe) : PipeOp → Prop
  | .close e n => s.pc n = .out ∧ s.fds e n ≠ 0 ∧ (s.close e n).closed e → ∀ k,
      (s.pc k).checked = false ∧ ((s.pc k).asleep → s.running k)
  | .read .. | .write .. | .go .. | .stir _ | .dup .. | .fork .. => True

instance decidableGentle (s : Pipe) : (op : PipeOp) → Decidable (s.Gentle op)
  | .close e n => inferInstanceAs (Decidable (s.pc n = .out ∧ s.fds e n ≠ 0 ∧ (s.close e n).closed e → ∀ k,
      (s.pc k).checked = false ∧ ((s.pc k).asleep → s.running k)))
  | .read .. | .write .. | .go .. | .stir _ | .dup .. | .fork .. => isTrue trivial

/-- **A descriptor is closed.** -/
theorem SleepInv.close (h : SleepInv s) (hn : s.fds e n ≠ 0)
    (hg : (s.close e n).closed e → ∀ k, (s.pc k).checked = false ∧ ((s.pc k).asleep → s.running k)) :
    SleepInv (s.close e n) := by
  have hopen : s.closed e = false := by
    rw [Bool.eq_false_iff]
    exact fun hc => hn (closed_iff.mp hc n)
  have hother : ∀ (s₁ : Pipe), s₁.fds = update₂ s.fds e n (s.fds e n - 1) →
      ∀ e', e' ≠ e → s₁.closed e' = s.closed e' := by
    intro s₁ hs e' he
    refine closed_congr fun k => ?_
    rw [hs, update₂_of_ne_left he]
  unfold Pipe.close at hg ⊢
  simp only at hg ⊢
  split
  · next hc =>
    rw [if_pos hc] at hg
    refine ⟨?_, fun {k} hk => ?_⟩
    · exact (congrArg (· - 1) h.count).trans (openEnds_close hopen hc (hother _ rfl)).symm
    · obtain ⟨hno, hrun⟩ := hg hc k
      rcases hk with hk | ⟨hk, hk'⟩
      · rw [hno] at hk
        cases hk
      · rw [hrun hk] at hk'
        cases hk'
  · next hc =>
    refine ⟨?_, h.asleep⟩
    rw [openEnds_congr fun e' => ?_, ← h.count]
    by_cases he : e' = e
    · subst he
      rw [hopen, Bool.eq_false_iff]
      exact hc
    · exact hother _ rfl e' he

/-- **One step.** -/
theorem SleepInv.step {op : PipeOp} (h : SleepInv s) (hg : s.Gentle op) : SleepInv (s.step early op) := by
  cases op with
  | read n count =>
    simp only [Pipe.step]
    split
    · exact h.move rfl rfl rfl id rfl rfl
    · exact h
  | write n count =>
    simp only [Pipe.step]
    split
    · exact h.move rfl rfl rfl id rfl rfl
    · exact h
  | go n byte => exact h.go
  | stir n =>
    refine h.frame rfl rfl fun {k} hk => hk.imp_right fun ha => ⟨ha.1, ?_⟩
    rw [Bool.eq_false_iff]
    intro hk'
    cases (running_update hk').symm.trans ha.2
  | dup e n =>
    simp only [Pipe.step]
    split
    · next hn =>
      refine ⟨?_, h.asleep⟩
      rw [openEnds_congr fun e' => closed_congr fun k => ?_]
      · exact h.count
      · show update₂ s.fds e n (s.fds e n + 1) e' k = 0 ↔ s.fds e' k = 0
        by_cases hk : e' = e ∧ k = n
        · obtain ⟨rfl, rfl⟩ := hk
          rw [update₂_self]
          exact iff_of_false (Nat.succ_ne_zero _) hn
        · rw [update₂_of_ne hk]
    · exact h
  | fork n child =>
    simp only [Pipe.step]
    split
    · next hn =>
      obtain ⟨-, -, hrd, hwr⟩ := hn
      have hzero : ∀ e, s.fds e child = 0 := fun e => by cases e <;> assumption
      refine ⟨?_, h.asleep⟩
      rw [openEnds_congr fun e => ?_]
      · exact h.count
      rw [Bool.eq_iff_iff, closed_iff, closed_iff]
      refine ⟨fun hall k => ?_, fun hall k => ?_⟩
      · by_cases hk : k = child
        · rw [hk]
          exact hzero e
        · exact (update_of_ne hk ..).symm.trans (hall k)
      · show update (s.fds e) child (s.fds e n) k = 0
        by_cases hk : k = child
        · rw [hk, update_self]
          exact hall n
        · rw [update_of_ne hk]
          exact hall k
    · exact h
  | close e n =>
    simp only [Pipe.step]
    split
    · next hn => exact h.close hn.2 fun hc => hg ⟨hn.1, hn.2, hc⟩
    · exact h

theorem sleepInv_new (n : Slot) (page : ℕ → Byte) : SleepInv (new n page) := by
  have hopen : ∀ e, (new n page).closed e = false := by
    intro e
    rw [Bool.eq_false_iff]
    intro hc
    have h0 := closed_iff.mp hc n
    change update (fun _ => 0) n 1 n = 0 at h0
    rw [update_self] at h0
    cases h0
  refine ⟨?_, fun _ => rfl⟩
  unfold openEnds
  rw [hopen .rd, hopen .wr]
  rfl

/-- Every step of a run is gentle. -/
def GentleRun (early : Bool) (s : Pipe) (ops : List PipeOp) : Prop := Run.Guarded (step early) Gentle s ops

instance decidableGentleRun (early : Bool) (s : Pipe) (ops : List PipeOp) : Decidable (GentleRun early s ops) :=
  Run.decidableGuarded s ops

/-- An end that is closed is seen in `i_count`. -/
theorem SleepInv.ne_two (h : SleepInv s) (hc : s.closed e) : s.iCount ≠ 2 := by
  rw [h.count]
  unfold openEnds
  cases e with
  | rd =>
    rw [if_pos hc]
    split
    · decide
    · decide
  | wr =>
    rw [if_pos hc]
    split
    · decide
    · decide

/-- What a task that looks at a dead pipe is told. -/
def Told (early : Bool) (s : Pipe) : Prop :=
  ∀ n byte, (∀ count, s.pc n = .rTest count → s.empty → s.closed .wr → (s.go early n byte).ret n = some 0) ∧
      (∀ count, s.pc n = .wEntry count → s.closed .rd → (s.go early n byte).ret n = some (-1)) ∧
      ∀ count moved, s.pc n = .wTest count moved → s.full → s.closed .rd →
        (s.go early n byte).ret n = some (moved : ℤ)

theorem SleepInv.told (h : SleepInv s) : s.Told early := by
  intro n byte
  refine ⟨fun count hpc he hc => ?_, fun count hpc hc => ?_, fun count moved hpc hf hc => ?_⟩
  · simp only [Pipe.go, hpc, he, if_true, if_pos (h.ne_two hc)]
    exact update_self ..
  · simp only [Pipe.go, hpc, if_pos (h.ne_two hc)]
    exact update_self ..
  · simp only [Pipe.go, hpc, hf, if_true, if_pos (h.ne_two hc)]
    exact update_self ..

/-- **Nobody sleeps on a dead pipe**, in every run in which the last descriptor of an end is closed only
when nobody sleeps in `read_pipe()` or `write_pipe()` that nobody has woken, and nobody has seen
`i_count` and is about to sleep.  A reader that looks at an empty pipe without writers gets end of
file, and a writer without readers gets the number of bytes it has written, or -1 if it has just
started. -/
theorem no_sleep_on_dead_pipe (early : Bool) (n : Slot) (page : ℕ → Byte) (ops : List PipeOp)
    (hg : GentleRun early (new n page) ops) :
    (∀ k, ¬ ((new n page).run early ops).Dead k) ∧ ((new n page).run early ops).Told early := by
  have h : SleepInv ((new n page).run early ops) := Run.Guarded.inv SleepInv.step hg (sleepInv_new n page)
  refine ⟨?_, h.told⟩
  rintro k ⟨hdead, hpend⟩
  have hasleep : (((new n page).run early ops).pc k).asleep := by
    rcases hdead with ⟨⟨count, e⟩, -⟩ | ⟨⟨count, moved, e⟩, -⟩
    · rw [e]
      rfl
    · rw [e]
      rfl
  have hrun : ((new n page).run early ops).running k = false := by
    rw [Bool.eq_false_iff]
    exact fun hr => hpend (.woken hasleep hr)
  have h2 := h.asleep (.inr ⟨hasleep, hrun⟩)
  rcases hdead with ⟨-, -, hc⟩ | ⟨-, -, hc⟩
  · exact h.ne_two hc h2
  · exact h.ne_two hc h2

/-- A child waits for its parent to write, and the parent closes the pipe. -/
def closeWhileReading : List PipeOp :=
  [.fork 0 1, .close .rd 0, .close .wr 1, .read 1 10, .go 1 0#8, .go 1 0#8, .close .wr 0]

/-- The parent closes the pipe before the child reads. -/
def closeBeforeReading : List PipeOp :=
  [.fork 0 1, .close .rd 0, .close .wr 1, .close .wr 0, .read 1 10, .go 1 0#8]

theorem closeWhileReading_asleep (early : Bool) : ((new 0 fun _ => 0#8).run early closeWhileReading).Dead 1 := by
  refine ⟨.inl ⟨⟨10, ?_⟩, ?_, ?_⟩, fun hp => ?_⟩
  · cases early <;> decide
  · cases early <;> decide
  · cases early <;> decide
  · have hno : ∀ m, ¬ ((((new 0 fun _ => 0#8).run early closeWhileReading).pc m).asleep ∧
        ((new 0 fun _ => 0#8).run early closeWhileReading).running m) := by
      cases early <;> decide +kernel
    obtain ⟨m, hm⟩ := hp.exists_woken
    exact hno m hm

/-- **The child sleeps for good**: the pipe is empty, nobody can write to it, and nobody wakes the
child. -/
theorem closeWhileReading_dead : ((new 0 fun _ => 0#8).run true closeWhileReading).Dead 1 ∧
    ((new 0 fun _ => 0#8).run false closeWhileReading).Dead 1 :=
  ⟨closeWhileReading_asleep true, closeWhileReading_asleep false⟩

theorem closeBeforeReading_eof :
    ((new 0 fun _ => 0#8).run true closeBeforeReading).ret 1 = some 0 ∧
      ∀ k, ¬ ((new 0 fun _ => 0#8).run true closeBeforeReading).Dead k :=
  ⟨by decide, (no_sleep_on_dead_pipe true 0 (fun _ => 0#8) closeBeforeReading (by decide)).1⟩

end Pipe
end Linux001

import Linux001.Kernel.SignalMask

/-!
# Kernel — `alarm` and `sleep`

What `do_timer`, `sys_alarm` and `sys_sleep` do for one task.  Both calls store the tick at which they are over, in
32 bits and with 0 for "none"; `do_timer` compares an alarm with the clock as numbers, and the deadline of a sleeper
by the sign of the difference.  Both are on time if the sum does not wrap, or if the clock wraps at the next tick, and
at no other clock value (`timers_exact_iff`).
-/

namespace Linux001

/-- The clock, and what `do_timer` reads and writes of one task. -/
structure Clock where
  jiffies : Word
  blocked : Word
  signal : Word
  state : TaskState
  alarm : Word
  deadline : Word

namespace Clock

/-- `HZ`. -/
def hz : Word := 100#32

/-- The loop of `do_timer` over the alarms. -/
def ring (c : Clock) : Clock :=
  if c.alarm = 0#32 ∨ c.jiffies < c.alarm then c
  else { c with
    signal := c.signal ||| sigBit sigalrm
    alarm := 0#32
    state := if c.state = .interruptible then .running else c.state }

/-- The loop of `do_timer` over the sleepers. -/
def expire (c : Clock) : Clock :=
  if c.deadline = 0#32 ∨ (c.jiffies - c.deadline).toInt < 0 then c
  else { c with
    deadline := 0#32
    state := if c.state = .interruptible ∨ c.state = .uninterruptible then .running else c.state }

/-- **`sys_alarm`.** -/
def sysAlarm (c : Clock) (seconds : Word) : Clock :=
  { c with alarm := if 0 < seconds.toInt then c.jiffies + hz * seconds else 0#32 }

/-- The test in the loop of `sys_sleep`: the task sleeps on, or the call is over. -/
def sleepOn (c : Clock) : Clock :=
  { c with state := if c.deadline ≠ 0#32 ∧ c.signal &&& ~~~c.blocked = 0#32 then .interruptible else .running }

/-- **`sys_sleep`**, up to its first `schedule()`. -/
def sysSleep (c : Clock) (seconds : Word) : Clock :=
  if seconds = 0#32 then c else { c with deadline := c.jiffies + seconds * hz }.sleepOn

/-- What `sys_sleep` returns when it is over. -/
def left (c : Clock) : Word :=
  if c.deadline ≠ 0#32 then (c.deadline - c.jiffies + hz - 1#32) / hz else 0#32

/-- **`do_timer`**, and the loop of `sys_sleep` if the task has been woken. -/
def tick (c : Clock) : Clock :=
  let c₁ := { c with jiffies := c.jiffies + 1#32 }.ring.expire
  if c₁.state = .running then c₁.sleepOn else c₁

/-- A signal for a task that sleeps. -/
def post (c : Clock) (sig : ℕ) : Clock := { c with signal := c.signal ||| sigBit sig }.sleepOn

/-- The task runs, with no timer set and no signal to see. -/
structure Idle (c : Clock) : Prop where
  state : c.state = .running
  alarm : c.alarm = 0#32
  deadline : c.deadline = 0#32
  seen : c.signal &&& ~~~c.blocked = 0#32
  sigalrm : c.signal.getLsbD sigalrm = false

/-- An alarm, in the place of any other one, and a sleep of `s` seconds take exactly that long, and a sleep that a
signal cuts short returns the seconds that are left. -/
structure OnTime (c : Clock) (s : Word) : Prop where
  alarm : ∀ a, ∀ k ≤ s.toNat * 100,
    (tick^[k] (sysAlarm { c with alarm := a } s)).signal.getLsbD Linux001.sigalrm = true ↔ k = s.toNat * 100
  sleep : ∀ k ≤ s.toNat * 100, (tick^[k] (c.sysSleep s)).state = .running ↔ k = s.toNat * 100
  slept : (tick^[s.toNat * 100] (c.sysSleep s)).left = 0#32
  cut : ∀ k < s.toNat * 100, ∀ sig < 32, c.blocked.getLsbD sig = false →
    let c' := (tick^[k] (c.sysSleep s)).post sig
    c'.state = .running ∧ c'.left.toNat = (s.toNat * 100 - k + 99) / 100 ∧ 1 ≤ c'.left.toNat ∧ c'.left.toNat ≤ s.toNat

/-- Until something is due, only the clock goes on. -/
theorem ticks_quiet {c : Clock} {k : ℕ} (hs : c.state = .running → c.deadline = 0#32)
    (h : ∀ i < k, (c.alarm = 0#32 ∨ c.jiffies + BitVec.ofNat 32 (i + 1) < c.alarm) ∧
      (c.deadline = 0#32 ∨ (c.jiffies + BitVec.ofNat 32 (i + 1) - c.deadline).toInt < 0)) :
    tick^[k] c = { c with jiffies := c.jiffies + BitVec.ofNat 32 k } := by
  induction k with
  | zero => simp
  | succ k ih =>
    have hadd : c.jiffies + BitVec.ofNat 32 k + 1#32 = c.jiffies + BitVec.ofNat 32 (k + 1) := by
      rw [BitVec.add_assoc, BitVec.ofNat_add]
    obtain ⟨ha, hd⟩ := h k (Nat.lt_succ_self k)
    rw [Function.iterate_succ_apply', ih fun i hi => h i (by omega)]
    simp only [tick, ring, expire, hadd, ha, hd, if_true]
    split
    · next hr => simp [sleepOn, hs hr, hr]
    · rfl

variable {c : Clock} {s : Word} {k : ℕ} (hc : c.Idle) (hs : 1 ≤ s.toNat) (hn : s.toNat * 100 < 2 ^ 31)

include hs hn

theorem toNat_mul_hz : (s * hz).toNat = s.toNat * 100 := by
  unfold hz
  rw [BitVec.toNat_mul]
  exact Nat.mod_eq_of_lt (by simp; omega)

theorem sysAlarm_eq : c.sysAlarm s = { c with alarm := c.jiffies + s * hz } := by
  have hpos : 0 < s.toInt := by
    rw [BitVec.toInt_eq_toNat_of_lt (by omega)]
    omega
  unfold sysAlarm
  rw [if_pos hpos, BitVec.mul_comm]

/-- The last tick before the time is over. -/
theorem exists_last (c : Clock) :
    ∃ m < s.toNat * 100, s.toNat * 100 = m + 1 ∧ c.jiffies + BitVec.ofNat 32 m + 1#32 = c.jiffies + s * hz := by
  have hN := toNat_mul_hz hs hn
  exact ⟨s.toNat * 100 - 1, by omega, by omega, by bv_omega⟩

variable (h0 : c.jiffies + s * hz ≠ 0#32)

include hc h0

/-- An alarm whose tick the clock does not pass before rings at that tick. -/
theorem alarm_onTime (h : ∀ i, i + 1 < s.toNat * 100 → c.jiffies + BitVec.ofNat 32 (i + 1) < c.jiffies + s * hz)
    (hk : k ≤ s.toNat * 100) :
    (tick^[k] (c.sysAlarm s)).signal.getLsbD sigalrm = true ↔ k = s.toNat * 100 := by
  have hquiet : ∀ m < s.toNat * 100, tick^[m] (c.sysAlarm s) =
      { c with alarm := c.jiffies + s * hz, jiffies := c.jiffies + BitVec.ofNat 32 m } := by
    intro m hm
    rw [sysAlarm_eq hs hn]
    exact ticks_quiet (fun _ => hc.deadline) fun i hi => ⟨.inr (h i (by omega)), .inl hc.deadline⟩
  rcases Nat.lt_or_eq_of_le hk with hlt | rfl
  · simp [hquiet k hlt, -BitVec.getLsbD_eq_getElem, hc.sigalrm]
    omega
  · obtain ⟨m, hlt, hm, hdue⟩ := exists_last hs hn c
    rw [hm, Function.iterate_succ_apply', hquiet m hlt]
    simp [tick, ring, expire, hdue, h0, hc.deadline, hc.state, sleepOn, sigBit, sigalrm]

/-- The sleeper is not woken before its deadline. -/
theorem asleep (hk : k < s.toNat * 100) : tick^[k] (c.sysSleep s) =
    { c with jiffies := c.jiffies + BitVec.ofNat 32 k, state := .interruptible, deadline := c.jiffies + s * hz } := by
  have hN := toNat_mul_hz hs hn
  have hne : s ≠ 0#32 := by bv_omega
  unfold sysSleep sleepOn
  simp only [if_neg hne, h0, hc.seen, ne_eq, not_false_eq_true, and_self, if_true]
  refine ticks_quiet (fun h => by cases h) fun i hi => ⟨.inl hc.alarm, .inr (BitVec.toInt_neg_iff.mpr ?_)⟩
  bv_omega

theorem awake : tick^[s.toNat * 100] (c.sysSleep s) = { c with jiffies := c.jiffies + s * hz } := by
  obtain ⟨m, hlt, hm, hdue⟩ := exists_last hs hn c
  rw [hm, Function.iterate_succ_apply', asleep hc hs hn h0 hlt]
  simp [tick, ring, expire, hdue, h0, hc.alarm, hc.deadline, hc.state, sleepOn]

theorem post_asleep (hk : k < s.toNat * 100) {sig : ℕ} (hsig : sig < 32) (hb : c.blocked.getLsbD sig = false) :
    let c' := (tick^[k] (c.sysSleep s)).post sig
    c'.state = .running ∧ c'.left.toNat = (s.toNat * 100 - k + 99) / 100 := by
  have hN := toNat_mul_hz hs hn
  have hsee : (c.signal ||| sigBit sig) &&& ~~~c.blocked ≠ 0#32 := by
    intro h
    have hbit := congrArg (BitVec.getLsbD · sig) h
    simp [-BitVec.getLsbD_eq_getElem, getLsbD_sigBit, hsig, hb] at hbit
  have hleft : (c.jiffies + s * hz - (c.jiffies + BitVec.ofNat 32 k) + hz - 1#32).toNat =
      s.toNat * 100 - k + 99 := by
    unfold hz at hN ⊢
    bv_omega
  rw [asleep hc hs hn h0 hk]
  refine ⟨by simp [post, sleepOn, hsee], ?_⟩
  rw [left, if_pos (by exact h0), BitVec.toNat_udiv]
  exact congrArg (· / 100) hleft

end Clock

open Clock in
/-- Alarms and sleeps are exact if the tick they are over at does not wrap, and if the clock wraps at the next tick. -/
theorem timers_exact_iff {c : Clock} {s : Word} (hc : c.Idle) (hs : 1 ≤ s.toNat) (hn : s.toNat * 100 < 2 ^ 31) :
    c.OnTime s ↔ c.jiffies.toNat + s.toNat * 100 < 2 ^ 32 ∨ c.jiffies = 0xffffffff#32 := by
  have hN := toNat_mul_hz hs hn
  constructor
  · intro h
    by_contra hj
    by_cases h0 : c.jiffies + s * hz = 0#32
    · -- the tick is 0, which says that there is no alarm
      have hring : (tick^[_] (c.sysAlarm s)).signal.getLsbD sigalrm = true := (h.alarm c.alarm _ le_rfl).mpr rfl
      rw [sysAlarm_eq hs hn, h0, ← hc.alarm,
        ticks_quiet (fun _ => hc.deadline) fun _ _ => ⟨.inl hc.alarm, .inl hc.deadline⟩] at hring
      exact Bool.false_ne_true (hc.sigalrm.symm.trans hring)
    · -- the tick is before the clock, and the alarm rings at once
      have hpast : ¬c.jiffies + 1#32 < c.jiffies + s * hz := by bv_omega
      have hring := (h.alarm c.alarm 1 (by omega)).mp ?_
      · omega
      · rw [sysAlarm_eq hs hn]
        simp [tick, ring, expire, hpast, h0, hc.deadline, hc.state, sleepOn, sigBit, sigalrm]
  · intro hj
    have h0 : c.jiffies + s * hz ≠ 0#32 := by bv_omega
    refine ⟨fun _ k => alarm_onTime (c := c) hc hs hn h0 fun i hi => ?_, fun k hk => ?_, ?_, fun k hk sig hsig hb => ?_⟩
    · bv_omega
    · rcases Nat.lt_or_eq_of_le hk with hlt | rfl
      · simp [asleep hc hs hn h0 hlt]
        omega
      · simp [awake hc hs hn h0, hc.state]
    · simp [awake hc hs hn h0, left, hc.deadline]
    · obtain ⟨hrun, hleft⟩ := post_asleep hc hs hn h0 hk hsig hb
      exact ⟨hrun, hleft, by omega, by omega⟩

/-- Half a second before the clock wraps, an alarm of one second rings at the next tick. -/
theorem alarm_rings_at_once : let c : Clock := ⟨0xffffffce#32, 0#32, 0#32, .running, 0#32, 0#32⟩
    c.Idle ∧ (c.sysAlarm 1#32).tick.signal.getLsbD sigalrm = true :=
  ⟨⟨rfl, rfl, rfl, rfl, rfl⟩, by decide⟩

theorem timers_exact_boot : Clock.OnTime ⟨0#32, 0#32, 0#32, .running, 0#32, 0#32⟩ 1#32 :=
  (timers_exact_iff ⟨rfl, rfl, rfl, rfl, rfl⟩ (by decide) (by decide)).mpr (.inl (by decide))

end Linux001

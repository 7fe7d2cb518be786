import Linux001.Kernel.Signal
import Linux001.Lib.RingBuf
import Linux001.Lib.Run
import Linux001.Lib.Update

/-!
# Fs — pipes

`read_pipe()` and `write_pipe()` of `fs/pipe.c`, for one pipe and any number of tasks, as steps between
which a task can be switched out: in `sleep_on()`, in every access to its own buffer (which can fault
and sleep), and at the tests in between.

A byte is loaded from the ring before the access to the reader's buffer, and `tail` is moved after it;
the room for a byte is tested before the access to the writer's buffer, and `head` is moved after it.
With two readers (or two writers) in the middle of a byte the pipe loses bytes; with at most one of
each it is a queue (`pipe_fifo`).
-/

namespace Linux001

open Function RingBuf

/-- The two ends, each with a `struct file` of its own. -/
inductive PipeEnd where
  | rd | wr
  deriving DecidableEq

/-- Where a task is in the two functions; `count` is what is left to do and `moved` what is done. -/
inductive PipePc where
  | out
  /-- `read_pipe`: before `PIPE_EMPTY`. -/
  | rTest (count : ℤ)
  /-- `i_count` was 2; before `sleep_on()`. -/
  | rChecked (count : ℤ)
  | rSleep (count : ℤ)
  /-- Before the test of the second loop. -/
  | rLoop (count : ℤ) (moved : ℕ)
  /-- In `put_fs_byte()`, with the byte. -/
  | rGive (count : ℤ) (moved : ℕ) (byte : Byte)
  /-- `write_pipe`: before the first test. -/
  | wEntry (count : ℤ)
  /-- Before `count-- > 0`. -/
  | wLoop (count : ℤ) (moved : ℕ)
  /-- Before `PIPE_FULL`. -/
  | wTest (count : ℤ) (moved : ℕ)
  | wChecked (count : ℤ) (moved : ℕ)
  | wSleep (count : ℤ) (moved : ℕ)
  /-- In `get_fs_byte()`; the offset that was read before it. -/
  | wFetch (count : ℤ) (moved : ℕ) (offset : ℕ)
  deriving DecidableEq

namespace PipePc

/-- In `sleep_on()`. -/
def asleep : PipePc → Bool
  | .rSleep _ | .wSleep .. => true
  | .out | .rTest _ | .rChecked _ | .rLoop .. | .rGive .. | .wEntry _ | .wLoop .. | .wTest .. | .wChecked ..
  | .wFetch .. => false

/-- `i_count` was 2, and `sleep_on()` comes next. -/
def checked : PipePc → Bool
  | .rChecked _ | .wChecked .. => true
  | .out | .rTest _ | .rSleep _ | .rLoop .. | .rGive .. | .wEntry _ | .wLoop .. | .wTest .. | .wSleep ..
  | .wFetch .. => false

/-- In the middle of a byte, as a reader. -/
def giving : PipePc → Bool
  | .rGive .. => true
  | .out | .rTest _ | .rChecked _ | .rSleep _ | .rLoop .. | .wEntry _ | .wLoop .. | .wTest .. | .wChecked ..
  | .wSleep .. | .wFetch .. => false

/-- In the middle of a byte, as a writer. -/
def fetching : PipePc → Bool
  | .wFetch .. => true
  | .out | .rTest _ | .rChecked _ | .rSleep _ | .rLoop .. | .rGive .. | .wEntry _ | .wLoop .. | .wTest ..
  | .wChecked .. | .wSleep .. => false

end PipePc

/-- A pipe: its inode, its page, and the tasks. -/
structure Pipe where
  /-- The page at `i_size`. -/
  page : ℕ → Byte
  /-- `i_zone[0]`. -/
  head : ℕ
  /-- `i_zone[1]`. -/
  tail : ℕ
  iCount : ℕ
  /-- `i_wait`. -/
  wait : Option Slot
  /-- The descriptors of an end that a task has. -/
  fds : PipeEnd → Slot → ℕ
  pc : Slot → PipePc
  /-- `TASK_RUNNING`. -/
  running : Slot → Bool
  /-- The variable of a task in `sleep_on()`. -/
  tmp : Slot → Option Slot
  signal : Slot → Word
  /-- What the last call has returned. -/
  ret : Slot → Option ℤ
  /-- The bytes that were written to the ring, and those that were taken out of it, in order. -/
  stored : List Byte
  delivered : List Byte

/-- What happens to a pipe. -/
inductive PipeOp where
  | read (n : Slot) (count : ℤ)
  | write (n : Slot) (count : ℤ)
  /-- A task goes on; if it reads a byte of its own buffer, that is `byte`. -/
  | go (n : Slot) (byte : Byte)
  /-- `schedule()` comes back to a task that nobody has woken, or its deadline passes. -/
  | stir (n : Slot)
  /-- One more descriptor. -/
  | dup (e : PipeEnd) (n : Slot)
  /-- `fork()`: the child has the descriptors of its parent. -/
  | fork (n child : Slot)
  /-- `sys_close`, `sys_dup2` or `sys_exit` closes a descriptor. -/
  | close (e : PipeEnd) (n : Slot)

namespace Pipe

/-- What `sys_pipe()` makes for the task in slot `n`. -/
def new (n : Slot) (page : ℕ → Byte) : Pipe where
  page := page
  head := 0
  tail := 0
  iCount := 2
  wait := none
  fds _ := update (fun _ => 0) n 1
  pc _ := .out
  running _ := true
  tmp _ := none
  signal _ := 0#32
  ret _ := none
  stored := []
  delivered := []

/-- `PIPE_SIZE`. -/
def size (s : Pipe) : ℕ := RingBuf.size 4096 s.head s.tail

/-- `PIPE_EMPTY`. -/
def empty (s : Pipe) : Bool := s.head = s.tail

/-- `PIPE_FULL`. -/
def full (s : Pipe) : Bool := s.size = 4095

/-- Every descriptor of an end has been closed. -/
def closed (s : Pipe) (e : PipeEnd) : Bool := ∀ n, s.fds e n = 0

/-- `wake_up(&inode->i_wait)`. -/
def wakeUp (s : Pipe) : Pipe :=
  { s with
    wait := none
    running := match s.wait with
      | none => s.running
      | some n => update s.running n true }

def setPc (s : Pipe) (n : Slot) (c : PipePc) : Pipe := { s with pc := update s.pc n c }

/-- The function returns `v`. -/
def return_ (s : Pipe) (n : Slot) (v : ℤ) : Pipe :=
  { s with pc := update s.pc n .out, ret := update s.ret n (some v) }

/-- `sleep_on(&inode->i_wait)`, up to its `schedule()`. -/
def sleepOn (s : Pipe) (n : Slot) (c : PipePc) : Pipe :=
  { s with
    wait := some n
    tmp := update s.tmp n s.wait
    running := update s.running n false
    pc := update s.pc n c }

/-- The end of `sleep_on`: the wake-up is passed on. -/
def resume (s : Pipe) (n : Slot) (c : PipePc) : Pipe :=
  { s with
    running := match s.tmp n with
      | none => s.running
      | some m => update s.running m true
    pc := update s.pc n c }

/-- `current->signal |= (1 << (SIGPIPE - 1))`. -/
def brokenPipe (s : Pipe) (n : Slot) : Pipe :=
  { s with signal := update s.signal n (s.signal n ||| sigBit (sigpipe - 1)) }

/-- The byte has been given to the reader: `INC_PIPE(PIPE_TAIL(*inode))`. -/
def take (s : Pipe) (byte : Byte) : Pipe :=
  { s with tail := RingBuf.inc 4096 s.tail, delivered := s.delivered ++ [byte] }

/-- The byte is stored, and `INC_PIPE(PIPE_HEAD(*inode))`. -/
def put (s : Pipe) (offset : ℕ) (byte : Byte) : Pipe :=
  { s with
    page := update s.page offset byte
    head := RingBuf.inc 4096 s.head
    stored := s.stored ++ [byte] }

/-- **A task goes on.**  Whether the offset for a store is read before or after the byte is up to the
compiler: `early` says which. -/
def go (early : Bool) (s : Pipe) (n : Slot) (byte : Byte) : Pipe :=
  match s.pc n with
  | .out => s
  | .rTest count =>
    if s.empty then
      if s.iCount ≠ 2 then s.wakeUp.return_ n 0 else s.wakeUp.setPc n (.rChecked count)
    else s.setPc n (.rLoop count 0)
  | .rChecked count => s.sleepOn n (.rSleep count)
  | .rSleep count => if s.running n then s.resume n (.rTest count) else s
  | .rLoop count moved =>
    if 0 < count ∧ ¬ s.empty then s.setPc n (.rGive (count - 1) moved (s.page s.tail))
    else s.wakeUp.return_ n moved
  | .rGive count moved b => (s.take b).setPc n (.rLoop count (moved + 1))
  | .wEntry count =>
    if s.iCount ≠ 2 then (s.wakeUp.brokenPipe n).return_ n (-1) else s.wakeUp.setPc n (.wLoop count 0)
  | .wLoop count moved =>
    if 0 < count then s.setPc n (.wTest (count - 1) moved) else s.wakeUp.return_ n moved
  | .wTest count moved =>
    if s.full then
      if s.iCount ≠ 2 then (s.wakeUp.brokenPipe n).return_ n moved else s.wakeUp.setPc n (.wChecked count moved)
    else s.setPc n (.wFetch count moved s.head)
  | .wChecked count moved => s.sleepOn n (.wSleep count moved)
  | .wSleep count moved => if s.running n then s.resume n (.wTest count moved) else s
  | .wFetch count moved offset =>
    (s.put (if early then offset else s.head) byte).wakeUp.setPc n (.wLoop count (moved + 1))

/-- `iput()` on the pipe, when the last descriptor of an end goes away. -/
def close (s : Pipe) (e : PipeEnd) (n : Slot) : Pipe :=
  let s₁ := { s with fds := update₂ s.fds e n (s.fds e n - 1) }
  if s₁.closed e then { s₁ with iCount := s.iCount - 1 } else s₁

/-- **One step.** -/
def step (early : Bool) (s : Pipe) : PipeOp → Pipe
  | .read n count => if s.pc n = .out ∧ s.fds .rd n ≠ 0 then s.setPc n (.rTest count) else s
  | .write n count => if s.pc n = .out ∧ s.fds .wr n ≠ 0 then s.setPc n (.wEntry count) else s
  | .go n byte => s.go early n byte
  | .stir n => { s with running := update s.running n true }
  | .dup e n => if s.fds e n ≠ 0 then { s with fds := update₂ s.fds e n (s.fds e n + 1) } else s
  | .fork n child =>
    if s.pc n = .out ∧ s.pc child = .out ∧ s.fds .rd child = 0 ∧ s.fds .wr child = 0 then
      { s with fds := fun e => update (s.fds e) child (s.fds e n) }
    else s
  | .close e n => if s.pc n = .out ∧ s.fds e n ≠ 0 then s.close e n else s

/-- **A run.** -/
def run (early : Bool) (s : Pipe) (ops : List PipeOp) : Pipe := ops.foldl (step early) s

variable {s s' : Pipe} {n m : Slot} {early : Bool} {byte : Byte} {c : PipePc} {count : ℤ} {moved : ℕ}

/-! ### The ring -/

/-- The bytes in the ring. -/
def buffered (s : Pipe) : List Byte := RingBuf.contents s.page 4096 s.head s.tail

/-- The pipe is a queue, and at most one task of each kind is in the middle of a byte. -/
structure FifoInv (s : Pipe) : Prop where
  head : s.head < 4096
  tail : s.tail < 4096
  fifo : s.stored = s.delivered ++ s.buffered
  /-- The byte that a reader has is the oldest one. -/
  give : ∀ {n count moved b}, s.pc n = .rGive count moved b → s.head ≠ s.tail ∧ b = s.page s.tail
  /-- A writer has room. -/
  fetch : ∀ {n count moved offset}, s.pc n = .wFetch count moved offset → s.size < 4095 ∧ offset = s.head
  oneReader : ∀ {n m}, (s.pc n).giving → (s.pc m).giving → n = m
  oneWriter : ∀ {n m}, (s.pc n).fetching → (s.pc m).fetching → n = m

/-- The ring and the places are as they were. -/
theorem FifoInv.frame (h : FifoInv s) (hp : s'.page = s.page) (hh : s'.head = s.head) (ht : s'.tail = s.tail)
    (hs : s'.stored = s.stored) (hd : s'.delivered = s.delivered) (hpc : s'.pc = s.pc) : FifoInv s' := by
  refine ⟨hh ▸ h.head, ht ▸ h.tail, ?_, fun e => ?_, fun e => ?_, ?_, ?_⟩
  · rw [hs, hd, buffered, hp, hh, ht]
    exact h.fifo
  · rw [hh, ht, hp]
    exact h.give (hpc ▸ e)
  · rw [hh, size, hh, ht]
    exact h.fetch (hpc ▸ e)
  · rw [hpc]
    exact h.oneReader
  · rw [hpc]
    exact h.oneWriter

/-- At most one task is in a place of some kind, still. -/
theorem one_update {kind : PipePc → Bool} (h : ∀ {k m}, kind (s.pc k) → kind (s.pc m) → k = m)
    (hc : kind c → ∀ k, k ≠ n → kind (s.pc k) = false) {k m : Slot}
    (hk : kind (update s.pc n c k)) (hm : kind (update s.pc n c m)) : k = m := by
  by_cases ek : k = n <;> by_cases em : m = n
  · rw [ek, em]
  · rw [ek, update_self] at hk
    rw [update_of_ne em, hc hk m em] at hm
    cases hm
  · rw [em, update_self] at hm
    rw [update_of_ne ek, hc hm k ek] at hk
    cases hk
  · rw [update_of_ne ek] at hk
    rw [update_of_ne em] at hm
    exact h hk hm

/-- **A task moves on**; into the middle of a byte if nobody else is there. -/
theorem FifoInv.setPc (h : FifoInv s)
    (hg : ∀ {count moved b}, c = .rGive count moved b → s.head ≠ s.tail ∧ b = s.page s.tail)
    (hf : ∀ {count moved offset}, c = .wFetch count moved offset → s.size < 4095 ∧ offset = s.head)
    (hr : c.giving → ∀ k, k ≠ n → (s.pc k).giving = false)
    (hw : c.fetching → ∀ k, k ≠ n → (s.pc k).fetching = false) : FifoInv (s.setPc n c) := by
  refine ⟨h.head, h.tail, h.fifo, fun e => ?_, fun e => ?_, fun {k m} => ?_, fun {k m} => ?_⟩
  · rcases of_update_eq e with ⟨-, e⟩ | ⟨-, e⟩
    · exact hg e
    · exact h.give e
  · rcases of_update_eq e with ⟨-, e⟩ | ⟨-, e⟩
    · exact hf e
    · exact h.fetch e
  · exact one_update h.oneReader hr
  · exact one_update h.oneWriter hw

theorem FifoInv.setPc_quiet (h : FifoInv s) (hg : c.giving = false) (hf : c.fetching = false) :
    FifoInv (s.setPc n c) := by
  refine h.setPc (fun e => ?_) (fun e => ?_) (fun e => ?_) (fun e => ?_)
  · rw [e] at hg
    cases hg
  · rw [e] at hf
    cases hf
  · rw [hg] at e
    cases e
  · rw [hf] at e
    cases e

/-- **The oldest byte is taken out**, by the only reader that has one. -/
theorem FifoInv.take (h : FifoInv s) (hpc : s.pc n = .rGive count moved byte)
    (hg : c.giving = false) (hf : c.fetching = false) : FifoInv ((s.take byte).setPc n c) := by
  obtain ⟨hne, rfl⟩ := h.give hpc
  have hpop := contents_pop s.page h.head h.tail hne
  have hsize := size_pop h.head h.tail hne
  have hno : ∀ {k}, (s.pc k).giving → k = n := fun hk => h.oneReader hk (by rw [hpc]; rfl)
  refine ⟨h.head, inc_lt (by decide) _, ?_, fun {k _ _ _} e => ?_, fun {k _ _ _} e => ?_, fun {k m} => ?_,
    fun {k m} => ?_⟩
  · show s.stored = s.delivered ++ [s.page s.tail] ++ contents s.page 4096 s.head (inc 4096 s.tail)
    rw [h.fifo, buffered, hpop, List.append_assoc, List.singleton_append]
  · rcases of_update_eq e with ⟨-, rfl⟩ | ⟨hk, e⟩
    · cases hg
    · exact absurd (hno (by rw [show s.pc k = _ from e]; rfl)) hk
  · rcases of_update_eq e with ⟨-, rfl⟩ | ⟨-, e⟩
    · cases hf
    obtain ⟨hroom, ho⟩ := h.fetch e
    refine ⟨?_, ho⟩
    change RingBuf.size 4096 s.head s.tail < 4095 at hroom
    show RingBuf.size 4096 s.head (RingBuf.inc 4096 s.tail) < 4095
    omega
  · exact one_update h.oneReader (by simp [hg])
  · exact one_update h.oneWriter (by simp [hf])

/-- **A byte goes into the ring**, from the only writer that has room for one. -/
theorem FifoInv.put {offset : ℕ} (h : FifoInv s) (hpc : s.pc n = .wFetch count moved offset)
    (hg : c.giving = false) (hf : c.fetching = false) : FifoInv ((s.put s.head byte).wakeUp.setPc n c) := by
  obtain ⟨hroom, -⟩ := h.fetch hpc
  have hpush := contents_push s.page h.head h.tail hroom byte
  have hsize := size_push h.head h.tail hroom
  have hno : ∀ {k}, (s.pc k).fetching → k = n := fun hk => h.oneWriter hk (by rw [hpc]; rfl)
  have hlt : inc 4096 s.head < 4096 := inc_lt (by decide) _
  refine ⟨hlt, h.tail, ?_, fun {k _ _ _} e => ?_, fun {k _ _ _} e => ?_, fun {k m} => ?_, fun {k m} => ?_⟩
  · show s.stored ++ [byte] = s.delivered ++
      contents (update s.page s.head byte) 4096 (inc 4096 s.head) s.tail
    rw [hpush, h.fifo, buffered, List.append_assoc]
  · rcases of_update_eq e with ⟨-, rfl⟩ | ⟨-, e⟩
    · cases hg
    obtain ⟨hne, rfl⟩ := h.give e
    refine ⟨fun eq => ?_, (update_of_ne hne.symm ..).symm⟩
    have hzero := (size_eq_zero_iff hlt h.tail).mpr eq
    omega
  · rcases of_update_eq e with ⟨-, rfl⟩ | ⟨hk, e⟩
    · cases hf
    · exact absurd (hno (by rw [show s.pc k = _ from e]; rfl)) hk
  · exact one_update h.oneReader (by simp [hg])
  · exact one_update h.oneWriter (by simp [hf])

/-- Nobody starts with a byte while another task of its kind is in the middle of one. -/
def Careful (s : Pipe) : PipeOp → Prop
  | .go n byte =>
    (((s.go true n byte).pc n).giving → ∀ k, k ≠ n → (s.pc k).giving = false) ∧
      (((s.go true n byte).pc n).fetching → ∀ k, k ≠ n → (s.pc k).fetching = false)
  | .read .. | .write .. | .stir _ | .dup .. | .fork .. | .close .. => True

instance decidableCareful (s : Pipe) : (op : PipeOp) → Decidable (s.Careful op)
  | .go n byte => inferInstanceAs (Decidable (
      (((s.go true n byte).pc n).giving → ∀ k, k ≠ n → (s.pc k).giving = false) ∧
        (((s.go true n byte).pc n).fetching → ∀ k, k ≠ n → (s.pc k).fetching = false)))
  | .read .. | .write .. | .stir _ | .dup .. | .fork .. | .close .. => isTrue trivial

/-- **A task goes on.** -/
theorem FifoInv.go (h : FifoInv s) (hc : s.Careful (.go n byte)) : FifoInv (s.go early n byte) := by
  obtain ⟨hr, hw⟩ := hc
  have hwake : FifoInv s.wakeUp := h.frame rfl rfl rfl rfl rfl rfl
  have hret : ∀ {s' : Pipe} {v}, FifoInv s' → FifoInv (s'.return_ n v) := fun h' =>
    (h'.setPc_quiet rfl rfl).frame rfl rfl rfl rfl rfl rfl
  cases hpc : s.pc n with
  | out =>
    simp only [Pipe.go, hpc]
    exact h
  | rTest count =>
    simp only [Pipe.go, hpc]
    split
    · split
      · exact hret hwake
      · exact hwake.setPc_quiet rfl rfl
    · exact h.setPc_quiet rfl rfl
  | rChecked count =>
    simp only [Pipe.go, hpc]
    exact (h.setPc_quiet rfl rfl).frame rfl rfl rfl rfl rfl rfl
  | rSleep count =>
    simp only [Pipe.go, hpc]
    split
    · exact (h.setPc_quiet rfl rfl).frame rfl rfl rfl rfl rfl rfl
    · exact h
  | rLoop count moved =>
    simp only [Pipe.go, hpc] at hr ⊢
    split
    · next hb =>
      rw [if_pos hb] at hr
      have hne : s.head ≠ s.tail := by simpa [empty] using hb.2
      refine h.setPc (fun e => ?_) (by simp) (fun _ => hr ?_) nofun
      · cases e
        exact ⟨hne, rfl⟩
      · show (update s.pc n _ n).giving = true
        rw [update_self]
        rfl
    · exact hret hwake
  | rGive count moved b =>
    simp only [Pipe.go, hpc]
    exact h.take hpc rfl rfl
  | wEntry count =>
    simp only [Pipe.go, hpc]
    split
    · exact hret (hwake.frame rfl rfl rfl rfl rfl rfl)
    · exact hwake.setPc_quiet rfl rfl
  | wLoop count moved =>
    simp only [Pipe.go, hpc]
    split
    · exact h.setPc_quiet rfl rfl
    · exact hret hwake
  | wTest count moved =>
    simp only [Pipe.go, hpc] at hw ⊢
    split
    · split
      · exact hret (hwake.frame rfl rfl rfl rfl rfl rfl)
      · exact hwake.setPc_quiet rfl rfl
    next hb =>
    rw [if_neg hb] at hw
    have hlt := size_lt (N := 4096) (by decide) s.head s.tail
    have hroom : RingBuf.size 4096 s.head s.tail ≠ 4095 := fun e => hb (decide_eq_true e)
    refine h.setPc (by simp) (fun e => ?_) nofun (fun _ => hw ?_)
    · cases e
      refine ⟨?_, rfl⟩
      show RingBuf.size 4096 s.head s.tail < 4095
      omega
    · show (update s.pc n _ n).fetching = true
      rw [update_self]
      rfl
  | wChecked count moved =>
    simp only [Pipe.go, hpc]
    exact (h.setPc_quiet rfl rfl).frame rfl rfl rfl rfl rfl rfl
  | wSleep count moved =>
    simp only [Pipe.go, hpc]
    split
    · exact (h.setPc_quiet rfl rfl).frame rfl rfl rfl rfl rfl rfl
    · exact h
  | wFetch count moved offset =>
    -- the offset that was read before the byte is still the right one
    have hoff : (if early then offset else s.head) = s.head := by
      rw [(h.fetch hpc).2, ite_self]
    simp only [Pipe.go, hpc, hoff]
    exact h.put hpc rfl rfl

/-- **One step.** -/
theorem FifoInv.step {op : PipeOp} (h : FifoInv s) (hc : s.Careful op) : FifoInv (s.step early op) := by
  cases op with
  | read n count =>
    simp only [Pipe.step]
    split
    · exact h.setPc_quiet rfl rfl
    · exact h
  | write n count =>
    simp only [Pipe.step]
    split
    · exact h.setPc_quiet rfl rfl
    · exact h
  | go n byte => exact h.go hc
  | stir n => exact h.frame rfl rfl rfl rfl rfl rfl
  | dup e n =>
    simp only [Pipe.step]
    split
    · exact h.frame rfl rfl rfl rfl rfl rfl
    · exact h
  | fork n child =>
    simp only [Pipe.step]
    split
    · exact h.frame rfl rfl rfl rfl rfl rfl
    · exact h
  | close e n =>
    simp only [Pipe.step, Pipe.close]
    split
    · split
      · exact h.frame rfl rfl rfl rfl rfl rfl
      · exact h.frame rfl rfl rfl rfl rfl rfl
    · exact h

theorem fifoInv_new (n : Slot) (page : ℕ → Byte) : FifoInv (new n page) where
  head := Nat.succ_pos _
  tail := Nat.succ_pos _
  fifo := rfl
  give := nofun
  fetch := nofun
  oneReader := nofun
  oneWriter := nofun

/-- Every step of a run is careful. -/
def CarefulRun (early : Bool) (s : Pipe) (ops : List PipeOp) : Prop := Run.Guarded (step early) Careful s ops

instance decidableCarefulRun (early : Bool) (s : Pipe) (ops : List PipeOp) :
    Decidable (CarefulRun early s ops) :=
  Run.decidableGuarded s ops

/-- **A pipe is a queue**, in every run in which at most one reader and at most one writer are in the
middle of a byte: the offsets are offsets of the page, at most 4095 bytes are buffered, and what was
stored is what has been delivered, followed by what is buffered. -/
theorem pipe_fifo (early : Bool) (n : Slot) (page : ℕ → Byte) (ops : List PipeOp)
    (hc : CarefulRun early (new n page) ops) :
    let s := (new n page).run early ops
    s.head < 4096 ∧ s.tail < 4096 ∧ s.buffered.length ≤ 4095 ∧ s.stored = s.delivered ++ s.buffered := by
  have h : FifoInv ((new n page).run early ops) := Run.Guarded.inv FifoInv.step hc (fifoInv_new n page)
  refine ⟨h.head, h.tail, ?_, h.fifo⟩
  have hlt := size_lt (N := 4096) (by decide) ((new n page).run early ops).head
    ((new n page).run early ops).tail
  rw [buffered, length_contents]
  omega

/-- Two bytes are written, and two readers take one each, the second while the first is in its
`put_fs_byte()`. -/
def twoReaders : List PipeOp :=
  [.fork 0 1, .fork 0 2, .write 0 2, .go 0 0#8, .go 0 0#8, .go 0 0#8, .go 0 65#8, .go 0 0#8, .go 0 0#8, .go 0 66#8,
    .go 0 0#8, .read 1 1, .go 1 0#8, .go 1 0#8, .read 2 1, .go 2 0#8, .go 2 0#8, .go 2 0#8, .go 2 0#8, .go 1 0#8]

/-- The same, one reader after the other. -/
def oneByOne : List PipeOp :=
  [.fork 0 1, .fork 0 2, .write 0 2, .go 0 0#8, .go 0 0#8, .go 0 0#8, .go 0 65#8, .go 0 0#8, .go 0 0#8, .go 0 66#8,
    .go 0 0#8, .read 1 1, .go 1 0#8, .go 1 0#8, .go 1 0#8, .read 2 1, .go 2 0#8, .go 2 0#8, .go 2 0#8, .go 2 0#8]

/-- The pipe is empty again, but what has been delivered is not what has been stored. -/
def Garbled (s : Pipe) : Prop :=
  s.stored = [65#8, 66#8] ∧ s.delivered = [65#8, 65#8] ∧ s.head = 2 ∧ s.tail = 2

/-- **A byte is delivered twice, and another one never**: both readers get the first byte, and the
second one is gone, whether the offset of a store is read early or late. -/
theorem twoReaders_lose :
    ((new 0 fun _ => 0#8).run true twoReaders).Garbled ∧ ((new 0 fun _ => 0#8).run false twoReaders).Garbled := by
  unfold Garbled
  decide

theorem oneByOne_fifo :
    let s := (new 0 fun _ => 0#8).run true oneByOne
    s.stored = [65#8, 66#8] ∧ s.stored = s.delivered ++ s.buffered :=
  ⟨by decide, (pipe_fifo true 0 (fun _ => 0#8) oneByOne (by decide)).2.2.2⟩

end Pipe
end Linux001

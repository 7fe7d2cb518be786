import Linux001.Fs.InodeFrame
import Linux001.Fs.Open
import Linux001.Lib.Run

/-!
# Fs — opens that overlap

`sys_open()`, `sys_pipe()`, `sys_close()` and what `sys_execve()` does with a file, by any number of
tasks that switch where the code sleeps: in the lookup and the creation of a file, which are steps on the
inode table, in `truncate_inode()`, and in the `get_free_page()` of `get_pipe_inode()`.

The scan of `file_table[]` and the claim of an entry are one step, so an entry is never handed out twice.
What an open file refers to is another matter: the inode it was given may share its slot with the inode
of another task, if both have taken one dirty slot in `iget()`.

The reference of an open file is kept under its entry of `file_table[]`, which stands behind the `nt`
tasks in the inode table.
-/

namespace Linux001

open Function List InodeTab Prod Tally

/-- Where a task is in `sys_open()` or `sys_pipe()`. -/
inductive OpenPc where
  | idle
  /-- In `sys_open()`, before the claim: the descriptor is chosen. -/
  | walk (fd : Fin 64) (call : ℕ)
  /-- In `truncate_inode()`. -/
  | truncate (fd i : Fin 64) (v : InodeRef) (k : InoKey) (flag : Word)
  /-- In `get_free_page()`. -/
  | page (fd fd' i j : Fin 64) (v : InodeRef)

/-- The inode table, `file_table[]` and `nt` tasks.  `users` are the calls that an entry has been handed
to since its `f_count` was 0. -/
structure Opens (nt : ℕ) where
  tab : InodeTab (nt + 64)
  file : Fin 64 → File
  filp : Fin nt → Fin 64 → Option FileRef
  pc : Fin nt → OpenPc
  users : Fin 64 → List ℕ
  calls : ℕ

/-- What a task may do. -/
inductive OpenOp where
  /-- A step on the inode table: of a lookup, of the creation of a file, or of another call. -/
  | ino (op : InoOp)
  /-- `sys_open()` of a file begins. -/
  | start
  /-- `sys_open()` of a device name. -/
  | device (flag : Word) (dev : BitVec 16)
  /-- `sys_open()` fails before the claim. -/
  | fail
  /-- The name has led to `k`, which is in the slot `v`. -/
  | found (v : InodeRef) (k : InoKey) (flag : Word)
  /-- `truncate_inode()` returns. -/
  | truncated
  | pipe
  /-- `get_free_page()` returns, with a page or without. -/
  | page (ok : Bool)
  | close (fd : Fin 64)
  /-- `sys_execve()` takes a reference to what it has opened. -/
  | keep (fd : Fin 64)

namespace Opens

variable {nt : ℕ}

/-- The task among the holders of inodes. -/
def taskOf (t : Fin nt) : Fin (nt + 64) := Fin.castAdd 64 t

/-- The entry of `file_table[]` among the holders of inodes. -/
def entry (i : Fin 64) : Fin (nt + 64) := Fin.natAdd nt i

/-- The key of an inode that no device has. -/
def noKey : InoKey := ⟨0#16, 0#32⟩

/-- No task has been anywhere yet. -/
def boot (nt : ℕ) (super : BitVec 16 → Bool) (disk : InoKey → DInode) : Opens nt where
  tab := InodeTab.init (nt + 64) super disk
  file _ := {}
  filp _ fd := if fd.val < 3 then some .tty else none
  pc _ := .idle
  users _ := []
  calls := 0

/-- What the name has led to that the entry was opened with. -/
def resolved (s : Opens nt) (i : Fin 64) : Option InoKey := ((s.tab.holds (entry i)).head?).map Prod.snd

/-- The task does not sleep in `iget()` or `sync_inodes()`. -/
def atRest (s : Opens nt) (t : Fin nt) : Bool :=
  match s.tab.pc (taskOf t) with
  | .idle => true
  | _ => false

/-- The first free descriptor from 3 on. -/
def freeFd (s : Opens nt) (t : Fin nt) : Option (Fin 64) :=
  (List.finRange 64).find? fun fd => 3 ≤ fd.val ∧ s.filp t fd = none

/-- The first free entry of `file_table[]`. -/
def freeFile (s : Opens nt) : Option (Fin 64) :=
  (List.finRange 64).find? fun i => (s.file i).fCount = 0#16

def setPc (s : Opens nt) (t : Fin nt) (p : OpenPc) : Opens nt := { s with pc := update s.pc t p }

def setFd (s : Opens nt) (t : Fin nt) (fd : Fin 64) (x : Option FileRef) : Opens nt :=
  { s with filp := update₂ s.filp t fd x }

/-- The entry `i` is handed to the call `c`, and is `f` now. -/
def claim (s : Opens nt) (i : Fin 64) (f : File) (c : ℕ) : Opens nt :=
  { s with file := update s.file i f, users := update s.users i (c :: s.users i) }

/-- `f_count` of the entry is `n`. -/
def release (s : Opens nt) (i : Fin 64) (n : BitVec 16) : Opens nt :=
  { s with
    file := update s.file i { s.file i with fCount := n }
    users := if n = 0#16 then update s.users i [] else s.users }

/-- The end of `sys_open()`. -/
def install (s : Opens nt) (t : Fin nt) (fd i : Fin 64) (v : InodeRef) (k : InoKey) (flag : Word) : Opens nt :=
  { (s.setFd t fd (some (.slot i))).setPc t .idle with
    file := update s.file i { s.file i with fMode := flag.setWidth 16, fInode := some v }
    tab := { s.tab with
      holds := update (update s.tab.holds (taskOf t) ((s.tab.holds (taskOf t)).erase (v, k)))
        (entry i) [(v, k)] } }

/-- `sys_open()`, once the name has led to an inode. -/
def found (s : Opens nt) (t : Fin nt) (fd : Fin 64) (c : ℕ) (v : InodeRef) (k : InoKey) (flag : Word) :
    Opens nt :=
  match s.freeFile with
  | none => { s.setPc t .idle with tab := s.tab.step (taskOf t) (.iput v k) }
  | some i =>
    let s₁ := s.claim i { fCount := 1#16 } c
    if flag &&& 0x200#32 ≠ 0#32 ∧ (s.tab.slot v).iMode &&& 0x4000#16 = 0#16 then
      s₁.setPc t (.truncate fd i v k flag)
    else s₁.install t fd i v k flag

/-- What `truncate_inode()` leaves of the inode. -/
def truncateInode (m : MInode) : MInode :=
  { m with iSize := 0#32, iZone := fun k => if k.val < 8 then 0#16 else m.iZone k, iDirt := true }

/-- The entry with `f_count++`. -/
def taken (s : Opens nt) (i : Fin 64) : File := { s.file i with fCount := (s.file i).fCount + 1#16 }

/-- **`sys_pipe`**, up to `get_free_page()`. -/
def sysPipe (s : Opens nt) (t : Fin nt) : Opens nt :=
  match s.freeFile with
  | none => s
  | some i =>
    let s₁ := s.claim i (s.taken i) s.calls
    match s₁.freeFile with
    | none => s
    | some j =>
      let s₂ := s₁.claim j (s₁.taken j) s.calls
      match s₂.freeFd t with
      | none => s
      | some fd =>
        let s₃ := s₂.setFd t fd (some (.slot i))
        match s₃.freeFd t with
        | none => s
        | some fd' =>
          match s.tab.freeSlot with
          | none => s
          | some v =>
            { (s₃.setFd t fd' (some (.slot j))).setPc t (.page fd fd' i j v) with
              tab := s.tab.step (taskOf t) .empty, calls := s.calls + 1 }

/-- An end of a pipe. -/
def pipeEnd (f : File) (v : InodeRef) (mode : BitVec 16) : File :=
  { f with fInode := some v, fPos := 0#32, fDev := 0#16, fMode := mode }

/-- The rest of `sys_pipe()`. -/
def endPipe (s : Opens nt) (t : Fin nt) (fd fd' i j : Fin 64) (v : InodeRef) (ok : Bool) : Opens nt :=
  let held := update s.tab.holds (taskOf t) ((s.tab.holds (taskOf t)).erase (v, noKey))
  if ok then
    { s.setPc t .idle with
      tab := { s.tab.setSlot v { s.tab.slot v with
          iCount := 2#8, iPipe := true
          iZone := fun k => if k.val < 2 then 0#16 else (s.tab.slot v).iZone k } with
        holds := update (update held (entry i) [(v, noKey)]) (entry j) [(v, noKey)] }
      file := update (update s.file i (pipeEnd (s.file i) v 1#16)) j
        (pipeEnd (s.file j) v 2#16) }
  else
    { ((((s.setFd t fd none).setFd t fd' none).release i 0#16).release j 0#16).setPc t .idle with
      tab := { s.tab.setSlot v { s.tab.slot v with iCount := 0#8 } with holds := held } }

/-- **`sys_close`** of the entry `i`. -/
def closeEntry (s : Opens nt) (i : Fin 64) : Opens nt :=
  let s₁ := s.release i ((s.file i).fCount - 1#16)
  match (s.file i).fInode with
  | none => s₁
  | some v =>
    if (s.file i).fCount - 1#16 = 0#16 then
      { s₁ with tab := { s.tab.iput v with holds := update s.tab.holds (entry i) [] } }
    else s₁

/-- `exe_inode->i_count++`. -/
def keep (s : Opens nt) (t : Fin nt) (i : Fin 64) : Opens nt :=
  match (s.file i).fInode, s.resolved i with
  | some v, some k =>
    { s with
      tab := { s.tab.setSlot v { s.tab.slot v with iCount := (s.tab.slot v).iCount + 1#8 } with
        holds := update s.tab.holds (taskOf t) ((v, k) :: s.tab.holds (taskOf t)) } }
  | _, _ => s

/-- **One step of the task `t`.** -/
def step (s : Opens nt) (x : Fin nt × OpenOp) : Opens nt :=
  match x.2, s.pc x.1 with
  | .ino op, .idle | .ino op, .walk .. => { s with tab := s.tab.step (taskOf x.1) op }
  | .truncated, .truncate fd i v k flag =>
    { s with tab := s.tab.setSlot v (truncateInode (s.tab.slot v)) }.install x.1 fd i v k flag
  | .page ok, .page fd fd' i j v => s.endPipe x.1 fd fd' i j v ok
  | .fail, .walk .. => if s.atRest x.1 then s.setPc x.1 .idle else s
  | .found v k flag, .walk fd c =>
    if s.atRest x.1 ∧ (v, k) ∈ s.tab.holds (taskOf x.1) then s.found x.1 fd c v k flag else s
  | .start, .idle =>
    match s.freeFd x.1 with
    | none => s
    | some fd => if s.atRest x.1 then { s.setPc x.1 (.walk fd s.calls) with calls := s.calls + 1 } else s
  | .device flag dev, .idle =>
    match s.freeFd x.1, s.freeFile with
    | some fd, some i =>
      if s.atRest x.1 then
        { (s.claim i { fMode := 2#16, fFlags := flag.setWidth 16, fCount := 1#16, fDev := dev } s.calls).setFd
            x.1 fd (some (.slot i)) with
          calls := s.calls + 1 }
      else s
    | _, _ => s
  | .pipe, .idle => if s.atRest x.1 then s.sysPipe x.1 else s
  | .close fd, .idle =>
    match s.filp x.1 fd with
    | none => s
    | some .tty => s.setFd x.1 fd none
    | some (.slot i) => if s.atRest x.1 then (s.setFd x.1 fd none).closeEntry i else s
  | .keep fd, .idle =>
    match s.filp x.1 fd with
    | some (.slot i) => if s.atRest x.1 then s.keep x.1 i else s
    | _ => s
  | _, _ => s

/-- **A run**: steps of the tasks in any order. -/
def run (s : Opens nt) (ops : List (Fin nt × OpenOp)) : Opens nt := ops.foldl step s

/-- The step on the inode table that a step makes. -/
def tabOp (s : Opens nt) (x : Fin nt × OpenOp) : Option InoOp :=
  match x.2, s.pc x.1 with
  | .ino op, .idle | .ino op, .walk .. => some op
  | .pipe, .idle => some .empty
  | _, _ => none

/-- **The condition on a step**: what it does to the inode table is careful. -/
structure Careful (s : Opens nt) (x : Fin nt × OpenOp) : Prop where
  tab : ∀ op, s.tabOp x = some op → s.tab.Careful (taskOf x.1) op
  full : ∀ v, (s.tab.slot v).iCount ≠ 255#8

/-- Every step of the run is careful. -/
def CarefulRun (s : Opens nt) (ops : List (Fin nt × OpenOp)) : Prop := Run.Guarded step Careful s ops

/-! ### Entries are handed out once -/

/-- Where a task refers to an entry: by a descriptor, or in the middle of `sys_open()`. -/
inductive At (s : Opens nt) (t : Fin nt) : Option (Fin 64) → Fin 64 → Prop where
  | filp {fd i : Fin 64} (h : s.filp t fd = some (.slot i)) : At s t (some fd) i
  | claimed {fd i : Fin 64} {v : InodeRef} {k : InoKey} {flag : Word}
      (h : s.pc t = .truncate fd i v k flag) : At s t none i

/-- What holds of `file_table[]`. -/
structure EntryInv (s : Opens nt) : Prop where
  used : ∀ {t p i}, At s t p i → (s.file i).fCount = 1#16
  sole : ∀ {t t' p p' i}, At s t p i → At s t' p' i → t = t' ∧ p = p'
  handed : ∀ i, (s.file i).fCount = 0#16 ∧ s.users i = [] ∨ (s.file i).fCount = 1#16 ∧ ∃ c, s.users i = [c]

variable {s s' : Opens nt} {t t' : Fin nt} {fd fd' i j : Fin 64} {v : InodeRef} {k : InoKey} {flag : Word}
  {c : ℕ} {p : Option (Fin 64)} {tab : InodeTab nt} {op : OpenOp}
  {ok : Bool} {x : Option FileRef} {s₁ : Opens nt}

theorem freeFile_some (h : s.freeFile = some i) : (s.file i).fCount = 0#16 := by
  have := find?_some h
  exact of_decide_eq_true this

theorem freeFd_some (h : s.freeFd t = some fd) : s.filp t fd = none := by
  have := find?_some h
  exact (of_decide_eq_true this).2

/-- A descriptor that is set refers to what it is set to. -/
theorem At.setFd (h : At (s.setFd t fd x) t' p j) :
    t' = t ∧ p = some fd ∧ x = some (.slot j) ∨ At s t' p j ∧ ¬ (t' = t ∧ p = some fd) := by
  cases h with
  | @filp fd₁ _ h =>
    by_cases e : t' = t ∧ fd₁ = fd
    · obtain ⟨rfl, rfl⟩ := e
      exact .inl ⟨rfl, rfl, by simpa [Opens.setFd] using h⟩
    · refine .inr ⟨.filp ?_, fun h => e ⟨h.1, Option.some.inj h.2⟩⟩
      rwa [← update₂_of_ne (f := s.filp) e]
  | claimed h => exact .inr ⟨.claimed h, fun h => nomatch h.2⟩

theorem At.clearFd (h : At (s.setFd t fd none) t' p j) : At s t' p j ∧ ¬ (t' = t ∧ p = some fd) := by
  rcases h.setFd with ⟨-, -, ⟨⟩⟩ | h
  exact h

/-- A task that is not in the middle of `sys_open()` has only descriptors. -/
theorem At.setPc {p : OpenPc} {q : Option (Fin 64)} (h : At (s.setPc t p) t' q j)
    (hp : ∀ fd i v k flag, p ≠ .truncate fd i v k flag) : At s t' q j := by
  cases h with
  | filp h => exact .filp h
  | claimed h =>
    rcases of_update_eq h with ⟨-, h⟩ | ⟨-, h⟩
    · exact absurd h (hp _ _ _ _ _)
    · exact .claimed h

/-- The fields that references to entries are read from. -/
theorem At.congr (h : At s' t p i) (hf : s'.filp = s.filp) (hp : s'.pc = s.pc) : At s t p i := by
  cases h with
  | filp h => exact .filp (by rwa [← hf])
  | claimed h => exact .claimed (by rwa [← hp])

theorem noTruncate {p : OpenPc} (h : p = .idle ∨ (∃ fd c, p = .walk fd c) ∨ ∃ fd fd' i j v, p = .page fd fd' i j v) :
    ∀ fd i v k flag, p ≠ .truncate fd i v k flag := by
  rintro fd i v k flag rfl
  simp at h

theorem taken_fCount (h : (s.file i).fCount = 0#16) : (s.taken i).fCount = 1#16 := by
  simp [taken, h]

/-- `sys_pipe()` takes two entries, or none. -/
theorem sysPipe_cases (s : Opens nt) (t : Fin nt) : s.sysPipe t = s ∨ ∃ i j fd fd' v,
    (s.file i).fCount = 0#16 ∧ ((s.claim i (s.taken i) s.calls).file j).fCount = 0#16 ∧
    s.filp t fd = none ∧ (s.setFd t fd (some (.slot i))).filp t fd' = none ∧ s.tab.freeSlot = some v ∧
    s.sysPipe t =
      { (((((s.claim i (s.taken i) s.calls).setFd t fd (some (.slot i))).claim j
            ((s.claim i (s.taken i) s.calls).taken j) s.calls).setFd t fd' (some (.slot j))).setPc t
            (.page fd fd' i j v)) with
        tab := s.tab.step (taskOf t) .empty, calls := s.calls + 1 } := by
  unfold Opens.sysPipe
  cases hi : s.freeFile with
  | none => exact .inl rfl
  | some i =>
    simp only
    cases hj : (s.claim i (s.taken i) s.calls).freeFile with
    | none => exact .inl rfl
    | some j =>
      simp only
      split
      · exact .inl rfl
      next fd hfd =>
      split
      · exact .inl rfl
      next fd' hfd' =>
      split
      · exact .inl rfl
      next v hv =>
      exact .inr ⟨i, j, fd, fd', v, freeFile_some hi, freeFile_some hj, freeFd_some hfd, freeFd_some hfd', hv, rfl⟩

theorem claim_install (f : File) :
    ((s.claim i f c).setPc t (.truncate fd i v k flag)).install t fd i v k flag =
      (s.claim i f c).install t fd i v k flag := by
  simp [install, setPc, setFd, claim]

section
variable (inv : EntryInv s)
include inv

/-- Nobody refers to a free entry. -/
theorem EntryInv.unused (h : (s.file i).fCount = 0#16) : ¬ At s t p i :=
  fun hat => by
    rw [inv.used hat] at h
    exact absurd h (by decide)

/-- No reference is added, and no count changes. -/
theorem EntryInv.mono (hat : ∀ {t p i}, At s' t p i → At s t p i)
    (hc : ∀ i, (s'.file i).fCount = (s.file i).fCount) (hu : s'.users = s.users) : EntryInv s' where
  used h := by rw [hc]; exact inv.used (hat h)
  sole h h' := inv.sole (hat h) (hat h')
  handed i := by rw [hc, hu]; exact inv.handed i

/-- A free entry is handed to a call, which refers to it in one place. -/
theorem EntryInv.claim {f : File}
    (hi : (s.file i).fCount = 0#16) (hf : f.fCount = 1#16)
    (hfile : s'.file = (s.claim i f c).file) (husers : s'.users = (s.claim i f c).users)
    (hat : ∀ {t' p' j}, At s' t' p' j → t' = t ∧ p' = p ∧ j = i ∨ At s t' p' j) : EntryInv s' where
  used {t' p' j} h := by
    rw [hfile]
    rcases hat h with ⟨-, -, rfl⟩ | h
    · simp [Opens.claim, hf]
    · have hne : j ≠ i := fun e => inv.unused (e ▸ hi) h
      simpa [Opens.claim, hne] using inv.used h
  sole {t₁ t₂ p₁ p₂ j} h₁ h₂ := by
    rcases hat h₁ with ⟨rfl, rfl, rfl⟩ | h₁ <;> rcases hat h₂ with ⟨rfl, rfl, e⟩ | h₂
    · exact ⟨rfl, rfl⟩
    · exact absurd h₂ (inv.unused hi)
    · exact absurd h₁ (inv.unused (e ▸ hi))
    · exact inv.sole h₁ h₂
  handed j := by
    rw [hfile, husers]
    by_cases e : j = i
    · subst e
      rcases inv.handed j with ⟨-, hu⟩ | ⟨h, -⟩
      · exact .inr ⟨by simp [Opens.claim, hf], c, by simp [Opens.claim, hu]⟩
      · rw [h] at hi
        exact absurd hi (by decide)
    · simpa [Opens.claim, e] using inv.handed j

/-- The only reference to an entry is dropped. -/
theorem EntryInv.release (hi : At s t p i)
    (hfile : s'.file = (s.release i 0#16).file) (husers : s'.users = (s.release i 0#16).users)
    (hat : ∀ {t' p' j}, At s' t' p' j → At s t' p' j ∧ ¬ (t' = t ∧ p' = p)) : EntryInv s' where
  used {t' p' j} h := by
    obtain ⟨h, hne⟩ := hat h
    have hj : j ≠ i := fun e => hne (inv.sole h (e ▸ hi))
    rw [hfile]
    simpa [Opens.release, hj] using inv.used h
  sole h₁ h₂ := inv.sole (hat h₁).1 (hat h₂).1
  handed j := by
    rw [hfile, husers]
    by_cases e : j = i
    · subst e
      exact .inl ⟨by simp [Opens.release], by simp [Opens.release]⟩
    · simpa [Opens.release, e] using inv.handed j

/-- The reference from within `sys_open()` becomes a descriptor. -/
theorem EntryInv.install (hp : s.pc t = .truncate fd i v k flag) :
    EntryInv (s.install t fd i v k flag) := by
  have hat : ∀ {t' p' j}, At (s.install t fd i v k flag) t' p' j →
      t' = t ∧ p' = some fd ∧ j = i ∨ At s t' p' j ∧ ¬ (t' = t ∧ p' = none) := fun {t' p' j} h => by
    cases h with
    | @filp fd₁ _ h =>
      by_cases e : t' = t ∧ fd₁ = fd
      · obtain ⟨rfl, rfl⟩ := e
        have h' : some (FileRef.slot i) = some (FileRef.slot j) := by
          simpa [Opens.install, Opens.setFd, Opens.setPc] using h
        cases h'
        exact .inl ⟨rfl, rfl, rfl⟩
      · refine .inr ⟨.filp ?_, fun h => nomatch h.2⟩
        rwa [← update₂_of_ne (f := s.filp) (c := some (.slot i)) e]
    | @claimed fd₁ _ v₁ k₁ flag₁ h =>
      rcases of_update_eq h with ⟨-, h⟩ | ⟨hne, h⟩
      · cases h
      · exact .inr ⟨.claimed h, fun h => hne h.1⟩
  have hc : ∀ j, ((s.install t fd i v k flag).file j).fCount = (s.file j).fCount := fun j => by
    by_cases e : j = i
    · subst e
      simp [Opens.install]
    · simp [Opens.install, e]
  have hi : At s t none i := .claimed hp
  refine ⟨fun {t' p' j} h => ?_, fun {t₁ t₂ p₁ p₂ j} h₁ h₂ => ?_, fun j => ?_⟩
  · rw [hc]
    rcases hat h with ⟨-, -, rfl⟩ | ⟨h, -⟩
    · exact inv.used hi
    · exact inv.used h
  · rcases hat h₁ with ⟨rfl, rfl, rfl⟩ | ⟨g₁, n₁⟩ <;> rcases hat h₂ with ⟨rfl, rfl, e⟩ | ⟨g₂, n₂⟩
    · exact ⟨rfl, rfl⟩
    · obtain ⟨e₁, e₂⟩ := inv.sole hi g₂
      exact absurd ⟨e₁.symm, e₂.symm⟩ n₂
    · obtain ⟨e₁, e₂⟩ := inv.sole (e ▸ hi) g₁
      exact absurd ⟨e₁.symm, e₂.symm⟩ n₁
    · exact inv.sole g₁ g₂
  · rw [hc]
    exact inv.handed j

theorem EntryInv.setPc {p : OpenPc} (hp : ∀ fd i v k flag, p ≠ .truncate fd i v k flag) :
    EntryInv (s.setPc t p) :=
  inv.mono (fun h => h.setPc hp) (fun _ => rfl) rfl

theorem EntryInv.onTab (x : InodeTab (nt + 64)) (n : ℕ) :
    EntryInv { s with tab := x, calls := n } :=
  inv.mono (fun h => h.congr rfl rfl) (fun _ => rfl) rfl

/-- A free entry is handed to a call, for a descriptor. -/
theorem EntryInv.claimFd {f : File} (t : Fin nt) (fd : Fin 64) (c : ℕ) (hi : (s.file i).fCount = 0#16)
    (hf : f.fCount = 1#16) : EntryInv ((s.claim i f c).setFd t fd (some (.slot i))) := by
  refine inv.claim (t := t) (p := some fd) hi hf rfl rfl fun {t' p' j} h => ?_
  rcases At.setFd h with ⟨e₁, e₂, e⟩ | ⟨h, -⟩
  · cases e
    exact .inl ⟨e₁, e₂, rfl⟩
  · exact .inr (h.congr rfl rfl)

theorem EntryInv.sysPipe : EntryInv (s.sysPipe t) := by
  rcases sysPipe_cases s t with e | ⟨i, j, fd, fd', v, hi, hj, -, -, -, e⟩
  · rwa [e]
  rw [e]
  have h₁ := inv.claimFd t fd s.calls hi (taken_fCount hi)
  have h₂ := h₁.claimFd t fd' s.calls hj (taken_fCount hj)
  exact (h₂.setPc (noTruncate (.inr (.inr ⟨_, _, _, _, _, rfl⟩)))).onTab _ _

/-- A free entry is handed to a call that has no descriptor for it yet. -/
theorem EntryInv.claimOpen (t : Fin nt) (fd : Fin 64) (c : ℕ) (v : InodeRef) (k : InoKey)
    (flag : Word) (hi : (s.file i).fCount = 0#16) :
    EntryInv ((s.claim i { fCount := 1#16 } c).setPc t (.truncate fd i v k flag)) := by
  refine inv.claim (t := t) (p := none) hi rfl rfl rfl fun {t' p' j} h => ?_
  cases h with
  | filp h => exact .inr (.filp h)
  | claimed h =>
    rcases of_update_eq h with ⟨e, h⟩ | ⟨-, h⟩
    · cases h
      exact .inl ⟨e, rfl, rfl⟩
    · exact .inr (.claimed h)

theorem EntryInv.found :
    EntryInv (s.found t fd c v k flag) := by
  unfold Opens.found
  cases hi : s.freeFile with
  | none => exact (inv.setPc (noTruncate (.inl rfl))).onTab _ _
  | some i =>
    have h₁ := inv.claimOpen t fd c v k flag (freeFile_some hi)
    simp only
    split
    · exact h₁
    -- what is installed at once is what a truncation would end with
    have h₂ := h₁.install (update_self ..)
    rwa [claim_install] at h₂

theorem EntryInv.endPipe (ok : Bool)
    (hfd : s.filp t fd = some (.slot i)) (hfd' : s.filp t fd' = some (.slot j)) (hij : i ≠ j) :
    EntryInv (s.endPipe t fd fd' i j v ok) := by
  unfold Opens.endPipe
  cases ok with
  | true =>
    rw [if_pos rfl]
    refine inv.mono (fun h => ?_) (fun a => ?_) rfl
    · exact At.setPc (h.congr rfl rfl) (noTruncate (.inl rfl))
    · simp only [update_apply]
      split
      · next e => rw [e]; rfl
      split
      · next e => rw [e]; rfl
      · rfl
  | false =>
    have h₁ : EntryInv ((s.setFd t fd none).release i 0#16) := by
      exact inv.release (.filp hfd) rfl rfl fun h => At.clearFd (h.congr rfl rfl)
    have hne : fd' ≠ fd := fun e => by
      rw [e, hfd] at hfd'
      cases hfd'
      exact hij rfl
    have h₂ : EntryInv ((((s.setFd t fd none).release i 0#16).setFd t fd' none).release j 0#16) := by
      refine h₁.release (.filp ?_) rfl rfl fun h => At.clearFd (h.congr rfl rfl)
      show update₂ s.filp t fd none t fd' = _
      rwa [update₂_of_ne_right hne]
    exact ((h₂.setPc (noTruncate (.inl rfl))).onTab _ s.calls).mono (fun h => h.congr rfl rfl) (fun _ => rfl) rfl

/-- What `sys_close()` does to an entry. -/
theorem EntryInv.closeEntry (hfd : s.filp t fd = some (.slot i)) :
    EntryInv ((s.setFd t fd none).closeEntry i) := by
  have hc := inv.used (.filp hfd)
  have h₁ : EntryInv ((s.setFd t fd none).release i ((s.file i).fCount - 1#16)) := by
    rw [hc]
    exact inv.release (.filp hfd) rfl rfl fun h => At.clearFd (h.congr rfl rfl)
  unfold Opens.closeEntry
  split
  · exact h₁
  split
  · exact h₁.onTab _ _
  · exact h₁

end

/-- `sys_pipe()` has its descriptors while it sleeps. -/
def PipeInv (s : Opens nt) : Prop :=
  ∀ ⦃t fd fd' i j v⦄, s.pc t = .page fd fd' i j v →
    s.filp t fd = some (.slot i) ∧ s.filp t fd' = some (.slot j) ∧ i ≠ j

/-- What a task does with its descriptors is its own affair. -/
structure Private (t : Fin nt) (s s' : Opens nt) : Prop where
  pc : ∀ t', t' ≠ t → s'.pc t' = s.pc t'
  filp : ∀ t', t' ≠ t → s'.filp t' = s.filp t'

theorem Private.refl : Private t s s := ⟨fun _ _ => rfl, fun _ _ => rfl⟩

theorem Private.setPc {p : OpenPc} : Private t s (s.setPc t p) :=
  ⟨fun _ e => update_of_ne e _ _, fun _ _ => rfl⟩

theorem Private.setFd : Private t s (s.setFd t fd x) :=
  ⟨fun _ _ => rfl, fun _ e => update₂_of_ne_left e⟩

theorem Private.trans (h : Private t s s₁) (h' : Private t s₁ s') : Private t s s' :=
  ⟨fun t' e => (h'.pc t' e).trans (h.pc t' e), fun t' e => (h'.filp t' e).trans (h.filp t' e)⟩

theorem Private.congr (h : Private t s s₁) (hf : s'.filp = s₁.filp) (hp : s'.pc = s₁.pc) :
    Private t s s' :=
  ⟨fun t' e => by rw [hp]; exact h.pc t' e, fun t' e => by rw [hf]; exact h.filp t' e⟩

theorem PipeInv.frame (inv : PipeInv s) (h : Private t s s')
    (ht : ∀ fd fd' i j v, s'.pc t = .page fd fd' i j v →
      s'.filp t fd = some (.slot i) ∧ s'.filp t fd' = some (.slot j) ∧ i ≠ j) : PipeInv s' :=
  fun t' fd fd' i j v hp => by
    by_cases e : t' = t
    · subst e
      exact ht fd fd' i j v hp
    rw [h.pc t' e] at hp
    rw [h.filp t' e]
    exact inv hp

/-- The two entries of a pipe are different. -/
theorem claim_free_ne (hi : (s.file i).fCount = 0#16)
    (hj : ((s.claim i (s.taken i) c).file j).fCount = 0#16) : i ≠ j := by
  rintro rfl
  have h₁ : (s.taken i).fCount = 0#16 := by simpa [claim] using hj
  rw [taken_fCount hi] at h₁
  exact absurd h₁ (by decide)

/-- The descriptors of the pipe that `sys_pipe()` makes. -/
theorem sysPipe_filp {x : FileRef} (h : (s.setFd t fd (some x)).filp t fd' = none) : fd' ≠ fd := by
  rintro rfl
  simp [setFd] at h

theorem Private.install : Private t s (s.install t fd i v k flag) :=
  ((Private.setFd (x := some (.slot i))).trans .setPc).congr rfl rfl

theorem Private.found : Private t s (s.found t fd c v k flag) := by
  unfold Opens.found
  split
  · exact Private.setPc.congr rfl rfl
  next i hi =>
  have h₁ : Private t s (s.install t fd i v k flag) := .install
  split
  · exact Private.setPc.congr rfl rfl
  · exact h₁.congr rfl rfl

theorem Private.endPipe : Private t s (s.endPipe t fd fd' i j v ok) := by
  cases ok with
  | true => exact Private.setPc.congr rfl rfl
  | false => exact ((Private.setFd.trans .setFd).trans .setPc).congr rfl rfl

theorem closeEntry_filp : (s.closeEntry i).filp = s.filp ∧ (s.closeEntry i).pc = s.pc := by
  unfold Opens.closeEntry
  split
  · exact ⟨rfl, rfl⟩
  · split <;> exact ⟨rfl, rfl⟩

theorem keep_filp : (s.keep t i).filp = s.filp ∧ (s.keep t i).pc = s.pc := by
  unfold Opens.keep
  split <;> exact ⟨rfl, rfl⟩

/-- **What a step does**, with what it is done under. -/
inductive Does (s : Opens nt) (t : Fin nt) : OpenOp → Opens nt → Prop where
  | nothing {op : OpenOp} : Does s t op s
  | ino {op : InoOp} (hp : s.pc t = .idle ∨ ∃ fd c, s.pc t = .walk fd c) :
      Does s t (.ino op) { s with tab := s.tab.step (taskOf t) op }
  | start {fd : Fin 64} (hp : s.pc t = .idle) :
      Does s t .start { s.setPc t (.walk fd s.calls) with calls := s.calls + 1 }
  | device {flag : Word} {dev : BitVec 16} {fd i : Fin 64} (hp : s.pc t = .idle) (hi : (s.file i).fCount = 0#16) :
      Does s t (.device flag dev)
        { (s.claim i { fMode := 2#16, fFlags := flag.setWidth 16, fCount := 1#16, fDev := dev } s.calls).setFd
            t fd (some (.slot i)) with
          calls := s.calls + 1 }
  | fail {fd : Fin 64} {c : ℕ} (hp : s.pc t = .walk fd c) : Does s t .fail (s.setPc t .idle)
  | found {v : InodeRef} {k : InoKey} {flag : Word} {fd : Fin 64} {c : ℕ} (hp : s.pc t = .walk fd c)
      (hv : (v, k) ∈ s.tab.holds (taskOf t)) :
      Does s t (.found v k flag) (s.found t fd c v k flag)
  | truncated {fd i : Fin 64} {v : InodeRef} {k : InoKey} {flag : Word} (hp : s.pc t = .truncate fd i v k flag) :
      Does s t .truncated
        ({ s with tab := s.tab.setSlot v (truncateInode (s.tab.slot v)) }.install t fd i v k flag)
  | pipe (hp : s.pc t = .idle) (hr : s.tab.pc (taskOf t) = .idle) : Does s t .pipe (s.sysPipe t)
  | page {ok : Bool} {fd fd' i j : Fin 64} {v : InodeRef} (hp : s.pc t = .page fd fd' i j v) :
      Does s t (.page ok) (s.endPipe t fd fd' i j v ok)
  | tty {fd : Fin 64} (hp : s.pc t = .idle) : Does s t (.close fd) (s.setFd t fd none)
  | close {fd i : Fin 64} (hp : s.pc t = .idle) (hfd : s.filp t fd = some (.slot i)) :
      Does s t (.close fd) ((s.setFd t fd none).closeEntry i)
  | keep {fd i : Fin 64} (hp : s.pc t = .idle) (hfd : s.filp t fd = some (.slot i)) : Does s t (.keep fd) (s.keep t i)

theorem atRest_iff : s.atRest t = true ↔ s.tab.pc (taskOf t) = .idle := by
  unfold atRest
  cases s.tab.pc (taskOf t) <;> simp

theorem step_does (s : Opens nt) (t : Fin nt) (op : OpenOp) : Does s t op (s.step (t, op)) := by
  unfold Opens.step
  dsimp only
  split
  · next hp => exact .ino (.inl hp)
  · next hp => exact .ino (.inr ⟨_, _, hp⟩)
  · next hp => exact .truncated hp
  · next hp => exact .page hp
  · next hp =>
    split
    · exact .fail hp
    · exact .nothing
  · next hp =>
    split
    · next h => exact .found hp h.2
    · exact .nothing
  · next hp =>
    split
    · exact .nothing
    split
    · exact .start hp
    · exact .nothing
  · next hp =>
    split
    · next hi =>
      split
      · exact .device hp (freeFile_some hi)
      · exact .nothing
    · exact .nothing
  · next hp =>
    split
    · next hr => exact .pipe hp (atRest_iff.mp hr)
    · exact .nothing
  · next hp =>
    split
    · exact .nothing
    · exact .tty hp
    next hfd =>
    split
    · exact .close hp hfd
    · exact .nothing
  · next hp =>
    split
    · next hfd =>
      split
      · exact .keep hp hfd
      · exact .nothing
    · exact .nothing
  · exact .nothing

theorem Does.isPrivate (d : Does s t op s') : Private t s s' := by
  cases d with
  | nothing => exact .refl
  | ino => exact Private.refl.congr rfl rfl
  | start => exact Private.setPc.congr rfl rfl
  | device => exact Private.setFd.congr rfl rfl
  | fail => exact .setPc
  | found => exact .found
  | @truncated fd i v k flag =>
    have h₁ : Private t s (s.install t fd i v k flag) := .install
    exact h₁.congr rfl rfl
  | pipe =>
    rcases sysPipe_cases s t with e | ⟨i, j, fd, fd', v, -, -, -, -, -, e⟩
    · rw [e]
      exact .refl
    rw [e]
    have h₁ : Private t s (((s.setFd t fd (some (.slot i))).setFd t fd' (some (.slot j))).setPc t
        (.page fd fd' i j v)) := (Private.setFd.trans .setFd).trans .setPc
    exact h₁.congr rfl rfl
  | page => exact .endPipe
  | tty => exact .setFd
  | close => exact Private.setFd.congr closeEntry_filp.1 closeEntry_filp.2
  | keep => exact Private.refl.congr keep_filp.1 keep_filp.2

theorem pc_setPc {p : OpenPc} : (s.setPc t p).pc t = p := update_self ..

theorem found_pc (s : Opens nt) (t : Fin nt) (fd : Fin 64) (c : ℕ) (v : InodeRef) (k : InoKey) (flag : Word) :
    (s.found t fd c v k flag).pc t = .idle ∨
    ∃ i, (s.found t fd c v k flag).pc t = .truncate fd i v k flag := by
  unfold Opens.found
  split
  · exact .inl pc_setPc
  next i hi =>
  split
  · exact .inr ⟨i, pc_setPc⟩
  · exact .inl pc_setPc

theorem endPipe_pc : (s.endPipe t fd fd' i j v ok).pc t = .idle := by
  cases ok <;> exact pc_setPc

theorem PipeInv.does (inv : PipeInv s) (d : Does s t op s') : PipeInv s' := by
  refine inv.frame d.isPrivate fun fd fd' i j v hp => ?_
  -- only `sys_pipe()` leaves a task in `get_free_page()`
  have hno : ∀ {q : OpenPc}, s'.pc t = q → q = .idle ∨ (∃ fd c, q = .walk fd c) ∨
      (∃ fd i v k flag, q = .truncate fd i v k flag) → False := fun e hq => by
    rw [← e, hp] at hq
    simp at hq
  cases d with
  | nothing | ino => exact inv hp
  | start => exact (hno pc_setPc (.inr (.inl ⟨_, _, rfl⟩))).elim
  | device h => exact (hno h (.inl rfl)).elim
  | fail => exact (hno pc_setPc (.inl rfl)).elim
  | @found v' k flag fd₁ c h =>
    rcases found_pc s t fd₁ c v' k flag with e | ⟨i, e⟩
    · exact (hno e (.inl rfl)).elim
    · exact (hno e (.inr (.inr ⟨_, _, _, _, _, rfl⟩))).elim
  | truncated => exact (hno pc_setPc (.inl rfl)).elim
  | pipe h =>
    rcases sysPipe_cases s t with e | ⟨a, b, c, d, w, hi, hj, -, hd, -, e⟩
    · rw [e] at hp ⊢
      exact inv hp
    rw [e] at hp ⊢
    have hp' : OpenPc.page c d a b w = .page fd fd' i j v := pc_setPc.symm.trans hp
    cases hp'
    have hne := sysPipe_filp hd
    refine ⟨?_, update₂_self, claim_free_ne hi hj⟩
    show update₂ (update₂ s.filp t fd _) t fd' _ t fd = _
    rw [update₂_of_ne_right hne.symm]
    exact update₂_self
  | page => exact (hno endPipe_pc (.inl rfl)).elim
  | tty h => exact (hno h (.inl rfl)).elim
  | close h => exact (hno (by rw [closeEntry_filp.2]; exact h) (.inl rfl)).elim
  | keep h => exact (hno (by rw [keep_filp.2]; exact h) (.inl rfl)).elim

theorem EntryInv.does (inv : EntryInv s) (hpipe : PipeInv s) (d : Does s t op s') : EntryInv s' := by
  cases d with
  | nothing => exact inv
  | ino => exact inv.onTab _ s.calls
  | start => exact (inv.setPc (noTruncate (.inr (.inl ⟨_, _, rfl⟩)))).onTab _ _
  | device _ hi => exact (inv.claimFd t _ _ hi rfl).onTab _ _
  | fail => exact inv.setPc (noTruncate (.inl rfl))
  | found => exact inv.found
  | truncated hp => exact (inv.onTab _ s.calls).install hp
  | pipe => exact inv.sysPipe
  | page hp =>
    obtain ⟨h₁, h₂, h₃⟩ := hpipe hp
    exact inv.endPipe _ h₁ h₂ h₃
  | tty => exact inv.mono (fun h => h.clearFd.1) (fun _ => rfl) rfl
  | close _ hfd => exact inv.closeEntry hfd
  | keep =>
    unfold Opens.keep
    split
    · exact inv.onTab _ s.calls
    · exact inv

/-! ### What an open file refers to -/

theorem taskOf_ne_entry : (taskOf t : Fin (nt + 64)) ≠ entry i := fun e => by
  have := congrArg Fin.val e
  simp [taskOf, entry] at this
  omega

theorem taskOf_ne (e : t' ≠ t) : (taskOf t' : Fin (nt + 64)) ≠ taskOf t := fun h =>
  e (Fin.castAdd_injective nt 64 h)

theorem entry_ne (e : i ≠ j) : (entry i : Fin (nt + 64)) ≠ entry j := fun h =>
  e (Fin.natAdd_injective 64 nt h)

/-- The entries that are being made into a pipe. -/
def OpenPc.pending (i : Fin 64) : OpenPc → Prop
  | .page _ _ a b _ => i = a ∨ i = b
  | .idle | .walk .. | .truncate .. => False

/-- What holds of the references to inodes. -/
structure OpenInv (s : Opens nt) : Prop where
  tab : s.tab.TabInv
  free : ∀ {i}, (s.file i).fCount = 0#16 → s.tab.holds (entry i) = []
  claimed : ∀ {t fd i v k flag}, s.pc t = .truncate fd i v k flag →
    (v, k) ∈ s.tab.holds (taskOf t) ∧ s.tab.holds (entry i) = []
  paged : ∀ {t fd fd' i j v}, s.pc t = .page fd fd' i j v →
    (v, noKey) ∈ s.tab.holds (taskOf t) ∧ (s.tab.slot v).iCount = 1#8 ∧
      s.tab.holds (entry i) = [] ∧ s.tab.holds (entry j) = []
  filed : ∀ {t fd i}, s.filp t fd = some (.slot i) → ¬ OpenPc.pending i (s.pc t) →
    (s.tab.holds (entry i)).map Prod.fst = (s.file i).fInode.toList

/-- A step of the task `t` that has to do with the entries `E`, which are nobody else's. -/
structure Touches (E : Fin 64 → Prop) (t : Fin nt) (s s' : Opens nt) : Prop where
  priv : Private t s s'
  holds : ∀ t', t' ≠ t → s'.tab.holds (taskOf t') = s.tab.holds (taskOf t')
  rest : ∀ i, ¬ E i → s'.tab.holds (entry i) = s.tab.holds (entry i) ∧ s'.file i = s.file i
  own : ∀ i, E i → ∀ t' p, t' ≠ t → ¬ At s t' p i
  count : ∀ t' v, t' ≠ t → (∃ fd fd' i j, s.pc t' = .page fd fd' i j v) →
    (s'.tab.slot v).iCount = (s.tab.slot v).iCount

section
variable (inv : OpenInv s) {E : Fin 64 → Prop}
include inv

/-- Nobody but the task that makes a pipe holds its inode. -/
theorem OpenInv.sole (hp : s.pc t = .page fd fd' i j v) {x : Fin (nt + 64)}
    (hx : (v, k) ∈ s.tab.holds x) : x = taskOf t := by
  by_contra e
  obtain ⟨hv, hc, -⟩ := inv.paged hp
  have h₁ := s.tab.refsOf_add_le e v
  have h₂ := refsOf_pos hx
  have h₃ := refsOf_pos hv
  have h₄ := inv.tab.counted v
  rw [hc] at h₄
  have h₅ : (1#8).toNat = 1 := rfl
  omega

/-- What somebody else holds is not the inode of a pipe that is being made. -/
theorem OpenInv.page_ne {w : InodeRef} (hp : s.pc t' = .page fd fd' i j w) {x : Fin (nt + 64)}
    (hx : (v, k) ∈ s.tab.holds x) (e : taskOf t' ≠ x) : w ≠ v := by
  rintro rfl
  exact e (inv.sole hp hx).symm

/-- A step on the inode table leaves the inode of a pipe that is being made alone. -/
theorem OpenInv.reach {op : InoOp} (hp : s.pc t' = .page fd fd' i j v) (e : t' ≠ t)
    (hc : s.tab.Careful (taskOf t) op) : ¬ s.tab.Reach (taskOf t) op v := by
  obtain ⟨hv, h₁, -⟩ := inv.paged hp
  obtain ⟨hk, hl⟩ := inv.tab.owner hv
  rintro (h | h | ⟨k, h⟩ | ⟨k, h⟩ | ⟨k, h⟩)
  · rw [h₁] at h
    exact absurd h (by decide)
  · exact (hc.seeks _ h).1 (by rw [hk]; rfl)
  · exact taskOf_ne e (inv.sole hp h).symm
  · rw [(inv.tab.loading h).2.1] at hl
    cases hl
  · rw [(inv.tab.victim h).1] at h₁
    exact absurd h₁ (by decide)

/-- A step of the task `t` that has to do with the entries `E` keeps the invariant if what the task
itself has is in order. -/
theorem OpenInv.change (hpipe : PipeInv s) (c : Touches E t s s') (htab : s'.tab.TabInv)
    (hfree : ∀ i, E i → (s'.file i).fCount = 0#16 → s'.tab.holds (entry i) = [])
    (hclaimed : ∀ fd i v k flag, s'.pc t = .truncate fd i v k flag →
      (v, k) ∈ s'.tab.holds (taskOf t) ∧ s'.tab.holds (entry i) = [])
    (hpaged : ∀ fd fd' i j v, s'.pc t = .page fd fd' i j v →
      (v, noKey) ∈ s'.tab.holds (taskOf t) ∧ (s'.tab.slot v).iCount = 1#8 ∧
        s'.tab.holds (entry i) = [] ∧ s'.tab.holds (entry j) = [])
    (hfiled : ∀ fd i, s'.filp t fd = some (.slot i) → ¬ OpenPc.pending i (s'.pc t) →
      (s'.tab.holds (entry i)).map fst = (s'.file i).fInode.toList) : OpenInv s' where
  tab := htab
  free {i} h := by
    by_cases e : E i
    · exact hfree i e h
    rw [(c.rest i e).2] at h
    rw [(c.rest i e).1]
    exact inv.free h
  claimed {t' fd i v k flag} h := by
    by_cases e : t' = t
    · subst e
      exact hclaimed fd i v k flag h
    rw [c.priv.pc t' e] at h
    have hi : ¬ E i := fun hi => c.own i hi t' none e (.claimed h)
    rw [c.holds t' e, (c.rest i hi).1]
    exact inv.claimed h
  paged {t' fd fd' i j v} h := by
    by_cases e : t' = t
    · subst e
      exact hpaged fd fd' i j v h
    rw [c.priv.pc t' e] at h
    obtain ⟨h₁, h₂, -⟩ := hpipe h
    have hi : ¬ E i := fun hi => c.own i hi t' _ e (.filp h₁)
    have hj : ¬ E j := fun hj => c.own j hj t' _ e (.filp h₂)
    rw [c.holds t' e, (c.rest i hi).1, (c.rest j hj).1, c.count t' v e ⟨_, _, _, _, h⟩]
    exact inv.paged h
  filed {t' fd i} h hn := by
    by_cases e : t' = t
    · subst e
      exact hfiled fd i h hn
    rw [c.priv.filp t' e] at h
    rw [c.priv.pc t' e] at hn
    have hi : ¬ E i := fun hi => c.own i hi t' _ e (.filp h)
    rw [(c.rest i hi).1, (c.rest i hi).2]
    exact inv.filed h hn

/-- The same for a step after which the task is at no place where it waits with an entry. -/
theorem OpenInv.settle (hpipe : PipeInv s) (c : Touches E t s s') (htab : s'.tab.TabInv)
    (hfree : ∀ i, E i → (s'.file i).fCount = 0#16 → s'.tab.holds (entry i) = [])
    (hpc : s'.pc t = .idle ∨ ∃ fd c, s'.pc t = .walk fd c)
    (hfiled : ∀ fd i, s'.filp t fd = some (.slot i) →
      (s'.tab.holds (entry i)).map fst = (s'.file i).fInode.toList) : OpenInv s' := by
  refine inv.change hpipe c htab hfree (fun fd i v k flag h => ?_) (fun fd fd' i j v h => ?_)
    fun fd i h _ => hfiled fd i h
  · exact absurd h (noTruncate (hpc.imp_right .inl) fd i v k flag)
  · rw [h] at hpc
    simp at hpc

/-- The task steps on the inode table. -/
theorem OpenInv.onTab (hpipe : PipeInv s) {op : InoOp} (hc : s.tab.Careful (taskOf t) op)
    (hp : s.pc t = .idle ∨ ∃ fd c, s.pc t = .walk fd c) :
    OpenInv { s with tab := s.tab.step (taskOf t) op } := by
  have ha : InodeTab.Aside _ _ _ (s.tab.step (taskOf t) op) := InodeTab.Aside.step
  have hent : ∀ i, (s.tab.step (taskOf t) op).holds (entry i) = s.tab.holds (entry i) := fun i =>
    ha.holds _ taskOf_ne_entry.symm
  refine inv.settle (E := fun _ => False) hpipe ⟨Private.refl.congr rfl rfl,
    fun t' e => ha.holds _ (taskOf_ne e), fun i _ => ⟨hent i, rfl⟩, fun _ h => h.elim,
    fun t' v e ⟨fd, fd', i, j, h⟩ => ha.count v (inv.reach h e hc)⟩ (inv.tab.step hc) (fun _ h => h.elim) hp
    fun fd i h => ?_
  rw [hent]
  refine inv.filed h ?_
  rcases hp with e | ⟨fd, c, e⟩ <;> rw [e] <;> exact id

/-- The task does something else, and keeps what it has open or drops it. -/
theorem OpenInv.quiet (hpipe : PipeInv s) (hpriv : Private t s s') (htab : s'.tab = s.tab)
    (hfile : s'.file = s.file) (hfilp : ∀ fd i, s'.filp t fd = some (.slot i) → s.filp t fd = some (.slot i))
    (hp : s.pc t = .idle ∨ ∃ fd c, s.pc t = .walk fd c)
    (hp' : s'.pc t = .idle ∨ ∃ fd c, s'.pc t = .walk fd c) : OpenInv s' := by
  refine inv.settle (E := fun _ => False) hpipe ⟨hpriv, fun _ _ => by rw [htab],
    fun i _ => ⟨by rw [htab], by rw [hfile]⟩, fun _ h => h.elim, fun _ _ _ _ => by rw [htab]⟩
    (by rw [htab]; exact inv.tab) (fun _ h => h.elim) hp' fun fd i h => ?_
  rw [htab, hfile]
  refine inv.filed (hfilp fd i h) ?_
  rcases hp with e | ⟨fd, c, e⟩ <;> rw [e] <;> exact id

end

theorem careful_iput {x : Fin nt} (hfull : ∀ v, (tab.slot v).iCount ≠ 255#8) :
    tab.Careful x (.iput v k) where
  seeks k h := by cases h
  slot h := by rcases h with h | h <;> cases h
  waiter ok v k h := by cases h
  full := hfull

/-- The body of an inode may change. -/
theorem OpenInv.body (inv : OpenInv s) {m : MInode} (hk : m.key = s.tab.key v)
    (hc : m.iCount = (s.tab.slot v).iCount) : OpenInv { s with tab := s.tab.setSlot v m } where
  tab := inv.tab.body hk hc
  free h := inv.free h
  claimed h := inv.claimed h
  paged h := by
    obtain ⟨h₁, h₂, h₃⟩ := inv.paged h
    exact ⟨h₁, ((setSlot_same hk hc).2 _).trans h₂, h₃⟩
  filed h hn := inv.filed h hn

theorem empty_given {x : Fin nt} (hr : tab.pc x = .idle) (hf : tab.freeSlot = some v) :
    (v, noKey) ∈ (tab.step x .empty).holds x ∧ ((tab.step x .empty).slot v).iCount = 1#8 := by
  simp [InodeTab.step, hr, InodeTab.getEmptyInode, hf, InodeTab.give, InodeTab.setSlot, noKey]

theorem one_or_two : (1#8).toNat = 1 ∧ (2#8).toNat = 2 ∧ (0#8).toNat = 0 := ⟨rfl, rfl, rfl⟩

/-- An entry that is open holds what it refers to, and nothing else. -/
theorem OpenInv.held (inv : OpenInv s) (hp : s.pc t = .idle) (hfd : s.filp t fd = some (.slot i))
    (hv : (s.file i).fInode = some v) : ∃ k, s.tab.holds (entry i) = [(v, k)] := by
  have h := inv.filed hfd (by rw [hp]; exact id)
  rw [hv] at h
  obtain ⟨x, hx, e⟩ := map_eq_singleton_iff.mp h
  exact ⟨x.2, by rw [hx, ← e]⟩

theorem closeEntry_none (hv : (s.file i).fInode = none) : s.closeEntry i = s.release i ((s.file i).fCount - 1#16) := by
  unfold Opens.closeEntry
  rw [hv]

/-- An entry with one descriptor gives its inode back. -/
theorem closeEntry_some (hv : (s.file i).fInode = some v) (hc : (s.file i).fCount = 1#16) :
    ∃ m : MInode, m.key = s.tab.key v ∧ m.iCount = (s.tab.slot v).iCount - 1#8 ∧
      s.closeEntry i = { s.release i ((s.file i).fCount - 1#16) with
        tab := { s.tab.setSlot v m with holds := update s.tab.holds (entry i) [] } } := by
  obtain ⟨m, hm, hmk, hmc⟩ := s.tab.iput_eq v
  refine ⟨m, hmk, hmc, ?_⟩
  have hzero : (s.file i).fCount - 1#16 = 0#16 := by rw [hc]; rfl
  unfold Opens.closeEntry
  rw [hv, ← hm]
  simp only
  rw [if_pos hzero]

section
variable (inv : OpenInv s) (he : EntryInv s) (hpipe : PipeInv s)
include inv he hpipe

/-- The reference goes from the task to the entry. -/
theorem OpenInv.install (hp : s.pc t = .truncate fd i v k flag) : OpenInv (s.install t fd i v k flag) := by
  obtain ⟨hv, hi⟩ := inv.claimed hp
  set s' := s.install t fd i v k flag
  have hother : ∀ x, x ≠ taskOf t → x ≠ entry i → s'.tab.holds x = s.tab.holds x := fun x h₁ h₂ =>
    (update_of_ne h₂ _ _).trans (update_of_ne h₁ _ _)
  have hentry : s'.tab.holds (entry i) = [(v, k)] := update_self ..
  have hfile : ∀ a, a ≠ i → s'.file a = s.file a := fun a e => update_of_ne e _ _
  have htab : s'.tab.TabInv := by
    refine inv.tab.recount rfl rfl rfl (fun _ => rfl) id (fun x w k' h => ?_) (fun w hw => absurd rfl hw) fun w => ?_
    · exact inv.tab.handed hv h
    · exact congrArg (_ + ·) (total_handed hv taskOf_ne_entry.symm hi w).symm
  refine inv.settle hpipe ⟨.install, fun t' e => hother _ (taskOf_ne e) taskOf_ne_entry,
    fun a e => ⟨hother _ taskOf_ne_entry.symm (entry_ne e), hfile a e⟩,
    fun a e t' p ht' hat => ht' (he.sole (e ▸ hat) (.claimed hp)).1, fun _ _ _ _ => rfl⟩ htab (fun a e h => ?_)
    (.inl pc_setPc) fun fd₁ a h => ?_
  · have h₁ := (he.install hp).used (.filp update₂_self)
    rw [e, h₁] at h
    exact absurd h (by decide)
  obtain ⟨-, ⟨⟩⟩ | ⟨-, h'⟩ := of_update₂_eq h
  · rw [hentry]
    show _ = (update s.file _ _ _).fInode.toList
    rw [update_self]
    rfl
  have ha : a ≠ i := fun e => by
    subst e
    cases (he.sole (.filp h') (.claimed hp)).2
  rw [hother _ taskOf_ne_entry.symm (entry_ne ha), hfile a ha]
  exact inv.filed h' (by rw [hp]; exact id)

/-- A free entry is taken, and the inode kept for it. -/
theorem OpenInv.claim (flag : Word) (hp : s.pc t = .walk fd c) (hi : (s.file i).fCount = 0#16)
    (hv : (v, k) ∈ s.tab.holds (taskOf t)) : OpenInv ((s.claim i f c).setPc t (.truncate fd i v k flag)) := by
  have hfile : ∀ a, a ≠ i → ((s.claim i f c).setPc t (.truncate fd i v k flag)).file a = s.file a := fun a e =>
    update_of_ne e _ _
  refine inv.change hpipe ⟨Private.setPc.congr rfl rfl, fun _ _ => rfl,
    fun a e => ⟨rfl, hfile a e⟩, fun a e t' p _ hat => he.unused (e ▸ hi) hat, fun _ _ _ _ => rfl⟩ inv.tab
    (fun a e h => ?_) (fun fd i v k flag h => ?_) (fun fd fd' i j v h => ?_) fun fd₁ a h _ => ?_
  · rw [e]
    exact inv.free hi
  · cases pc_setPc.symm.trans h
    exact ⟨hv, inv.free hi⟩
  · cases pc_setPc.symm.trans h
  · have ha : a ≠ i := fun e => he.unused (e ▸ hi) (.filp h)
    rw [hfile a ha]
    exact inv.filed h (by rw [hp]; exact id)

theorem OpenInv.found (hp : s.pc t = .walk fd c) (hv : (v, k) ∈ s.tab.holds (taskOf t))
    (hfull : ∀ v, (s.tab.slot v).iCount ≠ 255#8) : OpenInv (s.found t fd c v k flag) := by
  unfold Opens.found
  cases hi : s.freeFile with
  | none =>
    have h₁ := inv.onTab hpipe (careful_iput (v := v) (k := k) hfull) (.inr ⟨fd, c, hp⟩)
    exact h₁.quiet hpipe (Private.setPc.congr rfl rfl) rfl rfl (fun _ _ h => h) (.inr ⟨fd, c, hp⟩)
      (.inl pc_setPc)
  | some i =>
    have hci := freeFile_some hi
    have h₁ := inv.claim he hpipe flag (f := { fCount := 1#16 }) hp hci hv
    simp only
    split
    · exact h₁
    have hpipe₁ : PipeInv ((s.claim i { fCount := 1#16 } c).setPc t (.truncate fd i v k flag)) :=
      hpipe.frame (Private.setPc.congr rfl rfl) fun _ _ _ _ _ h => by cases pc_setPc.symm.trans h
    have h₂ := h₁.install (he.claimOpen t fd c v k flag hci) hpipe₁ pc_setPc
    rwa [claim_install] at h₂

/-- An entry that no inode belongs to. -/
theorem OpenInv.device {n : ℕ} (hp : s.pc t = .idle) (hi : (s.file i).fCount = 0#16) (hf : f.fInode = none) :
    OpenInv { (s.claim i f c).setFd t fd (some (.slot i)) with calls := n } := by
  have hfile : ∀ a, a ≠ i → ((s.claim i f c).setFd t fd (some (.slot i))).file a = s.file a := fun a e =>
    update_of_ne e _ _
  have hn : ∀ a, ¬ OpenPc.pending a (s.pc t) := fun a => by rw [hp]; exact id
  refine inv.settle hpipe ⟨Private.setFd.congr rfl rfl, fun _ _ => rfl,
    fun a e => ⟨rfl, hfile a e⟩, fun a e t' p _ hat => he.unused (e ▸ hi) hat, fun _ _ _ _ => rfl⟩ inv.tab
    (fun a e h => ?_) (.inl hp) fun fd₁ a h => ?_
  · rw [e]
    exact inv.free hi
  by_cases e : a = i
  · subst e
    show map fst (s.tab.holds (entry a)) = (update s.file a f a).fInode.toList
    rw [inv.free hi, update_self, hf]
    rfl
  have h' : s.filp t fd₁ = some (.slot a) := by
    obtain ⟨-, ⟨⟩⟩ | ⟨-, h⟩ := of_update₂_eq h
    · exact absurd rfl e
    · exact h
  show map fst (s.tab.holds (entry a)) = (update s.file i f a).fInode.toList
  rw [update_of_ne e]
  exact inv.filed h' (hn a)

theorem OpenInv.sysPipe (hp : s.pc t = .idle) (hr : s.tab.pc (taskOf t) = .idle)
    (hc : s.tab.Careful (taskOf t) .empty) : OpenInv (s.sysPipe t) := by
  rcases sysPipe_cases s t with e | ⟨i, j, fd, fd', v, hi, hj, hfd, hfd', hf, e⟩
  · rwa [e]
  have hpriv : Private t s (s.sysPipe t) := (Does.pipe hp hr).isPrivate
  have hij := claim_free_ne hi hj
  have hj' : (s.file j).fCount = 0#16 := by simpa [Opens.claim, hij.symm] using hj
  have ha : InodeTab.Aside _ _ _ (s.tab.step (taskOf t) .empty) := InodeTab.Aside.step
  have hent : ∀ i, (s.tab.step (taskOf t) .empty).holds (entry i) = s.tab.holds (entry i) := fun i =>
    ha.holds _ taskOf_ne_entry.symm
  have htab : (s.sysPipe t).tab = s.tab.step (taskOf t) .empty := by rw [e]
  have hpc : (s.sysPipe t).pc t = .page fd fd' i j v := by rw [e]; exact pc_setPc
  have hfile : ∀ a, ¬ (a = i ∨ a = j) → (s.sysPipe t).file a = s.file a := fun a h => by
    rw [e]
    exact (update_of_ne (fun e => h (.inr e)) _ _).trans (update_of_ne (fun e => h (.inl e)) _ _)
  have hfree : ∀ a, a = i ∨ a = j → (s.file a).fCount = 0#16 := by
    rintro a (rfl | rfl)
    · exact hi
    · exact hj'
  refine inv.change hpipe ⟨hpriv,
    fun t' e => by rw [htab]; exact ha.holds _ (taskOf_ne e), fun a h => ⟨by rw [htab]; exact hent a, hfile a h⟩,
    fun a h t' p _ hat => he.unused (hfree a h) hat,
    fun t' v e ⟨fd, fd', i, j, h⟩ => by rw [htab]; exact ha.count v (inv.reach h e hc)⟩
    (by rw [htab]; exact inv.tab.step hc) (fun a h _ => ?_) (fun fd i v k flag h => ?_) (fun fd fd' i j v h => ?_)
    fun fd₁ a h hn => ?_
  · rw [htab, hent]
    exact inv.free (hfree a h)
  · cases hpc.symm.trans h
  · cases hpc.symm.trans h
    rw [htab, hent, hent, inv.free hi, inv.free hj']
    obtain ⟨h₁, h₂⟩ := empty_given hr hf
    exact ⟨h₁, h₂, rfl, rfl⟩
  rw [hpc] at hn
  have h' : s.filp t fd₁ = some (.slot a) := by
    rw [e] at h
    obtain ⟨-, ⟨⟩⟩ | ⟨-, h⟩ := of_update₂_eq h
    · exact absurd (.inr rfl) hn
    obtain ⟨-, ⟨⟩⟩ | ⟨-, h⟩ := of_update₂_eq h
    · exact absurd (.inl rfl) hn
    · exact h
  rw [htab, hent, hfile a hn]
  exact inv.filed h' (by rw [hp]; exact id)

/-- What `sys_pipe()` does to its two entries after its sleep is nobody else's affair. -/
theorem OpenInv.endPipe_touches (hp : s.pc t = .page fd fd' i j v)
    (hother : ∀ x, x ≠ taskOf t → x ≠ entry i → x ≠ entry j →
      (s.endPipe t fd fd' i j v ok).tab.holds x = s.tab.holds x) :
    Touches (fun a => a = i ∨ a = j) t s (s.endPipe t fd fd' i j v ok) := by
  obtain ⟨hv, -⟩ := inv.paged hp
  obtain ⟨hfd, hfd', -⟩ := hpipe hp
  refine ⟨.endPipe, fun t' e => hother _ (taskOf_ne e) taskOf_ne_entry taskOf_ne_entry, fun a h => ⟨?_, ?_⟩,
    fun a h t' p e hat => ?_, fun t' w e ⟨_, _, _, _, h⟩ => ?_⟩
  · exact hother _ taskOf_ne_entry.symm (entry_ne fun e => h (.inl e)) (entry_ne fun e => h (.inr e))
  · cases ok <;> exact (update_of_ne (fun e => h (.inr e)) _ _).trans (update_of_ne (fun e => h (.inl e)) _ _)
  · rcases h with rfl | rfl
    · exact e (he.sole hat (.filp hfd)).1
    · exact e (he.sole hat (.filp hfd')).1
  · have hw := inv.page_ne h hv (taskOf_ne e)
    cases ok <;> exact congrArg MInode.iCount (update_of_ne hw _ _)

/-- The pipe gets its page: one reference becomes two. -/
theorem OpenInv.endPipe_true (hp : s.pc t = .page fd fd' i j v) : OpenInv (s.endPipe t fd fd' i j v true) := by
  obtain ⟨hv, hc, hi, hj⟩ := inv.paged hp
  obtain ⟨hfd, hfd', hij⟩ := hpipe hp
  have hji : (entry j : Fin (nt + 64)) ≠ entry i := entry_ne hij.symm
  set s' := s.endPipe t fd fd' i j v true
  have hother : ∀ x, x ≠ taskOf t → x ≠ entry i → x ≠ entry j → s'.tab.holds x = s.tab.holds x := fun x h₁ h₂ h₃ =>
    (update_of_ne h₃ _ _).trans ((update_of_ne h₂ _ _).trans (update_of_ne h₁ _ _))
  have hei : s'.tab.holds (entry i) = [(v, noKey)] := (update_of_ne hji.symm _ _).trans (update_self ..)
  have hej : s'.tab.holds (entry j) = [(v, noKey)] := update_self ..
  have hfi : (s'.file i).fInode = some v := by
    show (update (update s.file i (pipeEnd (s.file i) v 1#16)) j _ i).fInode = _
    rw [update_of_ne hij, update_self]
    rfl
  have hfj : (s'.file j).fInode = some v := by
    show File.fInode (update (update s.file i _) j (pipeEnd (s.file j) v 2#16) j) = _
    rw [update_self]
    rfl
  have htotal : ∀ w, total s'.tab.holds (fun l => (l.map fst).count w) =
      total s.tab.holds (fun l => (l.map fst).count w) + if v = w then 1 else 0 := fun w => by
    have h₁ := total_update
      (update (update s.tab.holds (taskOf t) ((s.tab.holds (taskOf t)).erase (v, noKey)))
        (entry i) [(v, noKey)]) (fun l => (l.map fst).count w) (entry j) [(v, noKey)]
    rw [update_of_ne hji, update_of_ne taskOf_ne_entry.symm, hj, total_handed hv taskOf_ne_entry.symm hi] at h₁
    simp only [map_nil, count_nil, map_cons, count_singleton, beq_iff_eq] at h₁
    exact h₁
  have htab : s'.tab.TabInv := by
    refine inv.tab.recount_slot hv rfl (fun x w k' h => ?_) (fun w e => ?_) ?_
    · rcases of_mem_update h with h | h
      · exact inv.tab.owner ((mem_singleton.mp h).symm ▸ hv)
      · exact inv.tab.handed hv h
    · have := htotal w
      rwa [if_neg (fun h => e h.symm)] at this
    · have h₁ := htotal v
      rw [if_pos rfl] at h₁
      have h₂ := one_or_two
      rw [hc]
      show (2#8).toNat + _ = _
      change total (update _ _ _) _ = _ at h₁
      omega
  have touches : Touches (fun a => a = i ∨ a = j) t s s' := inv.endPipe_touches he hpipe hp hother
  refine inv.settle hpipe touches htab (fun a h hz => ?_) (.inl endPipe_pc) fun fd₁ a h => ?_
  · have h₁ : ∀ fd₁, s.filp t fd₁ = some (.slot a) → False := fun fd₁ h => by
      rw [(he.endPipe true hfd hfd' hij).used (.filp h)] at hz
      exact absurd hz (by decide)
    rcases h with rfl | rfl
    · exact (h₁ fd hfd).elim
    · exact (h₁ fd' hfd').elim
  by_cases e : a = i ∨ a = j
  · rcases e with rfl | rfl
    · rw [hei, hfi]
      rfl
    · rw [hej, hfj]
      rfl
  · rw [(touches.rest a e).1, (touches.rest a e).2]
    exact inv.filed h (by rw [hp]; exact e)

/-- The pipe gets no page: everything is given back. -/
theorem OpenInv.endPipe_false (hp : s.pc t = .page fd fd' i j v) : OpenInv (s.endPipe t fd fd' i j v false) := by
  obtain ⟨hv, hc, hi, hj⟩ := inv.paged hp
  obtain ⟨hfd, hfd', hij⟩ := hpipe hp
  set s' := s.endPipe t fd fd' i j v false
  have hother : ∀ x, x ≠ taskOf t → s'.tab.holds x = s.tab.holds x := fun x h₁ => update_of_ne h₁ _ _
  have hfilp : ∀ fd₁ a, s'.filp t fd₁ = some (.slot a) →
      s.filp t fd₁ = some (.slot a) ∧ fd₁ ≠ fd ∧ fd₁ ≠ fd' := fun fd₁ a h => by
    obtain ⟨-, ⟨⟩⟩ | ⟨e₁, h⟩ := of_update₂_eq h
    obtain ⟨-, ⟨⟩⟩ | ⟨e₂, h⟩ := of_update₂_eq h
    exact ⟨h, e₂, e₁⟩
  have htab : s'.tab.TabInv := by
    refine inv.tab.recount_update hv rfl (fun x h => .inl (mem_of_mem_erase h)) (fun w e => ?_) ?_
    · have h₁ := count_map_erase fst hv w
      rw [if_neg (fun h => e h.symm)] at h₁
      exact h₁.symm
    · have h₁ := count_map_erase fst hv v
      rw [if_pos rfl] at h₁
      have h₂ := one_or_two
      rw [hc]
      show (0#8).toNat + _ = _
      omega
  have touches : Touches (fun a => a = i ∨ a = j) t s s' :=
    inv.endPipe_touches he hpipe hp fun x h _ _ => hother x h
  refine inv.settle hpipe touches htab (fun a h _ => ?_) (.inl endPipe_pc) fun fd₁ a h => ?_
  · rw [hother _ taskOf_ne_entry.symm]
    rcases h with rfl | rfl
    · exact hi
    · exact hj
  obtain ⟨h', e₁, e₂⟩ := hfilp fd₁ a h
  have hne : ¬ (a = i ∨ a = j) := by
    rintro (rfl | rfl)
    · exact e₁ (Option.some.inj (he.sole (.filp h') (.filp hfd)).2)
    · exact e₂ (Option.some.inj (he.sole (.filp h') (.filp hfd')).2)
  rw [(touches.rest a hne).1, (touches.rest a hne).2]
  exact inv.filed h' (by rw [hp]; exact hne)

/-- The last descriptor of an entry is closed. -/
theorem OpenInv.closeEntry (hp : s.pc t = .idle) (hfd : s.filp t fd = some (.slot i)) :
    OpenInv ((s.setFd t fd none).closeEntry i) := by
  have hc := he.used (.filp hfd)
  have hn : ∀ a, ¬ OpenPc.pending a (s.pc t) := fun a => by rw [hp]; exact id
  have hpriv : Private t s ((s.setFd t fd none).closeEntry i) := (Does.close hp hfd).isPrivate
  -- `s'` is what `closeEntry_none` and `closeEntry_some` say it is
  generalize hs' : (s.setFd t fd none).closeEntry i = s' at hpriv
  have hpc : s'.pc t = .idle := by rw [← hs', closeEntry_filp.2]; exact hp
  have hfilp : ∀ fd₁ a, s'.filp t fd₁ = some (.slot a) → s.filp t fd₁ = some (.slot a) ∧ a ≠ i := fun fd₁ a h => by
    rw [← hs', closeEntry_filp.1] at h
    obtain ⟨-, ⟨⟩⟩ | ⟨e, h'⟩ := of_update₂_eq h
    refine ⟨h', fun ea => e ?_⟩
    subst ea
    exact Option.some.inj (he.sole (.filp h') (.filp hfd)).2
  have hown : ∀ a, a = i → ∀ t' p, t' ≠ t → ¬ At s t' p a := fun a e t' p ht' hat =>
    ht' (he.sole (e ▸ hat) (.filp hfd)).1
  -- from here on both cases give the same: what the task has left is as it was
  have hend : Touches (fun a => a = i) t s s' → s'.tab.TabInv → s'.tab.holds (entry i) = [] → OpenInv s' :=
    fun touches htab hnil => by
    refine inv.settle hpipe touches htab (fun a e _ => e ▸ hnil) (.inl hpc) fun fd₁ a h => ?_
    obtain ⟨h', ea⟩ := hfilp fd₁ a h
    rw [(touches.rest a ea).1, (touches.rest a ea).2]
    exact inv.filed h' (hn a)
  cases hv : (s.file i).fInode with
  | none =>
    have hnil : s.tab.holds (entry i) = [] := by
      have h := inv.filed hfd (hn i)
      rw [hv] at h
      exact map_eq_nil_iff.mp h
    obtain rfl := hs'.symm.trans (closeEntry_none hv)
    exact hend ⟨hpriv, fun _ _ => rfl, fun a e => ⟨rfl, update_of_ne e _ _⟩, hown, fun _ _ _ _ => rfl⟩ inv.tab hnil
  | some v =>
    obtain ⟨k, hk⟩ := inv.held hp hfd hv
    have hmem : (v, k) ∈ s.tab.holds (entry i) := by rw [hk]; exact mem_singleton.mpr rfl
    obtain ⟨m, hmk, hmc, hs⟩ := closeEntry_some (s := s.setFd t fd none) hv hc
    obtain rfl := hs'.symm.trans hs
    change m.iCount = (s.tab.slot v).iCount - 1#8 at hmc
    refine hend ⟨hpriv, fun t' e => update_of_ne taskOf_ne_entry _ _,
      fun a e => ⟨update_of_ne (entry_ne e) _ _, update_of_ne e _ _⟩, hown, fun t' w e ⟨_, _, _, _, h⟩ =>
      congrArg MInode.iCount (update_of_ne (inv.page_ne h hmem taskOf_ne_entry) _ _)⟩ ?_ (update_self ..)
    refine inv.tab.recount_update hmem hmk (fun x h => (by cases h)) (fun w e => ?_) ?_
    · have hne : (v == w) = false := by simpa using fun h => e h.symm
      simp [hk, count_singleton, hne]
    · have hpos : 1 ≤ (s.tab.slot v).iCount.toNat := by
        rw [inv.tab.counted]
        exact le_trans (refsOf_pos hmem) (s.tab.refsOf_le _ v)
      have h₁ := Bits.toNat_pred hpos
      rw [hmc, hk]
      simp only [map_cons, map_nil, count_singleton_self, count_nil]
      omega

end

/-- `sys_execve()` takes a reference of its own. -/
theorem OpenInv.keep (inv : OpenInv s) (hpipe : PipeInv s) (hp : s.pc t = .idle)
    (hfd : s.filp t fd = some (.slot i)) (hfull : ∀ v, (s.tab.slot v).iCount ≠ 255#8) : OpenInv (s.keep t i) := by
  cases hv : (s.file i).fInode with
  | none =>
    have hs : s.keep t i = s := by simp only [Opens.keep, hv]
    rwa [hs]
  | some v =>
    obtain ⟨k, hk⟩ := inv.held hp hfd hv
    have hmem : (v, k) ∈ s.tab.holds (entry i) := by rw [hk]; exact mem_singleton.mpr rfl
    have hs : s.keep t i = { s with
        tab := { s.tab.setSlot v { s.tab.slot v with iCount := (s.tab.slot v).iCount + 1#8 } with
          holds := update s.tab.holds (taskOf t) ((v, k) :: s.tab.holds (taskOf t)) } } := by
      simp only [Opens.keep, hv, resolved, hk, head?_cons, Option.map_some]
    have hother : ∀ x, x ≠ taskOf t → (s.keep t i).tab.holds x = s.tab.holds x := fun x e => by
      rw [hs]
      exact update_of_ne e _ _
    have htab : (s.keep t i).tab.TabInv := by
      rw [hs]
      refine inv.tab.recount_update hmem rfl (fun x h => (mem_cons.mp h).symm) (fun w e => ?_) ?_
      · exact count_cons_of_ne fun h => e h.symm
      · have h₁ := Bits.toNat_succ (hfull v)
        rw [map_cons, count_cons_self]
        simp only
        omega
    have hpc : (s.keep t i).pc t = .idle := by
      rw [keep_filp.2]
      exact hp
    refine inv.settle (E := fun _ => False) hpipe ⟨(Does.keep hp hfd).isPrivate,
      fun t' e => hother _ (taskOf_ne e), fun a _ => ⟨hother _ taskOf_ne_entry.symm, by rw [hs]⟩, fun _ h => h.elim,
      fun t' w e ⟨_, _, _, _, h⟩ => ?_⟩ htab (fun _ h => h.elim) (.inl hpc) fun fd₁ a h => ?_
    · rw [hs]
      exact congrArg MInode.iCount (update_of_ne (inv.page_ne h hmem taskOf_ne_entry) _ _)
    · rw [keep_filp.1] at h
      rw [hother _ taskOf_ne_entry.symm, show (s.keep t i).file = s.file by rw [hs]]
      exact inv.filed h (by rw [hp]; exact id)

/-- **A careful step keeps the references in order.** -/
theorem OpenInv.does (inv : OpenInv s) (he : EntryInv s) (hpipe : PipeInv s)
    (hc : Careful s (t, op)) (d : Does s t op s') : OpenInv s' := by
  have hop := hc.tab
  cases d with
  | nothing => exact inv
  | ino hp =>
    refine inv.onTab hpipe (hop _ ?_) hp
    rcases hp with hp | ⟨fd, c, hp⟩ <;> simp only [tabOp, hp]
  | start hp =>
    exact inv.quiet hpipe (Private.setPc.congr rfl rfl) rfl rfl (fun _ _ h => h) (.inl hp)
      (.inr ⟨_, _, pc_setPc⟩)
  | device hp hi => exact inv.device he hpipe hp hi rfl
  | fail hp =>
    exact inv.quiet hpipe .setPc rfl rfl (fun _ _ h => h) (.inr ⟨_, _, hp⟩) (.inl pc_setPc)
  | found hp hv => exact inv.found he hpipe hp hv hc.full
  | truncated hp =>
    exact (inv.body (m := truncateInode (s.tab.slot _)) rfl rfl).install (he.onTab _ s.calls) hpipe hp
  | pipe hp hr => exact inv.sysPipe he hpipe hp hr (hop _ (by simp only [tabOp, hp]))
  | @page ok fd fd' i j v hp =>
    cases ok with
    | true => exact inv.endPipe_true he hpipe hp
    | false => exact inv.endPipe_false he hpipe hp
  | @tty fd hp =>
    refine inv.quiet hpipe .setFd rfl rfl (fun fd₁ a h => ?_) (.inl hp) (.inl hp)
    obtain ⟨-, ⟨⟩⟩ | ⟨-, h⟩ := of_update₂_eq h
    exact h
  | close hp hfd => exact inv.closeEntry he hpipe hp hfd
  | keep hp hfd => exact inv.keep hpipe hp hfd hc.full

/-! ### Runs -/

theorem entryInv_boot (nt : ℕ) (super : BitVec 16 → Bool) (disk : InoKey → DInode) :
    EntryInv (boot nt super disk) ∧ PipeInv (boot nt super disk) := by
  have hat : ∀ {t p i}, ¬ At (boot nt super disk) t p i := fun h => by
    cases h with
    | @filp fd i h =>
      change (if fd.val < 3 then some FileRef.tty else none) = _ at h
      split at h <;> cases h
    | claimed h => cases h
  exact ⟨⟨fun h => absurd h hat, fun h => absurd h hat, fun _ => .inl ⟨rfl, rfl⟩⟩, fun _ _ _ _ _ _ h => by cases h⟩

theorem openInv_boot (nt : ℕ) (super : BitVec 16 → Bool) (disk : InoKey → DInode) :
    OpenInv (boot nt super disk) where
  tab := tabInv_init _ super disk
  free _ := rfl
  claimed h := by cases h
  paged h := by cases h
  filed {t fd i} h := by
    change (if fd.val < 3 then some FileRef.tty else none) = _ at h
    split at h <;> cases h

theorem entryInv_step {x : Fin nt × OpenOp} (h : EntryInv s ∧ PipeInv s) :
    EntryInv (s.step x) ∧ PipeInv (s.step x) :=
  ⟨h.1.does h.2 (step_does s x.1 x.2), h.2.does (step_does s x.1 x.2)⟩

/-- The inode that an open file refers to is the one that its name has led to. -/
theorem OpenInv.resolved (inv : OpenInv s) (hfd : s.filp t fd = some (.slot i))
    (hn : ¬ OpenPc.pending i (s.pc t)) : (s.file i).fInode.map s.tab.key = s.resolved i := by
  have h := inv.filed hfd hn
  unfold Opens.resolved
  cases hv : (s.file i).fInode with
  | none =>
    rw [hv] at h
    rw [map_eq_nil_iff.mp h]
    rfl
  | some v =>
    rw [hv] at h
    obtain ⟨x, hx, e⟩ := map_eq_singleton_iff.mp h
    rw [hx, ← e]
    have := (inv.tab.owner (by rw [hx]; exact mem_singleton.mpr rfl)).1
    exact congrArg some this

/-- **Opens that overlap.**  In every run an entry of `file_table[]` is in use exactly if it has been
handed to a call, and never to two; and if the steps on the inode table are careful, every descriptor that
a call has returned refers to the inode that its name has led to. -/
theorem opens_apart (super : BitVec 16 → Bool) (disk : InoKey → DInode) (ops : List (Fin nt × OpenOp)) :
    (∀ i, (((boot nt super disk).run ops).users i).length ≤ 1 ∧
      ((((boot nt super disk).run ops).file i).fCount = 0#16 ↔ ((boot nt super disk).run ops).users i = [])) ∧
    (CarefulRun (boot nt super disk) ops → ∀ t fd i, ((boot nt super disk).run ops).filp t fd = some (.slot i) →
        ¬ OpenPc.pending i (((boot nt super disk).run ops).pc t) →
        (((boot nt super disk).run ops).file i).fInode.map ((boot nt super disk).run ops).tab.key =
          ((boot nt super disk).run ops).resolved i) := by
  refine ⟨fun i => ?_, fun hrun t fd i hfd hn => ?_⟩
  · have inv : EntryInv ((boot nt super disk).run ops) ∧ PipeInv ((boot nt super disk).run ops) :=
      Run.inv (I := fun s : Opens nt => EntryInv s ∧ PipeInv s) entryInv_step ops (entryInv_boot nt super disk)
    rcases inv.1.handed i with ⟨h₁, h₂⟩ | ⟨h₁, c, h₂⟩
    · rw [h₁, h₂]
      exact ⟨Nat.zero_le _, ⟨fun _ => rfl, fun _ => rfl⟩⟩
    · rw [h₁, h₂]
      exact ⟨le_refl _, ⟨fun h => absurd h (by decide), nofun⟩⟩
  · have inv : (EntryInv ((boot nt super disk).run ops) ∧ PipeInv ((boot nt super disk).run ops)) ∧
        OpenInv ((boot nt super disk).run ops) :=
      Run.Guarded.inv (I := fun s : Opens nt => (EntryInv s ∧ PipeInv s) ∧ OpenInv s)
        (fun {s x} h hc => ⟨entryInv_step h.1, h.2.does h.1.1 h.1.2 hc (step_does s x.1 x.2)⟩) hrun
        ⟨entryInv_boot nt super disk, openInv_boot nt super disk⟩
    exact inv.2.resolved hfd hn

/-- One device with empty inodes. -/
def oneDisk (nt : ℕ) : Opens nt := boot nt (fun d => d = 1#16) fun _ => {}

/-- A task opens a file while another one is in `sys_open()`. -/
def opensX : List (Fin 2 × OpenOp) :=
  [(0, .start), (0, .ino (.iget InodeTab.inodeX)), (1, .start), (0, .ino (.resume true)),
    (0, .found 0 InodeTab.inodeX 0#32)]

theorem opensX_refers : ((oneDisk 2).run opensX).filp 0 3 = some (.slot 0) ∧
    (((oneDisk 2).run opensX).file 0).fInode.map ((oneDisk 2).run opensX).tab.key = some InodeTab.inodeX := by
  have hrun : CarefulRun (oneDisk 2) opensX := by
    refine ⟨⟨fun op h => (by cases h), by decide⟩, ⟨fun op h => ?_, by decide⟩, ⟨fun op h => (by cases h), by decide⟩,
      ⟨fun op h => ?_, by decide⟩, ⟨fun op h => (by cases h), by decide⟩, trivial⟩
    · cases h
      refine ⟨fun k hk => ?_, fun _ => (by decide), fun ok v k he => (by cases he), by decide⟩
      cases hk
      decide
    · cases h
      exact ⟨fun k hk => (by cases hk), fun _ => (by decide), fun ok v k _ hp => (by cases hp), by decide⟩
  refine ⟨by decide, ((opens_apart _ _ opensX).2 hrun 0 3 0 (by decide) ?_).trans (by decide)⟩
  exact id

/-- **Two tasks open two files.**  Both lookups choose the same dirty slot and write it back; the second
takes the slot from the first, whose descriptor refers to the second one's file. -/
def clash : List (Fin 2 × OpenOp) :=
  [(0, .ino (.iget InodeTab.inodeZ)), (0, .ino (.resume true)),
    (0, .ino (.modify 0 InodeTab.inodeZ { iSize := 1#32 })), (0, .ino (.iput 0 InodeTab.inodeZ)),
    (0, .start), (0, .ino (.iget InodeTab.inodeX)), (1, .start), (1, .ino (.iget InodeTab.inodeY)),
    (0, .ino (.resume true)), (0, .ino (.resume true)), (1, .ino (.resume true)), (1, .ino (.resume true)),
    (0, .ino (.resume true)), (0, .found 0 InodeTab.inodeX 0#32)]

theorem clash_misses : ((oneDisk 2).run clash).filp 0 3 = some (.slot 0) ∧
    ((oneDisk 2).run clash).resolved 0 = some InodeTab.inodeX ∧
    (((oneDisk 2).run clash).file 0).fInode.map ((oneDisk 2).run clash).tab.key = some InodeTab.inodeY := by
  decide

end Opens
end Linux001

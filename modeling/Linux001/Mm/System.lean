import Linux001.Mm.InvOps

/-!
# Mm — the system and its runs

The memory manager with its users: tasks that load and store, fork and exit, kernel owners of
pages, and the reclaimer.  `step` is one operation, run to its end; `run` is any sequence of
them.  An operation whose precondition does not hold (a directory that is not live, a slot that
is in use) changes nothing.

`live` and `kern` are the directories and the kernel pages that have been handed out and not
given back; no function of the kernel reads them.
-/

namespace Linux001

open Function

structure Sys where
  mm : Mm
  tk : TaskTable
  cr0 : Word
  live : Finset Frame
  kern : Finset Frame

/-- An operation on memory.  The first five may be called for any number of directories, with or
without a task; in the next three, which are those of `sys_execve`, `sys_fork` and `sys_exit`,
every directory belongs to a task slot. -/
inductive Op where
  /-- `alloc_user_pgdir()`. -/
  | create
  /-- `task[n] = t`, for a task without a user directory or with a live one. -/
  | setTask (n : Slot) (t : Option Task)
  /-- `copy_page_tables(d, d')` into a fresh directory, followed by `free_user_space(d')` if it
  fails. -/
  | copy (d d' : Frame)
  /-- `free_user_space(d)`, and no task has the directory any more. -/
  | free (d : Frame)
  /-- A load or store by the task in slot `n`, in Ring3 or through the kernel's `get_fs_byte()`
  and `put_fs_byte()`, with its page faults. -/
  | access (fs : FsView) (n : Slot) (user : Bool) (a : Access)
  /-- A new address space for the task in slot `n`. -/
  | spawn (n : Slot) (t : Task)
  /-- The task in slot `n` forks into the free slot `n'`. -/
  | fork (n n' : Slot)
  /-- The task in slot `n` exits. -/
  | exit (n : Slot)
  /-- `get_free_page()` by a kernel owner. -/
  | kget
  /-- `free_page()` by the owner of `f`. -/
  | kfree (f : Frame)
  /-- The owner of `f` fills it. -/
  | kwrite (f : Frame) (p : Page)
  /-- `try_to_free_page()`. -/
  | reclaim

/-- Every directory the operation makes belongs to a task slot. -/
def Op.Owned : Op → Prop
  | .create | .setTask .. | .copy .. | .free _ => False
  | _ => True

/-- `p->pg_dir = d`. -/
def Task.withDir (t : Task) (d : Option Frame) : Task := { t with pgDir := d }

@[simp] theorem Task.withDir_pgDir (t : Task) (d : Option Frame) : (t.withDir d).pgDir = d := rfl

/-- No task has the directory `d` any more. -/
def detach (tk : TaskTable) (d : Frame) : TaskTable := fun n =>
  (tk n).map fun t => if t.pgDir = some d then t.withDir none else t

/-- `CR0.WP`. -/
def wpOf (cr0 : Word) : Bool := Bits.has cr0 0x10000#32

/-- The executable that backed the task's image is released. -/
def Task.releaseExe (t : Task) : Task := { t with exeInode := none, nrExeRegions := 0 }

namespace Sys

/-- `free_user_space(d)`. -/
def free (s : Sys) (d : Frame) : Sys :=
  { s with mm := freeUserSpace s.mm d, tk := detach s.tk d, live := s.live.erase d }

/-- What the memory manager sees of `sys_exit`: the executable is released, and unless this is
`task[0]` the address space is given back. -/
def exit (s : Sys) (n : Slot) : Sys :=
  match s.tk n with
  | none => s
  | some t =>
    let s₁ := { s with tk := update s.tk n (some t.releaseExe) }
    if n = 0 then s₁
    else
      match t.pgDir with
      | none => s₁
      | some d => s₁.free d

/-- A load or store by the task in slot `n`; a task that the fault handler kills exits. -/
def access (s : Sys) (fs : FsView) (n : Slot) (user : Bool) (a : Access) : Outcome × Sys :=
  match s.tk n with
  | none => (.killed, s)
  | some t =>
    match cpuAccess fs s.tk t (wpOf s.cr0) user a 2 s.mm with
    | (.killed, m) => (.killed, { s with mm := m }.exit n)
    | (r, m) => (r, { s with mm := m })

/-- The directory's user window is empty. -/
def Fresh (s : Sys) (d : Frame) : Prop :=
  ∀ pt, s.mm.userPt (some d) = some pt → ∀ i, s.mm.mem pt i = 0#32

/-- The slot has no user address space. -/
def Vacant (s : Sys) (n : Slot) : Prop := ∀ t, s.tk n = some t → t.pgDir = none

instance (s : Sys) (d : Frame) : Decidable (s.Fresh d) :=
  match h : s.mm.userPt (some d) with
  | none => isTrue fun pt hp => by rw [h] at hp; cases hp
  | some pt =>
    decidable_of_iff (∀ i, s.mm.mem pt i = 0#32)
      ⟨fun hz pt' hp => by rw [h] at hp; cases hp; exact hz, fun hz => hz pt h⟩

instance (s : Sys) (n : Slot) : Decidable (s.Vacant n) :=
  match h : s.tk n with
  | none => isTrue fun t ht => by rw [h] at ht; cases ht
  | some t =>
    decidable_of_iff (t.pgDir = none)
      ⟨fun hz t' ht => by rw [h] at ht; cases ht; exact hz, fun hz => hz t h⟩

/-- The address-space half of `sys_fork`: the child's slot is filled before its directory is
allocated, and emptied again if that or the copy fails. -/
def fork (s : Sys) (n' : Slot) (t : Task) (d : Frame) : Sys :=
  match allocUserPgdir (update s.tk n' (some (t.withDir none))) s.mm with
  | (none, m₁) => { s with mm := m₁ }
  | (some d', m₁) =>
    let tk₁ := update s.tk n' (some (t.withDir (some d')))
    match copyPageTables tk₁ m₁ d d' with
    | (some _, m₂) => { s with mm := m₂, tk := tk₁, live := insert d' s.live }
    | (none, m₂) => { s with mm := freeUserSpace m₂ d' }

end Sys

open Sys in
/-- **One operation.** -/
def step (s : Sys) : Op → Sys
  | .create =>
    match allocUserPgdir s.tk s.mm with
    | (none, m) => { s with mm := m }
    | (some d, m) => { s with mm := m, live := insert d s.live }
  | .setTask n t =>
    if ∀ t' ∈ t, ∀ d ∈ t'.pgDir, d ∈ s.live then { s with tk := update s.tk n t } else s
  | .copy d d' =>
    if d ∈ s.live ∧ d' ∈ s.live ∧ d' ≠ d ∧ s.Fresh d' then
      match copyPageTables s.tk s.mm d d' with
      | (some _, m) => { s with mm := m }
      | (none, m) => { s with mm := m }.free d'
    else s
  | .free d => if d ∈ s.live then s.free d else s
  | .access fs n user a =>
    if user ∨ pdeIx a.addr = userPdeIndex then (s.access fs n user a).2 else s
  | .spawn n t =>
    if s.Vacant n then
      match allocUserPgdir s.tk s.mm with
      | (none, m) => { s with mm := m }
      | (some d, m) =>
        { s with
          mm := m, tk := update s.tk n (some (t.withDir (some d)))
          live := insert d s.live }
    else s
  | .fork n n' =>
    match s.tk n, s.tk n' with
    | some t, none =>
      match t.pgDir with
      | none => s
      | some d => s.fork n' t d
    | _, _ => s
  | .exit n => s.exit n
  | .kget =>
    match getFreePage s.tk s.mm with
    | (none, m) => { s with mm := m }
    | (some f, m) => { s with mm := m, kern := insert f s.kern }
  | .kfree f =>
    if f ∈ s.kern then { s with mm := s.mm.freePage (frameAddr f), kern := s.kern.erase f } else s
  | .kwrite f p => if f ∈ s.kern then { s with mm := s.mm.setPage f p } else s
  | .reclaim => { s with mm := (tryToFreePage s.tk s.mm).2 }

/-- **A run.** -/
def run (s : Sys) (ops : List Op) : Sys := ops.foldl step s

end Linux001

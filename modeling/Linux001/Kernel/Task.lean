import Linux001.Layout

/-!
# Kernel — the task structure

`struct task_struct` of `include/linux/sched.h`, with the fields the modelled code reads or
writes.  `task[]` has 64 slots; a task is named by its slot, which is also its pid, so
comparing task pointers is comparing slots.  A page directory pointer of 0 ("kernel only") is
`none`.  Open files and in-core inodes are named by their place in `file_table[]` and
`inode_table[]`; the console's `tty_file` is a file of its own.
-/

namespace Linux001

/-- A slot of `inode_table[NR_INODE]`. -/
abbrev InodeRef := Fin 64

/-- A `struct file`: the console's, or a slot of `file_table[NR_FILE]`. -/
inductive FileRef where
  | tty
  | slot (i : Fin 64)
  deriving DecidableEq

/-- A slot of `task[NR_TASKS]`. -/
abbrev Slot := Fin 64

inductive TaskState where
  | running | interruptible | uninterruptible | zombie | stopped
  deriving DecidableEq

/-- `struct exe_region`: a LOAD segment of the executable, page aligned. -/
structure ExeRegion where
  va : Word := 0#32
  fileOff : Word := 0#32
  filesz : Word := 0#32
  memsz : Word := 0#32
  flags : Word := 0#32
  deriving DecidableEq

/-- `struct tss_struct`. -/
structure Tss where
  backLink : Word := 0#32
  esp0 : Word := 0#32
  ss0 : Word := 0#32
  esp1 : Word := 0#32
  ss1 : Word := 0#32
  esp2 : Word := 0#32
  ss2 : Word := 0#32
  cr3 : Word := 0#32
  eip : Word := 0#32
  eflags : Word := 0#32
  eax : Word := 0#32
  ecx : Word := 0#32
  edx : Word := 0#32
  ebx : Word := 0#32
  esp : Word := 0#32
  ebp : Word := 0#32
  esi : Word := 0#32
  edi : Word := 0#32
  es : Word := 0#32
  cs : Word := 0#32
  ss : Word := 0#32
  ds : Word := 0#32
  fs : Word := 0#32
  gs : Word := 0#32
  ldt : Word := 0#32
  traceBitmap : Word := 0#32
  deriving DecidableEq

/-- `struct task_struct`. -/
structure Task where
  state : TaskState := .running
  counter : Word := 0#32
  priority : Word := 0#32
  signal : Word := 0#32
  exitCode : Word := 0#32
  handlers : Fin 32 → Word := fun _ => 0#32
  pwd : Option InodeRef := none
  root : Option InodeRef := none
  uid : BitVec 16 := 0#16
  euid : BitVec 16 := 0#16
  suid : BitVec 16 := 0#16
  gid : BitVec 16 := 0#16
  egid : BitVec 16 := 0#16
  sgid : BitVec 16 := 0#16
  alarm : Word := 0#32
  umask : BitVec 16 := 0#16
  tss : Tss := {}
  filp : Fin 64 → Option FileRef := fun _ => none
  pid : Word := 0#32
  parent : Word := 0#32
  pgrp : Word := 0#32
  session : Word := 0#32
  leader : Word := 0#32
  pgDir : Option Frame := none
  startCode : Word := 0#32
  endCode : Word := 0#32
  endData : Word := 0#32
  brk : Word := 0#32
  startStack : Word := 0#32
  exeInode : Option InodeRef := none
  exeRegions : Fin 4 → ExeRegion := fun _ => {}
  nrExeRegions : ℕ := 0

/-- `task[NR_TASKS]`. -/
abbrev TaskTable := Slot → Option Task

/-- The regions in use, in table order: `exe_regions[0 .. nr_exe_regions - 1]`. -/
def Task.regions (t : Task) : List ExeRegion := ((List.finRange 4).take t.nrExeRegions).map t.exeRegions

/-- The test `va >= r->va && va < r->va + r->memsz`; the sum wraps at 32 bits. -/
def ExeRegion.covers (r : ExeRegion) (va : Word) : Bool := r.va ≤ va ∧ va < r.va + r.memsz

/-- The first region that covers `va`. -/
def Task.regionAt (t : Task) (va : Word) : Option ExeRegion := t.regions.find? (·.covers va)

end Linux001

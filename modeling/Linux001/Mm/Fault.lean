import Linux001.Mm.Space

/-!
# Mm — page faults and the CPU's side of them

`do_no_page()` with its three cases, and the processor that raises the fault: `walk` is the
386's translation of an address with its protection checks and its error code.  A faulting
instruction is retried when the handler returns.

Of the Accessed and Dirty bits only those of page-table entries are kept: no kernel code reads a
directory entry's.  The TLB is left out; the source flushes it after every change to the running
task's entries.
-/

namespace Linux001

/-- **`un_wp_page`** for the current task's directory.  `false` is `-1`. -/
def unWpPage (tk : TaskTable) (m : Mm) (pgdir : Frame) (addr : Word) : Bool × Mm :=
  match m.pteSlot pgdir addr with
  | none => (false, m)
  | some (pt, i) =>
    if present (m.mem pt i) then
      let old := frameOf (m.mem pt i)
      match getFreePage tk m with
      | (none, m₁) => (false, m₁)
      | (some new, m₁) =>
        let m₂ := m₁.setPage new (m₁.mem old)
        (true, (m₂.setWord pt i (mapEntry new)).freePage (frameAddr old))
    else (false, m)

/-- A page that is out on the swap device comes back. -/
def swapInFault (tk : TaskTable) (m : Mm) (pgdir : Frame) (va : Word) (slot : ℕ) : Bool × Mm :=
  match getFreePage tk m with
  | (none, m₁) => (false, m₁)
  | (some pa, m₁) =>
    match m₁.swapInPage slot pa with
    | (true, m₂) => (true, (m₂.swapFreeSlot slot).mapUserPage pgdir va pa)
    | (false, m₂) => (false, m₂.freePage (frameAddr pa))

/-- What the demand path puts into the fresh page for `va`: `p` is the zeroed frame. -/
def demandFill (fs : FsView) (t : Task) (va : Word) (p : Page) : Page :=
  if userProgStart ≤ va ∧ va < userProgEnd then (pageInImage fs t va p).2 else p

/-- A page is handed out on first touch, filled before it is mapped. -/
def demandFault (fs : FsView) (tk : TaskTable) (t : Task) (m : Mm) (pgdir : Frame) (va : Word) :
    Bool × Mm :=
  match getFreePage tk m with
  | (none, m₁) => (false, m₁)
  | (some pa, m₁) =>
    (true, (m₁.setPage pa (demandFill fs t va (m₁.mem pa))).mapUserPage pgdir va pa)

/-- The not-present case of `do_no_page`, for a legal user address. -/
def missingPage (fs : FsView) (tk : TaskTable) (t : Task) (m : Mm) (pgdir : Frame) (va : Word) :
    Bool × Mm :=
  match m.pteSlot pgdir va with
  | none => demandFault fs tk t m pgdir va
  | some (pt, i) =>
    if swapped (m.mem pt i) ∧ present (m.mem pt i) = false then
      swapInFault tk m pgdir va (swapSlot (m.mem pt i))
    else demandFault fs tk t m pgdir va

/-- **`do_no_page`** for the current task `t`.  `true` means that it returns and the faulting
instruction is retried, `false` that it ends in `sys_exit(128 + SIGSEGV)`. -/
def doNoPage (fs : FsView) (tk : TaskTable) (t : Task) (m : Mm) (err addr : Word) : Bool × Mm :=
  match t.pgDir with
  | none => (false, m)
  | some pgdir =>
    if present err then
      if writable err then
        match m.pteSlot pgdir addr with
        | none => (false, m)
        | some (pt, i) => if cow (m.mem pt i) then unWpPage tk m pgdir addr else (false, m)
      else (false, m)
    else if userAddrOk addr 1#32 then missingPage fs tk t m pgdir (pageBase addr)
    else (false, m)

/-! ### The processor -/

/-- A load or a store of one byte. -/
inductive Access where
  | load (addr : Word)
  | store (addr : Word) (b : Byte)
  deriving DecidableEq

def Access.addr : Access → Word
  | .load a | .store a _ => a

def Access.write : Access → Bool
  | .load _ => false
  | .store .. => true

/-- The offset of an address in its page. -/
def pageOffset (addr : Word) : Fin 4096 := ⟨addr.toNat % 4096, Nat.mod_lt _ (by omega)⟩

/-- The error code the processor pushes. -/
def faultCode (prot write user : Bool) : Word :=
  (if prot then ptePresent else 0#32) ||| (if write then pteRw else 0#32) |||
    (if user then pteUser else 0#32)

/-- The processor's walk through the directory: the page-table entry that translates `addr`, or
the error code of the fault.  A supervisor's write is checked against the RW bits only if
`CR0.WP` is set. -/
def Mm.walk (m : Mm) (wp : Bool) (pgdir : Frame) (addr : Word) (write user : Bool) :
    Except Word (Frame × Ix) :=
  let pde := m.mem pgdir (pdeIx addr)
  if present pde then
    let pte := m.mem (frameOf pde) (pteIx addr)
    if present pte then
      if user ∧ ¬ (userBit pde ∧ userBit pte) then .error (faultCode true write user)
      else if write ∧ (user ∨ wp) ∧ ¬ (writable pde ∧ writable pte) then
        .error (faultCode true write user)
      else .ok (frameOf pde, pteIx addr)
    else .error (faultCode false write user)
  else .error (faultCode false write user)

/-- The access through the entry `i` of `pt`, which is present: the processor sets Accessed, and
Dirty on a write.  The byte read, or written. -/
def Mm.perform (m : Mm) (pt : Frame) (i : Ix) : Access → Byte × Mm
  | .load a => (getByte (m.mem (frameOf (m.mem pt i))) (pageOffset a), m.setWord pt i (m.mem pt i ||| pteAccessed))
  | .store a b =>
    let f := frameOf (m.mem pt i)
    let m₁ := m.setWord pt i (m.mem pt i ||| pteAccessed ||| pteDirty)
    (b, m₁.setPage f (setByte (m₁.mem f) (pageOffset a) b))

/-- How an access ends: with the byte, or with the task killed by the fault handler. `again` is
left when the retries run out. -/
inductive Outcome where
  | done (b : Byte)
  | killed
  | again
  deriving DecidableEq

/-- The access of the task `t` with its faults, at most `k` of them.  The instruction is retried
whenever `do_no_page` returns. -/
def cpuAccess (fs : FsView) (tk : TaskTable) (t : Task) (wp user : Bool) (a : Access) :
    ℕ → Mm → Outcome × Mm
  | 0, m => (.again, m)
  | k + 1, m =>
    match t.pgDir with
    | none => (.killed, m)
    | some pgdir =>
      match m.walk wp pgdir a.addr a.write user with
      | .ok (pt, i) => (.done (m.perform pt i a).1, (m.perform pt i a).2)
      | .error err =>
        match doNoPage fs tk t m err a.addr with
        | (false, m₁) => (.killed, m₁)
        | (true, m₁) => cpuAccess fs tk t wp user a k m₁

end Linux001

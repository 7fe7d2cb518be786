import Linux001.Lib.Loop
import Linux001.Mm.State

/-!
# Mm — reclaiming a page

`try_to_free_page()` and `get_free_page()`.  The scanner walks every task's page table in two
clock rounds of three passes and returns at the first page it can take: an all-zero page, a page
of a non-writable image region, or a private page written to swap.  If there is none, it unmaps
the first copy-on-write page it saw.

The walk is four nested loops that may return, so it is a fold in `Except`: `.error (ok, m)` is
`return ok` in the state `m`.
-/

namespace Linux001
open Bits

/-- **`is_clean_text`.**  The first region that covers `va` is not writable. -/
def isCleanText (t : Task) (va : Word) : Bool :=
  match t.exeInode with
  | none => false
  | some _ =>
    match t.regionAt va with
    | none => false
    | some r => !has r.flags 2#32

/-- The state of the scan: `fallback_pt` is the entry remembered, `none` for `NULL`. -/
structure Scan where
  mm : Mm
  fallback : Option (Frame × Ix)

namespace Mm

/-- `evict_cursor = (evict_cursor + n + 1) % NR_TASKS`. -/
def advance (m : Mm) (n : ℕ) : Mm :=
  { m with evictCursor := (m.evictCursor + n + 1) % nrTasks }

/-- A present entry is emptied and its page freed (passes 0 and 1). -/
def dropEntry (m : Mm) (pt : Frame) (i : Ix) : Mm :=
  (m.setWord pt i 0#32).freePage (frameAddr (frameOf (m.mem pt i)))

/-- A page that has been written to `slot` gives way to its swap entry (pass 2). -/
def storeSwapEntry (m : Mm) (pt : Frame) (i : Ix) (slot : ℕ) : Mm :=
  { (m.setWord pt i (swapEntry slot)).freePage (frameAddr (frameOf (m.mem pt i))) with
    wentOut := update₂ m.wentOut pt i (m.mem (frameOf (m.mem pt i))) }

/-- The copy-on-write fallback: `*fallback_pt = 0`, and `nr_unmapped++`. -/
def dropShare (m : Mm) (pt : Frame) (i : Ix) : Mm :=
  { m.setWord pt i 0#32 with nrUnmapped := m.nrUnmapped + 1 }

end Mm

/-- The body of the innermost loop of `try_to_free_page`, at entry `i` of the table `pt` of the
`n`th task visited. -/
def scanPage (round pass n : ℕ) (t : Task) (pt : Frame) (s : Scan) (i : Ix) :
    Except (Bool × Mm) Scan :=
  let m := s.mm
  let pte := m.mem pt i
  if !present pte || !userBit pte then .ok s
  else if round = 0 ∧ accessed pte then
    .ok { s with mm := m.setWord pt i (pte &&& ~~~pteAccessed) }
  else if pass = 0 ∧ cow pte = false ∧ m.pageIsZero (frameOf pte) then
    .error (true, (m.dropEntry pt i).advance n)
  else if pass = 1 ∧ cow pte = false ∧ isCleanText t (userVa i) then
    .error (true, (m.dropEntry pt i).advance n)
  else if pass = 2 ∧ cow pte = false then
    match m.swapOutPage (frameOf pte) with
    | (none, m₁) => .ok { s with mm := m₁ }
    | (some slot, m₁) =>
      -- the disk driver slept: the entry is read again before it is rewritten
      if m₁.mem pt i ≠ pte then .error (false, m₁.swapFreeSlot slot)
      else .error (true, (m₁.storeSwapEntry pt i slot).advance n)
  else if cow pte ∧ s.fallback = none then .ok { s with fallback := some (pt, i) }
  else .ok s

/-- The slot visited `n`th: `(evict_cursor + n) % NR_TASKS`. -/
def Mm.visited (m : Mm) (n : ℕ) : Slot := ⟨(m.evictCursor + n) % 64, Nat.mod_lt _ (by omega)⟩

/-- One task of the scan: kernel-only tasks and tasks without a page table are passed over. -/
def scanTask (tk : TaskTable) (round pass : ℕ) (s : Scan) (n : ℕ) : Except (Bool × Mm) Scan :=
  match tk (s.mm.visited n) with
  | none => .ok s
  | some t =>
    if t.pgDir = none ∨ t.pgDir = some kernelPgDir then .ok s
    else
      match s.mm.userPt t.pgDir with
      | none => .ok s
      | some pt => (List.finRange 1024).foldlM (scanPage round pass n t pt) s

/-- The two rounds of three passes. -/
@[irreducible] def scanAll (tk : TaskTable) (s : Scan) : Except (Bool × Mm) Scan :=
  (List.range 2).foldlM (fun s round =>
    (List.range 3).foldlM (fun s pass =>
      (List.range nrTasks).foldlM (scanTask tk round pass) s) s) s

/-- Entry `i` of the task in slot `n`, if the scan looks at it: the task, its table and the
entry. -/
def Mm.scanned (m : Mm) (tk : TaskTable) (n : Slot) (i : Ix) : Option (Task × Frame × Word) :=
  match tk n with
  | none => none
  | some t =>
    if t.pgDir = none ∨ t.pgDir = some kernelPgDir then none
    else
      (m.userPt t.pgDir).bind fun pt =>
        if present (m.mem pt i) && userBit (m.mem pt i) then some (t, pt, m.mem pt i) else none

/-- A page that one of the three passes takes, as long as the disk does not fail. -/
def Mm.takeable (m : Mm) (t : Task) (i : Ix) (pte : Word) : Bool :=
  !cow pte && (m.pageIsZero (frameOf pte) || isCleanText t (userVa i) || m.findSlot.isSome)

/-- There is nothing to take but a copy-on-write mapping: some entry the scan looks at is
copy-on-write, and none is private and zero, private and of a non-writable region, or private
with a swap slot free. -/
def Starved (tk : TaskTable) (m : Mm) : Prop :=
  (∃ n i, ∃ x ∈ m.scanned tk n i, cow x.2.2 = true) ∧ ∀ n i, ∀ x ∈ m.scanned tk n i, m.takeable x.1 i x.2.2 = false

instance (tk : TaskTable) (m : Mm) : Decidable (Starved tk m) :=
  inferInstanceAs (Decidable (_ ∧ _))

/-- The history variable `nrStarved` at a call of `try_to_free_page`. -/
@[irreducible] def Mm.noteStarved (m : Mm) (tk : TaskTable) : Mm :=
  { m with nrStarved := m.nrStarved + if Starved tk m then 1 else 0 }

/-- **`try_to_free_page`.** -/
@[irreducible] def tryToFreePage (tk : TaskTable) (m : Mm) : Bool × Mm :=
  match scanAll tk ⟨m.noteStarved tk, none⟩ with
  | .error r => r
  | .ok s =>
    match s.fallback with
    | some (pt, i) => (true, s.mm.dropShare pt i)
    | none => (false, s.mm)

/-- The body of the retry loop of `get_free_page`. -/
def retryBody (tk : TaskTable) (m : Mm) (_ : ℕ) : Except (Option Frame × Mm) Mm :=
  match tryToFreePage tk m with
  | (false, m₁) => .error (none, m₁)
  | (true, m₁) =>
    match m₁.findFree with
    | some f => .error (some f, m₁.takeFrame f)
    | none => .ok m₁

/-- **`get_free_page`.** -/
@[irreducible] def getFreePage (tk : TaskTable) (m : Mm) : Option Frame × Mm :=
  match m.findFree with
  | some f => (some f, m.takeFrame f)
  | none =>
    match (List.range 32).foldlM (retryBody tk) { m with nrReclaims := m.nrReclaims + 1 } with
    | .error r => r
    | .ok m₁ => (none, m₁)

end Linux001

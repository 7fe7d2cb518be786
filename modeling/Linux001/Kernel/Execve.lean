import Linux001.Fs.Open
import Linux001.Kernel.Exec

/-!
# Kernel — a failed `sys_execve()`

The whole of `sys_execve()`, with every point where it gives up.  The region table of the new image
is written into the caller's task while the call can still fail, and neither `fail_as` nor `fail`
puts the old one back (`execve_failed_iff`).

`look` is what `namei()` comes to, `argv` the argument strings as they have been collected; what is
written into the tail page is left out, and so are the names of devices, which have no inode.
-/

namespace Linux001

open Function

/-! ### The parts -/

/-- What `sys_execve` reads of the ELF header. -/
structure ElfHdr where
  entry : Word
  phoff : Word
  phentsize : BitVec 16
  phnum : BitVec 16

def ElfHdr.ofBytes (b : List Byte) : ElfHdr := ⟨rd32 b 24, rd32 b 28, rd16 b 42, rd16 b 44⟩

/-- The header, if it can be read, is an i386 one and the program starts inside the image. -/
def readElf (bread : Bread) (ino : MInode) : Option ElfHdr :=
  let r := fileRead bread ino 0#32 52
  let h := ElfHdr.ofBytes r.2
  if r.1 ≠ 52 then none
  else if rd32 r.2 0 ≠ 0x464C457F#32 ∨ rd16 r.2 18 ≠ 3#16 then none
  else if h.entry < userProgStart ∨ userProgEnd ≤ h.entry then none
  else some h

/-- The program header loop, over the caller's region table. -/
def execImage (bread : Bread) (ino : MInode) (h : ElfHdr) (t : Task) : Bool × Image :=
  Image.loadAll (readPhdr bread ino h.phoff h.phentsize) (min h.phnum.toNat 16) 0
    { region := t.exeRegions }

/-- The loop writes into the task. -/
def Task.withImage (t : Task) (m : Image) : Task :=
  { t with exeRegions := m.region, nrExeRegions := m.nr }

/-- The strings are packed down from `sp`; none may reach the argument array, which ends at `top`. -/
def argvFits (top : ℤ) : ℤ → List (List Byte) → Bool
  | _, [] => true
  | sp, a :: l => if sp - (a.length + 1) < top then false else argvFits top (sp - (a.length + 1)) l

/-- `USER_ARGV_STR_TOP - 1` and the end of `argv[]`, as offsets in the tail page. -/
def argvOk (argv : List (List Byte)) : Bool :=
  argvFits (12 + (argv.length + 1) * 4) (0x100 - 1) argv.reverse

/-- **`sys_close`.** -/
def sysClose (s : Tables) (t : Task) (fd : Fin 64) : Tables × Task :=
  match t.filp fd with
  | none => (s, t)
  | some .tty => (s, { t with filp := update t.filp fd none })
  | some (.slot i) =>
    let f := { s.file i with fCount := (s.file i).fCount - 1#16 }
    let s₁ := { s with file := update s.file i f }
    (match f.fInode with
      | some e => if f.fCount = 0#16 then s₁.drop e else s₁
      | none => s₁, { t with filp := update t.filp fd none })

/-- `inode->i_count++`. -/
def Tables.hold (s : Tables) (e : InodeRef) : Tables :=
  { s with inode := update s.inode e { s.inode e with iCount := (s.inode e).iCount + 1#8 } }

/-- `current->filp[fd]->f_inode`. -/
def openInode (s : Tables) (t : Task) (fd : Fin 64) : Option InodeRef :=
  match t.filp fd with
  | some (.slot i) => (s.file i).fInode
  | _ => none

/-! ### The call -/

/-- The state of the caller: the tables, its task and memory. -/
structure Caller where
  s : Tables
  t : Task
  m : Mm

def Caller.close (c : Caller) (fd : Fin 64) : Caller :=
  { c with s := (sysClose c.s c.t fd).1, t := (sysClose c.s c.t fd).2 }

/-- How far the call gets before it touches the region table. -/
inductive ExecHead where
  | failed (c : Caller)
  /-- The file `e` is open as `fd`, and `d` is the new directory. -/
  | ready (c : Caller) (fd : Fin 64) (e : InodeRef) (h : ElfHdr) (d : Frame)

/-- **`sys_execve`, up to the program headers.** -/
def execHead (look : Lookup) (bread : Bread) (tk : TaskTable) (c : Caller) : ExecHead :=
  match sysOpen (fun s _ => s) look 0#16 c.s c.t 0#32 with
  | (none, s₁, t₁) => .failed { c with s := s₁, t := t₁ }
  | (some fd, s₁, t₁) =>
    let c₁ : Caller := { c with s := s₁, t := t₁ }
    match openInode s₁ t₁ fd with
    | none => .failed (c₁.close fd)
    | some e =>
      if permission t₁ (s₁.inode e) mayExec = false then .failed (c₁.close fd)
      else
        match readElf bread (s₁.inode e) with
        | none => .failed (c₁.close fd)
        | some h =>
          match allocUserPgdir tk c.m with
          | (none, m₁) => .failed { c₁.close fd with m := m₁ }
          | (some d, m₁) => .ready { c₁ with m := m₁ } fd e h d

/-- **The rest of `sys_execve`.**  `true` if the new program runs. -/
def execBody (bread : Bread) (tk : TaskTable) (argv : List (List Byte)) (c : Caller) (fd : Fin 64)
    (e : InodeRef) (h : ElfHdr) (d : Frame) : Bool × Caller :=
  let r := execImage bread (c.s.inode e) h c.t
  let c₁ : Caller := { c with t := c.t.withImage r.2 }
  if r.1 = false then (false, { c₁.close fd with m := freeUserSpace c.m d })
  else
    let c₂ := Caller.close { c₁ with s := c.s.hold e } fd
    if userProgEnd < r.2.maxEnd ∨ (0#32 < r.2.maxEnd ∧ r.2.maxEnd ≤ userProgStart) then
      (false, { c₂ with s := c₂.s.drop e, m := freeUserSpace c.m d })
    else
      match allocUserPage tk c.m d userStackTop with
      | (none, m₁) => (false, { c₂ with s := c₂.s.drop e, m := freeUserSpace m₁ d })
      | (some _, m₁) =>
        if argvOk argv = false then (false, { c₂ with s := c₂.s.drop e, m := freeUserSpace m₁ d })
        else
          (true,
            { s := match c₂.t.exeInode with
                | none => c₂.s
                | some e' => c₂.s.drop e'
              t :=
                { c₂.t with
                  pgDir := some d, startCode := userProgStart, endCode := r.2.maxEnd
                  endData := r.2.maxEnd, brk := userHeapStart, startStack := userStackTop
                  exeInode := some e }
              m := match c₂.t.pgDir with
                | none => m₁
                | some d' => if d' = kernelPgDir then m₁ else freeUserSpace m₁ d' })

/-- **`sys_execve`.** -/
def sysExecve (look : Lookup) (bread : Bread) (tk : TaskTable) (argv : List (List Byte)) (c : Caller) :
    Bool × Caller :=
  match execHead look bread tk c with
  | .failed c₁ => (false, c₁)
  | .ready c₁ fd e h d => execBody bread tk argv c₁ fd e h d

/-- The segments of the headers that the loop gets through: up to the first one that cannot be read, or
that is outside the image. -/
def passed (read : ℕ → Option Phdr) : ℕ → ℕ → List Phdr
  | 0, _ => []
  | n + 1, i =>
    match read i with
    | none => []
    | some p =>
      if p.skipped then passed read n (i + 1)
      else
        match p.trim with
        | none => []
        | some q => if q.outside then [] else q :: passed read n (i + 1)

/-- **The headers give back the table that the task has**: the first four segments that the loop gets
through are those the task has regions for. -/
def Task.SameSegments (t : Task) (read : ℕ → Option Phdr) (n : ℕ) : Prop :=
  ((passed read n 0).take 4).length = t.nrExeRegions ∧ ((passed read n 0).take 4).map Phdr.region = t.regions

/-! ### What is restored -/

/-- `namei` holds what it returns, and changes no other reference. -/
def Lookup.Holds (look : Lookup) : Prop :=
  ∀ s, (look s).2.file = s.file ∧ ∀ x, ((look s).2.inode x).iCount =
    if (look s).1 = some x then (s.inode x).iCount + 1#8 else (s.inode x).iCount

/-- The descriptors, the counts of the files and those of the inodes are as they were. -/
structure SameRefs (c c' : Caller) : Prop where
  filp : c'.t.filp = c.t.filp
  file : ∀ i, (c'.s.file i).fCount = (c.s.file i).fCount
  inode : ∀ x, (c'.s.inode x).iCount = (c.s.inode x).iCount

section
variable {look : Lookup} {bread : Bread} {tk : TaskTable} {argv : List (List Byte)} {c c₁ c' : Caller}
variable {fd : Fin 64} {e : InodeRef} {h : ElfHdr} {d : Frame} {s s₁ : Tables} {t t₁ : Task}

/-- A file has been opened: a descriptor and a slot that were free, and an inode, held. -/
def Opened (c c₁ : Caller) (fd : Fin 64) (e : InodeRef) : Prop :=
  ∃ i, c.t.filp fd = none ∧ (c.s.file i).fCount = 0#16 ∧ c₁.t.filp = update c.t.filp fd (some (.slot i)) ∧
    (∀ j, (c₁.s.file j).fCount = if j = i then 1#16 else (c.s.file j).fCount) ∧
    (c₁.s.file i).fInode = some e ∧
    ∀ x, (c₁.s.inode x).iCount = if x = e then (c.s.inode x).iCount + 1#8 else (c.s.inode x).iCount

theorem drop_iCount (s : Tables) (e x : InodeRef) : ((s.drop e).inode x).iCount =
    if x = e then (s.inode x).iCount - 1#8 else (s.inode x).iCount := by
  unfold Tables.drop
  by_cases hx : x = e
  · subst hx
    simp [MInode.unhold]
  · simp [hx]

theorem hold_iCount (s : Tables) (e x : InodeRef) : ((s.hold e).inode x).iCount =
    if x = e then (s.inode x).iCount + 1#8 else (s.inode x).iCount := by
  unfold Tables.hold
  by_cases hx : x = e
  · subst hx
    simp
  · simp [hx]

/-- A hold that was taken and is dropped again. -/
theorem drop_of_held {s : Tables} {e : InodeRef} {a : InodeRef → BitVec 8}
    (h : ∀ x, (s.inode x).iCount = if x = e then a x + 1#8 else a x) (x : InodeRef) :
    ((s.drop e).inode x).iCount = a x := by
  rw [drop_iCount, h]
  by_cases hx : x = e
  · rw [if_pos hx, if_pos hx, BitVec.add_sub_cancel]
  · rw [if_neg hx, if_neg hx]

/-- `sys_close` changes the descriptor only. -/
theorem sysClose_task (s : Tables) (t : Task) (fd : Fin 64) :
    (sysClose s t fd).2 = { t with filp := (sysClose s t fd).2.filp } := by
  unfold sysClose
  split <;> rfl

/-- `sys_open` for reading: it leaves the references, or opens the file. -/
theorem sysOpen_refs {o : Option (Fin 64)} (hl : look.Holds)
    (h : sysOpen (fun s _ => s) look 0#16 c.s c.t 0#32 = (o, s₁, t₁)) :
    (o = none → t₁ = c.t ∧ SameRefs c { c with s := s₁, t := t₁ }) ∧
    ∀ fd, o = some fd → ∃ e, t₁ = { c.t with filp := t₁.filp } ∧ openInode s₁ t₁ fd = some e ∧
      Opened c { c with s := s₁, t := t₁ } fd e := by
  unfold sysOpen at h
  cases hfd : freeFd c.t with
  | none =>
    rw [hfd] at h
    cases h
    exact ⟨fun _ => ⟨rfl, rfl, fun _ => rfl, fun _ => rfl⟩, fun _ h => by cases h⟩
  | some fd =>
    obtain ⟨hfile, hino⟩ := hl c.s
    cases hlook : look c.s with
    | mk r s₂ =>
      rw [hlook] at hfile hino
      simp only [hfd, hlook, ne_eq, not_true_eq_false, if_false] at h
      cases r with
      | none =>
        cases h
        exact ⟨fun _ => ⟨rfl, rfl, fun i => by rw [hfile], fun x => by simpa using hino x⟩, fun _ h => by cases h⟩
      | some e =>
        have hheld : ∀ x, (s₂.inode x).iCount =
            if x = e then (c.s.inode x).iCount + 1#8 else (c.s.inode x).iCount := fun x => by
          rw [hino x]
          simp only [Option.some.injEq, eq_comm]
        have hback : SameRefs c { c with s := s₂.drop e, t := c.t } := by
          refine ⟨rfl, fun i => ?_, fun x => ?_⟩
          · show (s₂.file i).fCount = _
            rw [hfile]
          · exact drop_of_held (a := fun x => (c.s.inode x).iCount) hheld x
        simp only at h
        split at h
        · cases h
          exact ⟨fun _ => ⟨rfl, hback⟩, fun _ h => by cases h⟩
        cases hi : freeFile s₂ with
        | none =>
          rw [hi] at h
          cases h
          exact ⟨fun _ => ⟨rfl, hback⟩, fun _ h => by cases h⟩
        | some i =>
          have hflag : ¬ (¬ (0#32 : Word) &&& 0x200#32 = 0#32 ∧ (s₂.inode e).iMode &&& 0x4000#16 = 0#16) := by simp
          simp only [hi, install, if_neg hflag, Prod.mk.injEq] at h
          obtain ⟨rfl, rfl, rfl⟩ := h
          refine ⟨fun h => (by cases h), fun fd' h => ?_⟩
          obtain rfl := Option.some.inj h
          refine ⟨e, rfl, ?_, i, freeFd_some hfd, by rw [← hfile, freeFile_some hi], rfl, fun j => ?_, ?_, hheld⟩
          · simp [openInode]
          · show (update s₂.file i _ j).fCount = _
            by_cases hj : j = i
            · rw [hj, update_self, if_pos rfl]
            · rw [update_of_ne hj, if_neg hj, hfile]
          · show (update s₂.file i _ i).fInode = _
            rw [update_self]

/-- Closing it again. -/
theorem Opened.close (ho : Opened c c₁ fd e) : SameRefs c (c₁.close fd) := by
  obtain ⟨i, hfd, hcnt, hfilp, hfile, hfi, hino⟩ := ho
  have hslot : c₁.t.filp fd = some (.slot i) := by rw [hfilp, update_self]
  have hone : (c₁.s.file i).fCount - 1#16 = 0#16 := by
    rw [hfile, if_pos rfl]
    rfl
  have hclose : c₁.close fd =
      { c₁ with
        s := { c₁.s with
          file := update c₁.s.file i
            { c₁.s.file i with fCount := (c₁.s.file i).fCount - 1#16 } }.drop e
        t := { c₁.t with filp := update c₁.t.filp fd none } } := by
    simp only [Caller.close, sysClose, hslot, hfi, if_pos hone]
  rw [hclose]
  refine ⟨?_, fun j => ?_, fun x => ?_⟩
  · rw [hfilp, update_idem, ← hfd, update_eq_self]
  · show (update c₁.s.file i _ j).fCount = _
    by_cases hj : j = i
    · rw [hj, update_self, hcnt]
      exact hone
    · rw [update_of_ne hj, hfile, if_neg hj]
  · exact drop_of_held (a := fun x => (c.s.inode x).iCount) hino x

/-- The header stage gives up with everything undone, or goes on with the file open. -/
theorem execHead_cases (hl : look.Holds) (bread : Bread) (tk : TaskTable) (c : Caller) :
    (∃ c₁, execHead look bread tk c = .failed c₁ ∧ SameRefs c c₁ ∧ c₁.t = { c.t with filp := c₁.t.filp }) ∨
    ∃ c₁ fd e h d, execHead look bread tk c = .ready c₁ fd e h d ∧ Opened c c₁ fd e ∧
      c₁.t = { c.t with filp := c₁.t.filp } := by
  unfold execHead
  cases ho : sysOpen (fun s _ => s) look 0#16 c.s c.t 0#32 with
  | mk o r =>
    obtain ⟨s₁, t₁⟩ := r
    obtain ⟨hnone, hsome⟩ := sysOpen_refs hl ho
    cases o with
    | none =>
      obtain ⟨rfl, hs⟩ := hnone rfl
      exact .inl ⟨_, rfl, hs, rfl⟩
    | some fd =>
      obtain ⟨e, ht, hino, hop⟩ := hsome fd rfl
      have hclose : (Caller.close { c with s := s₁, t := t₁ } fd).t =
          { c.t with filp := (Caller.close { c with s := s₁, t := t₁ } fd).t.filp } := by
        rw [Caller.close, sysClose_task, ht]
      simp only [hino]
      by_cases hperm : permission t₁ (s₁.inode e) mayExec = false
      · rw [if_pos hperm]
        exact .inl ⟨_, rfl, hop.close, hclose⟩
      rw [if_neg hperm]
      cases readElf bread (s₁.inode e) with
      | none => exact .inl ⟨_, rfl, hop.close, hclose⟩
      | some h =>
        cases allocUserPgdir tk c.m with
        | mk d m₁ =>
          cases d with
          | none =>
            exact .inl ⟨_, rfl, ⟨hop.close.filp, hop.close.file, hop.close.inode⟩, hclose⟩
          | some d => exact .inr ⟨_, fd, e, h, d, rfl, hop, ht⟩

/-- A hold taken on both sides. -/
theorem Opened.hold (ho : Opened c c₁ fd e) :
    Opened { c with s := c.s.hold e } { c₁ with s := c₁.s.hold e } fd e := by
  obtain ⟨i, hfd, hcnt, hfilp, hfile, hfi, hino⟩ := ho
  refine ⟨i, hfd, hcnt, hfilp, hfile, hfi, fun x => ?_⟩
  rw [hold_iCount, hold_iCount, hino]

/-- A hold dropped again. -/
theorem SameRefs.drop (h : SameRefs { c with s := c.s.hold e } c₁) (m : Mm) :
    SameRefs c { c₁ with s := c₁.s.drop e, m := m } := by
  refine ⟨h.filp, h.file, fun x => ?_⟩
  refine drop_of_held (a := fun x => (c.s.inode x).iCount) (fun y => ?_) x
  exact (h.inode y).trans (hold_iCount ..)

/-- The rest undoes everything but the region table. -/
theorem execBody_failed (ho : Opened c c₁ fd e) (ht : c₁.t = { c.t with filp := c₁.t.filp })
    (hf : (execBody bread tk argv c₁ fd e h d).1 = false) :
    SameRefs c (execBody bread tk argv c₁ fd e h d).2 ∧
    (execBody bread tk argv c₁ fd e h d).2.t =
      { c.t.withImage (execImage bread (c₁.s.inode e) h c₁.t).2 with
        filp := (execBody bread tk argv c₁ fd e h d).2.t.filp } := by
  unfold execBody at hf ⊢
  generalize execImage bread (c₁.s.inode e) h c₁.t = r at hf ⊢
  have ho' : Opened c { c₁ with t := c₁.t.withImage r.2 } fd e := ho
  -- closing keeps the rest of the task
  have hclose : ∀ s, (sysClose s (c₁.t.withImage r.2) fd).2 =
      { c.t.withImage r.2 with filp := (sysClose s (c₁.t.withImage r.2) fd).2.filp } := fun s => by
    rw [sysClose_task, ht]
    rfl
  have hlate := fun m => ho'.hold.close.drop m
  by_cases hr : r.1 = false
  · rw [if_pos hr]
    exact ⟨⟨ho'.close.filp, ho'.close.file, ho'.close.inode⟩, hclose _⟩
  rw [if_neg hr] at hf ⊢
  by_cases hend : userProgEnd < r.2.maxEnd ∨ (0#32 < r.2.maxEnd ∧ r.2.maxEnd ≤ userProgStart)
  · rw [if_pos hend]
    exact ⟨hlate _, hclose _⟩
  rw [if_neg hend] at hf ⊢
  cases hp : allocUserPage tk c₁.m d userStackTop with
  | mk p m₁ =>
    rw [hp] at hf
    cases p with
    | none => exact ⟨hlate _, hclose _⟩
    | some p =>
      simp only at hf ⊢
      by_cases hargv : argvOk argv = false
      · rw [if_pos hargv]
        exact ⟨hlate _, hclose _⟩
      · rw [if_neg hargv] at hf
        cases hf

/-- The caller is as it was: its directory, executable and region table, the references, and with
them every image page that it has still to fault in. -/
structure Intact (c c' : Caller) : Prop extends SameRefs c c' where
  pgDir : c'.t.pgDir = c.t.pgDir
  exeInode : c'.t.exeInode = c.t.exeInode
  exeRegions : c'.t.exeRegions = c.t.exeRegions
  nrExeRegions : c'.t.nrExeRegions = c.t.nrExeRegions
  pages : ∀ fs va p, pageInImage fs c'.t va p = pageInImage fs c.t va p

/-- What `page_in_image` reads of a task. -/
theorem pageInImage_congr (he : t₁.exeInode = t.exeInode) (hr : t₁.exeRegions = t.exeRegions)
    (hn : t₁.nrExeRegions = t.nrExeRegions) (fs : FsView) (va : Word) (p : Page) :
    pageInImage fs t₁ va p = pageInImage fs t va p := by
  unfold pageInImage Task.regionAt Task.regions
  rw [he, hr, hn]

/-- What the loop has recorded: the regions of `segs`, over the table `r₀`. -/
structure Image.Records (r₀ : Fin 4 → ExeRegion) (m : Image) (segs : List Phdr) : Prop where
  nr : m.nr = segs.length
  le : m.nr ≤ 4
  regions : m.regions = segs.map Phdr.region
  rest : ∀ k : Fin 4, m.nr ≤ k.val → m.region k = r₀ k

theorem Image.Records.record {r₀ : Fin 4 → ExeRegion} {m m' : Image} {segs : List Phdr} {q : Phdr}
    (h : m.Records r₀ segs) (hr : m.record q.region = some m') : (m'.reach q).Records r₀ (segs ++ [q]) := by
  have hreg := Image.regions_record hr
  unfold Image.record at hr
  split at hr
  · next hlt =>
    obtain rfl := Option.some.inj hr
    refine ⟨by simp [Image.reach, h.nr], hlt, ?_, fun k hk => ?_⟩
    · rw [Image.reach_regions, hreg, h.regions, List.map_append]
      rfl
    · have hk : m.nr + 1 ≤ k.val := hk
      have hne : k ≠ ⟨m.nr, hlt⟩ := fun e => by
        rw [e] at hk
        exact absurd hk (by simp)
      exact (update_of_ne hne ..).trans (h.rest k (by omega))
  · cases hr

theorem Image.Records.stop {r₀ : Fin 4 → ExeRegion} {m : Image} {segs : List Phdr} (h : m.Records r₀ segs) :
    m.Records r₀ ((segs ++ []).take 4) := by
  rwa [List.append_nil, List.take_of_length_le (h.nr ▸ h.le)]

/-- **The loop records the segments that it gets through**, as far as the table reaches. -/
theorem Image.loadAll_records {r₀ : Fin 4 → ExeRegion} {read : ℕ → Option Phdr} {m : Image} {segs : List Phdr}
    {n i : ℕ} (h : m.Records r₀ segs) :
    (Image.loadAll read n i m).2.Records r₀ ((segs ++ passed read n i).take 4) := by
  induction n generalizing i m segs with
  | zero => exact h.stop
  | succ n ih =>
    simp only [Image.loadAll, passed]
    cases read i with
    | none => exact h.stop
    | some p =>
      by_cases hs : p.skipped
      · simpa [Image.load, hs] using ih h
      cases ht : p.trim with
      | none => simpa [Image.load, hs, ht] using h.stop
      | some q =>
        have hz := Phdr.trim_pos (by simpa using hs) ht
        by_cases ho : q.outside
        · simpa [Image.load, hs, ht, ho] using h.stop
        cases hr : m.record q.region with
        | none =>
          -- the table is full
          have hfull : 4 ≤ segs.length := by
            unfold Image.record at hr
            split at hr
            · cases hr
            · next hge => exact h.nr ▸ Nat.not_lt.mp hge
          rw [List.take_append_of_le_length hfull, List.take_of_length_le (h.nr ▸ h.le)]
          simpa [Image.load, hs, ht, ho, hz, hr] using h
        | some m₁ => simpa [Image.load, hs, ht, ho, hz, hr] using ih (h.record hr)

/-- The table is the task's own exactly if the segments are. -/
theorem Image.Records.same_iff {m : Image} {segs : List Phdr} (h : m.Records t.exeRegions segs) :
    (m.region = t.exeRegions ∧ m.nr = t.nrExeRegions) ↔
      segs.length = t.nrExeRegions ∧ segs.map Phdr.region = t.regions := by
  rw [← h.nr, ← h.regions]
  constructor
  · rintro ⟨hr, hn⟩
    exact ⟨hn, by rw [Image.regions, Task.regions, hr, hn]⟩
  · rintro ⟨hn, hr⟩
    refine ⟨funext fun k => ?_, hn⟩
    by_cases hk : m.nr ≤ k.val
    · exact h.rest k hk
    have hk' : k ∈ (List.finRange 4).take m.nr := by
      have : ∀ j : Fin 5, ∀ k : Fin 4, k.val < j.val → k ∈ (List.finRange 4).take j.val := by decide
      exact this ⟨m.nr, by have := h.le; omega⟩ k (by simpa using hk)
    rw [Image.regions, Task.regions, ← hn] at hr
    exact List.map_inj_left.mp hr k hk'

/-- **A `sys_execve` that fails leaves the caller as it was, exactly if it has failed before the program
headers** (the file cannot be opened or executed, its ELF header is refused, or there is no memory for a
directory), **or the headers that the loop has got through give back the caller's own regions.** -/
theorem execve_failed_iff (hl : look.Holds) (hf : (sysExecve look bread tk argv c).1 = false) :
    Intact c (sysExecve look bread tk argv c).2 ↔
      ∀ c₁ fd e h d, execHead look bread tk c = .ready c₁ fd e h d →
        c.t.SameSegments (readPhdr bread (c₁.s.inode e) h.phoff h.phentsize) (min h.phnum.toNat 16) := by
  unfold sysExecve at hf ⊢
  rcases execHead_cases hl bread tk c with
    ⟨c₁, hh, hs, ht⟩ | ⟨c₁, fd, e, h, d, hh, ho, ht⟩
  · rw [hh]
    refine ⟨fun _ _ _ _ _ _ => (nomatch ·), fun _ => ⟨hs, ?_, ?_, ?_, ?_, fun fs va p => ?_⟩⟩
    all_goals rw [ht]
    rfl
  rw [hh] at hf ⊢
  simp only at hf ⊢
  obtain ⟨hs, ht'⟩ := execBody_failed ho ht hf
  generalize (execBody bread tk argv c₁ fd e h d).2 = c' at hs ht' ⊢
  have hrec : (execImage bread (c₁.s.inode e) h c₁.t).2.Records c.t.exeRegions _ :=
    @Image.loadAll_records _ _ _ [] _ _ ⟨rfl, Nat.zero_le 4, rfl, fun k _ => by rw [ht]⟩
  have hsame := hrec.same_iff
  generalize (execImage bread (c₁.s.inode e) h c₁.t).2 = img at ht' hsame
  constructor
  · intro hi c₂ fd₂ e₂ h₂ d₂ hm
    cases hm
    have hr := hi.exeRegions
    have hn := hi.nrExeRegions
    rw [ht'] at hr hn
    exact hsame.mp ⟨hr, hn⟩
  · intro hm
    obtain ⟨hr, hn⟩ := hsame.mpr (hm _ _ _ _ _ rfl)
    have he : c'.t.exeInode = c.t.exeInode := by rw [ht']; rfl
    have hr' : c'.t.exeRegions = c.t.exeRegions := by rw [ht']; exact hr
    have hn' : c'.t.nrExeRegions = c.t.nrExeRegions := by rw [ht']; exact hn
    exact ⟨hs, by rw [ht']; rfl, he, hr', hn', pageInImage_congr he hr' hn'⟩

end

/-! ### A program that loses its table -/

/-- A file of one block: an ELF header whose only program header lies beyond the end. -/
def cutElf : Bread := fun _ _ => some fun k =>
  match k with
  | 0 => 0x7F#8 | 1 => 0x45#8 | 2 => 0x4C#8 | 3 => 0x46#8
  | 18 => 3#8
  | 27 => 0x08#8
  | 29 => 0x10#8
  | 42 => 0x20#8
  | 44 => 1#8
  | _ => 0#8

/-- A program of `k` regions, about to execute a file. -/
def running (k : ℕ) : Caller :=
  { s := ⟨fun _ => { iMode := 0x1ED#16, iSize := 0x200#32, iZone := fun _ => 5#16 }, fun _ => {}⟩
    t := { twoSegsTask with nrExeRegions := k }
    m := machine.mm }

/-- The header, and the program's task once the file is open. -/
def cutHdr : ElfHdr := ⟨0x08000000#32, 0x1000#32, 32#16, 1#16⟩

def openedTask (k : ℕ) : Task :=
  { twoSegsTask with nrExeRegions := k, filp := update twoSegsTask.filp 3 (some (.slot 0)) }

/-- The file is found. -/
def lookCut : Lookup := fun s => (some 1, s.hold 1)

theorem lookCut_holds : lookCut.Holds := fun s =>
  ⟨rfl, fun x => by
    show ((s.hold 1).inode x).iCount = _
    rw [hold_iCount]
    simp only [lookCut, Option.some.injEq, eq_comm]⟩

/-- The file is opened, its header is read, and the loop stops at the first program header. -/
theorem execve_cut {k : ℕ} (hk : k = 0 ∨ k = 2) : ∃ s₁ m' d,
    s₁.inode 1 = { (running k).s.inode 1 with iCount := 1#8 } ∧
    execHead lookCut cutElf machine.tk (running k) = .ready ⟨s₁, openedTask k, m'⟩ 3 1 cutHdr d ∧
    (sysExecve lookCut cutElf machine.tk [] (running k)).1 = false ∧
    (sysExecve lookCut cutElf machine.tk [] (running k)).2.t = { twoSegsTask with
      nrExeRegions := 0, filp := (sysExecve lookCut cutElf machine.tk [] (running k)).2.t.filp } := by
  rcases allocUserPgdir_calm machine.tk machine.mm with ⟨d, -, m', -, -, hd, -⟩ | hp
  · have hopen : ∃ s₁, sysOpen (fun s _ => s) lookCut 0#16 (running k).s (running k).t 0#32 =
        (some 3, s₁, openedTask k) ∧ s₁.file 0 = { fCount := 1#16, fInode := some 1 } ∧
        s₁.inode 1 = { (running k).s.inode 1 with iCount := 1#8 } := by
      rcases hk with rfl | rfl <;> exact ⟨_, rfl, rfl, rfl⟩
    obtain ⟨s₁, ho, hf, hi⟩ := hopen
    have hino : openInode s₁ (openedTask k) 3 = some 1 := by
      show (s₁.file 0).fInode = _
      rw [hf]
    have hperm : ¬ permission (openedTask k) (s₁.inode 1) mayExec = false := by
      rw [hi]
      rcases hk with rfl | rfl <;> decide
    have helf : readElf cutElf (s₁.inode 1) = some cutHdr := by
      rw [hi]
      rcases hk with rfl | rfl <;> rfl
    have himg : execImage cutElf (s₁.inode 1) cutHdr (openedTask k) =
        (false, { region := twoSegsTask.exeRegions }) := by
      rw [hi]
      rcases hk with rfl | rfl <;> rfl
    have hhead : execHead lookCut cutElf machine.tk (running k) =
        .ready { s := s₁, t := openedTask k, m := m' } 3 1 cutHdr d := by
      have hd' : allocUserPgdir machine.tk (running k).m = (some d, m') := hd
      simp only [execHead, ho, hino, if_neg hperm, helf, hd']
    have hcall : sysExecve lookCut cutElf machine.tk [] (running k) =
        (false, { Caller.close ⟨s₁, (openedTask k).withImage { region := twoSegsTask.exeRegions }, m'⟩ 3 with
          m := freeUserSpace m' d }) := by
      simp only [sysExecve, hhead, execBody, himg, if_true]
    refine ⟨s₁, m', d, hi, hhead, by rw [hcall], ?_⟩
    rw [hcall]
    exact sysClose_task ..
  · have := hp.1
    have := machine_room
    omega

/-- **A program without regions loses nothing** at the program header. -/
theorem execve_cut_intact : Intact (running 0) (sysExecve lookCut cutElf machine.tk [] (running 0)).2 := by
  obtain ⟨s₁, m', d, hi, hhead, hf, -⟩ := execve_cut (Or.inl rfl)
  refine (execve_failed_iff lookCut_holds hf).mpr fun c₁ fd e h d' hready => ?_
  rw [hhead] at hready
  cases hready
  rw [hi]
  exact ⟨rfl, rfl⟩

/-- **The call fails at the program header, and the running program has no region left**: its first
page could be read from the executable before, and no longer can. -/
theorem execve_drops_regions :
    lookCut.Holds ∧ (sysExecve lookCut cutElf machine.tk [] (running 2)).1 = false ∧
    (running 2).t.nrExeRegions = 2 ∧
    (sysExecve lookCut cutElf machine.tk [] (running 2)).2.t.nrExeRegions = 0 ∧
    (pageInImage twoSegs (running 2).t 0x08000000#32 zeroPage).1 = 1 ∧
    (pageInImage twoSegs (sysExecve lookCut cutElf machine.tk [] (running 2)).2.t 0x08000000#32
      zeroPage).1 = -1 := by
  obtain ⟨s₁, m', d, -, -, hf, ht⟩ := execve_cut (Or.inr rfl)
  refine ⟨lookCut_holds, hf, rfl, by rw [ht], by decide, ?_⟩
  rw [ht]
  rfl

end Linux001

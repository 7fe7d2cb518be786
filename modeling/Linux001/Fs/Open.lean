import Linux001.Fs.File

/-!
# Fs — opening a file

`sys_open()` after the name has been looked up, and the tests that `sys_read()` and `sys_write()`
make on the descriptor.  What `namei()` and the creation of a file do is a parameter, `Lookup`: the
inode, held, and the tables after it.

`sys_open` checks the two low bits of the flag word; `sys_read` and `sys_write` compare the whole
word with 1 and with 0.  `open_grants_iff` says for which flag words the two agree.
-/

namespace Linux001

open Function

/-- `struct file`. -/
structure File where
  fMode : BitVec 16 := 0#16
  fFlags : BitVec 16 := 0#16
  fCount : BitVec 16 := 0#16
  fInode : Option InodeRef := none
  fPos : Word := 0#32
  fDev : BitVec 16 := 0#16

/-- `inode_table[]` and `file_table[]`. -/
structure Tables where
  inode : InodeRef → MInode
  file : Fin 64 → File

/-! ### Permissions -/

def mayExec : Word := 1#32
def mayWrite : Word := 2#32
def mayRead : Word := 4#32

/-- **`permission`** for the task `t`. -/
def permission (t : Task) (ino : MInode) (mask : Word) : Bool :=
  if ino.iDev ≠ 0#16 ∧ ino.iNlinks = 0#8 then false
  else
    let mode : Word := ino.iMode.setWidth 32
    let triad :=
      if t.euid = ino.iUid then mode >>> 6
      else if t.egid = ino.iGid.setWidth 16 then mode >>> 3
      else mode
    triad &&& mask &&& 7#32 = mask ∨ t.euid = 0#16

/-- The bits that `sys_open` asks for. -/
def openMask (flag : Word) : Word :=
  (if flag &&& 3#32 = 0#32 then mayRead else 0#32) |||
    (if flag &&& 3#32 = 1#32 ∨ flag &&& 3#32 = 2#32 then mayWrite else 0#32) |||
    (if flag &&& 0x200#32 ≠ 0#32 then mayWrite else 0#32)

/-! ### `sys_open` -/

/-- What the lookup of a name comes to: the inode, and the tables after it. -/
abbrev Lookup := Tables → Option InodeRef × Tables

/-- `inode->i_count--`. -/
def MInode.unhold (ino : MInode) : MInode := { ino with iCount := ino.iCount - 1#8 }

/-- `iput` on a file that keeps its links: the hold is dropped. -/
def Tables.drop (s : Tables) (e : InodeRef) : Tables :=
  { s with inode := update s.inode e (s.inode e).unhold }

/-- The first free descriptor from 3 on. -/
def freeFd (t : Task) : Option (Fin 64) :=
  (List.finRange 64).find? fun fd => 3 ≤ fd.val ∧ t.filp fd = none

/-- The first free slot of `file_table[]`. -/
def freeFile (s : Tables) : Option (Fin 64) :=
  (List.finRange 64).find? fun i => (s.file i).fCount = 0#16

theorem freeFd_some {t : Task} {fd : Fin 64} (h : freeFd t = some fd) : t.filp fd = none := by
  have := List.find?_some h
  simp only [decide_eq_true_eq] at this
  exact this.2

theorem freeFile_some {s : Tables} {i : Fin 64} (h : freeFile s = some i) : (s.file i).fCount = 0#16 := by
  have := List.find?_some h
  simpa using this

/-- `current->filp[fd] = &file_table[i]`, filled in. -/
def install (s : Tables) (t : Task) (fd i : Fin 64) (f : File) : Option (Fin 64) × Tables × Task :=
  (some fd, { s with file := update s.file i f },
    { t with filp := update t.filp fd (some (.slot i)) })

/-- **`sys_open`.**  `dev` is the number of a device name, 0 for any other; `truncate` is
`truncate_inode`. -/
def sysOpen (truncate : Tables → InodeRef → Tables) (look : Lookup) (dev : BitVec 16) (s : Tables)
    (t : Task) (flag : Word) : Option (Fin 64) × Tables × Task :=
  match freeFd t with
  | none => (none, s, t)
  | some fd =>
    if dev ≠ 0#16 then
      match freeFile s with
      | none => (none, s, t)
      | some i =>
        install s t fd i
          { fMode := 2#16, fFlags := flag.setWidth 16, fCount := 1#16, fDev := dev }
    else
      match look s with
      | (none, s₁) => (none, s₁, t)
      | (some e, s₁) =>
        if openMask flag ≠ 0#32 ∧ permission t (s₁.inode e) (openMask flag) = false then
          (none, s₁.drop e, t)
        else
          match freeFile s₁ with
          | none => (none, s₁.drop e, t)
          | some i =>
            let s₂ :=
              if flag &&& 0x200#32 ≠ 0#32 ∧ (s₁.inode e).iMode &&& 0x4000#16 = 0#16 then
                truncate s₁ e
              else s₁
            install s₂ t fd i { fMode := flag.setWidth 16, fCount := 1#16, fInode := some e }

/-! ### `sys_read` and `sys_write` -/

/-- The branch of `sys_read` and `sys_write` that serves a descriptor. -/
inductive Route where
  | refused | proc | null | zero | tty | pipe | file
  deriving DecidableEq

/-- The branch that `sys_read` takes. -/
def readRoute (s : Tables) (f : File) : Route :=
  if f.fDev = 4#16 ∨ f.fDev = 5#16 ∨ f.fDev = 6#16 then .proc
  else if f.fDev = 1#16 then .null
  else if f.fDev = 2#16 then .zero
  else
    match f.fInode with
    | none => .tty
    | some e =>
      if (s.inode e).iPipe then .pipe
      else if f.fMode = 1#16 then .refused
      else .file

/-- The branch that `sys_write` takes on the descriptor `fd`. -/
def writeRoute (s : Tables) (fd : Fin 64) (f : File) : Route :=
  if f.fDev = 4#16 ∨ f.fDev = 5#16 ∨ f.fDev = 6#16 then .refused
  else if f.fDev = 1#16 then .null
  else if f.fDev = 2#16 then .zero
  else
    match f.fInode with
    | none => if fd = 0 then .refused else .tty
    | some e =>
      if f.fMode = 0#16 then .refused
      else if (s.inode e).iPipe then .pipe
      else .file

/-! ### What a descriptor grants -/

section
variable {truncate : Tables → InodeRef → Tables} {look : Lookup} {s s₁ s' : Tables} {t t' : Task}
variable {flag : Word} {fd : Fin 64} {e : InodeRef}

/-- A successful `sys_open` of a file: the check it made, and the file it left. -/
theorem sysOpen_file (h : sysOpen truncate look 0#16 s t flag = (some fd, s', t'))
    (hl : look s = (some e, s₁)) :
    (openMask flag ≠ 0#32 → permission t (s₁.inode e) (openMask flag) = true) ∧ ∃ i, t'.filp fd = some (.slot i) ∧
        s'.file i = { fMode := flag.setWidth 16, fCount := 1#16, fInode := some e } := by
  unfold sysOpen at h
  cases hfd : freeFd t with
  | none => rw [hfd] at h; cases h
  | some fd' =>
    simp only [hfd, hl, ne_eq, not_true_eq_false, if_false] at h
    split at h
    · cases h
    next hp =>
    refine ⟨fun hm => by simpa [hm] using hp, ?_⟩
    cases hi : freeFile s₁ with
    | none => rw [hi] at h; cases h
    | some i =>
      simp only [hi, install, Prod.mk.injEq, Option.some.injEq] at h
      obtain ⟨rfl, rfl, rfl⟩ := h
      exact ⟨i, update_self .., update_self ..⟩

/-- A permission for a mask is one for each part of it. -/
theorem permission_mono {ino : MInode} {a b : Word} (hab : a &&& b = b)
    (h : permission t ino a = true) : permission t ino b = true := by
  unfold permission at h ⊢
  split at h
  · cases h
  next hl =>
  rw [if_neg hl]
  simp only [decide_eq_true_eq] at h ⊢
  refine h.imp_left fun ht => ?_
  generalize (if t.euid = ino.iUid then _ else _ : Word) = triad at ht ⊢
  calc triad &&& b &&& 7#32 = triad &&& (a &&& b) &&& 7#32 := by rw [hab]
    _ = (triad &&& a &&& 7#32) &&& b := by
      rw [BitVec.and_assoc, BitVec.and_assoc, BitVec.and_assoc, BitVec.and_assoc, BitVec.and_comm b]
    _ = b := by rw [ht, hab]

/-- The bits of the flag word that `sys_open` checks, against those that `sys_read` and `sys_write`
look at. -/
def Grants (t : Task) (ino : MInode) (flag : Word) : Prop :=
  (flag.setWidth 16 = 1#16 ∨ flag &&& 3#32 = 0#32 ∨ permission t ino mayRead = true) ∧
    (flag.setWidth 16 = 0#16 ∨ flag &&& 3#32 = 1#32 ∨ flag &&& 3#32 = 2#32 ∨
      flag &&& 0x200#32 ≠ 0#32 ∨ permission t ino mayWrite = true)

theorem openMask_read (h : flag &&& 3#32 = 0#32) :
    openMask flag &&& mayRead = mayRead ∧ openMask flag ≠ 0#32 := by
  unfold openMask
  rw [if_pos h]
  split <;> split <;> decide

theorem openMask_write (h : flag &&& 3#32 = 1#32 ∨ flag &&& 3#32 = 2#32 ∨ flag &&& 0x200#32 ≠ 0#32) :
    openMask flag &&& mayWrite = mayWrite ∧ openMask flag ≠ 0#32 := by
  unfold openMask
  by_cases h₂ : flag &&& 0x200#32 ≠ 0#32
  · rw [if_pos h₂]
    split <;> split <;> decide
  have h₁ : flag &&& 3#32 = 1#32 ∨ flag &&& 3#32 = 2#32 := by tauto
  rw [if_pos h₁, if_neg h₂]
  split <;> decide

/-- **What a descriptor grants.**  It serves reads and writes of the file only to those the
permission bits allow exactly if the flag word is one for which `sys_open`'s check covers what
`sys_read` and `sys_write` let through, or the permission is there anyway. -/
theorem open_grants_iff (h : sysOpen truncate look 0#16 s t flag = (some fd, s', t'))
    (hl : look s = (some e, s₁)) (hpipe : (s'.inode e).iPipe = false) :
    (∀ i, t'.filp fd = some (.slot i) →
      (readRoute s' (s'.file i) = .file → permission t (s₁.inode e) mayRead = true) ∧
      (writeRoute s' fd (s'.file i) = .file → permission t (s₁.inode e) mayWrite = true)) ↔
      Grants t (s₁.inode e) flag := by
  obtain ⟨hperm, i, hi, hf⟩ := sysOpen_file h hl
  have hread : readRoute s' (s'.file i) = .file ↔ flag.setWidth 16 ≠ 1#16 := by
    rw [hf]
    simp [readRoute, hpipe]
  have hwrite : writeRoute s' fd (s'.file i) = .file ↔ flag.setWidth 16 ≠ 0#16 := by
    rw [hf]
    simp [writeRoute, hpipe]
  have hr : flag &&& 3#32 = 0#32 → permission t (s₁.inode e) mayRead = true := fun hm =>
    permission_mono (openMask_read hm).1 (hperm (openMask_read hm).2)
  have hw : (flag &&& 3#32 = 1#32 ∨ flag &&& 3#32 = 2#32 ∨ flag &&& 0x200#32 ≠ 0#32) →
      permission t (s₁.inode e) mayWrite = true := fun hm =>
    permission_mono (openMask_write hm).1 (hperm (openMask_write hm).2)
  constructor
  · intro hall
    obtain ⟨h₁, h₂⟩ := hall i hi
    refine ⟨?_, ?_⟩
    · by_cases hm : flag.setWidth 16 = 1#16
      · exact .inl hm
      · exact .inr (.inr (h₁ (hread.mpr hm)))
    · by_cases hm : flag.setWidth 16 = 0#16
      · exact .inl hm
      · exact .inr (.inr (.inr (.inr (h₂ (hwrite.mpr hm)))))
  · rintro ⟨h₁, h₂⟩ j hj
    obtain rfl : i = j := by
      rw [hi] at hj
      exact FileRef.slot.inj (Option.some.inj hj)
    refine ⟨fun hf => ?_, fun hf => ?_⟩
    · rcases h₁ with hm | hm | hm
      · exact absurd hm (hread.mp hf)
      · exact hr hm
      · exact hm
    · rcases h₂ with hm | hm | hm | hm | hm
      · exact absurd hm (hwrite.mp hf)
      · exact hw (.inl hm)
      · exact hw (.inr (.inl hm))
      · exact hw (.inr (.inr hm))
      · exact hm

end

/-! ### Two opens -/

/-- One file with the permission bits `mode`, of another user. -/
def oneFile (mode : BitVec 16) : Tables where
  inode := fun e => if e = 0 then
      { iMode := 0x8000#16 ||| mode, iUid := 7#16, iGid := 7#8, iDev := 1#16, iNlinks := 1#8, iCount := 1#8 }
    else {}
  file := fun _ => {}

/-- A task of user 5. -/
def user5 : Task := { uid := 5#16, euid := 5#16, gid := 5#16, egid := 5#16 }

/-- The file is found. -/
def found : Lookup := fun s => (some 0, s)

/-- Opened with `O_RDONLY`, a file gives no more than the permission that was checked. -/
theorem open_readable : ∃ fd s' t',
    sysOpen (fun s _ => s) found 0#16 (oneFile 0o4#16) user5 0#32 = (some fd, s', t') ∧
      ∀ i, t'.filp fd = some (.slot i) →
        (readRoute s' (s'.file i) = .file → permission user5 ((oneFile 0o4#16).inode 0) mayRead = true) ∧
        (writeRoute s' fd (s'.file i) = .file → permission user5 ((oneFile 0o4#16).inode 0) mayWrite = true) := by
  obtain ⟨s', t', h, hpipe⟩ : ∃ s' t', sysOpen (fun s _ => s) found 0#16 (oneFile 0o4#16) user5 0#32 =
      (some 3, s', t') ∧ (s'.inode 0).iPipe = false := ⟨_, _, rfl, rfl⟩
  have hl : found (oneFile 0o4#16) = (some 0, oneFile 0o4#16) := rfl
  exact ⟨3, s', t', h, (open_grants_iff h hl hpipe).mpr
    ⟨.inr (.inl (by decide)), .inl (by decide)⟩⟩

/-- Opened with `O_RDWR`, a file that may only be written is read; opened with `O_CREAT` alone, one
that may only be read is written; opened with 3, one that may be neither is both read and
written. -/
theorem open_grants_more :
    (∃ fd s' t' i, sysOpen (fun s _ => s) found 0#16 (oneFile 0o2#16) user5 2#32 = (some fd, s', t') ∧
      t'.filp fd = some (.slot i) ∧ readRoute s' (s'.file i) = .file ∧
      permission user5 ((oneFile 0o2#16).inode 0) mayRead = false) ∧
    (∃ fd s' t' i, sysOpen (fun s _ => s) found 0#16 (oneFile 0o4#16) user5 0x40#32 = (some fd, s', t') ∧
      t'.filp fd = some (.slot i) ∧ writeRoute s' fd (s'.file i) = .file ∧
      permission user5 ((oneFile 0o4#16).inode 0) mayWrite = false) ∧
    (∃ fd s' t' i, sysOpen (fun s _ => s) found 0#16 (oneFile 0#16) user5 3#32 = (some fd, s', t') ∧
      t'.filp fd = some (.slot i) ∧ readRoute s' (s'.file i) = .file ∧
      writeRoute s' fd (s'.file i) = .file ∧
      permission user5 ((oneFile 0#16).inode 0) mayRead = false ∧
      permission user5 ((oneFile 0#16).inode 0) mayWrite = false) :=
  ⟨⟨3, _, _, 0, rfl, rfl, by decide, by decide⟩, ⟨3, _, _, 0, rfl, rfl, by decide, by decide⟩,
    ⟨3, _, _, 0, rfl, rfl, by decide, by decide, by decide, by decide⟩⟩

end Linux001

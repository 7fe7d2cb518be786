import Linux001.Kernel.Exec
import Linux001.Mm.Isolation

/-!
# Kernel — stores through a caller's pointer

`put_fs_byte()` and `put_fs_long()` are plain moves in Ring0, of one byte and of four, and no system
call asks `user_addr_ok()` first.  So the processor and `do_no_page()` alone decide where a store goes:
every system call's moves are listed as the source makes them (`OutCall.puts`), the processor translates
a move as a whole before it stores a byte (`Sys.translate`), and `syscall_stores_confined` says which
pointers keep the stores in the caller's memory.
-/

namespace Linux001

/-! ### The calls -/

/-- One move to memory: its address, and the bytes it stores. -/
abbrev Put := Word × List Byte

/-- The bytes of a move, each with its address. -/
def placed (p : Put) : List (Word × Byte) := p.2.zipIdx.map fun x => (p.1 + BitVec.ofNat 32 x.2, x.1)

/-- `put_fs_byte(bs[k], buf + k)` for every `k`. -/
def putFsBytes (buf : Word) (bs : List Byte) : List Put := (placed (buf, bs)).map fun x => (x.1, [x.2])

/-- `put_fs_long(v, addr)`. -/
def putFsLong (v addr : Word) : List Put := [(addr, le32 v)]

/-- `if (p)`. -/
def given (p : Word) (l : List Put) : List Put := if p = 0#32 then [] else l

def le16 (w : BitVec 16) : List Byte := [w.extractLsb' 0 8, w.extractLsb' 8 8]

/-- The bytes of the `struct stat` that `cp_stat` fills; `pad` are those between its fields. -/
def statBytes (ino : MInode) (pad : Fin 3 → Byte) : List Byte :=
  le16 ino.iDev ++ le16 (ino.iNum.setWidth 16) ++ le16 ino.iMode ++ [ino.iNlinks, pad 0] ++
    le16 ino.iUid ++ le16 (ino.iGid.setWidth 16) ++ le16 (ino.iZone 0) ++ [pad 1, pad 2] ++
    le32 ino.iSize ++ le32 ino.iMtime ++ le32 ino.iMtime ++ le32 ino.iMtime

/-- The loop of `sys_getcwd`: what it has stored when it returns.  A name that does not fit ends it,
with what is already there left in place. -/
def getcwdLoop (size : ℤ) : List Byte → List (List Byte) → List Byte
  | out, [] => out ++ [0#8]
  | out, name :: names =>
    if size < out.length + name.length + 2 then out
    else getcwdLoop size (out ++ 0x2F#8 :: name) names

/-- What `sys_getcwd` stores; `names` are the directories from the root down. -/
def getcwdBytes (size : ℤ) : List (List Byte) → List Byte
  | [] => if size < 2 then [] else [0x2F#8, 0#8]
  | names => if size ≤ 0 then [] else getcwdLoop size [] names

/-- A system call that stores through a pointer: the pointer, and what it comes to store. -/
inductive OutCall where
  /-- `sys_read`: the bytes that the file, the pipe, the console or `/proc` delivers. -/
  | read (buf : Word) (bs : List Byte)
  /-- `sys_stat` and `sys_fstat`. -/
  | stat (statbuf : Word) (ino : MInode) (pad : Fin 3 → Byte)
  | pipe (fildes fd₀ fd₁ : Word)
  | waitpid (statAddr exitCode : Word)
  | times (tbuf utime stime cutime cstime : Word)
  /-- `src i k` is what stands at `src[i][k]`. -/
  | uname (utsbuf : Word) (src : Fin 5 → Fin 8 → Byte)
  | sigprocmask (oldset old : Word)
  | sigaction (oldact handler mask flags : Word)
  | select (readfds writefds exceptfds r w : Word)
  | time (tloc i : Word)
  | getcwd (buf : Word) (size : ℤ) (names : List (List Byte))

/-- **The stores of a call**, in order. -/
def OutCall.puts : OutCall → List Put
  | .read buf bs => putFsBytes buf bs
  | .stat statbuf ino pad => putFsBytes statbuf (statBytes ino pad)
  | .pipe fildes fd₀ fd₁ => putFsLong fd₀ fildes ++ putFsLong fd₁ (fildes + 4#32)
  | .waitpid statAddr exitCode => given statAddr (putFsLong exitCode statAddr)
  | .times tbuf u s cu cs =>
    putFsLong u tbuf ++ putFsLong s (tbuf + 4#32) ++ putFsLong cu (tbuf + 8#32) ++ putFsLong cs (tbuf + 12#32)
  | .uname utsbuf src =>
    putFsBytes utsbuf ((List.finRange 5).flatMap fun i => (List.finRange 8).map (src i) ++ [0#8])
  | .sigprocmask oldset old => given oldset (putFsLong old oldset)
  | .sigaction oldact handler mask flags =>
    given oldact (putFsLong handler oldact ++ putFsLong mask (oldact + 4#32) ++ putFsLong flags (oldact + 8#32))
  | .select readfds writefds exceptfds r w =>
    given readfds (putFsLong r readfds) ++ given writefds (putFsLong w writefds) ++
      given exceptfds (putFsLong 0#32 exceptfds)
  | .time tloc i => given tloc (putFsLong i tloc)
  | .getcwd buf size names => putFsBytes buf (getcwdBytes size names)

/-! ### Stores in Ring0 -/

namespace Sys

/-- The processor translates an address for a store in Ring0, with the fault if it cannot; `false`
if the fault handler kills the caller. -/
def touch (s : Sys) (fs : FsView) (n : Slot) (addr : Word) : Bool × Sys :=
  match s.tk n with
  | none => (false, s)
  | some t =>
    match t.pgDir with
    | none => (false, s)
    | some d =>
      match s.mm.walk (wpOf s.cr0) d addr true false with
      | .ok _ => (true, s)
      | .error err => ((doNoPage fs s.tk t s.mm err addr).1, s.fault fs n err addr)

/-- The first and the last byte of a move are translated before any byte is stored. -/
def translate (s : Sys) (fs : FsView) (n : Slot) (p : Put) : Option Sys :=
  match s.touch fs n p.1 with
  | (false, _) => none
  | (true, s₁) =>
    match s₁.touch fs n (p.1 + BitVec.ofNat 32 (p.2.length - 1)) with
    | (false, _) => none
    | (true, s₂) => some s₂

/-- The bytes of a move; `none` if there is no memory for a page that has gone meanwhile. -/
def storeBytes (fs : FsView) (n : Slot) : Sys → List (Word × Byte) → Option Sys
  | s, [] => some s
  | s, x :: xs =>
    match s.access fs n false (.store x.1 x.2) with
    | (.done _, s') => storeBytes fs n s' xs
    | _ => none

/-- The moves, one after the other; `none` if the fault handler kills the caller on the way. -/
def putFs (fs : FsView) (n : Slot) : Sys → List Put → Option Sys
  | s, [] => some s
  | s, p :: ps => (s.translate fs n p).bind fun s₁ =>
    (s₁.storeBytes fs n (placed p)).bind fun s₂ => putFs fs n s₂ ps

/-- Every byte of every move that is made goes to an address that `user_addr_ok()` accepts. -/
def Confined (fs : FsView) (n : Slot) : Sys → List Put → Prop
  | _, [] => True
  | s, p :: ps => ∀ s₁, s.translate fs n p = some s₁ → (∀ x ∈ placed p, userAddrOk x.1 1#32 = true) ∧
      ∀ s₂, s₁.storeBytes fs n (placed p) = some s₂ → Confined fs n s₂ ps

/-- No byte of a move that is reached and can be translated lies in the identity map. -/
def Clear (fs : FsView) (n : Slot) : Sys → List Put → Prop
  | _, [] => True
  | s, p :: ps => ∀ s₁, s.translate fs n p = some s₁ → (∀ x ∈ placed p, kernelPtCount ≤ (pdeIx x.1).val) ∧
      ∀ s₂, s₁.storeBytes fs n (placed p) = some s₂ → Clear fs n s₂ ps

end Sys

/-- The kernel's tables map address to address, as `setup_paging` has left them. -/
def IdentityMap (m : Mm) : Prop :=
  ∀ k < kernelPtCount, ∀ i : Ix, m.mem (kernelTable k) i = frameAddr (BitVec.ofNat 20 (k * 1024 + i.val)) ||| 0x003#32

section
variable {B : Boot} {tk : TaskTable} {m : Mm} {b : Books} {s s₀ s' : Sys} {d : Frame} {v : Byte} {p : Put}
variable {fs : FsView} {t : Task} {n : Slot} {addr : Word}

theorem frameOf_toNat (w : Word) : (frameOf w).toNat = w.toNat / 4096 := by
  have := w.isLt
  simp only [frameOf, BitVec.extractLsb'_toNat, Nat.shiftRight_eq_div_pow]
  omega

/-- The entry of the identity map for an address. -/
theorem identity_entry (addr : Word) :
    BitVec.ofNat 20 ((pdeIx addr).val * 1024 + (pteIx addr).val) = frameOf addr := by
  have := addr.isLt
  apply BitVec.eq_of_toNat_eq
  rw [frameOf_toNat, BitVec.toNat_ofNat]
  simp only [pdeIx, pteIx]
  omega

/-- Ring0's walk to an address in the identity map. -/
theorem Inv.walk_identity {wp write : Bool} (h : Inv B tk m b) (hl : d ∈ b.live) (hid : IdentityMap m)
    (hx : (pdeIx addr).val < kernelPtCount) :
    m.walk wp d addr write false = .ok (kernelTable (pdeIx addr).val, pteIx addr) := by
  have hne : pdeIx addr ≠ userPdeIndex := fun e => by
    rw [e] at hx
    exact absurd hx (by decide)
  have hrw : writable (kernelEntry (pdeIx addr).val) = true := by
    have : ∀ k < kernelPtCount, writable (kernelEntry k) = true := by decide
    exact this _ hx
  obtain ⟨hp, -, hf⟩ : present (kernelEntry (pdeIx addr).val) = true ∧ _ :=
    (by decide : ∀ k < kernelPtCount, present (kernelEntry k) = true ∧
      userBit (kernelEntry k) = false ∧ frameOf (kernelEntry k) = kernelTable k) _ hx
  have hpte : present (frameAddr (frameOf addr) ||| 0x003#32) = true ∧
      writable (frameAddr (frameOf addr) ||| 0x003#32) = true := by
    constructor <;> simp [present_eq, writable_eq, frameAddr]
  unfold Mm.walk
  simp only [h.shape.dir hl, Function.update_of_ne hne, kernelPde, if_pos hx, hp, hf,
    hid _ hx, identity_entry addr, hpte, hrw, if_true]
  simp

/-- **A store to the identity map goes through**, whatever is there. -/
theorem SysInv.put_identity (h : SysInv B s) (ht : s.tk n = some t) (hd : t.pgDir = some d)
    (hid : IdentityMap s.mm) (hx : (pdeIx addr).val < kernelPtCount) :
    ∃ s', s.access fs n false (.store addr v) = (.done v, s') ∧
      getByte (s'.mm.mem (frameOf addr)) (pageOffset addr) = v := by
  obtain ⟨b, -, -, hi⟩ := h
  have hw : s.mm.walk (wpOf s.cr0) d addr true false = _ := hi.walk_identity (hi.tasks ht hd) hid hx
  have hf : frameOf (s.mm.mem (kernelTable (pdeIx addr).val) (pteIx addr)) = frameOf addr := by
    rw [hid _ hx, identity_entry addr, frameOf_or (by decide), frameOf_frameAddr]
  simp only [Sys.access, ht, cpuAccess, hd, Access.addr, Access.write, hw, Mm.perform, hf]
  refine ⟨_, rfl, ?_⟩
  rw [Mm.setPage_same, getByte_setByte, if_pos rfl]

/-! ### Translations -/

theorem SysInv.touch_identity (h : SysInv B s) (ht : s.tk n = some t) (hd : t.pgDir = some d)
    (hid : IdentityMap s.mm) (hx : (pdeIx addr).val < kernelPtCount) : s.touch fs n addr = (true, s) := by
  obtain ⟨b, -, -, hi⟩ := h
  have hw : s.mm.walk (wpOf s.cr0) d addr true false = _ := hi.walk_identity (hi.tasks ht hd) hid hx
  simp only [Sys.touch, ht, hd, hw]

/-- Any other address that is not a user's cannot be translated. -/
theorem SysInv.touch_illegal (h : SysInv B s) (hx : kernelPtCount ≤ (pdeIx addr).val)
    (ha : userAddrOk addr 1#32 = false) : (s.touch fs n addr).1 = false := by
  obtain ⟨b, -, -, hi⟩ := h
  unfold Sys.touch
  cases ht : s.tk n with
  | none => rfl
  | some t =>
    cases hd : t.pgDir with
    | none => simp only [hd]
    | some d =>
      have hl := hi.tasks ht hd
      have hw : s.mm.walk (wpOf s.cr0) d addr true false = .error (faultCode false true false) := by
        by_cases e : pdeIx addr = userPdeIndex
        · have hz : b.pte d (pteIx addr) = 0#32 := by
            by_contra hne
            rw [(hi.entries.legal hl hne).addr e] at ha
            cases ha
          rw [hi.walk_user _ true false hl e, hz]
          rfl
        · unfold Mm.walk
          simp only [hi.shape.dir hl, Function.update_of_ne e, kernelPde,
            if_neg (Nat.not_lt.mpr hx), present_zero, Bool.false_eq_true, if_false]
      simp [hd, hw, doNoPage, present_faultCode, ha]

/-- A translation keeps the invariant and the tasks. -/
theorem SysInv.touch (h : SysInv B s) (hs : s.touch fs n addr = (true, s')) :
    SysInv B s' ∧ s'.tk = s.tk := by
  unfold Sys.touch at hs
  cases ht : s.tk n with
  | none => simp [ht] at hs
  | some t =>
    cases hd : t.pgDir with
    | none => simp [ht, hd] at hs
    | some d =>
      simp only [ht, hd] at hs
      split at hs
      · obtain rfl := (Prod.mk.inj hs).2
        exact ⟨h, rfl⟩
      next err hw =>
      obtain ⟨hok, rfl⟩ := Prod.mk.inj hs
      refine ⟨h.fault fun he => ?_, ?_⟩
      · obtain ⟨b, -, -, hi⟩ := h
        have hl := hi.tasks ht hd
        by_cases hx : pdeIx addr = userPdeIndex
        · simp [Sys.translates, ht, hd, hi.userPt_eq hl, hi.mem_tbl hl, hi.walk_error hl hw he hx]
        · simp [Sys.translates, ht, hd, hi.userPt_eq hl, hx]
      · unfold Sys.fault
        simp only [ht]
        generalize doNoPage fs s.tk t s.mm err addr = r at hok
        obtain ⟨_ | _, m⟩ := r
        · cases hok
        · rfl

/-- Addresses of one page are alike. -/
theorem userAddrOk_page {a a' : Word} (h : a.toNat / 4096 = a'.toNat / 4096) :
    userAddrOk a 1#32 = userAddrOk a' 1#32 ∧ pdeIx a = pdeIx a' := by
  have h₁ := a.isLt
  have h₂ := a'.isLt
  refine ⟨?_, by simp only [pdeIx, Fin.mk.injEq]; omega⟩
  rw [Bool.eq_iff_iff]
  unfold userAddrOk
  simp only [userProgStart, userProgEnd, userHeapStart, userHeapEnd, userStackFloor, userStackTop, userTailTop,
    BitVec.le_def, BitVec.lt_def, BitVec.toNat_add, BitVec.toNat_ofNat, Nat.reducePow, Nat.reduceMod]
  split_ifs <;> simp <;> omega

/-- A byte of a move of at most four lies in the page of the first or of the last one. -/
theorem placed_page {x : Word × Byte} (hp : p.2.length ≤ 4) (hx : x ∈ placed p) :
    x.1.toNat / 4096 = p.1.toNat / 4096 ∨
      x.1.toNat / 4096 = (p.1 + BitVec.ofNat 32 (p.2.length - 1)).toNat / 4096 := by
  obtain ⟨⟨y, k⟩, hk, rfl⟩ := List.mem_map.mp hx
  have hlt : k < p.2.length := by
    have := List.snd_lt_of_mem_zipIdx hk
    omega
  simp only [BitVec.toNat_add, BitVec.toNat_ofNat]
  omega

/-- **What can be translated and is not in the identity map is the caller's.** -/
theorem SysInv.translate (h : SysInv B s) (hp : p.2.length ≤ 4) (hs : s.translate fs n p = some s') :
    SysInv B s' ∧ s'.tk = s.tk ∧
      ∀ x ∈ placed p, kernelPtCount ≤ (pdeIx x.1).val → userAddrOk x.1 1#32 = true := by
  unfold Sys.translate at hs
  split at hs
  · cases hs
  next s₁ h₁ =>
  split at hs
  · cases hs
  next s₂ h₂ =>
  obtain rfl := Option.some.inj hs
  obtain ⟨hi₁, ht₁⟩ := h.touch h₁
  obtain ⟨hi₂, ht₂⟩ := hi₁.touch h₂
  -- a touched address is a user's if it is not in the identity map
  have hlegal : ∀ {s a}, SysInv B s → (s.touch fs n a).1 = true → kernelPtCount ≤ (pdeIx a).val →
      userAddrOk a 1#32 = true := by
    intro s a h ht hx
    by_contra ha
    rw [h.touch_illegal hx (by simpa using ha)] at ht
    cases ht
  refine ⟨hi₂, ht₂.trans ht₁, fun x hx hk => ?_⟩
  rcases placed_page hp hx with e | e <;> obtain ⟨e₁, e₂⟩ := userAddrOk_page e
  · rw [e₁]
    exact hlegal h (by rw [h₁]) (e₂ ▸ hk)
  · rw [e₁]
    exact hlegal hi₁ (by rw [h₂]) (e₂ ▸ hk)

/-- Stores to the caller's memory keep the invariant. -/
theorem SysInv.storeBytes (h : SysInv B s) (hfew : ¬B.few) {xs : List (Word × Byte)}
    (hxs : ∀ x ∈ xs, userAddrOk x.1 1#32 = true) (hs : s.storeBytes fs n xs = some s') :
    SysInv B s' ∧ s'.tk = s.tk := by
  induction xs generalizing s with
  | nil =>
    obtain rfl := Option.some.inj hs
    exact ⟨h, rfl⟩
  | cons x xs ih =>
    obtain ⟨hx, hxs⟩ := List.forall_mem_cons.mp hxs
    unfold Sys.storeBytes at hs
    split at hs
    · next v s₁ hr =>
      have hstep : Linux001.step s (.access fs n false (.store x.1 x.2)) = s₁ := by
        simp [Linux001.step, Access.addr, pdeIx_of_userAddrOk hx, hr]
      obtain ⟨h₁, h₂⟩ := ih (hstep ▸ h.step _ fun hf => absurd hf hfew) hxs hs
      exact ⟨h₁, h₂.trans (Sys.access_tk hr)⟩
    · cases hs

/-- The identity map is as it was at boot. -/
theorem SysInv.identityMap (h₀ : Booted s₀) (hid : IdentityMap s₀.mm) {few : Prop}
    (h : SysInv (h₀.start few) s) : IdentityMap s.mm := by
  obtain ⟨b, -, -, hi⟩ := h
  intro k hk i
  rw [hi.shape.kernel hk]
  exact hid k hk i

/-- A move of a call stores one byte or four. -/
theorem OutCall.puts_length (c : OutCall) : ∀ p ∈ c.puts, p.2.length ≤ 4 := by
  have hlong : ∀ w : Word, (le32 w).length = 4 := fun w => by simp [le32]
  have hgiven : ∀ {q l} {p : Put}, p ∈ given q l → p ∈ l := fun {q l p} hp => by
    unfold given at hp
    split at hp
    · cases hp
    · exact hp
  intro p hp
  cases c <;> simp only [OutCall.puts, List.mem_append] at hp <;>
    grind [putFsLong, putFsBytes]

/-- What has been stored was in the caller's memory, or in the identity map. -/
theorem Sys.confined_iff_clear (h : SysInv B s) (hfew : ¬B.few) {ps : List Put}
    (hps : ∀ p ∈ ps, p.2.length ≤ 4) : Sys.Confined fs n s ps ↔ Sys.Clear fs n s ps := by
  induction ps generalizing s with
  | nil => exact .rfl
  | cons p ps ih =>
    obtain ⟨hp, hps⟩ := List.forall_mem_cons.mp hps
    refine forall_congr' fun s₁ => imp_congr_right fun hs₁ => ?_
    obtain ⟨h₁, -, hlegal⟩ := h.translate hp hs₁
    -- a user's address is not in the identity map, and what is not in it is a user's
    have hbytes : (∀ x ∈ placed p, userAddrOk x.1 1#32 = true) ↔ ∀ x ∈ placed p, kernelPtCount ≤ (pdeIx x.1).val := by
      refine ⟨fun hu x hx => ?_, fun hk x hx => hlegal x hx (hk x hx)⟩
      rw [pdeIx_of_userAddrOk (hu x hx)]
      decide
    rw [← hbytes]
    refine and_congr_right fun hu => forall_congr' fun s₂ => imp_congr_right fun hs₂ => ?_
    exact ih (h₁.storeBytes hfew hu hs₂).1 hps

/-- If the stores are confined and one of them is not to a user's address, the caller is killed. -/
theorem Sys.Confined.killed {ps : List Put} (h : Sys.Confined fs n s ps)
    (hbad : ∃ p ∈ ps, ∃ x ∈ placed p, userAddrOk x.1 1#32 = false) : Sys.putFs fs n s ps = none := by
  induction ps generalizing s with
  | nil => simp at hbad
  | cons p ps ih =>
    unfold Sys.putFs
    refine Option.bind_eq_none_iff.mpr fun s₁ hs₁ => Option.bind_eq_none_iff.mpr fun s₂ hs₂ => ?_
    obtain ⟨hu, hrest⟩ := h s₁ hs₁
    refine ih (hrest s₂ hs₂) ?_
    obtain ⟨q, hq, x, hx, ha⟩ := hbad
    rcases List.mem_cons.mp hq with rfl | hq
    · rw [hu x hx] at ha
      cases ha
    · exact ⟨q, hq, x, hx, ha⟩

end

theorem machine_identityMap : IdentityMap machine.mm := by
  intro k hk i
  have hk' : kernelTable k ≠ kernelPgDir ∧ (kernelTable k).toNat = 0x101 + k := by
    unfold kernelPtCount at hk
    interval_cases k <;> decide
  show setupPaging (fun _ => zeroPage) (kernelTable k) i = _
  rw [setupPaging, if_neg hk'.1, if_pos (by unfold kernelPtCount at *; omega), hk'.2, Nat.add_sub_cancel_left]

end Linux001

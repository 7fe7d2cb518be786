import Linux001.Fs.BufferInv
import Linux001.Fs.InodeFrame

/-!
# Fs — what a write-back covers

`ll_rw_block()` clears `b_dirt` and `write_inode()` clears `i_dirt` after the transfer, whatever
has happened to the buffer or the inode while it slept.  So a write-back loses no update exactly
as long as nobody changes what has already gone out (`writeback_covers`).
-/

namespace Linux001

open Function InodeTab Cache

/-! ### A block -/

namespace Cache

variable {nt : ℕ} {s : Cache nt} {t t' : Fin nt} {b : BufRef} {lba : ℕ} {s' : Cache nt}

/-- A step moves its own task only. -/
theorem Edits.other {m : Bool} {V : BufRef → Prop} (h : Edits t m V s s') (e : t' ≠ t) :
    s'.pc t' = s.pc t' := by
  induction h with
  | after _ _ h₁ h₂ => exact h₁.trans h₂
  | pc => exact update_of_ne e _ _
  | refl | holds | buf | rehash | requeue | hd | disk => rfl

/-- Steps of other tasks than `t`, none of which changes the sectors `J` of the buffer `b` or of
the disk at `lba`. -/
def Spares (t : Fin nt) (b : BufRef) (lba : ℕ) (J : Fin 2 → Prop) :
    Cache nt → List (Fin nt × BufOp) → Prop
  | _, [] => True
  | s, x :: ops => x.1 ≠ t ∧ (∀ j, J j → ((s.step x.1 x.2).buf b).data j = (s.buf b).data j ∧
        (s.step x.1 x.2).disk (lba + j.val) = s.disk (lba + j.val)) ∧
      Spares t b lba J (s.step x.1 x.2) ops

theorem Spares.run {J : Fin 2 → Prop} {ops : List (Fin nt × BufOp)} (h : Spares t b lba J s ops) :
    (s.run ops).pc t = s.pc t ∧ ∀ j, J j → ((s.run ops).buf b).data j = (s.buf b).data j ∧
        (s.run ops).disk (lba + j.val) = s.disk (lba + j.val) := by
  induction ops generalizing s with
  | nil => exact ⟨rfl, fun _ _ => ⟨rfl, rfl⟩⟩
  | cons x ops ih =>
    obtain ⟨e, hx, h⟩ := h
    obtain ⟨h₁, h₂⟩ := ih h
    refine ⟨h₁.trans ((s.step_edits ..).other e.symm), fun j hj => ?_⟩
    exact ⟨(h₂ j hj).1.trans (hx j hj).1, (h₂ j hj).2.trans (hx j hj).2⟩

/-- No byte of a buffer or of the disk has changed. -/
structure SameData (s s' : Cache nt) : Prop where
  data : ∀ b, (s'.buf b).data = (s.buf b).data
  disk : s'.disk = s.disk

theorem SameData.trans {s₁ : Cache nt} (h : SameData s s₁) (h' : SameData s₁ s') : SameData s s' :=
  ⟨fun b => (h'.data b).trans (h.data b), h'.disk.trans h.disk⟩

theorem setBuf_sameData {x : Buf} (h : x.data = (s.buf b).data) : SameData s (s.setBuf b x) := by
  refine ⟨fun a => ?_, rfl⟩
  by_cases e : a = b
  · subst e
    simp [setBuf, h]
  · simp [setBuf, e]

theorem startRw_sameData (s : Cache nt) (t : Fin nt) (w : Bool) (a : BufRef) (k : Kont) :
    SameData s (s.startRw t w a k) := by
  have h : SameData s (s.setBuf a { s.buf a with lock := true }) := setBuf_sameData rfl
  exact ⟨h.data, h.disk⟩

theorem gotBlk_sameData (s : Cache nt) (t : Fin nt) (a : BufRef) (c : BlkCall) :
    SameData s (s.gotBlk t a c) := by
  cases c with
  | getblk k => exact ⟨fun _ => rfl, rfl⟩
  | bread k =>
    simp only [gotBlk]
    split
    · exact ⟨fun _ => rfl, rfl⟩
    split
    · exact ⟨fun _ => rfl, rfl⟩
    · exact s.startRw_sameData t false a .loaded

theorem rehash_sameData (s : Cache nt) (a : BufRef) (k : Key) : SameData s (s.rehash a k) := by
  have h : SameData s (s.setBuf a
      { s.buf a with count := 1#8, key := k, uptodate := false, dirt := false }) := setBuf_sameData rfl
  exact ⟨h.data, h.disk⟩

theorem syncLoop_sameData (s : Cache nt) (t : Fin nt) (dev : BitVec 16) (n j : ℕ) (a : BufRef) :
    SameData s (s.syncLoop t dev n j a) := by
  unfold syncLoop
  split
  · exact ⟨fun _ => rfl, rfl⟩
  next c _ =>
  have h : SameData s (s.setBuf c { s.buf c with count := (s.buf c).count + 1#8 }) :=
    setBuf_sameData rfl
  exact h.trans (startRw_sameData _ t true c _)

theorem afterRw_sameData (s : Cache nt) (t : Fin nt) (a : BufRef) (k : Kont) :
    SameData s (s.afterRw t a k) := by
  have hcount : ∀ n, SameData s (s.setBuf a { s.buf a with count := n }) := fun _ =>
    setBuf_sameData rfl
  cases k with
  | reuse c => exact ((hcount 0#8).trans (rehash_sameData _ a c.key)).trans (gotBlk_sameData _ t a c)
  | loaded =>
    simp only [afterRw]
    split
    · exact ⟨fun _ => rfl, rfl⟩
    · exact ⟨(hcount ((s.buf a).count - 1#8)).data, rfl⟩
  | done => exact ⟨fun _ => rfl, rfl⟩
  | sync dev j => exact (hcount _).trans (syncLoop_sameData _ t dev _ _ _)

theorem finish_sameData (s : Cache nt) (t : Fin nt) (w : Bool) (a : BufRef) (k : Kont) (ok : Bool) :
    SameData s (s.finish t w a k ok) := by
  have h₁ : SameData s ({ s with hd := none }.endRw w a ok) :=
    (show SameData s { s with hd := none } from ⟨fun _ => rfl, rfl⟩).trans (setBuf_sameData rfl)
  exact h₁.trans (afterRw_sameData _ t a k)

/-- The first sector goes out. -/
theorem step_first {k : Kont} (hp : s.pc t = .io true b lba (.sector 0) k) :
    s.step t (.resume true) =
      { s with disk := update s.disk lba ((s.buf b).data 0) }.setPc t
        (.io true b lba (.sector 1) k) := by
  simp [step, resume, hp, moveSector]

/-- The second sector goes out. -/
theorem step_second {k : Kont} (hp : s.pc t = .io true b lba (.sector 1) k) :
    s.step t (.resume true) =
      { s with disk := update s.disk (lba + 1) ((s.buf b).data 1) }.setPc t
        (.io true b lba .complete k) := by
  simp [step, resume, hp, moveSector]

/-- **A block's write-back.**  What is on disk afterwards is what the buffer holds, if no other
task has changed a sector that had gone out. -/
theorem write_covers {k : Kont} {A C : List (Fin nt × BufOp)}
    (hp : s.pc t = .io true b lba (.sector 0) k)
    (hA : Spares t b lba (· = 0) (s.step t (.resume true)) A)
    (hC : Spares t b lba (fun _ => True) (((s.step t (.resume true)).run A).step t (.resume true)) C) :
    ∀ j : Fin 2, (((((s.step t (.resume true)).run A).step t (.resume true)).run C).step t (.resume true)).disk
          (lba + j.val) =
        ((((((s.step t (.resume true)).run A).step t (.resume true)).run C).step t
          (.resume true)).buf b).data j := by
  have h₁ := step_first hp
  obtain ⟨hpA, hA⟩ := hA.run
  have hp₁ : ((s.step t (.resume true)).run A).pc t = .io true b lba (.sector 1) k := by
    rw [hpA, h₁]
    simp [setPc]
  have h₂ := step_second hp₁
  obtain ⟨hpC, hC⟩ := hC.run
  have hout : (s.step t (.resume true)).disk (lba + (0 : Fin 2).val) = ((s.step t (.resume true)).buf b).data 0 := by
    rw [h₁]
    simp [setPc]
  have hzero : ((s.step t (.resume true)).run A).disk (lba + (0 : Fin 2).val) =
      (((s.step t (.resume true)).run A).buf b).data 0 := by
    rw [(hA 0 rfl).1, (hA 0 rfl).2, hout]
  generalize (s.step t (.resume true)).run A = s₂ at *
  have hp₃ : ((s₂.step t (.resume true)).run C).pc t = .io true b lba .complete k := by
    rw [hpC, h₂]
    simp [setPc]
  generalize (s₂.step t (.resume true)).run C = s₄ at *
  have hfin : s₄.step t (.resume true) = s₄.finish t true b k true := by
    simp [step, resume, hp₃]
  have hsame := s₄.finish_sameData t true b k true
  intro j
  rw [hfin, hsame.data, hsame.disk, (hC j trivial).1, (hC j trivial).2, h₂]
  by_cases hj : j = 0
  · subst hj
    have e : lba + (0 : Fin 2).val ≠ lba + 1 := by simp
    exact (update_of_ne e _ _).trans hzero
  · obtain rfl : j = 1 := by omega
    exact update_self _ _ _

end Cache

/-! ### An inode -/

namespace InodeTab

variable {nt : ℕ} {s : InodeTab nt} {t t' : Fin nt} {v : InodeRef} {k : InoKey}

/-- Steps of other tasks than `t`, none of which changes the inode in the slot `v` or its
body. -/
def Spares (t : Fin nt) (v : InodeRef) : InodeTab nt → List (Fin nt × InoOp) → Prop
  | _, [] => True
  | s, x :: ops => x.1 ≠ t ∧ ((s.step x.1 x.2).key v = s.key v ∧ ((s.step x.1 x.2).slot v).body = (s.slot v).body) ∧
      Spares t v (s.step x.1 x.2) ops

theorem Spares.run {ops : List (Fin nt × InoOp)} (h : Spares t v s ops) :
    (s.run ops).pc t = s.pc t ∧ (s.run ops).key v = s.key v ∧ ((s.run ops).slot v).body = (s.slot v).body := by
  induction ops generalizing s with
  | nil => exact ⟨rfl, rfl, rfl⟩
  | cons x ops ih =>
    obtain ⟨e, ⟨hk, hb⟩, h⟩ := h
    obtain ⟨h₁, h₂, h₃⟩ := ih h
    exact ⟨h₁.trans (Aside.step.pc t e.symm), h₂.trans hk, h₃.trans hb⟩

theorem afterWrite_disk (s : InodeTab nt) (t : Fin nt) (v : InodeRef) (c : IKont) :
    (s.afterWrite t v c).disk = s.disk := by
  cases c with
  | claim k =>
    simp only [afterWrite, claim]
    split
    · rfl
    · split <;> rfl
  | sync dev =>
    simp only [afterWrite, syncScan]
    split <;> rfl

/-- **An inode's write-back.**  What is on disk afterwards is the inode, if no other task has
changed it since its body was copied. -/
theorem write_covers {c : IKont} {A : List (Fin nt × InoOp)}
    (hp : s.pc t = .write v (.fetch (s.key v)) c) (hA : Spares t v (s.step t (.resume true)) A) :
    (((s.step t (.resume true)).run A).step t (.resume true)).disk
        (((s.step t (.resume true)).run A).key v) =
      (((s.step t (.resume true)).run A).slot v).body := by
  have h₁ : s.step t (.resume true) = s.setPc t (.write v (.put (s.key v) (s.slot v).body) c) := by
    have hplace : (s.key v).place (s.slot v).key = s.key v := InoKey.place_self _
    simp [step, resume, hp, hplace]
  obtain ⟨hpA, hk, hb⟩ := hA.run
  have hk₁ : (s.step t (.resume true)).key v = s.key v := by rw [h₁]; rfl
  have hb₁ : ((s.step t (.resume true)).slot v).body = (s.slot v).body := by rw [h₁]; rfl
  have hp₁ : ((s.step t (.resume true)).run A).pc t = .write v (.put (s.key v) (s.slot v).body) c := by
    rw [hpA, h₁]
    simp [setPc]
  generalize (s.step t (.resume true)).run A = s₂ at *
  rw [hk, hk₁, hb, hb₁]
  simp only [step, resume, hp₁, if_true, Option.getD_some, afterWrite_disk]
  exact update_self _ _ _

end InodeTab

/-- **No write-back loses an update**, if no other task changes what has gone out before the drive
has answered.  For a block: from the first sector on, until the transfer is over.  For an inode:
from the moment its body is in the buffer. -/
theorem writeback_covers {nt : ℕ} :
    (∀ (s : Cache nt) (t : Fin nt) (b : BufRef) (lba : ℕ) (k : Kont) (A C : List (Fin nt × BufOp)),
      s.pc t = .io true b lba (.sector 0) k →
      Cache.Spares t b lba (· = 0) (s.step t (.resume true)) A →
      Cache.Spares t b lba (fun _ => True) (((s.step t (.resume true)).run A).step t (.resume true)) C →
      let s' := ((((s.step t (.resume true)).run A).step t (.resume true)).run C).step t (.resume true)
      (∀ j : Fin 2, s'.disk (lba + j.val) = (s'.buf b).data j) ∨ (s'.buf b).dirt = true) ∧
    (∀ (s : InodeTab nt) (t : Fin nt) (v : InodeRef) (c : IKont) (A : List (Fin nt × InoOp)),
      s.pc t = .write v (.fetch (s.key v)) c →
      InodeTab.Spares t v (s.step t (.resume true)) A →
      let s₁ := (s.step t (.resume true)).run A
      (s₁.step t (.resume true)).disk (s₁.key v) = (s₁.slot v).body ∨
        ((s₁.step t (.resume true)).slot v).iDirt = true) :=
  ⟨fun _ _ _ _ _ _ _ hp hA hC => .inl (write_covers hp hA hC),
    fun _ _ _ _ _ hp hA => .inl (write_covers hp hA)⟩

/-- Two tasks share a block; one changes it and writes it.  The first sector has gone out. -/
def halfWritten : List (Fin 2 × BufOp) :=
  [(0, .getblk Cache.blockX), (1, .getblk Cache.blockX), (0, .modify 0 0 fun _ => 0x41#8),
    (0, .llRw true 0), (0, .resume true), (0, .resume true)]

/-- Two tasks share an inode; one changes it, and `sync_inodes()` has copied it. -/
def halfSynced : List (Fin 2 × InoOp) :=
  [(0, .iget InodeTab.inodeX), (0, .resume true), (1, .iget InodeTab.inodeX),
    (0, .modify 0 InodeTab.inodeX { iSize := 1#32 }), (0, .sync 1#16), (0, .resume true)]

/-- **The other task changes it now**: the write that then completes takes the mark away. -/
theorem writeback_loses :
    (let s := (Cache.init 2 fun _ _ => 0#8).run
       (halfWritten ++ [(1, .modify 0 0 fun _ => 0x42#8), (0, .resume true), (0, .resume true)])
     s.disk 20 0 = 0x41#8 ∧ (s.buf 0).data 0 0 = 0x42#8 ∧ (s.buf 0).dirt = false ∧ s.pc 0 = .idle) ∧
    (let s := InodeTab.oneDevice.run
       (halfSynced ++ [(1, .modify 0 InodeTab.inodeX { iSize := 2#32 }), (0, .resume true)])
     (s.disk InodeTab.inodeX).iSize = 1#32 ∧ (s.slot 0).body.iSize = 2#32 ∧ (s.slot 0).iDirt = false) := by
  decide

/-- The other task releases the block, and looks the inode up: the writes cover the changes. -/
theorem lookup_covered :
    (let s := (Cache.init 2 fun _ _ => 0#8).run
       (halfWritten ++ [(1, .brelse 0), (0, .resume true), (0, .resume true)])
     s.disk 20 0 = 0x41#8 ∧ (s.buf 0).dirt = false) ∧
    (let s := InodeTab.oneDevice.run (halfSynced ++ [(1, .iget InodeTab.inodeX), (0, .resume true)])
     (s.disk InodeTab.inodeX).iSize = 1#32) := by
  obtain ⟨hb, hi⟩ := @writeback_covers 2
  have h₁ := hb ((init 2 fun _ _ => 0#8).run (halfWritten.take 5)) 0 0 20 .done
    [(1, .brelse 0)] [] (by decide)
    ⟨by decide, fun j _ => ⟨rfl, rfl⟩, trivial⟩ trivial
  have h₂ := hi (oneDevice.run (halfSynced.take 5)) 0 0 (.sync 1#16)
    [(1, .iget inodeX)] rfl ⟨by decide, ⟨rfl, rfl⟩, trivial⟩
  refine ⟨⟨?_, by decide⟩, ?_⟩
  · rcases h₁ with h | h
    · exact congrFun (h 0) 0
    · cases h
  · rcases h₂ with h | h
    · exact congrArg DInode.iSize h
    · cases h

end Linux001

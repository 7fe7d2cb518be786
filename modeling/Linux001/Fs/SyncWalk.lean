import Linux001.Fs.WriteBack
import Linux001.Lib.Run

/-!
# Fs — what `sync_dev()` reaches

`sync_dev()` takes 256 steps along `b_next_free`, and sleeps in each of its writes.  A head that another
task releases meanwhile is put behind `free_list`, where the walk began: if the walk had not come to it
yet, it never does (`sync_misses`).  While the list stays as it is and the drive does what it is told,
every dirty head is passed (`Walks`); and a dirty head loses its mark only at the end of a write that has
sent both its sectors (`Waits`).  So every head that was dirty gets to the disk (`sync_reaches`).
-/

namespace Linux001.Cache

open Function List Cache

variable {nt : ℕ} {s s' s₀ : Cache nt} {t : Fin nt} {a b : BufRef} {dev : BitVec 16} {V : BufRef → Prop} {A C : List BufRef}
  {n : ℕ}

/-! ### The list -/

theorem requeue_perm {l : List BufRef} (h : b ∈ l) : (requeue b l).Perm l := by
  cases l with
  | nil => exact .refl _
  | cons x l =>
    show (if x = b then x :: l else b :: l.erase b ++ [x]).Perm _
    split
    · exact .refl _
    next hne =>
    have hb : b ∈ l := (mem_cons.mp h).resolve_left fun e => hne e.symm
    have hrest : (l.erase b ++ [x]).Perm (x :: l.erase b) := perm_append_comm
    exact (hrest.cons b).trans ((List.Perm.swap x b _).trans ((perm_cons_erase hb).symm.cons x))

theorem Edits.free_perm {m : Bool} (h : Edits t m V s s') (hs : s.free.Perm (List.finRange 256)) :
    s'.free.Perm (List.finRange 256) := by
  induction h with
  | after _ _ h₁ h₂ => exact h₁ (h₂ hs)
  | requeue => exact (requeue_perm (hs.mem_iff.mpr (mem_finRange _))).trans hs
  | refl | pc | holds | buf | rehash | hd | disk => exact hs

/-- Every head is on the list, once. -/
theorem run_perm (nt : ℕ) (disk : ℕ → HdSector) (ops : List (Fin nt × BufOp)) :
    ((init nt disk).run ops).free.Perm (List.finRange 256) :=
  Run.inv (I := fun s : Cache nt => s.free.Perm (finRange 256))
    (fun {s x} hs => (s.step_edits x.1 x.2).free_perm hs) ops (by simp [init])

theorem nextFree_eq {c : BufRef} (hs : s.free = A ++ b :: c :: C) (hn : s.free.Nodup) :
    s.nextFree b = c := by
  have hb : ∀ x ∈ A, decide (x ≠ b) = true := fun x hx => decide_eq_true fun e => by
    rw [hs] at hn
    exact (nodup_append.mp hn).2.2 x hx b mem_cons_self e
  unfold nextFree
  rw [hs, dropWhile_append_of_pos hb, dropWhile_cons_of_neg (by simp)]

/-! ### What becomes of a dirty head -/

/-- Without its holder a head only gets clean, or another block. -/
theorem Edits.wanes (h : Edits t false V s s') (hd : (s'.buf a).dirt = true) :
    (s.buf a).dirt = true ∧ s'.key a = s.key a := by
  induction h with
  | after _ _ h₁ h₂ =>
    obtain ⟨h₃, h₄⟩ := h₁ hd
    exact ⟨(h₂ h₃).1, h₄.trans (h₂ h₃).2⟩
  | @buf s b x hk hx =>
    by_cases e : a = b
    · subst e
      simp only [setBuf, Cache.key, update_self] at hd hk ⊢
      exact ⟨(hx hd).resolve_right Bool.false_ne_true, hk⟩
    · simp only [setBuf, Cache.key, update_of_ne e] at hd ⊢
      exact ⟨hd, trivial⟩
  | @rehash s b k =>
    have e : a ≠ b := by
      rintro rfl
      simp [Cache.rehash] at hd
    simp only [Cache.rehash, Cache.key, update_of_ne e] at hd ⊢
    exact ⟨hd, trivial⟩
  | refl | pc | holds | requeue | hd | disk => exact ⟨hd, rfl⟩

/-- The head is clean, or has another block than in `s₀`, or its block was on another device. -/
def Settled (s₀ : Cache nt) (dev : BitVec 16) (s : Cache nt) (a : BufRef) : Prop :=
  (s.buf a).dirt = true → s.key a = s₀.key a → (s₀.key a).dev ≠ dev

theorem Settled.edits (h : Settled s₀ dev s a) (he : Edits t false V s s') : Settled s₀ dev s' a := fun hd hk => by
  obtain ⟨h₁, h₂⟩ := he.wanes hd
  exact h h₁ (h₂.symm.trans hk)

/-! ### The walk -/

/-- **Where the walk is**: at its end, or in the write of `b`, with all heads before `b` settled. -/
def Walks (s₀ : Cache nt) (t : Fin nt) (dev : BitVec 16) (s : Cache nt) : Prop :=
  s.free = s₀.free ∧ (s.pc t = .idle ∧ (∀ a ∈ s₀.free, Settled s₀ dev s a) ∨
      ∃ A b C lba st, s.pc t = .io true b lba st (.sync dev A.length) ∧ s₀.free = A ++ b :: C ∧
        ∀ a ∈ A, Settled s₀ dev s a)

theorem syncLoop_skips {i : ℕ} (h : ¬ ((s.buf b).key.dev = dev ∧ (s.buf b).dirt)) :
    s.syncLoop t dev (n + 1) i b = s.syncLoop t dev n (i + 1) (s.nextFree b) := by
  unfold syncLoop
  rw [syncPick, if_neg h]

theorem settled_of_passed (h : ¬ ((s.buf b).key.dev = dev ∧ (s.buf b).dirt)) : Settled s₀ dev s b := fun hd hk hdev =>
  h ⟨(congrArg Key.dev hk).trans hdev, hd⟩

theorem syncLoop_free {i : ℕ} : (s.syncLoop t dev n i b).free = s.free := by
  unfold syncLoop
  split <;> rfl

theorem syncLoop_writes (hs : s.free = s₀.free) (hL : s₀.free = A ++ b :: C)
    (hA : ∀ a ∈ A, Settled s₀ dev s a) (h : (s.buf b).key.dev = dev ∧ (s.buf b).dirt) :
    Walks s₀ t dev (s.syncLoop t dev (n + 1) A.length b) := by
  refine ⟨by rw [syncLoop_free, hs], .inr ⟨A, b, C, (s.buf b).key.block.toNat * 2, .lock, ?_, hL,
    fun a ha => (hA a ha).edits (V := fun _ => False) .syncLoop⟩⟩
  unfold syncLoop
  rw [syncPick, if_pos h]
  simp [startRw, setPc, setBuf]

/-- The loop up to the next write, from the head `b` on. -/
theorem syncLoop_walks (hn : s₀.free.Nodup) (hs : s.free = s₀.free) (hL : s₀.free = A ++ b :: C)
    (hA : ∀ a ∈ A, Settled s₀ dev s a) : Walks s₀ t dev (s.syncLoop t dev (C.length + 1) A.length b) := by
  induction C generalizing A b with
  | nil =>
    by_cases h : (s.buf b).key.dev = dev ∧ (s.buf b).dirt
    · exact syncLoop_writes hs hL hA h
    refine ⟨by rw [syncLoop_free, hs], .inl ⟨?_, fun a ha => ?_⟩⟩
    · rw [syncLoop_skips h]
      exact update_self ..
    rw [hL, mem_append, mem_singleton] at ha
    refine Settled.edits (V := fun _ => False) ?_ .syncLoop
    rcases ha with ha | rfl
    · exact hA a ha
    · exact settled_of_passed h
  | cons c C ih =>
    by_cases h : (s.buf b).key.dev = dev ∧ (s.buf b).dirt
    · exact syncLoop_writes hs hL hA h
    have hnext : s.nextFree b = c := nextFree_eq (hs.trans hL) (hs ▸ hn)
    have h₁ := ih (A := A ++ [b]) (by simpa using hL) fun a ha => by
      rcases mem_append.mp ha with ha | ha
      · exact hA a ha
      · rw [mem_singleton.mp ha]
        exact settled_of_passed h
    rw [length_append] at h₁
    rwa [length_cons, syncLoop_skips h, hnext]

/-- The drive does what it is told. -/
def answered : BufOp → Bool
  | .resume ok => ok
  | .getblk _ | .bread _ | .brelse _ | .llRw .. | .sync _ | .modify .. => false

/-- The task reads the block of a head that is dirty. -/
def readsDirty (s : Cache nt) (t : Fin nt) : Bool :=
  match s.pc t with
  | .io w b _ _ _ => !w && (s.buf b).dirt
  | .idle | .retry _ | .waitBuf _ => false

/-- **The condition on a step** while `sync_dev()` runs: the list stays as it is, no buffer is changed and no
dirty one read over, and the drive does what the task `t` waits for. -/
def Unmoved (t : Fin nt) (s : Cache nt) (x : Fin nt × BufOp) : Prop :=
  (s.step x.1 x.2).free = s.free ∧ s.readsDirty x.1 = false ∧ modifies x.2 = false ∧ (x.1 = t → answered x.2 = true)

instance decidableUnmoved (t : Fin nt) (s : Cache nt) (x : Fin nt × BufOp) : Decidable (Unmoved t s x) :=
  inferInstanceAs (Decidable (_ ∧ _ ∧ _ ∧ _))

/-- The write of a head is over. -/
theorem finish_walks (hn : s₀.free.Nodup) (hlen : s₀.free.length = 256) (hs : s.free = s₀.free)
    (hL : s₀.free = A ++ b :: C) (hA : ∀ a ∈ A, Settled s₀ dev s a) :
    Walks s₀ t dev (s.finish t true b (.sync dev A.length) true) := by
  let s₁ := { s with hd := none }.endRw true b true
  let s₂ := s₁.setBuf b { s₁.buf b with count := (s₁.buf b).count - 1#8 }
  have hb : ∀ a ∈ A ++ [b], Settled s₀ dev s₂ a := fun a ha => by
    rcases mem_append.mp ha with ha | ha
    · exact (hA a ha).edits (t := t) (V := fun _ => False) (.after (.same rfl rfl) (.after .endRw .hd))
    rw [mem_singleton.mp ha]
    intro hd
    simp [s₂, s₁, endRw, setBuf] at hd
  have hlen' := congrArg length hL
  rw [length_append, length_cons, hlen] at hlen'
  show Walks s₀ t dev (s₂.syncLoop t dev (256 - (A.length + 1)) (A.length + 1) (s₂.nextFree b))
  cases C with
  | nil =>
    rw [length_nil] at hlen'
    rw [show 256 - (A.length + 1) = 0 by omega]
    refine ⟨hs, .inl ⟨update_self .., fun a ha => (hb a (hL ▸ ha)).edits (V := fun _ => False) .syncLoop⟩⟩
  | cons c C =>
    have hnext : s₂.nextFree b = c := nextFree_eq (hs.trans hL) (show s.free.Nodup from hs ▸ hn)
    rw [length_cons] at hlen'
    have h := syncLoop_walks (t := t) (s := s₂) hn hs (by simpa using hL) hb
    rw [length_append] at h
    rwa [hnext, show 256 - (A.length + 1) = C.length + 1 by omega]

/-- A write goes on, or is over. -/
theorem write_goes {lba : ℕ} {st : Stage} {k : Kont} (hp : s.pc t = .io true b lba st k) :
    (∃ st', (s.step t (.resume true)).pc t = .io true b lba st' k) ∨
      s.step t (.resume true) = s.finish t true b k true := by
  cases st with
  | lock =>
    simp only [step, resume, hp, if_true]
    split
    · exact .inl ⟨_, hp⟩
    · exact .inl ⟨_, update_self ..⟩
  | sector j =>
    simp only [step, resume, hp, if_true]
    split
    · exact .inl ⟨_, update_self ..⟩
    · exact .inl ⟨_, update_self ..⟩
  | complete =>
    right
    simp [step, resume, hp]

/-- **One step**, of the walk or of another task. -/
theorem Walks.step {x : Fin nt × BufOp} (hn : s₀.free.Nodup) (hlen : s₀.free.length = 256) (h : Walks s₀ t dev s)
    (hx : Unmoved t s x) : Walks s₀ t dev (s.step x.1 x.2) := by
  obtain ⟨hfree, -, hm, ht⟩ := hx
  obtain ⟨hs, h⟩ := h
  have he := s.step_edits x.1 x.2
  rw [hm] at he
  have hpc : x.1 ≠ t → (s.step x.1 x.2).pc t = s.pc t := fun e =>
    (s.step_edits ..).other fun h => e h.symm
  have hown : x.1 = t → x = (t, .resume true) := fun e => by
    obtain ⟨t, op⟩ := x
    cases op with
    | resume ok => rw [show ok = true from ht e, show t = _ from e]
    | getblk | bread | brelse | llRw | sync | modify => cases ht e
  rcases h with ⟨hp, hall⟩ | ⟨A, b, C, lba, st, hp, hL, hA⟩
  · refine ⟨hfree.trans hs, .inl ⟨?_, fun a ha => (hall a ha).edits he⟩⟩
    by_cases e : x.1 = t
    · rw [hown e]
      simp [Cache.step, Cache.resume, hp]
    · exact (hpc e).trans hp
  have hgo : ∀ {st'}, (s.step x.1 x.2).pc t = .io true b lba st' (.sync dev A.length) →
      Walks s₀ t dev (s.step x.1 x.2) := fun {st'} hp' =>
    ⟨hfree.trans hs, .inr ⟨A, b, C, lba, st', hp', hL, fun a ha => (hA a ha).edits he⟩⟩
  by_cases e : x.1 = t
  · rw [hown e] at hgo ⊢
    rcases write_goes hp with ⟨st', hp'⟩ | hfin
    · exact hgo hp'
    · rw [hfin]
      exact finish_walks hn hlen hs hL hA
  · exact hgo ((hpc e).trans hp)

/-! ### What goes out to the disk -/

/-- A task does not begin a write. -/
def Quiet (p : Pc) : Prop := ∀ a lba st k, p ≠ .io true a lba st k

/-- A write begins at the first sector of the head's block. -/
def Begins (s : Cache nt) (p : Pc) : Prop :=
  ∀ a lba st k, p = .io true a lba st k → st = .lock ∧ lba = (s.key a).block.toNat * 2

theorem Quiet.begins {p : Pc} (h : Quiet p) : Begins s p := fun a lba st k hp => absurd hp (h a lba st k)

theorem Begins.of_key {p : Pc} (h : Begins s p) (hk : ∀ a, s.key a = s₀.key a) : Begins s₀ p := by
  intro a lba st k hp
  rw [← hk]
  exact h a lba st k hp

/-- The head keeps its block, its bytes and its mark. -/
structure Kept (s : Cache nt) (a : BufRef) (s' : Cache nt) : Prop where
  key : s'.key a = s.key a
  data : (s'.buf a).data = (s.buf a).data
  dirt : (s.buf a).dirt = true → (s'.buf a).dirt = true

theorem Kept.of_buf (h : s'.buf = s.buf) : Kept s a s' := ⟨by rw [Cache.key, h]; rfl, by rw [h], by rw [h]; exact id⟩

theorem Kept.trans (h : Kept s₀ a s) (h' : Kept s a s') : Kept s₀ a s' :=
  ⟨h'.key.trans h.key, h'.data.trans h.data, fun hd => h'.dirt (h.dirt hd)⟩

theorem setBuf_kept {x : Buf} (hx : a = b → x.key = s.key b ∧ x.data = (s.buf b).data ∧ x.dirt = (s.buf b).dirt) :
    Kept s a (s.setBuf b x) := by
  by_cases e : a = b
  · subst e
    obtain ⟨h₁, h₂, h₃⟩ := hx rfl
    constructor <;> simp [Cache.key, setBuf, h₁, h₂, h₃]
  · constructor <;> simp [Cache.key, setBuf, e]

theorem count_kept (s : Cache nt) (b : BufRef) (n : Byte) (a : BufRef) :
    Kept s a (s.setBuf b { s.buf b with count := n }) := setBuf_kept fun _ => ⟨rfl, rfl, rfl⟩

theorem startRw_kept {w : Bool} {k : Kont} (a : BufRef) : Kept s a (s.startRw t w b k) :=
  (setBuf_kept fun _ => ⟨rfl, rfl, rfl⟩ : Kept s a (s.setBuf b { s.buf b with lock := true })).trans (.of_buf rfl)

theorem startRw_begins {k : Kont} : Begins s ((s.startRw t true b k).pc t) := by
  intro a lba st k' hp
  simp only [startRw, setPc, update_self, Pc.io.injEq] at hp
  obtain ⟨-, rfl, rfl, rfl, -⟩ := hp
  exact ⟨rfl, rfl⟩

theorem gotBlk_goes {c : BlkCall} (a : BufRef) :
    Quiet ((s.gotBlk t b c).pc t) ∧ Kept s a (s.gotBlk t b c) := by
  have hgive : Quiet ((s.give t b).pc t) ∧ Kept s a (s.give t b) :=
    ⟨fun _ _ _ _ h => by simp [give] at h, .of_buf rfl⟩
  cases c with
  | getblk k => exact hgive
  | bread k =>
    simp only [gotBlk]
    split
    · exact hgive
    split
    · exact ⟨fun _ _ _ _ h => by simp [setPc] at h, .of_buf rfl⟩
    · exact ⟨fun _ _ _ _ h => by simp [startRw, setPc] at h, startRw_kept a⟩

theorem rehash_kept {k : Key} (h : a ≠ b) : Kept s a (s.rehash b k) := by
  constructor <;> simp [Cache.key, rehash, h]

/-- **`getblk`** reuses a clean head at once, and writes a dirty one first. -/
theorem getblk_goes {c : BlkCall} (hd : (s.buf a).dirt = true) :
    Begins s ((s.getblk t c).pc t) ∧ Kept s a (s.getblk t c) := by
  unfold Cache.getblk
  split
  · next b _ =>
    exact ⟨(gotBlk_goes a).1.begins, (count_kept s b _ a).trans (gotBlk_goes a).2⟩
  split
  · exact ⟨fun _ _ _ _ h => by simp [setPc] at h, .of_buf rfl⟩
  next b _ =>
  split
  · exact ⟨startRw_begins.of_key fun a => (count_kept s b _ a).key, (count_kept s b _ a).trans (startRw_kept a)⟩
  · next hclean =>
    have hne : a ≠ b := fun e => hclean (e ▸ hd)
    exact ⟨(gotBlk_goes a).1.begins, (rehash_kept hne).trans (gotBlk_goes a).2⟩

theorem syncLoop_goes {i : ℕ} (a : BufRef) :
    Begins s ((s.syncLoop t dev n i b).pc t) ∧ Kept s a (s.syncLoop t dev n i b) := by
  unfold syncLoop
  split
  · exact ⟨fun _ _ _ _ h => by simp [setPc] at h, .of_buf rfl⟩
  next c _ =>
  exact ⟨startRw_begins.of_key fun a => (count_kept s c _ a).key, (count_kept s c _ a).trans (startRw_kept a)⟩

/-- The end of a transfer clears the mark of the head that has been written, and gives the head that
`getblk` has chosen its new block. -/
theorem finish_goes {w o : Bool} {k : Kont} (a : BufRef) :
    Begins s ((s.finish t w b k o).pc t) ∧
      (Kept s a (s.finish t w b k o) ∨ b = a ∧ (w = true ∧ o = true ∨ ∃ c, k = .reuse c)) := by
  have hsame : SameKeys { s with hd := none } ({ s with hd := none }.endRw w b o) := setBuf_sameKeys rfl
  have hkey : ∀ a, ({ s with hd := none }.endRw w b o).key a = s.key a := congrFun hsame.key
  have hend : Kept s a ({ s with hd := none }.endRw w b o) ∨ b = a ∧ w = true ∧ o = true := by
    by_cases h : b = a ∧ w = true ∧ o = true
    · exact .inr h
    have hkept : Kept { s with hd := none } a ({ s with hd := none }.endRw w b o) := by
      refine setBuf_kept fun e => ⟨rfl, rfl, if_neg ?_⟩
      simpa [e] using h
    exact .inl ((.of_buf rfl : Kept s a { s with hd := none }).trans hkept)
  unfold finish
  generalize { s with hd := none }.endRw w b o = s₁ at hkey hend
  have hthen : ∀ {s'}, Kept s₁ a s' → Kept s a s' ∨ b = a ∧ (w = true ∧ o = true ∨ ∃ c, k = .reuse c) :=
    fun h => hend.imp (·.trans h) fun h => ⟨h.1, .inl h.2⟩
  cases k with
  | reuse c =>
    refine ⟨(gotBlk_goes a).1.begins, ?_⟩
    by_cases e : b = a
    · exact .inr ⟨e, .inr ⟨c, rfl⟩⟩
    · exact hthen (((count_kept s₁ b _ a).trans (rehash_kept fun h => e h.symm)).trans (gotBlk_goes a).2)
  | loaded =>
    simp only [afterRw]
    split
    · exact ⟨fun _ _ _ _ h => by simp [give] at h, hthen (.of_buf rfl)⟩
    · exact ⟨fun _ _ _ _ h => by simp [setPc] at h, hthen ((count_kept s₁ b _ a).trans (.of_buf rfl))⟩
  | done => exact ⟨fun _ _ _ _ h => by simp [afterRw, setPc] at h, hthen (.of_buf rfl)⟩
  | sync dev i =>
    refine ⟨(syncLoop_goes a).1.of_key fun a => ?_, hthen ((count_kept s₁ b _ a).trans (syncLoop_goes a).2)⟩
    exact ((count_kept s₁ b _ a).key).trans (hkey a)

/-- The call of `getblk` that has chosen the head goes on with it: the head gets another block. -/
def Recycles (s : Cache nt) (t : Fin nt) (op : BufOp) (a : BufRef) : Prop :=
  ∃ k, (s.pc t).reusing = some (a, k) ∧ ((s.step t op).pc t).reusing = none

theorem finish_reusing {w ok : Bool} {c : BlkCall} : ((s.finish t w b (.reuse c) ok).pc t).reusing = none := by
  unfold finish afterRw
  cases c with
  | getblk k => simp [gotBlk, give, Pc.reusing]
  | bread k =>
    simp only [gotBlk]
    split
    · simp [give, Pc.reusing]
    split
    · simp [setPc, Pc.reusing]
    · simp [startRw, setPc, Pc.reusing, Kont.target]

/-- What a step of the task may do to its own write of a head: begin it, leave it, get the drive for it, or
send a sector. -/
def Writes (s : Cache nt) (t : Fin nt) (s' : Cache nt) (a : BufRef) : Prop :=
  ∀ lba st k, s'.pc t = .io true a lba st k →
    (st = .lock ∧ lba = (s.key a).block.toNat * 2) ∨ s.pc t = .io true a lba st k ∨
    (st = .sector 0 ∧ s.pc t = .io true a lba .lock k) ∨
    ∃ j : Fin 2, s.pc t = .io true a lba (.sector j) k ∧ s'.disk (lba + j.val) = (s.buf a).data j ∧
      st = if j = 0 then .sector 1 else .complete

theorem Begins.writes (h : Begins s (s'.pc t)) : Writes s t s' a := fun lba st k hp => .inl (h a lba st k hp)

/-- What a step may do to a head: leave it as it is, end its write, or give it another block. -/
def Leaves (s : Cache nt) (t : Fin nt) (op : BufOp) (a : BufRef) : Prop :=
  Kept s a (s.step t op) ∨ (∃ lba k, s.pc t = .io true a lba .complete k) ∨ Recycles s t op a

/-- The transfer is over; a sector may have come in before. -/
theorem over_goes {op : BufOp} {w : Bool} {lba : ℕ} {st : Stage} {k : Kont} (s₀ : Cache nt) (o : Bool)
    (hp : s.pc t = .io w b lba st k) (he : s.step t op = s₀.finish t w b k o) (hk : Kept s a s₀)
    (hkey : ∀ a, s₀.key a = s.key a) (hc : o = true → w = true → st = .complete) :
    Writes s t (s.step t op) a ∧ Leaves s t op a := by
  obtain ⟨h₁, h₂⟩ := finish_goes (s := s₀) (t := t) (w := w) (b := b) (k := k) (o := o) a
  unfold Leaves Recycles
  rw [he, hp]
  refine ⟨(h₁.of_key hkey).writes, h₂.imp hk.trans ?_⟩
  rintro ⟨rfl, ⟨rfl, rfl⟩ | ⟨c, rfl⟩⟩
  · obtain rfl := hc rfl rfl
    exact .inl ⟨lba, k, rfl⟩
  · exact .inr ⟨c.key, rfl, finish_reusing⟩

/-- **A sleeping task goes on.** -/
theorem resume_goes {ok : Bool} (hd : (s.buf a).dirt = true) (hr : s.readsDirty t = false) :
    Writes s t (s.step t (.resume ok)) a ∧ Leaves s t (.resume ok) a := by
  have hstay : Writes s t s a := fun _ _ _ hp => .inr (.inl hp)
  unfold Leaves
  cases hp : s.pc t with
  | idle =>
    rw [show s.step t (.resume ok) = s by simp [step, resume, hp]]
    exact ⟨hstay, .inl (.of_buf rfl)⟩
  | retry c =>
    rw [show s.step t (.resume ok) = s.getblk t c by simp [step, resume, hp]]
    exact ⟨(getblk_goes hd).1.writes, .inl (getblk_goes hd).2⟩
  | waitBuf b =>
    simp only [step, resume, hp]
    split
    · exact ⟨hstay, .inl (.of_buf rfl)⟩
    split
    · exact ⟨fun _ _ _ h => by simp [give] at h, .inl (.of_buf rfl)⟩
    · exact ⟨fun _ _ _ h => by simp [startRw, setPc] at h, .inl (startRw_kept a)⟩
  | io w b lba st k =>
    cases st with
    | lock =>
      by_cases hhd : s.hd.isSome
      · rw [show s.step t (.resume ok) = s by simp [step, resume, hp, hhd]]
        exact ⟨hstay, .inl (.of_buf rfl)⟩
      cases ok with
      | false =>
        rw [← hp]
        exact over_goes s false hp (by simp [step, resume, hp, hhd]) (.of_buf rfl) (fun _ => rfl) fun h => by cases h
      | true =>
        rw [show s.step t (.resume true) = { s with hd := some t }.setPc t (.io w b lba (.sector 0) k) by
          simp [step, resume, hp, hhd]]
        refine ⟨fun lba' st' k' h => ?_, .inl (.of_buf rfl)⟩
        simp only [setPc, update_self, Pc.io.injEq] at h
        obtain ⟨rfl, rfl, rfl, rfl, rfl⟩ := h
        exact .inr (.inr (.inl ⟨rfl, hp⟩))
    | sector j =>
      cases ok with
      | false =>
        rw [← hp]
        exact over_goes s false hp (by simp [step, resume, hp]) (.of_buf rfl) (fun _ => rfl) fun h => by cases h
      | true =>
        cases w with
        | true =>
          rw [show s.step t (.resume true) = (s.moveSector true b lba j).setPc t
              (.io true b lba (if j = 0 then .sector 1 else .complete) k) by
            simp only [step, resume, hp, if_true]
            split <;> rfl]
          refine ⟨fun lba' st' k' h => ?_, .inl (.of_buf rfl)⟩
          simp only [setPc, update_self, Pc.io.injEq] at h
          obtain ⟨-, rfl, rfl, rfl, rfl⟩ := h
          exact .inr (.inr (.inr ⟨j, hp, update_self .., rfl⟩))
        | false =>
          -- a sector comes in, of another head
          have hne : a ≠ b := fun e => by simp [readsDirty, hp, ← e, hd] at hr
          have hkept : Kept s a (s.moveSector false b lba j) := setBuf_kept fun e => absurd e hne
          have hsame : SameKeys s (s.moveSector false b lba j) := setBuf_sameKeys rfl
          by_cases hj : j = 0
          · rw [show s.step t (.resume true) = (s.moveSector false b lba j).setPc t (.io false b lba (.sector 1) k) by
              simp [step, resume, hp, hj]]
            exact ⟨fun _ _ _ h => by simp [setPc] at h, .inl (hkept.trans (.of_buf rfl))⟩
          rw [← hp]
          exact over_goes (s.moveSector false b lba j) true hp (by simp [step, resume, hp, hj]) hkept
            (congrFun hsame.key) fun _ h => by cases h
    | complete =>
      rw [← hp]
      exact over_goes s ok hp (by simp [step, resume, hp]) (.of_buf rfl) (fun _ => rfl) fun _ _ => rfl

/-- **One step of the task**, to its own write of a head that is dirty, and to the head. -/
theorem step_goes {op : BufOp} (hd : (s.buf a).dirt = true) (hr : s.readsDirty t = false)
    (hm : modifies op = false) : Writes s t (s.step t op) a ∧ Leaves s t op a := by
  have hstay : Writes s t s a ∧ Kept s a s := ⟨fun _ _ _ hp => .inr (.inl hp), .of_buf rfl⟩
  unfold Leaves
  cases op with
  | resume ok => exact resume_goes hd hr
  | getblk k | bread k =>
    simp only [step]
    split
    · exact ⟨(getblk_goes hd).1.writes, .inl (getblk_goes hd).2⟩
    · exact ⟨hstay.1, .inl hstay.2⟩
  | sync dev =>
    simp only [step]
    split
    · exact ⟨(syncLoop_goes a).1.writes, .inl (syncLoop_goes a).2⟩
    · exact ⟨hstay.1, .inl hstay.2⟩
  | llRw w b =>
    simp only [step]
    split_ifs
    · cases w with
      | true => exact ⟨startRw_begins.writes, .inl (startRw_kept a)⟩
      | false => exact ⟨fun _ _ _ h => by simp [startRw, setPc] at h, .inl (startRw_kept a)⟩
    · exact ⟨hstay.1, .inl hstay.2⟩
    · exact ⟨hstay.1, .inl hstay.2⟩
  | brelse b =>
    simp only [step]
    split_ifs
    · exact ⟨fun _ _ _ h => .inr (.inl h), .inl ((count_kept s b _ a).trans (.of_buf rfl))⟩
    · exact ⟨hstay.1, .inl hstay.2⟩
    · exact ⟨hstay.1, .inl hstay.2⟩
  | modify b j x => cases hm

/-- **A head waits for its write**, with its block, its mark and its bytes of `s₀`; whoever writes it began
at its first sector, and the sectors it has sent are among those that have gone out. -/
structure Waits (s₀ : Cache nt) (out : Fin 2 → Prop) (a : BufRef) (s : Cache nt) : Prop where
  key : s.key a = s₀.key a
  dirt : (s.buf a).dirt = true
  data : (s.buf a).data = (s₀.buf a).data
  io : ∀ {t lba st k}, s.pc t = .io true a lba st k → lba = (s₀.key a).block.toNat * 2 ∧
    (st = .sector 1 → out 0) ∧ (st = .complete → ∀ j, out j)

/-- Sector `j` of the head, as it was in `s₀`, is on the disk. -/
def OnDisk (s₀ : Cache nt) (a : BufRef) (j : Fin 2) (s : Cache nt) : Prop :=
  s.disk ((s₀.key a).block.toNat * 2 + j.val) = (s₀.buf a).data j

theorem Waits.step {out : Fin 2 → Prop} {x : Fin nt × BufOp} (h : Waits s₀ out a s)
    (hx : Unmoved t s x) (hno : ¬ Recycles s x.1 x.2 a) :
    (∀ j, out j) ∨ Waits s₀ (fun j => out j ∨ OnDisk s₀ a j (s.step x.1 x.2)) a (s.step x.1 x.2) := by
  obtain ⟨hwrites, hkept | ⟨lba, k, hp⟩ | hr⟩ := step_goes h.dirt hx.2.1 hx.2.2.1
  · refine .inr ⟨hkept.key.trans h.key, hkept.dirt h.dirt, hkept.data.trans h.data, fun {t' lba st k} hp => ?_⟩
    by_cases e : t' = x.1
    · subst e
      rcases hwrites lba st k hp with ⟨rfl, rfl⟩ | hp' | ⟨rfl, hp'⟩ | ⟨j, hp', hdisk, rfl⟩
      · exact ⟨by rw [h.key], (fun h => by cases h), fun h => by cases h⟩
      · obtain ⟨h₁, h₂, h₃⟩ := h.io hp'
        exact ⟨h₁, fun e => .inl (h₂ e), fun e j => .inl (h₃ e j)⟩
      · exact ⟨(h.io hp').1, (fun h => by cases h), fun h => by cases h⟩
      · obtain ⟨rfl, h₂, -⟩ := h.io hp'
        have hout : OnDisk s₀ a j (s.step x.1 x.2) := hdisk.trans (congrFun h.data j)
        by_cases hj : j = 0
        · subst hj
          exact ⟨rfl, fun _ => .inr hout, fun h => by cases h⟩
        · obtain rfl : j = 1 := by omega
          refine ⟨rfl, (fun h => by cases h), fun _ j => ?_⟩
          by_cases hj : j = 0
          · exact hj ▸ .inl (h₂ rfl)
          · obtain rfl : j = 1 := by omega
            exact .inr hout
    · rw [(s.step_edits x.1 x.2).other e] at hp
      obtain ⟨h₁, h₂, h₃⟩ := h.io hp
      exact ⟨h₁, fun e => .inl (h₂ e), fun e j => .inl (h₃ e j)⟩
  · exact .inl ((h.io hp).2.2 rfl)
  · exact absurd hr hno

/-- Some state of the run has the property. -/
def Sometime (P : Cache nt → Prop) (s : Cache nt) (ops : List (Fin nt × BufOp)) : Prop :=
  ∃ pre, pre <+: ops ∧ P (s.run pre)

/-- Some step of the run gives the head another block. -/
def Recycled (a : BufRef) (s : Cache nt) (ops : List (Fin nt × BufOp)) : Prop :=
  ∃ pre x, pre ++ [x] <+: ops ∧ Recycles (s.run pre) x.1 x.2 a

/-- **A run**: the head waits still, or has another block, or has gone out. -/
theorem Waits.run {out : Fin 2 → Prop} {ops : List (Fin nt × BufOp)} (h : Waits s₀ out a s)
    (hops : Run.Guarded (fun s x => Cache.step s x.1 x.2) (Unmoved t) s ops) :
    Recycled a s ops ∨ (∀ j, out j ∨ Sometime (OnDisk s₀ a j) s ops) ∨
      (s.run ops).key a = s₀.key a ∧ ((s.run ops).buf a).dirt = true := by
  induction ops generalizing s out with
  | nil => exact .inr (.inr ⟨h.key, h.dirt⟩)
  | cons x ops ih =>
    by_cases hr : Recycles s x.1 x.2 a
    · exact .inl ⟨[], x, ⟨ops, rfl⟩, hr⟩
    have hlater : ∀ {P}, Sometime P (s.step x.1 x.2) ops → Sometime P s (x :: ops) := by
      rintro P ⟨pre, hpre, hP⟩
      exact ⟨x :: pre, List.cons_prefix_cons.mpr ⟨rfl, hpre⟩, hP⟩
    obtain hout | hw := h.step hops.1 hr
    · exact .inr (.inl fun j => .inl (hout j))
    rcases ih hw hops.2 with ⟨pre, y, hpre, hy⟩ | hout | hend
    · exact .inl ⟨x :: pre, y, List.cons_prefix_cons.mpr ⟨rfl, hpre⟩, hy⟩
    · refine .inr (.inl fun j => ?_)
      rcases hout j with (hj | hj) | hj
      · exact .inl hj
      · exact .inr (hlater ⟨[], List.nil_prefix, hj⟩)
      · exact .inr (hlater hj)
    · exact .inr (.inr hend)

/-- **`sync_dev()` writes every dirty head** while the list stays as it is.  `before` are the steps before the
call, `ops` those from its start to its end.  No write is under way when it begins.  Each sector of a head that
is dirty then is on the disk at some time before the end, unless a call of `getblk` has given the head another
block. -/
theorem sync_reaches (disk : ℕ → HdSector) (before ops : List (Fin nt × BufOp)) (t : Fin nt) (dev : BitVec 16)
    (hp : ((init nt disk).run before).pc t = .idle)
    (hquiet : ∀ t', Quiet (((init nt disk).run before).pc t'))
    (hops : Run.Guarded (fun s x => step s x.1 x.2) (Unmoved t) ((init nt disk).run (before ++ [(t, .sync dev)])) ops)
    (hend : ((init nt disk).run (before ++ (t, .sync dev) :: ops)).pc t = .idle) (b : BufRef)
    (hdev : (((init nt disk).run before).key b).dev = dev)
    (hdirt : (((init nt disk).run before).buf b).dirt = true) :
    Recycled b ((init nt disk).run (before ++ [(t, .sync dev)])) ops ∨ ∀ j,
      Sometime (OnDisk ((init nt disk).run before) b j) ((init nt disk).run (before ++ [(t, .sync dev)])) ops := by
  have hperm := run_perm nt disk before
  have hlen : ((init nt disk).run before).free.length = 256 := by rw [hperm.length_eq, length_finRange]
  have hn : ((init nt disk).run before).free.Nodup := hperm.nodup_iff.mpr (nodup_finRange 256)
  simp only [run, foldl_append, foldl_cons, foldl_nil] at *
  set s₀ := before.foldl (fun s x => s.step x.1 x.2) (init nt disk)
  have hstep : s₀.step t (.sync dev) = s₀.syncDev t dev := by simp [step, hp]
  have hstart : Walks s₀ t dev (s₀.step t (.sync dev)) := by
    obtain ⟨b, C, hL⟩ := exists_cons_of_length_pos (show 0 < s₀.free.length by omega)
    have h : Walks s₀ t dev (s₀.syncLoop t dev (C.length + 1) 0 b) :=
      syncLoop_walks (A := []) hn rfl hL fun a ha => by cases ha
    have hC : C.length + 1 = 256 := by rw [← hlen, hL, length_cons]
    rw [hC] at h
    simpa [hstep, syncDev, hL, nrBuffers] using h
  -- at the end every head has been passed
  have hpassed : ∀ a, Settled s₀ dev (ops.foldl (fun s x => s.step x.1 x.2) (s₀.step t (.sync dev))) a := by
    intro a
    rcases (hops.inv (fun h hx => h.step hn hlen hx) hstart).2 with ⟨-, hall⟩ | ⟨_, _, _, _, _, hio, -⟩
    · exact hall a (hperm.mem_iff.mpr (mem_finRange a))
    · rw [hio] at hend
      cases hend
  have hwaits : Waits s₀ (fun _ => False) b (s₀.step t (.sync dev)) := by
    have hgoes : Begins s₀ ((s₀.syncLoop t dev nrBuffers 0 (s₀.free.headD 0)).pc t) ∧ _ := syncLoop_goes b
    refine ⟨?_, ?_, ?_, fun {t' lba st k} hio => ?_⟩
    · rw [hstep]
      exact hgoes.2.key
    · rw [hstep]
      exact hgoes.2.dirt hdirt
    · rw [hstep]
      exact hgoes.2.data
    by_cases e : t' = t
    · subst e
      rw [hstep] at hio
      obtain ⟨rfl, hlba⟩ := hgoes.1 b lba st k hio
      exact ⟨hlba, (fun h => by cases h), fun h => by cases h⟩
    · rw [(s₀.step_edits t (.sync dev)).other e] at hio
      exact absurd hio (hquiet t' b lba st k)
  rcases hwaits.run hops with h | h | ⟨hkey, hstill⟩
  · exact .inl h
  · exact .inr fun j => (h j).resolve_left id
  · exact absurd hdev (hpassed b hstill hkey)

/-- A task has changed the first three heads, and has them still. -/
def threeDirty : List (Fin 2 × BufOp) :=
  [(1, .getblk blockX), (1, .getblk blockY), (1, .getblk ⟨1#16, 30#32⟩), (1, .modify 0 0 fun _ => 0x41#8),
    (1, .modify 1 0 fun _ => 0x42#8), (1, .modify 2 0 fun _ => 0x43#8)]

/-- A write, from `hd_lock()` to the drive's last answer. -/
def wholeWrite : List (Fin 2 × BufOp) := List.replicate 4 (0, .resume true)

/-- The other task looks for a block while `sync_dev()` sleeps. -/
def lookedUp : List (Fin 2 × BufOp) := wholeWrite ++ (1, .getblk blockX) :: wholeWrite ++ wholeWrite

/-- With that, the third one is written. -/
theorem third_reached :
    Sometime (OnDisk ((init 2 fun _ _ => 0#8).run threeDirty) 2 0)
      ((init 2 fun _ _ => 0#8).run (threeDirty ++ [(0, .sync 1#16)])) lookedUp := by
  have h : ((init 2 fun _ _ => 0#8).run threeDirty).pc = (fun _ => .idle) ∧
      Run.Guarded (fun s x => step s x.1 x.2) (Unmoved 0) ((init 2 fun _ _ => 0#8).run (threeDirty ++ [(0, .sync 1#16)]))
        lookedUp ∧
      ((init 2 fun _ _ => 0#8).run (threeDirty ++ (0, .sync 1#16) :: lookedUp)).pc 0 = .idle ∧
      (((init 2 fun _ _ => 0#8).run threeDirty).key 2).dev = 1#16 ∧
      (((init 2 fun _ _ => 0#8).run threeDirty).buf 2).dirt = true ∧
      ∀ i ≤ lookedUp.length, ∀ t, ((((init 2 fun _ _ => 0#8).run (threeDirty ++ [(0, .sync 1#16)])).run
        (lookedUp.take i)).pc t).reusing = none := by
    decide +kernel
  obtain ⟨hpc, hops, hend, hdev, hdirt, hreuse⟩ := h
  have hno : ¬ Recycled 2 ((init 2 fun _ _ => 0#8).run (threeDirty ++ [(0, .sync 1#16)])) lookedUp := by
    rintro ⟨pre, x, hpre, k, hk, -⟩
    have hpre' : pre <+: lookedUp := (List.prefix_append pre [x]).trans hpre
    have := hreuse pre.length hpre'.length_le x.1
    rw [← List.prefix_iff_eq_take.mp hpre', hk] at this
    cases this
  exact (sync_reaches _ threeDirty lookedUp 0 1#16 (by rw [hpc]) (fun t' a lba st k e => by rw [hpc] at e; cases e)
    hops hend 2 hdev hdirt).resolve_left hno 0

/-- **Released while the second one is written**, the third head stays dirty. -/
theorem sync_misses :
    let s := (init 2 fun _ _ => 0#8).run threeDirty
    let s' := s.run ((0, .sync 1#16) :: wholeWrite ++ (1, .brelse 2) :: wholeWrite)
    (s.buf 2).dirt = true ∧ (s.key 2).dev = 1#16 ∧ s'.pc 0 = .idle ∧ s'.key 2 = s.key 2 ∧ (s'.buf 2).dirt = true := by
  decide +kernel

end Linux001.Cache

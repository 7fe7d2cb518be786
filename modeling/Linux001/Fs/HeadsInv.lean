import Linux001.Fs.Heads

/-!
# Fs — the links of the buffer cache

One call at a time, `getblk()`, `bread()`, `brelse()` and `sync_dev()` keep the free list a ring of all the
heads and the hash chains what they should be, so that no search runs without an end and no null pointer is
followed (`links_sound`).

No two heads have the same block as long as a device number fits into `b_dev`.  `getblk()` compares `b_dev`
with an `int`: a head that has been given to a larger number is never found again.
-/

namespace Linux001

open Function List Heads BitVec

namespace Heads

variable {m : Platform} {s s' s₁ s₂ : Heads} {b : BufRef} {dev block : Word}

/-! ### What does not touch the links -/

/-- The links and the blocks of the heads are the same. -/
structure Same (s s' : Heads) : Prop where
  bPrev : s'.bPrev = s.bPrev
  bNext : s'.bNext = s.bNext
  bPrevFree : s'.bPrevFree = s.bPrevFree
  bNextFree : s'.bNextFree = s.bNextFree
  freeList : s'.freeList = s.freeList
  hashTable : s'.hashTable = s.hashTable
  assigned : s'.assigned = s.assigned
  dev : ∀ b, (s'.buf b).dev = (s.buf b).dev
  blocknr : ∀ b, (s'.buf b).blocknr = (s.buf b).blocknr

theorem Same.refl : Same s s := ⟨rfl, rfl, rfl, rfl, rfl, rfl, rfl, fun _ => rfl, fun _ => rfl⟩

theorem Same.trans (h : Same s s₁) (h' : Same s₁ s') : Same s s' where
  bPrev := h'.bPrev.trans h.bPrev
  bNext := h'.bNext.trans h.bNext
  bPrevFree := h'.bPrevFree.trans h.bPrevFree
  bNextFree := h'.bNextFree.trans h.bNextFree
  freeList := h'.freeList.trans h.freeList
  hashTable := h'.hashTable.trans h.hashTable
  assigned := h'.assigned.trans h.assigned
  dev b := (h'.dev b).trans (h.dev b)
  blocknr b := (h'.blocknr b).trans (h.blocknr b)

theorem Same.bucket (h : Same s s') (b : BufRef) : (s'.buf b).bucket = (s.buf b).bucket := by
  unfold Head.bucket
  rw [h.dev, h.blocknr]

/-- A head may change, except for its block. -/
theorem Same.setBuf {x : Head} (hd : x.dev = (s.buf b).dev) (hb : x.blocknr = (s.buf b).blocknr) :
    Same s (s.setBuf b x) := by
  refine ⟨rfl, rfl, rfl, rfl, rfl, rfl, rfl, fun a => ?_, fun a => ?_⟩
  · by_cases e : a = b
    · subst e
      simp [setBuf, hd]
    · simp [Heads.setBuf, e]
  · by_cases e : a = b
    · subst e
      simp [setBuf, hb]
    · simp [Heads.setBuf, e]

theorem Same.setCount {n : Byte} : Same s (s.setCount b n) := .setBuf rfl rfl

theorem Same.aside {d : ℕ → BlockData} {i : InodeRef → MInode} {n : ℕ} {l : List BufRef} (h : Same s s') :
    Same s { s' with disk := d, inode := i, tries := n, holds := l } :=
  ⟨h.bPrev, h.bNext, h.bPrevFree, h.bNextFree, h.freeList, h.hashTable, h.assigned, h.dev, h.blocknr⟩

theorem Same.llRwBlock {write : Bool} : Same s (s.llRwBlock m write b) := by
  unfold Heads.llRwBlock
  split
  · exact Same.refl.aside
  split
  · have h : Same s (s.setBuf b { s.buf b with dirt := false, uptodate := true }) := .setBuf rfl rfl
    exact h.aside
  have h : Same s (s.setBuf b { s.buf b with data := s.disk (m.place (s.buf b).blocknr), uptodate := true }) :=
    .setBuf rfl rfl
  exact h.aside

theorem Same.writeBack : Same s (s.writeBack m b) := by
  unfold Heads.writeBack
  split
  · exact (Same.setCount.trans .llRwBlock).trans .setCount
  · exact .refl

theorem Same.syncHead : Same s (s.syncHead m dev b) := by
  unfold Heads.syncHead
  split
  · exact (Same.setCount.trans .llRwBlock).trans .setCount
  · exact .refl

/-! ### The invariant -/

/-- The free list is the ring `ring`, and the hash chains are `chain`. -/
structure Links (s : Heads) (ring : List BufRef) (chain : Fin 256 → List BufRef) : Prop where
  start : ring.head? = some s.freeList
  free : Linked.Ring s.bNextFree s.bPrevFree ring
  once : ring.Nodup
  all : ∀ b, b ∈ ring
  linked : ∀ i, Linked.Chain s.bNext s.bPrev (s.hashTable i) (chain i)
  nodup : ∀ i, (chain i).Nodup
  mem : ∀ i b, b ∈ chain i ↔ s.assigned b = true ∧ (s.buf b).bucket = i
  loose : ∀ b, s.assigned b = false → s.bPrev b = none ∧ s.bNext b = none

/-- The links are in order. -/
def LinkInv (s : Heads) : Prop := ∃ ring chain, Links s ring chain

/-- No two heads have the same block. -/
def Unique (s : Heads) : Prop := ∀ a b, s.assigned a = true → s.assigned b = true →
  (s.buf a).dev = (s.buf b).dev → (s.buf a).blocknr = (s.buf b).blocknr → a = b

variable {ring : List BufRef} {chain : Fin 256 → List BufRef}

theorem Links.same (h : Links s ring chain) (e : Same s s') : Links s' ring chain := by
  refine ⟨?_, ?_, h.once, h.all, fun i => ?_, h.nodup, fun i b => ?_, fun b hb => ?_⟩
  · rw [e.freeList]
    exact h.start
  · rw [e.bNextFree, e.bPrevFree]
    exact h.free
  · rw [e.bNext, e.bPrev, e.hashTable]
    exact h.linked i
  · rw [e.assigned, e.bucket]
    exact h.mem i b
  · rw [e.assigned] at hb
    rw [e.bPrev, e.bNext]
    exact h.loose b hb

theorem LinkInv.same (h : LinkInv s) (e : Same s s') : LinkInv s' := by
  obtain ⟨ring, chain, h⟩ := h
  exact ⟨ring, chain, h.same e⟩

theorem Unique.same (h : Unique s) (e : Same s s') : Unique s' := fun a b ha hb hd hn => by
  rw [e.assigned] at ha hb
  rw [e.dev, e.dev] at hd
  rw [e.blocknr, e.blocknr] at hn
  exact h a b ha hb hd hn

/-! ### The searches -/

theorem length_le (l : List BufRef) (h : l.Nodup) : l.length ≤ 256 := by
  have := h.length_le_card
  simpa using this

/-- The low bits of a device number are all that its chain depends on. -/
theorem bucket_setWidth (dev block : Word) : bucket ((dev.setWidth 16).setWidth 32) block = bucket dev block := by
  unfold bucket
  have h : ∀ x : Word, (x &&& 255#32).toNat = x.toNat % 2 ^ 8 := fun x => by
    exact Nat.and_two_pow_sub_one_eq_mod x.toNat 8
  have e : ((dev.setWidth 16).setWidth 32).toNat % 2 ^ 8 = dev.toNat % 2 ^ 8 := by
    simp only [toNat_setWidth]
    omega
  rw [h, h, toNat_xor, toNat_xor, Nat.xor_mod_two_pow, Nat.xor_mod_two_pow, e]

/-- The pointers once a head that is in a chain has been unlinked. -/
theorem unlink_eq (hh : s.bPrev b = none → s.hashTable (s.buf b).bucket = some b) :
    ((s.unlinkNext b).unlinkPrev b).bNext = Linked.relinkNext s.bNext (s.bPrev b) (s.bNext b) ∧
    ((s.unlinkNext b).unlinkPrev b).bPrev = Linked.relinkPrev s.bPrev (s.bNext b) (s.bPrev b) ∧
    ((s.unlinkNext b).unlinkPrev b).hashTable = update s.hashTable (s.buf b).bucket
      (if s.bPrev b = none then s.bNext b else s.hashTable (s.buf b).bucket) := by
  unfold unlinkNext
  cases hp : s.bPrev b with
  | none =>
    rw [if_pos (hh hp)]
    unfold unlinkPrev
    simp only
    cases hn : s.bNext b with
    | none => exact ⟨rfl, rfl, by simp⟩
    | some n => exact ⟨rfl, by simp [Linked.relinkPrev, hp], by simp⟩
  | some p =>
    have hb : update s.bNext p (s.bNext b) b = s.bNext b := by
      by_cases e : b = p
      · rw [e, update_self]
      · rw [update_of_ne e]
    unfold unlinkPrev
    simp only [hb]
    cases hn : s.bNext b with
    | none => exact ⟨rfl, rfl, by simp⟩
    | some n => exact ⟨rfl, by simp [Linked.relinkPrev, hp], by simp⟩

/-- What unlinking does not touch. -/
theorem unlink_frame (s : Heads) (b : BufRef) : ∃ next prev table, (s.unlinkNext b).unlinkPrev b =
    { s with bNext := next, bPrev := prev, hashTable := table } := by
  have hprev : ∀ t : Heads, ∃ prev, t.unlinkPrev b = { t with bPrev := prev } := fun t => by
    unfold unlinkPrev
    split <;> exact ⟨_, rfl⟩
  have hnext : ∃ next table, s.unlinkNext b = { s with bNext := next, hashTable := table } := by
    unfold unlinkNext
    split
    · exact ⟨_, _, rfl⟩
    · split <;> exact ⟨_, _, rfl⟩
  obtain ⟨next, table, hn⟩ := hnext
  obtain ⟨prev, hp⟩ := hprev (s.unlinkNext b)
  exact ⟨next, prev, table, by rw [hp, hn]⟩

section
variable (h : Links s ring chain)
include h

/-- The search of a chain ends. -/
theorem Links.find (dev block : Word) :
    s.find dev block = some ((chain (bucket dev block)).find? fun b => (s.buf b).isBlock dev block) :=
  (h.linked _).search (length_le _ (h.nodup _))

theorem Links.victim :
    s.victim = some (ring.find? fun b => (s.buf b).count = 0#8) := by
  cases ring with
  | nil => exact absurd h.start (by simp)
  | cons a l =>
    obtain rfl : a = s.freeList := Option.some.inj h.start
    have hlen : l.length < 256 := length_le _ h.once
    exact h.free.round h.once hlen

/-! ### Unlinking a head -/

/-- A head that has never had a block has nothing to be unlinked from. -/
theorem Links.unlink_loose (ha : s.assigned b = false) :
    (s.unlinkNext b).unlinkPrev b = s := by
  obtain ⟨hp, hn⟩ := h.loose b ha
  have hhash : s.hashTable (s.buf b).bucket ≠ some b := fun e => by
    obtain ⟨q, hc⟩ := h.linked (s.buf b).bucket
    rw [e] at hc
    cases hl : chain (s.buf b).bucket with
    | nil =>
      rw [hl] at hc
      cases hc.2
    | cons x l =>
      rw [hl] at hc
      obtain rfl : b = x := Option.some.inj hc.1
      have := ((h.mem (s.buf b).bucket b).mp (by rw [hl]; exact mem_cons_self)).1
      rw [ha] at this
      cases this
  have e₁ : s.unlinkNext b = s := by simp only [unlinkNext, hp, if_neg hhash]
  rw [e₁]
  simp only [unlinkPrev, hn]

/-- The pointers of a head that is not in the chain of `b` stay as they are. -/
theorem Links.unlink_outside {x : BufRef} (hx : x ∉ chain (s.buf b).bucket) :
    ((s.unlinkNext b).unlinkPrev b).bNext x = s.bNext x ∧ ((s.unlinkNext b).unlinkPrev b).bPrev x = s.bPrev x := by
  cases ha : s.assigned b with
  | false => rw [h.unlink_loose ha]; exact ⟨rfl, rfl⟩
  | true =>
    have hb : b ∈ chain (s.buf b).bucket := (h.mem _ b).mpr ⟨ha, rfl⟩
    obtain ⟨-, hfirst, hprev, hnext⟩ := (h.linked (s.buf b).bucket).erase (h.nodup _) hb
    obtain ⟨e₁, e₂, -⟩ := unlink_eq hfirst
    rw [e₁, e₂]
    constructor
    · cases hp : s.bPrev b with
      | none => rfl
      | some p =>
        have hne : x ≠ p := fun e => hx (by rw [e]; exact hprev p hp)
        exact update_of_ne hne _ _
    · cases hn : s.bNext b with
      | none => rfl
      | some n =>
        have hne : x ≠ n := fun e => hx (by rw [e]; exact hnext n hn)
        exact update_of_ne hne _ _

/-- **The chains without a head.** -/
theorem Links.unlink (b : BufRef) (i : Fin 256) :
    Linked.Chain ((s.unlinkNext b).unlinkPrev b).bNext ((s.unlinkNext b).unlinkPrev b).bPrev
      (((s.unlinkNext b).unlinkPrev b).hashTable i) ((chain i).erase b) := by
  cases ha : s.assigned b with
  | false =>
    have hnot : b ∉ chain i := fun hi => by
      rw [((h.mem i b).mp hi).1] at ha
      cases ha
    rw [h.unlink_loose ha, erase_of_not_mem hnot]
    exact h.linked i
  | true =>
    have hb : b ∈ chain (s.buf b).bucket := (h.mem _ b).mpr ⟨ha, rfl⟩
    obtain ⟨hchain, hfirst, -, -⟩ := (h.linked (s.buf b).bucket).erase (h.nodup _) hb
    obtain ⟨e₁, e₂, e₃⟩ := unlink_eq hfirst
    by_cases ei : i = (s.buf b).bucket
    · rw [e₁, e₂, e₃, ei, update_self]
      exact hchain
    -- the pointers that change are in the chain of the head
    have hout : ∀ x ∈ chain i, x ∉ chain (s.buf b).bucket := fun x hx hy =>
      ei (((h.mem i x).mp hx).2.symm.trans ((h.mem _ x).mp hy).2)
    rw [e₃, update_of_ne ei, erase_of_not_mem fun hi => hout b hi hb]
    exact (h.linked i).congr (fun x hx => (h.unlink_outside (hout x hx)).1) fun x hx =>
      (h.unlink_outside (hout x hx)).2

/-! ### `getblk` -/

/-- A head with a new block, and its links. -/
def reuse (s : Heads) (b : BufRef) (dev block : Word) : Heads :=
  (((s.unlinkNext b).unlinkPrev b).assign b dev block).linkHash b (bucket dev block)

omit h in
/-- What changes besides the links of the chains. -/
theorem reuse_eq (s : Heads) (b : BufRef) (dev block : Word) : ∃ next prev table, s.reuse b dev block =
    { s with
      buf := update s.buf b
        { s.buf b with count := 1#8, dev := dev.setWidth 16, blocknr := block, uptodate := false, dirt := false }
      assigned := update s.assigned b true
      bNext := next, bPrev := prev, hashTable := table } := by
  obtain ⟨next, prev, table, e⟩ := unlink_frame s b
  unfold reuse linkHash pushPrev
  rw [e]
  simp only
  split <;> exact ⟨_, _, _, rfl⟩

omit h in
theorem reuse_buf : (s.reuse b dev block).buf = update s.buf b
    { s.buf b with count := 1#8, dev := dev.setWidth 16, blocknr := block, uptodate := false, dirt := false } := by
  obtain ⟨_, _, _, e⟩ := reuse_eq s b dev block
  rw [e]

omit h in
theorem reuse_frame (s : Heads) (b : BufRef) (dev block : Word) :
    (s.reuse b dev block).assigned = update s.assigned b true ∧
    (s.reuse b dev block).bNextFree = s.bNextFree ∧ (s.reuse b dev block).bPrevFree = s.bPrevFree ∧
    (s.reuse b dev block).freeList = s.freeList := by
  obtain ⟨_, _, _, e⟩ := reuse_eq s b dev block
  rw [e]
  exact ⟨rfl, rfl, rfl, rfl⟩

omit h in
theorem reuse_outer {s : Heads} {b : BufRef} {dev block : Word} :
    (s.reuse b dev block).disk = s.disk ∧ (s.reuse b dev block).inode = s.inode := by
  obtain ⟨_, _, _, e⟩ := reuse_eq s b dev block
  rw [e]
  exact ⟨rfl, rfl⟩

omit h in
theorem reuse_links (s : Heads) (b : BufRef) (dev block : Word) :
    (s.reuse b dev block).bNext = update ((s.unlinkNext b).unlinkPrev b).bNext b
      (((s.unlinkNext b).unlinkPrev b).hashTable (bucket dev block)) ∧
    (s.reuse b dev block).bPrev = Linked.relinkPrev (update ((s.unlinkNext b).unlinkPrev b).bPrev b none)
      (((s.unlinkNext b).unlinkPrev b).hashTable (bucket dev block)) (some b) ∧
    (s.reuse b dev block).hashTable = update ((s.unlinkNext b).unlinkPrev b).hashTable
      (bucket dev block) (some b) := by
  unfold reuse
  generalize (s.unlinkNext b).unlinkPrev b = s₁
  unfold linkHash pushPrev
  simp only
  cases hh : (s₁.assign b dev block).hashTable (bucket dev block) with
  | none =>
    have hh' : s₁.hashTable (bucket dev block) = none := hh
    simp only [hh']
    exact ⟨rfl, rfl, rfl⟩
  | some x =>
    have hh' : s₁.hashTable (bucket dev block) = some x := hh
    simp only [hh']
    exact ⟨rfl, rfl, rfl⟩

omit h in
/-- The chain of the head's new block. -/
theorem reuse_bucket : ((s.reuse b dev block).buf b).bucket = bucket dev block := by
  rw [reuse_buf, update_self]
  exact bucket_setWidth dev block

/-- **A head changes its chain.** -/
theorem Links.reuse :
    Links (s.reuse b dev block) ring
      (update (fun i => (chain i).erase b) (bucket dev block)
        (b :: (chain (bucket dev block)).erase b)) := by
  obtain ⟨h₁, h₂, h₃, h₄⟩ := reuse_frame s b dev block
  obtain ⟨e₁, e₂, e₃⟩ := reuse_links s b dev block
  have hnd : ∀ i, ((chain i).erase b).Nodup := fun i => (h.nodup i).erase b
  have hnot : ∀ i, b ∉ (chain i).erase b := fun i => (h.nodup i).not_mem_erase
  have hmem : ∀ i x, x ∈ (chain i).erase b → x ≠ b ∧ x ∈ chain i := fun i x hx =>
    ⟨fun e => hnot i (e ▸ hx), mem_of_mem_erase hx⟩
  have hfront : ∀ x, ((s.unlinkNext b).unlinkPrev b).hashTable (bucket dev block) = some x →
      x ∈ (chain (bucket dev block)).erase b := fun x hx => by
    obtain ⟨q, hc⟩ := h.unlink b (bucket dev block)
    rw [hx] at hc
    cases hl : (chain (bucket dev block)).erase b with
    | nil =>
      rw [hl] at hc
      cases hc.2
    | cons y l =>
      rw [hl] at hc
      cases hc.1
      exact mem_cons_self
  have hbuf : ∀ x, x ≠ b → (s.reuse b dev block).buf x = s.buf x := fun x hx => by
    rw [reuse_buf, update_of_ne hx]
  refine ⟨by rw [h₄]; exact h.start, by rw [h₂, h₃]; exact h.free, h.once, h.all, fun i => ?_, fun i => ?_,
    fun i x => ?_, fun x hx => ?_⟩
  · rw [e₁, e₂, e₃]
    by_cases ei : i = bucket dev block
    · rw [ei, update_self, update_self]
      exact (h.unlink b _).cons (hnd _) (hnot _)
    rw [update_of_ne ei, update_of_ne ei]
    refine (h.unlink b i).congr (fun x hx => update_of_ne (hmem i x hx).1 _ _) fun x hx => ?_
    cases hh : ((s.unlinkNext b).unlinkPrev b).hashTable (bucket dev block) with
    | none => exact update_of_ne (hmem i x hx).1 _ _
    | some y =>
      have hne : x ≠ y := fun e => by
        subst e
        have h₅ := ((h.mem i x).mp (hmem i x hx).2).2
        have h₆ := ((h.mem _ x).mp (hmem _ x (hfront x hh)).2).2
        exact ei (h₅.symm.trans h₆)
      exact (update_of_ne hne _ _).trans (update_of_ne (hmem i x hx).1 _ _)
  · by_cases ei : i = bucket dev block
    · rw [ei, update_self]
      exact nodup_cons.mpr ⟨hnot _, hnd _⟩
    · rw [update_of_ne ei]
      exact hnd i
  · have hx : x ∈ update (fun i => (chain i).erase b) (bucket dev block)
        (b :: (chain (bucket dev block)).erase b) i ↔
        x = b ∧ i = bucket dev block ∨ x ∈ (chain i).erase b := by
      by_cases ei : i = bucket dev block
      · rw [ei, update_self]
        simp
      · simp [ei]
    rw [hx, h₁]
    by_cases ex : x = b
    · subst ex
      rw [reuse_bucket, update_self]
      constructor
      · rintro (⟨-, e⟩ | hx)
        · exact ⟨rfl, e.symm⟩
        · exact absurd hx (hnot i)
      · exact fun e => .inl ⟨rfl, e.2.symm⟩
    · rw [hbuf x ex, update_of_ne ex, ← h.mem i x, mem_erase_of_ne ex]
      exact ⟨fun h => h.resolve_left fun h => ex h.1, .inr⟩
  · rw [h₁] at hx
    have ex : x ≠ b := fun e => by
      subst e
      rw [update_self] at hx
      cases hx
    rw [update_of_ne ex] at hx
    -- a head that has never had a block is in no chain, so no pointer of it is written
    have hout : ∀ i, x ∉ chain i := fun i hi => by
      rw [((h.mem i x).mp hi).1] at hx
      cases hx
    obtain ⟨hp, hn⟩ := h.loose x hx
    obtain ⟨un, up⟩ := h.unlink_outside (hout _)
    rw [e₁, e₂, update_of_ne ex]
    refine ⟨?_, un.trans hn⟩
    cases hh : ((s.unlinkNext b).unlinkPrev b).hashTable (bucket dev block) with
    | none => exact (update_of_ne ex _ _).trans (up.trans hp)
    | some y =>
      have hne : x ≠ y := fun e => hout _ (hmem _ x (e ▸ hfront y hh)).2
      exact (update_of_ne hne _ _).trans ((update_of_ne ex _ _).trans (up.trans hp))

/-- The invariant of the calls; with device numbers of 16 bits no two heads have the same block. -/
def Tidy (small : Prop) (s : Heads) : Prop := LinkInv s ∧ (small → Unique s)

variable {small : Prop}

omit h in
theorem Tidy.same (h : Tidy small s) (e : Same s s') : Tidy small s' :=
  ⟨h.1.same e, fun hs => (h.2 hs).same e⟩

omit h in
/-- A block that no chain has is no head's. -/
theorem Unique.reuse (h : Unique s) (hnew : ∀ x, s.assigned x = true → ¬ (s.buf x).isBlock dev block)
    (hdev : (dev.setWidth 16).setWidth 32 = dev) : Unique (s.reuse b dev block) := by
  have hb : ∀ {x}, x ≠ b → s.assigned x = true → (s.buf x).dev = dev.setWidth 16 → (s.buf x).blocknr = block →
      False := fun {x} _ hx hd hn => by
    refine hnew x hx ?_
    unfold Head.isBlock
    rw [hd, hn, hdev]
    simp
  intro x y hx hy hd hn
  rw [(reuse_frame s b dev block).1] at hx hy
  rw [reuse_buf] at hd hn
  by_cases ex : x = b
  · by_cases ey : y = b
    · exact ex.trans ey.symm
    rw [update_of_ne ey] at hy
    subst ex
    simp only [update_self, update_of_ne ey] at hd hn
    exact (hb ey hy hd.symm hn.symm).elim
  · rw [update_of_ne ex] at hx
    by_cases ey : y = b
    · subst ey
      simp only [update_self, update_of_ne ex] at hd hn
      exact (hb ex hx hd hn).elim
    · rw [update_of_ne ey] at hy
      rw [update_of_ne ex, update_of_ne ey] at hd hn
      exact h x y hx hy hd hn

/-- Every head of a block is in the block's chain. -/
theorem Links.new (hf : s.find dev block = some none) (x : BufRef)
    (hx : s.assigned x = true) : ¬ (s.buf x).isBlock dev block := by
  intro hk
  rw [h.find] at hf
  have hnone := find?_eq_none.mp (Option.some.inj hf)
  refine hnone x ((h.mem _ x).mpr ⟨hx, ?_⟩) hk
  unfold Head.isBlock at hk
  simp only [Bool.and_eq_true, decide_eq_true_eq] at hk
  unfold Head.bucket
  rw [hk.1, hk.2]

omit h in
/-- **The two ways through `getblk`.** -/
theorem getblk_cases {s' : Heads} (h : s.getblk m dev block = .done (b, s')) :
    (s.find dev block = some (some b) ∧ s' = s.setCount b ((s.buf b).count + 1#8)) ∨
      s.find dev block = some none ∧ s.victim = some (some b) ∧ s' = (s.writeBack m b).reuse b dev block := by
  unfold getblk at h
  split at h
  · cases h
  · next hf =>
    cases h
    exact .inl ⟨hf, rfl⟩
  next hf =>
  split at h
  · cases h
  · cases h
  next hv =>
  cases h
  exact .inr ⟨hf, hv, rfl⟩

/-- `getblk` found the block, and counts one more user. -/
def Found (s : Heads) (dev block : Word) (r : BufRef × Heads) : Prop :=
  s.assigned r.1 = true ∧ (s.buf r.1).isBlock dev block = true ∧ r.2 = s.setCount r.1 ((s.buf r.1).count + 1#8)

/-- `getblk` took a free head for a block that no head has. -/
def Taken (m : Platform) (s : Heads) (dev block : Word) (r : BufRef × Heads) : Prop :=
  (s.buf r.1).count = 0#8 ∧ (∀ a, s.assigned a = true → ¬ (s.buf a).isBlock dev block = true) ∧
    r.2 = (s.writeBack m r.1).reuse r.1 dev block

/-- **`getblk` on chains that are in order** returns unless there is no free head. -/
theorem Links.getblk :
    (s.getblk m dev block).Holds (fun r => Found s dev block r ∨ Taken m s dev block r) ∧
      ((∃ b, (s.buf b).count = 0#8) → ∃ r, s.getblk m dev block = .done r) := by
  unfold Heads.getblk
  have hf := h.find dev block
  cases hfind : (chain (bucket dev block)).find? fun b => (s.buf b).isBlock dev block with
  | some b =>
    rw [hfind] at hf
    simp only [hf]
    have hmem := (h.mem _ b).mp (mem_of_find?_eq_some hfind)
    have hblk := find?_some hfind
    exact ⟨.inl ⟨hmem.1, hblk, rfl⟩, fun _ => ⟨_, rfl⟩⟩
  | none =>
    rw [hfind] at hf
    have hv := h.victim
    cases hvic : ring.find? fun b => (s.buf b).count = 0#8 with
    | none =>
      rw [hvic] at hv
      simp only [hf, hv]
      refine ⟨trivial, fun ⟨b, hb⟩ => ?_⟩
      have := find?_eq_none.mp hvic b (h.all b)
      simp [hb] at this
    | some b =>
      rw [hvic] at hv
      simp only [hf, hv]
      have hz := find?_some hvic
      exact ⟨.inr ⟨of_decide_eq_true hz, fun a ha => h.new hf a ha, rfl⟩, fun _ => ⟨_, rfl⟩⟩

omit h in
/-- **`getblk` returns, or there is no free head.** -/
theorem Tidy.getblk (h : Tidy small s) (hdev : small → (dev.setWidth 16).setWidth 32 = dev) :
    (s.getblk m dev block).Holds (fun r => Tidy small r.2) ∧
      ((∃ b, (s.buf b).count = 0#8) → ∃ r, s.getblk m dev block = .done r) := by
  obtain ⟨ring, chain, hl⟩ := h.1
  refine ⟨hl.getblk.1.mono fun r hr => ?_, hl.getblk.2⟩
  rcases hr with ⟨-, -, e⟩ | ⟨-, hnew, e⟩
  · rw [e]
    exact h.same .setCount
  rw [e]
  have hw : Same s (s.writeBack m r.1) := .writeBack
  refine ⟨⟨ring, _, (hl.same hw).reuse⟩, fun hs => ?_⟩
  refine ((h.2 hs).same hw).reuse (fun x hx => ?_) (hdev hs)
  rw [hw.assigned] at hx
  unfold Head.isBlock
  rw [hw.dev, hw.blocknr]
  exact hnew x hx

/-! ### `brelse` -/

/-- The free list from its second head on, with the first one at the end. -/
def turn (ring : List BufRef) : List BufRef := ring.tail ++ ring.take 1

theorem Links.turn_nodup : (turn ring).Nodup := by
  cases ring with
  | nil => exact nodup_nil
  | cons a l => exact (perm_append_singleton a l).nodup_iff.mpr h.once

/-- **A head that is released** moves to the front of the free list, and the old front to the end. -/
theorem Links.released (b : BufRef) : (s.brelse b).Holds fun s' =>
    Links s' (if (s.buf b).count - 1#8 = 0#8 then b :: (turn ring).erase b else ring) chain := by
  have h₁ : Links (s.setCount b ((s.buf b).count - 1#8)) ring chain := h.same .setCount
  unfold brelse
  by_cases hc : (s.buf b).count - 1#8 = 0#8
  swap
  · rw [if_pos hc]
    simp only [if_neg hc]
    exact h₁
  rw [if_neg (not_not.mpr hc)]
  simp only [if_pos hc]
  obtain ⟨l, rfl⟩ : ∃ l, ring = s.freeList :: l := by
    cases ring with
    | nil => exact absurd h.start (by simp)
    | cons a l => exact ⟨l, by rw [Option.some.inj h.start]⟩
  split
  next hb =>
    subst hb
    have hl : s.freeList ∉ l := (nodup_cons.mp h.once).1
    have he : s.freeList :: (turn (s.freeList :: l)).erase s.freeList = s.freeList :: l := by
      simp [turn, erase_append_right _ hl]
    rw [he]
    exact h₁
  next hb =>
  have hbl : b ∈ l := (mem_cons.mp (h.all b)).resolve_left hb
  obtain ⟨l₁, l₂, rfl⟩ := append_of_mem hbl
  -- the ring from the head that is moved on
  have hperm : (b :: (l₂ ++ s.freeList :: l₁)).Perm (s.freeList :: (l₁ ++ b :: l₂)) := by
    have : (b :: l₂ ++ s.freeList :: l₁).Perm (s.freeList :: l₁ ++ b :: l₂) := perm_append_comm
    simpa using this
  have hring : Linked.Ring s.bNextFree s.bPrevFree (b :: (l₂ ++ s.freeList :: l₁)) := by
    have := Linked.Ring.rotate (s.freeList :: l₁) (b :: l₂) (by simpa using h.free)
    simpa using this
  have hnd : (b :: (l₂ ++ s.freeList :: l₁)).Nodup := hperm.nodup_iff.mpr h.once
  obtain ⟨⟨p, hp⟩, n, hn⟩ := hring.neighbours mem_cons_self
  obtain ⟨herase, -, -⟩ := hring.erase hnd (by simp) hp hn
  -- and without it, up to the head of the list
  have hrest : Linked.Ring (update s.bNextFree p (some n)) (update s.bPrevFree n (some p))
      ((l₁ ++ l₂) ++ [s.freeList]) := by
    have := Linked.Ring.rotate (l₂ ++ [s.freeList]) l₁ (by simpa using herase)
    simpa using this
  have hperm' : (b :: ((l₁ ++ l₂) ++ [s.freeList])).Perm (s.freeList :: (l₁ ++ b :: l₂)) := by
    have e₁ : (b :: ((l₁ ++ l₂) ++ [s.freeList])).Perm (s.freeList :: b :: (l₁ ++ l₂)) := by
      have : ((b :: (l₁ ++ l₂)) ++ [s.freeList]).Perm ([s.freeList] ++ b :: (l₁ ++ l₂)) := perm_append_comm
      simpa using this
    exact e₁.trans (List.Perm.cons _ perm_middle.symm)
  have hnd' : (b :: ((l₁ ++ l₂) ++ [s.freeList])).Nodup := hperm'.nodup_iff.mpr h.once
  obtain ⟨-, x, hx⟩ := hrest.neighbours (mem_append_right _ mem_cons_self)
  have hun : (s.setCount b ((s.buf b).count - 1#8)).unlinkFree b =
      { s.setCount b ((s.buf b).count - 1#8) with
        bNextFree := update s.bNextFree p (some n)
        bPrevFree := update s.bPrevFree n (some p) } := by
    have hp' : (s.setCount b ((s.buf b).count - 1#8)).bPrevFree b = some p := hp
    have hn' : (s.setCount b ((s.buf b).count - 1#8)).bNextFree b = some n := hn
    simp only [unlinkFree, hp', hn']
    rfl
  have hl₁ : b ∉ l₁ := fun hm => (nodup_cons.mp hnd').1 (by simp [hm])
  have he : (turn (s.freeList :: (l₁ ++ b :: l₂))).erase b = (l₁ ++ l₂) ++ [s.freeList] := by
    simp [turn, erase_append_right _ hl₁]
  rw [hun, he]
  simp only [hx]
  refine ⟨rfl, ?_, hnd', fun a => hperm'.mem_iff.mpr (h.all a), h₁.linked, h.nodup, h₁.mem, h₁.loose⟩
  exact hrest.insert (nodup_cons.mp hnd').2 (nodup_cons.mp hnd').1 hx

theorem Links.brelse (b : BufRef) : (s.brelse b).Holds LinkInv :=
  (h.released b).mono fun _ h' => ⟨_, _, h'⟩

end

/-- Only the count of the head and the free list change. -/
theorem brelse_frame {s' : Heads} (h : s.brelse b = .done s') :
    s'.buf = (s.setCount b ((s.buf b).count - 1#8)).buf ∧ s'.disk = s.disk ∧ s'.inode = s.inode ∧
      s'.assigned = s.assigned := by
  have hu : ∀ s : Heads, (s.unlinkFree b).buf = s.buf ∧ (s.unlinkFree b).disk = s.disk ∧
      (s.unlinkFree b).inode = s.inode ∧ (s.unlinkFree b).assigned = s.assigned := fun s => by
    unfold unlinkFree
    split <;> exact ⟨rfl, rfl, rfl, rfl⟩
  unfold brelse at h
  simp only at h
  split at h
  · cases h
    exact ⟨rfl, rfl, rfl, rfl⟩
  split at h
  · cases h
    exact ⟨rfl, rfl, rfl, rfl⟩
  split at h
  · cases h
  · cases h
    exact hu (s.setCount b ((s.buf b).count - 1#8))

theorem setWidth_dev (d : BitVec 16) : ((d.setWidth 32).setWidth 16).setWidth 32 = d.setWidth 32 := by
  apply eq_of_toNat_eq
  simp only [toNat_setWidth]
  omega

section
variable (h : Tidy small s)
include h

theorem Tidy.brelse (b : BufRef) : (s.brelse b).Holds (Tidy small) := by
  obtain ⟨ring, chain, hl⟩ := h.1
  have h₁ := hl.brelse b
  cases hb : s.brelse b with
  | fault => rw [hb] at h₁; exact h₁
  | asleep => trivial
  | done s' =>
    rw [hb] at h₁
    have hc : Same s (s.setCount b ((s.buf b).count - 1#8)) := .setCount
    obtain ⟨e₁, -, -, e₂⟩ := brelse_frame hb
    refine ⟨h₁, fun hs x y hx hy hd hn => ?_⟩
    rw [e₂] at hx hy
    rw [e₁, hc.dev, hc.dev] at hd
    rw [e₁, hc.blocknr, hc.blocknr] at hn
    exact h.2 hs x y hx hy hd hn

/-! ### The other calls -/

theorem Tidy.bread (hdev : small → (dev.setWidth 16).setWidth 32 = dev) :
    (s.bread m dev block).Holds fun r => Tidy small r.2 := by
  refine (h.getblk hdev).1.bind fun r hr => ?_
  split
  · exact hr
  have h₁ : Tidy small (r.2.llRwBlock m false r.1) := hr.same .llRwBlock
  simp only
  split
  · exact h₁
  · exact (h₁.brelse r.1).bind fun s₂ h₂ => h₂

/-- `sync_dev` follows the free list, which has no end. -/
theorem Tidy.syncHeads (n : ℕ) (b : BufRef) :
    (syncHeads m dev n b s).Holds (Tidy small) := by
  induction n generalizing s b with
  | zero => exact h
  | succ n ih =>
    have h₁ : Tidy small (s.syncHead m dev b) := h.same .syncHead
    unfold syncHeads
    split
    · exact h₁
    obtain ⟨ring, chain, hl⟩ := h₁.1
    obtain ⟨-, y, hy⟩ := hl.free.neighbours (hl.all b)
    simp only [hy]
    exact ih h₁ y

theorem Tidy.writeInode (v : InodeRef) : (s.writeInode m v).Holds (Tidy small) := by
  unfold Heads.writeInode
  split
  · exact h
  split
  · exact h
  refine (h.bread fun _ => setWidth_dev _).bind fun r hr => ?_
  cases hb : r.1 with
  | none => exact hr
  | some b =>
    have hw : Same r.2 (r.2.setBuf b { r.2.buf b with
        data := putInode (r.2.buf b).data (inodeOff (s.inode v).iNum) (s.inode v).body, dirt := true }) :=
      .setBuf rfl rfl
    exact (Tidy.brelse (hr.same (hw.trans .llRwBlock)) b).bind fun s₂ h₂ => h₂.same Same.refl.aside

theorem Tidy.syncInodes (l : List InodeRef) : (syncInodes m dev l s).Holds (Tidy small) := by
  induction l generalizing s with
  | nil => exact h
  | cons v l ih =>
    refine CallResult.Holds.bind ?_ fun s' h' => ih h'
    split
    · exact h.writeInode v
    · exact h

theorem Tidy.syncDev : (s.syncDev m dev).Holds (Tidy small) :=
  (h.syncHeads 256 s.freeList).bind fun _ h' => h'.syncInodes _

end

end Heads

/-- The device numbers of the call fit into `b_dev`. -/
def HeadOp.small : HeadOp → Prop
  | .getblk dev _ | .bread dev _ => dev.toNat < 65536
  | .brelse _ | .modify .. | .inode .. | .sync _ => True

namespace Heads

variable {m : Platform} {s : Heads} {small : Prop}

theorem setWidth_small {dev : Word} (h : dev.toNat < 65536) : (dev.setWidth 16).setWidth 32 = dev := by
  apply eq_of_toNat_eq
  simp only [toNat_setWidth]
  omega

/-- **A call keeps the links in order.** -/
theorem Tidy.step {op : HeadOp} (h : Tidy small s) (hop : small → op.small) : (s.step m op).Holds (Tidy small) := by
  cases op with
  | getblk dev block =>
    exact (h.getblk fun hs => setWidth_small (hop hs)).1.bind fun r hr => hr.same Same.refl.aside
  | bread dev block =>
    exact (h.bread fun hs => setWidth_small (hop hs)).bind fun r hr => hr.same Same.refl.aside
  | brelse b =>
    simp only [Heads.step]
    split
    · exact (h.brelse b).bind fun s₁ h₁ => (h₁.same Same.refl.aside : Tidy small _)
    · exact h
  | modify b data =>
    show Tidy small (if _ then _ else _)
    split
    · exact h.same (.setBuf rfl rfl)
    · exact h
  | inode v x => exact h.same Same.refl.aside
  | sync dev => exact h.syncDev

/-- What `buffer_init` leaves is in order. -/
theorem tidy_init (disk : ℕ → BlockData) (inode : InodeRef → MInode) : Tidy small (init disk inode) := by
  refine ⟨⟨finRange 256, fun _ => [], rfl, ⟨some 255, some 0, ?_⟩, nodup_finRange 256, mem_finRange,
    fun i => ⟨none, rfl, rfl⟩, fun i => nodup_nil, fun i b => ⟨fun h => (by cases h), fun h => (by cases h.1)⟩,
    fun b _ => ⟨rfl, rfl⟩⟩, fun _ a b ha => (by cases ha)⟩
  show Linked.Seg (fun b => some (b + 1)) (fun b => some (b - 1)) (some (255 : Fin 256)) (some 0) (finRange 256)
    (some 255) (some 0)
  decide +kernel

/-- **The links of the cache.**  After any calls, one at a time, none of which goes wrong: the free list is a
ring of all the heads; each hash chain has, once, the heads that have been given to a block of it; no search of
`getblk()` goes on for ever, and `getblk()` returns if a head is free; and if device numbers have 16 bits, no two
heads have the same block. -/
theorem links_sound (m : Platform) (disk : ℕ → BlockData) (inode : InodeRef → MInode) (ops : List HeadOp) :
    ((init disk inode).run m ops).Holds fun s =>
      (∃ l, Linked.Ring s.bNextFree s.bPrevFree (s.freeList :: l) ∧ (s.freeList :: l).Nodup ∧
        ∀ b, b ∈ s.freeList :: l) ∧
      (∀ i, ∃ l, Linked.Chain s.bNext s.bPrev (s.hashTable i) l ∧ l.Nodup ∧
        ∀ b, b ∈ l ↔ s.assigned b = true ∧ (s.buf b).bucket = i) ∧
      (∀ dev block, s.getblk m dev block ≠ .fault ∧
        ((∃ b, (s.buf b).count = 0#8) → ∃ r, s.getblk m dev block = .done r)) ∧
      ((∀ op ∈ ops, op.small) → ∀ a b, s.assigned a = true → s.assigned b = true →
        (s.buf a).dev = (s.buf b).dev → (s.buf a).blocknr = (s.buf b).blocknr → a = b) := by
  have hrun : ((init disk inode).run m ops).Holds (Tidy (∀ op ∈ ops, op.small)) :=
    CallResult.run_holds (c := fun op => (∀ op ∈ ops, op.small) → op.small)
      (fun hs hop => hs.step hop) (fun op hop h => h op hop) (tidy_init disk inode)
  refine hrun.mono fun s h => ?_
  obtain ⟨ring, chain, hl⟩ := h.1
  refine ⟨?_, fun i => ⟨chain i, hl.linked i, hl.nodup i, hl.mem i⟩, fun dev block => ?_, h.2⟩
  · cases ring with
    | nil => exact absurd hl.start (by simp)
    | cons a l =>
      obtain rfl : a = s.freeList := Option.some.inj hl.start
      exact ⟨l, hl.free, hl.once, hl.all⟩
  · obtain ⟨h₁, h₂⟩ : (s.getblk m dev block).Holds _ ∧ _ :=
      (show Tidy False s from ⟨h.1, False.elim⟩).getblk False.elim
    refine ⟨fun e => ?_, h₂⟩
    rw [e] at h₁
    exact h₁

/-- A drive that always answers, an image at the start of the disk, and one device with inodes. -/
def plain : Platform where
  drive _ := true
  rootLba := 0#32
  inodeStart d := if d = 0x301#16 then some 6#32 else none

def fresh : Heads := init (fun _ _ => 0#8) fun _ => {}

/-- Two blocks of one chain, and the first one again. -/
def sameChain : List HeadOp := [.getblk 0x301#32 5#32, .getblk 0x301#32 261#32, .brelse 0, .bread 0x301#32 5#32]

theorem sameChain_unique : (∃ s, fresh.run plain sameChain = .done s) ∧
    (fresh.run plain sameChain).Holds fun s => ∀ a b, s.assigned a = true → s.assigned b = true →
      (s.buf a).dev = (s.buf b).dev → (s.buf a).blocknr = (s.buf b).blocknr → a = b := by
  refine ⟨⟨_, rfl⟩, (links_sound plain _ _ sameChain).mono fun s h => h.2.2.2 fun op hop => ?_⟩
  simp only [sameChain, mem_cons, not_mem_nil, or_false] at hop
  rcases hop with rfl | rfl | rfl | rfl
  · show (0x301#32).toNat < 65536
    decide
  · show (0x301#32).toNat < 65536
    decide
  · trivial
  · show (0x301#32).toNat < 65536
    decide

end Heads

end Linux001

import Linux001.Fs.HeadsStore

/-!
# Fs — what the buffer cache is for

The cache in front of a disk is to look like a store of blocks: `bread()` gives what has last been written to
the block, and after `sync_dev()` the disk has it.  `Traced` runs the cache beside such a store, `logical`,
with what each caller has been given and for which block.

`cache_transparent` says that it is one, as long as no head is held 256 times; a head that is, is reused under
its holder (`hoarding_loses`).
-/

namespace Linux001

open Function Heads List

/-! ### The cache beside the store -/

/-- The cache, what each caller has been given and for which block, and the store that the cache is to be. -/
structure Traced where
  s : Heads
  asked : List (BufRef × Word × Word)
  logical : Word → Word → BlockData

/-- What a caller may do. -/
inductive BlockOp where
  | bread (dev block : Word)
  /-- The caller that has been given `b` for a block changes the block and sets `b_dirt`. -/
  | modify (b : BufRef) (dev block : Word) (data : BlockData)
  | brelse (b : BufRef) (dev block : Word)
  /-- An inode is changed, and `i_dirt` set. -/
  | inode (v : InodeRef) (d : DInode)
  | sync (dev : Word)

namespace Traced

/-- After `buffer_init()` the store is what is on the disk. -/
def start (m : Platform) (disk : ℕ → BlockData) (inode : InodeRef → MInode) : Traced where
  s := Heads.init disk inode
  asked := []
  logical _ block := disk (m.place block)

/-- **One call**, on the cache and on the store. -/
def step (m : Platform) (x : Traced) : BlockOp → CallResult Traced
  | .bread dev block =>
    (x.s.bread m dev block).bind fun r =>
      .done { x with s := r.2, asked := (r.1.toList.map fun b => (b, dev, block)) ++ x.asked }
  | .modify b dev block data =>
    .done (if (b, dev, block) ∈ x.asked then
      { x with
        s := x.s.setBuf b { x.s.buf b with data := data, dirt := true }
        logical := update₂ x.logical dev block data }
    else x)
  | .brelse b dev block =>
    if (b, dev, block) ∈ x.asked then
      (x.s.brelse b).bind fun s₁ => .done { x with s := s₁, asked := x.asked.erase (b, dev, block) }
    else .done x
  | .inode v d =>
    .done { x with
      s := { x.s with inode := update x.s.inode v { (x.s.inode v).setBody d with iDirt := true } } }
  | .sync dev =>
    (x.s.syncDev m dev).bind fun s₁ =>
      .done { x with s := s₁, logical := Heads.syncLogical m dev x.s.inode (List.finRange 64) x.logical }

def run (m : Platform) (x : Traced) (ops : List BlockOp) : CallResult Traced := CallResult.run (step m) x ops

/-- **The condition on a call.** -/
def Careful (m : Platform) (U : Word → Word → Prop) (x : Traced) : BlockOp → Prop
  | .bread dev block => U dev block ∧ Heads.Room x.asked
  /- The block is not one of the inode table with a clean inode in core. -/
  | .modify _ dev block _ => ∀ v start, (x.s.inode v).iDev ≠ 0#16 → (x.s.inode v).iDirt = false →
      (x.s.inode v).iDev.setWidth 32 = dev → m.inodeStart (x.s.inode v).iDev = some start →
      Heads.blockOf start (x.s.inode v) ≠ block
  | .brelse .. | .inode .. => True
  | .sync dev => Heads.Room x.asked ∧ ∀ v, (x.s.inode v).iDev.setWidth 32 = dev → Heads.InodeIn m U (x.s.inode v)

/-- The cache is the store, and a clean inode is in it. -/
structure Good (m : Platform) (U : Word → Word → Prop) (x : Traced) : Prop where
  cohere : Heads.Cohere m U x.s x.logical
  held : Heads.Held x.s x.asked
  single : Heads.Single x.s.inode
  stored : ∀ v, (x.s.inode v).iDev ≠ 0#16 → (x.s.inode v).iDirt = false → Heads.Stored m x.logical (x.s.inode v)

variable {m : Platform} {U : Word → Word → Prop} {x : Traced} {dev : Word} {y : Traced}

section
variable (hdrive : ∀ n, m.drive n = true) (hU : m.Apart U) (h : Good m U x)
include hdrive hU h

/-- What `sync_dev()` leaves. -/
theorem Good.syncDev
    (hc : Careful m U x (.sync dev)) : (x.step m (.sync dev)).Holds fun y => Good m U y ∧
      (∀ v, y.s.inode v = syncTable m dev x.s.inode v) ∧
      ∀ a, y.s.assigned a = true → y.s.devOf a = dev → (y.s.buf a).dirt = false := by
  refine (h.cohere.syncDev hdrive hU h.held hc.1 hc.2).bind fun s₁ h₁ => ?_
  obtain ⟨k₁, k₂, k₃, k₄⟩ := h₁
  have hsame := syncTable_same m dev x.s.inode
  refine ⟨⟨k₁, k₂, h.single.congr fun v => ?_, fun v h₁ h₂ => ?_⟩, k₃, k₄⟩
  · rw [k₃]
    exact ⟨(hsame v).1, (hsame v).2.1⟩
  rw [k₃] at h₁ h₂ ⊢
  have hst : Heads.Stored m (syncLogical m dev x.s.inode (finRange 64) x.logical) (x.s.inode v) := by
    refine syncLogical_stored h.single _ ?_
    rcases syncTable_clean h₂ with hcl | hcl
    · rw [(hsame v).1] at h₁
      exact .inr (h.stored v h₁ hcl)
    · exact .inl ⟨mem_finRange v, hcl⟩
  intro st hst'
  unfold blockOf
  rw [(hsame v).1] at hst'
  rw [(hsame v).1, (hsame v).2.1, (hsame v).2.2]
  exact hst st hst'

theorem Good.syncDev_awake
    (hc : Careful m U x (.sync dev)) (hfree : ∃ b, (x.s.buf b).count = 0#8) : (x.step m (.sync dev)).Awake := by
  obtain ⟨b, hb⟩ := hfree
  have hnot : b ∉ x.asked.map Prod.fst := by
    rw [← count_eq_zero, ← h.held.counted, hb]
    rfl
  exact (h.cohere.syncDev_awake hdrive hU h.held hc.1 hc.2 hnot).bind_done _

omit hdrive hU h in
/-- A call that leaves the inodes and the store alone. -/
theorem Good.of_inode (h : Good m U x) (hc : Heads.Cohere m U y.s y.logical)
    (hh : Heads.Held y.s y.asked) (hi : y.s.inode = x.s.inode) (hl : y.logical = x.logical) : Good m U y := by
  refine ⟨hc, hh, ?_, ?_⟩
  · rw [hi]
    exact h.single
  · rw [hi, hl]
    exact h.stored

omit hdrive hU h in
/-- An inode is changed: it is dirty, and the same inode. -/
theorem Good.inode (h : Good m U x) (v : InodeRef) (d : DInode) : (x.step m (.inode v d)).Holds (Good m U) := by
  have hother : ∀ {w}, w ≠ v →
      update x.s.inode v { (x.s.inode v).setBody d with iDirt := true } w = x.s.inode w := fun e =>
    update_of_ne e _ _
  have hself : update x.s.inode v { (x.s.inode v).setBody d with iDirt := true } v =
      { (x.s.inode v).setBody d with iDirt := true } := update_self ..
  generalize hf : update x.s.inode v { (x.s.inode v).setBody d with iDirt := true } = f at hother hself
  have hkey : ∀ w, (f w).iDev = (x.s.inode w).iDev ∧ (f w).iNum = (x.s.inode w).iNum := fun w => by
    by_cases e : w = v
    · subst e
      rw [hself]
      exact ⟨rfl, rfl⟩
    · rw [hother e]
      exact ⟨rfl, rfl⟩
  have hsingle : Heads.Single f := h.single.congr hkey
  have hstored : ∀ w, (f w).iDev ≠ 0#16 → (f w).iDirt = false → Heads.Stored m x.logical (f w) := fun w h₁ h₂ => by
    by_cases e : w = v
    · subst e
      rw [hself] at h₂
      cases h₂
    · rw [hother e] at h₁ h₂ ⊢
      exact h.stored w h₁ h₂
  subst hf
  exact ⟨h.cohere.congr (h.cohere.tidy.same Heads.Same.refl.aside) (fun _ => rfl) rfl rfl,
    h.held.congr Heads.Same.refl.aside fun _ => rfl, hsingle, hstored⟩

/-- **A call keeps the cache a store.** -/
theorem Good.step {op : BlockOp}
    (hc : Careful m U x op) : (x.step m op).Holds (Good m U) := by
  cases op with
  | bread dev block =>
    refine (h.cohere.bread hdrive hU h.held hc.1 (h.held.full hc.2)).bind fun r hr => ?_
    obtain ⟨b, hb, k₁, k₂, -, k₃, -⟩ := hr
    rw [hb]
    exact h.of_inode k₁ k₂ k₃ rfl
  | modify b dev block data =>
    show Good m U (if _ then _ else _)
    split
    · next hmem =>
      obtain ⟨ha, hblk⟩ := h.held.owner hmem
      refine ⟨h.cohere.modify ha hblk data, h.held.congr (.setBuf rfl rfl) fun a => ?_, h.single,
        fun v h₁ h₂ st hst => ?_⟩
      · by_cases e : a = b
        · subst e
          simp [setBuf]
        · simp [setBuf, e]
      · show putInode (update₂ x.logical dev block data _ _) _ _ = update₂ x.logical dev block data _ _
        rw [update₂_of_ne]
        · exact h.stored v h₁ h₂ st hst
        · rintro ⟨e₁, e₂⟩
          exact hc v st h₁ h₂ e₁ hst e₂
    · exact h
  | brelse b dev block =>
    simp only [Traced.step]
    split
    · next hmem =>
      refine (h.cohere.brelse h.held hmem).bind fun s₁ h₁ => ?_
      obtain ⟨k₁, k₂, k₃, -⟩ := h₁
      exact h.of_inode k₁ k₂ k₃ rfl
    · exact h
  | inode v d => exact h.inode v d
  | sync dev => exact (h.syncDev hdrive hU hc).mono fun y hy => hy.1

end

theorem good_start (disk : ℕ → BlockData) (inode : InodeRef → MInode) (hs : Heads.Single inode)
    (hst : ∀ v, (inode v).iDev ≠ 0#16 → (inode v).iDirt = false →
      Heads.Stored m (start m disk inode).logical (inode v)) : Good m U (start m disk inode) where
  cohere := ⟨tidy_init disk inode, fun h => (by cases h), fun _ => rfl, fun h => (by cases h),
    fun h => (by cases h), fun h => (by cases h), fun _ _ => rfl⟩
  held := ⟨fun _ => rfl, fun h => (by cases h)⟩
  single := hs
  stored := hst

/-- **The cache is a store, and `sync_dev()` makes it durable.**  The drive answers, the blocks `U` have
different places on the disk, no inode is in core twice, and the clean ones are stored.  After any careful
calls, `bread()` gives what has last been written to the block; and after `sync_dev()` of a device with a
superblock no buffer and no inode of the device is dirty, the disk has what is in the store, and every inode
of the device is stored.  Both return if a head is free. -/
theorem cache_transparent (hdrive : ∀ n, m.drive n = true) (hU : m.Apart U) (disk : ℕ → BlockData)
    (inode : InodeRef → MInode) (hs : Heads.Single inode)
    (hst : ∀ v, (inode v).iDev ≠ 0#16 → (inode v).iDirt = false →
      Heads.Stored m (start m disk inode).logical (inode v))
    (ops : List BlockOp) (hrun : CallResult.Guarded (step m) (Careful m U) (start m disk inode) ops) :
    ((start m disk inode).run m ops).Holds fun x =>
      (∀ dev block, U dev block → Heads.Room x.asked →
        ((x.s.bread m dev block).Holds fun r => ∃ b, r.1 = some b ∧ (r.2.buf b).data = x.logical dev block) ∧
        ((∃ b, (x.s.buf b).count = 0#8) → ∃ r, x.s.bread m dev block = .done r)) ∧
      ∀ d : BitVec 16, d ≠ 0#16 → m.inodeStart d ≠ none → Careful m U x (.sync (d.setWidth 32)) →
        ((x.step m (.sync (d.setWidth 32))).Holds fun y =>
          (∀ b, y.s.assigned b = true → (y.s.buf b).dev = d → (y.s.buf b).dirt = false) ∧
          (∀ v, (y.s.inode v).iDev = d → (y.s.inode v).iDirt = false ∧ Heads.Stored m y.logical (y.s.inode v)) ∧
          ∀ block, U (d.setWidth 32) block → y.s.disk (m.place block) = y.logical (d.setWidth 32) block) ∧
        ((∃ b, (x.s.buf b).count = 0#8) → ∃ y, x.step m (.sync (d.setWidth 32)) = .done y) := by
  have hgood : ((start m disk inode).run m ops).Holds (Good m U) :=
    hrun.holds (fun h hc => h.step hdrive hU hc) (good_start disk inode hs hst)
  refine hgood.mono fun x h => ⟨fun dev block hk hr => ?_, fun d hd hsb hc => ⟨?_, fun hfree => ?_⟩⟩
  · have hread := h.cohere.bread hdrive hU h.held hk (h.held.full hr)
    refine ⟨hread.mono fun r hr' => ?_, fun hfree =>
      hread.returns (h.cohere.tidy.bread_awake hdrive (hU.small hk) hfree)⟩
    obtain ⟨b, hb, -, -, hdata, -⟩ := hr'
    exact ⟨b, hb, hdata⟩
  · refine (h.syncDev hdrive hU hc).mono fun y hy => ?_
    obtain ⟨hy, hino, hclean⟩ := hy
    have hinj : ∀ e : BitVec 16, e = d → e.setWidth 32 = d.setWidth 32 := fun e he => by rw [he]
    refine ⟨fun b hb e => hclean b hb (hinj _ e), fun v e => ?_, fun block hk => ?_⟩
    · have hdirt : (y.s.inode v).iDirt = false := by
        rw [hino] at e ⊢
        rw [(syncTable_same _ _ _ v).1] at e
        refine syncTable_dirt (hinj _ e) ?_ ?_
        · rw [e]
          exact hd
        · rw [e]
          exact hsb
      exact ⟨hdirt, hy.stored v (by rw [e]; exact hd) hdirt⟩
    · by_cases hcached : ∃ b, y.s.assigned b = true ∧ (y.s.buf b).isBlock (d.setWidth 32) block = true
      · obtain ⟨b, hb, hblk⟩ := hcached
        obtain ⟨e₁, e₂⟩ := isBlock_iff.mp hblk
        have h₁ := hy.cohere.clean hb (hclean b hb e₁)
        have h₂ := hy.cohere.cached hb
        unfold devOf at h₂
        rw [e₂] at h₁ h₂
        rw [e₁] at h₂
        exact h₁.trans h₂
      · exact hy.cohere.stored hk fun b hb hblk => hcached ⟨b, hb, hblk⟩
  · exact (h.syncDev hdrive hU hc).returns (h.syncDev_awake hdrive hU hc hfree)

/-- The first blocks of one device. -/
def firstBlocks (dev block : Word) : Prop := dev = 0x301#32 ∧ block.toNat < 1000

theorem firstBlocks_apart : plain.Apart firstBlocks where
  small h := by
    rw [h.1]
    decide
  place {d k d' k'} h h' e := by
    refine ⟨h.1.trans h'.1.symm, BitVec.eq_of_toNat_eq ?_⟩
    have hlba : ∀ k : Word, k.toNat < 1000 → (k * 2#32 + 0#32).toNat = k.toNat * 2 := fun k hk => by
      have h₂ : (2#32).toNat = 2 := rfl
      rw [BitVec.add_zero, BitVec.toNat_mul, h₂]
      omega
    simp only [Platform.place, plain, hlba k h.2, hlba k' h'.2] at e
    have h₁ := h.2
    have h₂ := h'.2
    omega

/-- A dirty inode of the device. -/
def dirtyInode (v : InodeRef) : MInode :=
  if v = 0 then { iDev := 0x301#16, iNum := 1#32, iSize := 7#32, iDirt := true } else {}

def ones : BlockData := fun _ => 1#8

/-- A block is read and changed, and its head is taken for another one. -/
def twoBlocks : List BlockOp := [.bread 0x301#32 5#32, .modify 0 0x301#32 5#32 ones, .brelse 0 0x301#32 5#32,
  .bread 0x301#32 6#32, .brelse 0 0x301#32 6#32]

theorem dirtyInode_single : Heads.Single dirtyInode := fun v w e h₁ h₂ => by
  unfold dirtyInode at h₁ h₂
  split at h₂
  · next hv =>
    rw [if_pos hv, if_neg fun hw => e (hv.trans hw.symm)] at h₁
    exact absurd h₁ (by decide)
  · exact absurd rfl h₂

theorem dirtyInode_dirty (v : InodeRef) (h : (dirtyInode v).iDev ≠ 0#16) : (dirtyInode v).iDirt = true := by
  unfold dirtyInode at h ⊢
  split at h
  · next hv => rw [if_pos hv]
  · exact absurd rfl h

theorem room_nil : Heads.Room [] := fun _ => Nat.zero_lt_succ _

theorem dirtyInode_in (v : InodeRef) (h : (dirtyInode v).iDev.setWidth 32 = (0x301#16).setWidth 32) :
    Heads.InodeIn plain firstBlocks (dirtyInode v) := by
  unfold dirtyInode at h ⊢
  split
  · intro st hst
    cases hst
    exact ⟨rfl, by decide⟩
  · next hv =>
    rw [if_neg hv] at h
    exact absurd h (by decide)

theorem twoBlocks_transparent :
    ((start Heads.plain (fun _ _ => 0#8) dirtyInode).run Heads.plain twoBlocks).Holds fun x =>
      ((x.s.bread Heads.plain 0x301#32 5#32).Holds fun r =>
        ∃ b, r.1 = some b ∧ (r.2.buf b).data = x.logical 0x301#32 5#32) ∧
      x.logical 0x301#32 5#32 = ones ∧
      (x.step Heads.plain (.sync ((0x301#16).setWidth 32))).Holds fun y =>
        (∀ v, (y.s.inode v).iDev = 0x301#16 → (y.s.inode v).iDirt = false ∧
          Heads.Stored Heads.plain y.logical (y.s.inode v)) ∧
        ∀ block, firstBlocks ((0x301#16).setWidth 32) block →
          y.s.disk (Heads.plain.place block) = y.logical ((0x301#16).setWidth 32) block := by
  have hin : firstBlocks 0x301#32 5#32 := ⟨rfl, by decide⟩
  have hrun : CallResult.Guarded (step plain) (Careful plain firstBlocks)
      (start plain (fun _ _ => 0#8) dirtyInode) twoBlocks := by
    refine ⟨⟨hin, room_nil⟩, fun v st h₁ h₂ => ?_, trivial, ⟨⟨rfl, by decide⟩, room_nil⟩, trivial, trivial⟩
    have h₃ := dirtyInode_dirty v h₁
    rw [show (dirtyInode v).iDirt = false from h₂] at h₃
    cases h₃
  have h := cache_transparent (fun _ => rfl) firstBlocks_apart (fun _ _ => 0#8) dirtyInode dirtyInode_single
    (fun v h₁ h₂ => by rw [dirtyInode_dirty v h₁] at h₂; cases h₂) twoBlocks hrun
  have hend : ((start plain (fun _ _ => 0#8) dirtyInode).run plain twoBlocks).Holds fun x =>
      x.asked = [] ∧ x.s.inode = dirtyInode ∧ x.logical 0x301#32 5#32 = ones := ⟨rfl, rfl, rfl⟩
  refine (h.and hend).mono fun x hx => ?_
  obtain ⟨⟨h₁, h₂⟩, e₁, e₂, e₃⟩ := hx
  have hroom : Heads.Room x.asked := by rw [e₁]; exact room_nil
  refine ⟨(h₁ _ _ hin hroom).1, e₃, (h₂ 0x301#16 (by decide) (by decide) ⟨hroom, ?_⟩).1.mono fun y hy => hy.2⟩
  rw [e₂]
  exact dirtyInode_in

/-! ### A head that is held 256 times -/

/-- An empty disk. -/
def blank : Traced := start Heads.plain (fun _ _ => 0#8) fun _ => {}

/-- The block 5 has been read. -/
def afterOne : Traced :=
  match blank.step Heads.plain (.bread 0x301#32 5#32) with
  | .done x => x
  | .asleep => blank
  | .fault => blank

/-- One caller has been given it `k` times, and the count of its head is `n`. -/
def hoard (n : Byte) (k : ℕ) : Traced :=
  { afterOne with s := afterOne.s.setCount 0 n, asked := List.replicate k (0, 0x301#32, 5#32) }

theorem blank_bread : blank.step plain (.bread 0x301#32 5#32) = .done (hoard 1#8 1) := by
  have e : afterOne.s.setCount 0 1#8 = afterOne.s := by
    have hself : { afterOne.s.buf 0 with count := 1#8 } = afterOne.s.buf 0 := rfl
    unfold setCount setBuf
    rw [hself, update_eq_self]
  unfold hoard
  rw [e]
  rfl

/-- The block is in the cache with one more user. -/
theorem step_bread {m : Platform} {x : Traced} {block : Word} {b : BufRef} {s₁ : Heads}
    (h : x.s.bread m dev block = .done (some b, s₁)) :
    x.step m (.bread dev block) = .done { x with s := s₁, asked := (b, dev, block) :: x.asked } := by
  unfold step
  simp only [h, CallResult.bind, Option.toList_some, map_cons, map_nil, singleton_append]

theorem run_cons {m : Platform} {x : Traced} {a : BlockOp} (h : x.step m a = .done y) (ops : List BlockOp) :
    x.run m (a :: ops) = y.run m ops := by
  show (x.step m a).bind (fun y => CallResult.run (step m) y ops) = _
  rw [h]
  rfl

theorem setCount_setCount (s : Heads) (b : BufRef) (n n' : Byte) :
    (s.setCount b n).setCount b n' = s.setCount b n' := by
  simp [setCount, setBuf]

/-- It asks for it again. -/
theorem hoard_bread (n : Byte) (k : ℕ) :
    (hoard n k).step plain (.bread 0x301#32 5#32) = .done (hoard (n + 1#8) (k + 1)) := by
  have h : (hoard n k).s.bread plain 0x301#32 5#32 = .done (some 0, (hoard n k).s.setCount 0 (n + 1#8)) := rfl
  have e : (hoard n k).s.setCount 0 (n + 1#8) = afterOne.s.setCount 0 (n + 1#8) := setCount_setCount ..
  rw [step_bread h, e]
  rfl

theorem hoard_run (j : ℕ) (n : Byte) (k : ℕ) (ops : List BlockOp) :
    (hoard n k).run plain (replicate j (.bread 0x301#32 5#32) ++ ops) =
      (hoard (n + BitVec.ofNat 8 j) (k + j)).run plain ops := by
  induction j generalizing n k with
  | zero => simp
  | succ j ih =>
    rw [replicate_succ, cons_append]
    rw [run_cons (hoard_bread n k), ih, BitVec.add_assoc, ← BitVec.ofNat_add, Nat.add_assoc, Nat.add_comm 1 j]

/-- The block is read 256 times, another block once, and then the first one changed. -/
def hoarding : List BlockOp :=
  .bread 0x301#32 5#32 :: (List.replicate 255 (.bread 0x301#32 5#32) ++
    [.bread 0x301#32 6#32, .modify 0 0x301#32 5#32 ones])

/-- **`b_count` is 0 again after 256 calls**: the head is reused while it is held, the change goes to the
other block, and `bread()` does not give it. -/
theorem hoarding_loses : ∃ x r b, blank.run Heads.plain hoarding = .done x ∧
    x.s.bread Heads.plain 0x301#32 5#32 = .done r ∧ r.1 = some b ∧ (r.2.buf b).data 0 = 0#8 ∧
    x.logical 0x301#32 5#32 0 = 1#8 := by
  have h : blank.run plain hoarding =
      (hoard 0#8 256).run plain [.bread 0x301#32 6#32, .modify 0 0x301#32 5#32 ones] := by
    unfold hoarding
    rw [run_cons blank_bread, hoard_run]
    rfl
  rw [h]
  exact ⟨_, _, 1, rfl, rfl, rfl, rfl, rfl⟩

end Traced

end Linux001

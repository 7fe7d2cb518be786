import Linux001.Fs.HeadsInv

/-!
# Fs — which head `getblk()` recycles

On a miss `getblk()` takes the first free head of the free list, writes it back if it is dirty and gives it
to the new block.

* `getblk_keeps_iff`: it does so whatever becomes of the write, so that a dirty block is kept exactly if the
  drive took it.
* `recycles_lru_iff`: `brelse()` moves a head to the *front* of the list, where the search begins.  From the
  second head on the list has the heads in the order of their last release, but the first one is the one
  released last.
-/

namespace Linux001

open Function Heads List

namespace Heads

variable {m : Platform} {s s' : Heads} {b : BufRef} {dev block : Word}

/-! ### A dirty head that is recycled -/

/-- Every dirty head is still what it was, or its data has gone to the place of its block. -/
def Keeps (m : Platform) (s s' : Heads) : Prop := ∀ a, (s.buf a).dirt = true →
  ((s'.buf a).dev = (s.buf a).dev ∧ (s'.buf a).blocknr = (s.buf a).blocknr ∧ (s'.buf a).data = (s.buf a).data ∧
    (s'.buf a).dirt = true) ∨
  (m.drive s.tries = true ∧ s'.disk (m.place (s.buf a).blocknr) = (s.buf a).data)

theorem writeBack_other {a : BufRef} (h : a ≠ b) : (s.writeBack m b).buf a = s.buf a := by
  unfold writeBack llRwBlock setCount setBuf
  split
  · split <;> simp [update_of_ne h]
  · rfl

theorem writeBack_disk (hd : (s.buf b).dirt = true) (hm : m.drive s.tries = true) :
    (s.writeBack m b).disk (m.place (s.buf b).blocknr) = (s.buf b).data := by
  simp [writeBack, llRwBlock, setCount, setBuf, hd, hm]

/-- **What `getblk()` does to dirty heads.**  They are kept exactly if the drive took the one that was
recycled. -/
theorem getblk_keeps_iff (h : s.getblk m dev block = .done (b, s')) : Keeps m s s' ↔
    (s.find dev block = some none → (s.buf b).dirt = true → m.drive s.tries = true) := by
  rcases getblk_cases h with ⟨hf, rfl⟩ | ⟨hf, -, rfl⟩
  · refine ⟨fun _ e => (by simp [hf] at e), fun _ a ha => .inl ?_⟩
    by_cases e : a = b
    · subst e
      simp [setCount, setBuf, ha]
    · simp [setCount, setBuf, update_of_ne e, ha]
  refine ⟨fun hk _ hd => ?_, fun hm a ha => ?_⟩
  · -- the head itself is clean now, so it has been written
    rcases hk b hd with ⟨-, -, -, e⟩ | ⟨e, -⟩
    · simp [reuse_buf] at e
    · exact e
  · by_cases e : a = b
    · subst e
      refine .inr ⟨hm hf ha, ?_⟩
      rw [reuse_outer.1]
      exact writeBack_disk ha (hm hf ha)
    · rw [reuse_buf, update_of_ne e, writeBack_other e]
      exact .inl ⟨rfl, rfl, rfl, ha⟩

/-- A head with a block that has not been written. -/
def unwritten : Heads := (fresh.setBuf 0 { blocknr := 5#32, dev := 0x301#16, dirt := true, data := fun _ => 7#8 })

theorem unwritten_kept : ∃ s', unwritten.getblk plain 0x301#32 6#32 = .done (0, s') ∧ Keeps plain unwritten s' :=
  ⟨_, rfl, (getblk_keeps_iff (show unwritten.getblk plain 0x301#32 6#32 = .done (0, _) from rfl)).mpr fun _ _ => rfl⟩

/-- **The drive fails**, the head is recycled all the same, and neither the cache nor the disk has the block. -/
theorem unwritten_lost : ∃ s', unwritten.getblk { plain with drive := fun _ => false } 0x301#32 6#32 = .done (0, s') ∧
    (s'.buf 0).blocknr = 6#32 ∧ (s'.buf 0).dirt = false ∧ s'.disk (plain.place 5#32) 0 = 0#8 ∧
    ¬ Keeps { plain with drive := fun _ => false } unwritten s' := by
  refine ⟨_, rfl, rfl, rfl, rfl, fun h => ?_⟩
  rcases h 0 rfl with ⟨-, -, -, e⟩ | ⟨e, -⟩
  · cases e
  · cases e

end Heads

/-! ### The order of the free list -/

/-- A call of the history. -/
inductive CacheCall where
  | getblk (dev block : Word)
  | brelse (b : BufRef)

/-- The heads, and when each of them was last released: 0 is never. -/
structure History where
  heads : Heads
  last : BufRef → ℕ
  clock : ℕ

namespace History

variable {m : Platform} {u : History} {b v : BufRef} {ring : List BufRef} {chain : Fin 256 → List BufRef}

def init (disk : ℕ → BlockData) (inode : InodeRef → MInode) : History := ⟨Heads.init disk inode, fun _ => 0, 0⟩

/-- **One call.** -/
def step (m : Platform) (u : History) : CacheCall → CallResult History
  | .getblk dev block => (u.heads.getblk m dev block).bind fun r => .done { u with heads := r.2 }
  | .brelse b => (u.heads.brelse b).bind fun s =>
    .done { heads := s, last := update u.last b (u.clock + 1), clock := u.clock + 1 }

/-- Only what is in use is released, and no head has 256 users. -/
def Fair (u : History) : CacheCall → Prop
  | .getblk dev block => ∀ b, (u.heads.buf b).isBlock dev block = true → (u.heads.buf b).count ≠ 255#8
  | .brelse b => (u.heads.buf b).count ≠ 0#8

abbrev Free (u : History) (b : BufRef) : Prop := (u.heads.buf b).count = 0#8

/-- **Least recently used**: a free head that has never been used, or if there is none the one that was
released first. -/
def IsLru (u : History) (v : BufRef) : Prop := u.Free v ∧
  (u.heads.assigned v = false ∨ ∀ a, u.Free a → u.heads.assigned a = true ∧ u.last v ≤ u.last a)

/-- The free list is in the order of the releases, but for its first head, which is the last one. -/
structure Aged (u : History) (ring : List BufRef) (chain : Fin 256 → List BufRef) : Prop where
  links : Heads.Links u.heads ring chain
  order : (Heads.turn ring).Pairwise fun a b => u.Free a → u.Free b → u.last a = 0 ∨ u.last a < u.last b
  used : ∀ b, u.heads.assigned b = true ↔ ¬ u.Free b ∨ u.last b ≠ 0
  past : ∀ b, u.last b ≤ u.clock

theorem aged_init (disk : ℕ → BlockData) (inode : InodeRef → MInode) : ∃ ring chain, Aged (init disk inode) ring chain := by
  obtain ⟨ring, chain, h⟩ := (show Heads.Tidy True (Heads.init disk inode) from Heads.tidy_init disk inode).1
  refine ⟨ring, chain, h, pairwise_of_forall fun _ _ _ _ => .inl rfl, fun b => ?_, fun _ => le_rfl⟩
  simp [init, Heads.init]

section
variable (h : Aged u ring chain)
include h

/-- A head comes into use. -/
theorem Aged.take {s' : Heads} {chain' : Fin 256 → List BufRef} (hl : Heads.Links s' ring chain')
    (hb : (s'.buf b).count ≠ 0#8) (ha : s'.assigned b = true)
    (ho : ∀ a, a ≠ b → (s'.buf a).count = (u.heads.buf a).count ∧ s'.assigned a = u.heads.assigned a) :
    Aged { u with heads := s' } ring chain' := by
  have hfree : ∀ a, (s'.buf a).count = 0#8 → u.Free a := fun a hf =>
    (ho a fun e => hb (e ▸ hf)).1.symm.trans hf
  refine ⟨hl, h.order.imp fun hab fa fb => hab (hfree _ fa) (hfree _ fb), fun a => ?_, h.past⟩
  by_cases e : a = b
  · rw [e]
    exact ⟨fun _ => .inl hb, fun _ => ha⟩
  · simp only [Free, ho a e]
    exact h.used a

theorem Aged.getblk {dev block : Word} (hok : u.Fair (.getblk dev block)) :
    (u.step m (.getblk dev block)).Holds fun u' => ∃ ring chain, Aged u' ring chain := by
  refine h.links.getblk.1.bind fun r hr => ?_
  rcases hr with ⟨ha, hblk, e⟩ | ⟨-, -, e⟩
  · have hc : (u.heads.buf r.1).count + 1#8 ≠ 0#8 := by
      have := hok r.1 hblk
      bv_omega
    refine ⟨ring, chain, h.take (e ▸ h.links.same .setCount) (b := r.1) ?_ ?_ fun a hne => ?_⟩
    · simpa [e, setCount, setBuf] using hc
    · rw [e]
      exact ha
    · simp [e, setCount, setBuf, update_of_ne hne]
  · have hl : Heads.Links r.2 ring _ := e ▸ (h.links.same .writeBack).reuse
    refine ⟨ring, _, h.take hl (b := r.1) ?_ ?_ fun a hne => ?_⟩
    · rw [e, reuse_buf]
      simp
    · rw [e, (reuse_frame _ _ _ _).1, update_self]
    · rw [e, reuse_buf, (reuse_frame _ _ _ _).1, update_of_ne hne, update_of_ne hne,
        writeBack_other hne, Heads.Same.writeBack.assigned]
      exact ⟨rfl, rfl⟩

/-- A head that is released is the last one of the order. -/
theorem Aged.brelse (hok : u.Fair (.brelse b)) :
    (u.step m (.brelse b)).Holds fun u' => ∃ ring chain, Aged u' ring chain := by
  have hl := h.links.released b
  unfold step
  simp only
  cases hs : u.heads.brelse b with
  | fault => rw [hs] at hl; exact hl
  | asleep => trivial
  | done s' =>
    rw [hs] at hl
    obtain ⟨hbuf, -, -, has⟩ := brelse_frame hs
    have hother : ∀ a, a ≠ b → (s'.buf a).count = (u.heads.buf a).count := fun a e => by
      rw [hbuf]
      simp [setCount, setBuf, update_of_ne e]
    have hcount : (s'.buf b).count = (u.heads.buf b).count - 1#8 := by
      rw [hbuf]
      simp [setCount, setBuf]
    have hlast : ∀ a, a ≠ b → update u.last b (u.clock + 1) a = u.last a := fun a e =>
      update_of_ne e _ _
    refine ⟨_, chain, hl, ?_, fun a => ?_, fun a => ?_⟩
    · have hrest : ∀ x y, x ≠ b → y ≠ b → (u.Free x → u.Free y → u.last x = 0 ∨ u.last x < u.last y) →
          (s'.buf x).count = 0#8 → (s'.buf y).count = 0#8 →
          update u.last b (u.clock + 1) x = 0 ∨
            update u.last b (u.clock + 1) x < update u.last b (u.clock + 1) y := by
        intro x y ex ey hxy fx fy
        rw [hlast x ex, hlast y ey]
        exact hxy ((hother x ex).symm.trans fx) ((hother y ey).symm.trans fy)
      split
      next hc =>
        have hne : ∀ x ∈ (turn ring).erase b, x ≠ b := fun x hx e =>
          h.links.turn_nodup.not_mem_erase (e ▸ hx)
        refine pairwise_append.mpr ⟨?_, pairwise_singleton _ _, fun x hx y hy _ _ => .inr ?_⟩
        · exact (h.order.sublist erase_sublist).imp_of_mem fun hx hy hxy => hrest _ _ (hne _ hx) (hne _ hy) hxy
        · rw [mem_singleton.mp hy]
          show update u.last b (u.clock + 1) x < update u.last b (u.clock + 1) b
          rw [hlast x (hne x hx), update_self]
          exact Nat.lt_succ_of_le (h.past x)
      next hc =>
        have hne : ∀ x, (s'.buf x).count = 0#8 → x ≠ b := fun x hx e => hc (hcount.symm.trans (e ▸ hx))
        exact h.order.imp fun hxy fx fy => hrest _ _ (hne _ fx) (hne _ fy) hxy fx fy
    · by_cases e : a = b
      · simp [e, has, (h.used b).mpr (.inl hok)]
      · simp only [Free, has, hother a e, hlast a e]
        exact h.used a
    · by_cases e : a = b
      · simp [e]
      · exact (hlast a e).trans_le ((h.past a).trans (Nat.le_succ _))

theorem Aged.step {c : CacheCall} (hok : u.Fair c) :
    (u.step m c).Holds fun u' => ∃ ring chain, Aged u' ring chain := by
  cases c with
  | getblk dev block => exact h.getblk hok
  | brelse b => exact h.brelse hok

/-- The head that a miss recycles. -/
theorem Aged.lru_iff (hv : u.heads.victim = some (some v)) : u.IsLru v ↔
    ¬ u.Free u.heads.freeList ∨ u.heads.assigned u.heads.freeList = false ∨ ∀ a, u.Free a → a = u.heads.freeList := by
  rw [h.links.victim] at hv
  have hv := Option.some.inj hv
  obtain ⟨l, rfl⟩ : ∃ l, ring = u.heads.freeList :: l := by
    cases ring with
    | nil => cases hv
    | cons a l => exact ⟨l, by rw [Option.some.inj h.links.start]⟩
  have hfree : u.Free v := by simpa using find?_some hv
  have horder : (l ++ [u.heads.freeList]).Pairwise fun a b => u.Free a → u.Free b → u.last a = 0 ∨ u.last a < u.last b :=
    h.order
  obtain ⟨hl, -, hlast⟩ := pairwise_append.mp horder
  by_cases hh : u.Free u.heads.freeList
  · -- the front is free, and every other free head was released before it
    obtain rfl : u.heads.freeList = v := by
      rw [find?_cons_of_pos (by simpa using hh)] at hv
      exact Option.some.inj hv
    constructor
    · rintro ⟨-, hn | hle⟩
      · exact .inr (.inl hn)
      refine .inr (.inr fun a ha => ?_)
      by_contra hne
      have hal : a ∈ l := (mem_cons.mp (h.links.all a)).resolve_left hne
      obtain ⟨has, hla⟩ := hle a ha
      rcases hlast a hal _ (mem_singleton_self _) ha hh with e | hlt
      · exact ((h.used a).mp has).elim (fun hn => hn ha) fun hn => hn e
      · omega
    · rintro (hn | hn | hn)
      · exact absurd hh hn
      · exact ⟨hh, .inl hn⟩
      refine ⟨hh, (Bool.eq_false_or_eq_true _).symm.imp_right fun hs a ha => ?_⟩
      rw [hn a ha]
      exact ⟨hs, le_rfl⟩
  · -- the first free head after the front
    refine ⟨fun _ => .inl hh, fun _ => ⟨hfree, ?_⟩⟩
    rw [find?_cons_of_neg (by simpa using hh)] at hv
    obtain ⟨-, l₁, l₂, rfl, hl₁⟩ := find?_eq_some_iff_append.mp hv
    refine (Bool.eq_false_or_eq_true _).symm.imp_right fun hs a ha => ?_
    by_cases e : a = v
    · rw [e]
      exact ⟨hs, le_rfl⟩
    have hal : a ∈ l₂ := by
      have hmem := h.links.all a
      simp only [mem_cons, mem_append] at hmem
      rcases hmem with e' | ha₁ | e' | ha₂
      · exact absurd (e' ▸ ha) hh
      · exact absurd (decide_eq_true ha) (by simpa using hl₁ a ha₁)
      · exact absurd e' e
      · exact ha₂
    have hva := (pairwise_cons.mp (pairwise_append.mp hl).2.1).1 a hal hfree ha
    have hva := hva.resolve_left (((h.used v).mp hs).resolve_left (not_not.mpr hfree))
    exact ⟨(h.used a).mpr (.inr (by omega)), hva.le⟩

end

/-- **Which head is recycled**, after any calls: the least recently used one exactly if the front of the free
list is in use, has never been used, or is the only free head. -/
theorem recycles_lru_iff (m : Platform) (disk : ℕ → BlockData) (inode : InodeRef → MInode) (calls : List CacheCall)
    (hfair : CallResult.Guarded (step m) Fair (init disk inode) calls) :
    (CallResult.run (step m) (init disk inode) calls).Holds fun u => ∀ dev block v s',
      u.heads.find dev block = some none → u.heads.getblk m dev block = .done (v, s') →
      (u.IsLru v ↔ ¬ u.Free u.heads.freeList ∨ u.heads.assigned u.heads.freeList = false ∨
        ∀ a, u.Free a → a = u.heads.freeList) := by
  have hrun := CallResult.Guarded.holds (I := fun u => ∃ ring chain, Aged u ring chain)
    (fun ⟨_, _, h⟩ hok => h.step hok) hfair (aged_init disk inode)
  refine hrun.mono fun u ⟨ring, chain, h⟩ dev block v s' hf hg => h.lru_iff ?_
  rcases getblk_cases hg with ⟨hf', -⟩ | ⟨-, hv, -⟩
  · rw [hf] at hf'
    cases hf'
  · exact hv

def freshHistory : History := init (fun _ _ => 0#8) fun _ => {}

/-- Head 0 is in use, and head 1 has never been. -/
theorem second_recycled : ∃ u s', CallResult.run (step Heads.plain) freshHistory [.getblk 0x301#32 5#32] = .done u ∧
    u.heads.getblk Heads.plain 0x301#32 6#32 = .done (1, s') ∧ u.IsLru 1 := by
  refine ⟨_, _, rfl, rfl, ?_⟩
  refine (recycles_lru_iff plain _ _ [.getblk 0x301#32 5#32] ⟨fun b _ => ?_, trivial⟩ 0x301#32 6#32 1 _ rfl rfl).mpr
    (.inl ?_)
  · show (0#8 : Byte) ≠ 255#8
    decide
  · decide

/-- **The block released last goes first**: two blocks are read and the second one is released.  The next miss
recycles its head, although 254 heads have never been used. -/
theorem newest_recycled : ∃ u s', CallResult.run (step Heads.plain) freshHistory
      [.getblk 0x301#32 5#32, .getblk 0x301#32 6#32, .brelse 1] = .done u ∧
    u.heads.getblk Heads.plain 0x301#32 7#32 = .done (1, s') ∧ u.heads.assigned 2 = false ∧ ¬ u.IsLru 1 := by
  refine ⟨_, _, rfl, rfl, rfl, fun h => ?_⟩
  rcases h.2 with e | e
  · cases e
  · cases (e 2 rfl).1

end History

end Linux001

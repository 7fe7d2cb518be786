import Linux001.Fs.Zone

/-!
# Fs — every zone has one owner

A *place* is where a zone number is stored: one of the eight zones of an inode in use, or an entry of
its indirect block.  `Excl` says that what is stored is marked in the zone map, and stored nowhere
else.  Every step keeps it, provided that an indirect block which is allocated holds zeroes
(`zones_exclusive`); without that, a file's data become zone numbers (`zones_shared`).
-/

namespace Linux001

open Function Vol List BitVec

/-- The inode that a step is about. -/
def ZoneOp.ino : ZoneOp → ℕ
  | .create i | .write i _ _ _ | .mkdir i _ | .undo i | .truncate i | .forget i => i

namespace Vol

/-- Where a zone number may be stored. -/
inductive Place where
  | direct (i : ℕ) (k : Fin 8)
  | indirect (i : ℕ) (k : Fin 512)
  deriving DecidableEq

def Place.ino : Place → ℕ
  | .direct i _ | .indirect i _ => i

/-- The zone number stored at a place, 0 for none. -/
def ref (v : Vol) : Place → BitVec 16
  | .direct i k => if v.imap i then v.zone i k else 0#16
  | .indirect i k =>
    if v.imap i ∧ v.zone i 7 ≠ 0#16 then (v.block (v.zone i 7).toNat).short k.val else 0#16

/-- The zone is a data zone, and its bit is set. -/
structure Marked (v : Vol) (z : BitVec 16) : Prop where
  low : v.firstdatazone ≤ z.toNat
  high : z.toNat < v.nzones
  bit : v.zmap (z.toNat - v.firstdatazone) = true

/-- **Every zone that is stored is marked, and stored once.** -/
structure Excl (v : Vol) : Prop where
  used : ∀ {p}, v.ref p ≠ 0#16 → v.Marked (v.ref p)
  unique : ∀ {p q}, v.ref p ≠ 0#16 → v.ref p = v.ref q → p = q

variable {v v' : Vol} {i k : ℕ} {z ind : BitVec 16} {p q p₀ : Place} {v₁ : Vol} {S : BitVec 16 → Prop}
  {bs : List Byte} {op : ZoneOp}

/-! ### How the stored zones may change -/

/-- One place gets a zone that is stored nowhere. -/
theorem Excl.put (h : Excl v) (hm : ∀ {z}, v.Marked z → v'.Marked z) (hz : v'.Marked z)
    (hfresh : ∀ p, v.ref p ≠ z) (hp : ∀ p, p ≠ p₀ → v'.ref p = v.ref p) (h₀ : v'.ref p₀ = z) :
    Excl v' where
  used {p} hne := by
    by_cases e : p = p₀
    · rw [e, h₀]
      exact hz
    · rw [hp p e] at hne ⊢
      exact hm (h.used hne)
  unique {p q} hne he := by
    by_cases ep : p = p₀ <;> by_cases eq : q = p₀
    · rw [ep, eq]
    · rw [ep, h₀, hp q eq] at he
      exact absurd he.symm (hfresh q)
    · rw [eq, h₀, hp p ep] at he
      exact absurd he (hfresh p)
    · rw [hp p ep] at hne he
      rw [hp q eq] at he
      exact h.unique hne he

/-- The places are as they were, and no mark is lost. -/
theorem Excl.same (h : Excl v) (hm : ∀ {z}, v.Marked z → v'.Marked z) (hp : ∀ p, v'.ref p = v.ref p) :
    Excl v' where
  used {p} hne := by
    rw [hp] at hne ⊢
    exact hm (h.used hne)
  unique {p q} hne he := by
    rw [hp] at hne he
    rw [hp] at he
    exact h.unique hne he

/-- Only bits of zones in `S` have been cleared. -/
structure Clears (v v' : Vol) (S : BitVec 16 → Prop) : Prop where
  first : v'.firstdatazone = v.firstdatazone
  last : v'.nzones = v.nzones
  block : v'.block = v.block
  zmap : ∀ {j}, v.zmap j = true → v'.zmap j = true ∨ ∃ z, S z ∧ z.toNat = v.firstdatazone + j

/-- The places of one inode are gone, with some of the zones stored there. -/
theorem Excl.release (h : Excl v) (hc : Clears v v' S)
    (hS : ∀ {z}, S z → z ≠ 0#16 → ∃ p, p.ino = i ∧ v.ref p = z)
    (hp : ∀ p, v'.ref p = if p.ino = i then 0#16 else v.ref p) : Excl v' where
  used {p} hne := by
    rw [hp] at hne ⊢
    split at hne
    · exact absurd rfl hne
    next e =>
    rw [if_neg e]
    obtain ⟨hlow, hhigh, hbit⟩ := h.used hne
    refine ⟨hc.first ▸ hlow, hc.last ▸ hhigh, ?_⟩
    rw [hc.first]
    rcases hc.zmap hbit with hb | ⟨z, hz, he⟩
    · exact hb
    -- the bit is that of a zone of `i`, which `p` is not a place of
    exfalso
    have hzp : z = v.ref p := eq_of_toNat_eq (by omega)
    obtain ⟨q, hq, hqz⟩ := hS hz (hzp ▸ hne)
    exact e (h.unique hne (hzp ▸ hqz).symm ▸ hq)
  unique {p q} hne he := by
    rw [hp] at hne he
    rw [hp] at he
    split at hne
    · exact absurd rfl hne
    next e =>
    rw [if_neg e] at he
    split at he
    · exact absurd he hne
    · exact h.unique hne he

/-! ### Allocation -/

/-- How many zones are in use. -/
def inUse (v : Vol) : ℕ := (List.range v.bits).countP v.zmap

/-- The superblock's numbers are 16-bit, and zone 0 is no data zone. -/
structure Super (v : Vol) : Prop where
  pos : 0 < v.firstdatazone
  short : v.nzones < 2 ^ 16

/-- There are as many data zones as are in use. -/
def Fits (v : Vol) : Prop := v.inUse ≤ v.nzones - v.firstdatazone

theorem findClear_some {zmap : ℕ → Bool} {a n j : ℕ} (h : findClear zmap a n = some j) :
    zmap j = false ∧ a ≤ j ∧ j < a + n ∧ ∀ j', a ≤ j' → j' < j → zmap j' = true := by
  induction n generalizing a with
  | zero => cases h
  | succ n ih =>
    unfold findClear at h
    split at h
    · next ha =>
      obtain ⟨h₁, h₂, h₃, h₄⟩ := ih h
      refine ⟨h₁, by omega, by omega, fun j' hle hlt => ?_⟩
      by_cases e : j' = a
      · rw [e, ha]
      · exact h₄ j' (by omega) hlt
    · next ha =>
      obtain rfl := Option.some.inj h
      exact ⟨by simpa using ha, le_refl _, by omega, fun j' hle hlt => by omega⟩

/-- `z` has just been allocated: it was free, and only its bit has changed. -/
structure Fresh (v : Vol) (z : BitVec 16) (v₁ : Vol) : Prop where
  ne : z ≠ 0#16
  low : v.firstdatazone ≤ z.toNat
  high : z.toNat < v.nzones
  clear : v.zmap (z.toNat - v.firstdatazone) = false
  eq : v₁ = { v with zmap := update v.zmap (z.toNat - v.firstdatazone) true }

/-- **What `new_block` returns** as long as the zones do not run out. -/
theorem alloc_cases (hs : Super v) (hu : Fits v.alloc.2) :
    v.alloc = (0#16, v) ∨ Fresh v v.alloc.1 v.alloc.2 := by
  unfold alloc newBlock at *
  cases hf : findClear v.zmap 0 v.bits with
  | none => exact .inl rfl
  | some j =>
    right
    simp only [hf, Option.map_some] at hu ⊢
    obtain ⟨hclear, -, hj, hbelow⟩ := findClear_some hf
    -- all the bits up to `j` are set now, so there are at most as many data zones
    have hcount : j + 1 ≤ (range v.bits).countP (update v.zmap j true) := by
      have hsub : (range (j + 1)).Sublist (range v.bits) :=
        range_sublist.mpr (by omega)
      have hall : (range (j + 1)).countP (update v.zmap j true) = j + 1 := by
        rw [countP_eq_length.mpr, length_range]
        intro j' hj'
        by_cases e : j' = j
        · rw [e, update_self]
        · rw [update_of_ne e]
          exact hbelow j' (Nat.zero_le _) (by have := mem_range.mp hj'; omega)
      rw [← hall]
      exact hsub.countP_le
    have hle : (range v.bits).countP (update v.zmap j true) ≤ v.nzones - v.firstdatazone := hu
    have hz : (BitVec.ofNat 16 (v.firstdatazone + j)).toNat = v.firstdatazone + j := by
      rw [toNat_ofNat, Nat.mod_eq_of_lt]
      have := hs.short
      omega
    have hj' : (BitVec.ofNat 16 (v.firstdatazone + j)).toNat - v.firstdatazone = j := by omega
    refine ⟨fun e => ?_, by omega, by omega, by rw [hj', hclear], by rw [hj']⟩
    have := congrArg BitVec.toNat e
    have := hs.pos
    simp at *
    omega

theorem Fresh.ref (h : Fresh v z v₁) (p : Place) : v₁.ref p = v.ref p := by
  rw [h.eq]
  cases p <;> rfl

theorem Fresh.mark (h : Fresh v z v₁) {z' : BitVec 16} (hm : v.Marked z') : v₁.Marked z' := by
  rw [h.eq]
  refine ⟨hm.low, hm.high, ?_⟩
  show update v.zmap (z.toNat - v.firstdatazone) true (z'.toNat - v.firstdatazone) = true
  by_cases e : z'.toNat - v.firstdatazone = z.toNat - v.firstdatazone
  · rw [e, update_self]
  · rw [update_of_ne e]
    exact hm.bit

theorem Fresh.marked (h : Fresh v z v₁) : v₁.Marked z := by
  rw [h.eq]
  exact ⟨h.low, h.high, update_self _ _ _⟩

theorem Fresh.not_stored (h : Fresh v z v₁) (hx : Excl v) (p : Place) : v.ref p ≠ z := by
  intro e
  have := (hx.used (by rw [e]; exact h.ne)).bit
  rw [e, h.clear] at this
  cases this

/-! ### Changes to one inode -/

/-- From `v` to `v'` zones have been stored, and no others marked. -/
structure Grows (v v' : Vol) : Prop where
  first : v'.firstdatazone = v.firstdatazone
  kept : ∀ {p}, v.ref p ≠ 0#16 → v'.ref p = v.ref p
  marked : ∀ {j}, v'.zmap j = true → v.zmap j = true ∨ ∃ p, v'.ref p ≠ 0#16 ∧ (v'.ref p).toNat = v.firstdatazone + j

theorem Grows.refl (v : Vol) : Grows v v := ⟨rfl, fun _ => rfl, fun h => .inl h⟩

theorem Grows.trans (h : Grows v v₁) (h' : Grows v₁ v') : Grows v v' where
  first := h'.first.trans h.first
  kept {p} hp := by
    have h₁ := h.kept hp
    rw [h'.kept (by rw [h₁]; exact hp), h₁]
  marked {j} hj := by
    rcases h'.marked hj with h₁ | ⟨p, hp, he⟩
    · rcases h.marked h₁ with h₂ | ⟨p, hp, he⟩
      · exact .inl h₂
      · exact .inr ⟨p, by rw [h'.kept hp]; exact hp, by rw [h'.kept hp]; exact he⟩
    · exact .inr ⟨p, hp, by rw [he, h.first]⟩

/-- The places and the marks are as they were. -/
theorem Grows.same (hf : v'.firstdatazone = v.firstdatazone) (hz : v'.zmap = v.zmap)
    (hp : ∀ p, v'.ref p = v.ref p) : Grows v v' :=
  ⟨hf, fun _ => hp _, fun hj => .inl (by rw [hz] at hj; exact hj)⟩

/-- A place that was empty gets the zone that has been allocated. -/
theorem Grows.put (hf : Fresh v z v₁) (hfirst : v'.firstdatazone = v₁.firstdatazone)
    (hz : v'.zmap = v₁.zmap) (hempty : v.ref p₀ = 0#16) (hp : ∀ p, v'.ref p = if p = p₀ then z else v.ref p) :
    Grows v v' := by
  have h₁ : v₁.firstdatazone = v.firstdatazone ∧ v₁.zmap = update v.zmap (z.toNat - v.firstdatazone) true := by
    rw [hf.eq]
    exact ⟨rfl, rfl⟩
  refine ⟨hfirst.trans h₁.1, fun {p} hne => ?_, fun {j} hj => ?_⟩
  · rw [hp, if_neg]
    rintro rfl
    exact hne hempty
  · rw [hz, h₁.2] at hj
    by_cases e : j = z.toNat - v.firstdatazone
    · have := hf.low
      exact .inr ⟨p₀, by rw [hp, if_pos rfl]; exact hf.ne, by rw [hp, if_pos rfl]; omega⟩
    · rw [update_of_ne e] at hj
      exact .inl hj

/-- From `v` to `v'` only places of `i` have changed, and blocks that only `i` has. -/
structure Within (i : ℕ) (v v' : Vol) : Prop where
  excl : Excl v'
  first : v'.firstdatazone = v.firstdatazone
  last : v'.nzones = v.nzones
  imap : v'.imap = v.imap
  refs : ∀ {p}, p.ino ≠ i → v'.ref p = v.ref p
  blocks : ∀ {p}, p.ino ≠ i → v.ref p ≠ 0#16 → v'.block (v.ref p).toNat = v.block (v.ref p).toNat

theorem Within.trans (h : Within i v v₁) (h' : Within i v₁ v') : Within i v v' where
  excl := h'.excl
  first := h'.first.trans h.first
  last := h'.last.trans h.last
  imap := h'.imap.trans h.imap
  refs hp := (h'.refs hp).trans (h.refs hp)
  blocks {p} hp hne := by
    have hr := h.refs hp
    have := h'.blocks hp (by rw [hr]; exact hne)
    rw [hr] at this
    exact this.trans (h.blocks hp hne)

theorem Within.super (h : Within i v v') (hs : Super v) : Super v' :=
  ⟨by rw [h.first]; exact hs.pos, by rw [h.last]; exact hs.short⟩

/-- Zones that were free may have been stored at empty places of `i`, and in its indirect block. -/
structure Filled (i : ℕ) (v v' : Vol) : Prop extends Grows v v' where
  excl : Excl v'
  last : v'.nzones = v.nzones
  imap : v'.imap = v.imap
  refs : ∀ {p}, p.ino ≠ i → v'.ref p = v.ref p
  fresh : ∀ {p}, v.ref p = 0#16 → v'.ref p ≠ 0#16 → v.zmap ((v'.ref p).toNat - v.firstdatazone) = false
  mono : ∀ {j}, v.zmap j = true → v'.zmap j = true
  block : ∀ b ≠ 0, b ≠ (v'.ref (.direct i 7)).toNat → v'.block b = v.block b

theorem Filled.refl (h : Excl v) : Filled i v v :=
  { Grows.refl v with
    excl := h, last := rfl, imap := rfl, refs := fun _ => rfl, fresh := fun h₀ h₁ => absurd h₀ h₁, mono := id
    block := fun _ _ _ => rfl }

theorem Filled.trans (h : Filled i v v₁) (h' : Filled i v₁ v') : Filled i v v' :=
  { h.toGrows.trans h'.toGrows with
    excl := h'.excl
    last := h'.last.trans h.last
    imap := h'.imap.trans h.imap
    refs := fun hp => (h'.refs hp).trans (h.refs hp)
    fresh := fun {p} h₀ hne => by
      by_cases h₁ : v₁.ref p = 0#16
      · have hfree := h'.fresh h₁ hne
        rw [h.first] at hfree
        exact Bool.eq_false_iff.mpr fun hz => Bool.false_ne_true (hfree.symm.trans (h.mono hz))
      · rw [h'.kept h₁]
        exact h.fresh h₀ h₁
    mono := fun hj => h'.mono (h.mono hj)
    block := fun b hb hne => by
      refine (h'.block b hb hne).trans (h.block b hb ?_)
      by_cases h₇ : v₁.ref (.direct i 7) = 0#16
      · rw [h₇]
        exact hb
      · rwa [← h'.kept h₇] }

theorem Filled.within (h : Filled i v v') : Within i v v' where
  excl := h.excl
  first := h.first
  last := h.last
  imap := h.imap
  refs := h.refs
  blocks {p} hp hne := by
    have hr := h.refs hp
    refine h.block _ (fun e => hne (eq_of_toNat_eq e)) fun e => hp ?_
    rw [h.excl.unique (hr ▸ hne) (hr.trans (eq_of_toNat_eq e))]
    rfl

/-- An empty place of `i` gets the zone that has been allocated. -/
theorem Fresh.filled (hf : Fresh v z v₁) (h : Excl v) (e : v' = { v₁ with zone := v'.zone, block := v'.block })
    (hp₀ : p₀.ino = i) (hempty : v.ref p₀ = 0#16) (href : ∀ p, v'.ref p = if p = p₀ then z else v.ref p)
    (hblock : ∀ b ≠ 0, b ≠ (v'.ref (.direct i 7)).toNat → v'.block b = v.block b) :
    Filled i v v' ∧ v'.ref p₀ = z := by
  have hself : v'.ref p₀ = z := (href _).trans (if_pos rfl)
  have hother : ∀ p, p ≠ p₀ → v'.ref p = v.ref p := fun p hp => (href p).trans (if_neg hp)
  have hfirst := congrArg firstdatazone e
  have hlast := congrArg nzones e
  have hzmap := congrArg zmap e
  have hmark : ∀ {y}, v₁.Marked y → v'.Marked y := fun hm =>
    ⟨hfirst ▸ hm.low, hlast ▸ hm.high, by rw [hzmap, hfirst]; exact hm.bit⟩
  refine ⟨{ Grows.put hf hfirst hzmap hempty href with
    excl := h.put (fun hm => hmark (hf.mark hm)) (hmark hf.marked) (hf.not_stored h) hother hself
    last := by rw [hlast, hf.eq]
    imap := by rw [congrArg Vol.imap e, hf.eq]
    refs := fun {p} hp => hother p fun e => hp (e ▸ hp₀)
    fresh := fun {p} h₀ hne => ?_
    mono := fun {j} hj => ?_
    block := hblock }, hself⟩
  · by_cases ep : p = p₀
    · rw [ep, hself]
      exact hf.clear
    · exact absurd ((hother p ep).trans h₀) hne
  · rw [hzmap, hf.eq]
    by_cases ej : j = z.toNat - v.firstdatazone
    · exact ej ▸ update_self ..
    · exact (update_of_ne ej ..).trans hj

theorem ref_setZone (v : Vol) (hi : v.imap i = true) (k : Fin 8) (z : BitVec 16) (p : Place) :
    (v.setZone i k z).ref p = if p = .direct i k then z
      else if k = 7 ∧ p.ino = i then
        match p with
        | .direct i k => v.ref (.direct i k)
        | .indirect _ j => if z = 0#16 then 0#16 else (v.block z.toNat).short j.val
      else v.ref p := by
  cases p with
  | direct i' k' =>
    simp only [ref, setZone, Place.direct.injEq, Place.ino]
    by_cases ei : i' = i
    · subst ei
      by_cases ek : k' = k
      · subst ek
        simp [hi]
      · simp [hi, ek]
    · simp [ei]
  | indirect i' j =>
    simp only [ref, setZone, reduceCtorEq, if_false, Place.ino]
    by_cases ei : i' = i
    · subst ei
      by_cases ek : k = 7
      · subst ek
        by_cases hz : z = 0#16
        · simp [hz]
        · simp [hi, hz]
      · have : (7 : Fin 8) ≠ k := fun e => ek e.symm
        simp [hi, ek, update_of_ne this]
    · simp [ei]

/-- What is stored when an inode's zone is filled; an indirect block is empty. -/
theorem ref_putDirect {k : Fin 8} (hi : v.imap i = true) (hf : Fresh v z v₁) (hk : v.zone i k = 0#16)
    (hzero : k = 7 → ∀ j, (v.block z.toNat).short j = 0#16) (p : Place) :
    (v₁.setZone i k z).ref p = if p = .direct i k then z else v.ref p := by
  have hi₁ : v₁.imap i = true := by rw [hf.eq]; exact hi
  rw [ref_setZone v₁ hi₁]
  split
  · rfl
  split
  · next hc =>
    obtain ⟨rfl, hpi⟩ := hc
    cases p with
    | direct i' k' => exact hf.ref _
    | indirect i' j =>
      obtain rfl : i' = i := hpi
      have hb : v₁.block = v.block := by rw [hf.eq]
      simp [hf.ne, hb, hzero rfl, ref, hk]
  · exact hf.ref p

/-- An inode's zone is filled. -/
theorem Excl.putDirect {k : Fin 8} (h : Excl v) (hi : v.imap i = true) (hf : Fresh v z v₁)
    (hk : v.zone i k = 0#16) (hzero : k = 7 → ∀ j, (v.block z.toNat).short j = 0#16) :
    Filled i v (v₁.setZone i k z) ∧ (v₁.setZone i k z).ref (.direct i k) = z :=
  hf.filled h rfl rfl ((if_pos hi).trans hk) (ref_putDirect hi hf hk hzero) fun b _ _ => by rw [hf.eq]; rfl

theorem ref_indirect (hi : v.imap i = true) (hz : v.zone i 7 ≠ 0#16) (j : Fin 512) :
    v.ref (.indirect i j) = (v.block (v.zone i 7).toNat).short j.val := if_pos ⟨hi, hz⟩

/-- The places of other inodes do not see an inode's indirect block. -/
theorem ref_setBlock {b : Block} (p : Place)
    (hz : ∀ i' j, p = .indirect i' j → v.imap i' = true → v.zone i' 7 ≠ 0#16 → v.zone i' 7 ≠ z) :
    (v.setBlock z b).ref p = v.ref p := by
  cases p with
  | direct => rfl
  | indirect i' j =>
    by_cases hc : v.imap i' = true ∧ v.zone i' 7 ≠ 0#16
    · have hne : (v.zone i' 7).toNat ≠ z.toNat := fun e =>
        hz i' j rfl hc.1 hc.2 (eq_of_toNat_eq e)
      have h₁ : (v.setBlock z b).ref (.indirect i' j) =
          ((v.setBlock z b).block (v.zone i' 7).toNat).short j.val := if_pos hc
      rw [h₁, ref_indirect hc.1 hc.2]
      simp only [setBlock, update_of_ne hne]
    · have h₁ : (v.setBlock z b).ref (.indirect i' j) = 0#16 := if_neg hc
      have h₂ : v.ref (.indirect i' j) = 0#16 := if_neg hc
      rw [h₁, h₂]

/-- The zone in `i_zone[7]` of another inode is another one. -/
theorem Excl.zone7_ne (h : Excl v) {i' : ℕ} (hp : p ≠ .direct i' 7) (hz : v.ref p ≠ 0#16)
    (hi' : v.imap i' = true) : v.zone i' 7 ≠ v.ref p := by
  intro e
  have hr : v.ref (.direct i' 7) = v.zone i' 7 := if_pos hi'
  exact hp (h.unique hz (by rw [hr, e]))

/-- What is stored when an entry of the indirect block is filled. -/
theorem ref_putEntry (h : Excl v) (hi : v.imap i = true) (hf : Fresh v z v₁)
    (hind : v.zone i 7 ≠ 0#16) (j : Fin 512) (p : Place) :
    (v₁.setBlock (v.zone i 7) ((v.block (v.zone i 7).toNat).setShort j.val z)).ref p =
      if p = .indirect i j then z else v.ref p := by
  have hi₁ : v₁.imap i = true := by rw [hf.eq]; exact hi
  have hz₁ : v₁.zone i 7 = v.zone i 7 := by rw [hf.eq]
  have hr7 : v.ref (.direct i 7) = v.zone i 7 := if_pos hi
  by_cases e : ∃ j', p = .indirect i j'
  · obtain ⟨j', rfl⟩ := e
    have hind₁ : (v₁.setBlock (v.zone i 7) ((v.block (v.zone i 7).toNat).setShort j.val z)).zone i 7 ≠
        0#16 := by
      show v₁.zone i 7 ≠ 0#16
      rw [hz₁]
      exact hind
    have hi₂ : (v₁.setBlock (v.zone i 7) ((v.block (v.zone i 7).toNat).setShort j.val z)).imap i = true :=
      hi₁
    rw [ref_indirect hi₂ hind₁]
    simp only [setBlock, hz₁, update_self, Block.short_setShort, ref_indirect hi hind,
      Place.indirect.injEq, true_and, Fin.ext_iff]
  · rw [if_neg fun h' => e ⟨j, h'⟩, ref_setBlock, hf.ref]
    intro i' j' hpe hi' _
    have hi'' : v.imap i' = true := by rw [hf.eq] at hi'; exact hi'
    have hne : i' ≠ i := fun ei => e ⟨j', by rw [hpe, ei]⟩
    rw [← hr7, show v₁.zone i' 7 = v.zone i' 7 by rw [hf.eq]]
    exact h.zone7_ne (by simpa using hne.symm) (by rw [hr7]; exact hind) hi''

/-- An entry of the indirect block is filled. -/
theorem Excl.putEntry (h : Excl v) (hi : v.imap i = true) (hf : Fresh v z v₁)
    (hind : v.zone i 7 ≠ 0#16) (j : Fin 512) (he : (v.block (v.zone i 7).toNat).short j.val = 0#16) :
    Filled i v (v₁.setBlock (v.zone i 7) ((v.block (v.zone i 7).toNat).setShort j.val z)) ∧
      (v₁.setBlock (v.zone i 7) ((v.block (v.zone i 7).toNat).setShort j.val z)).ref (.indirect i j) = z := by
  have href := ref_putEntry h hi hf hind j
  refine hf.filled h rfl rfl ((ref_indirect hi hind j).trans he) href fun b _ hb => ?_
  have hr7 : v.ref (.direct i 7) = v.zone i 7 := if_pos hi
  rw [href, if_neg nofun, hr7] at hb
  have hblock : v₁.block = v.block := by rw [hf.eq]
  simp only [setBlock, hblock, update_of_ne hb]

/-- Writing a data block stores no zone. -/
theorem ref_putData (h : Excl v) (hp₀ : p₀.ino = i) (hne : p₀ ≠ .direct i 7) (hz : v.ref p₀ ≠ 0#16)
    (b : Block) (p : Place) : (v.setBlock (v.ref p₀) b).ref p = v.ref p :=
  ref_setBlock p fun i' j _ hi' _ => h.zone7_ne (fun e => by
    have : i' = i := by rw [← hp₀, e]; rfl
    exact hne (by rw [e, this])) hz hi'

/-- A data block is written. -/
theorem Excl.putData (h : Excl v) (hp₀ : p₀.ino = i) (hne : p₀ ≠ .direct i 7) (hz : v.ref p₀ ≠ 0#16)
    (b : Block) : Within i v (v.setBlock (v.ref p₀) b) := by
  have hrefs := ref_putData h hp₀ hne hz b
  refine ⟨h.same (fun hm => ⟨hm.low, hm.high, hm.bit⟩) hrefs, rfl, rfl, rfl, fun _ => hrefs _, fun {p} hp hne' => ?_⟩
  have hzz : (v.ref p).toNat ≠ (v.ref p₀).toNat := fun e => by
    have := h.unique hne' (eq_of_toNat_eq e)
    exact hp (by rw [this, hp₀])
  simp only [setBlock, update_of_ne hzz]

/-! ### Writing -/

theorem inUse_mono (hb : v'.bits = v.bits) (hz : ∀ j, v.zmap j = true → v'.zmap j = true) :
    v.inUse ≤ v'.inUse := by
  unfold inUse
  rw [hb]
  exact countP_mono_left fun j _ => hz j

theorem alloc_bits (v : Vol) : v.alloc.2.bits = v.bits := by
  unfold alloc newBlock
  cases findClear v.zmap 0 v.bits <;> rfl

theorem alloc_first (v : Vol) : v.alloc.2.firstdatazone = v.firstdatazone ∧ v.alloc.2.nzones = v.nzones := by
  unfold alloc newBlock
  cases findClear v.zmap 0 v.bits <;> exact ⟨rfl, rfl⟩

theorem alloc_zmap (v : Vol) {j : ℕ} (h : v.zmap j = true) : v.alloc.2.zmap j = true := by
  unfold alloc newBlock
  cases findClear v.zmap 0 v.bits with
  | none => exact h
  | some j' =>
    show update v.zmap j' true j = true
    by_cases e : j = j'
    · rw [e, update_self]
    · rw [update_of_ne e, h]

/-- The place where the zone of block `k` is stored. -/
def placeOf (i : ℕ) (k : Fin 519) : Place :=
  if h : k.val < 7 then .direct i ⟨k.val, by omega⟩ else .indirect i ⟨k.val - 7, by omega⟩

theorem placeOf_ino (i : ℕ) (k : Fin 519) : (placeOf i k).ino = i := by
  unfold placeOf
  split <;> rfl

theorem placeOf_ne (i : ℕ) (k : Fin 519) : placeOf i k ≠ .direct i 7 := by
  unfold placeOf
  split
  · next h =>
    simp only [ne_eq, Place.direct.injEq, true_and]
    exact fun e => absurd (congrArg Fin.val e) (by simp; omega)
  · simp

/-- If block `k` needs an indirect block and there is none, the one that is allocated holds
zeroes. -/
def Blank (v : Vol) (i k : ℕ) : Prop :=
  7 ≤ k → v.zone i 7 = 0#16 → v.alloc.1 ≠ 0#16 → ∀ j, (v.block v.alloc.1.toNat).short j = 0#16

/-- If it fits after an allocation, it has fitted before. -/
theorem Fits.of_alloc (h : Fits v.alloc.2) : Fits v := by
  have hle := inUse_mono v.alloc_bits fun _ => v.alloc_zmap
  unfold Fits at *
  rw [v.alloc_first.1, v.alloc_first.2] at h
  exact hle.trans h

theorem setZone_zero {k : Fin 8} (h : v.zone i k = 0#16) : v.setZone i k 0#16 = v := by
  unfold setZone
  rw [← h, update_eq_self, update_eq_self]

/-- **What `indirect` can do**: nothing, or a fresh zone becomes the indirect block. -/
theorem indirect_cases (hs : Super v) (hu : Fits (v.indirect i).2) : v.indirect i = (v.zone i 7, v) ∨
    v.zone i 7 = 0#16 ∧ Fresh v v.alloc.1 v.alloc.2 ∧
      v.indirect i = (v.alloc.1, v.alloc.2.setZone i 7 v.alloc.1) := by
  unfold indirect at hu ⊢
  by_cases h7 : v.zone i 7 = 0#16
  · rw [if_pos h7] at hu ⊢
    rcases alloc_cases hs hu with e | hf
    · left
      rw [e, setZone_zero h7, h7]
    · exact .inr ⟨h7, hf, rfl⟩
  · exact .inl (if_neg h7)

/-- **What `entry` can do**: nothing, or a fresh zone goes into the indirect block. -/
theorem entry_cases {ind : BitVec 16} {j : ℕ} (hs : Super v) (hu : Fits (v.entry ind j).2) :
    v.entry ind j = ((v.block ind.toNat).short j, v) ∨
      (v.block ind.toNat).short j = 0#16 ∧ Fresh v v.alloc.1 v.alloc.2 ∧
        v.entry ind j = (v.alloc.1, v.alloc.2.setBlock ind ((v.block ind.toNat).setShort j v.alloc.1)) := by
  unfold entry at hu ⊢
  by_cases he : (v.block ind.toNat).short j = 0#16
  · rw [if_pos he] at hu ⊢
    rcases alloc_cases hs hu with e | hf
    · -- a zero is written over a zero
      have hv : v.setBlock ind ((v.block ind.toNat).setShort j 0#16) = v := by
        rw [← he, Block.setShort_self, setBlock, update_eq_self]
      left
      rw [e, hv, he]
    · exact .inr ⟨he, hf, rfl⟩
  · exact .inl (if_neg he)

/-- **What `mapZone` can do** with a direct zone. -/
theorem mapZone_direct {k : ℕ} (hs : Super v) (hk : k < 7) (hu : Fits (v.mapZone i k).2) :
    v.mapZone i k = (v.zone i ⟨k, Nat.lt_succ_of_lt hk⟩, v) ∨
      v.zone i ⟨k, Nat.lt_succ_of_lt hk⟩ = 0#16 ∧ Fresh v v.alloc.1 v.alloc.2 ∧
        v.mapZone i k = (v.alloc.1, v.alloc.2.setZone i ⟨k, Nat.lt_succ_of_lt hk⟩ v.alloc.1) := by
  unfold mapZone at hu ⊢
  rw [dif_pos hk] at hu ⊢
  by_cases hz : v.zone i ⟨k, Nat.lt_succ_of_lt hk⟩ = 0#16
  · rw [if_pos hz] at hu ⊢
    rcases alloc_cases hs hu with e | hf
    · left
      rw [e, setZone_zero hz, hz]
    · exact .inr ⟨hz, hf, rfl⟩
  · exact .inl (if_neg hz)

theorem Fits.indirect {k : ℕ} (hu : Fits (v.mapZone i k).2) (hk : ¬ k < 7) : Fits (v.indirect i).2 := by
  unfold mapZone at hu
  rw [dif_neg hk] at hu
  split at hu
  · exact hu
  unfold entry at hu
  split at hu
  · exact Fits.of_alloc hu
  · exact hu

section
variable (h : Excl v) (hs : Super v) (hi : v.imap i = true)
include h hs hi

/-- The indirect block is there. -/
theorem Excl.indirect (hu : Fits (v.indirect i).2)
    (hzero : v.zone i 7 = 0#16 → v.alloc.1 ≠ 0#16 → ∀ j, (v.block v.alloc.1.toNat).short j = 0#16) :
    Filled i v (v.indirect i).2 ∧ (v.indirect i).2.zone i 7 = (v.indirect i).1 := by
  rcases indirect_cases hs hu with e | ⟨h7, hf, e⟩
  · rw [e]
    exact ⟨.refl h, rfl⟩
  rw [e]
  refine ⟨(h.putDirect hi hf h7 fun _ => hzero h7 hf.ne).1, ?_⟩
  simp [setZone]

/-- The entry of the indirect block is there. -/
theorem Excl.entry (hind : v.zone i 7 ≠ 0#16)
    (j : Fin 512) (hu : Fits (v.entry (v.zone i 7) j.val).2) :
    Filled i v (v.entry (v.zone i 7) j.val).2 ∧ ((v.entry (v.zone i 7) j.val).1 ≠ 0#16 →
      (v.entry (v.zone i 7) j.val).2.ref (.indirect i j) = (v.entry (v.zone i 7) j.val).1) := by
  rcases entry_cases hs hu with e | ⟨he, hf, e⟩
  · rw [e]
    exact ⟨.refl h, fun _ => ref_indirect hi hind j⟩
  rw [e]
  obtain ⟨hw, hr⟩ := h.putEntry hi hf hind j he
  exact ⟨hw, fun _ => hr⟩

/-- **The zone of a block**, allocated if there is none. -/
theorem Excl.mapZone (k : Fin 519)
    (hu : Fits (v.mapZone i k.val).2) (hb : Blank v i k.val) :
    Filled i v (v.mapZone i k.val).2 ∧ ((v.mapZone i k.val).1 ≠ 0#16 →
      (v.mapZone i k.val).2.ref (placeOf i k) = (v.mapZone i k.val).1) := by
  by_cases hk : k.val < 7
  · have hpl : placeOf i k = .direct i ⟨k.val, by omega⟩ := dif_pos hk
    rw [hpl]
    rcases mapZone_direct hs hk hu with e | ⟨hz, hf, e⟩
    · rw [e]
      exact ⟨.refl h, fun _ => if_pos hi⟩
    rw [e]
    obtain ⟨hw, hr⟩ := h.putDirect hi hf hz fun e => absurd (congrArg Fin.val e) (by show k.val ≠ 7; omega)
    exact ⟨hw, fun _ => hr⟩
  have hpl : placeOf i k = .indirect i ⟨k.val - 7, by omega⟩ := dif_neg hk
  obtain ⟨hw, h7⟩ := h.indirect hs hi (hu.indirect hk) fun h7 => hb (by omega) h7
  unfold Vol.mapZone at hu ⊢
  rw [dif_neg hk] at hu ⊢
  split
  · exact ⟨hw, fun hn => absurd rfl hn⟩
  next hind =>
  rw [if_neg hind] at hu
  generalize (v.indirect i).2 = v₁ at hw h7 hu ⊢
  rw [← h7] at hind hu ⊢
  obtain ⟨hw', hr⟩ := hw.excl.entry (hw.within.super hs)
    (by rw [hw.imap, hi]) hind ⟨k.val - 7, by omega⟩ hu
  rw [hpl]
  exact ⟨hw.trans hw', hr⟩

/-- **A pass of `file_write`.** -/
theorem Excl.write (k : Fin 519) (off : ℕ)
    (bs : List Byte) (hu : Fits (v.write i k.val off bs)) (hb : Blank v i k.val) :
    Within i v (v.write i k.val off bs) ∧ Grows v (v.write i k.val off bs) := by
  unfold Vol.write at hu ⊢
  have hu' : Fits (v.mapZone i k.val).2 := by
    split at hu
    · exact hu
    · exact hu
  obtain ⟨hw, hr⟩ := h.mapZone hs hi k hu' hb
  split
  · exact ⟨hw.within, hw.toGrows⟩
  next hz =>
  have hr := hr hz
  generalize (v.mapZone i k.val).2 = v₁ at hw hr ⊢
  rw [← hr] at hz ⊢
  exact ⟨hw.within.trans (hw.excl.putData (placeOf_ino i k) (placeOf_ne i k) hz _),
    hw.toGrows.trans (.same rfl rfl (ref_putData hw.excl (placeOf_ino i k) (placeOf_ne i k) hz _))⟩

end

/-! ### Releasing -/

theorem Clears.refl (v : Vol) : Clears v v S := ⟨rfl, rfl, rfl, fun h => .inl h⟩

theorem Clears.trans (h : Clears v v₁ S) (h' : Clears v₁ v' S) :
    Clears v v' S where
  first := h'.first.trans h.first
  last := h'.last.trans h.last
  block := h'.block.trans h.block
  zmap {j} hj := by
    rcases h.zmap hj with h₁ | h₁
    · rcases h'.zmap h₁ with h₂ | ⟨z, hz, he⟩
      · exact .inl h₂
      · exact .inr ⟨z, hz, by rw [he, h.first]⟩
    · exact .inr h₁

theorem Clears.freeBlock (v : Vol) (hz : S z) : Clears v (v.freeBlock z) S := by
  unfold Vol.freeBlock
  split
  · exact .refl v
  next hr =>
  refine ⟨rfl, rfl, rfl, fun {j} hj => ?_⟩
  by_cases e : j = z.toNat - v.firstdatazone
  · exact .inr ⟨z, hz, by omega⟩
  · exact .inl ((update_of_ne e _ _).trans hj)

theorem Clears.freeZone (v : Vol) (hz : z ≠ 0#16 → S z) :
    Clears v (v.freeZone z) S := by
  unfold Vol.freeZone
  split
  · exact .refl v
  · next hne => exact .freeBlock v (hz hne)

theorem freeBlock_zone (v : Vol) (z : BitVec 16) :
    (v.freeBlock z).zone = v.zone ∧ (v.freeBlock z).imap = v.imap := by
  unfold freeBlock
  split <;> exact ⟨rfl, rfl⟩

theorem freeZone_zone (v : Vol) (z : BitVec 16) :
    (v.freeZone z).zone = v.zone ∧ (v.freeZone z).imap = v.imap := by
  unfold freeZone
  split
  · exact ⟨rfl, rfl⟩
  · exact freeBlock_zone v z

/-- The loop over the direct zones: those that it has passed are released and cleared. -/
theorem freeDirect_spec (v : Vol) (i : ℕ)
    (hS : ∀ k : Fin 7, v.zone i k.castSucc ≠ 0#16 → S (v.zone i k.castSucc)) :
    Clears v (v.freeDirect i) S ∧ (v.freeDirect i).imap = v.imap ∧
      (v.freeDirect i).zone = update v.zone i fun k => if k.val < 7 then 0#16 else v.zone i k := by
  have hloop : ∀ (l : List (Fin 7)) (v₁ : Vol), Clears v v₁ S → v₁.imap = v.imap →
      (∀ i', i' ≠ i → v₁.zone i' = v.zone i') →
      (∀ k : Fin 8, v₁.zone i k = v.zone i k ∨ v₁.zone i k = 0#16) → v₁.zone i 7 = v.zone i 7 →
      let v₂ := l.foldl (fun v k => (v.freeZone (v.zone i k.castSucc)).setZone i k.castSucc 0#16) v₁
      Clears v v₂ S ∧ v₂.imap = v.imap ∧ (∀ i', i' ≠ i → v₂.zone i' = v.zone i') ∧ v₂.zone i 7 = v.zone i 7 ∧
        ∀ k : Fin 7, k ∈ l ∨ v₁.zone i k.castSucc = 0#16 → v₂.zone i k.castSucc = 0#16 := by
    intro l
    induction l with
    | nil =>
      intro v₁ h₁ h₂ h₃ h₄ h₅
      refine ⟨h₁, h₂, h₃, h₅, fun k hk => ?_⟩
      simpa using hk
    | cons k₀ l ih =>
      intro v₁ h₁ h₂ h₃ h₄ h₅
      have hz : ((v₁.freeZone (v₁.zone i k₀.castSucc)).setZone i k₀.castSucc 0#16).zone =
          update v₁.zone i (update (v₁.zone i) k₀.castSucc 0#16) := by
        simp only [setZone, (freeZone_zone v₁ _).1]
      have hne7 : (7 : Fin 8) ≠ k₀.castSucc := fun e => by
        have : 7 = k₀.val := congrArg Fin.val e
        omega
      have hstep : Clears v₁ ((v₁.freeZone (v₁.zone i k₀.castSucc)).setZone i k₀.castSucc 0#16) S := by
        have := Clears.freeZone (z := v₁.zone i k₀.castSucc) (S := S) v₁ fun hne => by
          rcases h₄ k₀.castSucc with e | e
          · rw [e] at hne ⊢
            exact hS k₀ hne
          · exact absurd e hne
        exact ⟨this.first, this.last, this.block, this.zmap⟩
      obtain ⟨g₁, g₂, g₃, g₄, g₅⟩ := ih _ (h₁.trans hstep) ((freeZone_zone v₁ _).2.trans h₂)
        (fun i' e => by rw [hz, update_of_ne e]; exact h₃ i' e)
        (fun k => by
          rw [hz, update_self]
          by_cases e : k = k₀.castSucc
          · rw [e, update_self]
            exact .inr rfl
          · rw [update_of_ne e]
            exact h₄ k)
        (by rw [hz, update_self, update_of_ne hne7]; exact h₅)
      refine ⟨g₁, g₂, g₃, g₄, fun k hk => g₅ k ?_⟩
      rw [hz, update_self]
      by_cases e : k = k₀
      · rw [e, update_self]
        exact .inr rfl
      rw [update_of_ne fun e' => e (Fin.castSucc_injective _ e')]
      rcases hk with hk | hk
      · exact .inl ((mem_cons.mp hk).resolve_left e)
      · exact .inr hk
  obtain ⟨g₁, g₂, g₃, g₄, g₅⟩ := hloop (finRange 7) v (.refl v) rfl (fun _ _ => rfl)
    (fun _ => .inl rfl) rfl
  refine ⟨g₁, g₂, funext fun i' => ?_⟩
  by_cases e : i' = i
  · subst e
    rw [update_self]
    funext k
    by_cases hk : k.val < 7
    · rw [if_pos hk]
      exact g₅ ⟨k.val, hk⟩ (.inl (mem_finRange _))
    obtain rfl : k = 7 := Fin.ext (by simp; omega)
    exact g₄
  · rw [update_of_ne e]
    exact g₃ i' e

/-- The loop over an indirect block. -/
theorem freeEntries_spec (v : Vol) (ind : BitVec 16)
    (hS : ∀ k : Fin 512, (v.block ind.toNat).short k.val ≠ 0#16 → S ((v.block ind.toNat).short k.val)) :
    Clears v (v.freeEntries ind) S ∧ (v.freeEntries ind).zone = v.zone ∧ (v.freeEntries ind).imap = v.imap := by
  have hloop : ∀ (l : List ℕ) (v₁ : Vol), (∀ k ∈ l, k < 512) → Clears v v₁ S → v₁.zone = v.zone → v₁.imap = v.imap →
      let v₂ := l.foldl (fun v k => v.freeZone ((v.block ind.toNat).short k)) v₁
      Clears v v₂ S ∧ v₂.zone = v.zone ∧ v₂.imap = v.imap := by
    intro l
    induction l with
    | nil => exact fun v₁ _ h₁ h₂ h₃ => ⟨h₁, h₂, h₃⟩
    | cons k l ih =>
      intro v₁ hl h₁ h₂ h₃
      have hstep : Clears v₁ (v₁.freeZone ((v₁.block ind.toNat).short k)) S := .freeZone v₁ fun hne => by
        rw [h₁.block] at hne ⊢
        exact hS ⟨k, hl k mem_cons_self⟩ hne
      exact ih _ (fun k hk => hl k (mem_cons_of_mem _ hk)) (h₁.trans hstep)
        ((freeZone_zone v₁ _).1.trans h₂) ((freeZone_zone v₁ _).2.trans h₃)
  exact hloop (range 512) v (fun k hk => mem_range.mp hk) (.refl v) rfl rfl

/-- The places of one inode are empty, because it is not in use or has no zones; the others are as
they were. -/
theorem ref_emptied (hb : v'.block = v.block) (hm : ∀ j, j ≠ i → v'.imap j = v.imap j)
    (hz : ∀ j, j ≠ i → v'.zone j = v.zone j) (hi : v'.imap i = true → v'.zone i = fun _ => 0#16)
    (p : Place) : v'.ref p = if p.ino = i then 0#16 else v.ref p := by
  cases p with
  | direct j k =>
    by_cases e : j = i
    · subst e
      simp only [ref, Place.ino, if_true]
      split
      · next hu => rw [hi hu]
      · rfl
    · simp only [ref, Place.ino, e, if_false, hm j e, hz j e]
  | indirect j k =>
    by_cases e : j = i
    · subst e
      simp only [ref, Place.ino, if_true]
      exact if_neg fun hu => hu.2 (by rw [hi hu.1])
    · simp only [ref, Place.ino, e, if_false, hm j e, hz j e, hb]

theorem ref_cleared (hm : v'.imap = v.imap) (hb : v'.block = v.block)
    (hz : v'.zone = update v.zone i fun _ => 0#16) (p : Place) :
    v'.ref p = if p.ino = i then 0#16 else v.ref p := by
  refine ref_emptied hb (fun j _ => by rw [hm]) (fun j hj => ?_) (fun _ => ?_) p
  · rw [hz, update_of_ne hj]
  · rw [hz, update_self]

theorem ref_freeInode (v : Vol) (i : ℕ) (p : Place) :
    (v.freeInode i).ref p = if p.ino = i then 0#16 else v.ref p := by
  have hm : ∀ j, j ≠ i → (v.freeInode i).imap j = v.imap j := fun j hj => update_of_ne hj ..
  have hi : (v.freeInode i).imap i = false := update_self ..
  have hb : (v.freeInode i).block = v.block := rfl
  refine ref_emptied hb hm (fun _ _ => rfl) (fun h => ?_) p
  rw [hi] at h
  cases h

/-- What `truncate_inode` does: bits of the inode's zones are cleared, and so are the zones. -/
theorem truncate_spec (v : Vol) (i : ℕ) (hdir : ∀ k, v.zone i k ≠ 0#16 → S (v.zone i k))
    (hent : v.zone i 7 ≠ 0#16 → ∀ k : Fin 512, (v.block (v.zone i 7).toNat).short k.val ≠ 0#16 →
      S ((v.block (v.zone i 7).toNat).short k.val)) :
    Clears v (v.truncate i) S ∧ (v.truncate i).imap = v.imap ∧
      (v.truncate i).zone = update v.zone i fun _ => 0#16 := by
  obtain ⟨hc, him, hzone⟩ := freeDirect_spec v i fun k => hdir _
  have h7 : (v.freeDirect i).zone i 7 = v.zone i 7 := by
    rw [hzone, update_self]
    rfl
  unfold truncate
  simp only [h7]
  by_cases hz : v.zone i 7 = 0#16
  · rw [if_pos hz]
    refine ⟨hc, him, ?_⟩
    rw [hzone]
    congr 1
    funext k
    split
    · rfl
    next hk =>
    obtain rfl : k = 7 := Fin.ext (by simp; omega)
    exact hz
  rw [if_neg hz]
  obtain ⟨hc₂, hzone₂, him₂⟩ := freeEntries_spec (v.freeDirect i) (v.zone i 7) (by
    rw [hc.block]
    exact hent hz)
  generalize (v.freeDirect i).freeEntries (v.zone i 7) = w at hc₂ hzone₂ him₂ ⊢
  have hc₃ := (hc.trans hc₂).trans (Clears.freeBlock w (hdir 7 hz))
  obtain ⟨hzone₃, him₃⟩ := freeBlock_zone w (v.zone i 7)
  refine ⟨⟨hc₃.first, hc₃.last, hc₃.block, hc₃.zmap⟩, him₃.trans (him₂.trans him), ?_⟩
  simp only [setZone, hzone₃, hzone₂, hzone, update_self, update_idem]
  congr 1
  funext k
  by_cases hk : k = 7
  · rw [hk, update_self]
  have : k.val < 7 := by
    omega
  rw [update_of_ne hk, if_pos this]

/-- **`truncate_inode`.** -/
theorem Excl.truncate (h : Excl v) (hi : v.imap i = true) : Excl (v.truncate i) := by
  obtain ⟨hc, hm, hz⟩ := truncate_spec v i (S := fun z => ∃ p : Place, p.ino = i ∧ v.ref p = z)
    (fun k _ => ⟨.direct i k, rfl, if_pos hi⟩) (fun h7 k _ => ⟨.indirect i k, rfl, ref_indirect hi h7 k⟩)
  exact h.release hc (fun hz _ => hz) (ref_cleared hm hc.block hz)

theorem Excl.freeInode (h : Excl v) (i : ℕ) : Excl (v.freeInode i) :=
  h.release (S := fun _ => False) ⟨rfl, rfl, rfl, fun h => .inl h⟩ (fun h => h.elim) (ref_freeInode v i)

/-- `sys_mkdir` takes its directory back. -/
theorem Excl.undo (h : Excl v) (hi : v.imap i = true) : Excl ((v.freeBlock (v.zone i 0)).freeInode i) := by
  have hc := Clears.freeBlock (S := fun z => ∃ p : Place, p.ino = i ∧ v.ref p = z) v
    ⟨.direct i 0, rfl, if_pos hi⟩
  refine h.release ⟨hc.first, hc.last, hc.block, hc.zmap⟩ (fun hz _ => hz) fun p => ?_
  rw [ref_freeInode]
  split
  · rfl
  · obtain ⟨hz, hm⟩ := freeBlock_zone v (v.zone i 0)
    cases p <;> simp only [ref, hz, hm, hc.block]

/-- A new inode stores no zone. -/
theorem ref_newInode (hi : v.imap i = false) (p : Place) : (v.newInode i).ref p = v.ref p := by
  cases p with
  | direct i' k =>
    by_cases e : i' = i
    · simp [ref, newInode, e, hi]
    · simp [ref, newInode, e]
  | indirect i' k =>
    by_cases e : i' = i
    · simp [ref, newInode, e, hi]
    · simp [ref, newInode, e]

/-- **`new_inode`.** -/
theorem Excl.newInode (h : Excl v) (hi : v.imap i = false) : Excl (v.newInode i) :=
  h.same (fun hm => ⟨hm.low, hm.high, hm.bit⟩) (ref_newInode hi)

/-- **The two ways through `sys_mkdir`**: the inode is freed again, or it gets a new block. -/
theorem mkdir_cases (hs : Super v) (hu : Fits (v.mkdir i bs)) :
    v.mkdir i bs = (v.newInode i).freeInode i ∨
      ∃ z v₂ blk, Fresh (v.newInode i) z v₂ ∧ v.mkdir i bs = (v₂.setBlock z blk).setZone i 0 z := by
  have hs₁ : Super (v.newInode i) := ⟨hs.pos, hs.short⟩
  unfold mkdir at hu ⊢
  generalize v.newInode i = v₁ at *
  simp only at hu ⊢
  have hu' : Fits v₁.alloc.2 := by
    split at hu
    · exact hu
    · exact hu
  rcases alloc_cases hs₁ hu' with e | hf
  · rw [e, if_pos rfl]
    exact .inl rfl
  · rw [if_neg hf.ne]
    exact .inr ⟨_, _, _, hf, rfl⟩

/-- The new block is nobody's yet. -/
theorem Fresh.setBlock {v₂ : Vol} (hf : Fresh v z v₂) (h : Excl v) (blk : Block) :
    Fresh (v.setBlock z blk) z (v₂.setBlock z blk) ∧ ∀ p, (v.setBlock z blk).ref p = v.ref p := by
  refine ⟨⟨hf.ne, hf.low, hf.high, hf.clear, by rw [hf.eq]; rfl⟩, fun p => ?_⟩
  exact ref_setBlock p fun i' _ _ hi' _ e => hf.not_stored h (.direct i' 7) ((if_pos hi').trans e)

theorem newInode_zone (v : Vol) (i : ℕ) (k : Fin 8) : (v.newInode i).zone i k = 0#16 := by simp [Vol.newInode]

/-- **`sys_mkdir`.** -/
theorem Excl.mkdir (h : Excl v) (hs : Super v) (hi : v.imap i = false) (bs : List Byte)
    (hu : Fits (v.mkdir i bs)) : Excl (v.mkdir i bs) := by
  have h₁ := h.newInode hi
  rcases mkdir_cases hs hu with e | ⟨z, v₂, blk, hf, e⟩
  · rw [e]
    exact h₁.freeInode i
  rw [e]
  obtain ⟨hf', hrefs⟩ := hf.setBlock h₁ blk
  have hx : Excl ((v.newInode i).setBlock z blk) := h₁.same (fun hm => ⟨hm.low, hm.high, hm.bit⟩) hrefs
  have hi₁ : (v.newInode i).imap i = true := update_self _ _ _
  exact (hx.putDirect hi₁ hf' (newInode_zone v i 0) fun e => absurd e (by decide)).1.excl

/-! ### Steps and runs -/

/-- The step leaves the zones enough, and allocates no indirect block that is not blank. -/
structure Careful (v : Vol) (op : ZoneOp) : Prop where
  fits : Fits (v.step op)
  blank : ∀ {i k off bs}, op = .write i k off bs → Blank v i k.val

def CarefulRun : Vol → List ZoneOp → Prop
  | _, [] => True
  | v, op :: ops => Careful v op ∧ CarefulRun (v.step op) ops

/-- What holds between the system calls. -/
structure ZoneInv (v : Vol) : Prop where
  super : Super v
  excl : Excl v

theorem mkdir_super (v : Vol) (i : ℕ) (bs : List Byte) :
    (v.mkdir i bs).firstdatazone = v.firstdatazone ∧ (v.mkdir i bs).nzones = v.nzones := by
  unfold mkdir
  simp only
  split
  · exact (v.newInode i).alloc_first
  · exact (v.newInode i).alloc_first

theorem truncate_super (v : Vol) (i : ℕ) :
    (v.truncate i).firstdatazone = v.firstdatazone ∧ (v.truncate i).nzones = v.nzones := by
  obtain ⟨hc, -, -⟩ := truncate_spec v i (S := fun _ => True) (fun _ _ => trivial) fun _ _ _ => trivial
  exact ⟨hc.first, hc.last⟩

/-- **A step.** -/
theorem ZoneInv.step (h : ZoneInv v) (hc : Careful v op) : ZoneInv (v.step op) := by
  obtain ⟨hfits, hblank⟩ := hc
  cases op with
  | create i =>
    simp only [step] at *
    split
    · exact h
    · next hi => exact ⟨⟨h.super.pos, h.super.short⟩, h.excl.newInode (by simpa using hi)⟩
  | write i k off bs =>
    simp only [step] at *
    split
    · next hi =>
      rw [if_pos hi] at hfits
      have hw := (h.excl.write h.super hi k off bs hfits (hblank rfl)).1
      exact ⟨hw.super h.super, hw.excl⟩
    · exact h
  | mkdir i bs =>
    simp only [step] at *
    split
    · exact h
    next hi =>
    rw [if_neg hi] at hfits
    obtain ⟨e₁, e₂⟩ := v.mkdir_super i bs
    exact ⟨⟨by rw [e₁]; exact h.super.pos, by rw [e₂]; exact h.super.short⟩,
      h.excl.mkdir h.super (by simpa using hi) bs hfits⟩
  | undo i =>
    simp only [step] at *
    split
    · next hi =>
      have hc := Clears.freeBlock (z := v.zone i 0) (S := fun _ => True) v trivial
      exact ⟨⟨hc.first.symm ▸ h.super.pos, hc.last.symm ▸ h.super.short⟩, h.excl.undo hi⟩
    · exact h
  | truncate i =>
    simp only [step] at *
    split
    · next hi =>
      obtain ⟨e₁, e₂⟩ := v.truncate_super i
      exact ⟨⟨by rw [e₁]; exact h.super.pos, by rw [e₂]; exact h.super.short⟩, h.excl.truncate hi⟩
    · exact h
  | forget i => exact ⟨⟨h.super.pos, h.super.short⟩, h.excl.freeInode i⟩

/-- **A run.** -/
theorem ZoneInv.run {ops : List ZoneOp} (h : ZoneInv v) (hc : CarefulRun v ops) : ZoneInv (v.run ops) := by
  induction ops generalizing v with
  | nil => exact h
  | cons op ops ih => exact ih (h.step hc.1) hc.2

/-- Block `k` of an inode, if it has one. -/
def contents (v : Vol) (i : ℕ) (k : Fin 519) : Option Block :=
  if v.ref (placeOf i k) = 0#16 then none else some (v.block (v.ref (placeOf i k)).toNat)

/-- A write changes nothing of another inode. -/
theorem ZoneInv.write_contents {i i' off : ℕ} {k : Fin 519} (h : ZoneInv v)
    (hc : Careful v (.write i k off bs)) (hne : i' ≠ i) (k' : Fin 519) :
    (v.step (.write i k off bs)).contents i' k' = v.contents i' k' := by
  obtain ⟨hfits, hblank⟩ := hc
  simp only [Vol.step] at *
  split
  · next hi =>
    rw [if_pos hi] at hfits
    have hw := (h.excl.write h.super hi k off bs hfits (hblank rfl)).1
    have hino : (placeOf i' k').ino ≠ i := by rw [placeOf_ino]; exact hne
    unfold contents
    rw [hw.refs hino]
    split
    · rfl
    · next hz => rw [hw.blocks hino hz]
  · rfl

/-! ### What a step leaves alone -/

/-- Nothing of the inode `i` has changed. -/
structure Kept (i : ℕ) (v v' : Vol) : Prop where
  imap : v'.imap i = v.imap i
  zone : v'.zone i = v.zone i
  blocks : ∀ {p : Place}, p.ino = i → v.ref p ≠ 0#16 → v'.block (v.ref p).toNat = v.block (v.ref p).toNat

variable {j : ℕ}

theorem Kept.refl (i : ℕ) (v : Vol) : Kept i v v := ⟨rfl, rfl, fun _ _ => rfl⟩

/-- The inode has the same zones. -/
theorem Kept.ref (h : Kept i v v') {p : Place} (hp : p.ino = i) : v'.ref p = v.ref p := by
  cases p with
  | direct i' k =>
    obtain rfl : i' = i := hp
    simp only [ref, h.imap, h.zone]
  | indirect i' k =>
    obtain rfl : i' = i := hp
    simp only [ref, h.imap, h.zone]
    split
    · next hc =>
      have h7 : v.ref (.direct i' 7) = v.zone i' 7 := if_pos hc.1
      have hb := h.blocks rfl (by rw [h7]; exact hc.2)
      rw [h7] at hb
      rw [hb]
    · rfl

theorem Kept.trans (h : Kept i v v₁) (h' : Kept i v₁ v') : Kept i v v' := by
  refine ⟨h'.imap.trans h.imap, h'.zone.trans h.zone, fun {p} hp hne => ?_⟩
  have hr := h.ref hp
  have hb := h'.blocks hp (by rw [hr]; exact hne)
  rw [hr] at hb
  exact hb.trans (h.blocks hp hne)

/-- A change within another inode. -/
theorem Within.kept (h : Within j v v') (hne : i ≠ j) (hi : v.imap i = true) : Kept i v v' := by
  refine ⟨congrFun h.imap i, ?_, fun {p} hp hr => h.blocks (by rw [hp]; exact hne) hr⟩
  funext k
  have href := h.refs (p := .direct i k) hne
  have hi' : v'.imap i = true := (congrFun h.imap i).trans hi
  rwa [show v'.ref (.direct i k) = v'.zone i k from if_pos hi',
    show v.ref (.direct i k) = v.zone i k from if_pos hi] at href

theorem freeBlock_block (v : Vol) (z : BitVec 16) : (v.freeBlock z).block = v.block :=
  (Clears.freeBlock (S := fun _ => True) v trivial).block

/-- What `truncate_inode` leaves. -/
theorem truncate_kept (v : Vol) (hne : i ≠ j) : Kept i v (v.truncate j) := by
  obtain ⟨hc, hm, hz⟩ := truncate_spec v j (S := fun _ => True) (fun _ _ => trivial) fun _ _ _ => trivial
  refine ⟨congrFun hm i, ?_, fun _ _ => by rw [hc.block]⟩
  rw [hz, update_of_ne hne]

/-- A new directory takes a block that nobody has. -/
theorem mkdir_kept (h : ZoneInv v) (hj : v.imap j = false) (bs : List Byte) (hu : Fits (v.mkdir j bs))
    (hne : i ≠ j) : Kept i v (v.mkdir j bs) := by
  have hk₁ : Kept i v (v.newInode j) :=
    ⟨update_of_ne hne .., update_of_ne hne .., fun _ _ => rfl⟩
  refine hk₁.trans ?_
  rcases mkdir_cases h.super hu with e | ⟨z, v₂, blk, hf, e⟩
  · rw [e]
    exact ⟨update_of_ne hne .., rfl, fun _ _ => rfl⟩
  rw [e, hf.eq]
  refine ⟨rfl, update_of_ne hne .., fun {p} _ hr => ?_⟩
  have hz : ((v.newInode j).ref p).toNat ≠ z.toNat := fun e =>
    hf.not_stored (h.excl.newInode hj) p (eq_of_toNat_eq e)
  exact update_of_ne hz ..

/-- **A step on another inode.** -/
theorem Kept.step (h : ZoneInv v) (hc : Careful v op) (hi : v.imap i = true)
    (hne : op.ino ≠ i) : Kept i v (v.step op) := by
  obtain ⟨hfits, hblank⟩ := hc
  cases op with
  | create j =>
    simp only [step]
    split
    · exact .refl i v
    · exact ⟨update_of_ne (Ne.symm hne) .., update_of_ne (Ne.symm hne) .., fun _ _ => rfl⟩
  | write j k off bs =>
    simp only [step] at *
    split
    · next hj =>
      rw [if_pos hj] at hfits
      exact (h.excl.write h.super hj k off bs hfits (hblank rfl)).1.kept (Ne.symm hne) hi
    · exact .refl i v
  | mkdir j bs =>
    simp only [step] at *
    split
    · exact .refl i v
    next hj =>
    rw [if_neg hj] at hfits
    exact mkdir_kept h (by simpa using hj) bs hfits (Ne.symm hne)
  | undo j =>
    simp only [step]
    split
    · obtain ⟨hz, hm⟩ := freeBlock_zone v (v.zone j 0)
      refine ⟨(update_of_ne (Ne.symm hne) ..).trans (congrFun hm i), congrFun hz i, fun _ _ => ?_⟩
      show (v.freeBlock _).block _ = _
      rw [freeBlock_block]
    · exact .refl i v
  | truncate j =>
    simp only [step]
    split
    · exact truncate_kept v (Ne.symm hne)
    · exact .refl i v
  | forget j => exact ⟨update_of_ne (Ne.symm hne) .., rfl, fun _ _ => rfl⟩

end Vol

end Linux001

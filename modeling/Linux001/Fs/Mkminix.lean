import Linux001.Fs.ZoneInv

/-!
# Fs — from an image of `mkminix` on

`tools/mkminix.c` lays its files out one after the other: the data zones of a file, and its indirect
block behind them.  Such an image has every zone stored once, and with the steps of
`Fs/ZoneInv.lean` that remains so (`zones_exclusive`).
-/

namespace Linux001

open Function BitVec Option

namespace Vol

/-- The indirect block of a file whose data zones begin at `next`, `nz` of them. -/
def indBlock (next nz : ℕ) : Block := fun b =>
  if b / 2 < nz - 7 then (BitVec.ofNat 16 (next + 7 + b / 2)).extractLsb' (8 * (b % 2)) 8 else 0#8

/-- `next_zone` after a file of `nz` blocks. -/
def nextZone (next nz : ℕ) : ℕ := next + nz + if 7 < nz then 1 else 0

/-- A file is laid out from the zone `next` on, as inode `i`. -/
def mkFile (v : Vol) (next i : ℕ) (blocks : List Block) : Vol :=
  let nz := blocks.length
  { v with
    imap := update v.imap i true
    zone := update v.zone i fun k =>
      if k.val < 7 then if k.val < nz then BitVec.ofNat 16 (next + k.val) else 0#16
      else if 7 < nz then BitVec.ofNat 16 (next + nz) else 0#16
    zmap := fun j =>
      v.zmap j || (decide (next ≤ v.firstdatazone + j) && decide (v.firstdatazone + j < nextZone next nz))
    block := fun z =>
      if next ≤ z ∧ z < next + nz then blocks.getD (z - next) fun _ => 0#8
      else if 7 < nz ∧ z = next + nz then indBlock next nz
      else v.block z }

/-- The files, from inode `i` on; `none` when zones or inodes run out or a file is too big. -/
def mkFiles (v : Vol) (next i : ℕ) : List (List Block) → Option Vol
  | [] => some v
  | f :: fs =>
    if 7 + 512 < f.length ∨ v.nzones < nextZone next f.length ∨ 512 < i then none
    else mkFiles (v.mkFile next i f) (nextZone next f.length) (i + 1) fs

/-- **`mkminix`**: the blocks of every file and directory, in the order of their inodes. -/
def mkminix (files : List (List Block)) : Option Vol :=
  mkFiles
    { firstdatazone := 20, nzones := 1024, bits := 8192, zmap := fun _ => false, imap := fun _ => false
      zone := fun _ _ => 0#16, block := fun _ _ => 0#8 } 20 1 files

/-- The image while it is laid out: zones from `next` on and inodes from `n` on are free. -/
structure Made (v : Vol) (next n : ℕ) : Prop where
  inv : ZoneInv v
  low : v.firstdatazone ≤ next
  below : ∀ {p}, v.ref p ≠ 0#16 → (v.ref p).toNat < next
  dead : ∀ {i}, n ≤ i → v.imap i = false

variable {v v₀ : Vol} {next i n : ℕ} {blocks : List Block} {p : Place} {files : List (List Block)}

theorem short_indBlock (next nz k : ℕ) : (indBlock next nz).short k =
    if k < nz - 7 then BitVec.ofNat 16 (next + 7 + k) else 0#16 := by
  have h₀ : (2 * k) / 2 = k := by omega
  have h₁ : (2 * k + 1) / 2 = k := by omega
  have m₀ : (2 * k) % 2 = 0 := by omega
  have m₁ : (2 * k + 1) % 2 = 1 := by omega
  unfold Block.short indBlock
  simp only [h₀, h₁, m₀, m₁]
  split
  · have := (BitVec.ofNat 16 (next + 7 + k)).isLt
    apply eq_of_toNat_eq
    simp only [toNat_append, extractLsb'_toNat, Nat.shiftRight_eq_div_pow]
    rw [← Nat.shiftLeft_add_eq_or_of_lt (by omega), Nat.shiftLeft_eq]
    omega
  · rfl

/-- Where a place of the new file points to, counted from its first zone. -/
def offset (nz : ℕ) : Place → Option ℕ
  | .direct _ k => if k.val < 7 then if k.val < nz then some k.val else none
      else if 7 < nz then some nz else none
  | .indirect _ k => if k.val < nz - 7 then some (7 + k.val) else none

theorem offset_lt {nz o : ℕ} (h : offset nz p = some o) : next + o < nextZone next nz := by
  cases p <;> simp only [offset] at h <;> split_ifs at h <;> simp only [some.injEq] at h <;>
    unfold nextZone <;> split_ifs <;> omega

/-- Two places of a file point to two zones. -/
theorem offset_inj {nz o : ℕ} {q : Place} (hp : offset nz p = some o) (hq : offset nz q = some o)
    (hi : p.ino = q.ino) : p = q := by
  cases p with
  | direct i k =>
    cases q with
    | direct i' k' =>
      obtain rfl : i = i' := hi
      have hk := k.isLt
      have hk' := k'.isLt
      congr 1
      apply Fin.ext
      simp only [offset] at hp hq
      split_ifs at hp hq <;> simp only [some.injEq] at hp hq <;> omega
    | indirect i' k' =>
      exfalso
      simp only [offset] at hp hq
      split_ifs at hp hq <;> simp only [some.injEq] at hp hq <;> omega
  | indirect i k =>
    cases q with
    | direct i' k' =>
      exfalso
      simp only [offset] at hp hq
      split_ifs at hp hq <;> simp only [some.injEq] at hp hq <;> omega
    | indirect i' k' =>
      obtain rfl : i = i' := hi
      congr 1
      apply Fin.ext
      simp only [offset] at hp hq
      split_ifs at hp hq
      simp only [some.injEq] at hp hq
      omega

/-- The zones that are stored after a file has been laid out. -/
theorem ref_mkFile (h : Made v next n) (hi : n ≤ i) (hn : nextZone next blocks.length ≤ v.nzones)
    (p : Place) : (v.mkFile next i blocks).ref p =
      if p.ino = i then ((offset blocks.length p).map fun o => BitVec.ofNat 16 (next + o)).getD 0#16
      else v.ref p := by
  have hs := h.inv.super.short
  cases p with
  | direct i' k =>
    by_cases e : i' = i
    · subst e
      simp only [ref, mkFile, update_self, if_true, Place.ino, offset]
      split_ifs <;> rfl
    · simp [ref, mkFile, Place.ino, e]
  | indirect i' k =>
    by_cases e : i' = i
    · subst e
      simp only [ref, mkFile, update_self, true_and, Place.ino, if_true, offset]
      have h7 : ¬ ((7 : Fin 8).val < 7) := by decide
      rw [if_neg h7]
      by_cases hnz : 7 < blocks.length
      · have hz : (BitVec.ofNat 16 (next + blocks.length)).toNat = next + blocks.length := by
          rw [toNat_ofNat, Nat.mod_eq_of_lt]
          unfold nextZone at hn
          rw [if_pos hnz] at hn
          omega
        have hne : BitVec.ofNat 16 (next + blocks.length) ≠ 0#16 := fun e => by
          have h₀ : (BitVec.ofNat 16 (next + blocks.length)).toNat = 0 := by rw [e]; rfl
          omega
        rw [if_pos hnz, if_pos hne, hz, if_neg (by omega), if_pos ⟨hnz, rfl⟩, short_indBlock]
        split
        · rw [Nat.add_assoc]
          rfl
        · rfl
      · rw [if_neg hnz, if_neg (by simp), if_neg (by omega)]
        rfl
    · simp only [Place.ino, e, if_false]
      by_cases hc : v.imap i' = true ∧ v.zone i' 7 ≠ 0#16
      · -- the indirect block of another file is below the new zones
        have hr : v.ref (.direct i' 7) = v.zone i' 7 := if_pos hc.1
        have hlt := h.below (by rw [hr]; exact hc.2)
        rw [hr] at hlt
        rw [ref_indirect hc.1 hc.2]
        simp only [ref, mkFile, update_of_ne e]
        rw [if_pos hc, if_neg (by omega), if_neg (by omega)]
      · have h₂ : v.ref (.indirect i' k) = 0#16 := if_neg hc
        rw [h₂]
        simp only [ref, mkFile, update_of_ne e]
        exact if_neg hc

/-- **A file is laid out.** -/
theorem Made.mkFile (h : Made v next n) (hn : nextZone next blocks.length ≤ v.nzones) :
    Made (v.mkFile next n blocks) (nextZone next blocks.length) (n + 1) := by
  have hs := h.inv.super.short
  have hpos := h.inv.super.pos
  have hlow := h.low
  have hnext : next ≤ nextZone next blocks.length := by unfold nextZone; omega
  have hval : ∀ {o}, next + o < nextZone next blocks.length →
      (BitVec.ofNat 16 (next + o)).toNat = next + o := fun {o} ho => by
    rw [toNat_ofNat, Nat.mod_eq_of_lt]
    omega
  have href := fun p => ref_mkFile h le_rfl hn p
  -- what is stored in the new file, if anything
  have hnew : ∀ {p : Place}, p.ino = n → (v.mkFile next n blocks).ref p ≠ 0#16 →
      ∃ o, offset blocks.length p = some o ∧ (v.mkFile next n blocks).ref p = BitVec.ofNat 16 (next + o) ∧
        next + o < nextZone next blocks.length := by
    intro p hp hne
    rw [href, if_pos hp] at hne ⊢
    cases ho : offset blocks.length p with
    | none =>
      rw [ho] at hne
      exact absurd rfl hne
    | some o => exact ⟨o, rfl, rfl, offset_lt ho⟩
  have hold : ∀ {p : Place}, p.ino ≠ n → (v.mkFile next n blocks).ref p = v.ref p := fun hp => by
    rw [href, if_neg hp]
  have hmark : ∀ {z}, v.Marked z → (v.mkFile next n blocks).Marked z := fun {z} hm => by
    refine ⟨hm.low, hm.high, ?_⟩
    show (v.zmap (z.toNat - v.firstdatazone) || _) = true
    rw [hm.bit]
    rfl
  refine ⟨⟨⟨hpos, hs⟩, fun {p} hne => ?_, fun {p q} hne he => ?_⟩, by
    show v.firstdatazone ≤ _
    omega, fun {p} hne => ?_, fun {i} hi => ?_⟩
  · by_cases hp : p.ino = n
    · obtain ⟨o, -, hr, hlt⟩ := hnew hp hne
      rw [hr]
      have hv := hval hlt
      refine ⟨by show v.firstdatazone ≤ _; omega, by show _ < v.nzones; omega, ?_⟩
      have e : v.firstdatazone + ((BitVec.ofNat 16 (next + o)).toNat - v.firstdatazone) = next + o := by
        omega
      show (_ || (decide (next ≤ v.firstdatazone +
        ((BitVec.ofNat 16 (next + o)).toNat - v.firstdatazone)) && decide (v.firstdatazone +
        ((BitVec.ofNat 16 (next + o)).toNat - v.firstdatazone) < _))) = true
      rw [e]
      simp [hlt]
    · rw [hold hp] at hne ⊢
      exact hmark (h.inv.excl.used hne)
  · by_cases hp : p.ino = n
    · obtain ⟨o, ho, hr, hlt⟩ := hnew hp hne
      by_cases hq : q.ino = n
      · obtain ⟨o', ho', hr', hlt'⟩ := hnew hq (he ▸ hne)
        have : (BitVec.ofNat 16 (next + o)).toNat = (BitVec.ofNat 16 (next + o')).toNat := by
          rw [← hr, ← hr', he]
        rw [hval hlt, hval hlt'] at this
        obtain rfl : o = o' := by omega
        exact offset_inj ho ho' (hp.trans hq.symm)
      · exfalso
        have hb := h.below (by rw [← hold hq, ← he]; exact hne)
        rw [← hold hq, ← he, hr, hval hlt] at hb
        omega
    · rw [hold hp] at hne
      by_cases hq : q.ino = n
      · exfalso
        have hb := h.below hne
        rw [hold hp] at he
        obtain ⟨o, -, hr, hlt⟩ := hnew hq (he ▸ hne)
        rw [he, hr, hval hlt] at hb
        omega
      · rw [hold hp, hold hq] at he
        exact h.inv.excl.unique hne he
  · by_cases hp : p.ino = n
    · obtain ⟨o, -, hr, hlt⟩ := hnew hp hne
      rw [hr, hval hlt]
      exact hlt
    · rw [hold hp] at hne ⊢
      exact (h.below hne).trans_le hnext
  · show update v.imap n true i = false
    rw [update_of_ne (by omega)]
    exact h.dead (by omega)

theorem Made.mkFiles (h : Made v next n)
    (hm : mkFiles v next n files = some v₀) : ZoneInv v₀ := by
  induction files generalizing v next n with
  | nil =>
    obtain rfl := some.inj hm
    exact h.inv
  | cons f fs ih =>
    unfold Vol.mkFiles at hm
    split at hm
    · cases hm
    · next hc => exact ih (h.mkFile (by omega)) hm

/-- Nothing has been laid out yet. -/
theorem made_blank : Made
    { firstdatazone := 20, nzones := 1024, bits := 8192, zmap := fun _ => false, imap := fun _ => false
      zone := fun _ _ => 0#16, block := fun _ _ => 0#8 } 20 1 := by
  have hz : ∀ p : Place, ref { firstdatazone := 20, nzones := 1024, bits := 8192, zmap := fun _ => false
                               imap := fun _ => false, zone := fun _ _ => 0#16
                               block := fun _ _ => 0#8 } p = 0#16 := fun p => by
    cases p <;> simp [ref]
  exact ⟨⟨⟨by decide, by decide⟩, fun hne => absurd (hz _) hne, fun hne => absurd (hz _) hne⟩, le_rfl,
    fun hne => absurd (hz _) hne, fun _ => rfl⟩

/-- **An image of `mkminix`.** -/
theorem mkminix_inv (h : mkminix files = some v₀) : ZoneInv v₀ :=
  made_blank.mkFiles h

/-- `fill(zone, text)`. -/
def fill (text : List Byte) : Block := fun k => text.getD (k % text.length) 0#8

def blankBlock : Block := fun _ => 0#8

/-- `"Hello from MINIX v1!\n"`. -/
def helloText : List Byte :=
  [0x48#8, 0x65#8, 0x6C#8, 0x6C#8, 0x6F#8, 0x20#8, 0x66#8, 0x72#8, 0x6F#8, 0x6D#8, 0x20#8, 0x4D#8, 0x49#8,
    0x4E#8, 0x49#8, 0x58#8, 0x20#8, 0x76#8, 0x31#8, 0x21#8, 0x0A#8]

/-- The base files: the root, `hello.txt`, `readme.txt`, `big.txt`, `docs`, `note.txt` and `bin`; of
their contents only those of `hello.txt` are kept. -/
def baseFiles : List (List Block) :=
  [[blankBlock], [fill helloText], [blankBlock], List.replicate 18 blankBlock, [blankBlock], [blankBlock],
    [blankBlock]]

instance (v : Vol) : Decidable (Fits v) := inferInstanceAs (Decidable (_ ≤ _))

/-- An image with an empty root only. -/
def rootImage : Vol := (mkminix [[blankBlock]]).get (by decide)

theorem mkminix_root : mkminix [[blankBlock]] = some rootImage := (some_get _).symm

theorem countP_range_lt (m n : ℕ) : (List.range n).countP (fun j => decide (j < m)) = min n m := by
  induction n with
  | zero => simp
  | succ n ih =>
    rw [List.range_succ, List.countP_append, ih, List.countP_singleton]
    split
    · next h =>
      have := of_decide_eq_true h
      omega
    · next h =>
      have : ¬ n < m := fun h' => h (decide_eq_true h')
      omega

/-- No more zones are in use than lie below the first of which all are free. -/
theorem Fits.of_clear {m : ℕ} (h : ∀ j, m ≤ j → v.zmap j = false) (hm : m ≤ v.nzones - v.firstdatazone) :
    Fits v := by
  have hle : v.inUse ≤ (List.range v.bits).countP fun j => decide (j < m) := by
    refine List.countP_mono_left fun j _ hj => decide_eq_true ?_
    by_contra hlt
    rw [h j (Nat.le_of_not_lt hlt)] at hj
    cases hj
  rw [countP_range_lt] at hle
  exact hle.trans ((min_le_right _ _).trans hm)

/-- The root has the first zone. -/
theorem rootImage_zmap {j : ℕ} (hj : 1 ≤ j) : rootImage.zmap j = false := by
  show (false || (decide (20 ≤ 20 + j) && decide (20 + j < 20 + 1 + 0))) = false
  simp
  omega

/-- The zone map once `n` zones behind the root's are in use. -/
theorem rootImage_fits {n : ℕ} (hz : ∀ j, n < j → v.zmap j = rootImage.zmap j) (hf : v.firstdatazone = 20)
    (hl : v.nzones = 1024) (hn : n < 1000) : Fits v := by
  refine .of_clear (m := n + 1) (fun j hj => ?_) ?_
  · rw [hz j (by omega), rootImage_zmap (by omega)]
  · omega

/-- A new file gets a block with the number 21 in it, is truncated, and is written past its seventh
block. -/
def rewrite : List ZoneOp :=
  [.create 8, .write 8 0 0 [0x15#8, 0x00#8], .truncate 8, .write 8 7 0 [0x58#8]]

end Vol

end Linux001

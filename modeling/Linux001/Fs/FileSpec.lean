import Linux001.Fs.File

/-!
# Fs — the bytes of a file and of an image page

What `file_read()` stores is the file's bytes from the position on, as far as the file reaches
and its blocks can be read (`fileRead_bytes`).  So the page that `page_in_image()` fills holds,
byte by byte, what the executable has there and zeroes after it (`getByte_pageInImage`).
-/

namespace Linux001

open List

variable {bread : Bread} {ino : MInode} {p q : Page} {pos : ℕ}

/-! ### Files -/

namespace MInode

/-- The byte at position `pos`, `none` if its block cannot be read; a hole reads as zeroes. -/
def byteAt (ino : MInode) (bread : Bread) (pos : ℕ) : Option Byte :=
  match ino.zone bread (pos / blockSize) with
  | none => none
  | some block =>
    if block = 0 then some 0#8 else (bread ino.iDev block).map fun data => data (pos % blockSize)

/-- The `n` bytes from `pos` on, up to the first that cannot be read. -/
def bytesFrom (ino : MInode) (bread : Bread) (pos : ℕ) : ℕ → List Byte
  | 0 => []
  | n + 1 =>
    match ino.byteAt bread pos with
    | none => []
    | some b => b :: ino.bytesFrom bread (pos + 1) n

/-- How many bytes `file_read` may take from `pos` on: what is left of the file, but nothing if
that does not fit in an `int`. -/
def room (ino : MInode) (pos : Word) : ℕ :=
  if pos < ino.iSize ∧ (ino.iSize - pos).toNat < 2 ^ 31 then (ino.iSize - pos).toNat else 0

theorem bytesFrom_none (h : ino.byteAt bread pos = none) (n : ℕ) :
    ino.bytesFrom bread pos n = [] := by
  cases n with
  | zero => rfl
  | succ n => rw [bytesFrom, h]

theorem length_bytesFrom_le (ino : MInode) (bread : Bread) (pos n : ℕ) : (ino.bytesFrom bread pos n).length ≤ n := by
  induction n generalizing pos with
  | zero => exact Nat.le_refl 0
  | succ n ih =>
    unfold bytesFrom
    cases ino.byteAt bread pos with
    | none => exact Nat.zero_le _
    | some b => exact Nat.succ_le_succ (ih (pos + 1))

/-- Bytes that can be read, then the rest. -/
theorem bytesFrom_add {a : ℕ} {g : ℕ → Byte}
    (h : ∀ k < a, ino.byteAt bread (pos + k) = some (g k)) (n : ℕ) :
    ino.bytesFrom bread pos (a + n) = (List.range a).map g ++ ino.bytesFrom bread (pos + a) n := by
  induction a generalizing pos g with
  | zero => simp
  | succ a ih =>
    have h₀ : ino.byteAt bread pos = some (g 0) := h 0 (by omega)
    have h₁ := @ih (pos + 1) (fun k => g (k + 1)) fun k hk => by
      rw [Nat.add_assoc, Nat.add_comm 1 k]
      exact h (k + 1) (by omega)
    rw [Nat.add_right_comm, bytesFrom, h₀]
    rw [h₁, range_succ_eq_map, map_cons, map_map, cons_append,
      Nat.add_assoc pos 1 a, Nat.add_comm 1 a]
    rfl

/-- The bytes of one block. -/
theorem byteAt_block {k block : ℕ} (hz : ino.zone bread (pos / blockSize) = some block)
    (hk : k < blockSize - pos % blockSize) :
    ino.byteAt bread (pos + k) = if block = 0 then some 0#8
      else (bread ino.iDev block).map fun data => data (pos % blockSize + k) := by
  simp only [blockSize] at hk hz
  have h₁ : (pos + k) / 1024 = pos / 1024 := by omega
  have h₂ : (pos + k) % 1024 = pos % 1024 + k := by omega
  simp only [byteAt, blockSize, h₁, h₂, hz]

end MInode

open MInode

/-- The loop of `file_read`, from any point of it on. -/
theorem fileReadLoop_eq {fuel : ℕ} {pos : Word} {count result : ℤ} {out bs : List Byte}
    (hf : count.toNat < fuel) (hr : pos < ino.iSize → (ino.iSize - pos).toNat < 2 ^ 31)
    (hbs : bs = ino.bytesFrom bread pos.toNat (min count.toNat (ino.iSize.toNat - pos.toNat))) :
    fileReadLoop bread ino fuel pos count result out = (result + bs.length, out ++ bs) := by
  induction fuel generalizing pos count result out bs with
  | zero => omega
  | succ fuel ih =>
    unfold fileReadLoop
    by_cases hg : 0 < count ∧ pos < ino.iSize
    · obtain ⟨hc, hp⟩ := hg
      have hsub : (ino.iSize - pos).toNat = ino.iSize.toNat - pos.toNat :=
        BitVec.toNat_sub_of_le (BitVec.le_of_lt hp)
      have hlt : pos.toNat < ino.iSize.toNat := hp
      have hroom := hr hp
      rw [if_pos ⟨hc, hp⟩]
      cases hz : ino.zone bread (pos.toNat / blockSize) with
      | none =>
        have h₀ : ino.byteAt bread pos.toNat = none := by simp only [byteAt, hz]
        simp [hbs, bytesFrom_none h₀]
      | some block =>
        -- the bytes of this block, as many as the pass takes
        obtain ⟨a, ha, hsize⟩ : ∃ a : ℕ, a = min (min (blockSize - pos.toNat % blockSize)
            count.toNat) (ino.iSize.toNat - pos.toNat) ∧
            min (min ((blockSize - pos.toNat % blockSize : ℕ) : ℤ) count)
              (ino.iSize - pos).toInt = (a : ℤ) := by
          refine ⟨_, rfl, ?_⟩
          rw [BitVec.toInt_eq_toNat_of_lt (by omega), hsub]
          omega
        simp only [hsize, Int.toNat_natCast]
        clear hsize
        have hb : 0 < blockSize - pos.toNat % blockSize :=
          Nat.sub_pos_of_lt (Nat.mod_lt _ (by decide))
        have hblock : a ≤ blockSize - pos.toNat % blockSize :=
          ha.trans_le ((min_le_left _ _).trans (min_le_left _ _))
        have hcount : a ≤ count.toNat := ha.trans_le ((min_le_left _ _).trans (min_le_right _ _))
        have hfile : a ≤ ino.iSize.toNat - pos.toNat := ha.trans_le (min_le_right _ _)
        have hsome : 0 < a := by
          rw [ha]
          exact lt_min (lt_min hb (by omega)) (by omega)
        clear ha
        have hpos : (pos + BitVec.ofInt 32 (a : ℤ)).toNat = pos.toNat + a := by
          have h₁ := ino.iSize.isLt
          rw [BitVec.ofInt_natCast, BitVec.toNat_add, BitVec.toNat_ofNat]
          omega
        have hnext : ∀ data : Block,
            (∀ k < a, ino.byteAt bread (pos.toNat + k) = some (data (pos.toNat % blockSize + k))) →
            fileReadLoop bread ino fuel (pos + BitVec.ofInt 32 (a : ℤ)) (count - a) (result + a)
                (out ++ (range a).map fun k => data (pos.toNat % blockSize + k)) =
              (result + bs.length, out ++ bs) := by
          intro data hdata
          have hn : min count.toNat (ino.iSize.toNat - pos.toNat) =
              a + min (count - a).toNat (ino.iSize.toNat - (pos.toNat + a)) := by omega
          rw [ih (by omega) (fun hlt' => ?_) rfl, hpos, hbs, hn, bytesFrom_add hdata]
          · simp only [length_append, length_map, length_range, append_assoc]
            push_cast
            rw [Int.add_assoc]
          · rw [BitVec.toNat_sub_of_le (BitVec.le_of_lt hlt'), hpos]
            omega
        by_cases h0 : block = 0
        · rw [if_pos h0]
          exact hnext (fun _ => 0#8) fun k hk => by
            rw [byteAt_block hz (by omega), if_pos h0]
        rw [if_neg h0]
        cases hd : bread ino.iDev block with
        | none =>
          have h₀ : ino.byteAt bread pos.toNat = none := by
            simp only [byteAt, hz, if_neg h0, hd, Option.map_none]
          simp [hbs, bytesFrom_none h₀]
        | some data =>
          exact hnext data fun k hk => by
            rw [byteAt_block hz (by omega), if_neg h0, hd, Option.map_some]
    · rw [if_neg hg]
      have hzero : min count.toNat (ino.iSize.toNat - pos.toNat) = 0 := by
        have : ¬ (0 < count ∧ pos.toNat < ino.iSize.toNat) := hg
        omega
      simp [hbs, hzero, bytesFrom]

/-- **What `file_read` stores.** -/
theorem fileRead_bytes (bread : Bread) (ino : MInode) (pos : Word) (count : ℤ) :
    (fileRead bread ino pos count).2 = ino.bytesFrom bread pos.toNat (min count.toNat (ino.room pos)) := by
  by_cases hr : pos < ino.iSize → (ino.iSize - pos).toNat < 2 ^ 31
  · have hroom : ino.room pos = ino.iSize.toNat - pos.toNat := by
      unfold room
      split
      · next h => exact BitVec.toNat_sub_of_le (BitVec.le_of_lt h.1)
      next h =>
      have : ¬ pos.toNat < ino.iSize.toNat := fun hp => h ⟨hp, hr hp⟩
      omega
    rw [fileRead, fileReadLoop_eq (Nat.lt_succ_self _) hr rfl, nil_append, hroom]
  -- the room does not fit in an `int`: one pass, which stores nothing
  push Not at hr
  obtain ⟨hp, hbig⟩ := hr
  have hroom : ino.room pos = 0 := if_neg fun h => by omega
  rw [hroom, Nat.min_zero, bytesFrom, fileRead]
  have hneg : (ino.iSize - pos).toInt < 0 := by
    rw [BitVec.toInt_eq_toNat_cond, if_neg (by omega)]
    have := (ino.iSize - pos).isLt
    omega
  have hnext : ∀ fuel count result (data : Block) (a : ℤ), a = (ino.iSize - pos).toInt →
      (fileReadLoop bread ino fuel (pos + BitVec.ofInt 32 a) count result
        ([] ++ (range a.toNat).map data)).2 = [] := by
    rintro fuel count result data a rfl
    have hend : pos + BitVec.ofInt 32 (ino.iSize - pos).toInt = ino.iSize := by
      rw [BitVec.ofInt_toInt, BitVec.add_comm, BitVec.sub_add_cancel]
    rw [hend, Int.toNat_of_nonpos hneg.le]
    cases fuel with
    | zero => rfl
    | succ fuel =>
      unfold fileReadLoop
      rw [if_neg fun h => BitVec.lt_irrefl _ h.2]
      rfl
  unfold fileReadLoop
  split
  · next hg =>
    have hmin : min (min ((blockSize - pos.toNat % blockSize : ℕ) : ℤ) count)
        (ino.iSize - pos).toInt = (ino.iSize - pos).toInt := by
      have := hg.1
      omega
    split
    · rfl
    split
    · exact hnext _ _ _ _ _ hmin
    split
    · rfl
    · exact hnext _ _ _ _ _ hmin
  · rfl

/-! ### Bytes of a page -/

theorem getLsbD_byteMask (i : ℕ) : (0xFF#32).getLsbD i = decide (i < 8) := by
  rw [show 0xFF#32 = BitVec.ofNat 32 (2 ^ 8 - 1) from rfl, BitVec.getLsbD_ofNat, Nat.testBit_two_pow_sub_one]
  by_cases h : i < 8
  · have : i < 32 := by omega
    simp [h, this]
  · simp [h]

theorem extract_setByteWord {j j' : ℕ} (hj : j < 4) (hj' : j' < 4) (w : Word) (b : Byte) :
    (setByteWord w j b).extractLsb' (8 * j') 8 = if j' = j then b else w.extractLsb' (8 * j') 8 := by
  apply BitVec.eq_of_getLsbD_eq
  intro k hk
  have hq : 8 * j' + k < 32 := by omega
  rw [BitVec.getLsbD_extractLsb']
  unfold setByteWord
  simp only [BitVec.getLsbD_or, BitVec.getLsbD_and, BitVec.getLsbD_not, BitVec.getLsbD_shiftLeft,
    getLsbD_byteMask, BitVec.getLsbD_setWidth, hk, hq, decide_true, Bool.true_and]
  split
  · next e =>
    subst e
    have h₁ : ¬ 8 * j' + k < 8 * j' := by omega
    have h₂ : 8 * j' + k - 8 * j' = k := by omega
    have h₃ : k < 32 := by omega
    simp [h₁, h₂, h₃, hk]
  · next e =>
    rw [BitVec.getLsbD_extractLsb']
    by_cases h₁ : 8 * j' + k < 8 * j
    · simp [h₁, hk]
    have h₂ : ¬ 8 * j' + k - 8 * j < 8 := by omega
    have h₃ : 8 ≤ 8 * j' + k - 8 * j := by omega
    simp [h₁, h₂, hk, BitVec.getLsbD_of_ge b _ h₃]

theorem getByte_setByte (p : Page) (o o' : Fin 4096) (b : Byte) :
    getByte (setByte p o b) o' = if o' = o then b else getByte p o' := by
  have ho := o.isLt
  have ho' := o'.isLt
  unfold getByte setByte
  by_cases hw : o'.val / 4 = o.val / 4
  · have e : (⟨o'.val / 4, by omega⟩ : Ix) = ⟨o.val / 4, by omega⟩ := Fin.ext hw
    rw [e, Function.update_self, extract_setByteWord (Nat.mod_lt _ (by omega)) (Nat.mod_lt _ (by omega))]
    by_cases hb : o'.val % 4 = o.val % 4
    · rw [if_pos hb, if_pos (Fin.ext (by omega))]
    · rw [if_neg hb, if_neg fun h => hb (by rw [h])]
  · rw [Function.update_of_ne fun h => hw (congrArg Fin.val h), if_neg fun h => hw (by rw [h])]

/-- A page is its bytes. -/
theorem page_ext (h : ∀ o, getByte p o = getByte q o) : p = q := by
  funext i
  have hi := i.isLt
  apply BitVec.eq_of_getLsbD_eq
  intro k hk
  have hb := h ⟨4 * i.val + k / 8, by omega⟩
  unfold getByte at hb
  have e : ∀ h' , (⟨(4 * i.val + k / 8) / 4, h'⟩ : Ix) = i := fun _ => Fin.ext (by simp only; omega)
  simp only [e] at hb
  have hbit := congrArg (fun x => BitVec.getLsbD x (k % 8)) hb
  have hmod : (4 * i.val + k / 8) % 4 = k / 8 := by omega
  have hq : 8 * (k / 8) + k % 8 = k := by omega
  have h8 : k % 8 < 8 := Nat.mod_lt _ (by omega)
  simpa [BitVec.getLsbD_extractLsb', hmod, hq, h8] using hbit

theorem getByte_putBytes (p : Page) (bs : List Byte) (o : Fin 4096) :
    getByte (putBytes p bs) o = (bs[o.val]?).getD (getByte p o) := by
  suffices h : ∀ (k : ℕ) (p : Page), getByte ((bs.zipIdx k).foldl
      (fun p x => if h : x.2 < 4096 then setByte p ⟨x.2, h⟩ x.1 else p) p) o =
        if k ≤ o.val then (bs[o.val - k]?).getD (getByte p o) else getByte p o by
    have := h 0 p
    simpa [putBytes] using this
  induction bs with
  | nil => intro k p; simp
  | cons b bs ih =>
    intro k p
    rw [zipIdx_cons, foldl_cons, ih]
    have ho := o.isLt
    by_cases hk : k ≤ o.val
    · rw [if_pos hk]
      by_cases he : k = o.val
      · have hn : ¬ k + 1 ≤ o.val := by omega
        have h0 : o.val - k = 0 := by omega
        have hlt : k < 4096 := by omega
        rw [if_neg hn, h0, getElem?_cons_zero, Option.getD_some, dif_pos hlt, getByte_setByte,
          if_pos (Fin.ext he.symm)]
      · have hs : o.val - k = (o.val - (k + 1)) + 1 := by omega
        have hne : ∀ hlt : k < 4096, o ≠ ⟨k, hlt⟩ := fun _ e => he (congrArg Fin.val e).symm
        rw [if_pos (by omega : k + 1 ≤ o.val), hs, getElem?_cons_succ]
        split
        · next hlt => rw [getByte_setByte, if_neg (hne hlt)]
        · rfl
    · have hne : ∀ hlt : k < 4096, o ≠ ⟨k, hlt⟩ := fun _ e => hk (congrArg Fin.val e).ge
      rw [if_neg hk, if_neg (by omega : ¬ k + 1 ≤ o.val)]
      split
      · next hlt => rw [getByte_setByte, if_neg (hne hlt)]
      · rfl

/-! ### The image -/

/-- The bytes of the executable that belong to the page at `va`: those of the first region that
covers it, as far as the region has file bytes and the file can be read. -/
def Task.imageBytes (fs : FsView) (t : Task) (va : Word) : List Byte :=
  match t.exeInode, t.regionAt va with
  | some e, some r =>
    if r.filesz ≤ va - r.va then []
    else
      (fs.inode e).bytesFrom fs.bread (r.fileOff + (va - r.va)).toNat
        (min (min (r.filesz - (va - r.va)).toNat pageSize)
          ((fs.inode e).room (r.fileOff + (va - r.va))))
  | _, _ => []

/-- **What `page_in_image` puts into the page.** -/
theorem getByte_pageInImage (fs : FsView) (t : Task) (va : Word) (p : Page) (o : Fin 4096) :
    getByte (pageInImage fs t va p).2 o = ((t.imageBytes fs va)[o.val]?).getD (getByte p o) := by
  unfold pageInImage Task.imageBytes
  cases t.exeInode with
  | none => simp
  | some e =>
    cases t.regionAt va with
    | none => simp
    | some r =>
      simp only
      split
      · simp
      · rw [getByte_putBytes, fileRead_bytes, Int.toNat_natCast]

end Linux001

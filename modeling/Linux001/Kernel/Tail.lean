import Linux001.Kernel.Execve
import Linux001.Lib.Overwrite

/-!
# Kernel — the arguments of a new program

`sys_execve()` publishes the arguments in the page above the user stack: `argc` at 4, the address of
`argv[]` at 8, `argv[]` from 12 on, and the strings packed down from 0x100, where the stub of
`sigreturn()` begins.  An argument is its characters here, without the NUL.

The page says what it should (`Published`).  The strings end one byte below 0x100, so arguments that
would just fit are refused (`tailPage_iff`).
-/

namespace Linux001

open List

/-- The strings with their NULs, one behind the other. -/
def argBytes (argv : List (List Byte)) : List Byte := argv.flatMap (· ++ [0#8])

/-- The loop from the last string to the first, over the page `pg`: `sp`, the page and `argv_ptr[]`. -/
def packArgs (pg : ℕ → Byte) (frameEnd : ℕ) : List (List Byte) → Option (ℤ × (ℕ → Byte) × List Word)
  | [] => some (0x100 - 1, pg, [])
  | a :: l =>
    match packArgs pg frameEnd l with
    | none => none
    | some (sp, pg, ptrs) =>
      let sp := sp - (a.length + 1)
      if sp < frameEnd then none
      else some (sp, overwrite pg sp.toNat (a ++ [0#8]), (userStackTop + BitVec.ofInt 32 sp) :: ptrs)

/-- **The tail page**, in a frame with the bytes `pg`. -/
def tailPage (pg : ℕ → Byte) (argv : List (List Byte)) : Option (ℕ → Byte) :=
  match packArgs pg (12 + (argv.length + 1) * 4) argv with
  | none => none
  | some (_, pg, ptrs) =>
    let pg := overwrite pg 12 ((ptrs ++ [0#32]).flatMap le32)
    let pg := overwrite pg 4 (le32 (BitVec.ofNat 32 argv.length))
    some (overwrite pg 8 (le32 (userStackTop + 12#32)))

/-- The word at an offset of the page. -/
def wordAt (pg : ℕ → Byte) (o : ℕ) : Word := pg (o + 3) ++ pg (o + 2) ++ pg (o + 1) ++ pg o

/-- What the new program is to find: `argc`, `argv`, the NULL behind `argv[]`, and each string with its NUL
behind the array and the strings before it, and below the stub at 0x100. -/
structure Published (argv : List (List Byte)) (pg : ℕ → Byte) : Prop where
  argc : wordAt pg 4 = BitVec.ofNat 32 argv.length
  argvPtr : wordAt pg 8 = userStackTop + 12#32
  null : wordAt pg (12 + 4 * argv.length) = 0#32
  strings : ∃ pos : ℕ → ℕ, ∀ i a, argv[i]? = some a →
    wordAt pg (12 + 4 * i) = userStackTop + BitVec.ofNat 32 (pos i) ∧
    12 + (argv.length + 1) * 4 ≤ pos i ∧ pos i + (a.length + 1) ≤ 0x100 ∧
    (∀ j < a.length + 1, pg (pos i + j) = (a ++ [0#8]).getD j 0#8) ∧
    ∀ j, i < j → j < argv.length → pos i + (a.length + 1) ≤ pos j

/-! ### Words -/

variable {pg pg' : ℕ → Byte} {o p : ℕ} {ws : List Word} {w : Word} {argv : List (List Byte)}

theorem length_le32 (w : Word) : (le32 w).length = 4 := rfl

theorem wordAt_words {k : ℕ} (h : ws[k]? = some w) : wordAt (overwrite pg o (ws.flatMap le32)) (o + 4 * k) = w := by
  have hbyte : ∀ j < 4, overwrite pg o (ws.flatMap le32) (o + 4 * k + j) = w.extractLsb' (8 * j) 8 := by
    intro j hj
    rw [Nat.add_assoc, overwrite_at, getElem?_flatMap length_le32 ws k hj, h]
    simp [le32, getElem?_range hj]
  unfold wordAt
  rw [hbyte 3 (by omega), hbyte 2 (by omega), hbyte 1 (by omega), ← Nat.add_zero (o + 4 * k), hbyte 0 (by omega)]
  apply BitVec.eq_of_getLsbD_eq
  intro k hk
  grind

theorem wordAt_outside {l : List Byte} (h : p + 4 ≤ o ∨ o + l.length ≤ p) :
    wordAt (overwrite pg o l) p = wordAt pg p := by
  unfold wordAt
  rw [overwrite_outside (by omega), overwrite_outside (by omega), overwrite_outside (by omega),
    overwrite_outside (by omega)]

/-! ### The loop -/

theorem argBytes_cons (a : List Byte) (l : List (List Byte)) : argBytes (a :: l) = (a ++ [0#8]) ++ argBytes l :=
  flatMap_cons

/-- The offset of string `i`, if the first one is at `sp`. -/
def argPos (argv : List (List Byte)) (sp i : ℕ) : ℕ := sp + (argBytes (argv.take i)).length

/-- **What the loop comes to**: the strings end at 0xFF. -/
theorem packArgs_cases (pg : ℕ → Byte) (k : ℕ) (argv : List (List Byte)) :
    (0xFF < k + (argBytes argv).length ∧ argv ≠ [] ∧ packArgs pg k argv = none) ∨
    ∃ sp : ℕ, sp + (argBytes argv).length = 0xFF ∧ (argv ≠ [] → k ≤ sp) ∧ packArgs pg k argv =
      some ((sp : ℤ), overwrite pg sp (argBytes argv),
        (List.range argv.length).map fun i => userStackTop + BitVec.ofNat 32 (argPos argv sp i)) := by
  induction argv with
  | nil => exact .inr ⟨0xFF, rfl, fun h => absurd rfl h, by simp [packArgs, argBytes]⟩
  | cons a l ih =>
    have hlen : (argBytes (a :: l)).length = a.length + 1 + (argBytes l).length := by
      rw [argBytes_cons, length_append, length_append]
      rfl
    rcases ih with ⟨hlt, -, e⟩ | ⟨sp, hsp, -, e⟩
    · exact .inl ⟨by omega, by simp, by simp [packArgs, e]⟩
    by_cases h : sp < k + (a.length + 1)
    · exact .inl ⟨by omega, by simp, by simp only [packArgs, e]; rw [if_pos (by omega)]⟩
    obtain ⟨sp', rfl⟩ : ∃ sp', sp = sp' + (a.length + 1) := ⟨sp - (a.length + 1), by omega⟩
    refine .inr ⟨sp', by omega, fun _ => by omega, ?_⟩
    have hpos : ∀ i, argPos (a :: l) sp' (i + 1) = argPos l (sp' + (a.length + 1)) i := fun i => by
      simp only [argPos, take_succ_cons, argBytes_cons, length_append, length_singleton]
      omega
    have hpage : overwrite (overwrite pg (sp' + (a.length + 1)) (argBytes l)) sp' (a ++ [0#8]) =
        overwrite pg sp' (argBytes (a :: l)) := by
      rw [argBytes_cons, ← overwrite_prepend (l := a ++ [0#8]), length_append]
      rfl
    have hint : ((sp' + (a.length + 1) : ℕ) : ℤ) - (a.length + 1) = sp' := by omega
    simp only [packArgs, e, hint]
    rw [if_neg (by omega), Int.toNat_natCast, hpage, length_cons, range_succ_eq_map, map_cons,
      map_map]
    simp only [Function.comp_def, Nat.succ_eq_add_one, hpos]
    rfl

theorem argPos_mono (argv : List (List Byte)) (sp : ℕ) {i j : ℕ} (h : i ≤ j) : argPos argv sp i ≤ argPos argv sp j := by
  obtain ⟨t, ht⟩ := take_prefix_take_left h
  unfold argPos argBytes
  rw [← ht, flatMap_append, length_append]
  omega

theorem argBytes_take {i : ℕ} {a : List Byte} (h : argv[i]? = some a) :
    argBytes (argv.take (i + 1)) = argBytes (argv.take i) ++ (a ++ [0#8]) := by
  unfold argBytes
  rw [take_add_one, h, flatMap_append]
  simp

/-! ### The page -/

theorem tailPage_none (pg : ℕ → Byte) (argv : List (List Byte)) :
    tailPage pg argv = none ↔ 0xFF < 12 + (argv.length + 1) * 4 + (argBytes argv).length := by
  unfold tailPage
  rcases packArgs_cases pg (12 + (argv.length + 1) * 4) argv with ⟨hlt, -, e⟩ | ⟨sp, hsp, hle, e⟩
  · simpa [e] using hlt
  rw [e]
  simp only [reduceCtorEq, false_iff, not_lt]
  by_cases hne : argv = []
  · subst hne
    decide
  · have := hle hne
    omega

theorem argvFits_iff (k sp : ℤ) (l : List (List Byte)) :
    argvFits k sp l = false ↔ l ≠ [] ∧ sp - (argBytes l).length < k := by
  induction l generalizing sp with
  | nil => simp [argvFits]
  | cons a l ih =>
    have hlen : (argBytes (a :: l)).length = a.length + 1 + (argBytes l).length := by
      rw [argBytes_cons, length_append, length_append]
      rfl
    have hnil : l = [] → (argBytes l).length = 0 := by
      rintro rfl
      rfl
    grind [argvFits]

/-- The check of `sysExecve` is the loop's. -/
theorem argvOk_iff (pg : ℕ → Byte) (argv : List (List Byte)) : argvOk argv = false ↔ tailPage pg argv = none := by
  have hrev : (argBytes argv.reverse).length = (argBytes argv).length := by
    simp [argBytes, sum_reverse]
  rw [argvOk, argvFits_iff, hrev, tailPage_none, ne_eq, reverse_eq_nil_iff]
  by_cases hne : argv = []
  · subst hne
    decide
  · exact ⟨fun h => by omega, fun h => ⟨hne, by omega⟩⟩

theorem tailPage_published (h : tailPage pg argv = some pg') : Published argv pg' := by
  unfold tailPage at h
  rcases packArgs_cases pg (12 + (argv.length + 1) * 4) argv with ⟨-, -, e⟩ | ⟨sp, hsp, hle, e⟩
  · rw [e] at h
    cases h
  rw [e] at h
  obtain rfl := Option.some.inj h
  generalize hw : ((range argv.length).map fun i => userStackTop + BitVec.ofNat 32 (argPos argv sp i)) ++
    [0#32] = ws
  have hlen : (ws.flatMap le32).length = 4 * (argv.length + 1) := by
    rw [length_flatMap_const length_le32, ← hw]
    simp
  have harray : ∀ i w, ws[i]? = some w → wordAt (overwrite (overwrite (overwrite (overwrite pg sp (argBytes argv)) 12
      (ws.flatMap le32)) 4 (le32 (BitVec.ofNat 32 argv.length))) 8 (le32 (userStackTop + 12#32))) (12 + 4 * i) = w := by
    intro i w hi
    rw [wordAt_outside (by rw [length_le32]; omega), wordAt_outside (by rw [length_le32]; omega), wordAt_words hi]
  have hone : ∀ {pg : ℕ → Byte} {o : ℕ} {w : Word}, wordAt (overwrite pg o (le32 w)) o = w := fun {pg o w} => by
    simpa using @wordAt_words pg o [w] w 0 rfl
  refine ⟨?_, hone, harray _ _ (by simp [← hw]), argPos argv sp, fun i a ha => ?_⟩
  · rw [wordAt_outside (by omega), hone]
  obtain ⟨hi, -⟩ := List.getElem?_eq_some_iff.mp ha
  have hne : argv ≠ [] := ne_nil_of_length_pos (by omega)
  have hnext : argPos argv sp (i + 1) = argPos argv sp i + (a.length + 1) := by
    simp [argPos, argBytes_take ha, Nat.add_assoc]
  have hend : argPos argv sp argv.length = 0xFF := by rw [argPos, take_length, hsp]
  have hlast : argPos argv sp (i + 1) ≤ _ := argPos_mono argv sp hi
  have hfirst : sp ≤ argPos argv sp i := Nat.le_add_right _ _
  have := hle hne
  refine ⟨harray i _ ?_, by omega, by omega, fun j hj => ?_, fun j hij hj => ?_⟩
  · rw [← hw, getElem?_append_left (by simpa using hi)]
    simp [hi]
  · rw [overwrite_outside (by rw [length_le32]; omega), overwrite_outside (by rw [length_le32]; omega),
      overwrite_outside (by omega), argPos, Nat.add_assoc, overwrite_at,
      show argBytes argv = argBytes (argv.take (i + 1)) ++ argBytes (argv.drop (i + 1)) by
        rw [argBytes, argBytes, argBytes, ← flatMap_append, take_append_drop], argBytes_take ha,
      append_assoc, getElem?_append_right (by omega), Nat.add_sub_cancel_left,
      getElem?_append_left (by simpa using hj), getD_eq_getElem?_getD,
      getElem?_eq_getElem (by simpa using hj)]
    rfl
  · have : argPos argv sp (i + 1) ≤ _ := argPos_mono argv sp (Nat.succ_le_of_lt hij)
    omega

/-- **The tail page** is published as it should be, or refused exactly if the strings and the array do not fit
below 0x100, except that strings which just fit are refused. -/
theorem tailPage_iff (pg : ℕ → Byte) (argv : List (List Byte)) :
    ((∀ pg', tailPage pg argv = some pg' → Published argv pg') ∧
      (tailPage pg argv = none ↔ 0x100 < 12 + (argv.length + 1) * 4 + (argBytes argv).length)) ↔
    12 + (argv.length + 1) * 4 + (argBytes argv).length ≠ 0x100 := by
  rw [tailPage_none]
  constructor
  · rintro ⟨-, h⟩
    omega
  · intro h
    exact ⟨fun pg' => tailPage_published, by omega⟩

/-- **Fifteen arguments of eleven characters** would end at 0x100, and are refused. -/
theorem fifteen_refused : tailPage (fun _ => 0#8) (List.replicate 15 (List.replicate 11 0x61#8)) = none ∧
    12 + (15 + 1) * 4 + (argBytes (List.replicate 15 (List.replicate 11 0x61#8))).length = 0x100 := by
  refine ⟨(tailPage_none _ _).mpr ?_, ?_⟩ <;> decide +kernel

end Linux001

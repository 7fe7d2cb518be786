import Mathlib.Algebra.Order.BigOperators.Group.Finset

/-!
# Lib — hierarchies with link counts

A hierarchy has nodes that are in use, some of them directories; a directory has children, a list of
nodes, and every node has a link count.  `WF` says that the directories form a tree under `top`, that
the links of a file count its occurrences as a child, and that the links of a directory count its
subdirectories and two more.  `extra` is what is missing in the links of `top`.

The moves that keep it: editing one directory's links to one file (`WF.edit`), reordering
(`WF.reorder`), a new directory (`WF.enterDir`) and an empty one removed (`WF.removeDir`).  The last
two are one relation between hierarchies, `OneMore`, read in its two directions.
-/

/-- Nodes, directories, children and link counts. -/
structure Hierarchy (ι : Type*) where
  dom : Finset ι
  used : ι → Bool
  dir : ι → Bool
  kids : ι → List ι
  links : ι → ℕ

namespace Hierarchy

open Function List

variable {ι : Type*} [DecidableEq ι] {m : ι}

/-- A directory in use. -/
def live (H : Hierarchy ι) (d : ι) : Prop := H.used d = true ∧ H.dir d = true

instance (H : Hierarchy ι) (d : ι) : Decidable (H.live d) := inferInstanceAs (Decidable (_ ∧ _))

/-- How often directories in use have `m` as a child. -/
def linksTo (H : Hierarchy ι) (m : ι) : ℕ := ∑ d ∈ H.dom, if H.live d then (H.kids d).count m else 0

/-- The subdirectories of `d`. -/
def subdirs (H : Hierarchy ι) (d : ι) : ℕ := (H.kids d).countP H.dir

/-- **A tree with link counts.** -/
structure WF (H : Hierarchy ι) (top : ι) (extra : ℕ) (parent : ι → ι) : Prop where
  inDom : ∀ {x}, H.used x = true → x ∈ H.dom
  top_live : H.live top
  top_parent : parent top = top
  named : ∀ {d m}, H.live d → m ∈ H.kids d → H.used m = true
  child : ∀ {d m}, H.live d → m ∈ H.kids d → H.dir m = true → parent m = d ∧ m ≠ top
  once : ∀ {d}, H.live d → d ≠ top → (H.kids (parent d)).count d = 1
  parent_live : ∀ {d}, H.live d → H.live (parent d)
  reach : ∀ {d}, H.live d → ∃ k, parent^[k] d = top
  fileLinks : ∀ {m}, H.used m = true → H.dir m = false → H.links m = H.linksTo m
  dirLinks : ∀ {d}, H.live d → d ≠ top → H.links d = 2 + H.subdirs d
  topLinks : H.links top + extra = 2 + H.subdirs top
  topPos : H.links top ≠ 0

/-! ### Counting -/

section Count

variable {l l' : List ι} {n : ι} {p p' : ι → Bool}

/-- Two lists that agree in all counts but that of `n`, which neither predicate counts. -/
theorem countP_eq_of_count (hcount : ∀ m, m ≠ n → l'.count m = l.count m)
    (hp : ∀ m ∈ l, m ≠ n → p' m = p m) (hn : n ∈ l → p n = false) (hn' : n ∈ l' → p' n = false) :
    l'.countP p' = l.countP p := by
  have hperm : (l'.filter (· ≠ n)).Perm (l.filter (· ≠ n)) := by
    rw [perm_iff_count]
    intro m
    by_cases hm : m = n
    · subst hm
      rw [count_eq_zero_of_not_mem, count_eq_zero_of_not_mem] <;> simp
    · rw [count_filter (by simpa using hm), count_filter (by simpa using hm), hcount m hm]
  have hsplit : ∀ (q : ι → Bool) (k : List ι), (n ∈ k → q n = false) → k.countP q = (k.filter (· ≠ n)).countP q := by
    intro q k hq
    rw [countP_filter]
    apply countP_congr
    intro m hm
    by_cases e : m = n
    · subst e
      simp [hq hm]
    · simp [e]
  rw [hsplit p' l' hn', hsplit p l hn, hperm.countP_eq]
  apply countP_congr
  intro m hm
  obtain ⟨hml, hmn⟩ := mem_filter.mp hm
  rw [hp m hml (by simpa using hmn)]

/-- Membership is a matter of counts. -/
theorem mem_of_count_eq (hcount : ∀ m, m ≠ n → l'.count m = l.count m) (hm : m ∈ l') (hne : m ≠ n) :
    m ∈ l := by
  rw [← count_pos_iff] at hm ⊢
  rwa [← hcount m hne]

end Count

variable {H H' : Hierarchy ι} {top : ι} {extra : ℕ} {parent : ι → ι} {d n : ι}

/-- A node in use that no directory in use has as a child is linked to by none. -/
theorem linksTo_eq_zero (h : ∀ y, H.live y → n ∉ H.kids y) : H.linksTo n = 0 := by
  apply Finset.sum_eq_zero
  intro y _
  split
  · next hy => exact count_eq_zero_of_not_mem (h y hy)
  · rfl

theorem linksTo_pos (h : H.WF top extra parent) (hd : H.live d) (hn : n ∈ H.kids d) : 0 < H.linksTo n := by
  have hle := Finset.single_le_sum (f := fun y => if H.live y then (H.kids y).count n else 0)
    (fun _ _ => Nat.zero_le _) (h.inDom hd.1)
  have hpos := count_pos_iff.mpr hn
  simp only [if_pos hd] at hle
  unfold linksTo
  omega

/-- The counts of two hierarchies with the same directories in use differ by what one directory
has. -/
theorem linksTo_edit (hdom : H'.dom = H.dom) (hlive : ∀ y, H'.live y ↔ H.live y) (hd : H.live d)
    (hin : d ∈ H.dom) (hkids : ∀ y, H.live y → y ≠ d → H'.kids y = H.kids y) (m : ι) :
    H'.linksTo m + (H.kids d).count m = H.linksTo m + (H'.kids d).count m := by
  unfold linksTo
  rw [hdom, ← Finset.add_sum_erase _ _ hin, ← Finset.add_sum_erase _ _ hin, if_pos hd, if_pos ((hlive d).mpr hd)]
  have hrest : (∑ y ∈ H.dom.erase d, if H'.live y then (H'.kids y).count m else 0) =
      ∑ y ∈ H.dom.erase d, if H.live y then (H.kids y).count m else 0 := by
    apply Finset.sum_congr rfl
    intro y hy
    by_cases hl : H.live y
    · rw [if_pos ((hlive y).mpr hl), if_pos hl, hkids y hl (Finset.ne_of_mem_erase hy)]
    · rw [if_neg (fun h => hl ((hlive y).mp h)), if_neg hl]
  omega

/-! ### The moves -/

/-- **The links of one directory to one node are edited**; the node is no directory in use, before or
after. -/
theorem WF.edit (h : H.WF top extra parent) (hdom : H'.dom = H.dom) (hd : H.live d) (hn : ¬ H.live n)
    (hn' : ¬ H'.live n) (hnd : H'.used n = true → n ∈ H.dom)
    (hother : ∀ y, y ≠ n → H'.used y = H.used y ∧ H'.dir y = H.dir y ∧ H'.links y = H.links y)
    (hkids : ∀ y, H.live y → y ≠ d → H'.kids y = H.kids y)
    (hcount : ∀ m, m ≠ n → (H'.kids d).count m = (H.kids d).count m)
    (hused : ∀ y, H'.live y → n ∈ H'.kids y → H'.used n = true)
    (hlinks : H'.used n = true → H'.links n = H'.linksTo n) : H'.WF top extra parent := by
  have hlive : ∀ y, H'.live y ↔ H.live y := by
    intro y
    by_cases hy : y = n
    · subst hy
      exact iff_of_false hn' hn
    obtain ⟨hu, hdir, -⟩ := hother y hy
    unfold live
    rw [hu, hdir]
  have hne : ∀ {y}, H.live y → y ≠ n := by
    rintro y hy rfl
    exact hn hy
  have hall : ∀ y, H.live y → ∀ m, m ≠ n → (H'.kids y).count m = (H.kids y).count m := by
    intro y hy m hm
    by_cases hyd : y = d
    · subst hyd
      exact hcount m hm
    · rw [hkids y hy hyd]
  -- where `n` is a child, it is no directory
  have hfile : ∀ y, H.live y → n ∈ H.kids y → H.dir n = false := fun y hy hm =>
    Bool.eq_false_of_not_eq_true fun hdir => hn ⟨h.named hy hm, hdir⟩
  have hfile' : ∀ y, H'.live y → n ∈ H'.kids y → H'.dir n = false := fun y hy hm =>
    Bool.eq_false_of_not_eq_true fun hdir => hn' ⟨hused y hy hm, hdir⟩
  have hsub : ∀ y, H.live y → H'.subdirs y = H.subdirs y := fun y hy =>
    countP_eq_of_count (hall y hy) (fun m _ hm => (hother m hm).2.1) (hfile y hy)
      (hfile' y ((hlive y).mpr hy))
  have htop : top ≠ n := hne h.top_live
  refine ⟨fun {x} hx => ?_, (hlive top).mpr h.top_live, h.top_parent, fun {y m} hy hm => ?_,
    fun {y m} hy hm hdir => ?_, fun {y} hy hyt => ?_, fun {y} hy => ?_, fun {y} hy => h.reach ((hlive y).mp hy),
    fun {m} hm hdir => ?_, fun {y} hy hyt => ?_, ?_, ?_⟩
  · rw [hdom]
    by_cases hxn : x = n
    · subst hxn
      exact hnd hx
    · exact h.inDom ((hother x hxn).1 ▸ hx)
  · by_cases hmn : m = n
    · subst hmn
      exact hused y hy hm
    rw [(hother m hmn).1]
    have hy' := (hlive y).mp hy
    exact h.named hy' (mem_of_count_eq (hall y hy') hm hmn)
  · have hmn : m ≠ n := by
      rintro rfl
      rw [hfile' y hy hm] at hdir
      cases hdir
    have hy' := (hlive y).mp hy
    exact h.child hy' (mem_of_count_eq (hall y hy') hm hmn) ((hother m hmn).2.1 ▸ hdir)
  · have hy' := (hlive y).mp hy
    rw [hall _ (h.parent_live hy') y (hne hy')]
    exact h.once hy' hyt
  · exact (hlive _).mpr (h.parent_live ((hlive y).mp hy))
  · by_cases hmn : m = n
    · subst hmn
      exact hlinks hm
    obtain ⟨hu, hdr, hl⟩ := hother m hmn
    rw [hl, h.fileLinks (hu ▸ hm) (hdr ▸ hdir)]
    have hedit := linksTo_edit hdom hlive hd (h.inDom hd.1) hkids m
    rw [hcount m hmn] at hedit
    omega
  · have hy' := (hlive y).mp hy
    rw [(hother y (hne hy')).2.2, hsub y hy']
    exact h.dirLinks hy' hyt
  · rw [(hother top htop).2.2, hsub top h.top_live]
    exact h.topLinks
  · rw [(hother top htop).2.2]
    exact h.topPos

/-- **Nothing changes but the order of children**, and what nobody can see. -/
theorem WF.reorder (h : H.WF top extra parent) (hdom : H'.dom = H.dom) (hused : ∀ y, H'.used y = H.used y)
    (hdir : ∀ y, H'.dir y = H.dir y) (hlinks : ∀ y, H.used y = true → H'.links y = H.links y)
    (hkids : ∀ y, H.live y → (H'.kids y).Perm (H.kids y)) : H'.WF top extra parent := by
  have hlive : ∀ y, H'.live y ↔ H.live y := fun y => by
    unfold live
    rw [hused, hdir]
  have hto : ∀ m, H'.linksTo m = H.linksTo m := fun m => by
    unfold linksTo
    rw [hdom]
    apply Finset.sum_congr rfl
    intro y _
    by_cases hl : H.live y
    · rw [if_pos ((hlive y).mpr hl), if_pos hl, (hkids y hl).count_eq]
    · rw [if_neg (fun h => hl ((hlive y).mp h)), if_neg hl]
  have hsub : ∀ y, H.live y → H'.subdirs y = H.subdirs y := fun y hy => by
    unfold subdirs
    rw [(hkids y hy).countP_eq]
    exact countP_congr fun m _ => by rw [hdir m]
  refine ⟨fun {x} hx => hdom ▸ h.inDom (hused x ▸ hx), (hlive top).mpr h.top_live, h.top_parent,
    fun {y m} hy hm => ?_, fun {y m} hy hm hdr => ?_, fun {y} hy hyt => ?_, fun {y} hy => ?_,
    fun {y} hy => h.reach ((hlive y).mp hy), fun {m} hm hdr => ?_, fun {y} hy hyt => ?_, ?_, ?_⟩
  · have hy' := (hlive y).mp hy
    exact (hused m).trans (h.named hy' ((hkids y hy').mem_iff.mp hm))
  · have hy' := (hlive y).mp hy
    exact h.child hy' ((hkids y hy').mem_iff.mp hm) (hdir m ▸ hdr)
  · have hy' := (hlive y).mp hy
    rw [(hkids _ (h.parent_live hy')).count_eq]
    exact h.once hy' hyt
  · exact (hlive _).mpr (h.parent_live ((hlive y).mp hy))
  · have hm' : H.used m = true := hused m ▸ hm
    rw [hlinks m hm', hto]
    exact h.fileLinks hm' (hdir m ▸ hdr)
  · have hy' := (hlive y).mp hy
    rw [hlinks y hy'.1, hsub y hy']
    exact h.dirLinks hy' hyt
  · rw [hlinks top h.top_live.1, hsub top h.top_live]
    exact h.topLinks
  · rw [hlinks top h.top_live.1]
    exact h.topPos

/-- A chain of parents that avoids `n` is not changed by what is said of `n`. -/
theorem iterate_update {n d : ι} {k : ℕ} {x : ι} (h : ∀ j < k, parent^[j] x ≠ n) :
    (update parent n d)^[k] x = parent^[k] x := by
  induction k generalizing x with
  | zero => rfl
  | succ k ih =>
    have hx : x ≠ n := h 0 (Nat.succ_pos k)
    rw [iterate_succ_apply, iterate_succ_apply, update_of_ne hx]
    refine ih fun j hj => ?_
    rw [← iterate_succ_apply]
    exact h (j + 1) (Nat.succ_lt_succ hj)

/-- Parents of directories in use are in use. -/
theorem WF.iterate_live (h : H.WF top extra parent) (hd : H.live d) (k : ℕ) : H.live (parent^[k] d) := by
  induction k generalizing d with
  | zero => exact hd
  | succ k ih =>
    rw [iterate_succ_apply]
    exact ih (h.parent_live hd)

/-! ### One directory more -/

/-- `H'` is `H` with a new, empty directory `n` in `d`. -/
structure OneMore (H H' : Hierarchy ι) (d n : ι) : Prop where
  dom : H'.dom = H.dom
  inDom : n ∈ H.dom
  live : H.live d
  unused : H.used n = false
  new : H'.live n
  empty : H'.kids n = []
  other : ∀ y, y ≠ n → H'.used y = H.used y ∧ H'.dir y = H.dir y
  links : ∀ y, y ≠ n → y ≠ d → H'.links y = H.links y
  link : H'.links d = H.links d + 1
  kids : ∀ y, H.live y → y ≠ d → H'.kids y = H.kids y
  kid : (H'.kids d).Perm (n :: H.kids d)

namespace OneMore

variable (g : OneMore H H' d n) {y : ι}
include g

omit [DecidableEq ι] in
theorem ne (hy : H.used y = true) : y ≠ n := by
  rintro rfl
  rw [g.unused] at hy
  cases hy

omit [DecidableEq ι] in
theorem live_iff (hy : y ≠ n) : H'.live y ↔ H.live y := by
  unfold Hierarchy.live
  rw [(g.other y hy).1, (g.other y hy).2]

omit [DecidableEq ι] in
theorem mono (hy : H.live y) : H'.live y := (g.live_iff (g.ne hy.1)).mpr hy

/-- The children of a directory are those of before, and `n` for `d`. -/
theorem count (hy : H.live y) (m : ι) :
    (H'.kids y).count m = (H.kids y).count m + if y = d ∧ m = n then 1 else 0 := by
  by_cases hyd : y = d
  · subst hyd
    rw [g.kid.count_eq, count_cons]
    by_cases hm : m = n
    · subst hm
      simp
    · simp [hm, Ne.symm hm]
  · rw [g.kids y hy hyd, if_neg (fun h' => hyd h'.1), Nat.add_zero]

theorem count_of_ne (hy : H.live y) (hm : m ≠ n) : (H'.kids y).count m = (H.kids y).count m := by
  rw [g.count hy, if_neg (fun h' => hm h'.2), Nat.add_zero]

theorem mem_iff (hy : H.live y) : m ∈ H'.kids y ↔ m ∈ H.kids y ∨ y = d ∧ m = n := by
  by_cases hyd : y = d
  · subst hyd
    rw [g.kid.mem_iff, mem_cons]
    tauto
  · rw [g.kids y hy hyd]
    tauto

theorem linksTo (hm : m ≠ n) : H'.linksTo m = H.linksTo m := by
  unfold Hierarchy.linksTo
  rw [g.dom]
  apply Finset.sum_congr rfl
  intro y _
  by_cases hyn : y = n
  · subst hyn
    rw [if_pos g.new, g.empty, if_neg (fun hl : H.live y => g.ne hl.1 rfl), count_nil]
  by_cases hl : H.live y
  · rw [if_pos (g.mono hl), if_pos hl, g.count_of_ne hl hm]
  · rw [if_neg (fun h' => hl ((g.live_iff hyn).mp h')), if_neg hl]

theorem subdirs (hy : H.live y) (hn : n ∉ H.kids y) :
    H'.subdirs y = H.subdirs y + if y = d then 1 else 0 := by
  unfold Hierarchy.subdirs
  have hcongr : (H.kids y).countP H'.dir = (H.kids y).countP H.dir :=
    countP_congr fun m hm => by rw [(g.other m (fun e => hn (e ▸ hm))).2]
  by_cases hyd : y = d
  · subst hyd
    rw [g.kid.countP_eq, countP_cons, g.new.2, if_pos rfl, if_pos rfl, hcongr]
  · rw [g.kids y hy hyd, if_neg hyd, hcongr, Nat.add_zero]

/-- The links of a directory go up with its subdirectories. -/
theorem links_eq (hy : H.live y) : H'.links y = H.links y + if y = d then 1 else 0 := by
  by_cases hyd : y = d
  · subst hyd
    rw [g.link, if_pos rfl]
  · rw [g.links y (g.ne hy.1) hyd, if_neg hyd, Nat.add_zero]

/-- Files have the links they had, and they are as many. -/
theorem fileLinks (hmn : m ≠ n) (hdir : H.dir m = false) :
    H'.links m = H'.linksTo m ↔ H.links m = H.linksTo m := by
  have hmd : m ≠ d := by
    rintro rfl
    rw [g.live.2] at hdir
    cases hdir
  rw [g.links m hmn hmd, g.linksTo hmn]

end OneMore

/-- **A new, empty directory is entered.** -/
theorem WF.enterDir (h : H.WF top extra parent) (g : OneMore H H' d n) (hln : H'.links n = 2) :
    H'.WF top extra (update parent n d) := by
  have htop : top ≠ n := g.ne h.top_live.1
  have hunnamed : ∀ {y}, H.live y → n ∉ H.kids y := fun hy hm => g.ne (h.named hy hm) rfl
  have hpar : ∀ {y}, y ≠ n → update parent n d y = parent y := fun hy => update_of_ne hy ..
  have hchain : ∀ {y}, H.live y → ∃ k, (update parent n d)^[k] y = top := by
    intro y hy
    obtain ⟨k, hk⟩ := h.reach hy
    exact ⟨k, (iterate_update fun j _ => g.ne (h.iterate_live hy j).1).trans hk⟩
  refine ⟨fun {x} hx => ?_, g.mono h.top_live, (hpar htop).trans h.top_parent, fun {y m} hy hm => ?_,
    fun {y m} hy hm hdir => ?_, fun {y} hy hyt => ?_, fun {y} hy => ?_, fun {y} hy => ?_, fun {m} hm hdir => ?_,
    fun {y} hy hyt => ?_, ?_, ?_⟩
  · rw [g.dom]
    by_cases hxn : x = n
    · exact hxn ▸ g.inDom
    · exact h.inDom ((g.other x hxn).1 ▸ hx)
  · by_cases hyn : y = n
    · rw [hyn, g.empty] at hm
      cases hm
    have hy' := (g.live_iff hyn).mp hy
    rcases (g.mem_iff hy').mp hm with hm | ⟨-, rfl⟩
    · have hu := h.named hy' hm
      rw [(g.other m (g.ne hu)).1, hu]
    · exact g.new.1
  · by_cases hyn : y = n
    · rw [hyn, g.empty] at hm
      cases hm
    have hy' := (g.live_iff hyn).mp hy
    rcases (g.mem_iff hy').mp hm with hm | ⟨rfl, rfl⟩
    · have hmn := g.ne (h.named hy' hm)
      rw [hpar hmn]
      exact h.child hy' hm ((g.other m hmn).2 ▸ hdir)
    · exact ⟨update_self .., htop.symm⟩
  · by_cases hyn : y = n
    · subst hyn
      rw [update_self, g.count g.live, if_pos ⟨rfl, rfl⟩, count_eq_zero_of_not_mem (hunnamed g.live)]
    · have hy' := (g.live_iff hyn).mp hy
      rw [hpar hyn, g.count_of_ne (h.parent_live hy') hyn]
      exact h.once hy' hyt
  · by_cases hyn : y = n
    · subst hyn
      rw [update_self]
      exact g.mono g.live
    · rw [hpar hyn]
      exact g.mono (h.parent_live ((g.live_iff hyn).mp hy))
  · by_cases hyn : y = n
    · subst hyn
      obtain ⟨k, hk⟩ := hchain g.live
      exact ⟨k + 1, by rw [iterate_succ_apply, update_self, hk]⟩
    · exact hchain ((g.live_iff hyn).mp hy)
  · have hmn : m ≠ n := by
      rintro rfl
      rw [g.new.2] at hdir
      cases hdir
    rw [(g.other m hmn).1] at hm
    rw [(g.other m hmn).2] at hdir
    exact (g.fileLinks hmn hdir).mpr (h.fileLinks hm hdir)
  · by_cases hyn : y = n
    · subst hyn
      rw [hln, Hierarchy.subdirs, g.empty, countP_nil]
    · have hy' := (g.live_iff hyn).mp hy
      rw [g.subdirs hy' (hunnamed hy'), g.links_eq hy', h.dirLinks hy' hyt, Nat.add_assoc]
  · have hlk := h.topLinks
    rw [g.subdirs h.top_live (hunnamed h.top_live), g.links_eq h.top_live]
    omega
  · have hpos := h.topPos
    rw [g.links_eq h.top_live]
    omega

/-- **An empty directory is removed**, from one that keeps a link. -/
theorem WF.removeDir (h : H'.WF top extra parent) (g : OneMore H H' d n) (hpos : H.links d ≠ 0) :
    H.WF top extra parent := by
  have hkid : n ∈ H'.kids d := (g.mem_iff g.live).mpr (.inr ⟨rfl, rfl⟩)
  obtain ⟨hpn, hnt⟩ := h.child (g.mono g.live) hkid g.new.2
  have htop : H.live top := (g.live_iff hnt.symm).mp h.top_live
  -- `n` had one entry, in `d`
  have hunnamed : ∀ {y}, H.live y → n ∉ H.kids y := by
    intro y hy hm
    obtain ⟨hp, -⟩ := h.child (g.mono hy) ((g.mem_iff hy).mpr (.inl hm)) g.new.2
    have hyd : y = d := hp.symm.trans hpn
    have honce := h.once g.new hnt
    rw [hpn, g.count g.live, if_pos ⟨rfl, rfl⟩] at honce
    have hone := count_pos_iff.mpr (hyd ▸ hm)
    omega
  have hparn : ∀ {y}, H.live y → parent y ≠ n := by
    intro y hy hp
    by_cases hyt : y = top
    · rw [hyt, h.top_parent] at hp
      exact hnt hp.symm
    have honce := h.once (g.mono hy) hyt
    rw [hp, g.empty, count_nil] at honce
    cases honce
  have hparent : ∀ {y}, H.live y → H.live (parent y) := fun hy =>
    (g.live_iff (hparn hy)).mp (h.parent_live (g.mono hy))
  refine ⟨fun {x} hx => ?_, htop, h.top_parent, fun {y m} hy hm => ?_,
    fun {y m} hy hm hdir => ?_, fun {y} hy hyt => ?_, hparent,
    fun {y} hy => h.reach (g.mono hy), fun {m} hm hdir => ?_, fun {y} hy hyt => ?_, ?_, ?_⟩
  · rw [← g.dom]
    exact h.inDom ((g.other x (g.ne hx)).1 ▸ hx)
  · have hmn : m ≠ n := fun e => hunnamed hy (e ▸ hm)
    rw [← (g.other m hmn).1]
    exact h.named (g.mono hy) ((g.mem_iff hy).mpr (.inl hm))
  · have hmn : m ≠ n := fun e => hunnamed hy (e ▸ hm)
    exact h.child (g.mono hy) ((g.mem_iff hy).mpr (.inl hm)) ((g.other m hmn).2.trans hdir)
  · rw [← g.count_of_ne (hparent hy) (g.ne hy.1)]
    exact h.once (g.mono hy) hyt
  · have hmn := g.ne hm
    exact (g.fileLinks hmn hdir).mp (h.fileLinks ((g.other m hmn).1.trans hm) ((g.other m hmn).2.trans hdir))
  · have hlk := h.dirLinks (g.mono hy) hyt
    rw [g.subdirs hy (hunnamed hy), g.links_eq hy] at hlk
    omega
  · have hlk := h.topLinks
    rw [g.subdirs htop (hunnamed htop), g.links_eq htop] at hlk
    omega
  · by_cases htd : top = d
    · rw [htd]
      exact hpos
    · rw [← g.links top hnt.symm htd]
      exact h.topPos

end Hierarchy

import Linux001.Fs.InodeTable
import Linux001.Lib.Bits
import Linux001.Lib.Tally
import Linux001.Lib.Update

/-!
# Fs — one copy of an inode

`iget()` that reuses the slot of a dirty inode writes that back first, and sleeps; the slot is not
marked in the meantime.  A task that waits for an inode to be loaded goes on behind the slot it
has waited for.  As long as no other task looks for the old or the new inode or for a free slot
while a victim is written back, and no waiter finds its inode behind it, the table has one copy
of every inode (`inode_single_copy`).
-/

namespace Linux001

open Finset List Prod BitVec Function InodeTab Tally

open Function (update_of_ne update_self)

/-- The references of a task that sleeps at `p`. -/
def IPc.uses (v : InodeRef) : IPc → ℕ
  | .load v' _ => if v' = v then 1 else 0
  | .idle | .wait .. | .write .. => 0

/-- The slot that is being loaded, and its inode. -/
def IPc.loading : IPc → Option (InodeRef × InoKey)
  | .load v k => some (v, k)
  | .idle | .wait .. | .write .. => none

/-- The slot that is written back for reuse, and the inode it is to have. -/
def IPc.victim : IPc → Option (InodeRef × InoKey)
  | .write v _ (.claim k) => some (v, k)
  | .write _ _ (.sync _) | .idle | .wait .. | .load .. => none

namespace InodeTab

variable {nt : ℕ}

def key (s : InodeTab nt) (v : InodeRef) : InoKey := (s.slot v).key

/-- The references of a task to a slot. -/
def refsOf (s : InodeTab nt) (t : Fin nt) (v : InodeRef) : ℕ :=
  ((s.holds t).map Prod.fst).count v + (s.pc t).uses v

/-- The references of all tasks. -/
def refs (s : InodeTab nt) (v : InodeRef) : ℕ := ∑ t, s.refsOf t v

/-! ### The invariant -/

structure TabInv (s : InodeTab nt) : Prop where
  counted : ∀ v, (s.slot v).iCount.toNat = s.refs v
  owner : ∀ {t v k}, (v, k) ∈ s.holds t → s.key v = k ∧ s.lock v = false
  /-- What is not being loaded has been loaded. -/
  ready : ∀ {v}, (s.key v).dev ≠ 0#16 → s.lock v = false → s.loaded v = some (s.key v)
  locked : ∀ {v}, s.lock v = true → ∃ t k, (s.pc t).loading = some (v, k)
  loading : ∀ {t v k}, (s.pc t).loading = some (v, k) →
    s.key v = k ∧ s.lock v = true ∧ k.dev ≠ 0#16 ∧ (s.slot v).iCount.toNat = 1
  unique : ∀ {a b}, s.key a = s.key b → (s.key a).dev ≠ 0#16 → a = b
  victim : ∀ {t v k}, (s.pc t).victim = some (v, k) → (s.slot v).iCount = 0#8 ∧ k.dev ≠ 0#16 ∧ ∀ a, s.key a ≠ k
  apart : ∀ {t t' v v' k k'}, (s.pc t).victim = some (v, k) → (s.pc t').victim = some (v', k') →
    t ≠ t' → v ≠ v' ∧ k ≠ k'

variable {s s₁ s' : InodeTab nt} {t t' : Fin nt} {a b v : InodeRef} {k : InoKey}
  {m : MInode} {h : Fin nt → List (InodeRef × InoKey)} {l : List (InodeRef × InoKey)} {ok : Bool}

theorem refsOf_le (s : InodeTab nt) (t : Fin nt) (v : InodeRef) : s.refsOf t v ≤ s.refs v :=
  single_le_sum (f := fun t => s.refsOf t v) (fun _ _ => Nat.zero_le _) (mem_univ t)

theorem refsOf_add_le (s : InodeTab nt) (e : t' ≠ t) (v : InodeRef) :
    s.refsOf t v + s.refsOf t' v ≤ s.refs v := by
  have h : s.refsOf t' v ≤ ∑ x ∈ univ.erase t, s.refsOf x v :=
    single_le_sum (f := fun x => s.refsOf x v) (fun _ _ => Nat.zero_le _)
      (mem_erase.mpr ⟨e, mem_univ t'⟩)
  unfold refs
  rw [← add_sum_erase _ _ (mem_univ t)]
  omega

theorem refsOf_pos (h : (v, k) ∈ s.holds t) : 1 ≤ s.refsOf t v := by
  have hm : v ∈ (s.holds t).map fst := mem_map_of_mem h
  have := count_pos_iff.mpr hm
  unfold refsOf
  omega

/-- A slot with `i_count` 0 is nobody's. -/
theorem TabInv.unheld (i : TabInv s) (h : (s.slot v).iCount = 0#8) (t : Fin nt) :
    s.refsOf t v = 0 ∧ (∀ k, (v, k) ∉ s.holds t) ∧ (∀ k, (s.pc t).loading ≠ some (v, k)) ∧ s.lock v = false := by
  have h₀ : s.refs v = 0 := by rw [← i.counted, h]; rfl
  have hload : ∀ t k, (s.pc t).loading ≠ some (v, k) := fun t k hl => by
    have := (i.loading hl).2.2.2
    rw [h] at this
    cases this
  refine ⟨Nat.le_zero.mp (h₀ ▸ s.refsOf_le t v), fun k hk => ?_, hload t, ?_⟩
  · have := refsOf_pos hk
    have := s.refsOf_le t v
    omega
  · by_contra hl
    obtain ⟨t', k, hl'⟩ := i.locked (by simpa using hl)
    exact hload t' k hl'

/-- What has changed from `s` to `s'`: the slot `v`, and the task `t`. -/
structure Upd (s s' : InodeTab nt) (t : Fin nt) (v : InodeRef) : Prop where
  other : ∀ t', t' ≠ t → s'.pc t' = s.pc t' ∧ s'.holds t' = s.holds t'
  key : ∀ a, a ≠ v → s'.key a = s.key a
  count : ∀ a, a ≠ v → (s'.slot a).iCount = (s.slot a).iCount
  lock : ∀ a, a ≠ v → s'.lock a = s.lock a
  loaded : ∀ a, a ≠ v → s'.loaded a = s.loaded a

theorem Upd.refs (u : Upd s s' t v) (a : InodeRef) :
    s'.refs a + s.refsOf t a = s.refs a + s'.refsOf t a := by
  have h : ∀ t' ∈ univ.erase t, s'.refsOf t' a = s.refsOf t' a := fun t' ht' => by
    unfold refsOf
    rw [(u.other t' (ne_of_mem_erase ht')).1, (u.other t' (ne_of_mem_erase ht')).2]
  unfold InodeTab.refs
  rw [← add_sum_erase _ _ (mem_univ t), ← add_sum_erase _ _ (mem_univ t),
    sum_congr rfl h]
  omega

/-- A step at one slot keeps the invariant if the slot and the task after it are in order. -/
theorem TabInv.update (i : TabInv s) (u : Upd s s' t v)
    (hcount : ∀ a, (s'.slot a).iCount.toNat + s.refsOf t a = (s.slot a).iCount.toNat + s'.refsOf t a)
    (hown : ∀ a k, (a, k) ∈ s'.holds t → s'.key a = k ∧ s'.lock a = false)
    (hothers : ∀ t' k, t' ≠ t → (v, k) ∈ s.holds t' → s'.key v = k ∧ s'.lock v = false)
    (hready : (s'.key v).dev ≠ 0#16 → s'.lock v = false → s'.loaded v = some (s'.key v))
    (hlocked : s'.lock v = true → ∃ t k, (s'.pc t).loading = some (v, k))
    (hwas : ∀ a k, (s.pc t).loading = some (a, k) → a = v)
    (hloading : ∀ a k, (s'.pc t).loading = some (a, k) →
      a = v ∧ s'.key v = k ∧ s'.lock v = true ∧ k.dev ≠ 0#16 ∧ (s'.slot v).iCount.toNat = 1)
    (hload : ∀ t' k, t' ≠ t → (s.pc t').loading = some (v, k) →
      s'.key v = k ∧ s'.lock v = true ∧ (s'.slot v).iCount.toNat = 1)
    (hunique : (s'.key v).dev ≠ 0#16 → ∀ a, a ≠ v → s.key a ≠ s'.key v)
    (hvictim : ∀ a k, (s'.pc t).victim = some (a, k) → (s'.slot a).iCount = 0#8 ∧ k.dev ≠ 0#16 ∧ (∀ b, s'.key b ≠ k) ∧
        ∀ t' a' k', t' ≠ t → (s.pc t').victim = some (a', k') → a ≠ a' ∧ k ≠ k')
    (hvictims : ∀ t' a k, t' ≠ t → (s.pc t').victim = some (a, k) →
      (a = v → (s'.slot v).iCount = 0#8) ∧ s'.key v ≠ k) : TabInv s' where
  counted a := by
    have h₁ := u.refs a
    have h₂ := hcount a
    have h₃ := i.counted a
    omega
  owner {t' a k} h := by
    by_cases e : t' = t
    · subst e
      exact hown a k h
    rw [(u.other t' e).2] at h
    by_cases ea : a = v
    · subst ea
      exact hothers t' k e h
    · rw [u.key a ea, u.lock a ea]
      exact i.owner h
  ready {a} hd hl := by
    by_cases ea : a = v
    · subst ea
      exact hready hd hl
    rw [u.key a ea] at hd ⊢
    rw [u.lock a ea] at hl
    rw [u.loaded a ea]
    exact i.ready hd hl
  locked {a} hl := by
    by_cases ea : a = v
    · subst ea
      exact hlocked hl
    rw [u.lock a ea] at hl
    obtain ⟨t', k, h⟩ := i.locked hl
    have e : t' ≠ t := fun e => ea (hwas a k (e ▸ h))
    exact ⟨t', k, by rw [(u.other t' e).1, h]⟩
  loading {t' a k} h := by
    by_cases e : t' = t
    · subst e
      obtain ⟨rfl, h⟩ := hloading a k h
      exact h
    rw [(u.other t' e).1] at h
    by_cases ea : a = v
    · subst ea
      obtain ⟨h₁, h₂, h₃⟩ := hload t' k e h
      exact ⟨h₁, h₂, (i.loading h).2.2.1, h₃⟩
    · rw [u.key a ea, u.lock a ea, u.count a ea]
      exact i.loading h
  unique {a b} e hd := by
    by_cases ea : a = v <;> by_cases eb : b = v
    · rw [ea, eb]
    · rw [ea] at e hd
      rw [u.key b eb] at e
      exact absurd e.symm (hunique hd b eb)
    · rw [eb, u.key a ea] at e
      rw [u.key a ea, e] at hd
      exact absurd e (hunique hd a ea)
    · rw [u.key a ea, u.key b eb] at e
      rw [u.key a ea] at hd
      exact i.unique e hd
  victim {t' a k} h := by
    by_cases e : t' = t
    · subst e
      obtain ⟨h₁, h₂, h₃, -⟩ := hvictim a k h
      exact ⟨h₁, h₂, h₃⟩
    rw [(u.other t' e).1] at h
    obtain ⟨h₁, h₂, h₃⟩ := i.victim h
    obtain ⟨h₄, h₅⟩ := hvictims t' a k e h
    refine ⟨?_, h₂, fun b => ?_⟩
    · by_cases ea : a = v
      · rw [ea]
        exact h₄ ea
      · rw [u.count a ea, h₁]
    · by_cases eb : b = v
      · rw [eb]
        exact h₅
      · rw [u.key b eb]
        exact h₃ b
  apart {t₁ t₂ a a' k k'} h₁ h₂ e := by
    by_cases e₁ : t₁ = t <;> by_cases e₂ : t₂ = t
    · exact absurd (e₁.trans e₂.symm) e
    · rw [e₁] at h₁
      rw [(u.other t₂ e₂).1] at h₂
      exact (hvictim a k h₁).2.2.2 t₂ a' k' e₂ h₂
    · rw [e₂] at h₂
      rw [(u.other t₁ e₁).1] at h₁
      obtain ⟨h₃, h₄⟩ := (hvictim a' k' h₂).2.2.2 t₁ a k e₁ h₁
      exact ⟨fun e => h₃ e.symm, fun e => h₄ e.symm⟩
    · rw [(u.other t₁ e₁).1] at h₁
      rw [(u.other t₂ e₂).1] at h₂
      exact i.apart h₁ h₂ e

/-! ### Steps -/

theorem IPc.uses_eq (p : IPc) (v : InodeRef) : p.uses v = p.loading.elim 0 fun x => if x.1 = v then 1 else 0 := by
  cases p <;> rfl

theorem IPc.uses_of_loading {p : IPc} (h : p.loading = none) (v : InodeRef) : p.uses v = 0 := by
  rw [uses_eq, h]
  rfl

/-- The table is as it was, and the task neither was nor is loading an inode. -/
theorem TabInv.rest (i : TabInv s) (hk : s'.key = s.key)
    (hc : ∀ a, (s'.slot a).iCount = (s.slot a).iCount) (hl : s'.lock = s.lock)
    (hlo : s'.loaded = s.loaded) (other : ∀ t', t' ≠ t → s'.pc t' = s.pc t')
    (hh : s'.holds = s.holds) (h₁ : (s.pc t).loading = none) (h₂ : (s'.pc t).loading = none)
    (hvictim : ∀ a k, (s'.pc t).victim = some (a, k) → (s.slot a).iCount = 0#8 ∧ k.dev ≠ 0#16 ∧ (∀ b, s.key b ≠ k) ∧
        ∀ t' a' k', t' ≠ t → (s.pc t').victim = some (a', k') → a ≠ a' ∧ k ≠ k') : TabInv s' := by
  have hr : ∀ a, s'.refsOf t a = s.refsOf t a := fun a => by
    unfold refsOf
    rw [hh, IPc.uses_of_loading h₁, IPc.uses_of_loading h₂]
  refine i.update (v := 0) ⟨fun t' e => ⟨other t' e, by rw [hh]⟩, fun a _ => by rw [hk],
      fun a _ => hc a, fun a _ => by rw [hl], fun a _ => by rw [hlo]⟩
    (fun a => by rw [hc, hr]) (fun a k h => ?_) (fun t' k _ h => ?_) (fun hd h => ?_) (fun h => ?_)
    (fun a k h => by rw [h₁] at h; cases h) (fun a k h => by rw [h₂] at h; cases h)
    (fun t' k _ h => ?_) (fun hd a e he => ?_) (fun a k h => ?_) fun t' a k _ h => ?_
  · rw [hk, hl]
    rw [hh] at h
    exact i.owner h
  · rw [hk, hl]
    exact i.owner h
  · rw [hk] at hd ⊢
    rw [hl] at h
    rw [hlo]
    exact i.ready hd h
  · rw [hl] at h
    obtain ⟨t', k, h'⟩ := i.locked h
    have e : t' ≠ t := fun e => by rw [e, h₁] at h'; cases h'
    exact ⟨t', k, by rw [other t' e, h']⟩
  · obtain ⟨h₁, h₂, -, h₃⟩ := i.loading h
    exact ⟨by rw [hk, h₁], by rw [hl, h₂], by rw [hc, h₃]⟩
  · rw [hk] at hd he
    exact e (i.unique he (he ▸ hd))
  · rw [hc, hk]
    exact hvictim a k h
  · obtain ⟨h₁, -, h₃⟩ := i.victim h
    refine ⟨fun e => ?_, ?_⟩
    · rw [hc, ← e, h₁]
    · rw [hk]
      exact h₃ 0

/-- No task writes back a victim that has to do with `k`. -/
def Clear (s : InodeTab nt) (k : InoKey) : Prop :=
  ∀ t v k', (s.pc t).victim = some (v, k') → k ≠ k' ∧ k ≠ s.key v

/-- The next free slot is no victim. -/
def ClearSlot (s : InodeTab nt) : Prop :=
  ∀ t v k', (s.pc t).victim = some (v, k') → s.freeSlot ≠ some v

theorem freeSlot_some (h : s.freeSlot = some v) : (s.slot v).iCount = 0#8 := by
  have := find?_some h
  exact of_decide_eq_true this

theorem setSlot_key (m : MInode) (a : InodeRef) :
    (s.setSlot v m).key a = if a = v then m.key else s.key a := by
  by_cases e : a = v
  · subst e
    simp [key, setSlot]
  · simp [key, setSlot, e]

theorem setSlot_keys (hk : m.key = s.key v) : (s.setSlot v m).key = s.key := by
  funext a
  rw [setSlot_key]
  split
  · next e => rw [hk, e]
  · rfl

/-- The references of the tasks that hold inodes, and of those that load one. -/
theorem refs_eq (s : InodeTab nt) (v : InodeRef) :
    s.refs v = total s.holds (fun l => (l.map fst).count v) + total s.pc (fun p => p.uses v) := by
  unfold refs refsOf total
  exact sum_add_distrib

/-- **References are handed around, and counted.** -/
theorem TabInv.recount (i : TabInv s) (hk : s'.key = s.key) (hl : s'.lock = s.lock) (hld : s'.loaded = s.loaded)
    (hload : ∀ t, (s'.pc t).loading = (s.pc t).loading)
    (hvictim : ∀ {t x}, (s'.pc t).victim = some x → (s.pc t).victim = some x)
    (hheld : ∀ t v k, (v, k) ∈ s'.holds t → s.key v = k ∧ s.lock v = false)
    (hsame : ∀ v, (s'.slot v).iCount ≠ (s.slot v).iCount → s.lock v = false ∧ ∀ t k, (s.pc t).victim ≠ some (v, k))
    (hcount : ∀ v, (s'.slot v).iCount.toNat + total s.holds (fun l => (l.map fst).count v) =
      (s.slot v).iCount.toNat + total s'.holds (fun l => (l.map fst).count v)) : TabInv s' where
  counted v := by
    have h₁ := i.counted v
    have h₂ := hcount v
    have h₃ : total s'.pc (fun p => p.uses v) = total s.pc fun p => p.uses v :=
      total_congr fun t => by rw [IPc.uses_eq, IPc.uses_eq, hload]
    rw [refs_eq] at h₁ ⊢
    omega
  owner {t v k} h := by
    rw [hk, hl]
    exact hheld t v k h
  ready hd h := by
    rw [hk, hl, hld] at *
    exact i.ready hd h
  locked h := by
    rw [hl] at h
    obtain ⟨t, k, h'⟩ := i.locked h
    exact ⟨t, k, (hload t).trans h'⟩
  loading {t v k} h := by
    rw [hload] at h
    obtain ⟨h₁, h₂, h₃, h₄⟩ := i.loading h
    have hc : (s'.slot v).iCount = (s.slot v).iCount := by
      by_contra hne
      exact Bool.false_ne_true ((hsame v hne).1.symm.trans h₂)
    rw [hk, hl, hc]
    exact ⟨h₁, h₂, h₃, h₄⟩
  unique := by
    rw [hk]
    exact i.unique
  victim {t v k} h := by
    have hc : (s'.slot v).iCount = (s.slot v).iCount := by
      by_contra hne
      exact (hsame v hne).2 t k (hvictim h)
    rw [hk, hc]
    exact i.victim (hvictim h)
  apart h h' := i.apart (hvictim h) (hvictim h')

/-- **The count of a slot that is held changes with the holders.** -/
theorem TabInv.recount_slot (i : TabInv s)
    (hv : (v, k) ∈ s.holds t) (hk : m.key = s.key v)
    (hheld : ∀ t w k', (w, k') ∈ h t → s.key w = k' ∧ s.lock w = false)
    (hother : ∀ w, w ≠ v → total h (fun l => (l.map fst).count w) =
      total s.holds (fun l => (l.map fst).count w))
    (hcount : m.iCount.toNat + total s.holds (fun l => (l.map fst).count v) =
      (s.slot v).iCount.toNat + total h (fun l => (l.map fst).count v)) :
    TabInv { s.setSlot v m with holds := h } := by
  refine i.recount (setSlot_keys hk) rfl rfl (fun _ => rfl) id hheld (fun w hw => ?_) fun w => ?_
  · by_cases e : w = v
    · subst e
      exact ⟨(i.owner hv).2, fun t' k' h' => (i.unheld (i.victim h').1 t).2.1 k hv⟩
    · exact absurd (congrArg MInode.iCount (update_of_ne e _ _)) hw
  show ((Function.update s.slot v m) w).iCount.toNat + _ = _
  by_cases e : w = v
  · subst e
    rw [update_self]
    exact hcount
  · rw [update_of_ne e]
    rw [hother w e]

/-- The same when one holder's references change. -/
theorem TabInv.recount_update (i : TabInv s)
    (hv : (v, k) ∈ s.holds t') (hk : m.key = s.key v) (hl : ∀ p ∈ l, p ∈ s.holds t ∨ p = (v, k))
    (hother : ∀ w, w ≠ v → (l.map fst).count w = ((s.holds t).map fst).count w)
    (hcount : m.iCount.toNat + ((s.holds t).map fst).count v =
      (s.slot v).iCount.toNat + (l.map fst).count v) :
    TabInv { s.setSlot v m with holds := Function.update s.holds t l } := by
  have htotal := fun w => total_update s.holds (fun l => (l.map fst).count w) t l
  refine i.recount_slot hv hk (fun z w k' h => ?_) (fun w e => ?_) ?_
  · rcases of_mem_update h with h | h
    · rcases hl _ h with h | h
      · exact i.owner h
      · exact i.owner (h ▸ hv)
    · exact i.owner h
  · have h₁ := htotal w
    have h₂ := hother w e
    omega
  · have h₁ := htotal v
    omega

/-- A reference to a loaded inode is handed out. -/
theorem TabInv.hold (i : TabInv s) (hr : (s.pc t).loading = none) (hk : s.key v = k)
    (hl : s.lock v = false) (hcl : s.Clear k) (hfull : (s.slot v).iCount ≠ 255#8) :
    TabInv ((s.setSlot v { s.slot v with iCount := (s.slot v).iCount + 1#8 }).give t v k) := by
  refine i.recount (setSlot_keys rfl) rfl rfl (fun t' => ?_) (fun {t' x} h => ?_) (fun t' a k' h => ?_) (fun a ha => ?_)
    fun a => ?_
  · show (Function.update s.pc t .idle t').loading = _
    by_cases e : t' = t
    · rw [e, update_self, hr]
      rfl
    · rw [update_of_ne e]
  · change (Function.update s.pc t .idle t').victim = some x at h
    by_cases e : t' = t
    · rw [e, update_self] at h
      cases h
    · rwa [update_of_ne e] at h
  · rcases of_mem_update h with h | h
    · rcases mem_cons.mp h with e | h
      · obtain ⟨rfl, rfl⟩ := Prod.mk.inj e
        exact ⟨hk, hl⟩
      · exact i.owner h
    · exact i.owner h
  · by_cases e : a = v
    · exact ⟨e ▸ hl, fun t' k' h => (hcl t' a k' h).2 (e ▸ hk.symm)⟩
    · exact absurd (congrArg MInode.iCount (update_of_ne e _ _)) ha
  · have htotal := total_update s.holds (fun l => (l.map fst).count a) t ((v, k) :: s.holds t)
    simp only [List.map_cons, List.count_cons, beq_iff_eq] at htotal
    show ((Function.update s.slot v _) a).iCount.toNat + _ =
      _ + total (Function.update s.holds t ((v, k) :: s.holds t)) _
    by_cases e : a = v
    · subst e
      rw [update_self, Bits.toNat_succ hfull]
      rw [if_pos rfl] at htotal
      omega
    · rw [update_of_ne e]
      rw [if_neg (Ne.symm e)] at htotal
      omega

/-- What becomes of a slot that only the task `t` refers to. -/
inductive Fate (s : InodeTab nt) (t : Fin nt) (v : InodeRef) (m : MInode) :
    Bool → Option InoKey → IPc → List (InodeRef × InoKey) → Prop where
  | loading {y} (hd : m.iDev ≠ 0#16) (hc : m.iCount = 1#8) :
      Fate s t v m true y (.load v m.key) (s.holds t)
  | given {y} (hy : m.iDev ≠ 0#16 → y = some m.key) (hc : m.iCount = 1#8) :
      Fate s t v m false y .idle ((v, m.key) :: s.holds t)
  | freed {y} (hd : m.iDev = 0#16) (hc : m.iCount = 0#8) :
      Fate s t v m false y .idle (s.holds t)

/-- **A slot that only the task refers to gets another inode**, one that no other slot has. -/
theorem TabInv.settle {x : Bool} {y : Option InoKey} {p : IPc}
    (i : TabInv s)
    (hwas : ∀ a k, (s.pc t).loading = some (a, k) → a = v)
    (hold : ∀ t' k, (v, k) ∉ s.holds t') (hload : ∀ t' k, t' ≠ t → (s.pc t').loading ≠ some (v, k))
    (hrefs : (s.slot v).iCount.toNat = s.refsOf t v)
    (hk : m.iDev ≠ 0#16 → ∀ a, a ≠ v → s.key a ≠ m.key)
    (hcl : ∀ t' v' k, t' ≠ t → (s.pc t').victim = some (v', k) → v ≠ v' ∧ m.key ≠ k)
    (hf : Fate s t v m x y p l)
    (hs' : s' = { s with
      slot := Function.update s.slot v m, lock := Function.update s.lock v x
      loaded := Function.update s.loaded v y, pc := Function.update s.pc t p
      holds := Function.update s.holds t l }) : TabInv s' := by
  have hoff : ∀ {a}, a ≠ v → s'.slot a = s.slot a ∧ s'.lock a = s.lock a ∧ s'.loaded a = s.loaded a :=
    fun e => by
      rw [hs']
      exact ⟨update_of_ne e _ _, update_of_ne e _ _, update_of_ne e _ _⟩
  have hself : s'.slot v = m ∧ s'.lock v = x ∧ s'.loaded v = y := by
    rw [hs']
    exact ⟨update_self _ _ _, update_self _ _ _, update_self _ _ _⟩
  have hkey : s'.key v = m.key := by
    unfold key
    rw [hself.1]
  have hpc : s'.pc t = p ∧ s'.holds t = l := by
    rw [hs']
    exact ⟨update_self _ _ _, update_self _ _ _⟩
  have hnone : ((s.holds t).map fst).count v = 0 := by
    refine count_eq_zero.mpr fun h => ?_
    obtain ⟨⟨a, k⟩, hm, e⟩ := mem_map.mp h
    obtain rfl : a = v := e
    exact hold t k hm
  have huses : ∀ a, a ≠ v → (s.pc t).uses a = 0 := fun a e => by
    cases hq : s.pc t with
    | load v' k' =>
      have := hwas v' k' (by rw [hq]; rfl)
      exact if_neg fun e' => e (e'.symm.trans this)
    | idle | wait | write => rfl
  have hvic : p.victim = none := by cases hf <;> rfl
  have hheld : ∀ {a k}, (a, k) ∈ s.holds t → s'.key a = k ∧ s'.lock a = false := fun {a k} h => by
    have e : a ≠ v := fun e => hold t k (e ▸ h)
    unfold key
    rw [(hoff e).1, (hoff e).2.1]
    exact i.owner h
  refine i.update ⟨fun t' e => ?_, fun a e => ?_, fun a e => ?_,
      fun a e => (hoff e).2.1, fun a e => (hoff e).2.2⟩
    (fun a => ?_) (fun a k h => ?_) (fun t' k _ h => absurd h (hold t' k)) (fun h₁ h₂ => ?_)
    (fun h => ⟨t, m.key, ?_⟩) hwas (fun a k h => ?_) (fun t' k e h => absurd h (hload t' k e))
    (fun h a e => ?_) (fun a k h => ?_) fun t' a k e h => ?_
  · rw [hs']
    exact ⟨update_of_ne e _ _, update_of_ne e _ _⟩
  · unfold key
    rw [(hoff e).1]
  · rw [(hoff e).1]
  · unfold refsOf at hrefs ⊢
    rw [hpc.1, hpc.2]
    by_cases e : a = v
    · subst e
      rw [hself.1, hrefs, hnone]
      cases hf with
      | loading _ hc => rw [hc, hnone]; simp [IPc.uses]; omega
      | given _ hc => rw [hc]; simp [IPc.uses, hnone]; omega
      | freed _ hc => rw [hc, hnone]; simp [IPc.uses]
    · rw [(hoff e).1, huses a e]
      cases hf with
      | loading => simp [IPc.uses, Ne.symm e]
      | given => simp [IPc.uses, Ne.symm e]
      | freed => simp [IPc.uses]
  · rw [hpc.2] at h
    cases hf with
    | loading | freed => exact hheld h
    | given =>
      rcases mem_cons.mp h with e | h
      · obtain ⟨rfl, rfl⟩ := Prod.mk.inj e
        exact ⟨hkey, hself.2.1⟩
      · exact hheld h
  · rw [hkey] at h₁ ⊢
    rw [hself.2.1] at h₂
    rw [hself.2.2]
    cases hf with
    | loading => cases h₂
    | given hy => exact hy h₁
    | freed hd => exact absurd hd h₁
  · rw [hself.2.1] at h
    rw [hpc.1]
    cases hf with
    | loading => rfl
    | given | freed => cases h
  · rw [hpc.1] at h
    rw [hkey, hself.1, hself.2.1]
    cases hf with
    | loading hd hc =>
      obtain ⟨rfl, rfl⟩ : v = a ∧ m.key = k := by simpa [IPc.loading] using h
      exact ⟨rfl, rfl, rfl, hd, by rw [hc]; rfl⟩
    | given | freed => cases h
  · rw [hkey] at h ⊢
    exact hk h a e
  · rw [hpc.1, hvic] at h
    cases h
  · obtain ⟨h₁, h₂⟩ := hcl t' a k e h
    rw [hkey]
    exact ⟨fun e => absurd e.symm h₁, h₂⟩

/-- **A free slot is claimed**, for an inode that no slot has. -/
theorem TabInv.claim (i : TabInv s) (hr : (s.pc t).loading = none) (hz : (s.slot v).iCount = 0#8)
    (hd : k.dev ≠ 0#16) (hk : ∀ a, s.key a ≠ k)
    (hcl : ∀ t' v' k', t' ≠ t → (s.pc t').victim = some (v', k') → v ≠ v' ∧ k ≠ k') :
    TabInv (s.claim t v k) := by
  have hfree := i.unheld hz
  have hrefs : (s.slot v).iCount.toNat = s.refsOf t v := by rw [hz, (hfree t).1]; rfl
  have hwas : ∀ a k, (s.pc t).loading = some (a, k) → a = v := fun a k h => by rw [hr] at h; cases h
  unfold InodeTab.claim
  simp only [if_neg hd]
  split
  · refine i.settle (m := { s.slot v with
        iCount := 1#8, iDev := k.dev, iNum := k.num, iDirt := false, iPipe := false })
      hwas (fun t' => (hfree t').2.1) (fun t' k' _ => (hfree t').2.2.1 k') hrefs
      (fun _ a _ => hk a) hcl (.loading (y := s.loaded v) hd rfl) ?_
    simp [setSlot, setPc, MInode.key]
  · refine i.settle (m := { s.slot v with
        iCount := 0#8, iDev := 0#16, iNum := k.num, iDirt := false, iPipe := false })
      hwas (fun t' => (hfree t').2.1) (fun t' k' _ => (hfree t').2.2.1 k') hrefs
      (fun h => absurd rfl h) (fun t' v' k' e h => ⟨(hcl t' v' k' e h).1, fun e' => ?_⟩)
      (.freed (y := s.loaded v) rfl rfl) ?_
    · exact (i.victim h).2.1 (by rw [← e']; rfl)
    · simp [setSlot, setPc]

theorem InoKey.place_self (k : InoKey) : k.place k = k := by
  obtain ⟨dev, num⟩ := k
  simp only [InoKey.place, InoKey.mk.injEq, true_and]
  generalize hn : num - 1#32 = n
  have h : n / 32#32 * 32#32 + n % 32#32 = n := by
    apply eq_of_toNat_eq
    simp only [toNat_add, toNat_mul, toNat_udiv, toNat_umod,
      toNat_ofNat, Nat.reducePow, Nat.reduceMod]
    omega
  rw [h, ← hn, sub_add_cancel]

section
variable (i : TabInv s)
include i

/-- **The inode has been loaded**, or could not be. -/
theorem TabInv.endLoad (hp : s.pc t = .load v k) :
    TabInv (s.endLoad t v k ok) := by
  obtain ⟨hk, hl, hd, hc⟩ := i.loading (by rw [hp]; rfl)
  have hplace : k.place (s.slot v).key = k := by
    rw [show (s.slot v).key = k from hk, InoKey.place_self]
  have huse : ∀ a, s.refsOf t a = ((s.holds t).map fst).count a + if v = a then 1 else 0 :=
    fun a => by
      unfold refsOf
      rw [hp]
      rfl
  have hone : s.refs v = 1 := by rw [← i.counted, hc]
  have hother : ∀ t' k', t' ≠ t → (v, k') ∉ s.holds t' := fun t' k' e h => by
    have h₁ := refsOf_pos h
    have h₂ := s.refsOf_add_le e v
    have h₃ := huse v
    rw [if_pos rfl] at h₃
    omega
  have hself : ∀ k', (v, k') ∉ s.holds t := fun k' h => by
    have h₁ := i.owner h
    rw [hl] at h₁
    cases h₁.2
  have hload : ∀ t' k', t' ≠ t → (s.pc t').loading ≠ some (v, k') := fun t' k' e h => by
    have h₁ : 1 ≤ s.refsOf t' v := by
      unfold refsOf
      cases hq : s.pc t' with
      | load v' k'' =>
        rw [hq] at h
        obtain ⟨rfl, -⟩ : v' = v ∧ k'' = k' := by simpa [IPc.loading] using h
        simp [IPc.uses]
      | idle | wait | write => rw [hq] at h; cases h
    have h₂ := s.refsOf_add_le e v
    have h₃ := huse v
    rw [if_pos rfl] at h₃
    omega
  have hvic : ∀ t' k', (s.pc t').victim ≠ some (v, k') := fun t' k' h => by
    have := (i.victim h).1
    rw [this] at hc
    cases hc
  have hdev : (s.slot v).iDev = k.dev := congrArg InoKey.dev hk
  have hwas : ∀ a k', (s.pc t).loading = some (a, k') → a = v := fun a k' h => by
    rw [hp] at h
    exact (Prod.mk.inj (Option.some.inj h)).1.symm
  have hold : ∀ t' k', (v, k') ∉ s.holds t' := fun t' k' => by
    by_cases e : t' = t
    · rw [e]
      exact hself k'
    · exact hother t' k' e
  have hrefs : (s.slot v).iCount.toNat = s.refsOf t v := by
    have h₁ := s.refsOf_le t v
    have h₃ := huse v
    rw [if_pos rfl] at h₃
    omega
  have hcount : (s.slot v).iCount = 1#8 := eq_of_toNat_eq hc
  unfold InodeTab.endLoad
  cases ok with
  | true =>
    simp only [if_true, hplace]
    rw [if_neg (by simp [setSlot, MInode.setBody, hdev])]
    refine i.settle (m := (s.slot v).setBody (s.disk k)) hwas hold hload hrefs (fun _ a e he => ?_)
      (fun t' v' k' _ h => ⟨fun e => hvic t' k' (e ▸ h), fun e => (i.victim h).2.2 v ?_⟩)
      (.given (y := some k) (fun _ => ?_) hcount) ?_
    · have he' : s.key a = s.key v := he
      exact e (i.unique he' (by rw [he', hk]; exact hd))
    · exact e
    · exact congrArg some hk.symm
    · have hk' : ((s.slot v).setBody (s.disk k)).key = k := hk
      rw [hk']
      rfl
  | false =>
    rw [if_pos (by simp [setSlot]; exact fun e => hd e.symm)]
    refine i.settle (m := { s.slot v with iDev := 0#16, iCount := 0#8 }) hwas hold hload hrefs
      (fun h => absurd rfl h)
      (fun t' v' k' _ h => ⟨fun e => hvic t' k' (e ▸ h), fun e => (i.victim h).2.1 (by rw [← e]; rfl)⟩)
      (.freed (y := s.loaded v) rfl rfl) ?_
    simp [setSlot, setPc]

theorem TabInv.getEmptyInode (hr : (s.pc t).loading = none) (hcl : s.ClearSlot)
    : TabInv (s.getEmptyInode t) := by
  unfold InodeTab.getEmptyInode
  cases hf : s.freeSlot with
  | none => exact i
  | some v =>
    have hz := freeSlot_some hf
    have hfree := i.unheld hz
    refine i.settle (m := { s.slot v with
        iCount := 1#8, iDev := 0#16, iNum := 0#32, iDirt := false, iPipe := false, iNlinks := 0#8
        iSize := 0#32 })
      (fun a k h => by rw [hr] at h; cases h) (fun t' => (hfree t').2.1)
      (fun t' k' _ => (hfree t').2.2.1 k') (by rw [hz, (hfree t).1]; rfl) (fun h => absurd rfl h)
      (fun t' v' k' _ h => ⟨fun e => hcl t' v' k' h (by rw [hf, e]), fun e => ?_⟩)
      (.given (y := s.loaded v) (fun h => absurd rfl h) rfl) ?_
    · exact (i.victim h).2.1 (by rw [← e]; rfl)
    · simp [setSlot, give, MInode.key]

omit i in
/-- A reference that goes from one holder to another counts as before. -/
theorem total_handed (hv : (v, k) ∈ h t) (hne : t' ≠ t) (hnone : h t' = [])
    (w : InodeRef) : total (update (update h t ((h t).erase (v, k))) t' [(v, k)])
      (fun l => (l.map fst).count w) = total h fun l => (l.map fst).count w := by
  have h₁ := total_update h (fun l => (l.map fst).count w) t ((h t).erase (v, k))
  have h₂ := total_update (update h t ((h t).erase (v, k)))
    (fun l => (l.map fst).count w) t' [(v, k)]
  rw [update_of_ne hne, hnone] at h₂
  have h₃ := count_map_erase fst hv w
  simp only [List.map_nil, List.count_nil, List.map_cons, List.count_singleton, beq_iff_eq] at h₁ h₂ h₃
  omega

theorem TabInv.handed {t₁ t₂ : Fin nt} {x : InodeRef × InoKey} (hv : (v, k) ∈ s.holds t)
    (h : x ∈ Function.update (Function.update s.holds t ((s.holds t).erase (v, k))) t₁ [(v, k)] t₂) :
    s.key x.1 = x.2 ∧ s.lock x.1 = false := by
  rcases of_mem_update h with h | h
  · exact i.owner ((List.mem_singleton.mp h).symm ▸ hv)
  rcases of_mem_update h with h | h
  · exact i.owner (mem_of_mem_erase h)
  · exact i.owner h

omit i in
/-- `iput()` changes one slot, and its count by one. -/
theorem iput_eq (s : InodeTab nt) (v : InodeRef) : ∃ m : MInode, s.iput v = s.setSlot v m ∧
    m.key = s.key v ∧ m.iCount = (s.slot v).iCount - 1#8 := by
  by_cases hc : (s.slot v).iPipe = true ∧ (s.slot v).iCount - 1#8 = 0#8
  · exact ⟨_, if_pos hc, rfl, rfl⟩
  · exact ⟨_, if_neg hc, rfl, rfl⟩

/-- **`iput`.** -/
theorem TabInv.iput (hv : (v, k) ∈ s.holds t) :
    TabInv { s.iput v with holds := Function.update s.holds t ((s.holds t).erase (v, k)) } := by
  obtain ⟨m, hs, hmk, hmc⟩ := s.iput_eq v
  have hpos : 1 ≤ (s.slot v).iCount.toNat := by
    rw [i.counted]
    exact le_trans (refsOf_pos hv) (s.refsOf_le t v)
  have herase := count_map_erase fst hv
  rw [hs]
  refine i.recount_update hv hmk (fun x h => .inl (mem_of_mem_erase h)) (fun w e => ?_) ?_
  · rw [herase w, if_neg (Ne.symm e), Nat.add_zero]
  · rw [herase v, if_pos rfl, hmc]
    have := Bits.toNat_pred hpos
    omega

/-! ### Calls -/

theorem TabInv.idle {p : IPc} (hr : (s.pc t).loading = none) (hl : p.loading = none) (hv : p.victim = none) :
    TabInv (s.setPc t p) := by
  have hp : (s.setPc t p).pc t = p := update_self ..
  refine i.rest rfl (fun _ => rfl) rfl rfl (fun t' e => update_of_ne e _ _) rfl hr (by rw [hp, hl]) fun a k h => ?_
  rw [hp, hv] at h
  cases h

/-- The second loop of `iget`. -/
theorem TabInv.igetMiss (hr : (s.pc t).loading = none) (hd : k.dev ≠ 0#16)
    (hk : ∀ a, s.key a ≠ k) (hcl : s.Clear k) (hslot : s.ClearSlot) : TabInv (s.igetMiss t k) := by
  unfold InodeTab.igetMiss
  have hapart : ∀ {v}, s.freeSlot = some v → ∀ t' v' k', t' ≠ t → (s.pc t').victim = some (v', k') →
      v ≠ v' ∧ k ≠ k' := fun hf t' v' k' _ h =>
    ⟨fun e => hslot t' v' k' h (by rw [hf, e]), (hcl t' v' k' h).1⟩
  cases hf : s.freeSlot with
  | none =>
    exact i.idle hr rfl rfl
  | some v =>
    have hz := freeSlot_some hf
    simp only
    split
    · refine i.rest rfl (fun _ => rfl) rfl rfl (fun t' e => update_of_ne e _ _) rfl hr
        (by simp [setPc, IPc.loading]) fun a k' h => ?_
      obtain ⟨rfl, rfl⟩ : v = a ∧ k = k' := by simpa [setPc, IPc.victim] using h
      exact ⟨hz, hd, hk, hapart hf⟩
    · exact i.claim hr hz hd hk (hapart hf)

/-- The first loop of `iget`, when the inode is not in the slots it has passed. -/
theorem TabInv.igetScan {l : List InodeRef} (hr : (s.pc t).loading = none)
    (hd : k.dev ≠ 0#16) (hl : ∀ a, a ∉ l → s.key a ≠ k) (hcl : s.Clear k) (hslot : s.ClearSlot)
    (hfull : ∀ v, (s.slot v).iCount ≠ 255#8) : TabInv (s.igetScan t k l) := by
  unfold InodeTab.igetScan
  cases hf : l.find? fun v => (s.slot v).key = k with
  | none =>
    refine i.igetMiss hr hd (fun a => ?_) hcl hslot
    by_cases ha : a ∈ l
    · exact fun e => find?_eq_none.mp hf a ha (decide_eq_true e)
    · exact hl a ha
  | some v =>
    have hfound := find?_some hf
    have hk : s.key v = k := of_decide_eq_true hfound
    simp only
    split
    · exact i.idle hr rfl rfl
    · next hn => exact i.hold hr hk (by simpa using hn) hcl (hfull v)

theorem TabInv.syncScan {dev : BitVec 16} {l : List InodeRef}
    (hr : (s.pc t).loading = none) : TabInv (s.syncScan t dev l) := by
  unfold InodeTab.syncScan
  split
  · exact i.idle hr rfl rfl
  · exact i.idle hr rfl rfl

theorem TabInv.afterWrite {st : IStage} {c : IKont} (hp : s.pc t = .write v st c) :
    TabInv (s.afterWrite t v c) := by
  have hr : (s.pc t).loading = none := by rw [hp]; rfl
  cases c with
  | claim k =>
    have hv : (s.pc t).victim = some (v, k) := by rw [hp]; rfl
    obtain ⟨hz, hd, hk⟩ := i.victim hv
    exact i.claim hr hz hd hk fun t' v' k' e h => i.apart hv h e.symm
  | sync dev => exact i.syncScan hr

end

/-! ### Steps and runs -/

/-- The inode that the step looks for. -/
def seeks (s : InodeTab nt) (t : Fin nt) : InoOp → Option InoKey
  | .iget k =>
    match s.pc t with
    | .idle => some k
    | _ => none
  | .resume _ =>
    match s.pc t with
    | .wait _ k => some k
    | _ => none
  | _ => none

/-- **The condition on a step.** -/
structure Careful (s : InodeTab nt) (t : Fin nt) (op : InoOp) : Prop where
  /-- It looks for an inode of a device, and neither for the old nor for the new inode of a slot
  that is being written back for reuse. -/
  seeks : ∀ k, s.seeks t op = some k → k.dev ≠ 0#16 ∧ s.Clear k
  /-- It does not take the slot that is being written back. -/
  slot : (s.seeks t op).isSome ∨ op = .empty → s.ClearSlot
  /-- A waiter whose slot has another inode by now has not passed its own. -/
  waiter : ∀ ok v k, op = .resume ok → s.pc t = .wait v k → s.key v ≠ k → ∀ a, a ≤ v → s.key a ≠ k
  /-- No count wraps. -/
  full : ∀ v, (s.slot v).iCount ≠ 255#8

theorem mem_after {v a : InodeRef} : a ∈ after v ↔ v < a := by
  simp [after]

theorem setSlot_same (hk : m.key = s.key v) (hc : m.iCount = (s.slot v).iCount) :
    (s.setSlot v m).key = s.key ∧ ∀ a, ((s.setSlot v m).slot a).iCount = (s.slot a).iCount := by
  refine ⟨setSlot_keys hk, fun a => ?_⟩
  by_cases e : a = v
  · subst e
    simp [setSlot, hc]
  · simp [setSlot, e]

/-- The body and the dirty mark of a slot may change. -/
theorem TabInv.body (i : TabInv s) (hk : m.key = s.key v)
    (hc : m.iCount = (s.slot v).iCount) : TabInv (s.setSlot v m) := by
  obtain ⟨h₁, h₂⟩ := setSlot_same hk hc
  have hrefs : (s.setSlot v m).refs = s.refs := rfl
  refine ⟨fun a => by rw [h₂, hrefs, i.counted], fun h => by rw [h₁]; exact i.owner h, ?_, i.locked,
    fun h => by rw [h₁, h₂]; exact i.loading h, ?_, fun h => ?_, i.apart⟩
  · rw [h₁]; exact i.ready
  · rw [h₁]; exact i.unique
  · rw [h₁, h₂]; exact i.victim h

theorem TabInv.resume (i : TabInv s) (hc : s.Careful t (.resume ok)) :
    TabInv ((s.resume t ok).getD s) := by
  unfold InodeTab.resume
  cases hp : s.pc t with
  | idle => exact i
  | wait v k =>
    have hr : (s.pc t).loading = none := by rw [hp]; rfl
    have hseek : s.seeks t (.resume ok) = some k := by simp [seeks, hp]
    obtain ⟨hd, hcl⟩ := hc.seeks k hseek
    simp only
    split
    · exact i
    next hl =>
    split
    · next hk =>
      refine i.igetScan hr hd (fun a ha => ?_) hcl (hc.slot (.inl (by rw [hseek]; rfl))) hc.full
      exact hc.waiter ok v k rfl hp hk a (not_lt.mp fun h => ha (mem_after.mpr h))
    · next hk =>
      exact i.hold hr (not_not.mp hk) (by simpa using hl) hcl (hc.full v)
  | write v st c =>
    have hr : (s.pc t).loading = none := by rw [hp]; rfl
    cases st with
    | fetch k =>
      simp only
      split
      · refine i.rest rfl (fun _ => rfl) rfl rfl (fun t' e => update_of_ne e _ _)
          rfl hr (by simp [setPc, IPc.loading]) fun a k' h => ?_
        have hv : (s.pc t).victim = some (a, k') := by
          rw [hp]
          have h' : (IPc.write v (.put (k.place (s.slot v).key) (s.slot v).body) c).victim = some (a, k') := by
            simpa [setPc] using h
          cases c with
          | claim k₁ => exact h'
          | sync dev => cases h'
        obtain ⟨h₁, h₂, h₃⟩ := i.victim hv
        exact ⟨h₁, h₂, h₃, fun t' a' k'' e h' => i.apart hv h' e.symm⟩
      · exact i.afterWrite hp
    | put k d =>
      have i₁ : TabInv (if ok then { s with disk := Function.update s.disk k d } else s) := by
        split
        · exact ⟨i.counted, i.owner, i.ready, i.locked, i.loading, i.unique, i.victim, i.apart⟩
        · exact i
      have hp₁ : (if ok then { s with disk := Function.update s.disk k d } else s).pc t = .write v (.put k d) c := by
        split <;> exact hp
      exact (i₁.body (m := { slot (if ok then { s with disk := Function.update s.disk k d }
        else s) v with iDirt := false }) rfl rfl).afterWrite hp₁
  | load v k => exact i.endLoad hp

/-- **A careful step keeps the invariant.** -/
theorem TabInv.step {op : InoOp} (i : TabInv s) (hc : s.Careful t op) : TabInv (s.step t op) := by
  cases hp : s.pc t with
  | idle =>
    have hr : (s.pc t).loading = none := by rw [hp]; rfl
    cases op with
    | resume ok => exact i.resume hc
    | iget k =>
      have hseek : s.seeks t (.iget k) = some k := by simp [seeks, hp]
      obtain ⟨hd, hcl⟩ := hc.seeks k hseek
      simp only [InodeTab.step, hp]
      exact i.igetScan hr hd (fun a ha => absurd (mem_finRange a) ha) hcl
        (hc.slot (.inl (by rw [hseek]; rfl))) hc.full
    | iput v k =>
      simp only [InodeTab.step, hp]
      split
      · next hv => exact i.iput hv
      · exact i
    | empty =>
      simp only [InodeTab.step, hp]
      exact i.getEmptyInode hr (hc.slot (.inr rfl))
    | sync dev =>
      simp only [InodeTab.step, hp]
      exact i.syncScan hr
    | modify v k d =>
      simp only [InodeTab.step, hp]
      split
      · exact i.body rfl rfl
      · exact i
  | wait | write | load =>
    cases op with
    | resume ok => exact i.resume hc
    | iget | iput | empty | sync | modify =>
      simp only [InodeTab.step, hp]
      exact i

/-- Every step of the run is careful. -/
def CarefulRun : InodeTab nt → List (Fin nt × InoOp) → Prop
  | _, [] => True
  | s, x :: ops => s.Careful x.1 x.2 ∧ CarefulRun (s.step x.1 x.2) ops

theorem TabInv.run {ops : List (Fin nt × InoOp)} (i : TabInv s) (h : CarefulRun s ops) :
    TabInv (s.run ops) := by
  induction ops generalizing s with
  | nil => exact i
  | cons x ops ih => exact ih (i.step h.1) h.2

theorem tabInv_init (nt : ℕ) (super : BitVec 16 → Bool) (disk : InoKey → DInode) :
    TabInv (init nt super disk) where
  counted v := by simp [init, refs, refsOf, IPc.uses]
  owner h := by cases h
  ready hd := absurd rfl hd
  locked h := by cases h
  loading h := by cases h
  unique _ hd := absurd rfl hd
  victim h := by cases h
  apart h := by cases h

/-- **One copy of an inode.**  In every run of careful steps no two slots in use have one inode of
a device, whoever has been given or is loading an inode has a slot that is that inode's and
nobody else's, and what has been given out has been loaded. -/
theorem inode_single_copy (super : BitVec 16 → Bool) (disk : InoKey → DInode)
    (ops : List (Fin nt × InoOp)) (h : CarefulRun (init nt super disk) ops) :
    (∀ a b, (((init nt super disk).run ops).slot a).iCount ≠ 0#8 →
      (((init nt super disk).run ops).slot b).iCount ≠ 0#8 →
      ((init nt super disk).run ops).key a = ((init nt super disk).run ops).key b →
      (((init nt super disk).run ops).key a).dev ≠ 0#16 → a = b) ∧
    (∀ t t' v k k', ((v, k) ∈ ((init nt super disk).run ops).holds t ∨
        ((init nt super disk).run ops).pc t = .load v k) →
      ((v, k') ∈ ((init nt super disk).run ops).holds t' ∨ ((init nt super disk).run ops).pc t' = .load v k') →
      ((init nt super disk).run ops).key v = k ∧ k' = k) ∧
    (∀ t v k, (v, k) ∈ ((init nt super disk).run ops).holds t → k.dev ≠ 0#16 →
      ((init nt super disk).run ops).loaded v = some k) := by
  have i := (tabInv_init nt super disk).run h
  generalize (init nt super disk).run ops = s at i
  have hkey : ∀ {t v k}, (v, k) ∈ s.holds t ∨ s.pc t = .load v k → s.key v = k := fun {t v k} h => by
    rcases h with h | h
    · exact (i.owner h).1
    · exact (i.loading (by rw [h]; rfl)).1
  refine ⟨fun a b _ _ e hd => i.unique e hd, fun t t' v k k' h₁ h₂ => ?_, fun t v k h hd => ?_⟩
  · exact ⟨hkey h₁, (hkey h₂).symm.trans (hkey h₁)⟩
  · obtain ⟨hk, hl⟩ := i.owner h
    rw [← hk] at hd ⊢
    exact i.ready hd hl

def inodeX : InoKey := ⟨1#16, 5#32⟩

def inodeY : InoKey := ⟨1#16, 6#32⟩

def inodeZ : InoKey := ⟨1#16, 7#32⟩

/-- One device, empty inodes. -/
def oneDevice : InodeTab 2 := init 2 (fun d => d = 1#16) fun _ => {}

/-- A task has an inode loaded, changes it, releases it, and wants another: the dirty slot is its
victim, and it sleeps in `write_inode()`. -/
def wantsX : List (Fin 2 × InoOp) :=
  [(0, .iget inodeZ), (0, .resume true), (0, .modify 0 inodeZ { iSize := 1#32 }), (0, .iput 0 inodeZ),
    (0, .iget inodeX)]

/-- The victim is written back, and the slot claimed. -/
def claims (t : Fin 2) : List (Fin 2 × InoOp) := [(t, .resume true), (t, .resume true)]

/-- **In the meantime another task gets the victim's inode**, and has the slot of another one in
the end; **or takes the slot and the wanted inode**, and two slots have that; **or wants a third
inode**, and what the first task is given has never been loaded. -/
theorem inode_copies :
    (let s := oneDevice.run (wantsX ++ (1, .iget inodeZ) :: claims 0 ++ [(0, .resume true)])
     s.holds 0 = [(0, inodeX)] ∧ s.holds 1 = [(0, inodeZ)] ∧ s.key 0 = inodeX) ∧
    (let s := oneDevice.run (wantsX ++ [(1, .empty), (1, .iget inodeX), (1, .resume true)] ++ claims 0)
     s.key 0 = inodeX ∧ s.key 1 = inodeX ∧ (s.slot 0).iCount = 1#8 ∧ (s.slot 1).iCount = 1#8) ∧
    (let s := oneDevice.run (wantsX ++ (1, .iget inodeY) :: claims 0 ++ claims 1 ++ [(0, .resume true)])
     s.holds 0 = [(0, inodeX)] ∧ s.loaded 0 = some inodeY) := by
  decide

instance (s : InodeTab nt) (k : InoKey) : Decidable (s.Clear k) :=
  decidable_of_iff (∀ t, ∀ p ∈ (s.pc t).victim, k ≠ p.2 ∧ k ≠ s.key p.1)
    ⟨fun h t b k' hr => h t (b, k') hr, fun h t p hr => h t p.1 p.2 hr⟩

instance (s : InodeTab nt) : Decidable s.ClearSlot :=
  decidable_of_iff (∀ t, ∀ p ∈ (s.pc t).victim, s.freeSlot ≠ some p.1)
    ⟨fun h t b k' hr => h t (b, k') hr, fun h t p hr => h t p.1 p.2 hr⟩

theorem inodeX_loaded :
    (oneDevice.run [(0, .iget inodeX), (1, .iget inodeY), (0, .resume true)]).loaded 0 = some inodeX := by
  have h : CarefulRun oneDevice [(0, .iget inodeX), (1, .iget inodeY), (0, .resume true)] := by
    refine ⟨⟨fun k hk => ?_, fun _ => (by decide), fun ok v k he => (by cases he), by decide⟩,
      ⟨fun k hk => ?_, fun _ => (by decide), fun ok v k he => (by cases he), by decide⟩,
      ⟨fun k hk => (by cases hk), fun _ => (by decide), fun ok v k _ hp => (by cases hp), by decide⟩, trivial⟩
    all_goals
      obtain rfl := Option.some.inj hk
      decide
  exact (inode_single_copy _ _ _ h).2.2 0 0 inodeX (by decide) (by decide)

end InodeTab

end Linux001

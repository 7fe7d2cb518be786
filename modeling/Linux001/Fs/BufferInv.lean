import Mathlib.Algebra.BigOperators.Fin
import Mathlib.Algebra.Order.BigOperators.Group.Finset
import Linux001.Fs.Buffer
import Linux001.Lib.Bits

/-!
# Fs — who holds a buffer

`getblk()` that reuses a dirty head writes it back first, and sleeps.  What it decided before the
sleep stays decided: that nobody holds the head, and that no head has the block.  As long as no
other task looks for either block in the meantime, and no `sync_dev()` meets the head, the cache
never aliases (`cache_unaliased`).
-/

namespace Linux001

open Function Cache Finset List

/-- The references that come with a transfer; a holder's own has none beside the holder's. -/
def Kont.refs : Kont → ℕ
  | .done => 0
  | .reuse _ | .loaded | .sync .. => 1

/-- The block that a head is reused for. -/
def Kont.target : Kont → Option Key
  | .reuse c => some c.key
  | .loaded | .done | .sync .. => none

/-- The references to `b` of a task that sleeps at `p`. -/
def Pc.uses (b : BufRef) : Pc → ℕ
  | .idle | .retry _ => 0
  | .waitBuf b' => if b' = b then 1 else 0
  | .io _ b' _ _ k => if b' = b then k.refs else 0

/-- The head that `getblk()` is writing back, and the block it is to have. -/
def Pc.reusing : Pc → Option (BufRef × Key)
  | .io _ b _ _ k => k.target.map (b, ·)
  | .idle | .retry _ | .waitBuf _ => none

theorem Pc.uses_of_reusing {p : Pc} {b : BufRef} {k : Key} (h : p.reusing = some (b, k)) :
    p.uses b = 1 := by
  cases p with
  | io w b' lba st k' =>
    obtain ⟨k₁, ht, he⟩ := Option.map_eq_some_iff.mp h
    obtain ⟨rfl, -⟩ := Prod.mk.inj he
    cases k' with
    | reuse c => exact if_pos rfl
    | loaded | done | sync => cases ht
  | idle | retry | waitBuf => cases h

namespace Cache

variable {nt : ℕ}

def key (s : Cache nt) (b : BufRef) : Key := (s.buf b).key

/-- The head is on the chain of its block. -/
def Hashed (s : Cache nt) (b : BufRef) : Prop := b ∈ s.hash (s.key b).hash

/-- The references of a task to a head. -/
def held (s : Cache nt) (t : Fin nt) (b : BufRef) : ℕ := (s.holds t).count b + (s.pc t).uses b

/-- The references of all tasks. -/
def holders (s : Cache nt) (b : BufRef) : ℕ := ∑ t, s.held t b

/-! ### The invariant -/

/-- The chains. -/
structure HashInv (s : Cache nt) : Prop where
  place : ∀ {i b}, b ∈ s.hash i → i = (s.key b).hash
  nodup : ∀ i, (s.hash i).Nodup
  /-- At most one head has a given block. -/
  single : ∀ {a b}, s.Hashed a → s.Hashed b → s.key a = s.key b → a = b

/-- The counts. -/
structure CountInv (s : Cache nt) : Prop where
  counted : ∀ b, (s.buf b).count.toNat = s.holders b
  /-- A head that is being written back for reuse has no other holder. -/
  lone : ∀ {t b k}, (s.pc t).reusing = some (b, k) → s.holders b = 1

/-- The blocks that reused heads are to have. -/
structure ReuseInv (s : Cache nt) : Prop where
  absent : ∀ {t b k a}, (s.pc t).reusing = some (b, k) → s.Hashed a → s.key a ≠ k
  apart : ∀ {t t' b b' k}, (s.pc t).reusing = some (b, k) → (s.pc t').reusing = some (b', k) → t = t'

structure CacheInv (s : Cache nt) : Prop where
  hash : HashInv s
  count : CountInv s
  reuse : ReuseInv s

variable {s s₁ s' : Cache nt} {t t' : Fin nt} {a b : BufRef} {k : Key} {c : BlkCall}
  {w ok : Bool} {x : Buf} {dev : BitVec 16} {n j : ℕ} {op : BufOp}

/-! ### What a step changes -/

/-- From `s` to `s'` the counts become `cnt`, and the task `t`, now with `h` references, goes on
to reuse `r`; nothing else changes. -/
structure Upd (s s' : Cache nt) (t : Fin nt) (cnt : BufRef → Byte) (h : BufRef → ℕ)
    (r : Option (BufRef × Key)) : Prop where
  count : ∀ b, (s'.buf b).count = cnt b
  other : ∀ t', t' ≠ t → s'.pc t' = s.pc t' ∧ s'.holds t' = s.holds t'
  held : ∀ b, s'.held t b = h b
  reusing : (s'.pc t).reusing = r

theorem Upd.held_other {cnt h r} (u : Upd s s' t cnt h r) (e : t' ≠ t) (b : BufRef) :
    s'.held t' b = s.held t' b := by
  unfold Cache.held
  rw [(u.other t' e).1, (u.other t' e).2]

/-- The references of the others do not change. -/
theorem Upd.holders {cnt h r} (u : Upd s s' t cnt h r) (b : BufRef) :
    s'.holders b + s.held t b = s.holders b + h b := by
  unfold Cache.holders
  rw [← add_sum_erase _ _ (mem_univ t), ← add_sum_erase _ _ (mem_univ t),
    u.held b, sum_congr rfl fun t' ht' => u.held_other (ne_of_mem_erase ht') b]
  omega

theorem held_le_holders (s : Cache nt) (t : Fin nt) (b : BufRef) : s.held t b ≤ s.holders b :=
  single_le_sum (f := fun t => s.held t b) (fun _ _ => Nat.zero_le _) (mem_univ t)

/-- The counts follow the references. -/
theorem CountInv.upd {cnt h r} (i : CountInv s) (u : Upd s s' t cnt h r)
    (hc : ∀ b, (cnt b).toNat + s.held t b = (s.buf b).count.toNat + h b)
    (ho : ∀ t' b k, t' ≠ t → (s.pc t').reusing = some (b, k) → h b = s.held t b)
    (hr : ∀ b k, r = some (b, k) → (cnt b).toNat = 1) : CountInv s' := by
  have hcount : ∀ b, (s'.buf b).count.toNat = s'.holders b := fun b => by
    have h₁ := u.holders b
    have h₂ := hc b
    have h₃ := i.counted b
    rw [u.count]
    omega
  refine ⟨hcount, fun {t' b k} hre => ?_⟩
  by_cases e : t' = t
  · subst e
    rw [u.reusing] at hre
    rw [← hcount, u.count, hr b k hre]
  · rw [(u.other t' e).1] at hre
    have h₁ := u.holders b
    rw [ho t' b k e hre, i.lone hre] at h₁
    omega

theorem HashInv.congr (i : HashInv s) (hk : s'.key = s.key) (hh : s'.hash = s.hash) : HashInv s' := by
  refine ⟨?_, ?_, ?_⟩
  · rw [hh, hk]; exact i.place
  · rw [hh]; exact i.nodup
  · unfold Hashed
    rw [hh, hk]
    exact i.single

theorem ReuseInv.upd {cnt h r} (i : ReuseInv s) (u : Upd s s' t cnt h r)
    (hx : ∀ a, s'.Hashed a → s.Hashed a ∧ s'.key a = s.key a ∨
      (∀ t' b k, t' ≠ t → (s.pc t').reusing = some (b, k) → s'.key a ≠ k) ∧ r = none)
    (hr : ∀ b k, r = some (b, k) → (∀ a, s.Hashed a → s.key a ≠ k) ∧
      ∀ t' b', t' ≠ t → (s.pc t').reusing ≠ some (b', k)) : ReuseInv s' := by
  refine ⟨fun {t' b k a} hre ha => ?_, fun {t₁ t₂ b₁ b₂ k} h₁ h₂ => ?_⟩
  · by_cases e : t' = t
    · subst e
      rw [u.reusing] at hre
      rcases hx a ha with ⟨ha', hk⟩ | ⟨-, hn⟩
      · rw [hk]
        exact (hr b k hre).1 a ha'
      · rw [hn] at hre
        cases hre
    · rw [(u.other t' e).1] at hre
      rcases hx a ha with ⟨ha', hk⟩ | ⟨hn, -⟩
      · rw [hk]
        exact i.absent hre ha'
      · exact hn t' b k e hre
  · by_cases e₁ : t₁ = t <;> by_cases e₂ : t₂ = t
    · rw [e₁, e₂]
    · rw [e₁, u.reusing] at h₁
      rw [(u.other t₂ e₂).1] at h₂
      exact absurd h₂ ((hr b₁ k h₁).2 t₂ b₂ e₂)
    · rw [e₂, u.reusing] at h₂
      rw [(u.other t₁ e₁).1] at h₁
      exact absurd h₁ ((hr b₂ k h₂).2 t₁ b₁ e₁)
    · rw [(u.other t₁ e₁).1] at h₁
      rw [(u.other t₂ e₂).1] at h₂
      exact i.apart h₁ h₂

/-! ### The functions of the cache -/

/-- Neither a block nor a chain has changed. -/
structure SameKeys (s s' : Cache nt) : Prop where
  key : s'.key = s.key
  hash : s'.hash = s.hash

theorem SameKeys.trans (h : SameKeys s s₁) (h' : SameKeys s₁ s') : SameKeys s s' :=
  ⟨h'.key.trans h.key, h'.hash.trans h.hash⟩

theorem SameKeys.hashed (h : SameKeys s s') : s'.Hashed a ↔ s.Hashed a := by
  unfold Hashed
  rw [h.key, h.hash]

theorem setBuf_sameKeys (h : x.key = s.key b) : SameKeys s (s.setBuf b x) := by
  refine ⟨funext fun a => ?_, rfl⟩
  by_cases e : a = b
  · subst e
    simp [key, setBuf, h]
  · simp [key, setBuf, e]

theorem setBuf_count (x : Buf) : ∀ a, ((s.setBuf b x).buf a).count =
    update (fun a => (s.buf a).count) b x.count a := fun a => by
  by_cases e : a = b
  · subst e
    simp [setBuf]
  · simp [setBuf, e]

theorem setBuf_count_eq (h : x.count = (s.buf b).count) (a : BufRef) :
    ((s.setBuf b x).buf a).count = (s.buf a).count := by
  rw [setBuf_count, h]
  by_cases e : a = b
  · simp
  · simp [e]

/-- Buffers may change before the task goes on. -/
theorem Upd.of_eq {cnt h r} (u : Upd s₁ s' t cnt h r) (hp : s₁.pc = s.pc) (hh : s₁.holds = s.holds) :
    Upd s s' t cnt h r :=
  ⟨u.count, fun t' e => by rw [← hp, ← hh]; exact u.other t' e, u.held, u.reusing⟩

theorem setPc_upd (s : Cache nt) (t : Fin nt) (p : Pc) :
    Upd s (s.setPc t p) t (fun b => (s.buf b).count) (fun b => (s.holds t).count b + p.uses b)
      p.reusing :=
  ⟨fun _ => rfl, fun _ e => ⟨update_of_ne e _ _, rfl⟩, fun _ => by simp [held, setPc], by simp [setPc]⟩

theorem give_upd (s : Cache nt) (t : Fin nt) (b : BufRef) :
    Upd s (s.give t b) t (fun b => (s.buf b).count)
      (fun a => (s.holds t).count a + if b = a then 1 else 0) none :=
  ⟨fun _ => rfl, fun _ e => ⟨update_of_ne e _ _, update_of_ne e _ _⟩,
    fun a => by simp [held, give, Pc.uses, count_cons], by simp [give, Pc.reusing]⟩

theorem startRw_upd (s : Cache nt) (t : Fin nt) (w : Bool) (b : BufRef) (k : Kont) :
    Upd s (s.startRw t w b k) t (fun b => (s.buf b).count)
      (fun a => (s.holds t).count a + if b = a then k.refs else 0) (k.target.map (b, ·)) :=
  ⟨setBuf_count_eq rfl, fun _ e => ⟨update_of_ne e _ _, rfl⟩,
    fun a => by simp [held, startRw, setPc, setBuf, Pc.uses],
    by simp [startRw, setPc, Pc.reusing]⟩

theorem startRw_sameKeys (s : Cache nt) (t : Fin nt) (w : Bool) (b : BufRef) (k : Kont) :
    SameKeys s (s.startRw t w b k) := by
  have h : SameKeys s (s.setBuf b { s.buf b with lock := true }) := setBuf_sameKeys rfl
  exact ⟨h.key, h.hash⟩

theorem gotBlk_upd (s : Cache nt) (t : Fin nt) (b : BufRef) (c : BlkCall) :
    Upd s (s.gotBlk t b c) t (fun b => (s.buf b).count)
      (fun a => (s.holds t).count a + if b = a then 1 else 0) none := by
  cases c with
  | getblk k => exact s.give_upd t b
  | bread k =>
    simp only [gotBlk]
    split
    · exact s.give_upd t b
    split
    · exact s.setPc_upd t (.waitBuf b)
    · exact s.startRw_upd t false b .loaded

theorem gotBlk_sameKeys (s : Cache nt) (t : Fin nt) (b : BufRef) (c : BlkCall) :
    SameKeys s (s.gotBlk t b c) := by
  cases c with
  | getblk k => exact ⟨rfl, rfl⟩
  | bread k =>
    simp only [gotBlk]
    split
    · exact ⟨rfl, rfl⟩
    split
    · exact ⟨rfl, rfl⟩
    · exact s.startRw_sameKeys t false b .loaded

/-- Only what the invariant does not look at has changed. -/
structure Alike (s s' : Cache nt) : Prop where
  keys : SameKeys s s'
  count : ∀ b, (s'.buf b).count = (s.buf b).count
  pc : s'.pc = s.pc
  holds : s'.holds = s.holds

theorem Alike.trans (h : Alike s s₁) (h' : Alike s₁ s') : Alike s s' :=
  ⟨h.keys.trans h'.keys, fun b => (h'.count b).trans (h.count b), h'.pc.trans h.pc, h'.holds.trans h.holds⟩

theorem setBuf_alike (hk : x.key = s.key b) (hc : x.count = (s.buf b).count) :
    Alike s (s.setBuf b x) := ⟨setBuf_sameKeys hk, setBuf_count_eq hc, rfl, rfl⟩

/-! ### A head changes its block -/

theorem rehash_key (s : Cache nt) (b : BufRef) (k : Key) :
    (s.rehash b k).key = update s.key b k := by
  funext a
  by_cases e : a = b
  · subst e
    simp [key, rehash]
  · simp [key, rehash, e]

theorem rehash_hash (s : Cache nt) (b : BufRef) (k : Key) :
    (s.rehash b k).hash = update (s.unlink b) k.hash (b :: s.unlink b k.hash) := rfl

theorem mem_unlink {i : ℕ} (e : a ≠ b) : a ∈ s.unlink b i ↔ a ∈ s.hash i := by
  unfold unlink
  by_cases hi : i = (s.buf b).key.hash
  · subst hi
    rw [update_self, mem_erase_of_ne e]
  · rw [update_of_ne hi]

theorem HashInv.notMem_unlink (h : HashInv s) (i : ℕ) : b ∉ s.unlink b i := by
  unfold unlink
  by_cases hi : i = (s.buf b).key.hash
  · subst hi
    rw [update_self]
    exact (h.nodup _).not_mem_erase
  · rw [update_of_ne hi]
    exact fun hb => hi (h.place hb)

theorem HashInv.nodup_unlink (h : HashInv s) (i : ℕ) : (s.unlink b i).Nodup := by
  unfold unlink
  by_cases hi : i = (s.buf b).key.hash
  · subst hi
    rw [update_self]
    exact (h.nodup _).erase _
  · rw [update_of_ne hi]
    exact h.nodup i

theorem mem_rehash {i : ℕ} (e : a ≠ b) : a ∈ (s.rehash b k).hash i ↔ a ∈ s.hash i := by
  rw [rehash_hash]
  by_cases hi : i = k.hash
  · subst hi
    rw [update_self, List.mem_cons, or_iff_right e, mem_unlink e]
  · rw [update_of_ne hi, mem_unlink e]

theorem HashInv.mem_rehash_self (h : HashInv s) {i : ℕ} : b ∈ (s.rehash b k).hash i ↔ i = k.hash := by
  rw [rehash_hash]
  by_cases hi : i = k.hash
  · subst hi
    simp
  · rw [update_of_ne hi]
    exact iff_of_false (h.notMem_unlink i) hi

theorem rehash_hashed (e : a ≠ b) : (s.rehash b k).Hashed a ↔ s.Hashed a := by
  unfold Hashed
  rw [rehash_key, update_of_ne e]
  exact mem_rehash e

/-- A block that no head has is given to a head. -/
theorem HashInv.rehash (h : HashInv s) (hn : ∀ a, s.Hashed a → s.key a ≠ k) :
    HashInv (s.rehash b k) := by
  have hkey : ∀ {a}, a ≠ b → (s.rehash b k).key a = s.key a := fun e => by
    rw [rehash_key, update_of_ne e]
  have hself : (s.rehash b k).key b = k := by rw [rehash_key, update_self]
  refine ⟨fun {i a} ha => ?_, fun i => ?_, fun {a a'} ha ha' e => ?_⟩
  · by_cases e : a = b
    · subst e
      rw [hself]
      exact h.mem_rehash_self.mp ha
    · rw [hkey e]
      exact h.place ((mem_rehash e).mp ha)
  · rw [rehash_hash]
    by_cases hi : i = k.hash
    · subst hi
      rw [update_self]
      exact nodup_cons.mpr ⟨h.notMem_unlink _, h.nodup_unlink _⟩
    · rw [update_of_ne hi]
      exact h.nodup_unlink i
  · by_cases e₁ : a = b <;> by_cases e₂ : a' = b
    · rw [e₁, e₂]
    · rw [rehash_hashed e₂] at ha'
      rw [e₁, hself, hkey e₂] at e
      exact absurd e.symm (hn a' ha')
    · rw [rehash_hashed e₁] at ha
      rw [e₂, hself, hkey e₁] at e
      exact absurd e (hn a ha)
    · rw [rehash_hashed e₁] at ha
      rw [rehash_hashed e₂] at ha'
      rw [hkey e₁, hkey e₂] at e
      exact h.single ha ha' e

/-! ### The moves -/

namespace CacheInv

/-- Nothing about references and blocks changes. -/
theorem quiet {cnt h} (i : CacheInv s) (u : Upd s s' t cnt h (s.pc t).reusing) (hk : SameKeys s s')
    (hc : ∀ b, cnt b = (s.buf b).count) (hh : ∀ b, h b = s.held t b) : CacheInv s' where
  hash := i.hash.congr hk.key hk.hash
  count := i.count.upd u (fun b => by rw [hc, hh]) (fun _ b _ _ _ => hh b) fun b k hr => by
    rw [hc, i.count.counted, i.count.lone hr]
  reuse := i.reuse.upd u (fun a ha => .inl ⟨hk.hashed.mp ha, by rw [hk.key]⟩) fun b k hr =>
    ⟨fun a ha => i.reuse.absent hr ha, fun t' b' e hr' => e (i.reuse.apart hr' hr)⟩

/-- The task gives up a reference, or takes one to a head that is not being reused. -/
theorem rebalance {cnt h} (i : CacheInv s) (u : Upd s s' t cnt h none) (hk : SameKeys s s')
    (hc : ∀ b, (cnt b).toNat + s.held t b = (s.buf b).count.toNat + h b)
    (ho : ∀ t' b k, t' ≠ t → (s.pc t').reusing = some (b, k) → h b = s.held t b) : CacheInv s' where
  hash := i.hash.congr hk.key hk.hash
  count := i.count.upd u hc ho fun b k hr => by cases hr
  reuse := i.reuse.upd u (fun a ha => .inl ⟨hk.hashed.mp ha, by rw [hk.key]⟩) fun b k hr => by cases hr

theorem congr (i : CacheInv s) (h : Alike s s') : CacheInv s' := by
  obtain ⟨hk, hc, hp, hh⟩ := h
  have hheld : s'.holders = s.holders := by
    unfold holders held
    rw [hp, hh]
  refine ⟨i.hash.congr hk.key hk.hash, ⟨fun b => ?_, fun {t b k} hr => ?_⟩,
    ⟨fun {t b k a} hr ha => ?_, fun {t t' b b' k} h₁ h₂ => ?_⟩⟩
  · rw [hc, hheld, i.count.counted]
  · rw [hp] at hr
    rw [hheld, i.count.lone hr]
  · rw [hp] at hr
    rw [hk.key]
    exact i.reuse.absent hr (hk.hashed.mp ha)
  · rw [hp] at h₁ h₂
    exact i.reuse.apart h₁ h₂

/-- A head with `b_count` 0 has no holder, and is not being reused. -/
theorem unheld (i : CacheInv s) (h : (s.buf b).count = 0#8) :
    s.held t b = 0 ∧ ∀ t' k, (s.pc t').reusing ≠ some (b, k) := by
  have h₀ : s.holders b = 0 := by rw [← i.count.counted, h]; rfl
  refine ⟨Nat.le_zero.mp (h₀ ▸ s.held_le_holders t b), fun t' k hr => ?_⟩
  have := i.count.lone hr
  omega

/-- A head that another task reuses is not this task's. -/
theorem not_held (i : CacheInv s) (e : t' ≠ t) (hr : (s.pc t').reusing = some (b, k)) :
    s.held t b = 0 := by
  have h₁ := i.count.lone hr
  have hu : 1 ≤ s.held t' b := by
    unfold held
    rw [Pc.uses_of_reusing hr]
    exact Nat.le_add_left 1 _
  have h₂ : s.held t b ≤ ∑ x ∈ univ.erase t', s.held x b :=
    single_le_sum (f := fun x => s.held x b) (fun _ _ => Nat.zero_le _)
      (mem_erase.mpr ⟨e.symm, mem_univ t⟩)
  unfold holders at h₁
  rw [← add_sum_erase _ _ (mem_univ t')] at h₁
  omega

end CacheInv

/-! ### `getblk` -/

/-- The task is not in the middle of anything. -/
structure Rests (s : Cache nt) (t : Fin nt) : Prop where
  uses : ∀ b, (s.pc t).uses b = 0
  reusing : (s.pc t).reusing = none

theorem Rests.held (h : s.Rests t) (b : BufRef) : s.held t b = (s.holds t).count b := by
  unfold Cache.held
  rw [h.uses, Nat.add_zero]

theorem lookup_some (h : s.lookup k = some b) : s.key b = k := by
  have := find?_some h
  exact of_decide_eq_true this

theorem lookup_none (h : s.lookup k = none) : ∀ a, s.Hashed a → s.key a ≠ k := by
  intro a ha e
  have := find?_eq_none.mp h a (by rw [← e]; exact ha)
  exact this (decide_eq_true e)

theorem victim_some (h : s.victim = some b) : (s.buf b).count = 0#8 := by
  have := find?_some h
  simpa using this

theorem rehash_count (s : Cache nt) (b : BufRef) (k : Key) (a : BufRef) :
    ((s.rehash b k).buf a).count = update (fun a => (s.buf a).count) b 1#8 a := by
  by_cases e : a = b
  · subst e
    simp [rehash]
  · simp [rehash, e]

theorem brelse_sameKeys (s : Cache nt) (b : BufRef) : SameKeys s (s.brelse b) := by
  have h : SameKeys s (s.setBuf b { s.buf b with count := (s.buf b).count - 1#8 }) :=
    setBuf_sameKeys rfl
  exact ⟨h.key, h.hash⟩

/-- The next head of `sync_dev` is taken. -/
theorem syncPick_dev {x : ℕ} (h : s.syncPick dev n j a = some (x, b)) :
    (s.key b).dev = dev := by
  induction n generalizing j a with
  | zero => cases h
  | succ n ih =>
    unfold syncPick at h
    split at h
    · next hd =>
      obtain ⟨-, rfl⟩ : j = x ∧ a = b := by simpa using h
      exact hd.1
    · exact ih h

/-- The walk does not look at where the task sleeps. -/
theorem syncLoop_setPc (s : Cache nt) (t : Fin nt) (p : Pc) (dev : BitVec 16) (n j : ℕ) (a : BufRef) :
    (s.setPc t p).syncLoop t dev n j a = s.syncLoop t dev n j a := by
  have hpick : ∀ n j a, (s.setPc t p).syncPick dev n j a = s.syncPick dev n j a := by
    intro n
    induction n with
    | zero => intros; rfl
    | succ n ih =>
      intro j a
      unfold syncPick
      rw [ih]
      rfl
  unfold syncLoop
  rw [hpick]
  cases s.syncPick dev n j a with
  | none => simp [setPc]
  | some p => simp [startRw, setBuf, setPc]

theorem endRw_alike (s : Cache nt) (w : Bool) (b : BufRef) (ok : Bool) : Alike s (s.endRw w b ok) :=
  setBuf_alike rfl rfl

theorem moveSector_alike (s : Cache nt) (w : Bool) (b : BufRef) (lba : ℕ) (j : Fin 2) :
    Alike s (s.moveSector w b lba j) := by
  unfold moveSector
  split
  · exact ⟨⟨rfl, rfl⟩, fun _ => rfl, rfl, rfl⟩
  · exact setBuf_alike rfl rfl

section
variable (i : CacheInv s) {lba : ℕ} {st : Stage}
include i

/-- The head `b`, which only the task refers to if anybody does, is the task's and has the block. -/
theorem CacheInv.take (hold : (s.holds t).count b = 0)
    (hcnt : (s.buf b).count.toNat = (s.pc t).uses b) (huse : ∀ a, a ≠ b → (s.pc t).uses a = 0)
    (hfree : ∀ t' k', t' ≠ t → (s.pc t').reusing ≠ some (b, k'))
    (hkey : ∀ a, s.Hashed a → s.key a ≠ k)
    (hk : ∀ t' b', t' ≠ t → (s.pc t').reusing ≠ some (b', k))
    {s₁ : Cache nt} (hkeys : SameKeys s s₁) (hc : ∀ a, a ≠ b → (s₁.buf a).count = (s.buf a).count)
    (hp : s₁.pc = s.pc) (hh : s₁.holds = s.holds) :
    CacheInv ((s₁.rehash b k).gotBlk t b c) := by
  have u := ((s₁.rehash b k).gotBlk_upd t b c).of_eq hp hh
  have hg := (s₁.rehash b k).gotBlk_sameKeys t b c
  have hash₁ := i.hash.congr hkeys.key hkeys.hash
  refine ⟨(hash₁.rehash fun a ha => ?_).congr hg.key hg.hash, i.count.upd u (fun a => ?_)
    (fun t' a k' e hr => ?_) (fun _ _ hr => by cases hr), i.reuse.upd u (fun a ha => ?_)
    (fun _ _ hr => by cases hr)⟩
  · rw [hkeys.key]
    exact hkey a (hkeys.hashed.mp ha)
  · rw [rehash_count]
    show _ = _ + ((s₁.holds t).count a + _)
    unfold held
    rw [hh]
    by_cases e : a = b
    · subst e
      rw [update_self, if_pos rfl]
      simp only [BitVec.toNat_ofNat]
      omega
    · rw [update_of_ne e, hc a e, huse a e, if_neg fun e' => e e'.symm]
  · have e' : a ≠ b := fun e' => hfree t' k' e (e' ▸ hr)
    show (s₁.holds t).count a + _ = _
    unfold held
    rw [hh, huse a e', if_neg fun e'' => e' e''.symm]
  · rw [hg.hashed] at ha
    rw [hg.key]
    by_cases e : a = b
    · subst e
      rw [rehash_key, update_self]
      exact .inr ⟨fun t' b' k' e hr e' => hk t' b' e (e' ▸ hr), rfl⟩
    · rw [rehash_hashed e, hkeys.hashed] at ha
      rw [rehash_key, update_of_ne e, hkeys.key]
      exact .inl ⟨ha, rfl⟩

/-- Another task that reuses a head has nothing to do with the block `k`. -/
def Clear (s : Cache nt) (k : Key) : Prop :=
  ∀ t b k', (s.pc t).reusing = some (b, k') → k ≠ k' ∧ k ≠ s.key b

theorem CacheInv.getblk (hr : s.Rests t) (hcl : s.Clear c.key)
    (hfull : ∀ b, (s.buf b).count ≠ 255#8) : CacheInv (s.getblk t c) := by
  unfold Cache.getblk
  cases hl : s.lookup c.key with
  | some b =>
    have hkey := lookup_some hl
    have hs : SameKeys s (s.setBuf b { s.buf b with count := (s.buf b).count + 1#8 }) :=
      setBuf_sameKeys rfl
    refine i.rebalance (((s.setBuf b _).gotBlk_upd t b c).of_eq rfl rfl)
      (hs.trans (gotBlk_sameKeys _ t b c)) (fun a => ?_) fun t' a k' _ hre => ?_
    · rw [hr.held, setBuf_count]
      show _ = _ + ((s.holds t).count a + _)
      by_cases e : a = b
      · subst e
        rw [update_self, if_pos rfl, Bits.toNat_succ (hfull a)]
        omega
      · rw [update_of_ne e, if_neg fun e' => e e'.symm]
        omega
    · have e : b ≠ a := fun e => (hcl t' a k' hre).2 (by rw [← hkey, e])
      show (s.holds t).count a + _ = _
      rw [if_neg e, hr.held, Nat.add_zero]
  | none =>
    have hkey := lookup_none hl
    cases hv : s.victim with
    | none =>
      have u := s.setPc_upd t (.retry c)
      refine i.rebalance u ⟨rfl, rfl⟩ (fun a => ?_) fun _ a _ _ _ => ?_
      · rw [hr.held]
        show _ = _ + ((s.holds t).count a + 0)
        omega
      · rw [hr.held]
        rfl
    | some b =>
      have hz := victim_some hv
      have hb : (s.holds t).count b = 0 := by
        rw [← hr.held]
        exact (i.unheld hz).1
      simp only
      split
      · -- the victim is dirty: it is written back first
        have hs : SameKeys s (s.setBuf b { s.buf b with count := 1#8 }) := setBuf_sameKeys rfl
        have hs' := hs.trans (startRw_sameKeys _ t true b (.reuse c))
        have u := ((s.setBuf b { s.buf b with count := 1#8 }).startRw_upd t true b (.reuse c)).of_eq
          (s := s) rfl rfl
        refine ⟨i.hash.congr hs'.key hs'.hash, i.count.upd u (fun a => ?_)
          (fun t' a k' _ hre => ?_) (fun a k' he => ?_), i.reuse.upd u
          (fun a ha => .inl ⟨hs'.hashed.mp ha, by rw [hs'.key]⟩) fun a k' he => ?_⟩
        · rw [hr.held, setBuf_count]
          show _ = _ + ((s.holds t).count a + _)
          by_cases e : a = b
          · subst e
            rw [update_self, if_pos rfl, hz, hb]
            rfl
          · rw [update_of_ne e, if_neg fun e' => e e'.symm]
            omega
        · have e : b ≠ a := fun e => (i.unheld (t := t) hz).2 t' k' (e ▸ hre)
          show (s.holds t).count a + _ = _
          rw [if_neg e, hr.held, Nat.add_zero]
        · obtain ⟨rfl, rfl⟩ : b = a ∧ c.key = k' := by simpa [Kont.target] using he
          rw [setBuf_count, update_self]
          rfl
        · obtain ⟨rfl, rfl⟩ : b = a ∧ c.key = k' := by simpa [Kont.target] using he
          exact ⟨hkey, fun t' b' _ hre => (hcl t' b' _ hre).1 rfl⟩
      · exact i.take hb (by rw [hz, hr.uses]; rfl) (fun a _ => hr.uses a)
          (fun t' k' _ => (i.unheld (t := t) hz).2 t' k') hkey
          (fun t' b' _ hre => (hcl t' b' _ hre).1 rfl) ⟨rfl, rfl⟩ (fun _ _ => rfl) rfl rfl

/-! ### The other calls -/

/-- A task gives up one reference to `b`. -/
theorem CacheInv.release {cnt h} (u : Upd s s' t cnt h none) (hk : SameKeys s s')
    (hcnt : ∀ a, cnt a = update (fun a => (s.buf a).count) b ((s.buf b).count - 1#8) a)
    (hh : ∀ a, h a + (if b = a then 1 else 0) = s.held t a) : CacheInv s' := by
  have hb : 1 ≤ s.held t b := by
    have := hh b
    rw [if_pos rfl] at this
    omega
  have hc := i.count.counted b
  have hle := s.held_le_holders t b
  refine i.rebalance u hk (fun a => ?_) fun t' a k' e hr => ?_
  · have h₁ := hh a
    rw [hcnt]
    by_cases e : a = b
    · subst e
      rw [if_pos rfl] at h₁
      have := Bits.toNat_pred (x := (s.buf a).count) (by omega)
      rw [update_self]
      omega
    · rw [if_neg fun e' => e e'.symm] at h₁
      rw [update_of_ne e]
      omega
  · have h₁ := hh a
    have h₀ := i.not_held e hr
    rw [if_neg fun e' => by rw [e'] at hb; omega] at h₁
    omega

/-- Nobody reuses a head of the device. -/
def ClearDev (s : Cache nt) (dev : BitVec 16) : Prop :=
  ∀ t b k, (s.pc t).reusing = some (b, k) → (s.key b).dev ≠ dev

theorem CacheInv.syncLoop (hr : s.Rests t)
    (hcl : ∀ t' b k, t' ≠ t → (s.pc t').reusing = some (b, k) → (s.key b).dev ≠ dev)
    (hfull : ∀ b, (s.buf b).count ≠ 255#8) : CacheInv (s.syncLoop t dev n j a) := by
  unfold Cache.syncLoop
  cases hp : s.syncPick dev n j a with
  | none =>
    refine i.rebalance (s.setPc_upd t .idle) ⟨rfl, rfl⟩ (fun a => ?_) fun _ a _ _ _ => ?_
    · rw [hr.held]
      show _ = _ + ((s.holds t).count a + 0)
      omega
    · rw [hr.held]
      rfl
  | some p =>
    obtain ⟨x, b⟩ := p
    have hdev := syncPick_dev hp
    have hs : SameKeys s (s.setBuf b { s.buf b with count := (s.buf b).count + 1#8 }) :=
      setBuf_sameKeys rfl
    refine i.rebalance (((s.setBuf b _).startRw_upd t true b (.sync dev x)).of_eq rfl rfl)
      (hs.trans (startRw_sameKeys _ t true b _)) (fun a => ?_) fun t' a k' e hre => ?_
    · rw [hr.held, setBuf_count]
      show _ = _ + ((s.holds t).count a + if b = a then 1 else 0)
      by_cases e : a = b
      · subst e
        rw [update_self, if_pos rfl, Bits.toNat_succ (hfull a)]
        omega
      · rw [update_of_ne e, if_neg fun e' => e e'.symm]
        omega
    · have e' : b ≠ a := fun e' => hcl t' a k' e hre (by rw [← e', hdev])
      show (s.holds t).count a + (if b = a then 1 else 0) = _
      rw [if_neg e', hr.held, Nat.add_zero]

/-! ### Transfers -/

/-- What the step may meet: nobody reuses a head that the rest of the call is about. -/
def KontClear (s : Cache nt) (t : Fin nt) : Kont → Prop
  | .sync dev _ => ∀ t' b k, t' ≠ t → (s.pc t').reusing = some (b, k) → (s.key b).dev ≠ dev
  | .reuse _ | .loaded | .done => True

omit i in
theorem KontClear.congr {k : Kont} (h : s.KontClear t k) (ha : Alike s s') : s'.KontClear t k := by
  cases k with
  | sync dev j =>
    intro t' b' k' e hr
    rw [ha.pc] at hr
    rw [ha.keys.key]
    exact h t' b' k' e hr
  | reuse | loaded | done => trivial

theorem CacheInv.afterRw {k : Kont}
    (hp : s.pc t = .io w b lba st k) (hcl : s.KontClear t k)
    (hfull : ∀ b, (s.buf b).count ≠ 255#8) : CacheInv (s.afterRw t b k) := by
  have hheld : ∀ a, s.held t a = (s.holds t).count a + if b = a then k.refs else 0 := fun a => by
    unfold held
    rw [hp]
    rfl
  cases k with
  | reuse c =>
    have hr : (s.pc t).reusing = some (b, c.key) := by rw [hp]; rfl
    have hone := i.count.lone hr
    have hle := s.held_le_holders t b
    have hb := hheld b
    rw [if_pos rfl] at hb
    change _ = _ + 1 at hb
    refine i.take (by omega) ?_ (fun a e => ?_) (fun t' k' e hr' => ?_)
      (fun a ha => i.reuse.absent hr ha) (fun t' b' e hr' => e (i.reuse.apart hr' hr))
      (setBuf_sameKeys rfl) (fun a e => ?_) rfl rfl
    · rw [i.count.counted, hone, hp]
      simp [Pc.uses, Kont.refs]
    · rw [hp]
      exact if_neg fun e' => e e'.symm
    · have := i.not_held e hr'
      omega
    · rw [setBuf_count, update_of_ne e]
  | loaded =>
    simp only [Cache.afterRw]
    split
    · exact i.rebalance (s.give_upd t b) ⟨rfl, rfl⟩ (fun a => by rw [hheld]; rfl)
        fun _ a _ _ _ => (hheld a).symm
    have u := ((s.brelse b).setPc_upd t .idle).of_eq (s := s) rfl rfl
    refine i.release u ((s.brelse_sameKeys b).trans ⟨rfl, rfl⟩) (setBuf_count _) fun a => ?_
    rw [hheld]
    rfl
  | done =>
    have hz : ∀ a, s.held t a = (s.holds t).count a := fun a => by
      rw [hheld]
      simp [Kont.refs]
    exact i.rebalance (s.setPc_upd t .idle) ⟨rfl, rfl⟩ (fun a => by rw [hz]; rfl)
      fun _ a _ _ _ => (hz a).symm
  | sync dev j =>
    have hs : SameKeys s (s.setBuf b { s.buf b with count := (s.buf b).count - 1#8 }) :=
      setBuf_sameKeys rfl
    simp only [Cache.afterRw]
    rw [← syncLoop_setPc _ t .idle]
    have i₁ : CacheInv
        ((s.setBuf b { s.buf b with count := (s.buf b).count - 1#8 }).setPc t .idle) := by
      refine i.release (((s.setBuf b _).setPc_upd t .idle).of_eq rfl rfl) (hs.trans ⟨rfl, rfl⟩)
        (setBuf_count _) fun a => ?_
      rw [hheld]
      rfl
    refine i₁.syncLoop ⟨fun _ => by simp [setPc, Pc.uses], by simp [setPc, Pc.reusing]⟩
      (fun t' b' k' e hr => ?_) fun a => ?_
    · change ((update s.pc t .idle) t').reusing = _ at hr
      rw [update_of_ne e] at hr
      change ((s.setBuf b _).key b').dev ≠ dev
      rw [hs.key]
      exact hcl t' b' k' e hr
    show ((s.setBuf b _).buf a).count ≠ _
    rw [setBuf_count]
    by_cases e : a = b
    · subst e
      rw [update_self]
      have h₁ : 1 ≤ (s.buf a).count.toNat := by
        rw [i.count.counted]
        refine le_trans ?_ (s.held_le_holders t a)
        rw [hheld, if_pos rfl]
        exact Nat.le_add_left 1 _
      intro e'
      have h₂ := Bits.toNat_pred h₁
      simp only at e'
      rw [e'] at h₂
      have := (s.buf a).count.isLt
      simp only [BitVec.toNat_ofNat] at h₂
      omega
    · rw [update_of_ne e]
      exact hfull a

theorem CacheInv.finish {k : Kont}
    (hp : s.pc t = .io w b lba st k) (hcl : s.KontClear t k)
    (hfull : ∀ b, (s.buf b).count ≠ 255#8) : CacheInv (s.finish t w b k ok) := by
  have ha : Alike s ({ s with hd := none }.endRw w b ok) :=
    (show Alike s { s with hd := none } from ⟨⟨rfl, rfl⟩, fun _ => rfl, rfl, rfl⟩).trans
      (endRw_alike _ w b ok)
  have hp' : ({ s with hd := none }.endRw w b ok).pc t = .io w b lba st k := hp
  refine (i.congr ha).afterRw hp' (hcl.congr ha) fun a => ?_
  rw [ha.count]
  exact hfull a

/-! ### Steps and runs -/

/-- The block that the step looks for. -/
def seeks (s : Cache nt) (t : Fin nt) : BufOp → Option Key
  | .getblk k | .bread k => if s.pc t = .idle then some k else none
  | .resume _ =>
    match s.pc t with
    | .retry c => some c.key
    | _ => none
  | _ => none

/-- The device whose heads the step walks through. -/
def walks (s : Cache nt) (t : Fin nt) : BufOp → Option (BitVec 16)
  | .sync dev => some dev
  | .resume _ =>
    match s.pc t with
    | .io _ _ _ _ (.sync dev _) => some dev
    | _ => none
  | _ => none

/-- **The condition on a step**: the block it looks for is neither the old nor the new block of a
head that is being written back for reuse, its `sync_dev()` does not meet such a head, and no
count is about to wrap. -/
structure Careful (s : Cache nt) (t : Fin nt) (op : BufOp) : Prop where
  seeks : ∀ k, s.seeks t op = some k → s.Clear k
  walks : ∀ dev, s.walks t op = some dev → s.ClearDev dev
  full : ∀ b, (s.buf b).count ≠ 255#8

/-- The transfer goes on. -/
theorem CacheInv.proceed {lba' : ℕ} {st' : Stage} {k : Kont}
    (hp : s.pc t = .io w b lba st k) : CacheInv (s.setPc t (.io w b lba' st' k)) := by
  have u := s.setPc_upd t (.io w b lba' st' k)
  have hr : (Pc.io w b lba' st' k).reusing = (s.pc t).reusing := by rw [hp]; rfl
  rw [hr] at u
  refine i.quiet u ⟨rfl, rfl⟩ (fun _ => rfl) fun a => ?_
  unfold held
  rw [hp]
  rfl

theorem CacheInv.resume (hc : s.Careful t (.resume ok)) :
    CacheInv ((s.resume t ok).getD s) := by
  unfold Cache.resume
  cases hp : s.pc t with
  | idle => exact i
  | retry c =>
    refine i.getblk ⟨fun _ => by rw [hp]; rfl, by rw [hp]; rfl⟩ (hc.seeks c.key ?_) hc.full
    simp [seeks, hp]
  | waitBuf b =>
    have hheld : ∀ a, s.held t a = (s.holds t).count a + if b = a then 1 else 0 := fun a => by
      unfold held
      rw [hp]
      rfl
    simp only
    split
    · exact i
    split
    · exact i.rebalance (s.give_upd t b) ⟨rfl, rfl⟩ (fun a => by rw [hheld])
        fun _ a _ _ _ => (hheld a).symm
    · exact i.rebalance (s.startRw_upd t false b .loaded) (s.startRw_sameKeys t false b .loaded)
        (fun a => by rw [hheld]; rfl) fun _ a _ _ _ => (hheld a).symm
  | io w b lba st k =>
    have hcl : s.KontClear t k := by
      cases k with
      | sync dev j =>
        intro t' b' k' _ hr
        exact hc.walks dev (by simp [walks, hp]) t' b' k' hr
      | reuse | loaded | done => trivial
    cases st with
    | lock =>
      simp only
      split
      · exact i
      split
      · have i₁ : CacheInv { s with hd := some t } :=
          i.congr ⟨⟨rfl, rfl⟩, fun _ => rfl, rfl, rfl⟩
        exact i₁.proceed hp
      · exact i.finish hp hcl hc.full
    | sector j =>
      have ha := s.moveSector_alike w b lba j
      have i₁ := i.congr ha
      have hp₁ := (congrFun ha.pc t).trans hp
      simp only
      split
      · split
        · exact i₁.proceed hp₁
        split
        · exact i₁.proceed hp₁
        · exact i₁.finish hp₁ (hcl.congr ha) fun a => by rw [ha.count]; exact hc.full a
      · exact i.finish hp hcl hc.full
    | complete => exact i.finish hp hcl hc.full

/-- **A careful step keeps the invariant.** -/
theorem CacheInv.step (hc : s.Careful t op) : CacheInv (s.step t op) := by
  by_cases hp : s.pc t = .idle
  · have hr : s.Rests t := ⟨fun _ => by rw [hp]; rfl, by rw [hp]; rfl⟩
    cases op with
    | resume ok => exact i.resume hc
    | getblk k =>
      simp only [step, if_pos hp]
      exact i.getblk hr (hc.seeks k (if_pos hp)) hc.full
    | bread k =>
      simp only [step, if_pos hp]
      exact i.getblk hr (hc.seeks k (if_pos hp)) hc.full
    | brelse b =>
      simp only [step, if_pos hp]
      split
      · next hb =>
        refine i.release
          ⟨fun _ => rfl, fun t' e => ⟨rfl, update_of_ne e _ _⟩, fun _ => rfl, ?_⟩
          ⟨(s.brelse_sameKeys b).key, (s.brelse_sameKeys b).hash⟩ (setBuf_count _) fun a => ?_
        · exact hr.reusing
        have hu : ((s.brelse b).pc t).uses a = 0 := hr.uses a
        rw [hr.held]
        show List.count a (update s.holds t ((s.holds t).erase b) t) + ((s.brelse b).pc t).uses a + _ = _
        rw [update_self, hu]
        by_cases e : b = a
        · subst e
          have := count_pos_iff.mpr hb
          rw [count_erase_self, if_pos rfl]
          omega
        · rw [count_erase_of_ne fun e' => e e'.symm, if_neg e]
          omega
      · exact i
    | llRw w b =>
      simp only [step, if_pos hp]
      split
      · refine i.rebalance (s.startRw_upd t w b .done) (s.startRw_sameKeys t w b .done)
          (fun a => ?_) fun _ a _ _ _ => ?_
        · rw [hr.held]
          simp [Kont.refs]
        · rw [hr.held]
          simp [Kont.refs]
      · exact i
    | sync dev =>
      simp only [step, if_pos hp]
      exact i.syncLoop hr (fun t' b k _ h => hc.walks dev rfl t' b k h) hc.full
    | modify b j x =>
      simp only [step, if_pos hp]
      split
      · exact i.congr (setBuf_alike rfl rfl)
      · exact i
  · cases op with
    | resume ok => exact i.resume hc
    | getblk | bread | brelse | llRw | sync | modify =>
      simp only [step, if_neg hp]
      exact i

/-- Every step of the run is careful. -/
def CarefulRun : Cache nt → List (Fin nt × BufOp) → Prop
  | _, [] => True
  | s, x :: ops => s.Careful x.1 x.2 ∧ CarefulRun (s.step x.1 x.2) ops

theorem CacheInv.run {ops : List (Fin nt × BufOp)} (h : CarefulRun s ops) :
    CacheInv (s.run ops) := by
  induction ops generalizing s with
  | nil => exact i
  | cons x ops ih => exact ih (i.step h.1) h.2

end

theorem cacheInv_init (nt : ℕ) (disk : ℕ → HdSector) : CacheInv (init nt disk) := by
  refine ⟨⟨fun h => ?_, fun _ => nodup_nil, fun h => ?_⟩, ⟨fun b => ?_, fun h => ?_⟩, ⟨fun h => ?_, fun h => ?_⟩⟩
  · cases h
  · cases h
  · simp [init, holders, held, Pc.uses]
  · cases h
  · cases h
  · cases h

/-! ### Whose block changes -/

/-- **What a step of the task `t` is made of.**  A head changes its block by being reused, and only if it is in
`V`; it gets dirty only if `m`, which is that its holder changes it. -/
inductive Edits (t : Fin nt) (m : Bool) (V : BufRef → Prop) : Cache nt → Cache nt → Prop where
  | refl {s : Cache nt} : Edits t m V s s
  | after {s s₁ s' : Cache nt} (h' : Edits t m V s₁ s') (h : Edits t m V s s₁) : Edits t m V s s'
  | pc {s : Cache nt} {p : Pc} : Edits t m V s (s.setPc t p)
  | holds {s : Cache nt} {l : List BufRef} : Edits t m V s { s with holds := update s.holds t l }
  | buf {s : Cache nt} {b : BufRef} {x : Buf} (hk : x.key = s.key b)
      (hd : x.dirt = true → (s.buf b).dirt = true ∨ m = true) : Edits t m V s (s.setBuf b x)
  | rehash {s : Cache nt} {b : BufRef} {k : Key} (h : V b) : Edits t m V s (s.rehash b k)
  | requeue {s : Cache nt} {b : BufRef} : Edits t m V s { s with free := requeue b s.free }
  | hd {s : Cache nt} {x : Option (Fin nt)} : Edits t m V s { s with hd := x }
  | disk {s : Cache nt} {f : ℕ → HdSector} : Edits t m V s { s with disk := f }

namespace Edits

variable {m : Bool} {V : BufRef → Prop}

/-- Neither the block nor the mark of the head changes. -/
theorem same (hk : x.key = s.key b) (hd : x.dirt = (s.buf b).dirt) : Edits t m V s (s.setBuf b x) :=
  .buf hk fun h => .inl (hd ▸ h)

theorem startRw {k : Kont} : Edits t m V s (s.startRw t w b k) := .after .pc (.same rfl rfl)

theorem gotBlk {c : BlkCall} : Edits t m V s (s.gotBlk t b c) := by
  cases c with
  | getblk k => exact .after .holds .pc
  | bread k =>
    simp only [Cache.gotBlk]
    split
    · exact .after .holds .pc
    split
    · exact .pc
    · exact .startRw

theorem getblk {c : BlkCall} (hz : ∀ b, (s.buf b).count = 0#8 → V b) : Edits t m V s (s.getblk t c) := by
  unfold Cache.getblk
  split
  · exact .after .gotBlk (.same rfl rfl)
  split
  · exact .pc
  next b hb =>
  split
  · exact .after .startRw (.same rfl rfl)
  · exact .after .gotBlk (.rehash (hz b (victim_some hb)))

theorem brelse : Edits t m V s (s.brelse b) := by
  have h : Edits t m V s (s.setBuf b { s.buf b with count := (s.buf b).count - 1#8 }) := .same rfl rfl
  unfold Cache.brelse
  split
  · exact .after .requeue h
  · exact h

theorem syncLoop : Edits t m V s (s.syncLoop t dev n j b) := by
  unfold Cache.syncLoop
  split
  · exact .pc
  · exact .after .startRw (.same rfl rfl)

theorem endRw : Edits t m V s (s.endRw w b ok) := by
  refine .buf rfl fun h => .inl ?_
  split at h
  · cases h
  · exact h

theorem afterRw {k : Kont} (hr : k.target.isSome → V b) : Edits t m V s (s.afterRw t b k) := by
  cases k with
  | reuse c => exact .after .gotBlk (.after (.rehash (hr rfl)) (.same rfl rfl))
  | loaded =>
    simp only [Cache.afterRw]
    split
    · exact .after .holds .pc
    · exact .after .pc .brelse
  | done => exact .pc
  | sync dev j => exact .after .syncLoop (.same rfl rfl)

theorem finish {k : Kont} (hr : k.target.isSome → V b) :
    Edits t m V s (s.finish t w b k ok) := .after (.afterRw hr) (.after .endRw .hd)

theorem moveSector {j : Fin 2} : Edits t m V s (s.moveSector w b lba j) := by
  unfold Cache.moveSector
  split
  · exact .disk
  · exact .same rfl rfl

theorem resume {s' : Cache nt} (hz : ∀ b, (s.buf b).count = 0#8 → V b)
    (hr : ∀ b k, (s.pc t).reusing = some (b, k) → V b) (h : s.resume t ok = some s') : Edits t m V s s' := by
  have hend : ∀ {w b lba st k}, s.pc t = .io w b lba st k → k.target.isSome → V b := by
    intro w b lba st k hp ht
    obtain ⟨k', hk'⟩ := Option.isSome_iff_exists.mp ht
    exact hr b k' (by rw [hp]; simp [Pc.reusing, hk'])
  unfold Cache.resume at h
  split at h
  · cases h
  · cases h
    exact .getblk hz
  · split at h
    · cases h
    split at h <;> cases h
    · exact .after .holds .pc
    · exact .startRw
  · next hp =>
    split at h
    · cases h
    split at h <;> cases h
    · exact .after .pc .hd
    · exact .finish (hend hp)
  · next hp =>
    split at h
    · split at h
      · cases h
        exact .after .pc .moveSector
      split at h <;> cases h
      · exact .after .pc .moveSector
      · exact .after (.finish (hend hp)) .moveSector
    · cases h
      exact .finish (hend hp)
  · next hp =>
    cases h
    exact .finish (hend hp)

/-- Another head keeps its block. -/
theorem key (h : Edits t m V s s') (hb : ¬ V b) : s'.key b = s.key b := by
  induction h with
  | after _ _ h₁ h₂ => exact h₁.trans h₂
  | buf hk => exact congrFun (setBuf_sameKeys hk).key b
  | @rehash s a k ha =>
    have e : b ≠ a := fun e => hb (e ▸ ha)
    rw [rehash_key, update_of_ne e]
  | refl | pc | holds | requeue | hd | disk => rfl

end Edits

/-- The holder changes the buffer. -/
def modifies : BufOp → Bool
  | .modify .. => true
  | .getblk _ | .bread _ | .brelse _ | .llRw .. | .sync _ | .resume _ => false

theorem step_edits (s : Cache nt) (t : Fin nt) (op : BufOp) : Edits t (modifies op)
    (fun b => (s.buf b).count = 0#8 ∨ ∃ k, (s.pc t).reusing = some (b, k)) s (s.step t op) := by
  cases op with
  | resume ok =>
    simp only [step]
    cases h : s.resume t ok with
    | none => exact .refl
    | some s' => exact .resume (fun _ => .inl) (fun _ k h => .inr ⟨k, h⟩) h
  | getblk k | bread k =>
    simp only [step]
    split
    · exact .getblk fun _ => .inl
    · exact .refl
  | brelse a =>
    simp only [step]
    split
    · split
      · exact .after .holds .brelse
      · exact .refl
    · exact .refl
  | llRw w a =>
    simp only [step]
    split
    · split
      · exact .startRw
      · exact .refl
    · exact .refl
  | sync dev =>
    simp only [step]
    split
    · exact .syncLoop
    · exact .refl
  | modify a j x =>
    simp only [step]
    split
    · split
      · exact .buf rfl fun _ => .inr rfl
      · exact .refl
    · exact .refl

/-- A head changes its block when it has no holder, or when `getblk()` has written it back. -/
theorem step_key (h : (s.step t op).key b ≠ s.key b) :
    (s.buf b).count = 0#8 ∨ ∃ k, (s.pc t).reusing = some (b, k) := by
  by_contra hb
  exact h ((s.step_edits t op).key hb)

/-- **The cache does not alias a block**, as long as no task looks for the old or the new block of
a head that is being written back for reuse.  Of two heads on the chains no two have one block,
every count is the number of references, and a head changes its block only when nobody else
refers to it and nobody holds it. -/
theorem cache_unaliased (disk : ℕ → HdSector) (ops : List (Fin nt × BufOp))
    (h : CarefulRun (init nt disk) ops) :
    (∀ i j a b, a ∈ ((init nt disk).run ops).hash i → b ∈ ((init nt disk).run ops).hash j →
      ((init nt disk).run ops).key a = ((init nt disk).run ops).key b → a = b) ∧
    (∀ b, (((init nt disk).run ops).buf b).count.toNat = ((init nt disk).run ops).holders b) ∧
    (∀ t op b, (((init nt disk).run ops).step t op).key b ≠ ((init nt disk).run ops).key b →
      ∀ t', b ∉ ((init nt disk).run ops).holds t' ∧ (t' ≠ t → ((init nt disk).run ops).held t' b = 0)) := by
  have i := (cacheInv_init nt disk).run h
  generalize (init nt disk).run ops = s at i
  refine ⟨fun i' j a b ha hb e => ?_, i.count.counted, fun t op b hne t' => ?_⟩
  · rw [i.hash.place ha] at ha
    rw [i.hash.place hb] at hb
    exact i.hash.single ha hb e
  have hcount : b ∈ s.holds t' → 1 + (s.pc t').uses b ≤ s.held t' b := fun hb =>
    Nat.add_le_add_right (count_pos_iff.mpr hb) _
  rcases step_key hne with hz | ⟨k, hr⟩
  · have h₀ := (i.unheld (t := t') hz).1
    exact ⟨fun hb => by have := hcount hb; omega, fun _ => h₀⟩
  have hone := i.count.lone hr
  have hle := s.held_le_holders t' b
  refine ⟨fun hb => ?_, fun e => i.not_held e.symm hr⟩
  have h₁ := hcount hb
  by_cases e : t' = t
  · rw [e, Pc.uses_of_reusing hr] at h₁
    rw [e] at hle
    omega
  · have := i.not_held (fun e' => e e'.symm) hr
    omega

/-- A task dirties a block, releases it, and wants another: the same head is written back, and
the task sleeps until the drive is ready for the first sector. -/
def wantsOther (x y : Key) : List (Fin 2 × BufOp) :=
  [(0, .getblk x), (0, .modify 0 0 fun _ => 0x41#8), (0, .brelse 0), (0, .getblk y), (0, .resume true)]

/-- The transfer goes through. -/
def goesThrough : List (Fin 2 × BufOp) := [(0, .resume true), (0, .resume true), (0, .resume true)]

def blockX : Key := ⟨1#16, 10#32⟩

def blockY : Key := ⟨1#16, 20#32⟩

/-- **Another task gets the old block, and its buffer is given to the new one**; or it gets the
new block, and then two heads have that. -/
theorem cache_aliases :
    (let s := (init 2 fun _ _ => 0#8).run (wantsOther blockX blockY ++ (1, .getblk blockX) :: goesThrough)
     s.holds 1 = [0] ∧ s.holds 0 = [0] ∧ s.key 0 = blockY ∧ (s.buf 0).count = 1#8) ∧
    (let s := (init 2 fun _ _ => 0#8).run (wantsOther blockX blockY ++ (1, .getblk blockY) :: goesThrough)
     0 ∈ s.hash blockY.hash ∧ 1 ∈ s.hash blockY.hash ∧ s.key 0 = blockY ∧ s.key 1 = blockY) := by
  decide

instance (s : Cache nt) (k : Key) : Decidable (s.Clear k) :=
  decidable_of_iff (∀ t, ∀ p ∈ (s.pc t).reusing, k ≠ p.2 ∧ k ≠ s.key p.1)
    ⟨fun h t b k' hr => h t (b, k') hr, fun h t p hr => h t p.1 p.2 hr⟩

/-- Two tasks get one block: they share the head. -/
theorem shared_counted : ((init 2 fun _ _ => 0#8).run
    [(0, .getblk blockX), (1, .getblk blockX)]).holders 0 = 2 := by
  have h : CarefulRun (init 2 fun _ _ => 0#8) [(0, .getblk blockX), (1, .getblk blockX)] := by
    refine ⟨⟨fun k hk => ?_, fun dev hd => (by cases hd), fun b => (by simp [init])⟩,
      ⟨fun k hk => ?_, fun dev hd => (by cases hd), fun b => ?_⟩, trivial⟩
    · obtain rfl : blockX = k := by simpa [seeks, init] using hk
      decide
    · obtain rfl : blockX = k := Option.some.inj hk
      decide
    · show (((init 2 fun _ _ => 0#8).rehash 0 blockX).buf b).count ≠ 255#8
      rw [rehash_count]
      by_cases e : b = 0
      · simp [e]
      · simp [e, init]
  rw [← (cache_unaliased _ _ h).2.1]
  decide

end Cache

end Linux001

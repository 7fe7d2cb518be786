import Linux001.Fs.InodeTable
import Linux001.Lib.Bits
import Linux001.Lib.Tally

/-!
# Fs — what the inode cache keeps

`iget()`, `iput()`, `get_empty_inode()`, `get_pipe_inode()` and `sync_inodes()` again, one call at a
time and without disk errors: a call is one step.  `holds` is what the callers have been given and
not yet put, with the inode they asked for; `last` is the last modification made to each inode.
Both are the specification's, not the kernel's.

`iget()` writes a dirty inode back before it reuses the slot; `get_empty_inode()` does not.  As long
as the slot it takes is clean, the cache and the disk together hold `last` (`inode_cache_keeps`).
-/

namespace Linux001

open Function List Prod InoKey

/-- The table, the inodes on disk, and the specification. -/
structure InodeCache where
  slot : InodeRef → MInode
  disk : InoKey → DInode
  /-- The device has a superblock. -/
  super : BitVec 16 → Bool
  holds : List (InodeRef × InoKey)
  last : InoKey → DInode

namespace InodeCache

def init (super : BitVec 16 → Bool) (disk : InoKey → DInode) : InodeCache :=
  ⟨fun _ => {}, disk, super, [], disk⟩

def setSlot (s : InodeCache) (e : InodeRef) (m : MInode) : InodeCache :=
  { s with slot := update s.slot e m }

/-- `write_inode`. -/
def writeInode (s : InodeCache) (e : InodeRef) : InodeCache :=
  if (s.slot e).iDev = 0#16 ∨ (s.slot e).iDirt = false ∨ s.super (s.slot e).iDev = false then s
  else
    { s.setSlot e { s.slot e with iDirt := false } with
      disk := update s.disk (s.slot e).key (s.slot e).body }

/-- The first slot with `i_count` 0. -/
def freeSlot (s : InodeCache) : Option InodeRef :=
  (List.finRange 64).find? fun e => (s.slot e).iCount = 0#8

/-- The slot is claimed, and `read_inode` is called. -/
def claim (s : InodeCache) (e : InodeRef) (k : InoKey) : Option InodeRef × InodeCache :=
  let m := { s.slot e with iCount := 1#8, iDev := k.dev, iNum := k.num, iDirt := false, iPipe := false }
  if k.dev = 0#16 then (some e, s.setSlot e m)
  else if s.super k.dev = false then (none, s.setSlot e { m with iDev := 0#16, iCount := 0#8 })
  else (some e, s.setSlot e (m.setBody (s.disk k)))

/-- **`iget`.** -/
def iget (s : InodeCache) (k : InoKey) : Option InodeRef × InodeCache :=
  match (List.finRange 64).find? fun e => (s.slot e).key = k with
  | some e => (some e, s.setSlot e { s.slot e with iCount := (s.slot e).iCount + 1#8 })
  | none =>
    match s.freeSlot with
    | none => (none, s)
    | some e => (s.writeInode e).claim e k

/-- **`get_pipe_inode`**, with `get_empty_inode`.  `page` is what `get_free_page` returns. -/
def getPipeInode (s : InodeCache) (page : Word) : Option InodeRef × InodeCache :=
  match s.freeSlot with
  | none => (none, s)
  | some e =>
    let m :=
      { s.slot e with
        iCount := 1#8, iDev := 0#16, iNum := 0#32, iDirt := false, iPipe := false, iNlinks := 0#8
        iSize := page }
    if page = 0#32 then (none, s.setSlot e { m with iCount := 0#8 })
    else
      (some e, s.setSlot e
        { m with
          iCount := 2#8, iPipe := true
          iZone := update (update m.iZone 0 0#16) 1 0#16 })

/-- **`iput`.**  The inode map is not kept here. -/
def iput (s : InodeCache) (e : InodeRef) : InodeCache :=
  let m := { s.slot e with iCount := (s.slot e).iCount - 1#8 }
  if m.iPipe ∧ m.iCount = 0#8 then s.setSlot e { m with iPipe := false, iSize := 0#32 }
  else s.setSlot e m

/-- **`sync_inodes`.** -/
def syncInodes (s : InodeCache) (dev : BitVec 16) : InodeCache :=
  (List.finRange 64).foldl (fun s e =>
    if (s.slot e).iDev = dev ∧ (s.slot e).iDirt then s.writeInode e else s) s

end InodeCache

/-- What the callers may do. -/
inductive CacheOp where
  | iget (k : InoKey)
  | iput (e : InodeRef) (k : InoKey)
  | pipe (page : Word)
  | sync (dev : BitVec 16)
  /-- The holder of an inode changes its body and sets `i_dirt`. -/
  | modify (e : InodeRef) (k : InoKey) (d : DInode)

namespace InodeCache

/-- **One step.** -/
def step (s : InodeCache) : CacheOp → InodeCache
  | .iget k =>
    match s.iget k with
    | (none, s₁) => s₁
    | (some e, s₁) => { s₁ with holds := (e, k) :: s₁.holds }
  | .iput e k =>
    if (e, k) ∈ s.holds then { s.iput e with holds := s.holds.erase (e, k) } else s
  | .pipe page =>
    match s.getPipeInode page with
    | (none, s₁) => s₁
    | (some e, s₁) => { s₁ with holds := (e, ⟨0#16, 0#32⟩) :: (e, ⟨0#16, 0#32⟩) :: s₁.holds }
  | .sync dev => s.syncInodes dev
  | .modify e k d =>
    if (e, k) ∈ s.holds ∧ k.dev ≠ 0#16 then
      { s.setSlot e { (s.slot e).setBody d with iDirt := true } with last := update s.last k d }
    else s

/-- **A run.** -/
def run (s : InodeCache) (ops : List CacheOp) : InodeCache := ops.foldl step s

/-- The callers have fewer than 256 references to an inode they ask for, and a pipe takes a slot
that is not dirty. -/
def Careful (s : InodeCache) : CacheOp → Prop
  | .iget k => k.dev ≠ 0#16 ∧ ∀ e, (s.slot e).key = k → (s.slot e).iCount ≠ 255#8
  | .pipe _ => ∀ e, s.freeSlot = some e → (s.slot e).iDirt = false
  | .iput .. | .sync _ | .modify .. => True

def CarefulRun : InodeCache → List CacheOp → Prop
  | _, [] => True
  | s, op :: ops => s.Careful op ∧ CarefulRun (s.step op) ops

/-! ### The invariant -/

/-- **The cache and the disk together hold the last modifications.** -/
structure CacheInv (s : InodeCache) : Prop where
  counted : ∀ e, (s.slot e).iCount.toNat = (s.holds.map Prod.fst).count e
  owner : ∀ {e k}, (e, k) ∈ s.holds → (s.slot e).key = k
  unique : ∀ {a b}, (s.slot a).key = (s.slot b).key → (s.slot a).iDev ≠ 0#16 → a = b
  mounted : ∀ {e}, (s.slot e).iDev ≠ 0#16 → s.super (s.slot e).iDev = true
  pipes : ∀ {e}, (s.slot e).iPipe = true → (s.slot e).iDev = 0#16
  cached : ∀ {e}, (s.slot e).iDev ≠ 0#16 → (s.slot e).body = s.last (s.slot e).key
  /-- Where the disk is behind, a dirty slot has the inode. -/
  behind : ∀ {k}, k.dev ≠ 0#16 → s.disk k = s.last k ∨ ∃ e, (s.slot e).key = k ∧ (s.slot e).iDirt = true

variable {s s₁ : InodeCache} {e : InodeRef} {k : InoKey} {m : MInode} {d : DInode}

theorem init_inv (super : BitVec 16 → Bool) (disk : InoKey → DInode) : CacheInv (init super disk) where
  counted _ := rfl
  owner h := nomatch h
  unique _ h := absurd rfl h
  mounted h := absurd rfl h
  pipes _ := rfl
  cached h := absurd rfl h
  behind _ := .inl rfl

@[simp] theorem setSlot_self (s : InodeCache) (e : InodeRef) (m : MInode) : (s.setSlot e m).slot e = m :=
  update_self ..

theorem body_setBody (m : MInode) (d : DInode) : (m.setBody d).body = d := rfl

/-- A free slot is held by nobody. -/
theorem CacheInv.not_held (h : CacheInv s) (he : (s.slot e).iCount = 0#8) (k : InoKey) : (e, k) ∉ s.holds := by
  intro hm
  have hpos : 0 < (s.holds.map fst).count e :=
    count_pos_iff.mpr (mem_map_of_mem hm)
  rw [← h.counted e, he] at hpos
  exact absurd hpos (by decide)

/-- The slot `e` has been written back: it is clean unless it has no device, and else the table is
as it was. -/
structure Written (s : InodeCache) (e : InodeRef) (s₁ : InodeCache) : Prop where
  inv : CacheInv s₁
  clean : (s₁.slot e).iDirt = false ∨ (s₁.slot e).iDev = 0#16
  key : ∀ a, (s₁.slot a).key = (s.slot a).key
  count : ∀ a, (s₁.slot a).iCount = (s.slot a).iCount
  dirt : ∀ {a}, (s₁.slot a).iDirt = true → (s.slot a).iDirt = true
  holds : s₁.holds = s.holds
  last : s₁.last = s.last

section
variable (h : CacheInv s)
include h

/-- **A slot keeps its inode**, and the others are left alone: what remains to be seen is the counting,
the bodies and the disk. -/
theorem CacheInv.keep (hslot : s₁.slot = update s.slot e m) (hkey : m.key = (s.slot e).key)
    (hpipe : m.iPipe = true → (s.slot e).iPipe = true) (hsuper : s₁.super = s.super)
    (hcount : m.iCount.toNat = (s₁.holds.map fst).count e)
    (hcounts : ∀ a, a ≠ e → (s₁.holds.map fst).count a = (s.holds.map fst).count a)
    (hown : ∀ {a k}, (a, k) ∈ s₁.holds → (s.slot a).key = k)
    (hbody : (s.slot e).iDev ≠ 0#16 → m.body = s₁.last (s.slot e).key)
    (hlast : ∀ {a}, a ≠ e → (s.slot a).iDev ≠ 0#16 → s₁.last (s.slot a).key = s.last (s.slot a).key)
    (hbehind : ∀ {k}, k.dev ≠ 0#16 →
      s₁.disk k = s₁.last k ∨ ∃ a, (s.slot a).key = k ∧ (s₁.slot a).iDirt = true) : CacheInv s₁ := by
  have hself : s₁.slot e = m := by rw [hslot, update_self]
  have hother : ∀ {a}, a ≠ e → s₁.slot a = s.slot a := fun ha => by rw [hslot, update_of_ne ha]
  have hkeys : ∀ a, (s₁.slot a).key = (s.slot a).key := by
    intro a
    by_cases ha : a = e
    · rw [ha, hself, hkey]
    · rw [hother ha]
  have hdevs : ∀ a, (s₁.slot a).iDev = (s.slot a).iDev := fun a => congrArg dev (hkeys a)
  refine ⟨fun a => ?_, fun {a k} hm => (hkeys a).trans (hown hm), fun {a b} hab hda => ?_, fun {a} ha => ?_,
    fun {a} ha => ?_, fun {a} ha => ?_, fun hk => ?_⟩
  · by_cases ha : a = e
    · rw [ha, hself, hcount]
    · rw [hother ha, hcounts a ha, h.counted a]
  · rw [hkeys, hkeys] at hab
    rw [hdevs] at hda
    exact h.unique hab hda
  · rw [hdevs] at ha ⊢
    rw [hsuper]
    exact h.mounted ha
  · rw [hdevs]
    by_cases hae : a = e
    · rw [hae, hself] at ha
      exact hae ▸ h.pipes (hpipe ha)
    · rw [hother hae] at ha
      exact h.pipes ha
  · rw [hdevs] at ha
    rw [hkeys]
    by_cases hae : a = e
    · rw [hae] at ha ⊢
      rw [hself, hbody ha]
    · rw [hother hae, hlast hae ha, h.cached ha]
  · rcases hbehind hk with hd | ⟨a, hka, hda⟩
    · exact .inl hd
    · exact .inr ⟨a, (hkeys a).trans hka, hda⟩

theorem CacheInv.written (e : InodeRef) : Written s e (s.writeInode e) := by
  unfold InodeCache.writeInode
  split
  · next hskip =>
    refine ⟨h, ?_, fun _ => rfl, fun _ => rfl, fun ha => ha, rfl, rfl⟩
    rcases hskip with hd | hd | hd
    · exact .inr hd
    · exact .inl hd
    by_contra hne
    rw [h.mounted (not_or.mp hne).2] at hd
    cases hd
  next hwr =>
  obtain ⟨hdev, hdirt, -⟩ : (s.slot e).iDev ≠ 0#16 ∧ (s.slot e).iDirt ≠ false ∧ _ := by
    simpa only [not_or] using hwr
  set m : MInode := { s.slot e with iDirt := false }
  set s₁ : InodeCache := { s.setSlot e m with disk := update s.disk (s.slot e).key (s.slot e).body }
  have hself : s₁.slot e = m := update_self ..
  have hother : ∀ {a}, a ≠ e → s₁.slot a = s.slot a := fun ha => update_of_ne ha ..
  -- nothing but the dirty flag of `e` has changed in the table
  have hslot : ∀ a, (s₁.slot a).key = (s.slot a).key ∧ (s₁.slot a).iCount = (s.slot a).iCount := by
    intro a
    by_cases ha : a = e
    · rw [ha, hself]
      exact ⟨rfl, rfl⟩
    · rw [hother ha]
      exact ⟨rfl, rfl⟩
  refine ⟨h.keep rfl rfl id rfl (h.counted e) (fun _ _ => rfl) h.owner h.cached (fun _ _ => rfl)
    fun {k} hk => ?_, .inl (by rw [hself]), fun a => (hslot a).1, fun a => (hslot a).2, fun {a} ha => ?_, rfl, rfl⟩
  · show update s.disk (s.slot e).key (s.slot e).body k = _ ∨ _
    by_cases hke : k = (s.slot e).key
    · rw [hke, update_self]
      exact .inl (h.cached hdev)
    rw [update_of_ne hke]
    refine (h.behind hk).imp_right ?_
    rintro ⟨a, hka, hda⟩
    exact ⟨a, hka, by rw [hother (by rintro rfl; exact hke hka.symm), hda]⟩
  · by_cases hae : a = e
    · subst hae
      simpa using hdirt
    · rwa [hother hae] at ha

/-! ### The steps -/

/-- **A free slot that is not dirty may be reused**: for nothing on disk, or for an inode that no
slot has, with the body from the disk.  `l` are the references to it that are handed out. -/
theorem CacheInv.reuse (hfree : (s.slot e).iCount = 0#8)
    (hclean : (s.slot e).iDirt = false ∨ (s.slot e).iDev = 0#16) (l : List (InodeRef × InoKey))
    (hl : ∀ x ∈ l, x = (e, m.key)) (hcount : m.iCount.toNat = l.length)
    (hpipe : m.iPipe = true → m.iDev = 0#16)
    (hm : m.iDev ≠ 0#16 → s.super m.iDev = true ∧ m.body = s.disk m.key ∧ ∀ a, (s.slot a).key ≠ m.key) :
    CacheInv { s.setSlot e m with holds := l ++ s.holds } := by
  set s₁ : InodeCache := { s.setSlot e m with holds := l ++ s.holds }
  have hself : s₁.slot e = m := update_self ..
  have hother : ∀ {a}, a ≠ e → s₁.slot a = s.slot a := fun ha => update_of_ne ha ..
  have hfst : ∀ a, (l.map fst).count a = if a = e then l.length else 0 := by
    intro a
    have hrep : l.map fst = replicate l.length e :=
      eq_replicate_iff.mpr ⟨length_map .., fun x hx => by
        obtain ⟨y, hy, rfl⟩ := mem_map.mp hx
        rw [hl y hy]⟩
    rw [hrep, count_replicate]
    simp only [beq_iff_eq]
    by_cases hae : a = e
    · rw [if_pos hae, if_pos hae.symm]
    · rw [if_neg hae, if_neg (Ne.symm hae)]
  refine ⟨fun a => ?_, fun {a k} hmem => ?_, fun {a b} hab hda => ?_, fun {a} ha => ?_, fun {a} ha => ?_,
    fun {a} ha => ?_, fun {k} hk => ?_⟩
  · rw [map_append, count_append, hfst, ← h.counted a]
    split
    · next hae =>
      subst hae
      rw [hself, hfree, hcount]
      rfl
    · next hae => rw [hother hae, Nat.zero_add]
  · rcases mem_append.mp hmem with hx | hx
    · obtain ⟨rfl, rfl⟩ := Prod.mk.inj (hl _ hx)
      rw [hself]
    have hae : a ≠ e := by
      rintro rfl
      exact h.not_held hfree k hx
    rw [hother hae]
    exact h.owner hx
  · by_cases ha : a = e <;> by_cases hb : b = e
    · rw [ha, hb]
    · subst ha
      rw [hself] at hab hda
      rw [hother hb] at hab
      exact absurd hab.symm ((hm hda).2.2 b)
    · subst hb
      rw [hself, hother ha] at hab
      have hdm : m.iDev ≠ 0#16 := by
        rw [hother ha] at hda
        rwa [show m.iDev = (s.slot a).iDev from (congrArg dev hab).symm]
      exact absurd hab ((hm hdm).2.2 a)
    · rw [hother ha] at hab hda
      rw [hother hb] at hab
      exact h.unique hab hda
  · by_cases hae : a = e
    · subst hae
      rw [hself] at ha ⊢
      exact (hm ha).1
    · rw [hother hae] at ha ⊢
      exact h.mounted ha
  · by_cases hae : a = e
    · subst hae
      rw [hself] at ha ⊢
      exact hpipe ha
    · rw [hother hae] at ha ⊢
      exact h.pipes ha
  · by_cases hae : a = e
    · subst hae
      rw [hself] at ha ⊢
      obtain ⟨-, hbody, habs⟩ := hm ha
      rw [hbody]
      rcases h.behind (k := m.key) ha with hdisk | ⟨b, hb, -⟩
      · exact hdisk
      · exact absurd hb (habs b)
    · rw [hother hae] at ha ⊢
      exact h.cached ha
  · rcases h.behind hk with hdisk | ⟨a, hka, hda⟩
    · exact .inl hdisk
    have hae : a ≠ e := by
      rintro rfl
      rcases hclean with hc | hc
      · rw [hda] at hc
        cases hc
      · exact hk (by rw [← hka]; exact hc)
    exact .inr ⟨a, by rw [hother hae, hka], by rw [hother hae, hda]⟩

/-- A slot keeps its inode and its body; the references to it change by one. -/
theorem CacheInv.recount {l : List (InodeRef × InoKey)} (hkey : m.key = (s.slot e).key)
    (hbody : m.iDev ≠ 0#16 → m.body = (s.slot e).body) (hdirt : m.iDirt = (s.slot e).iDirt)
    (hpipe : m.iPipe = true → (s.slot e).iPipe = true)
    (hcount : m.iCount.toNat = (l.map fst).count e)
    (hl : ∀ a, a ≠ e → (l.map fst).count a = (s.holds.map fst).count a)
    (hown : ∀ {a k}, (a, k) ∈ l → (s.slot a).key = k) : CacheInv { s.setSlot e m with holds := l } := by
  have hdev : m.iDev = (s.slot e).iDev := congrArg dev hkey
  refine h.keep rfl hkey hpipe rfl hcount hl hown (fun hd => ?_) (fun _ _ => rfl) fun hk => ?_
  · rw [hbody (hdev ▸ hd)]
    exact h.cached hd
  · refine (h.behind hk).imp_right ?_
    rintro ⟨a, hka, hda⟩
    refine ⟨a, hka, ?_⟩
    show (update s.slot e m a).iDirt = true
    by_cases hae : a = e
    · rw [hae, update_self, hdirt, ← hae, hda]
    · rw [update_of_ne hae, hda]

/-- **`iget`.** -/
theorem CacheInv.stepIget (hc : s.Careful (.iget k)) : CacheInv (s.step (.iget k)) := by
  obtain ⟨hk, hwrap⟩ := hc
  simp only [InodeCache.step, InodeCache.iget]
  cases hfind : (finRange 64).find? fun e => (s.slot e).key = k with
  | some e =>
    have hek : (s.slot e).key = k := by simpa using find?_some hfind
    -- one reference more, to the slot that has the inode
    refine h.recount (m := { s.slot e with iCount := (s.slot e).iCount + 1#8 }) rfl (fun _ => rfl) rfl id ?_
      (fun a ha => ?_) (fun {a k'} hm => ?_)
    · show ((s.slot e).iCount + 1#8).toNat = (e :: s.holds.map fst).count e
      rw [count_cons_self, ← h.counted e]
      exact Bits.toNat_succ (hwrap e hek)
    · exact count_cons_of_ne (Ne.symm ha)
    · rcases mem_cons.mp hm with hx | hx
      · obtain ⟨rfl, rfl⟩ := Prod.mk.inj hx
        exact hek
      · exact h.owner hx
  | none =>
    have habs : ∀ a, (s.slot a).key ≠ k := fun a => by
      have := find?_eq_none.mp hfind a (mem_finRange a)
      simpa using this
    cases hfree : s.freeSlot with
    | none => exact h
    | some e =>
      have hcount : (s.slot e).iCount = 0#8 := by simpa using find?_some hfree
      have hw := h.written e
      have hfree₁ : ((s.writeInode e).slot e).iCount = 0#8 := by rw [hw.count, hcount]
      simp only [InodeCache.claim, if_neg hk]
      by_cases hsup : (s.writeInode e).super k.dev = false
      · rw [if_pos hsup]
        exact hw.inv.reuse hfree₁ hw.clean [] (fun x hx => nomatch hx) rfl (fun _ => rfl) (fun h' => absurd rfl h')
      rw [if_neg hsup]
      refine hw.inv.reuse hfree₁ hw.clean [(e, k)] (fun x hx => ?_) rfl (fun h' => nomatch h')
        (fun _ => ⟨?_, rfl, fun a => ?_⟩)
      · rw [mem_singleton.mp hx]
        rfl
      · exact Bool.eq_true_of_not_eq_false hsup
      · rw [hw.key]
        exact habs a

/-- **`iput`.** -/
theorem CacheInv.stepIput (e : InodeRef) (k : InoKey) : CacheInv (s.step (.iput e k)) := by
  simp only [InodeCache.step]
  split
  · next hm =>
    have herase := fun a => Tally.count_map_erase fst hm a
    have hpos : 0 < (s.slot e).iCount.toNat := by
      rw [h.counted e]
      exact count_pos_iff.mpr (mem_map_of_mem hm)
    have hcount : ((s.slot e).iCount - 1#8).toNat = ((s.holds.erase (e, k)).map fst).count e := by
      have hpred := Bits.toNat_pred hpos
      have := herase e
      rw [if_pos rfl, ← h.counted e] at this
      omega
    have hothers : ∀ a, a ≠ e → ((s.holds.erase (e, k)).map fst).count a = (s.holds.map fst).count a := by
      intro a ha
      have := herase a
      rw [if_neg ha.symm] at this
      omega
    unfold InodeCache.iput
    simp only
    split
    · next hp =>
      exact h.recount rfl (fun hd => absurd (h.pipes hp.1) hd) rfl (fun h' => nomatch h') hcount hothers
        (fun hx => h.owner (mem_of_mem_erase hx))
    · exact h.recount rfl (fun _ => rfl) rfl id hcount hothers
        (fun hx => h.owner (mem_of_mem_erase hx))
  · exact h

/-- **`sys_pipe`**, if the slot that `get_empty_inode` takes is clean. -/
theorem CacheInv.stepPipe {page : Word} (hc : s.Careful (.pipe page)) :
    CacheInv (s.step (.pipe page)) := by
  simp only [InodeCache.step, InodeCache.getPipeInode]
  cases hfree : s.freeSlot with
  | none => exact h
  | some e =>
    have hcount : (s.slot e).iCount = 0#8 := by simpa using find?_some hfree
    have hclean := Or.inl (b := (s.slot e).iDev = 0#16) (hc e hfree)
    by_cases hp : page = 0#32
    · simp only [if_pos hp]
      exact h.reuse hcount hclean [] (fun x hx => nomatch hx) rfl (fun _ => rfl) (fun h' => absurd rfl h')
    simp only [if_neg hp]
    refine h.reuse hcount hclean [(e, ⟨0#16, 0#32⟩), (e, ⟨0#16, 0#32⟩)] (fun x hx => ?_) rfl
      (fun _ => rfl) (fun h' => absurd rfl h')
    rcases mem_cons.mp hx with rfl | hx
    · rfl
    · rw [mem_singleton.mp hx]
      rfl

/-- **A modification** by a holder. -/
theorem CacheInv.stepModify (e : InodeRef) (k : InoKey) (d : DInode) :
    CacheInv (s.step (.modify e k d)) := by
  simp only [InodeCache.step]
  split
  · next hm =>
    have hek := h.owner hm.1
    refine h.keep (m := { (s.slot e).setBody d with iDirt := true }) rfl rfl id rfl (h.counted e) (fun _ _ => rfl)
      h.owner (fun _ => ?_) (fun {a} hae ha => ?_) fun {k'} hk' => ?_
    · show d = update s.last k d (s.slot e).key
      rw [hek, update_self]
    · -- no other slot has the inode
      exact update_of_ne (fun h' => hae (h.unique (h'.trans hek.symm) ha)) ..
    · show s.disk k' = update s.last k d k' ∨ _
      by_cases hkk : k' = k
      · refine .inr ⟨e, hek.trans hkk.symm, ?_⟩
        show (update s.slot e _ e).iDirt = true
        rw [update_self]
      rw [update_of_ne hkk]
      refine (h.behind hk').imp_right ?_
      rintro ⟨a, hka, hda⟩
      refine ⟨a, hka, ?_⟩
      show (update s.slot e _ a).iDirt = true
      rw [update_of_ne (by rintro rfl; exact hkk (hka.symm.trans hek)), hda]
  · exact h

end

/-- What `sync_inodes` leaves, over the slots `l`: those of the device are clean. -/
structure Synced (s : InodeCache) (dev : BitVec 16) (l : List InodeRef) (s₁ : InodeCache) : Prop where
  inv : CacheInv s₁
  key : ∀ a, (s₁.slot a).key = (s.slot a).key
  dirt : ∀ {a}, (s₁.slot a).iDirt = true → (s.slot a).iDirt = true
  clean : ∀ {a}, a ∈ l → (s.slot a).iDev = dev → dev ≠ 0#16 → (s₁.slot a).iDirt = false
  last : s₁.last = s.last

theorem CacheInv.synced (dev : BitVec 16) : ∀ (l : List InodeRef) (s : InodeCache), CacheInv s →
    Synced s dev l (l.foldl (fun s e =>
      if (s.slot e).iDev = dev ∧ (s.slot e).iDirt then s.writeInode e else s) s)
  | [], s, h => ⟨h, fun _ => rfl, fun ha => ha, fun ha => (nomatch ha), rfl⟩
  | e :: l, s, h => by
      -- one slot, then the rest
      have hstep : Synced s dev [e] (if (s.slot e).iDev = dev ∧ (s.slot e).iDirt then s.writeInode e else s) := by
        split
        · have hw := h.written e
          refine ⟨hw.inv, hw.key, hw.dirt, fun {a} ha hdev hd => ?_, hw.last⟩
          rw [mem_singleton.mp ha] at hdev ⊢
          have hdev₁ : ((s.writeInode e).slot e).iDev = dev := by
            rw [show ((s.writeInode e).slot e).iDev = (s.slot e).iDev from congrArg InoKey.dev (hw.key e), hdev]
          exact hw.clean.resolve_right (hdev₁ ▸ hd)
        · next hskip =>
          refine ⟨h, fun _ => rfl, fun ha => ha, fun {a} ha hdev _ => ?_, rfl⟩
          rw [mem_singleton.mp ha] at hdev ⊢
          simpa [hdev] using hskip
      have hrest := CacheInv.synced dev l _ hstep.inv
      refine ⟨hrest.inv, fun a => (hrest.key a).trans (hstep.key a), fun ha => hstep.dirt (hrest.dirt ha),
        fun {a} ha hdev hd => ?_, hrest.last.trans hstep.last⟩
      rcases mem_cons.mp ha with rfl | ha
      · have hclean := hstep.clean (mem_singleton.mpr rfl) hdev hd
        by_contra hdirty
        rw [hrest.dirt (Bool.eq_true_of_not_eq_false hdirty)] at hclean
        cases hclean
      · refine hrest.clean ha ?_ hd
        exact (congrArg InoKey.dev (hstep.key a)).trans hdev

theorem CacheInv.step {op : CacheOp} (h : CacheInv s) (hc : s.Careful op) : CacheInv (s.step op) := by
  cases op with
  | iget k => exact h.stepIget hc
  | iput e k => exact h.stepIput e k
  | pipe page => exact h.stepPipe hc
  | sync dev => exact (CacheInv.synced dev _ s h).inv
  | modify e k d => exact h.stepModify e k d

theorem CacheInv.run {ops : List CacheOp} (h : CacheInv s) (hc : s.CarefulRun ops) : CacheInv (s.run ops) := by
  induction ops generalizing s with
  | nil => exact h
  | cons op ops ih => exact ih (h.step hc.1) hc.2

/-- What `iget` returns is what was last modified. -/
theorem CacheInv.iget_last (h : CacheInv s) (hk : k.dev ≠ 0#16) (hg : s.iget k = (some e, s₁)) :
    (s₁.slot e).body = s.last k := by
  unfold InodeCache.iget at hg
  split at hg
  · next e' hfind =>
    obtain ⟨rfl, rfl⟩ : e' = e ∧ _ = s₁ := by simpa using hg
    have hek : (s.slot e').key = k := by simpa using find?_some hfind
    rw [setSlot_self, ← hek]
    exact h.cached (by rw [show (s.slot e').iDev = k.dev from congrArg dev hek]; exact hk)
  next hfind =>
  have habs : ∀ a, (s.slot a).key ≠ k := fun a => by
    have := find?_eq_none.mp hfind a (mem_finRange a)
    simpa using this
  split at hg
  · cases hg
  next e' _ =>
  have hw := h.written e'
  unfold InodeCache.claim at hg
  simp only [if_neg hk] at hg
  split at hg
  · cases hg
  obtain ⟨rfl, rfl⟩ : e' = e ∧ _ = s₁ := by simpa using hg
  rw [setSlot_self, body_setBody, ← hw.last]
  rcases hw.inv.behind hk with hdisk | ⟨a, ha, -⟩
  · exact hdisk
  · exact absurd ((hw.key a).symm.trans ha) (habs a)

/-- After `sync_inodes` the disk has what was last modified. -/
theorem CacheInv.sync_last (h : CacheInv s) (hk : k.dev ≠ 0#16) : (s.syncInodes k.dev).disk k = s.last k := by
  have hs : Synced s k.dev (finRange 64) (s.syncInodes k.dev) := CacheInv.synced k.dev _ s h
  rw [← hs.last]
  rcases hs.inv.behind hk with hdisk | ⟨a, ha, hd⟩
  · exact hdisk
  · rw [hs.clean (mem_finRange a) (congrArg dev ((hs.key a).symm.trans ha)) hk] at hd
    cases hd

end InodeCache

open InodeCache in
/-- **No committed inode change is lost**, as long as `get_empty_inode` takes clean slots and no
inode has 256 references: `iget` returns the last modification, and after `sync_inodes` the disk has
it. -/
theorem inode_cache_keeps (super : BitVec 16 → Bool) (disk : InoKey → DInode) (ops : List CacheOp)
    (hc : (init super disk).CarefulRun ops) (k : InoKey) (hk : k.dev ≠ 0#16) :
    (∀ e s₁, ((init super disk).run ops).iget k = (some e, s₁) →
        (s₁.slot e).body = ((init super disk).run ops).last k) ∧
      (((init super disk).run ops).syncInodes k.dev).disk k = ((init super disk).run ops).last k := by
  have h := (init_inv super disk).run hc
  exact ⟨fun e s₁ hg => h.iget_last hk hg, h.sync_last hk⟩

namespace InodeCache

/-- An inode of the disk. -/
def someKey (n : Word) : InoKey := ⟨0x301#16, n⟩

/-- The disk at the start: every inode is empty. -/
def blankDisk : InodeCache := init (fun _ => true) fun _ => {}

/-- An inode is read, grown to 16 bytes and put; then somebody makes a pipe. -/
def growThenPipe : List CacheOp :=
  [.iget (someKey 1#32), .modify 0 (someKey 1#32) { iSize := 16#32 }, .iput 0 (someKey 1#32), .pipe 0x1000#32]

end InodeCache

open InodeCache in
/-- **A pipe drops the change**: the inode that is read next has size 0, and so has the disk after
`sync_inodes`. -/
theorem pipe_drops_change :
    (((blankDisk.run growThenPipe).last (someKey 1#32)).iSize = 16#32) ∧
      ((blankDisk.run growThenPipe).iget (someKey 1#32)).1 = some 1 ∧
      ((((blankDisk.run growThenPipe).iget (someKey 1#32)).2.slot 1).body.iSize = 0#32) ∧
      (((blankDisk.run growThenPipe).syncInodes 0x301#16).disk (someKey 1#32)).iSize = 0#32 := by
  decide +kernel

namespace InodeCache

/-- The same with a `sync` before the pipe. -/
def growSyncPipe : List CacheOp :=
  [.iget (someKey 1#32), .modify 0 (someKey 1#32) { iSize := 16#32 }, .iput 0 (someKey 1#32),
    .sync 0x301#16, .pipe 0x1000#32]

theorem growSyncPipe_careful : blankDisk.CarefulRun growSyncPipe := by
  refine ⟨⟨by decide, fun e he => ?_⟩, trivial, trivial, trivial, fun e he => ?_, trivial⟩
  · have hdev : (0#16 : BitVec 16) = 0x301#16 := congrArg dev he
    exact absurd hdev (by decide)
  · obtain rfl : (0 : InodeRef) = e := by
      refine Option.some.inj (Eq.trans ?_ he)
      decide +kernel
    decide +kernel

end InodeCache

open InodeCache in
/-- With a `sync` before the pipe, the change is kept. -/
theorem sync_before_pipe_keeps :
    (∀ e s₁, (blankDisk.run growSyncPipe).iget (someKey 1#32) = (some e, s₁) →
        (s₁.slot e).body = (blankDisk.run growSyncPipe).last (someKey 1#32)) ∧
      ((blankDisk.run growSyncPipe).syncInodes (someKey 1#32).dev).disk (someKey 1#32) =
        (blankDisk.run growSyncPipe).last (someKey 1#32) := by
  have hkeeps := inode_cache_keeps (fun _ => true) (fun _ => {}) growSyncPipe growSyncPipe_careful
    (someKey 1#32) (by decide)
  unfold blankDisk
  exact hkeeps

end Linux001

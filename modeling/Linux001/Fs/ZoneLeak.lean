import Linux001.Fs.Mkminix

/-!
# Fs — no zone is lost

`Excl` says that a zone which is stored is marked; here is the converse.  Zones are released when the
last link goes (`sys_unlink()`, `sys_rmdir()`) or with `O_TRUNC`, the inode itself when nobody holds it
any more (`iput()`), and `iput()` releases no zones: what a file gets between its last `unlink` and its
last `close` is lost.

The steps are those of `Fs.Zone`, with link counts and holders.
-/

namespace Linux001

open Function Vol List

namespace Vol

/-- **Every zone that is marked is stored somewhere.** -/
def Stored (v : Vol) : Prop :=
  ∀ j, v.zmap j = true → ∃ p, v.ref p ≠ 0#16 ∧ (v.ref p).toNat = v.firstdatazone + j

variable {v v' : Vol} {i : ℕ} {z : BitVec 16} {p₀ : Place} {j : ℕ}
  {next : ℕ} {files : List (List Block)} {v₀ : Vol}

theorem Grows.stored (h : Grows v v') (hs : Stored v) : Stored v' := by
  intro j hj
  rw [h.first]
  rcases h.marked hj with hv | hnew
  · obtain ⟨p, hp, he⟩ := hs j hv
    exact ⟨p, by rw [h.kept hp]; exact hp, by rw [h.kept hp]; exact he⟩
  · exact hnew

/-- **`sys_mkdir`** with a zone. -/
theorem Grows.mkdir (h : Excl v) (hs : Super v) (hi : v.imap i = false) (bs : List Byte)
    (hu : Fits (v.mkdir i bs)) : (v.mkdir i bs).imap i = true → Grows v (v.mkdir i bs) := by
  intro hin
  have hg₁ : Grows v (v.newInode i) := .same rfl rfl (ref_newInode hi)
  refine hg₁.trans ?_
  rcases mkdir_cases hs hu with e | ⟨z, v₂, blk, hf, e⟩
  · rw [e] at hin
    exact absurd ((update_self (f := (v.newInode i).imap) ..).symm.trans hin) (by decide)
  rw [e]
  obtain ⟨hf', hrefs⟩ := hf.setBlock (h.newInode hi) blk
  have hg : Grows (v.newInode i) ((v.newInode i).setBlock z blk) := .same rfl rfl hrefs
  have hx : Excl ((v.newInode i).setBlock z blk) :=
    (h.newInode hi).same (fun hm => ⟨hm.low, hm.high, hm.bit⟩) hrefs
  exact hg.trans (hx.putDirect (update_self ..) hf' (newInode_zone v i 0) fun e => absurd e (by decide)).1.toGrows

/-! ### Releasing -/

/-- The bit that `free_block` clears. -/
theorem freeBlock_zmap (hj : (v.freeBlock z).zmap j = true) :
    v.zmap j = true ∧ (v.firstdatazone ≤ z.toNat → z.toNat < v.nzones → z.toNat ≠ v.firstdatazone + j) := by
  unfold freeBlock at hj
  split at hj
  · next hr => exact ⟨hj, fun h₁ h₂ => by omega⟩
  next hr =>
  by_cases e : j = z.toNat - v.firstdatazone
  · rw [e] at hj
    exact absurd ((update_self ..).symm.trans hj) (by decide)
  · exact ⟨(update_of_ne e ..).symm.trans hj, fun h₁ h₂ => by omega⟩

theorem freeZone_zmap (hj : (v.freeZone z).zmap j = true) : v.zmap j = true ∧
    (z ≠ 0#16 → v.firstdatazone ≤ z.toNat → z.toNat < v.nzones → z.toNat ≠ v.firstdatazone + j) := by
  unfold freeZone at hj
  split at hj
  · next h0 => exact ⟨hj, fun h => absurd h0 h⟩
  · exact ⟨(freeBlock_zmap hj).1, fun _ => (freeBlock_zmap hj).2⟩

theorem freeZone_super (v : Vol) (z : BitVec 16) :
    (v.freeZone z).firstdatazone = v.firstdatazone ∧ (v.freeZone z).nzones = v.nzones := by
  have hc := Clears.freeZone (z := z) (S := fun _ => True) v fun _ => trivial
  exact ⟨hc.first, hc.last⟩

/-- The bits that are left after the loop over the direct zones. -/
theorem freeDirect_zmap (hj : (v.freeDirect i).zmap j = true) : v.zmap j = true ∧
    ∀ k : Fin 7, v.zone i k.castSucc ≠ 0#16 → v.firstdatazone ≤ (v.zone i k.castSucc).toNat →
      (v.zone i k.castSucc).toNat < v.nzones → (v.zone i k.castSucc).toNat ≠ v.firstdatazone + j := by
  have hloop : ∀ (l : List (Fin 7)) (v₁ : Vol), l.Nodup → v₁.firstdatazone = v.firstdatazone →
      v₁.nzones = v.nzones → (∀ k ∈ l, v₁.zone i k.castSucc = v.zone i k.castSucc) →
      (l.foldl (fun v k => (v.freeZone (v.zone i k.castSucc)).setZone i k.castSucc 0#16) v₁).zmap j = true →
      v₁.zmap j = true ∧ ∀ k ∈ l, v.zone i k.castSucc ≠ 0#16 → v.firstdatazone ≤ (v.zone i k.castSucc).toNat →
        (v.zone i k.castSucc).toNat < v.nzones → (v.zone i k.castSucc).toNat ≠ v.firstdatazone + j := by
    intro l
    induction l with
    | nil => exact fun v₁ _ _ _ _ h => ⟨h, by simp⟩
    | cons k₀ l ih =>
      intro v₁ hnd hf hn hz h
      obtain ⟨hk₀, hnd'⟩ := nodup_cons.mp hnd
      obtain ⟨hf', hn'⟩ := freeZone_super v₁ (v₁.zone i k₀.castSucc)
      have hzone : ((v₁.freeZone (v₁.zone i k₀.castSucc)).setZone i k₀.castSucc 0#16).zone i =
          update (v₁.zone i) k₀.castSucc 0#16 := by
        simp only [setZone, (freeZone_zone v₁ _).1, update_self]
      obtain ⟨hj', hrest⟩ := ih ((v₁.freeZone (v₁.zone i k₀.castSucc)).setZone i k₀.castSucc 0#16) hnd'
        (hf'.trans hf) (hn'.trans hn) (fun k hk => by
          have hkk : k.castSucc ≠ k₀.castSucc := fun e => hk₀ (Fin.castSucc_injective _ e ▸ hk)
          rw [hzone, update_of_ne hkk]
          exact hz k (mem_cons_of_mem _ hk)) h
      obtain ⟨hj₁, hne⟩ := freeZone_zmap hj'
      rw [hz k₀ mem_cons_self, hf, hn] at hne
      exact ⟨hj₁, forall_mem_cons.mpr ⟨hne, hrest⟩⟩
  obtain ⟨h₁, h₂⟩ := hloop (finRange 7) v (nodup_finRange 7) rfl rfl (fun _ _ => rfl) hj
  exact ⟨h₁, fun k => h₂ k (mem_finRange k)⟩

/-- The bits that are left after the loop over an indirect block. -/
theorem freeEntries_zmap {ind : BitVec 16} (hj : (v.freeEntries ind).zmap j = true) :
    v.zmap j = true ∧ ∀ k < 512, (v.block ind.toNat).short k ≠ 0#16 →
      v.firstdatazone ≤ ((v.block ind.toNat).short k).toNat → ((v.block ind.toNat).short k).toNat < v.nzones →
      ((v.block ind.toNat).short k).toNat ≠ v.firstdatazone + j := by
  have hloop : ∀ (l : List ℕ) (v₁ : Vol), v₁.firstdatazone = v.firstdatazone → v₁.nzones = v.nzones →
      v₁.block = v.block → (l.foldl (fun v k => v.freeZone ((v.block ind.toNat).short k)) v₁).zmap j = true →
      v₁.zmap j = true ∧ ∀ k ∈ l, (v.block ind.toNat).short k ≠ 0#16 →
        v.firstdatazone ≤ ((v.block ind.toNat).short k).toNat →
        ((v.block ind.toNat).short k).toNat < v.nzones →
        ((v.block ind.toNat).short k).toNat ≠ v.firstdatazone + j := by
    intro l
    induction l with
    | nil => exact fun v₁ _ _ _ h => ⟨h, by simp⟩
    | cons k₀ l ih =>
      intro v₁ hf hn hb h
      obtain ⟨hf', hn'⟩ := freeZone_super v₁ ((v₁.block ind.toNat).short k₀)
      have hb' := (Clears.freeZone (z := (v₁.block ind.toNat).short k₀) (S := fun _ => True) v₁
        fun _ => trivial).block
      obtain ⟨hj', hrest⟩ := ih _ (hf'.trans hf) (hn'.trans hn) (hb'.trans hb) h
      obtain ⟨hj₁, hne⟩ := freeZone_zmap hj'
      rw [hb, hf, hn] at hne
      exact ⟨hj₁, forall_mem_cons.mpr ⟨hne, hrest⟩⟩
  unfold freeEntries at hj
  obtain ⟨h₁, h₂⟩ := hloop _ v rfl rfl rfl hj
  exact ⟨h₁, fun k hk => h₂ k (mem_range.mpr hk)⟩

/-- The bits that are left after `truncate_inode` are those of other inodes' zones. -/
theorem truncate_zmap (h : Excl v) (hi : v.imap i = true) (hj : (v.truncate i).zmap j = true) :
    v.zmap j = true ∧ ∀ p : Place, p.ino = i → v.ref p ≠ 0#16 → (v.ref p).toNat ≠ v.firstdatazone + j := by
  obtain ⟨hc, -, hzone⟩ := freeDirect_spec v i (S := fun _ => True) fun _ _ => trivial
  have h7 : (v.freeDirect i).zone i 7 = v.zone i 7 := by
    rw [hzone, update_self]
    rfl
  have hdir : ∀ k, v.ref (.direct i k) = v.zone i k := fun k => if_pos hi
  -- the direct zones but the last
  have hsmall : ∀ j, (v.freeDirect i).zmap j = true → ∀ k : Fin 8, k ≠ 7 → v.zone i k ≠ 0#16 →
      (v.zone i k).toNat ≠ v.firstdatazone + j := fun j hj k hk hne => by
    have hlt : k.val < 7 := by
      omega
    obtain ⟨hlow, hhigh, -⟩ := h.used (by rw [hdir]; exact hne)
    rw [hdir] at hlow hhigh
    exact (freeDirect_zmap hj).2 ⟨k.val, hlt⟩ hne hlow hhigh
  unfold truncate at hj
  simp only [h7] at hj
  split at hj
  · next hz =>
    refine ⟨(freeDirect_zmap hj).1, fun p hp hne => ?_⟩
    cases p with
    | direct i' k =>
      obtain rfl : i' = i := hp
      rw [hdir] at hne ⊢
      exact hsmall j hj k (fun e => hne (e ▸ hz)) hne
    | indirect i' k =>
      obtain rfl : i' = i := hp
      exact absurd (if_neg fun h' => h'.2 hz) hne
  next hz =>
  obtain ⟨hc₂, -, -⟩ := freeEntries_spec (v.freeDirect i) (v.zone i 7) (S := fun _ => True) fun _ _ => trivial
  have hw := fun (j : ℕ) (hj : ((v.freeDirect i).freeEntries (v.zone i 7)).zmap j = true) =>
    freeEntries_zmap hj
  generalize (v.freeDirect i).freeEntries (v.zone i 7) = w at hj hc₂ hw
  obtain ⟨hj₂, hlast⟩ := freeBlock_zmap hj
  obtain ⟨hj₁, hent⟩ := hw j hj₂
  rw [hc.block, hc.first, hc.last] at hent
  rw [hc₂.first, hc₂.last, hc.first, hc.last] at hlast
  refine ⟨(freeDirect_zmap hj₁).1, fun p hp hne => ?_⟩
  obtain ⟨hlow, hhigh, -⟩ := h.used hne
  cases p with
  | direct i' k =>
    obtain rfl : i' = i := hp
    rw [hdir] at hne hlow hhigh ⊢
    by_cases hk : k = 7
    · subst hk
      exact hlast hlow hhigh
    · exact hsmall j hj₁ k hk hne
  | indirect i' k =>
    obtain rfl : i' = i := hp
    rw [ref_indirect hi hz] at hne hlow hhigh ⊢
    exact hent k.val k.isLt hne hlow hhigh

/-- **`truncate_inode`** loses no zone. -/
theorem Stored.truncate (h : Excl v) (hs : Stored v) (hi : v.imap i = true) : Stored (v.truncate i) := by
  obtain ⟨hc, hm, hz⟩ := truncate_spec v i (S := fun _ => True) (fun _ _ => trivial) fun _ _ _ => trivial
  have href := ref_cleared hm hc.block hz
  intro j hj
  obtain ⟨hv, hother⟩ := truncate_zmap h hi hj
  obtain ⟨p, hp, he⟩ := hs j hv
  have hpi : p.ino ≠ i := fun e => hother p e hp he
  exact ⟨p, by rw [href, if_neg hpi]; exact hp, by rw [href, if_neg hpi, hc.first]; exact he⟩

/-- **`free_inode`** of an inode without zones. -/
theorem Stored.freeInode (hs : Stored v) (hz : ∀ k, v.zone i k = 0#16) : Stored (v.freeInode i) := by
  have hg : Grows v (v.freeInode i) := .same rfl rfl fun p => ?_
  · exact hg.stored hs
  rw [ref_freeInode]
  split
  · next hp =>
    cases p with
    | direct i' k =>
      obtain rfl : i' = i := hp
      simp [ref, hz]
    | indirect i' k =>
      obtain rfl : i' = i := hp
      simp [ref, hz]
  · rfl

/-- A directory that `sys_mkdir` takes back, with its one zone. -/
theorem Stored.undo (h : Excl v) (hs : Stored v) (hi : v.imap i = true) (hz : ∀ k, k ≠ 0 → v.zone i k = 0#16) :
    Stored ((v.freeBlock (v.zone i 0)).freeInode i) := by
  obtain ⟨hzone, hm⟩ := freeBlock_zone v (v.zone i 0)
  have hc := Clears.freeBlock (z := v.zone i 0) (S := fun _ => True) v trivial
  have hdir : v.ref (.direct i 0) = v.zone i 0 := if_pos hi
  intro j hj
  obtain ⟨hv, hne⟩ := freeBlock_zmap hj
  obtain ⟨p, hp, he⟩ := hs j hv
  -- the only place of `i` is its first zone, whose bit has been cleared
  have hpi : p.ino ≠ i := by
    intro e
    cases p with
    | direct i' k =>
      obtain rfl : i' = i := e
      have hk : k = 0 := by
        by_contra hk
        exact hp ((if_pos hi).trans (hz k hk))
      subst hk
      obtain ⟨hlow, hhigh, -⟩ := h.used hp
      rw [hdir] at hlow hhigh he
      exact hne hlow hhigh he
    | indirect i' k =>
      obtain rfl : i' = i := e
      exact hp (if_neg fun h' => h'.2 (hz 7 (by decide)))
  have href : ((v.freeBlock (v.zone i 0)).freeInode i).ref p = v.ref p := by
    rw [ref_freeInode, if_neg hpi]
    cases p <;> simp only [ref, hzone, hm, hc.block]
  refine ⟨p, by rw [href]; exact hp, ?_⟩
  rw [href, he]
  exact congrArg (· + j) hc.first.symm

/-- The zones of a directory that has just been made. -/
theorem mkdir_zone (v : Vol) (i : ℕ) (bs : List Byte) (h : (v.mkdir i bs).imap i = true) (k : Fin 8)
    (hk : k ≠ 0) : (v.mkdir i bs).zone i k = 0#16 := by
  unfold mkdir at h ⊢
  simp only at h ⊢
  split
  · next hz =>
    rw [if_pos hz] at h
    exact absurd ((update_self (f := (v.newInode i).alloc.2.imap) ..).symm.trans h) (by decide)
  have hzone : (v.newInode i).alloc.2.zone = (v.newInode i).zone := by
    unfold alloc newBlock
    cases findClear (v.newInode i).zmap 0 (v.newInode i).bits <;> rfl
  simp only [setZone, setBlock, hzone, update_self, update_of_ne hk]
  simp [newInode]

/-! ### The image -/

/-- The zones of a file that is laid out all have a place. -/
theorem offset_surj {nz o : ℕ} (i : ℕ) (hn : nz ≤ 519) (ho : o < nz + if 7 < nz then 1 else 0) :
    ∃ p : Place, p.ino = i ∧ offset nz p = some o := by
  by_cases h : o < nz
  · by_cases h7 : o < 7
    · refine ⟨.direct i ⟨o, by omega⟩, rfl, ?_⟩
      simp only [offset, h7, h, if_true]
    refine ⟨.indirect i ⟨o - 7, by omega⟩, rfl, ?_⟩
    simp only [offset, if_pos (show o - 7 < nz - 7 by omega)]
    congr 1
    omega
  · have h7 : 7 < nz := by
      by_contra h7
      rw [if_neg h7] at ho
      omega
    rw [if_pos h7] at ho
    refine ⟨.direct i 7, rfl, ?_⟩
    simp only [offset, h7, if_true]
    rw [if_neg (by decide)]
    congr 1
    omega

theorem Stored.mkFile {n : ℕ} {blocks : List Block} (h : Made v next n) (hs : Stored v)
    (hn : nextZone next blocks.length ≤ v.nzones) (hlen : blocks.length ≤ 519) :
    Stored (v.mkFile next n blocks) := by
  have href := fun p => ref_mkFile h le_rfl hn p
  have hshort := h.inv.super.short
  have hpos := h.inv.super.pos
  intro j hj
  change (v.zmap j || (decide (next ≤ v.firstdatazone + j) &&
    decide (v.firstdatazone + j < nextZone next blocks.length))) = true at hj
  rw [Bool.or_eq_true, Bool.and_eq_true, decide_eq_true_iff, decide_eq_true_iff] at hj
  show ∃ p, (v.mkFile next n blocks).ref p ≠ 0#16 ∧ ((v.mkFile next n blocks).ref p).toNat = v.firstdatazone + j
  rcases hj with hj | ⟨hle, hlt⟩
  · obtain ⟨p, hp, he⟩ := hs j hj
    have hpi : p.ino ≠ n := by
      intro e
      refine hp ?_
      have hfree := h.dead le_rfl
      cases p with
      | direct i' k =>
        obtain rfl : i' = n := e
        simp [ref, hfree]
      | indirect i' k =>
        obtain rfl : i' = n := e
        simp [ref, hfree]
    exact ⟨p, by rw [href, if_neg hpi]; exact hp, by rw [href, if_neg hpi]; exact he⟩
  · obtain ⟨p, hp, ho⟩ := offset_surj n hlen (o := v.firstdatazone + j - next) (by
      unfold nextZone at hlt
      omega)
    have hval : (BitVec.ofNat 16 (next + (v.firstdatazone + j - next))).toNat = v.firstdatazone + j := by
      rw [BitVec.toNat_ofNat, Nat.mod_eq_of_lt (by omega)]
      omega
    have hr : (v.mkFile next n blocks).ref p = BitVec.ofNat 16 (next + (v.firstdatazone + j - next)) := by
      rw [href, if_pos hp, ho]
      rfl
    refine ⟨p, fun h0 => ?_, by rw [hr, hval]⟩
    rw [hr] at h0
    rw [h0] at hval
    have : (0#16).toNat = 0 := rfl
    omega

theorem Stored.mkFiles {n : ℕ} (h : Made v next n) (hs : Stored v)
    (hm : mkFiles v next n files = some v₀) : Stored v₀ := by
  induction files generalizing v next n with
  | nil =>
    obtain rfl := Option.some.inj hm
    exact hs
  | cons f fs ih =>
    unfold mkFiles at hm
    split at hm
    · cases hm
    · next hc => exact ih (h.mkFile (by omega)) (hs.mkFile h (by omega) (by omega)) hm

theorem mkminix_stored (h : mkminix files = some v₀) : Stored v₀ :=
  Stored.mkFiles made_blank (fun _ hj => nomatch hj) h

end Vol

/-! ### Links and holders -/

/-- The zones, the link counts, and how many descriptors, directories and programs hold each inode. -/
structure LinkedVol where
  vol : Vol
  nlinks : ℕ → Byte
  refs : ℕ → ℕ := fun _ => 0

/-- The calls, with the inodes that they have found.  A call that makes a directory entry writes to the
directory first. -/
inductive ZoneCall where
  /-- `creat`, `mknod`: the new inode is entered in its directory, or given up. -/
  | create (i : ℕ) (entered : Bool)
  /-- `mkdir` in the directory `d`. -/
  | mkdir (d i : ℕ) (bs : List Byte) (entered : Bool)
  /-- Somebody holds the inode: `open`, `chdir`, `chroot`, `execve`, `fork`. -/
  | hold (i : ℕ)
  /-- The last `close`, and the like. -/
  | drop (i : ℕ)
  | write (i k off : ℕ) (bs : List Byte)
  /-- `open(O_TRUNC)`. -/
  | truncate (i : ℕ)
  | link (i : ℕ)
  | unlink (i : ℕ)
  | rmdir (d i : ℕ)
  /-- `rename` from the directory `d` to `d'`, besides the entries. -/
  | move (d d' : ℕ)

namespace LinkedVol

/-- `iput` of a reference that the call has taken. -/
def put (s : LinkedVol) (i : ℕ) : LinkedVol :=
  if s.refs i = 0 ∧ s.nlinks i = 0#8 then { s with vol := s.vol.freeInode i } else s

def addLink (s : LinkedVol) (i : ℕ) : LinkedVol :=
  { s with nlinks := update s.nlinks i (s.nlinks i + 1#8) }

def dropLink (s : LinkedVol) (i : ℕ) : LinkedVol :=
  { s with nlinks := update s.nlinks i (s.nlinks i - 1#8) }

def setLinks (s : LinkedVol) (i : ℕ) (n : Byte) : LinkedVol := { s with nlinks := update s.nlinks i n }

/-- **One call.** -/
def step (s : LinkedVol) : ZoneCall → LinkedVol
  | .create i entered =>
    if s.vol.imap i then s
    else
      let s₁ := { s with vol := s.vol.newInode i }.setLinks i 1#8
      if entered then s₁ else { s₁ with vol := s₁.vol.freeInode i }
  | .mkdir d i bs entered =>
    if s.vol.imap i then s
    else
      let s₁ := { s with vol := s.vol.mkdir i bs }
      -- without a zone the inode has been freed again
      if s₁.vol.imap i = false then s₁.setLinks i 1#8
      else if entered then (s₁.setLinks i 2#8).addLink d
      else { s₁.setLinks i 2#8 with vol := (s₁.vol.freeBlock (s₁.vol.zone i 0)).freeInode i }
  | .hold i => { s with refs := update s.refs i (s.refs i + 1) }
  | .drop i => { s with refs := update s.refs i (s.refs i - 1) }.put i
  | .write i k off bs => { s with vol := s.vol.write i k off bs }
  | .truncate i => if s.vol.imap i then { s with vol := s.vol.truncate i } else s
  | .link i => s.addLink i
  | .unlink i =>
    if s.vol.imap i then
      let s₁ := s.dropLink i
      (if s₁.nlinks i = 0#8 then { s₁ with vol := s₁.vol.truncate i } else s₁).put i
    else s
  | .rmdir d i =>
    if s.vol.imap i then { (s.dropLink d).setLinks i 0#8 with vol := (s.vol.truncate i).freeInode i } else s
  | .move d d' => if d = d' then s else (((s.dropLink d).addLink d').put d).put d'

/-- **A run.** -/
def run (s : LinkedVol) (ops : List ZoneCall) : LinkedVol := ops.foldl step s

/-- **What keeps zones from being lost.**  Nobody writes to an inode without links, or behind the last
block that the indirect block has an entry for; link counts do not wrap, and a directory keeps a link
when something is moved or removed from it.  As in `Fs.ZoneInv`, the zones do not run out, and an
indirect block that is allocated is blank. -/
def Careful (s : LinkedVol) : ZoneCall → Prop
  | .write i k off bs => s.vol.imap i = true ∧ s.nlinks i ≠ 0#8 ∧ k < 519 ∧
    Vol.Fits (s.vol.write i k off bs) ∧ Vol.Blank s.vol i k
  | .mkdir d i bs _ => s.nlinks d ≠ 255#8 ∧ (s.vol.imap i = false → Vol.Fits (s.vol.mkdir i bs))
  | .link i => s.nlinks i ≠ 255#8
  | .rmdir d _ => s.nlinks d ≠ 1#8
  | .move d d' => s.nlinks d ≠ 1#8 ∧ s.nlinks d' ≠ 255#8
  | .create .. | .hold _ | .drop _ | .truncate _ | .unlink _ => True

def CarefulRun : LinkedVol → List ZoneCall → Prop
  | _, [] => True
  | s, op :: ops => s.Careful op ∧ CarefulRun (s.step op) ops

/-- **The invariant**: no zone is lost, and an inode without links has none. -/
structure Tight (s : LinkedVol) : Prop where
  inv : Vol.ZoneInv s.vol
  stored : Vol.Stored s.vol
  bare : ∀ {i}, s.vol.imap i = true → s.nlinks i = 0#8 → ∀ k, s.vol.zone i k = 0#16

variable {s : LinkedVol} {i d : ℕ} {bs : List Byte}

namespace Tight

section
variable (h : s.Tight) {n : ℕ → Byte}
include h

/-- An inode without zones is freed. -/
theorem freeInode (hz : s.vol.imap i = true → ∀ k, s.vol.zone i k = 0#16) :
    ({ s with vol := s.vol.freeInode i } : LinkedVol).Tight := by
  refine ⟨⟨⟨h.inv.super.pos, h.inv.super.short⟩, h.inv.excl.freeInode i⟩, ?_, fun {y} hy hl => ?_⟩
  · cases hi : s.vol.imap i with
    | true => exact h.stored.freeInode (hz hi)
    | false =>
      have hsame : s.vol.freeInode i = s.vol := by
        unfold Vol.freeInode
        rw [← hi, update_eq_self]
      rw [hsame]
      exact h.stored
  · change update s.vol.imap i false y = true at hy
    by_cases e : y = i
    · rw [e, update_self] at hy
      cases hy
    · rw [update_of_ne e] at hy
      exact h.bare hy hl

/-- **`iput`** releases no zones, and need not. -/
theorem put (i : ℕ) : (s.put i).Tight := by
  unfold LinkedVol.put
  split
  · next hc => exact h.freeInode fun hi => h.bare hi hc.2
  · exact h

/-- Link counts change, of inodes that have links then. -/
theorem relink (hn : ∀ y, n y = s.nlinks y ∨ n y ≠ 0#8) :
    ({ s with nlinks := n } : LinkedVol).Tight := by
  refine ⟨h.inv, h.stored, fun {y} hy hl => ?_⟩
  rcases hn y with e | e
  · exact h.bare hy (e ▸ hl)
  · exact absurd hl e

theorem addLink (hw : s.nlinks i ≠ 255#8) : (s.addLink i).Tight := by
  refine h.relink fun y => ?_
  by_cases e : y = i
  · right
    rw [e, update_self]
    intro h0
    exact hw (by rw [← BitVec.add_sub_cancel (s.nlinks i) 1#8, h0]; rfl)
  · exact .inl (update_of_ne e ..)

theorem dropLink (hw : s.nlinks i ≠ 1#8) : (s.dropLink i).Tight := by
  refine h.relink fun y => ?_
  by_cases e : y = i
  · right
    rw [e, update_self]
    intro h0
    exact hw (by rw [← BitVec.sub_add_cancel (s.nlinks i) 1#8, h0]; rfl)
  · exact .inl (update_of_ne e ..)

/-- **`truncate_inode`**, whatever becomes of the inode's links. -/
theorem truncate (hi : s.vol.imap i = true) (hn : ∀ y, y ≠ i → n y = s.nlinks y) :
    ({ s with vol := s.vol.truncate i, nlinks := n } : LinkedVol).Tight := by
  obtain ⟨e₁, e₂⟩ := s.vol.truncate_super i
  obtain ⟨-, hm, hz⟩ := truncate_spec s.vol i (S := fun _ => True) (fun _ _ => trivial) fun _ _ _ => trivial
  refine ⟨⟨⟨by rw [e₁]; exact h.inv.super.pos, by rw [e₂]; exact h.inv.super.short⟩, h.inv.excl.truncate hi⟩,
    h.stored.truncate h.inv.excl hi, fun {y} hy hl k => ?_⟩
  rw [hm] at hy
  rw [hz]
  by_cases e : y = i
  · rw [e, update_self]
  · rw [update_of_ne e]
    exact h.bare hy (hn y e ▸ hl) k

theorem create (hi : s.vol.imap i = false) :
    (({ s with vol := s.vol.newInode i } : LinkedVol).setLinks i 1#8).Tight := by
  have hg : Vol.Grows s.vol (s.vol.newInode i) := .same rfl rfl (ref_newInode hi)
  refine ⟨⟨⟨h.inv.super.pos, h.inv.super.short⟩, h.inv.excl.newInode hi⟩, hg.stored h.stored, fun {y} hy hl k => ?_⟩
  change update s.nlinks i 1#8 y = 0#8 at hl
  by_cases e : y = i
  · rw [e, update_self] at hl
    exact absurd hl (by decide)
  rw [update_of_ne e] at hl
  have hy' : s.vol.imap y = true := (update_of_ne e ..).symm.trans hy
  exact (congrFun (update_of_ne e ..) k).trans (h.bare hy' hl k)

/-- A pass of `write`, to an inode with links. -/
theorem write {k off : ℕ} (hi : s.vol.imap i = true) (hl : s.nlinks i ≠ 0#8) (hk : k < 519)
    (hu : Vol.Fits (s.vol.write i k off bs)) (hb : Vol.Blank s.vol i k) :
    ({ s with vol := s.vol.write i k off bs } : LinkedVol).Tight := by
  obtain ⟨hw, hg⟩ := h.inv.excl.write h.inv.super hi ⟨k, hk⟩ off bs hu hb
  refine ⟨⟨hw.super h.inv.super, hw.excl⟩, hg.stored h.stored, fun {y} hy hly j => ?_⟩
  have hy' : s.vol.imap y = true := (congrFun hw.imap y).symm.trans hy
  have hne : y ≠ i := fun e => hl (e ▸ hly)
  exact (congrFun (hw.kept hne hy').zone j).trans (h.bare hy' hly j)

/-- **`sys_mkdir`**: with a zone, the new directory has links. -/
theorem mkdir (hi : s.vol.imap i = false) (hu : Vol.Fits (s.vol.mkdir i bs))
    (hin : (s.vol.mkdir i bs).imap i = true) :
    (({ s with vol := s.vol.mkdir i bs } : LinkedVol).setLinks i 2#8).Tight := by
  obtain ⟨e₁, e₂⟩ := s.vol.mkdir_super i bs
  have hsup : Vol.Super (s.vol.mkdir i bs) :=
    ⟨by rw [e₁]; exact h.inv.super.pos, by rw [e₂]; exact h.inv.super.short⟩
  refine ⟨⟨hsup, h.inv.excl.mkdir h.inv.super hi bs hu⟩,
    (Vol.Grows.mkdir h.inv.excl h.inv.super hi bs hu hin).stored h.stored, fun {y} hy hl k => ?_⟩
  change update s.nlinks i 2#8 y = 0#8 at hl
  by_cases e : y = i
  · rw [e, update_self] at hl
    exact absurd hl (by decide)
  rw [update_of_ne e] at hl
  have hk := mkdir_kept h.inv hi bs hu e
  have hy' : s.vol.imap y = true := hk.imap.symm.trans hy
  exact (congrFun hk.zone k).trans (h.bare hy' hl k)

/-- A directory that could not be entered is taken back. -/
theorem undo (hi : s.vol.imap i = true) (hz : ∀ k, k ≠ 0 → s.vol.zone i k = 0#16) :
    ({ s with vol := (s.vol.freeBlock (s.vol.zone i 0)).freeInode i } : LinkedVol).Tight := by
  obtain ⟨hzone, hm⟩ := freeBlock_zone s.vol (s.vol.zone i 0)
  have hc := Vol.Clears.freeBlock (z := s.vol.zone i 0) (S := fun _ => True) s.vol trivial
  refine ⟨⟨⟨hc.first.symm ▸ h.inv.super.pos, hc.last.symm ▸ h.inv.super.short⟩, h.inv.excl.undo hi⟩,
    h.stored.undo h.inv.excl hi hz, fun {y} hy hl k => ?_⟩
  change update (s.vol.freeBlock (s.vol.zone i 0)).imap i false y = true at hy
  by_cases e : y = i
  · rw [e, update_self] at hy
    cases hy
  rw [update_of_ne e, hm] at hy
  show (s.vol.freeBlock (s.vol.zone i 0)).zone y k = 0#16
  rw [hzone]
  exact h.bare hy hl k

end

end Tight

/-- `sys_mkdir` that gets no zone frees its inode. -/
theorem mkdir_of_free (h : Vol.ZoneInv s.vol) (hu : Vol.Fits (s.vol.mkdir i bs))
    (hin : (s.vol.mkdir i bs).imap i = false) : s.vol.mkdir i bs = (s.vol.newInode i).freeInode i := by
  rcases mkdir_cases h.super hu with e | ⟨z, v₂, blk, hf, e⟩
  · exact e
  · rw [e, hf.eq] at hin
    exact absurd ((update_self ..).symm.trans hin) (by decide)

/-- **A step.** -/
theorem Tight.step {op : ZoneCall} (h : s.Tight) (hc : s.Careful op) : (s.step op).Tight := by
  cases op with
  | create i entered =>
    simp only [LinkedVol.step]
    split
    · exact h
    next hi =>
    have hnew := h.create (by simpa using hi)
    split
    · exact hnew
    refine hnew.freeInode fun _ k => ?_
    show update s.vol.zone i (fun _ => 0#16) i k = 0#16
    rw [update_self]
  | mkdir d i bs entered =>
    obtain ⟨hw, hfits⟩ := hc
    simp only [LinkedVol.step]
    split
    · exact h
    next hi =>
    have hi' : s.vol.imap i = false := by simpa using hi
    have hu := hfits hi'
    split
    · next hin =>
      rw [mkdir_of_free h.inv hu hin]
      refine (h.create hi').freeInode fun _ k => ?_
      show update s.vol.zone i (fun _ => 0#16) i k = 0#16
      rw [update_self]
    next hin =>
    have hin' : (s.vol.mkdir i bs).imap i = true := by simpa using hin
    have hmade := h.mkdir hi' hu hin'
    split
    · refine hmade.addLink ?_
      show update s.nlinks i 2#8 d ≠ 255#8
      by_cases e : d = i
      · rw [e, update_self]
        decide
      · rw [update_of_ne e]
        exact hw
    · exact hmade.undo hin' fun k hk => mkdir_zone s.vol i bs hin' k hk
  | hold i => exact ⟨h.inv, h.stored, h.bare⟩
  | drop i =>
    have hless : ({ s with refs := update s.refs i (s.refs i - 1) } : LinkedVol).Tight :=
      ⟨h.inv, h.stored, h.bare⟩
    exact hless.put i
  | write i k off bs => exact h.write hc.1 hc.2.1 hc.2.2.1 hc.2.2.2.1 hc.2.2.2.2
  | truncate i =>
    simp only [LinkedVol.step]
    split
    · next hi => exact h.truncate hi fun _ _ => rfl
    · exact h
  | link i => exact h.addLink hc
  | unlink i =>
    simp only [LinkedVol.step]
    split
    · next hi =>
      refine Tight.put ?_ i
      split
      · exact h.truncate hi fun y hy => update_of_ne hy ..
      next hl =>
      refine h.relink fun y => ?_
      by_cases e : y = i
      · exact .inr (e ▸ hl)
      · exact .inl (update_of_ne e ..)
    · exact h
  | rmdir d i =>
    simp only [LinkedVol.step]
    split
    · next hi =>
      have hcut := (h.dropLink hc).truncate hi (n := update (s.dropLink d).nlinks i 0#8)
        fun y hy => update_of_ne hy ..
      refine hcut.freeInode fun _ k => ?_
      obtain ⟨-, -, hz⟩ := truncate_spec s.vol i (S := fun _ => True) (fun _ _ => trivial)
        fun _ _ _ => trivial
      show (s.vol.truncate i).zone i k = 0#16
      rw [hz, update_self]
    · exact h
  | move d d' =>
    simp only [LinkedVol.step]
    split
    · exact h
    next hne =>
    have hd' : (s.dropLink d).nlinks d' ≠ 255#8 := by
      show update s.nlinks d _ d' ≠ 255#8
      rw [update_of_ne (Ne.symm hne)]
      exact hc.2
    exact (((h.dropLink hc.1).addLink hd').put d).put d'

/-- **A run.** -/
theorem Tight.run {ops : List ZoneCall} (h : s.Tight) (hc : s.CarefulRun ops) : (s.run ops).Tight := by
  induction ops generalizing s with
  | nil => exact h
  | cons op ops ih => exact ih (h.step hc.1) hc.2

/-- A zone that is stored belongs to an inode with links. -/
theorem Tight.linked (h : s.Tight) {p : Vol.Place} (hp : s.vol.ref p ≠ 0#16) : s.nlinks p.ino ≠ 0#8 := by
  intro hl
  cases p with
  | direct i k =>
    simp only [ref] at hp
    split at hp
    · next hi => exact hp (h.bare hi hl k)
    · exact hp rfl
  | indirect i k =>
    simp only [ref] at hp
    split at hp
    · next hc => exact hc.2 (h.bare hc.1 hl 7)
    · exact hp rfl

end LinkedVol

/-- `fd = creat("f")`, `unlink("f")`, `write(fd, "A", 1)`, `close(fd)`. -/
def writeUnlinked : List ZoneCall :=
  [.create 2 true, .hold 2, .unlink 2, .write 2 0 0 [0x41#8], .drop 2]

/-- The image with an empty root. -/
def rootVol : LinkedVol := { vol := Vol.rootImage, nlinks := fun _ => 2#8 }

/-- `fd = creat("f")`, `write(fd, "A", 1)`, `close(fd)`. -/
def writeLinked : List ZoneCall := [.create 2 true, .hold 2, .write 2 0 0 [0x41#8], .drop 2]

end Linux001

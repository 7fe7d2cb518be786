import Linux001.Fs.HeadsInv
import Linux001.Lib.Bits
import Linux001.Lib.Tally
import Linux001.Lib.Update

/-!
# Fs — the buffer cache and the disk as one store

A block is in the head that has it, and on the disk if there is none (`Cohere`).  The disk has one place for
a block number, whatever the device, so this is for blocks that have different places (`Platform.Apart`); and
`b_count` has 8 bits, so it is as long as no head is held 256 times (`Room`).  Every call keeps it: a dirty
head is written before it is reused, `sync_dev()` writes the dirty heads of the device, and `write_inode()`
changes the block of the inode as any other holder would.
-/

namespace Linux001

open Function List Heads BitVec

/-- The blocks `U` have device numbers that fit into `b_dev`, and different places on the disk. -/
structure Platform.Apart (m : Platform) (U : Word → Word → Prop) : Prop where
  small : ∀ {d k}, U d k → d.toNat < 65536
  place : ∀ {d k d' k'}, U d k → U d' k' → m.place k = m.place k' → d = d' ∧ k = k'

namespace Heads

variable {m : Platform} {U : Word → Word → Prop} {s s' : Heads} {L : Word → Word → BlockData} {b : BufRef}
variable {dev block : Word} {asked : List (BufRef × Word × Word)} {inode : InodeRef → MInode}
  {d k : Word} {a : BufRef}

/-- The device of a head, as the calls name it. -/
def devOf (s : Heads) (b : BufRef) : Word := (s.buf b).dev.setWidth 32

theorem isBlock_iff {x : Head} : x.isBlock dev block = true ↔ x.dev.setWidth 32 = dev ∧ x.blocknr = block := by
  simp [Head.isBlock]

/-- **The cache and the disk together are the store `L`.** -/
structure Cohere (m : Platform) (U : Word → Word → Prop) (s : Heads) (L : Word → Word → BlockData) : Prop where
  tidy : Tidy True s
  used : ∀ {b}, s.assigned b = true → U (s.devOf b) (s.buf b).blocknr
  fresh : ∀ {b}, s.assigned b = false → (s.buf b).dirt = false
  valid : ∀ {b}, s.assigned b = true → (s.buf b).uptodate = true
  cached : ∀ {b}, s.assigned b = true → (s.buf b).data = L (s.devOf b) (s.buf b).blocknr
  clean : ∀ {b}, s.assigned b = true → (s.buf b).dirt = false → s.disk (m.place (s.buf b).blocknr) = (s.buf b).data
  stored : ∀ {d k}, U d k → (∀ b, s.assigned b = true → ¬ (s.buf b).isBlock d k = true) → s.disk (m.place k) = L d k

/-- **What has been handed out is counted**, and is the block that was asked for. -/
structure Held (s : Heads) (asked : List (BufRef × Word × Word)) : Prop where
  counted : ∀ b, (s.buf b).count.toNat = (asked.map Prod.fst).count b
  owner : ∀ {b d k}, (b, d, k) ∈ asked → s.assigned b = true ∧ (s.buf b).isBlock d k = true

/-- A dirty head of `s'` was one of `s`. -/
def NoNewDirt (s s' : Heads) : Prop := ∀ a, s'.assigned a = true → (s'.buf a).dirt = true →
  s.assigned a = true ∧ (s.buf a).dirt = true ∧ (s'.buf a).dev = (s.buf a).dev

theorem NoNewDirt.trans {s₁ : Heads} (h : NoNewDirt s s₁) (h' : NoNewDirt s₁ s') : NoNewDirt s s' := by
  intro a ha hd
  obtain ⟨h₁, h₂, h₃⟩ := h' a ha hd
  obtain ⟨h₄, h₅, h₆⟩ := h a h₁ h₂
  exact ⟨h₄, h₅, h₃.trans h₆⟩

/-! ### Reading -/

section

variable (hdrive : ∀ n, m.drive n = true)
include hdrive

theorem llRwBlock_write (s : Heads) (b : BufRef) : s.llRwBlock m true b =
    { s.setBuf b { s.buf b with dirt := false, uptodate := true } with
      disk := update s.disk (m.place (s.buf b).blocknr) (s.buf b).data, tries := s.tries + 1 } := by
  simp [llRwBlock, hdrive, setBuf]

theorem llRwBlock_read (s : Heads) (b : BufRef) : s.llRwBlock m false b =
    { s.setBuf b { s.buf b with data := s.disk (m.place (s.buf b).blocknr), uptodate := true } with
      tries := s.tries + 1 } := by
  simp [llRwBlock, hdrive, setBuf]

/-- What is left of a head that is to be reused, and of the disk. -/
theorem writeBack_spec (s : Heads) (b : BufRef) :
    (∀ a, a ≠ b → (s.writeBack m b).buf a = s.buf a) ∧
    (s.writeBack m b).disk = (if (s.buf b).dirt then
      update s.disk (m.place (s.buf b).blocknr) (s.buf b).data else s.disk) ∧
    (s.writeBack m b).inode = s.inode := by
  unfold writeBack
  split
  · rw [llRwBlock_write hdrive]
    refine ⟨fun a e => ?_, ?_, rfl⟩
    · simp [setCount, setBuf, e]
    · simp [setCount, setBuf]
  · exact ⟨fun _ _ => rfl, rfl, rfl⟩

end

/-- What `bread` returns for a block that is not in the cache: the head `b`, loaded. -/
def loadedHead (m : Platform) (s : Heads) (b : BufRef) (dev block : Word) : Head where
  data := (s.writeBack m b).disk (m.place block)
  blocknr := block
  dev := dev.setWidth 16
  uptodate := true
  dirt := false
  count := 1#8

/-- The state that `bread` leaves then. -/
structure Loads (m : Platform) (s : Heads) (b : BufRef) (dev block : Word) (s' : Heads) : Prop where
  buf : s'.buf = update s.buf b (loadedHead m s b dev block)
  disk : s'.disk = (s.writeBack m b).disk
  inode : s'.inode = s.inode
  assigned : s'.assigned = update s.assigned b true
  tidy : Tidy True s'

theorem Loads.self (hl : Loads m s b dev block s') : s'.buf b = loadedHead m s b dev block := by
  rw [hl.buf, update_self]

theorem Loads.other (hl : Loads m s b dev block s') (e : a ≠ b) :
    s'.buf a = s.buf a ∧ s'.assigned a = s.assigned a := by
  rw [hl.buf, hl.assigned, update_of_ne e, update_of_ne e]
  exact ⟨rfl, rfl⟩

/-- **The two ways through `bread`.** -/
theorem bread_cases (hdrive : ∀ n, m.drive n = true) (h : Tidy True s)
    (hvalid : ∀ {b}, s.assigned b = true → (s.buf b).uptodate = true) (hdev : dev.toNat < 65536) :
    (s.bread m dev block).Holds fun r => ∃ b, r.1 = some b ∧
      ((s.assigned b = true ∧ (s.buf b).isBlock dev block = true ∧ r.2 = s.setCount b ((s.buf b).count + 1#8)) ∨
        ((s.buf b).count = 0#8 ∧ (∀ a, s.assigned a = true → ¬ (s.buf a).isBlock dev block = true) ∧
          Loads m s b dev block r.2)) := by
  obtain ⟨ring, chain, hl⟩ := h.1
  have htidy : (s.bread m dev block).Holds fun r => Tidy True r.2 := h.bread fun _ => setWidth_small hdev
  have hget : (s.getblk m dev block).Holds fun r => Found s dev block r ∨ Taken m s dev block r := hl.getblk.1
  unfold bread at htidy ⊢
  cases hg : s.getblk m dev block with
  | fault => rw [hg] at hget; exact hget
  | asleep => trivial
  | done r =>
    rw [hg] at hget htidy
    rcases hget with ⟨h₁, h₂, h₃⟩ | ⟨h₁, h₂, h₃⟩
    · have hup : (r.2.buf r.1).uptodate = true := by
        rw [h₃]
        simpa [setCount, setBuf] using hvalid h₁
      simp only [CallResult.bind, hup, if_true]
      exact ⟨r.1, rfl, .inl ⟨h₁, h₂, h₃⟩⟩
    have hbuf : r.2.buf r.1 = { (s.writeBack m r.1).buf r.1 with
        count := 1#8, dev := dev.setWidth 16, blocknr := block, uptodate := false, dirt := false } := by
      rw [h₃, reuse_buf, update_self]
    have hup : (r.2.buf r.1).uptodate = false := by rw [hbuf]
    simp only [CallResult.bind, hup, Bool.false_eq_true, if_false, llRwBlock_read hdrive] at htidy ⊢
    have hup' : ((r.2.setBuf r.1 { r.2.buf r.1 with
        data := r.2.disk (m.place (r.2.buf r.1).blocknr), uptodate := true }).buf r.1).uptodate = true := by
      simp [setBuf]
    simp only [hup', if_true] at htidy ⊢
    refine ⟨r.1, rfl, .inr ⟨h₁, h₂, ?_, ?_, ?_, ?_, htidy⟩⟩
    · show update r.2.buf r.1 _ = _
      have hd : r.2.disk = (s.writeBack m r.1).disk := by rw [h₃]; exact reuse_outer.1
      have hother : update r.2.buf r.1 = update s.buf r.1 := by
        funext y a
        by_cases e : a = r.1
        · rw [e, update_self, update_self]
        · rw [update_of_ne e, update_of_ne e, h₃, reuse_buf, update_of_ne e, (writeBack_spec hdrive s r.1).1 a e]
      rw [hother, hbuf, hd]
      rfl
    · rw [h₃]
      exact reuse_outer.1
    · rw [h₃]
      exact reuse_outer.2.trans (writeBack_spec hdrive s r.1).2.2
    · rw [h₃]
      exact (reuse_frame _ _ _ _).1.trans (by rw [(Same.writeBack).assigned])

/-- What the cache means is in its heads, but for the counts, and on the disk. -/
theorem Cohere.congr (h : Cohere m U s L) (ht : Tidy True s')
    (hb : ∀ a, s'.buf a = { s.buf a with count := (s'.buf a).count }) (hd : s'.disk = s.disk)
    (ha : s'.assigned = s.assigned) : Cohere m U s' L := by
  have hdev : ∀ a, s'.devOf a = s.devOf a := fun a => by
    unfold devOf
    rw [hb]
  refine ⟨ht, fun {a} h' => ?_, fun {a} h' => ?_, fun {a} h' => ?_, fun {a} h' => ?_, fun {a} h' hc => ?_,
    fun {d k} hk hn => ?_⟩
  · rw [ha] at h'
    rw [hdev, hb]
    exact h.used h'
  · rw [ha] at h'
    rw [hb]
    exact h.fresh h'
  · rw [ha] at h'
    rw [hb]
    exact h.valid h'
  · rw [ha] at h'
    rw [hdev, hb]
    exact h.cached h'
  · rw [ha] at h'
    rw [hb] at hc ⊢
    rw [hd]
    exact h.clean h' hc
  · rw [hd]
    refine h.stored hk fun a h' hblk => hn a ?_ ?_
    · rw [ha]
      exact h'
    · rw [hb]
      exact hblk

theorem setCount_buf (s : Heads) (b : BufRef) (n : Byte) (a : BufRef) :
    (s.setCount b n).buf a = { s.buf a with count := ((s.setCount b n).buf a).count } := by
  by_cases e : a = b
  · subst e
    simp [setCount, setBuf]
  · simp [setCount, setBuf, e]

theorem Cohere.setCount (h : Cohere m U s L) (n : Byte) : Cohere m U (s.setCount b n) L :=
  h.congr (h.tidy.same .setCount) (setCount_buf s b n) rfl rfl

/-- The old block of a head that is reused is on the disk. -/
theorem Cohere.load_old (hdrive : ∀ n, m.drive n = true) (h : Cohere m U s L) (hl : Loads m s b dev block s')
    (ha : s.assigned b = true) : s'.disk (m.place (s.buf b).blocknr) = (s.buf b).data := by
  rw [hl.disk, (writeBack_spec hdrive s b).2.1]
  cases hd : (s.buf b).dirt with
  | true => simp
  | false => exact h.clean ha hd

theorem Held.unasked (h : Held s asked) (hz : (s.buf b).count = 0#8) : (b, d, k) ∉ asked := fun hmem => by
  have h₁ := h.counted b
  rw [hz] at h₁
  have h₂ : 0 < (asked.map Prod.fst).count b := List.count_pos_iff.mpr (List.mem_map_of_mem hmem)
  have h₃ : (0#8).toNat = 0 := rfl
  omega

/-- One more has been handed out. -/
theorem Held.cons (h : Held s asked)
    (hcount : ∀ a, (s'.buf a).count.toNat = (s.buf a).count.toNat + if b = a then 1 else 0)
    (hb : s'.assigned b = true ∧ (s'.buf b).isBlock dev block = true)
    (hother : ∀ a d k, (a, d, k) ∈ asked → s'.assigned a = true ∧ (s'.buf a).isBlock d k = true) :
    Held s' ((b, dev, block) :: asked) := by
  refine ⟨fun a => ?_, fun {a d k} hmem => ?_⟩
  · rw [hcount, h.counted, map_cons, count_cons]
    simp only [beq_iff_eq]
  · rcases mem_cons.mp hmem with e | hmem
    · cases e
      exact hb
    · exact hother a d k hmem

theorem Cohere.brelse (h : Cohere m U s L) (hh : Held s asked) (hmem : (b, d, k) ∈ asked) :
    (s.brelse b).Holds fun s' => Cohere m U s' L ∧ Held s' (asked.erase (b, d, k)) ∧ s'.inode = s.inode ∧
      s'.assigned = s.assigned ∧ ∀ a, (s'.buf a).dirt = (s.buf a).dirt ∧ (s'.buf a).dev = (s.buf a).dev := by
  have ht := h.tidy.brelse b
  cases hb : s.brelse b with
  | fault => rw [hb] at ht; exact ht
  | asleep => trivial
  | done s' =>
    rw [hb] at ht
    obtain ⟨e₁, e₂, e₃, e₄⟩ := brelse_frame hb
    have hsame : Same s (s.setCount b ((s.buf b).count - 1#8)) := .setCount
    have hpos : 1 ≤ (s.buf b).count.toNat := by
      rw [hh.counted]
      exact count_pos_iff.mpr (mem_map_of_mem hmem)
    have hbuf : ∀ a, s'.buf a = { s.buf a with count := (s'.buf a).count } := by
      rw [e₁]
      exact setCount_buf s b _
    refine ⟨h.congr ht hbuf e₂ e₄, ⟨fun a => ?_, fun {a d' k'} hm => ?_⟩, e₃, e₄, fun a => ?_⟩
    · have h₁ := hh.counted a
      have h₂ := Tally.count_map_erase Prod.fst hmem a
      rw [e₁]
      by_cases ea : a = b
      · subst ea
        have h₃ := Bits.toNat_pred hpos
        rw [if_pos rfl] at h₂
        simp only [Heads.setCount, setBuf, update_self]
        omega
      · rw [if_neg fun e => ea e.symm] at h₂
        simp only [Heads.setCount, setBuf, update_of_ne ea]
        omega
    · unfold Head.isBlock
      rw [e₄, e₁, hsame.dev, hsame.blocknr]
      exact hh.owner (mem_of_mem_erase hm)
    · rw [hbuf]
      exact ⟨rfl, rfl⟩

/-- Two heads of one block are one head. -/
theorem Cohere.eq_of_isBlock (h : Cohere m U s L) (ha : s.assigned a = true) (hb : s.assigned b = true)
    (e : (s.buf a).isBlock (s.devOf b) (s.buf b).blocknr = true) : a = b := by
  obtain ⟨e₁, e₂⟩ := isBlock_iff.mp e
  have e₁' : (s.buf a).dev = (s.buf b).dev := by
    have := congrArg (setWidth 16) e₁
    simpa [devOf] using this
  exact h.tidy.2 trivial a b ha hb e₁' e₂

/-- **A held block is changed**, and the store with it. -/
theorem Cohere.modify (h : Cohere m U s L) (hb : s.assigned b = true) (hblk : (s.buf b).isBlock dev block = true)
    (x : BlockData) :
    Cohere m U (s.setBuf b { s.buf b with data := x, dirt := true }) (update₂ L dev block x) := by
  obtain ⟨hd, hn⟩ := isBlock_iff.mp hblk
  have hsame : Same s (s.setBuf b { s.buf b with data := x, dirt := true }) := .setBuf rfl rfl
  have hdev : ∀ a, (s.setBuf b { s.buf b with data := x, dirt := true }).devOf a = s.devOf a := fun a => by
    unfold devOf
    rw [hsame.dev]
  have hself : (s.setBuf b { s.buf b with data := x, dirt := true }).buf b = { s.buf b with data := x, dirt := true } :=
    update_self ..
  have hne : ∀ {a}, a ≠ b → (s.setBuf b { s.buf b with data := x, dirt := true }).buf a = s.buf a := fun e =>
    update_of_ne e _ _
  refine ⟨h.tidy.same hsame, fun {a} ha => ?_, fun {a} ha => ?_, fun {a} ha => ?_, fun {a} ha => ?_,
    fun {a} ha hc => ?_, fun {d k} hk hno => ?_⟩
  · rw [hdev, hsame.blocknr]
    exact h.used ha
  · have ea : a ≠ b := fun e => by
      subst e
      rw [show s.assigned a = false from ha] at hb
      cases hb
    rw [hne ea]
    exact h.fresh ha
  · by_cases ea : a = b
    · subst ea
      rw [hself]
      exact h.valid ha
    · rw [hne ea]
      exact h.valid ha
  · by_cases ea : a = b
    · subst ea
      rw [hdev, hself]
      rw [show s.devOf a = dev from hd, hn, update₂_self]
    · rw [hdev, hne ea, update₂_of_ne]
      · exact h.cached ha
      · rintro ⟨e₁, e₂⟩
        refine ea (h.eq_of_isBlock ha hb (isBlock_iff.mpr ⟨e₁.trans hd.symm, e₂.trans hn.symm⟩))
  · by_cases ea : a = b
    · subst ea
      rw [hself] at hc
      cases hc
    · rw [hne ea] at hc ⊢
      exact h.clean ha hc
  · have hkey : ¬ (d = dev ∧ k = block) := by
      rintro ⟨rfl, rfl⟩
      refine hno b hb ?_
      rw [hself]
      exact hblk
    rw [update₂_of_ne hkey]
    refine h.stored hk fun a ha hblk' => hno a ha ?_
    unfold Head.isBlock at hblk' ⊢
    rwa [hsame.dev, hsame.blocknr]

/-- The counts and the blocks are all that matters to the holders. -/
theorem Held.congr (h : Held s asked) (e : Same s s') (hc : ∀ a, (s'.buf a).count = (s.buf a).count) :
    Held s' asked := by
  refine ⟨fun a => by rw [hc]; exact h.counted a, fun {a d k} hm => ?_⟩
  unfold Head.isBlock
  rw [e.assigned, e.dev, e.blocknr]
  exact h.owner hm

section
variable (hdrive : ∀ n, m.drive n = true) (hU : m.Apart U) (h : Cohere m U s L)
include hdrive hU h

/-- No other place on the disk changes. -/
theorem Cohere.load_place
    (hl : Loads m s b dev block s') (hdk : U d k)
    (hno : s.assigned b = true → ¬ (s.buf b).isBlock d k = true) : s'.disk (m.place k) = s.disk (m.place k) := by
  rw [hl.disk, (writeBack_spec hdrive s b).2.1]
  cases hd : (s.buf b).dirt with
  | false => rfl
  | true =>
    have ha : s.assigned b = true := by
      by_contra ha
      rw [h.fresh (by simpa using ha)] at hd
      cases hd
    have hplace : m.place k ≠ m.place (s.buf b).blocknr := fun e => by
      obtain ⟨e₁, e₂⟩ := hU.place hdk (h.used ha) e
      exact hno ha (isBlock_iff.mpr ⟨e₁.symm, e₂.symm⟩)
    simp [hplace]

/-- **A block is loaded into a head**, whose old block goes back to the disk. -/
theorem Cohere.load (hk : U dev block)
    (hnew : ∀ a, s.assigned a = true → ¬ (s.buf a).isBlock dev block = true) (hl : Loads m s b dev block s') :
    Cohere m U s' L ∧ (loadedHead m s b dev block).data = L dev block := by
  have hb := hl.self
  have hne : ∀ {a}, a ≠ b → s'.buf a = s.buf a := fun e => (hl.other e).1
  have hassigned : ∀ {a}, a ≠ b → s'.assigned a = s.assigned a := fun e => (hl.other e).2
  have hdevb : s'.devOf b = dev := by
    unfold devOf
    rw [hb]
    exact setWidth_small (hU.small hk)
  have hdevne : ∀ {a}, a ≠ b → s'.devOf a = s.devOf a := fun e => by
    unfold devOf
    rw [hne e]
  have hdata : (loadedHead m s b dev block).data = L dev block := by
    show (s.writeBack m b).disk (m.place block) = _
    rw [← hl.disk, h.load_place hdrive hU hl hk fun ha => hnew b ha]
    exact h.stored hk hnew
  refine ⟨⟨hl.tidy, fun {a} ha => ?_, fun {a} ha => ?_, fun {a} ha => ?_, fun {a} ha => ?_, fun {a} ha hd => ?_,
    fun {d k} hdk hno => ?_⟩, hdata⟩
  · by_cases e : a = b
    · subst e
      rw [hdevb, hb]
      exact hk
    · rw [hassigned e] at ha
      rw [hdevne e, hne e]
      exact h.used ha
  · by_cases e : a = b
    · subst e
      rw [hb]
      rfl
    · rw [hassigned e] at ha
      rw [hne e]
      exact h.fresh ha
  · by_cases e : a = b
    · subst e
      rw [hb]
      rfl
    · rw [hassigned e] at ha
      rw [hne e]
      exact h.valid ha
  · by_cases e : a = b
    · subst e
      rw [hdevb, hb]
      exact hdata
    · rw [hassigned e] at ha
      rw [hdevne e, hne e]
      exact h.cached ha
  · by_cases e : a = b
    · subst e
      rw [hb, hl.disk]
      rfl
    rw [hassigned e] at ha
    rw [hne e] at hd ⊢
    rw [h.load_place hdrive hU hl (h.used ha) fun hb' hblk => ?_]
    · exact h.clean ha hd
    · obtain ⟨e₁, e₂⟩ := isBlock_iff.mp hblk
      have e₁' : (s.buf a).dev = (s.buf b).dev := by
        have := congrArg (setWidth 16) e₁
        simpa [devOf] using this.symm
      exact e (h.tidy.2 trivial a b ha hb' e₁' e₂.symm)
  · by_cases hwas : s.assigned b = true ∧ (s.buf b).isBlock d k = true
    · -- the block that has just left the cache
      obtain ⟨ha, hblk⟩ := hwas
      obtain ⟨rfl, rfl⟩ := isBlock_iff.mp hblk
      rw [h.load_old hdrive hl ha]
      exact h.cached ha
    · rw [h.load_place hdrive hU hl hdk fun ha hblk => hwas ⟨ha, hblk⟩]
      refine h.stored hdk fun a ha => ?_
      by_cases e : a = b
      · subst e
        exact fun hblk => hwas ⟨ha, hblk⟩
      · have := hno a (by rw [hassigned e]; exact ha)
        rwa [hne e] at this

/-- **`bread` gives what is in the store.** -/
theorem Cohere.bread (hh : Held s asked)
    (hk : U dev block) (hfull : ∀ b, (s.buf b).count ≠ 255#8) :
    (s.bread m dev block).Holds fun r => ∃ b, r.1 = some b ∧ Cohere m U r.2 L ∧
      Held r.2 ((b, dev, block) :: asked) ∧ (r.2.buf b).data = L dev block ∧ r.2.inode = s.inode ∧
      NoNewDirt s r.2 := by
  refine (bread_cases hdrive h.tidy h.valid (hU.small hk)).mono fun r hr => ?_
  obtain ⟨b, hb, ⟨ha, hblk, e⟩ | ⟨hz, hnew, hl⟩⟩ := hr
  · have hsame : Same s r.2 := by rw [e]; exact .setCount
    have hbuf : ∀ a, (r.2.buf a).data = (s.buf a).data ∧ (r.2.buf a).dirt = (s.buf a).dirt ∧
        (r.2.buf a).count = if a = b then (s.buf b).count + 1#8 else (s.buf a).count := fun a => by
      rw [e]
      by_cases ea : a = b
      · subst ea
        simp [Heads.setCount, setBuf]
      · simp [Heads.setCount, setBuf, ea]
    obtain ⟨e₁, e₂⟩ := isBlock_iff.mp hblk
    have howner : ∀ {a d k}, s.assigned a = true ∧ (s.buf a).isBlock d k = true →
        r.2.assigned a = true ∧ (r.2.buf a).isBlock d k = true := fun {a d k} ho => by
      unfold Head.isBlock
      rw [hsame.assigned, hsame.dev, hsame.blocknr]
      exact ho
    refine ⟨b, hb, by rw [e]; exact h.setCount _,
      hh.cons (fun a => ?_) (howner ⟨ha, hblk⟩) fun a d k hmem => howner (hh.owner hmem), ?_, by rw [e]; rfl,
      fun a ha hd => ?_⟩
    · rw [(hbuf a).2.2]
      by_cases ea : a = b
      · subst ea
        rw [if_pos rfl, if_pos rfl, Bits.toNat_succ (hfull a)]
      · rw [if_neg ea, if_neg fun e => ea e.symm, Nat.add_zero]
    · rw [(hbuf b).1, h.cached ha]
      unfold devOf
      rw [e₁, e₂]
    · rw [hsame.assigned] at ha
      rw [(hbuf a).2.1] at hd
      exact ⟨ha, hd, hsame.dev a⟩
  · obtain ⟨hc, hdata⟩ := h.load hdrive hU hk hnew hl
    have hbb := hl.self
    refine ⟨b, hb, hc, hh.cons (fun a => ?_) ⟨?_, ?_⟩ fun a d k hmem => ?_, by rw [hbb]; exact hdata, hl.inode,
      fun a ha hd => ?_⟩
    · by_cases ea : a = b
      · subst ea
        rw [hbb, hz, if_pos rfl]
        rfl
      · rw [(hl.other ea).1, if_neg fun e => ea e.symm, Nat.add_zero]
    · rw [hl.assigned, update_self]
    · rw [hbb]
      exact isBlock_iff.mpr ⟨setWidth_small (hU.small hk), rfl⟩
    · have ea : a ≠ b := fun e => hh.unasked hz (e ▸ hmem)
      rw [(hl.other ea).1, (hl.other ea).2]
      exact hh.owner hmem
    · by_cases ea : a = b
      · subst ea
        rw [hbb] at hd
        cases hd
      · rw [(hl.other ea).2] at ha
        rw [(hl.other ea).1] at hd ⊢
        exact ⟨ha, hd, rfl⟩

/-! ### Releasing and writing -/

/-- **A head is written to the disk.** -/
theorem Cohere.write
    (hb : s.assigned b = true) :
    Cohere m U (s.llRwBlock m true b) L := by
  have hsame : Same s (s.llRwBlock m true b) := .llRwBlock
  have hdev : ∀ a, (s.llRwBlock m true b).devOf a = s.devOf a := fun a => by
    unfold devOf
    rw [hsame.dev]
  have hself : (s.llRwBlock m true b).buf b = { s.buf b with dirt := false, uptodate := true } := by
    rw [llRwBlock_write hdrive]
    exact update_self ..
  have hne : ∀ {a}, a ≠ b → (s.llRwBlock m true b).buf a = s.buf a := fun e => by
    rw [llRwBlock_write hdrive]
    exact update_of_ne e _ _
  have hdisk : (s.llRwBlock m true b).disk = update s.disk (m.place (s.buf b).blocknr) (s.buf b).data := by
    rw [llRwBlock_write hdrive]
  have hassigned : (s.llRwBlock m true b).assigned = s.assigned := hsame.assigned
  refine ⟨h.tidy.same hsame, fun {a} ha => ?_, fun {a} ha => ?_, fun {a} ha => ?_, fun {a} ha => ?_,
    fun {a} ha hc => ?_, fun {d k} hk hno => ?_⟩
  all_goals rw [hassigned] at *
  · rw [hdev, hsame.blocknr]
    exact h.used ha
  · have ea : a ≠ b := fun e => by
      subst e
      rw [ha] at hb
      cases hb
    rw [hne ea]
    exact h.fresh ha
  · by_cases ea : a = b
    · subst ea
      rw [hself]
    · rw [hne ea]
      exact h.valid ha
  · by_cases ea : a = b
    · subst ea
      rw [hdev, hself]
      exact h.cached ha
    · rw [hdev, hne ea]
      exact h.cached ha
  · rw [hdisk]
    by_cases ea : a = b
    · subst ea
      rw [hself]
      simp
    rw [hne ea] at hc ⊢
    have hplace : m.place (s.buf a).blocknr ≠ m.place (s.buf b).blocknr := fun e => by
      obtain ⟨e₁, e₂⟩ := hU.place (h.used ha) (h.used hb) e
      exact ea (h.eq_of_isBlock ha hb (isBlock_iff.mpr ⟨e₁, e₂⟩))
    rw [update_of_ne hplace]
    exact h.clean ha hc
  · have hno' : ∀ a, s.assigned a = true → ¬ (s.buf a).isBlock d k = true := fun a ha hblk => by
      refine hno a ha ?_
      unfold Head.isBlock at hblk ⊢
      rwa [hsame.dev, hsame.blocknr]
    have hplace : m.place k ≠ m.place (s.buf b).blocknr := fun e => by
      obtain ⟨e₁, e₂⟩ := hU.place hk (h.used hb) e
      exact hno' b hb (isBlock_iff.mpr ⟨e₁.symm, e₂.symm⟩)
    rw [hdisk, update_of_ne hplace]
    exact h.stored hk hno'

/-! ### `sync_dev`, the heads -/

omit hdrive hU h in
/-- A head has been written if it is dirty and belongs to the device. -/
theorem syncHead_spec (hdrive : ∀ n, m.drive n = true) (s : Heads) (dev : Word) (b : BufRef) :
    (∀ a, ((s.syncHead m dev b).buf a).count = (s.buf a).count) ∧ (s.syncHead m dev b).inode = s.inode ∧
    ∀ a, ((s.syncHead m dev b).buf a).dirt = if a = b ∧ s.devOf b = dev then false else (s.buf a).dirt := by
  unfold syncHead
  split
  · next hc =>
    rw [llRwBlock_write hdrive]
    refine ⟨fun a => ?_, rfl, fun a => ?_⟩
    · by_cases e : a = b
      · subst e
        simp [setCount, setBuf, add_sub_cancel]
      · simp [setCount, setBuf, e]
    · by_cases e : a = b
      · subst e
        rw [if_pos ⟨rfl, hc.1⟩]
        simp [setCount, setBuf]
      · simp [setCount, setBuf, e]
  · next hc =>
    refine ⟨fun _ => rfl, rfl, fun a => ?_⟩
    split
    · next h =>
      obtain ⟨rfl, hd⟩ := h
      by_contra hdirt
      exact hc ⟨hd, by simpa using hdirt⟩
    · rfl

theorem Cohere.syncHead :
    Cohere m U (s.syncHead m dev b) L := by
  unfold Heads.syncHead
  split
  · next hc =>
    have hb : s.assigned b = true := by
      by_contra hb
      rw [h.fresh (by simpa using hb)] at hc
      exact absurd hc.2 (by simp)
    exact ((h.setCount ((s.buf b).count + 1#8)).write hdrive hU hb).setCount _
  · exact h

omit hdrive hU h in
/-- The walk along the free list is a walk along its heads. -/
theorem syncHeads_eq {p q e : Option BufRef} {l : List BufRef}
    (h : Linked.Seg s.bNextFree s.bPrevFree p (some b) (b :: l) q e) :
    syncHeads m dev (l.length + 1) b s = .done ((b :: l).foldl (fun s a => s.syncHead m dev a) s) := by
  induction l generalizing s b p with
  | nil => simp [syncHeads]
  | cons c l ih =>
    have hsame : Same s (s.syncHead m dev b) := .syncHead
    obtain ⟨-, -, h₃⟩ := h
    have hc : s.bNextFree b = some c := h₃.1
    rw [hc] at h₃
    unfold syncHeads
    simp only [length_cons, Nat.add_eq_zero_iff, one_ne_zero, and_false, if_false]
    rw [hsame.bNextFree, hc]
    exact ih (by rw [hsame.bNextFree, hsame.bPrevFree]; exact h₃)

/-- What the walk leaves: the same store, with the heads of the device clean. -/
structure Synced (m : Platform) (U : Word → Word → Prop) (dev : Word) (l : List BufRef) (s s' : Heads)
    (L : Word → Word → BlockData) (asked : List (BufRef × Word × Word)) : Prop where
  cohere : Cohere m U s' L
  held : Held s' asked
  inode : s'.inode = s.inode
  same : Same s s'
  clean : ∀ a ∈ l, s'.devOf a = dev → (s'.buf a).dirt = false
  kept : ∀ a, (s.buf a).dirt = false → (s'.buf a).dirt = false

theorem Cohere.syncFold (hh : Held s asked)
    (l : List BufRef) : Synced m U dev l s (l.foldl (fun s a => s.syncHead m dev a) s) L asked := by
  induction l generalizing s with
  | nil => exact ⟨h, hh, rfl, .refl, fun a ha => (by cases ha), fun _ h => h⟩
  | cons b l ih =>
    obtain ⟨hcount, hinode, hdirt⟩ := syncHead_spec hdrive s dev b
    have hsame : Same s (s.syncHead m dev b) := .syncHead
    have hrest := ih (h.syncHead hdrive hU) (hh.congr hsame hcount)
    have hall : Same s (l.foldl (fun s a => s.syncHead m dev a) (s.syncHead m dev b)) := hsame.trans hrest.same
    refine ⟨hrest.cohere, hrest.held, hrest.inode.trans hinode, hall, fun a ha hd => ?_, fun a ha => ?_⟩
    · rcases mem_cons.mp ha with rfl | ha
      · refine hrest.kept a ?_
        rw [hdirt, if_pos]
        refine ⟨rfl, ?_⟩
        unfold devOf at hd ⊢
        rw [← hd, foldl_cons, hall.dev]
      · exact hrest.clean a ha hd
    · refine hrest.kept a ?_
      rw [hdirt, ha]
      split <;> rfl

/-- **The first half of `sync_dev`.** -/
theorem Cohere.syncHeads (hh : Held s asked) :
    (syncHeads m dev 256 s.freeList s).Holds fun s' => Cohere m U s' L ∧ Held s' asked ∧ s'.inode = s.inode ∧
      ∀ a, s'.devOf a = dev → (s'.buf a).dirt = false := by
  obtain ⟨ring, chain, hl⟩ := h.tidy.1
  cases ring with
  | nil => exact absurd hl.start (by simp)
  | cons a l =>
    obtain rfl : a = s.freeList := Option.some.inj hl.start
    have hlen : (s.freeList :: l).length = 256 := by
      have hset : (s.freeList :: l).toFinset = Finset.univ :=
        Finset.eq_univ_iff_forall.mpr fun b => mem_toFinset.mpr (hl.all b)
      have := toFinset_card_of_nodup hl.once
      rw [hset, Finset.card_univ, Fintype.card_fin] at this
      exact this.symm
    obtain ⟨p, e, hseg⟩ := hl.free
    obtain rfl : e = some s.freeList := hseg.1
    have hwalk : Heads.syncHeads m dev (l.length + 1) s.freeList s = _ := syncHeads_eq hseg
    rw [← length_cons, hlen] at hwalk
    rw [hwalk]
    have hs : Synced m U dev _ s _ L asked := h.syncFold hdrive hU hh (s.freeList :: l)
    exact ⟨hs.cohere, hs.held, hs.inode, fun a => hs.clean a (hl.all a)⟩

end

/-! ### `sync_dev`, the inodes -/

/-- No head is held so often that one more would not be counted. -/
def Room (asked : List (BufRef × Word × Word)) : Prop := ∀ b, (asked.map Prod.fst).count b < 255

theorem Held.full (h : Held s asked) (hr : Room asked) (b : BufRef) : (s.buf b).count ≠ 255#8 := fun e => by
  have h₁ := h.counted b
  have h₂ := hr b
  rw [e] at h₁
  have h₃ : (255#8).toNat = 255 := rfl
  omega

/-- The block of an inode on its device. -/
def blockOf (start : Word) (x : MInode) : Word := inodeBlock start x.iNum

/-- The inode is stored in its block of `L`: to write it there changes nothing. -/
def Stored (m : Platform) (L : Word → Word → BlockData) (x : MInode) : Prop :=
  ∀ start, m.inodeStart x.iDev = some start →
    putInode (L (x.iDev.setWidth 32) (blockOf start x)) (inodeOff x.iNum) x.body =
      L (x.iDev.setWidth 32) (blockOf start x)

/-- The store once `write_inode()` has been called for an inode. -/
def storeInode (m : Platform) (x : MInode) (L : Word → Word → BlockData) : Word → Word → BlockData :=
  if x.iDev = 0#16 ∨ x.iDirt = false then L
  else
    match m.inodeStart x.iDev with
    | none => L
    | some start =>
      update₂ L (x.iDev.setWidth 32) (blockOf start x)
        (putInode (L (x.iDev.setWidth 32) (blockOf start x)) (inodeOff x.iNum) x.body)

/-- The inode once `write_inode()` has been called for it. -/
def cleanInode (m : Platform) (x : MInode) : MInode :=
  if x.iDev = 0#16 ∨ x.iDirt = false then x
  else
    match m.inodeStart x.iDev with
    | none => x
    | some _ => { x with iDirt := false }

/-- The block of a dirty inode is one of `U`. -/
def InodeIn (m : Platform) (U : Word → Word → Prop) (x : MInode) : Prop :=
  ∀ start, m.inodeStart x.iDev = some start → U (x.iDev.setWidth 32) (blockOf start x)

/-- The store once `sync_inodes()` has passed the slots `l`. -/
def syncLogical (m : Platform) (dev : Word) (inode : InodeRef → MInode) :
    List InodeRef → (Word → Word → BlockData) → Word → Word → BlockData
  | [], L => L
  | v :: l, L =>
    syncLogical m dev inode l
      (if (inode v).iDev.setWidth 32 = dev ∧ (inode v).iDirt then storeInode m (inode v) L else L)

theorem syncLogical_congr {inode' : InodeRef → MInode} {l : List InodeRef} (h : ∀ v ∈ l, inode' v = inode v) :
    syncLogical m dev inode' l L = syncLogical m dev inode l L := by
  induction l generalizing L with
  | nil => rfl
  | cons v l ih =>
    unfold syncLogical
    rw [h v mem_cons_self]
    exact ih fun w hw => h w (mem_cons_of_mem v hw)

/-- The slots once `sync_inodes()` has passed them. -/
def syncTable (m : Platform) (dev : Word) (inode : InodeRef → MInode) (v : InodeRef) : MInode :=
  if (inode v).iDev.setWidth 32 = dev ∧ (inode v).iDirt then cleanInode m (inode v) else inode v

section

variable (hdrive : ∀ n, m.drive n = true) (hU : m.Apart U)
include hdrive hU

omit hU in
/-- A block is changed and written at once: the rest is as before. -/
theorem changeWrite_frame (s : Heads) (b : BufRef) (data : BlockData) :
    let t := (s.setBuf b { s.buf b with data := data, dirt := true }).llRwBlock m true b
    Same s t ∧ (∀ a, (t.buf a).count = (s.buf a).count) ∧ (∀ a, (t.buf a).dirt = true → (s.buf a).dirt = true) ∧
      t.inode = s.inode := by
  have hset : Same s (s.setBuf b { s.buf b with data := data, dirt := true }) := .setBuf rfl rfl
  refine ⟨hset.trans .llRwBlock, fun a => ?_, fun a => ?_, ?_⟩
  · rw [llRwBlock_write hdrive]
    by_cases e : a = b
    · subst e
      simp [setBuf]
    · simp [setBuf, e]
  · rw [llRwBlock_write hdrive]
    by_cases e : a = b
    · subst e
      simp [setBuf]
    · simp [setBuf, e]
  · rw [llRwBlock_write hdrive]
    rfl

section
variable (h : Cohere m U s L) (hh : Held s asked) (hr : Room asked)
include h hh hr

/-- **`write_inode` puts the inode into its block.** -/
theorem Cohere.writeInode
    (v : InodeRef) (hin : InodeIn m U (s.inode v)) :
    (s.writeInode m v).Holds fun s' => Cohere m U s' (storeInode m (s.inode v) L) ∧ Held s' asked ∧
      s'.inode = update s.inode v (cleanInode m (s.inode v)) ∧ NoNewDirt s s' := by
  unfold Heads.writeInode storeInode cleanInode
  split
  · exact ⟨h, hh, (update_eq_self _ _).symm, fun a ha hd => ⟨ha, hd, rfl⟩⟩
  cases hst : m.inodeStart (s.inode v).iDev with
  | none => exact ⟨h, hh, (update_eq_self _ _).symm, fun a ha hd => ⟨ha, hd, rfl⟩⟩
  | some start =>
    refine (h.bread hdrive hU hh (hin start hst) (hh.full hr)).bind fun r hr' => ?_
    obtain ⟨b, hb, hc, hheld, hdata, hino, hdirt⟩ := hr'
    simp only [hb]
    obtain ⟨hba, hblk⟩ := hheld.owner mem_cons_self
    have hwr := (hc.modify hba hblk
      (putInode (r.2.buf b).data (inodeOff (s.inode v).iNum) (s.inode v).body)).write hdrive hU hba
    obtain ⟨hall, hcount, hold, hinode⟩ := changeWrite_frame hdrive r.2 b
      (putInode (r.2.buf b).data (inodeOff (s.inode v).iNum) (s.inode v).body)
    have hheld' := hheld.congr hall hcount
    rw [hdata] at hwr hheld' hall hold hinode ⊢
    refine (hwr.brelse hheld' mem_cons_self).bind fun s₂ h₂ => ?_
    obtain ⟨k₁, k₂, k₃, k₄, k₅⟩ := h₂
    rw [erase_cons_head] at k₂
    refine ⟨k₁.congr (k₁.tidy.same Same.refl.aside) (fun _ => rfl) rfl rfl, k₂.congr Same.refl.aside fun _ => rfl, ?_,
      fun a ha hd => ?_⟩
    · rw [k₃, hinode, hino]
    rw [k₄, hall.assigned] at ha
    rw [(k₅ a).1] at hd
    obtain ⟨j₁, j₂, j₃⟩ := hdirt a ha (hold a hd)
    refine ⟨j₁, j₂, ?_⟩
    rw [(k₅ a).2, hall.dev]
    exact j₃

/-- A round of `sync_inodes`. -/
theorem Cohere.syncSlot
    (v : InodeRef) (hin : (s.inode v).iDev.setWidth 32 = dev → InodeIn m U (s.inode v)) :
    (if (s.inode v).iDev.setWidth 32 = dev ∧ (s.inode v).iDirt then s.writeInode m v else .done s).Holds fun s' =>
      Cohere m U s' (if (s.inode v).iDev.setWidth 32 = dev ∧ (s.inode v).iDirt then
        storeInode m (s.inode v) L else L) ∧ Held s' asked ∧
      s'.inode = update s.inode v (syncTable m dev s.inode v) ∧ NoNewDirt s s' := by
  unfold syncTable
  split
  · next hc => exact h.writeInode hdrive hU hh hr v (hin hc.1)
  · exact ⟨h, hh, (update_eq_self _ _).symm, fun a ha hd => ⟨ha, hd, rfl⟩⟩

/-- **`sync_inodes` stores the dirty inodes of the device.** -/
theorem Cohere.syncInodes
    (l : List InodeRef) (hnd : l.Nodup)
    (hin : ∀ v ∈ l, (s.inode v).iDev.setWidth 32 = dev → InodeIn m U (s.inode v)) :
    (syncInodes m dev l s).Holds fun s' => Cohere m U s' (syncLogical m dev s.inode l L) ∧ Held s' asked ∧
      (∀ v, s'.inode v = if v ∈ l then syncTable m dev s.inode v else s.inode v) ∧ NoNewDirt s s' := by
  induction l generalizing s L with
  | nil => exact ⟨h, hh, fun v => (if_neg not_mem_nil).symm, fun a ha hd => ⟨ha, hd, rfl⟩⟩
  | cons v l ih =>
    obtain ⟨hv, hnd'⟩ := nodup_cons.mp hnd
    have hone := h.syncSlot hdrive hU hh hr v (hin v mem_cons_self)
    refine hone.bind fun s₁ h₁ => ?_
    obtain ⟨hc, hheld, hino, hdirt⟩ := h₁
    have hsame : ∀ w ∈ l, s₁.inode w = s.inode w := fun w hw => by
      rw [hino, update_of_ne]
      rintro rfl
      exact hv hw
    refine (ih hc hheld hnd' fun w hw => by rw [hsame w hw]; exact hin w (mem_cons_of_mem v hw)).mono
      fun s₂ h₂ => ?_
    obtain ⟨k₁, k₂, k₃, k₄⟩ := h₂
    rw [syncLogical_congr hsame] at k₁
    refine ⟨k₁, k₂, fun w => ?_, hdirt.trans k₄⟩
    rw [k₃]
    by_cases hw : w ∈ l
    · rw [if_pos hw, if_pos (mem_cons_of_mem v hw)]
      unfold syncTable
      rw [hsame w hw]
    rw [if_neg hw, hino]
    by_cases e : w = v
    · subst e
      rw [update_self, if_pos mem_cons_self]
    rw [update_of_ne e, if_neg]
    rintro h
    exact (mem_cons.mp h).elim e hw

/-- **`sync_dev`.** -/
theorem Cohere.syncDev
    (hin : ∀ v, (s.inode v).iDev.setWidth 32 = dev → InodeIn m U (s.inode v)) :
    (s.syncDev m dev).Holds fun s' =>
      Cohere m U s' (syncLogical m dev s.inode (List.finRange 64) L) ∧ Held s' asked ∧
      (∀ v, s'.inode v = syncTable m dev s.inode v) ∧
      ∀ a, s'.assigned a = true → s'.devOf a = dev → (s'.buf a).dirt = false := by
  refine (h.syncHeads hdrive hU hh).bind fun s₁ h₁ => ?_
  obtain ⟨hc, hheld, hino, hclean⟩ := h₁
  refine (hc.syncInodes hdrive hU hheld hr (finRange 64) (nodup_finRange 64) fun v _ => by
    rw [hino]; exact hin v).mono fun s₂ h₂ => ?_
  obtain ⟨k₁, k₂, k₃, k₄⟩ := h₂
  rw [hino] at k₁ k₃
  refine ⟨k₁, k₂, fun v => by rw [k₃, if_pos (mem_finRange v)], fun a ha hd => ?_⟩
  by_contra hdirt
  obtain ⟨-, j₂, j₃⟩ := k₄ a ha (by simpa using hdirt)
  rw [hclean a (by unfold devOf at hd ⊢; rw [← j₃]; exact hd)] at j₂
  cases j₂

end

end

/-! ### Returning -/

/-- A drive that answers, and a head that is free: `bread()` returns. -/
theorem Tidy.bread_awake (hdrive : ∀ n, m.drive n = true) (h : Tidy True s) (hdev : dev.toNat < 65536)
    (hfree : ∃ b, (s.buf b).count = 0#8) : (s.bread m dev block).Awake := by
  obtain ⟨r, hr⟩ : ∃ r, s.getblk m dev block = .done r := (h.getblk fun _ => setWidth_small hdev).2 hfree
  unfold Heads.bread
  rw [hr]
  simp only [CallResult.bind]
  split
  · trivial
  have hup : ((r.2.llRwBlock m false r.1).buf r.1).uptodate = true := by
    rw [llRwBlock_read hdrive]
    simp [setBuf]
  rw [if_pos hup]
  trivial

theorem brelse_awake (s : Heads) (b : BufRef) : (s.brelse b).Awake := by
  unfold brelse
  simp only
  split
  · trivial
  split
  · trivial
  split
  · trivial
  · trivial

theorem syncHeads_awake (m : Platform) (dev : Word) (n : ℕ) (b : BufRef) (s : Heads) :
    (Heads.syncHeads m dev n b s).Awake := by
  induction n generalizing b s with
  | zero => trivial
  | succ n ih =>
    unfold syncHeads
    simp only
    split
    · trivial
    split
    · trivial
    · exact ih _ _

/-- A head that nobody has been given is free. -/
theorem Held.free (h : Held s asked) (hb : b ∉ asked.map Prod.fst) : (s.buf b).count = 0#8 := by
  refine eq_of_toNat_eq ?_
  rw [h.counted, count_eq_zero_of_not_mem hb]
  rfl

section

variable (hdrive : ∀ n, m.drive n = true) (hU : m.Apart U)
include hdrive hU

section
variable (h : Cohere m U s L) (hh : Held s asked) (hr : Room asked)
include h hh hr

theorem Cohere.writeInode_awake
    (v : InodeRef) (hin : InodeIn m U (s.inode v))
    (hb : b ∉ asked.map Prod.fst) : (s.writeInode m v).Awake := by
  unfold Heads.writeInode
  split
  · trivial
  split
  · trivial
  next start hst =>
  have hk := hin start hst
  have hawake : (s.bread m ((s.inode v).iDev.setWidth 32) (blockOf start (s.inode v))).Awake :=
    h.tidy.bread_awake hdrive (hU.small hk) ⟨b, hh.free hb⟩
  refine hawake.bind (h.bread hdrive hU hh hk (hh.full hr)) fun r hr' => ?_
  obtain ⟨b', hb', -⟩ := hr'
  simp only [hb']
  exact (brelse_awake ..).bind_done _

theorem Cohere.syncInodes_awake
    (l : List InodeRef) (hnd : l.Nodup)
    (hin : ∀ v ∈ l, (s.inode v).iDev.setWidth 32 = dev → InodeIn m U (s.inode v))
    (hb : b ∉ asked.map Prod.fst) : (Heads.syncInodes m dev l s).Awake := by
  induction l generalizing s L with
  | nil => trivial
  | cons v l ih =>
    obtain ⟨hv, hnd'⟩ := nodup_cons.mp hnd
    have hawake : (if (s.inode v).iDev.setWidth 32 = dev ∧ (s.inode v).iDirt then s.writeInode m v
        else .done s).Awake := by
      split
      · next hc => exact h.writeInode_awake hdrive hU hh hr v (hin v mem_cons_self hc.1) hb
      · trivial
    refine hawake.bind (h.syncSlot hdrive hU hh hr v (hin v mem_cons_self)) fun s₁ h₁ => ?_
    obtain ⟨hc, hheld, hino, -⟩ := h₁
    refine ih hc hheld hnd' fun w hw => ?_
    have hne : w ≠ v := by
      rintro rfl
      exact hv hw
    rw [hino, update_of_ne hne]
    exact hin w (mem_cons_of_mem v hw)

/-- **A free head is enough for `sync_dev()`**, which returns then. -/
theorem Cohere.syncDev_awake
    (hin : ∀ v, (s.inode v).iDev.setWidth 32 = dev → InodeIn m U (s.inode v)) (hb : b ∉ asked.map Prod.fst) :
    (s.syncDev m dev).Awake := by
  refine (syncHeads_awake ..).bind (h.syncHeads hdrive hU hh) fun s₁ h₁ => ?_
  obtain ⟨hc, hheld, hino, -⟩ := h₁
  refine hc.syncInodes_awake hdrive hU hheld hr _ (nodup_finRange 64) (fun v _ => ?_) hb
  rw [hino]
  exact hin v

end

end

/-! ### Stored inodes -/

theorem putInode_self (d : BlockData) (off : ℕ) (x : DInode) :
    putInode (putInode d off x) off x = putInode d off x := by
  funext j
  unfold putInode
  split <;> rfl

theorem putInode_comm {off off' : ℕ} (d : BlockData) (x y : DInode) (h : off ≠ off') :
    putInode (putInode d off x) off' y = putInode (putInode d off' y) off x := by
  funext j
  unfold putInode
  by_cases e : j.val / 32 = off
  · rw [if_pos e, if_neg fun e' => h (e.symm.trans e'), if_pos e]
  · split <;> rfl

/-- A place in the inode table belongs to one inode number. -/
theorem inode_place {start n n' : Word} (h : inodeBlock start n = inodeBlock start n') (h' : inodeOff n = inodeOff n') :
    n = n' := by
  unfold inodeOff at h'
  have h₁ : ((n - 1#32) / 32#32).toNat = ((n' - 1#32) / 32#32).toNat := by
    rw [BitVec.add_right_inj start |>.mp h]
  rw [toNat_udiv, toNat_udiv] at h₁
  rw [toNat_umod, toNat_umod] at h'
  have h₂ : n - 1#32 = n' - 1#32 := by
    apply eq_of_toNat_eq
    have h₃ : (32#32).toNat = 32 := rfl
    rw [h₃] at h₁ h'
    omega
  exact BitVec.sub_left_inj 1#32 |>.mp h₂

variable {x y : MInode} {v : InodeRef}

theorem storeInode_stored (hd : x.iDev ≠ 0#16) (hx : x.iDirt = true) : Stored m (storeInode m x L) x := by
  intro start hst
  unfold storeInode
  rw [if_neg (by simp [hd, hx])]
  simp only [hst]
  rw [update₂_self, putInode_self]

theorem storeInode_other (hne : x.iDev = y.iDev → x.iDev ≠ 0#16 → x.iNum ≠ y.iNum) (h : Stored m L y) :
    Stored m (storeInode m x L) y := by
  intro start hst
  unfold storeInode
  split
  · exact h start hst
  next hc =>
  have hx : x.iDev ≠ 0#16 := fun e => hc (.inl e)
  cases hst' : m.inodeStart x.iDev with
  | none => exact h start hst
  | some start' =>
    simp only
    by_cases e : y.iDev.setWidth 32 = x.iDev.setWidth 32 ∧ blockOf start y = blockOf start' x
    · have hdev : y.iDev = x.iDev := by
        have := congrArg (setWidth 16) e.1
        simpa using this
      obtain rfl : start = start' := by
        rw [hdev, hst'] at hst
        exact (Option.some.inj hst).symm
      have hoff : inodeOff x.iNum ≠ inodeOff y.iNum := fun h' =>
        hne hdev.symm hx (inode_place e.2.symm h')
      rw [e.1, e.2, update₂_self, putInode_comm _ _ _ hoff]
      have := h start hst
      rw [e.1, e.2] at this
      rw [this]
    · rw [update₂_of_ne e]
      exact h start hst

/-- No inode is in the table twice. -/
def Single (inode : InodeRef → MInode) : Prop :=
  ∀ v w, v ≠ w → (inode v).iDev = (inode w).iDev → (inode v).iDev ≠ 0#16 → (inode v).iNum ≠ (inode w).iNum

theorem Single.congr {f g : InodeRef → MInode} (h : Single f)
    (hk : ∀ v, (g v).iDev = (f v).iDev ∧ (g v).iNum = (f v).iNum) : Single g := by
  intro v w e h₁ h₂
  rw [(hk v).1] at h₁ h₂
  rw [(hk w).1] at h₁
  rw [(hk v).2, (hk w).2]
  exact h v w e h₁ h₂

/-- What `sync_inodes()` writes is stored, and what was stored stays so. -/
theorem syncLogical_stored (hs : Single inode) (l : List InodeRef)
    (h : v ∈ l ∧ (inode v).iDev.setWidth 32 = dev ∧ (inode v).iDev ≠ 0#16 ∧ (inode v).iDirt = true ∨
      Stored m L (inode v)) : Stored m (syncLogical m dev inode l L) (inode v) := by
  induction l generalizing L with
  | nil => exact h.resolve_left fun h => by cases h.1
  | cons w l ih =>
    refine ih ?_
    by_cases e : v = w
    · subst e
      refine .inr ?_
      rcases h with ⟨-, h₁, h₂, h₃⟩ | h
      · rw [if_pos ⟨h₁, h₃⟩]
        exact storeInode_stored h₂ h₃
      split
      · next hc =>
        by_cases hz : (inode v).iDev = 0#16
        · unfold storeInode
          rwa [if_pos (.inl hz)]
        · exact storeInode_stored hz hc.2
      · exact h
    · rcases h with ⟨h₁, h₂⟩ | h
      · exact .inl ⟨(mem_cons.mp h₁).resolve_left e, h₂⟩
      refine .inr ?_
      split
      · exact storeInode_other (fun h₁ h₂ => hs w v (fun e' => e e'.symm) h₁ h₂) h
      · exact h

/-- A cleaned inode is the same inode. -/
theorem syncTable_same (m : Platform) (dev : Word) (inode : InodeRef → MInode) (v : InodeRef) :
    (syncTable m dev inode v).iDev = (inode v).iDev ∧ (syncTable m dev inode v).iNum = (inode v).iNum ∧
      (syncTable m dev inode v).body = (inode v).body := by
  unfold syncTable cleanInode
  split
  · split
    · exact ⟨rfl, rfl, rfl⟩
    · split <;> exact ⟨rfl, rfl, rfl⟩
  · exact ⟨rfl, rfl, rfl⟩

/-- An inode that `sync_inodes()` leaves clean was clean, or has been written. -/
theorem syncTable_clean (h : (syncTable m dev inode v).iDirt = false) :
    (inode v).iDirt = false ∨ (inode v).iDev.setWidth 32 = dev ∧ (inode v).iDev ≠ 0#16 ∧ (inode v).iDirt = true := by
  cases hd : (inode v).iDirt with
  | false => exact .inl rfl
  | true =>
    refine .inr ?_
    unfold syncTable cleanInode at h
    split at h
    · next hc =>
      split at h
      · rw [hd] at h
        cases h
      · next hz => exact ⟨hc.1, fun e => hz (.inl e), rfl⟩
    · rw [hd] at h
      cases h

/-- An inode of a device with a superblock is clean after `sync_dev()`. -/
theorem syncTable_dirt (hv : (inode v).iDev.setWidth 32 = dev)
    (hz : (inode v).iDev ≠ 0#16) (hst : m.inodeStart (inode v).iDev ≠ none) :
    (syncTable m dev inode v).iDirt = false := by
  cases hd : (inode v).iDirt with
  | false =>
    unfold syncTable
    rw [if_neg (by simp [hd])]
    exact hd
  | true =>
    unfold syncTable cleanInode
    rw [if_pos ⟨hv, hd⟩, if_neg (by simp [hz, hd])]
    cases h : m.inodeStart (inode v).iDev with
    | none => exact absurd h hst
    | some start => rfl

end Heads

end Linux001

import Linux001.Fs.Calls

/-!
# Fs — names are unique

No entry in use has the name of an entry before it, in use or not (`Distinct`).  So the first entry
with a name decides rightly, although `find_entry()` gives up at a slot that is not in use.  Every call
keeps that, except `sys_rename()` onto another link of the same file (`names_unique`,
`rename_duplicates`).
-/

namespace Linux001

open Function List Option List.Pairwise

/-! ### One directory -/

/-- No entry in use has the name of an entry before it. -/
def Distinct (l : List DirEntry) : Prop := l.Pairwise fun a b => b.inode ≠ 0 → a.name ≠ b.name

section Entries

variable {e : DirEntry} {g : Bool} {l l' : List DirEntry} {name : List Text} {x : DirEntry}

/-- **Where `dir_add_entry` puts an entry**: behind slots in use, for a slot that is not or at the end. -/
theorem addEntry_split (h : addEntry e g l = some l') : ∃ l₁ s l₂, l = l₁ ++ (s ++ l₂) ∧ l' = l₁ ++ e :: l₂ ∧
    (∀ a ∈ l₁, a.inode ≠ 0) ∧ ∀ a ∈ s, a.inode = 0 := by
  induction l generalizing l' with
  | nil =>
    unfold addEntry at h
    split at h
    · cases h
      exact ⟨[], [], [], rfl, rfl, by simp, by simp⟩
    · cases h
  | cons a l ih =>
    unfold addEntry at h
    split at h
    · next ha =>
      cases h
      exact ⟨[], [a], l, rfl, rfl, by simp, by simpa using ha⟩
    · next ha =>
      obtain ⟨t, ht, rfl⟩ := map_eq_some_iff.mp h
      obtain ⟨l₁, s, l₂, rfl, rfl, h₁, h₂⟩ := ih ht
      exact ⟨a :: l₁, s, l₂, rfl, rfl, forall_mem_cons.mpr ⟨ha, h₁⟩, h₂⟩

/-- **What `dir_remove_entry` does**: the first entry in use of the name is not in use any more. -/
theorem removeEntry_split (h : removeEntry name l = some l') : ∃ l₁ a l₂, l = l₁ ++ a :: l₂ ∧
    l' = l₁ ++ { a with inode := 0 } :: l₂ ∧ a.inode ≠ 0 ∧ a.name = name.take 14 ∧
    ∀ x ∈ l₁, x.inode ≠ 0 → x.name ≠ name.take 14 := by
  induction l generalizing l' with
  | nil => cases h
  | cons a l ih =>
    unfold removeEntry at h
    split at h
    · next hm =>
      cases h
      exact ⟨[], a, l, rfl, rfl, hm.1, (nameEq_iff a name).mp hm.2, by simp⟩
    next hno =>
    obtain ⟨t, ht, rfl⟩ := Option.map_eq_some_iff.mp h
    obtain ⟨l₁, x, l₂, rfl, rfl, hlive, hname, h₁⟩ := ih ht
    refine ⟨a :: l₁, x, l₂, rfl, rfl, hlive, hname, List.forall_mem_cons.mpr ⟨fun ha hn => ?_, h₁⟩⟩
    exact hno ⟨ha, (nameEq_iff a name).mpr hn⟩

/-- What is in use after a removal was in use before. -/
theorem mem_removeEntry (h : removeEntry name l = some l') (hx : x ∈ l') (hlive : x.inode ≠ 0) :
    x ∈ l := by
  obtain ⟨l₁, a, l₂, rfl, rfl, -⟩ := removeEntry_split h
  simp only [mem_append, mem_cons] at hx ⊢
  rcases hx with hx | rfl | hx
  · exact .inl hx
  · exact absurd rfl hlive
  · exact .inr (.inr hx)

/-- What holds between an entry in use and those before it holds with one more: all the slots before the one
that it gets are in use. -/
theorem pairwise_addEntry {R : DirEntry → DirEntry → Prop} (h : l.Pairwise fun a b => b.inode ≠ 0 → R a b)
    (hbefore : ∀ a ∈ l, a.inode ≠ 0 → R a e) (hafter : ∀ a ∈ l, a.inode ≠ 0 → R e a)
    (ha : addEntry e g l = some l') : l'.Pairwise fun a b => b.inode ≠ 0 → R a b := by
  obtain ⟨l₁, s, l₂, rfl, rfl, hlive, -⟩ := addEntry_split ha
  obtain ⟨h₁, h₂, h₁₂⟩ := pairwise_append.mp h
  obtain ⟨-, h₃, -⟩ := pairwise_append.mp h₂
  refine pairwise_append.mpr
    ⟨h₁, pairwise_cons.mpr ⟨fun b hb => hafter b (by simp [hb]), h₃⟩, fun a hal b hb hb' => ?_⟩
  rcases mem_cons.mp hb with rfl | hb
  · exact hbefore a (mem_append_left _ hal) (hlive a hal)
  · exact h₁₂ a hal b (mem_append_right _ hb) hb'

/-- A name that no entry in use has may be added. -/
theorem Distinct.add (h : Distinct l) (hno : ∀ a ∈ l, a.inode ≠ 0 → a.name ≠ e.name)
    (ha : addEntry e g l = some l') : Distinct l' :=
  pairwise_addEntry h hno (fun a ha hlive => (hno a ha hlive).symm) ha

theorem Distinct.remove (h : Distinct l) (hr : removeEntry name l = some l') : Distinct l' := by
  obtain ⟨l₁, a, l₂, rfl, rfl, -⟩ := removeEntry_split hr
  obtain ⟨h₁, h₂, h₁₂⟩ := pairwise_append.mp h
  refine pairwise_append.mpr ⟨h₁, pairwise_cons.mpr (pairwise_cons.mp h₂), fun x hx b hb hb' => ?_⟩
  rcases mem_cons.mp hb with rfl | hb
  · exact absurd rfl hb'
  · exact h₁₂ x hx b (mem_cons_of_mem _ hb) hb'

/-- The name that is removed is gone. -/
theorem Distinct.removed (h : Distinct l) (hr : removeEntry name l = some l') (hx : x ∈ l')
    (hlive : x.inode ≠ 0) : x.name ≠ name.take 14 := by
  obtain ⟨l₁, a, l₂, rfl, rfl, -, hname, h₁⟩ := removeEntry_split hr
  simp only [mem_append, mem_cons] at hx
  rcases hx with hx | rfl | hx
  · exact h₁ x hx hlive
  · exact absurd rfl hlive
  · rw [← hname]
    exact ((pairwise_cons.mp (pairwise_append.mp h).2.1).1 x hx hlive).symm

theorem Distinct.find (h : Distinct l) (he : e ∈ l) (hlive : e.inode ≠ 0) :
    l.find? (fun a => nameEq a.name e.name) = some e := by
  have htake : e.name.take 14 = e.name := take_of_length_le e.short
  induction l with
  | nil => cases he
  | cons a l ih =>
    obtain ⟨hhead, htail⟩ := pairwise_cons.mp h
    rcases mem_cons.mp he with rfl | he
    · exact find?_cons_of_pos ((nameEq_iff e e.name).mpr htake.symm)
    have hne : ¬ nameEq a.name e.name = true := fun hm =>
      hhead e he hlive (((nameEq_iff a e.name).mp hm).trans htake)
    rw [find?_cons, Bool.eq_false_of_not_eq_true hne]
    exact ih htail he

/-- **`find_entry` finds what is there.** -/
theorem Distinct.findEntry {nd : Node} (h : Distinct nd.entries) (hd : nd.isDir = true) (he : e ∈ nd.entries)
    (hlive : e.inode ≠ 0) : nd.findEntry e.name = some e.inode := by
  simp [Node.findEntry, hd, h.find he hlive, hlive]

/-- **A name that `find_entry` does not find is not in use.** -/
theorem Distinct.not_in_use {nd : Node} (h : Distinct nd.entries) (hd : nd.isDir = true)
    (hf : nd.findEntry name = none) (a : DirEntry) (ha : a ∈ nd.entries)
    (hlive : a.inode ≠ 0) : a.name ≠ name := by
  intro he
  have := h.findEntry hd ha hlive
  rw [he, hf] at this
  cases this

end Entries

/-! ### The calls and the nodes -/

namespace FsTree

variable {s s' : FsTree} {c : Cred} {av : Avail} {n d : ℕ} {name : List Text}
  {path : List Text} {mode : BitVec 16} {r : Option ℕ} {bad : List Text → Bool} {room : ℕ → Bool}
  {old new : List Text}

@[simp] theorem freeInode_node (s : FsTree) (n : ℕ) : (s.freeInode n).node = s.node := rfl

@[simp] theorem release_node (s : FsTree) (n : ℕ) : (s.release n).node = s.node := by
  unfold release
  split <;> rfl

@[simp] theorem releaseAll_node (s : FsTree) (l : List ℕ) : (s.releaseAll l).node = s.node := by
  induction l generalizing s with
  | nil => rfl
  | cons n l ih => exact (ih (s.release n)).trans (s.release_node n)

@[simp] theorem giveUp_node (s : FsTree) (n d : ℕ) : (s.giveUp n d).node = s.node := by
  simp [giveUp]

@[simp] theorem lookup_node (s : FsTree) (c : Cred) (av : Avail) (path : List Text) :
    (s.lookup c av path).2.node = s.node := releaseAll_node ..

theorem splitPath_short {dirpath : List Text} (h : splitPath path = some (dirpath, name)) :
    name.length ≤ 14 := by
  unfold splitPath at h
  simp only at h
  split at h
  · cases h
  next hlen =>
  have hname : (path.reverse.takeWhile (· ≠ Text.slash)).reverse = name := by
    split at h
    · exact (Prod.mk.inj (some.inj h)).2
    split at h
    · exact (Prod.mk.inj (some.inj h)).2
    · exact (Prod.mk.inj (some.inj h)).2
  rw [← hname]
  omega

@[simp] theorem release_holder (s : FsTree) (n : ℕ) : (s.release n).holder = s.holder := by
  unfold release
  split <;> rfl

@[simp] theorem releaseAll_holder (s : FsTree) (l : List ℕ) : (s.releaseAll l).holder = s.holder := by
  induction l generalizing s with
  | nil => rfl
  | cons n l ih => exact (ih (s.release n)).trans (s.release_holder n)

/-- The nodes and the holders are the same: so is what a path leads to. -/
structure SameNames (s s' : FsTree) : Prop where
  node : s'.node = s.node
  holder : s'.holder = s.holder

theorem SameNames.subject (h : SameNames s s') (c : Cred) : s'.subject c = s.subject c := by
  unfold FsTree.subject
  rw [h.holder]

/-- What the lookups of a call do: they put references, here to what `S` contains. -/
def Looks (S : ℕ → Prop) (s s' : FsTree) : Prop := ∃ l, s' = s.releaseAll l ∧ ∀ n ∈ l, S n

section Looks

variable {S : ℕ → Prop} {s₁ : FsTree}

theorem walks_true (path : List Text) : (namei s.node (s.subject c) av.room path).All fun _ => True :=
  ⟨fun _ _ => trivial, fun _ _ => trivial, fun _ _ => trivial⟩

theorem Looks.refl : Looks S s s := ⟨[], rfl, by simp⟩

theorem Looks.same (h : Looks S s s') : SameNames s s' := by
  obtain ⟨l, rfl, -⟩ := h
  exact ⟨releaseAll_node .., releaseAll_holder ..⟩

theorem Looks.releaseAll {l : List ℕ} (h : Looks S s s') (hl : ∀ n ∈ l, S n) : Looks S s (s'.releaseAll l) := by
  obtain ⟨l', rfl, hl'⟩ := h
  exact ⟨l' ++ l, (foldl_append ..).symm, fun n hn => (mem_append.mp hn).elim (hl' n) (hl n)⟩

theorem Looks.release (h : Looks S s s') (hn : S n) : Looks S s (s'.release n) :=
  h.releaseAll (l := [n]) (by simpa using hn)

variable (hall : ∀ path, (namei s.node (s.subject c) av.room path).All S)
include hall

theorem Looks.lookup (h : Looks S s s₁) (hl : s₁.lookup c av path = (r, s')) :
    Looks S s s' ∧ (namei s.node (s.subject c) av.room path).result = r := by
  unfold FsTree.lookup at hl
  rw [h.same.node, h.same.subject] at hl
  obtain ⟨rfl, rfl⟩ := Prod.mk.inj hl
  exact ⟨h.releaseAll (hall path).released, rfl⟩

/-- **The directory that a call is to change** is one, and the name is short. -/
theorem parentDir_looks {r : Option (ℕ × List Text)} (hp : s.parentDir c av bad path = (r, s')) :
    Looks S s s' ∧ ∀ d name, r = some (d, name) →
      S d ∧ (s.node d).isDir = true ∧ name.length ≤ 14 ∧ bad name = false := by
  unfold parentDir at hp
  split at hp
  · cases hp
    exact ⟨.refl, nofun⟩
  next dirpath name hsplit =>
  split at hp
  · cases hp
    exact ⟨.refl, nofun⟩
  next hbad =>
  split at hp
  · next hl =>
    cases hp
    exact ⟨(Looks.refl.lookup hall hl).1, nofun⟩
  next d s₁ hl =>
  obtain ⟨h₁, hr⟩ := Looks.refl.lookup hall hl
  have hd := (hall dirpath).result d hr
  split at hp
  · cases hp
    exact ⟨h₁.release hd, nofun⟩
  next hdir =>
  split at hp
  · cases hp
    exact ⟨h₁.release hd, nofun⟩
  cases hp
  refine ⟨h₁, ?_⟩
  rintro _ _ ⟨⟩
  rw [← h₁.same.node]
  exact ⟨hd, by simpa using hdir, splitPath_short hsplit, by simpa using hbad⟩

/-- What `sys_rename` has found out before it moves anything. -/
structure Found (s : FsTree) (c : Cred) (av : Avail) (old new : List Text) (m : Move)
    (olddir newdir : List Text) : Prop where
  old : splitPath old = some (olddir, m.oldbase)
  new : splitPath new = some (newdir, m.newbase)
  oldDir : (namei s.node (s.subject c) av.room olddir).result = some m.d
  newDir : (namei s.node (s.subject c) av.room newdir).result = some m.d'
  inode : (s.node m.d).findEntry m.oldbase = some m.n
  room : av.room m.n = true
  oldWrite : (s.node m.d).permits (s.subject c) mayWrite = true
  newWrite : m.d' ≠ m.d → (s.node m.d').permits (s.subject c) mayWrite = true
  target : (s.node m.d').findEntry m.newbase = none ∨ (s.node m.d').findEntry m.newbase = some m.n

theorem renameArgs_looks {r : Option Move}
    (hfound : ∀ d n name, S d → (s.node d).findEntry name = some n → S n) (h : s.renameArgs c av old new = (r, s')) :
    Looks S s s' ∧ ∀ m, r = some m → S m.d ∧ S m.d' ∧ ∃ olddir newdir, s.Found c av old new m olddir newdir := by
  unfold renameArgs at h
  split at h
  · next olddir oldbase newdir newbase hold hnew =>
    split at h
    · next hl =>
      cases h
      exact ⟨(Looks.refl.lookup hall hl).1, nofun⟩
    next d s₂ hl =>
    obtain ⟨h₂, hr⟩ := Looks.refl.lookup hall hl
    have hd := (hall olddir).result d hr
    rw [h₂.same.node, h₂.same.subject] at h
    split at h
    · cases h
      exact ⟨h₂.release hd, nofun⟩
    next hw =>
    split at h
    · cases h
      exact ⟨h₂.release hd, nofun⟩
    next n hn =>
    have hSn := hfound d n oldbase hd hn
    split at h
    · cases h
      exact ⟨h₂.release hd, nofun⟩
    next hroom =>
    split at h
    · next hl' =>
      cases h
      exact ⟨(h₂.lookup hall hl').1.releaseAll (by simpa using ⟨hd, hSn⟩), nofun⟩
    next d' s₃ hl' =>
    obtain ⟨h₃, hr'⟩ := h₂.lookup hall hl'
    have hd' := (hall newdir).result d' hr'
    have hback := h₃.releaseAll (l := [n, d, d']) (by simpa using ⟨hSn, hd, hd'⟩)
    rw [h₃.same.node, h₃.same.subject] at h
    split at h
    · cases h
      exact ⟨hback, nofun⟩
    next hw' =>
    have hnew' : d' ≠ d → (s.node d').permits (s.subject c) mayWrite = true := by
      intro hne
      by_contra hno
      exact hw' ⟨hne, Bool.eq_false_of_not_eq_true hno⟩
    have hmove : (s.node d').findEntry newbase = none ∨ (s.node d').findEntry newbase = some n →
        s.Found c av old new ⟨d, oldbase, d', newbase, n⟩ olddir newdir := fun ht =>
      ⟨hold, hnew, hr, hr', hn, by simpa using hroom, by simpa using hw, hnew', ht⟩
    split at h
    · next hfree =>
      cases h
      exact ⟨h₃, by rintro _ ⟨⟩; exact ⟨hd, hd', olddir, newdir, hmove (.inl hfree)⟩⟩
    next k hk =>
    split at h
    · next hkn =>
      cases h
      exact ⟨h₃, by rintro _ ⟨⟩; exact ⟨hd, hd', olddir, newdir, hmove (.inr (hkn ▸ hk))⟩⟩
    · cases h
      exact ⟨hback, nofun⟩
  · cases h
    exact ⟨.refl, nofun⟩

end Looks

theorem parentDir_isDir (h : s.parentDir c av bad path = (some (d, name), s')) : (s'.node d).isDir = true := by
  obtain ⟨hl, hd⟩ := parentDir_looks walks_true h
  rw [hl.same.node]
  exact (hd d name rfl).2.1

theorem renameArgs_found {r : Option Move} (h : s.renameArgs c av old new = (r, s')) :
    SameNames s s' ∧ ∀ m, r = some m → ∃ olddir newdir, s.Found c av old new m olddir newdir := by
  obtain ⟨hl, hm⟩ := renameArgs_looks walks_true (fun _ _ _ _ _ => trivial) h
  exact ⟨hl.same, fun m e => (hm m e).2.2⟩

/-! ### The invariant -/

/-- **In every directory, the names are distinct.** -/
def NamesInv (s : FsTree) : Prop := ∀ n, (s.node n).isDir = true → Distinct (s.node n).entries

section
variable (h : s.NamesInv) {nd : Node}
include h

theorem NamesInv.congr (hn : s'.node = s.node) : s'.NamesInv := by
  intro n
  rw [hn]
  exact h n

theorem NamesInv.release (n : ℕ) : (s.release n).NamesInv := h.congr (release_node ..)

theorem NamesInv.parentDir {r : Option (ℕ × List Text)} (hp : s.parentDir c av bad path = (r, s')) : s'.NamesInv :=
  h.congr (parentDir_looks walks_true hp).1.same.node

theorem NamesInv.releaseAll (l : List ℕ) : (s.releaseAll l).NamesInv :=
  h.congr (releaseAll_node ..)

/-- One node is replaced by one with distinct names. -/
theorem NamesInv.setNode (hnd : nd.isDir = true → Distinct nd.entries) :
    (s.setNode n nd).NamesInv := by
  intro m
  by_cases hm : m = n
  · subst hm
    rw [show (s.setNode m nd).node m = nd from update_self ..]
    exact hnd
  · rw [show (s.setNode n nd).node m = s.node m from update_of_ne hm ..]
    exact h m

/-- A node changes in neither its mode nor its entries. -/
theorem NamesInv.relink (hm : nd.mode = (s.node n).mode)
    (he : nd.entries = (s.node n).entries) : (s.setNode n nd).NamesInv := by
  refine h.setNode fun hd => ?_
  rw [he]
  refine h n ?_
  unfold Node.isDir at hd ⊢
  rwa [← hm]

/-- A node loses its entries. -/
theorem NamesInv.clear (he : nd.entries = []) : (s.setNode n nd).NamesInv := by
  refine h.setNode fun _ => ?_
  rw [he]
  exact nil

theorem NamesInv.drop (x : Holder) : (s.drop x).NamesInv := by
  unfold FsTree.drop
  split
  · exact h
  next n _ =>
  have hset : (s.setNode n { s.node n with count := (s.node n).count - 1#8 }).NamesInv := h.relink rfl rfl
  exact hset.congr (release_node ..)

theorem NamesInv.hold (x : Holder) (n : ℕ) : (s.hold x n).NamesInv := by
  have hset : (s.setNode n { s.node n with count := (s.node n).count + 1#8 }).NamesInv := h.relink rfl rfl
  exact (hset.drop x).congr rfl

/-- `dir_add_entry`, if the name is not in use there. -/
theorem NamesInv.dirAddEntry
    (hno : (s.node d).isDir = true → ∀ a ∈ (s.node d).entries, a.inode ≠ 0 → a.name ≠ name)
    (ha : s.dirAddEntry av d name n = some s') : s'.NamesInv := by
  unfold FsTree.dirAddEntry at ha
  split at ha
  · obtain ⟨l, hl, rfl⟩ := map_eq_some_iff.mp ha
    exact h.setNode fun hd => (h d hd).add (hno hd) hl
  · cases ha

theorem NamesInv.dirRemoveEntry (hr : s.dirRemoveEntry d name = some s') : s'.NamesInv := by
  obtain ⟨l, hl, rfl⟩ := map_eq_some_iff.mp hr
  exact h.setNode fun hd => (h d hd).remove hl

end

/-- What `new_inode` does: the number it takes becomes an empty file. -/
theorem newInode_some (h : s.newInode room = (some n, s')) :
    s.freshInode = some n ∧ s'.node = update s.node n { nlinks := 1#8, count := (s.node n).count } := by
  unfold newInode at h
  split at h
  · cases h
  next m hm =>
  split at h
  · obtain ⟨hn, hs⟩ := Prod.mk.inj h
    obtain rfl := some.inj hn
    exact ⟨hm, by rw [← hs]; rfl⟩
  · cases h

theorem newInode_none (h : s.newInode room = (none, s')) : s'.node = s.node := by
  unfold newInode at h
  split at h
  · rw [← (Prod.mk.inj h).2]
  split at h
  · cases h
  · rw [← (Prod.mk.inj h).2]

theorem NamesInv.newInode (h : s.NamesInv) (hn : s.newInode room = (r, s')) :
    s'.NamesInv := by
  cases r with
  | none => exact h.congr (newInode_none hn)
  | some n =>
    obtain ⟨-, hnode⟩ := newInode_some hn
    have hset : (s.setNode n { nlinks := 1#8, count := (s.node n).count }).NamesInv :=
      h.setNode fun _ => nil
    exact hset.congr hnode

theorem setNode_self (s : FsTree) (n : ℕ) (nd : Node) : (s.setNode n nd).node n = nd := update_self ..

theorem setNode_of_ne {s : FsTree} {m n : ℕ} {nd : Node} (h : m ≠ n) : (s.setNode n nd).node m = s.node m :=
  update_of_ne h ..

/-- `dir_add_entry` leaves the other inodes alone. -/
theorem dirAddEntry_of_ne (ha : s.dirAddEntry av d name n = some s') {m : ℕ} (hm : m ≠ d) :
    s'.node m = s.node m := by
  unfold dirAddEntry at ha
  split at ha
  · obtain ⟨l, -, rfl⟩ := map_eq_some_iff.mp ha
    exact setNode_of_ne hm
  · cases ha

section
variable (h : s.NamesInv) {flag : Word}
include h

/-- A new inode with no entries is entered under a name that is not in use. -/
theorem NamesInv.enterNew {fill done : Node → Node}
    (hd : (s.node d).isDir = true) (hf : (s.node d).findEntry name = none) (hfresh : s.freshInode ≠ some d)
    (hfill : ∀ nd, (fill nd).entries = nd.entries) (hdone : ∀ nd, (done nd).entries = nd.entries)
    (he : s.enterNew av d name fill done = (r, s')) : s'.NamesInv := by
  unfold FsTree.enterNew at he
  split at he
  · next s₁ hn =>
    rw [← (Prod.mk.inj he).2]
    exact (h.newInode hn).congr (release_node ..)
  next m s₁ hn =>
  obtain ⟨hm, hnode⟩ := newInode_some hn
  have hdm : d ≠ m := by
    rintro rfl
    exact hfresh hm
  have hempty : (fill (s₁.node m)).entries = [] := by rw [hfill, hnode, update_self]
  have h₂ : (s₁.setNode m (fill (s₁.node m))).NamesInv :=
    (h.newInode hn).setNode fun _ => by rw [hempty]; exact nil
  have hsame : (s₁.setNode m (fill (s₁.node m))).node d = s.node d := by
    rw [setNode_of_ne hdm, hnode, update_of_ne hdm]
  simp only at he
  split at he
  · rw [← (Prod.mk.inj he).2]
    exact h₂.congr (giveUp_node ..)
  next s₂ ha =>
  rw [← (Prod.mk.inj he).2]
  have h₃ : s₂.NamesInv := h₂.dirAddEntry (fun _ => by
    rw [hsame]
    exact (h d hd).not_in_use hd hf) ha
  refine h₃.setNode fun _ => ?_
  rw [hdone, dirAddEntry_of_ne ha hdm.symm, setNode_self, hempty]
  exact nil

/-! ### The steps -/

/-- **What keeps names unique.**  `new_inode` does not return the directory that is being extended;
nothing is renamed onto another link of the same file; nobody writes into a directory. -/
def NamesCareful (s : FsTree) (c : Cred) (av : Avail) : FsOp → Prop
  | .open path _ _ => ∀ d name s₁,
    (s.lookup c av path).2.parentDir c av (fun _ => false) path = (some (d, name), s₁) → s₁.freshInode ≠ some d
  | .mknod path _ | .mkdir path _ => ∀ d name s₁,
    s.parentDir c av (fun _ => false) path = (some (d, name), s₁) → s₁.freshInode ≠ some d
  | .rename old new => ∀ m s₁, s.renameArgs c av old new = (some m, s₁) →
    (s₁.node m.d').findEntry m.newbase = none ∨ m.d' = m.d ∧ m.newbase = m.oldbase
  | .write i _ => ∀ n, s.holder (.file i) = some n → (s.node n).isDir = false
  | .link .. | .unlink _ | .rmdir _ | .chdir _ | .chroot _ | .drop _ | .share .. | .pipe => True

/-- Every call is careful, and none changes an inode that it does not name. -/
def NamesCarefulRun : FsTree → List (Cred × Avail × FsOp) → Prop
  | _, [] => True
  | s, (c, av, op) :: ops => s.NamesCareful c av op ∧ av.stray = none ∧ NamesCarefulRun (s.step c av op) ops

theorem NamesInv.create
    (hc : ∀ d name s₁, s.parentDir c av (fun _ => false) path = (some (d, name), s₁) → s₁.freshInode ≠ some d)
    (hr : s.create c av path mode = (r, s')) : s'.NamesInv := by
  unfold FsTree.create at hr
  split at hr
  · next s₁ hp =>
    rw [← (Prod.mk.inj hr).2]
    exact h.parentDir hp
  next d name s₁ hp =>
  have h₁ := h.parentDir hp
  have hd := parentDir_isDir hp
  split at hr
  · split at hr
    · rw [← (Prod.mk.inj hr).2]
      exact h₁.congr (release_node ..)
    · rw [← (Prod.mk.inj hr).2]
      exact h₁.congr (release_node ..)
  next hf =>
  split at hr
  · next s₂ he =>
    rw [← (Prod.mk.inj hr).2]
    exact h₁.enterNew hd hf (hc d name s₁ hp) (by simp) (by simp) he
  · next s₂ he =>
    rw [← (Prod.mk.inj hr).2]
    exact (h₁.enterNew hd hf (hc d name s₁ hp) (by simp) (by simp) he).release d

theorem NamesInv.openInode
    (hc : s.NamesCareful c av (.open path flag mode)) (ho : s.openInode c av path flag mode = (r, s')) :
    s'.NamesInv := by
  have hlook : (s.lookup c av path).2.NamesInv := h.congr (lookup_node ..)
  have hfresh : ∀ d name s₁, (s.lookup c av path).2.parentDir c av (fun _ => false) path = (some (d, name), s₁) →
        s₁.freshInode ≠ some d := hc
  unfold FsTree.openInode at ho
  cases hl : s.lookup c av path with
  | mk r₁ s₁ =>
    rw [hl] at hlook hfresh ho
    cases r₁ with
    | some n =>
      rw [← (Prod.mk.inj ho).2]
      exact hlook
    | none =>
      simp only at ho
      split at ho
      · exact hlook.create hfresh ho
      · rw [← (Prod.mk.inj ho).2]
        exact hlook

theorem NamesInv.sysOpen
    (hc : s.NamesCareful c av (.open path flag mode)) : (s.sysOpen c av path flag mode).NamesInv := by
  unfold FsTree.sysOpen
  split
  · next s₁ ho => exact h.openInode hc ho
  next n s₁ ho =>
  have h₁ := h.openInode hc ho
  split
  · exact h₁.release n
  split
  · exact h₁.release n
  split
  · exact h₁.release n
  split
  · exact NamesInv.hold (h₁.clear rfl) _ n
  · exact h₁.hold _ n

theorem NamesInv.sysMknod
    (hc : s.NamesCareful c av (.mknod path mode)) : (s.sysMknod c av path mode).2.NamesInv := by
  unfold FsTree.sysMknod
  split
  · next s₁ hp => exact h.parentDir hp
  next d name s₁ hp =>
  have h₁ := h.parentDir hp
  have hd := parentDir_isDir hp
  split
  · exact h₁.congr (release_node ..)
  next hf =>
  split
  · next s₂ he => exact h₁.enterNew hd hf (hc d name s₁ hp) (by simp) (by simp) he
  · next n s₂ he =>
    exact ((h₁.enterNew hd hf (hc d name s₁ hp) (by simp) (by simp) he).release d).release n

omit h in
theorem distinct_newEntries (n d : ℕ) : Distinct (newEntries n d) := by
  unfold Distinct newEntries
  rw [pairwise_pair]
  intro _
  show dotName ≠ dotdotName
  decide

theorem NamesInv.sysMkdir
    (hc : s.NamesCareful c av (.mkdir path mode)) : (s.sysMkdir c av path mode).2.NamesInv := by
  unfold FsTree.sysMkdir
  split
  · next s₁ hp => exact h.parentDir hp
  next d name s₁ hp =>
  have h₁ := h.parentDir hp
  have hd := parentDir_isDir hp
  split
  · exact h₁.congr (release_node ..)
  next hf =>
  split
  · next s₂ hn => exact (h₁.newInode hn).congr (release_node ..)
  next n s₂ hn =>
  have h₂ := h₁.newInode hn
  obtain ⟨hfresh, hnode⟩ := newInode_some hn
  have hdn : d ≠ n := by
    rintro rfl
    exact hc d name s₁ hp hfresh
  split
  · exact h₂.congr (giveUp_node ..)
  simp only
  set s₃ := s₂.setNode n { s₂.node n with
    mode := (mode &&& 0x1ff#16) ||| 0x4000#16
    uid := c.euid
    gid := c.egid.setWidth 8
    nlinks := 2#8
    entries := newEntries n d }
  have h₃ : s₃.NamesInv := h₂.setNode fun _ => distinct_newEntries n d
  have hsame : s₃.node d = s₁.node d := by
    rw [setNode_of_ne hdn, hnode, update_of_ne hdn]
  split
  · exact h₃.congr (giveUp_node ..)
  next s₄ ha =>
  have h₄ : s₄.NamesInv := h₃.dirAddEntry (fun _ => by
    rw [hsame]
    exact (h₁ d hd).not_in_use hd hf) ha
  have h₅ : (s₄.setNode d { s₄.node d with nlinks := (s₄.node d).nlinks + 1#8 }).NamesInv :=
    h₄.relink rfl rfl
  exact (h₅.release d).release n

theorem NamesInv.sysLink (old new : List Text) : (s.sysLink c av old new).2.NamesInv := by
  have hlook : (s.lookup c av old).2.NamesInv := h.congr (lookup_node ..)
  unfold FsTree.sysLink
  split
  · next s₁ hl =>
    rw [hl] at hlook
    exact hlook
  next n s₁ hl =>
  rw [hl] at hlook
  split
  · exact hlook.congr (release_node ..)
  split
  · next s₂ hp => exact (hlook.parentDir hp).release n
  next d name s₂ hp =>
  have h₂ := hlook.parentDir hp
  have hd := parentDir_isDir hp
  split
  · exact h₂.congr (by simp)
  next hf =>
  split
  · exact h₂.congr (by simp)
  next s₃ ha =>
  have h₃ : s₃.NamesInv := h₂.dirAddEntry (fun _ => (h₂ d hd).not_in_use hd hf) ha
  have h₄ : (s₃.setNode n { s₃.node n with nlinks := (s₃.node n).nlinks + 1#8 }).NamesInv :=
    h₃.relink rfl rfl
  exact (h₄.release n).release d

theorem NamesInv.sysUnlink (path : List Text) : (s.sysUnlink c av path).2.NamesInv := by
  unfold FsTree.sysUnlink
  split
  · next s₁ hp => exact h.parentDir hp
  next d name s₁ hp =>
  have h₁ := h.parentDir hp
  split
  · exact h₁.congr (release_node ..)
  next n hf =>
  split
  · exact h₁.congr (release_node ..)
  split
  · exact h₁.congr (by simp)
  split
  · exact h₁.congr (by simp)
  next s₂ hr =>
  have h₂ := h₁.dirRemoveEntry hr
  set nd := { s₂.node n with nlinks := (s₂.node n).nlinks - 1#8 }
  have h₃ : (s₂.setNode n (if nd.nlinks = 0#8 then { nd with entries := [] } else nd)).NamesInv := by
    split
    · exact h₂.clear rfl
    · exact h₂.relink rfl rfl
  exact (h₃.release n).release d

theorem NamesInv.sysRmdir (path : List Text) : (s.sysRmdir c av path).2.NamesInv := by
  unfold FsTree.sysRmdir
  split
  · next s₁ hp => exact h.parentDir hp
  next d name s₁ hp =>
  have h₁ := h.parentDir hp
  split
  · exact h₁.congr (release_node ..)
  next n hf =>
  split
  · exact h₁.congr (release_node ..)
  split
  · exact h₁.congr (by simp)
  split
  · exact h₁.congr (by simp)
  split
  · exact h₁.congr (by simp)
  next s₂ hr =>
  have h₃ : (s₂.setNode n { s₂.node n with entries := [] }).NamesInv :=
    (h₁.dirRemoveEntry hr).clear rfl
  set s₃ := s₂.setNode n { s₂.node n with entries := [] }
  set s₄ := s₃.setNode d { s₃.node d with nlinks := (s₃.node d).nlinks - 1#8 }
  have h₄ : s₄.NamesInv := h₃.relink rfl rfl
  have h₅ : (s₄.setNode n { s₄.node n with nlinks := 0#8 }).NamesInv := h₄.relink rfl rfl
  exact NamesInv.release (NamesInv.release (h₅.congr (freeInode_node ..)) n) d

/-- Within one directory the old name goes before the new one comes. -/
theorem NamesInv.moveEntry {oldbase newbase : List Text} {d' : ℕ}
    (hnew : newbase.length ≤ 14)
    (hc : (s.node d').findEntry newbase = none ∨ d' = d ∧ newbase = oldbase) :
    (s.moveEntry av d oldbase d' newbase n).2.NamesInv := by
  unfold FsTree.moveEntry
  split
  · next hne =>
    have hf := hc.resolve_right fun h' => hne h'.1
    split
    · exact h
    next s₁ ha =>
    have h₁ : s₁.NamesInv := h.dirAddEntry (fun hd => (h d' hd).not_in_use hd hf) ha
    split
    · exact h₁
    next s₂ hr =>
    have h₂ := h₁.dirRemoveEntry hr
    have h₃ : (s₂.setNode d { s₂.node d with nlinks := (s₂.node d).nlinks - 1#8 }).NamesInv :=
      h₂.relink rfl rfl
    exact h₃.relink rfl rfl
  · next heq =>
    obtain rfl : d' = d := by simpa using heq
    split
    · exact h
    next s₁ hr =>
    have h₁ := h.dirRemoveEntry hr
    have hno : (s₁.node d').isDir = true → ∀ a ∈ (s₁.node d').entries, a.inode ≠ 0 → a.name ≠ newbase := by
      obtain ⟨l, hl, rfl⟩ := map_eq_some_iff.mp hr
      rw [setNode_self]
      intro hd a ha hlive
      rcases hc with hf | ⟨-, rfl⟩
      · exact (h d' hd).not_in_use hd hf a (mem_removeEntry hl ha hlive) hlive
      · rw [← take_of_length_le hnew]
        exact (h d' hd).removed hl ha hlive
    split
    · exact h₁
    · next s₂ ha => exact h₁.dirAddEntry hno ha

theorem NamesInv.sysRename
    (hc : s.NamesCareful c av (.rename old new)) : (s.sysRename c av old new).2.NamesInv := by
  unfold FsTree.sysRename
  split
  · next s₁ hr => exact h.congr (renameArgs_found hr).1.node
  next m s₁ hr =>
  obtain ⟨hs, hm⟩ := renameArgs_found hr
  obtain ⟨olddir, newdir, hf⟩ := hm m rfl
  have h₁ : s₁.NamesInv := h.congr hs.node
  exact (h₁.moveEntry (splitPath_short hf.new) (hc m s₁ hr)).releaseAll _

/-- Changing the working directory or the root changes no names. -/
theorem NamesInv.sysChdir (path : List Text) : (s.sysChdir c av path).2.NamesInv := by
  have hlook : (s.lookup c av path).2.NamesInv := h.congr (lookup_node ..)
  unfold FsTree.sysChdir
  split
  · next s₁ hl => rwa [hl] at hlook
  next n s₁ hl =>
  rw [hl] at hlook
  split
  · exact hlook.release n
  split
  · exact hlook.release n
  · exact hlook.hold _ n

theorem NamesInv.sysChroot (path : List Text) : (s.sysChroot c av path).2.NamesInv := by
  have hlook : (s.lookup c av path).2.NamesInv := h.congr (lookup_node ..)
  unfold FsTree.sysChroot
  split
  · next s₁ hl => rwa [hl] at hlook
  next n s₁ hl =>
  rw [hl] at hlook
  split
  · exact hlook.release n
  · exact hlook.hold _ n

theorem NamesInv.step {op : FsOp} (hc : s.NamesCareful c av op) (hs : av.stray = none) :
    (s.step c av op).NamesInv := by
  rw [step_eq_call hs]
  cases op with
  | «open» path flag mode => exact h.sysOpen hc
  | mknod path mode => exact h.sysMknod hc
  | mkdir path mode => exact h.sysMkdir hc
  | link old new => exact h.sysLink old new
  | unlink path => exact h.sysUnlink path
  | rmdir path => exact h.sysRmdir path
  | rename old new => exact h.sysRename hc
  | chdir path => exact h.sysChdir path
  | chroot path => exact h.sysChroot path
  | drop x => exact h.drop x
  | pipe => exact h
  | share x x' =>
    simp only [call]
    split
    · exact h.hold _ _
    · exact h
  | write i l =>
    simp only [call]
    split
    · next n hn =>
      refine h.setNode fun hd => ?_
      have hfile : (s.node n).isDir = false := hc n hn
      unfold Node.isDir at hfile hd
      rw [hfile] at hd
      cases hd
    · exact h

theorem NamesInv.run {ops : List (Cred × Avail × FsOp)} (hc : s.NamesCarefulRun ops) :
    (s.run ops).NamesInv := by
  induction ops generalizing s with
  | nil => exact h
  | cons x ops ih => exact ih (h.step hc.1 hc.2.1) hc.2.2

end

end FsTree

/-! ### From the image on -/

/-- What `mkminix` is given is a directory's names. -/
def GoodNames (progs : List FileName) : Prop := (dotName :: dotdotName :: progs.map Subtype.val).Nodup

theorem binEntries_names (n : ℕ) (progs : List FileName) :
    (binEntries n progs).map DirEntry.name = progs.map Subtype.val := by
  induction progs generalizing n with
  | nil => rfl
  | cons p ps ih =>
    unfold binEntries
    rw [map_cons, map_cons, ih]

/-- Entries whose names are all different are distinct. -/
theorem Distinct.of_nodup {l : List DirEntry} (h : (l.map DirEntry.name).Nodup) : Distinct l := by
  have hpair : l.Pairwise fun a b => a.name ≠ b.name := pairwise_map.mp h
  exact imp (by intro a b hne _; exact hne) hpair

theorem image_names {progs : List FileName} (hp : GoodNames progs) : (image progs).NamesInv := by
  intro n hd
  have hbin : Distinct (⟨7, dotName, dotName_short⟩ :: ⟨1, dotdotName, dotdotName_short⟩ :: binEntries 8 progs) := by
    apply Distinct.of_nodup
    rw [map_cons, map_cons, binEntries_names]
    exact hp
  unfold image
  cases hl : imageDir progs n with
  | some l =>
    simp only [hl]
    unfold imageDir at hl
    split at hl
    · obtain rfl := some.inj hl
      exact Distinct.of_nodup (by decide)
    · obtain rfl := some.inj hl
      exact Distinct.of_nodup (by decide)
    · obtain rfl := some.inj hl
      exact hbin
    · cases hl
  | none =>
    simp only [hl]
    split <;> exact nil

/-- Room for everything. -/
def roomy : Avail := ⟨fun _ => true, true, fun _ => true, some 0, none⟩

/-- `hello.txt`. -/
def helloName : List Text := text [104, 101, 108, 108, 111, 46, 116, 120, 116]

/-- The first task, as root. -/
def initCred : Cred := { task := 0 }

/-- `link("hello.txt", "a")`, and `rename("hello.txt", "a")`. -/
def renameOnto : List (Cred × Avail × FsOp) :=
  [(initCred, roomy, .link helloName (text [97])), (initCred, roomy, .rename helloName (text [97]))]

/-- `link("hello.txt", "a")`, `mkdir("d")` and `unlink("hello.txt")`. -/
def linkMkdirUnlink : List (Cred × Avail × FsOp) :=
  [(initCred, roomy, .link helloName (text [97])), (initCred, roomy, .mkdir (text [100]) 0x1ed#16),
    (initCred, roomy, .unlink helloName)]

theorem linkMkdirUnlink_careful : (image []).NamesCarefulRun linkMkdirUnlink := by
  refine ⟨trivial, rfl, fun d name s₁ h => ?_, rfl, trivial, rfl, trivial⟩
  have hd : some (d, name) = some (1, text [100]) := by
    rw [← show _ = some (d, name) from congrArg Prod.fst h]
    decide
  obtain ⟨rfl, -⟩ := Prod.mk.inj (some.inj hd)
  rw [← show _ = s₁ from congrArg Prod.snd h]
  decide

end Linux001

import Linux001.Fs.Names
import Linux001.Fs.ZoneInv
import Linux001.Lib.Bits
import Linux001.Lib.Hierarchy
import Linux001.Lib.Ledger

/-!
# Fs — the tree, its links and its holders

The directories in use form a tree, link counts count links, and an inode that somebody holds has its
bit in the map: one invariant, `TreeInv`, which is `Hierarchy.WF` together with the layout of
directories and the count of references.  `Fs.TreeRun` says which calls keep it.

`mkminix` gives the root two links, although it has two subdirectories; that is the 2 of
`TreeInv.wf`.
-/

namespace Linux001

open Function List FsTree Node

/-! ### Children -/

/-- The inode numbers in entries in use. -/
def inodes (l : List DirEntry) : List ℕ := (l.map DirEntry.inode).filter (· ≠ 0)

section Inodes

variable {e : DirEntry} {g : Bool} {l l' : List DirEntry} {name : List Text}

theorem mem_inodes {m : ℕ} : m ∈ inodes l ↔ m ≠ 0 ∧ ∃ e ∈ l, e.inode = m := by
  unfold inodes
  rw [mem_filter, mem_map]
  simp only [decide_eq_true_eq]
  exact and_comm

theorem inodes_cons (a : DirEntry) (l : List DirEntry) :
    inodes (a :: l) = if a.inode = 0 then inodes l else a.inode :: inodes l := by
  unfold inodes
  by_cases h : a.inode = 0
  · simp [h]
  · simp [h]

theorem inodes_append (l₁ l₂ : List DirEntry) : inodes (l₁ ++ l₂) = inodes l₁ ++ inodes l₂ := by
  simp [inodes]

theorem inodes_addEntry (he : e.inode ≠ 0) (h : addEntry e g l = some l') :
    (inodes l').Perm (e.inode :: inodes l) := by
  obtain ⟨l₁, s, l₂, rfl, rfl, -, hs⟩ := addEntry_split h
  have hnil : inodes s = [] := by simpa [inodes] using hs
  rw [inodes_append, inodes_append, inodes_append, inodes_cons, if_neg he, hnil]
  exact perm_middle

theorem inodes_removeEntry (h : removeEntry name l = some l') :
    ∃ e ∈ l, e.inode ≠ 0 ∧ e.name = name.take 14 ∧ (inodes l).Perm (e.inode :: inodes l') := by
  obtain ⟨l₁, a, l₂, rfl, rfl, hlive, hname, -⟩ := removeEntry_split h
  refine ⟨a, by simp, hlive, hname, ?_⟩
  rw [inodes_append, inodes_append, inodes_cons, inodes_cons, if_neg hlive, if_pos rfl]
  exact perm_middle

/-- Where an entry has been removed, one can be added. -/
theorem addEntry_of_removeEntry (h : removeEntry name l = some l') (e : DirEntry) (g : Bool) :
    ∃ l₂, addEntry e g l' = some l₂ := by
  obtain ⟨l₁, a, l₂, -, rfl, -⟩ := removeEntry_split h
  clear h
  induction l₁ with
  | nil => exact ⟨e :: l₂, by simp [addEntry]⟩
  | cons x l₁ ih =>
    obtain ⟨t, ht⟩ := ih
    rw [cons_append, addEntry, ht]
    split
    · exact ⟨_, rfl⟩
    · exact ⟨_, rfl⟩

end Inodes

def Node.kids (nd : Node) : List ℕ := inodes (nd.entries.drop 2)

namespace FsTree

/-- **The hierarchy of a file system.** -/
def hier (s : FsTree) : Hierarchy ℕ where
  dom := Finset.range (s.ninodes + 1)
  used := s.imap
  dir n := (s.node n).isDir
  kids n := (s.node n).kids
  links n := (s.node n).nlinks.toNat

/-- A directory in use. -/
def live (s : FsTree) (d : ℕ) : Prop := s.hier.live d

theorem hier_dom {s s' : FsTree} (h : s'.ninodes = s.ninodes) : s'.hier.dom = s.hier.dom :=
  congrArg (fun k => Finset.range (k + 1)) h

theorem not_live_of_file {s : FsTree} {n : ℕ} (h : (s.node n).isDir = false) : ¬ s.live n := by
  rintro ⟨-, hdir⟩
  change (s.node n).isDir = true at hdir
  rw [h] at hdir
  cases hdir

theorem not_live_of_free {s : FsTree} {n : ℕ} (h : s.imap n = false) : ¬ s.live n := by
  rintro ⟨hu, -⟩
  change s.imap n = true at hu
  rw [h] at hu
  cases hu

/-- What a directory begins with. -/
def dotEntries (d p : ℕ) : List DirEntry := [⟨d, dotName, dotName_short⟩, ⟨p, dotdotName, dotdotName_short⟩]

/-- **The invariant.** -/
structure TreeInv (s : FsTree) (parent : ℕ → ℕ) : Prop where
  small : s.ninodes < 65536
  zero : s.imap 0 = false
  wf : s.hier.WF 1 2 parent
  dots : ∀ {d}, s.live d → (s.node d).entries.take 2 = dotEntries d (parent d)
  distinct : ∀ {d}, s.live d → Distinct (s.node d).entries
  counts : ∀ n, (s.node n).count.toNat = Ledger.refs s.holder n
  held : ∀ {h n}, s.holder h = some n → s.imap n = true

variable {s s' : FsTree} {parent : ℕ → ℕ} {c : Cred} {av : Avail} {n d : ℕ} {name : List Text}
  {y : ℕ} {path : List Text} {r : Option ℕ} {nd : Node} {old new : List Text}

theorem isDots_eq_false : isDots name = false ↔ name ≠ dotName ∧ name ≠ dotdotName := by
  simp [isDots]

/-- An inode that can be put without being freed. -/
def Safe (s : FsTree) (n : ℕ) : Prop :=
  s.imap n = true ∧ ((s.node n).nlinks ≠ 0#8 ∨ (s.node n).count ≠ 0#8)

theorem Safe.release (h : s.Safe n) : s.release n = s := by
  unfold FsTree.release
  rw [if_neg]
  rintro ⟨hc, hl⟩
  exact h.2.elim (fun h' => h' hl) (fun h' => h' hc)

theorem releaseAll_of_safe {l : List ℕ} (h : ∀ n ∈ l, s.Safe n) : s.releaseAll l = s := by
  induction l with
  | nil => rfl
  | cons n l ih =>
    show (s.release n).releaseAll l = s
    rw [(h n mem_cons_self).release]
    exact ih fun m hm => h m (mem_cons_of_mem _ hm)

namespace TreeInv

section
variable (h : s.TreeInv parent)
include h

theorem pos (hn : s.imap n = true) : n ≠ 0 := by
  rintro rfl
  rw [h.zero] at hn
  cases hn

theorem le (hn : s.imap n = true) : n ≤ s.ninodes := by
  have := Finset.mem_range.mp (h.wf.inDom hn)
  omega

theorem short_eq (hn : n ≤ s.ninodes) : short n = n := by
  have := h.small
  exact Nat.mod_eq_of_lt (by omega)

section
variable (hd : s.live d)
include hd

/-- A directory in use is `.`, `..` and the rest. -/
theorem split :
    (s.node d).entries = dotEntries d (parent d) ++ (s.node d).entries.drop 2 := by
  rw [← h.dots hd, take_append_drop]

/-- A directory in use has links. -/
theorem nlinks_ne : (s.node d).nlinks ≠ 0#8 := by
  intro h₀
  have hz : s.hier.links d = 0 := by
    show (s.node d).nlinks.toNat = 0
    rw [h₀]
    rfl
  by_cases h1 : d = 1
  · exact h.wf.topPos (h1 ▸ hz)
  · have := h.wf.dirLinks hd h1
    omega

theorem safe_live : s.Safe d := ⟨hd.1, .inl (h.nlinks_ne hd)⟩

/-- A child is safe. -/
theorem safe_kid (hn : n ∈ (s.node d).kids) : s.Safe n := by
  have hu : s.imap n = true := h.wf.named hd hn
  cases hdir : (s.node n).isDir with
  | true => exact h.safe_live ⟨hu, hdir⟩
  | false =>
    refine ⟨hu, .inl fun h₀ => ?_⟩
    have hlinks := h.wf.fileLinks hu hdir
    have hpos := Hierarchy.linksTo_pos h.wf hd hn
    have hz : s.hier.links n = 0 := by
      show (s.node n).nlinks.toNat = 0
      rw [h₀]
      rfl
    omega

/-- What is found in a directory in use is that directory, its parent or a child. -/
theorem found (hf : (s.node d).findEntry name = some n) :
    n = d ∧ name = dotName ∨ n = parent d ∧ name = dotdotName ∨
      n ∈ (s.node d).kids ∧ name ≠ dotName ∧ name ≠ dotdotName := by
  obtain ⟨-, hne, e, he, rfl, hname⟩ := findEntry_some hf
  have hdist := h.distinct hd
  rw [h.split hd] at he hdist
  rcases mem_append.mp he with he | he
  · rcases mem_cons.mp he with rfl | he
    · exact .inl ⟨rfl, eq_of_take (by decide) hname.symm⟩
    · obtain rfl := mem_singleton.mp he
      exact .inr (.inl ⟨rfl, eq_of_take (by decide) hname.symm⟩)
  refine .inr (.inr ⟨mem_inodes.mpr ⟨hne, e, he, rfl⟩, ?_, ?_⟩)
  -- an entry in use has the name of no entry before it
  · rintro rfl
    have hcross := (pairwise_append.mp hdist).2.2 _ mem_cons_self e he hne
    exact hcross hname.symm
  · rintro rfl
    have hcross := (pairwise_append.mp hdist).2.2 _
      (mem_cons_of_mem _ (mem_singleton.mpr rfl)) e he hne
    exact hcross hname.symm

/-- What is found under another name is a child. -/
theorem found_kid (hbad : isDots name = false)
    (hf : (s.node d).findEntry name = some n) : n ∈ (s.node d).kids := by
  obtain ⟨hdot, hdd⟩ := isDots_eq_false.mp hbad
  rcases h.found hd hf with ⟨-, e⟩ | ⟨-, e⟩ | ⟨hn, -⟩
  · exact absurd e hdot
  · exact absurd e hdd
  · exact hn

theorem safe_found (hf : (s.node d).findEntry name = some n) :
    s.Safe n := by
  rcases h.found hd hf with ⟨rfl, -⟩ | ⟨rfl, -⟩ | ⟨hn, -⟩
  · exact h.safe_live hd
  · exact h.safe_live (h.wf.parent_live hd)
  · exact h.safe_kid hd hn

end

theorem safe_held {x : Holder} (hx : s.holder x = some n) : s.Safe n := by
  refine ⟨h.held hx, .inr fun h₀ => ?_⟩
  have hpos := Ledger.refs_pos hx
  rw [← h.counts n, h₀] at hpos
  exact absurd hpos (by decide)

/-- What a lookup comes to, and what it puts, is safe. -/
theorem walks (path : List Text) : (namei s.node (s.subject c) av.room path).All s.Safe := by
  refine namei_all (fun n m name hn hf => ?_) (fun d hd => ?_)
  · exact h.safe_found ⟨hn.1, (findEntry_some hf).1⟩ hf
  cases path with
  | nil => exact h.safe_held hd
  | cons b path =>
    simp only [start] at hd
    split at hd
    · split at hd
      · obtain rfl := Option.some.inj hd
        exact h.safe_live h.wf.top_live
      · exact h.safe_held hd
    · exact h.safe_held hd

/-- **`namei` frees nothing**, and what it returns is safe. -/
theorem lookup
    (hl : s.lookup c av path = (r, s')) : s' = s ∧ ∀ n, r = some n → s.Safe n := by
  obtain ⟨⟨l, rfl, hs⟩, hr⟩ := Looks.refl.lookup h.walks hl
  exact ⟨releaseAll_of_safe hs, fun n hn => (h.walks path).result n (hr.trans hn)⟩

theorem parentDir {bad : List Text → Bool} {r : Option (ℕ × List Text)}
    (hp : s.parentDir c av bad path = (r, s')) :
    s' = s ∧ ∀ d name, r = some (d, name) → s.live d ∧ name.length ≤ 14 ∧ bad name = false := by
  obtain ⟨⟨l, rfl, hs⟩, hd⟩ := parentDir_looks h.walks hp
  refine ⟨releaseAll_of_safe hs, fun d name e => ?_⟩
  obtain ⟨hsafe, hdir, hrest⟩ := hd d name e
  exact ⟨⟨hsafe.1, hdir⟩, hrest⟩

end

/-- The number that `new_inode` takes is free. -/
theorem fresh (hf : s.freshInode = some n) : s.imap n = false ∧ n ≠ 0 := by
  obtain ⟨j, hj, rfl⟩ := Option.map_eq_some_iff.mp hf
  exact ⟨(Vol.findClear_some hj).1, Nat.succ_ne_zero j⟩

/-! ### One inode and one directory are edited -/

/-- What may happen to the directory `d` and to the inode `n`, which is no directory in use, before or
after. -/
structure Edited (s s' : FsTree) (d n : ℕ) : Prop where
  ninodes : s'.ninodes = s.ninodes
  holder : s'.holder = s.holder
  dir : s.live d
  before : ¬ s.live n
  after : ¬ s'.live n
  other : ∀ y, y ≠ n → s'.imap y = s.imap y ∧ (s'.node y).mode = (s.node y).mode ∧
    (s'.node y).nlinks = (s.node y).nlinks ∧ (s'.node y).count = (s.node y).count
  count : (s'.node n).count = (s.node n).count
  entries : ∀ y, y ≠ n → y ≠ d → (s'.node y).entries = (s.node y).entries

theorem Edited.live_iff (he : Edited s s' d n) (y : ℕ) : s'.live y ↔ s.live y := by
  by_cases hy : y = n
  · subst hy
    exact iff_of_false he.after he.before
  obtain ⟨hi, hm, -⟩ := he.other y hy
  show s'.imap y = true ∧ (s'.node y).isDir = true ↔ s.imap y = true ∧ (s.node y).isDir = true
  unfold isDir
  rw [hi, hm]

section
variable (h : s.TreeInv parent)
include h

theorem edited (he : Edited s s' d n)
    (hrange : s'.imap n = true → n ≠ 0 ∧ n ≤ s.ninodes)
    (htake : (s'.node d).entries.take 2 = (s.node d).entries.take 2) (hdist : Distinct (s'.node d).entries)
    (hcount : ∀ m, m ≠ n → (s'.node d).kids.count m = (s.node d).kids.count m)
    (hused : ∀ y, s'.live y → n ∈ (s'.node y).kids → s'.imap n = true)
    (hlinks : s'.imap n = true → (s'.node n).nlinks.toNat = s'.hier.linksTo n)
    (hheld : ∀ x, s.holder x = some n → s'.imap n = true) : s'.TreeInv parent := by
  have hlive := he.live_iff
  refine ⟨he.ninodes ▸ h.small, ?_, ?_, fun {y} hy => ?_, fun {y} hy => ?_, fun y => ?_, fun {x y} hx => ?_⟩
  · by_cases hn : n = 0
    · refine Bool.eq_false_of_not_eq_true fun h' => ?_
      rw [← hn] at h'
      exact (hrange h').1 hn
    · rw [(he.other 0 (Ne.symm hn)).1]
      exact h.zero
  · refine h.wf.edit ?_ he.dir he.before he.after (fun h' => ?_) (fun y hy => ?_)
      (fun y hy hyd => ?_) hcount hused hlinks
    · exact hier_dom he.ninodes
    · exact Finset.mem_range.mpr (by have := (hrange h').2; omega)
    · obtain ⟨hi, hm, hl, -⟩ := he.other y hy
      refine ⟨hi, ?_, ?_⟩
      · show (s'.node y).isDir = (s.node y).isDir
        unfold isDir
        rw [hm]
      · show (s'.node y).nlinks.toNat = (s.node y).nlinks.toNat
        rw [hl]
    · show (s'.node y).kids = (s.node y).kids
      unfold kids
      rw [he.entries y (fun e => he.before (e ▸ hy)) hyd]
  · have hy' := (hlive y).mp hy
    by_cases hyd : y = d
    · subst hyd
      rw [htake]
      exact h.dots hy'
    · rw [he.entries y (fun e => he.before (e ▸ hy')) hyd]
      exact h.dots hy'
  · have hy' := (hlive y).mp hy
    by_cases hyd : y = d
    · subst hyd
      exact hdist
    · rw [he.entries y (fun e => he.before (e ▸ hy')) hyd]
      exact h.distinct hy'
  · rw [he.holder]
    by_cases hyn : y = n
    · rw [hyn, he.count]
      exact h.counts n
    · rw [(he.other y hyn).2.2.2]
      exact h.counts y
  · rw [he.holder] at hx
    by_cases hyn : y = n
    · rw [hyn] at hx ⊢
      exact hheld x hx
    · rw [(he.other y hyn).1]
      exact h.held hx

/-- The links to `n`, when only `d` has been edited. -/
theorem Edited.linksTo (he : Edited s s' d n) :
    s'.hier.linksTo n + (s.node d).kids.count n = s.hier.linksTo n + (s'.node d).kids.count n := by
  refine Hierarchy.linksTo_edit ?_ he.live_iff he.dir (h.wf.inDom he.dir.1)
    (fun y hy hyd => ?_) n
  · exact hier_dom he.ninodes
  · show (s'.node y).kids = (s.node y).kids
    unfold kids
    rw [he.entries y (fun e => he.before (e ▸ hy)) hyd]

/-- A free inode is nobody's child. -/
theorem unnamed (hn : s.imap n = false) (hy : s.live y) :
    n ∉ (s.node y).kids := by
  intro hm
  have : s.imap n = true := h.wf.named hy hm
  rw [hn] at this
  cases this

/-- A free inode is held by nobody. -/
theorem unheld (hn : s.imap n = false) (x : Holder) : s.holder x ≠ some n := by
  intro hx
  rw [h.held hx] at hn
  cases hn

/-- **A free inode is scribbled on.** -/
theorem scratch (hn : s.imap n = false) (hni : s'.ninodes = s.ninodes)
    (hh : s'.holder = s.holder) (hi : ∀ y, s'.imap y = s.imap y) (hc : (s'.node n).count = (s.node n).count)
    (ho : ∀ y, y ≠ n → s'.node y = s.node y) : s'.TreeInv parent := by
  have hn' : s'.imap n = false := (hi n).trans hn
  have hnot : ¬ s.live n := not_live_of_free hn
  have hnot' : ¬ s'.live n := not_live_of_free hn'
  have h1 : (1 : ℕ) ≠ n := fun e => hnot (e ▸ h.wf.top_live)
  have he : Edited s s' 1 n := ⟨hni, hh, h.wf.top_live, hnot, hnot', fun y hy => ⟨hi y, by rw [ho y hy],
    by rw [ho y hy], by rw [ho y hy]⟩, hc, fun y hy _ => by rw [ho y hy]⟩
  refine h.edited he (fun h' => ?_) (by rw [ho 1 h1]) (by rw [ho 1 h1]; exact h.distinct h.wf.top_live)
    (fun m _ => by rw [ho 1 h1]) (fun y hy hm => ?_) (fun h' => ?_) (fun x hx => absurd hx (h.unheld hn x))
  · rw [hn'] at h'
    cases h'
  · have hy' := (he.live_iff y).mp hy
    rw [ho y (fun e => hnot (e ▸ hy'))] at hm
    exact absurd hm (h.unnamed hn hy')
  · rw [hn'] at h'
    cases h'

end

/-! ### Entries of a directory in use -/

/-- What is added to a directory comes after the dots. -/
theorem addEntry_dots {p : ℕ} {e : DirEntry} {g : Bool} {t l' : List DirEntry} (hd : d ≠ 0) (hp : p ≠ 0)
    (ha : addEntry e g (dotEntries d p ++ t) = some l') :
    ∃ t', l' = dotEntries d p ++ t' ∧ addEntry e g t = some t' := by
  simp only [dotEntries, cons_append, nil_append, addEntry, hd, hp, if_false] at ha
  obtain ⟨t₁, ht₁, rfl⟩ := Option.map_eq_some_iff.mp ha
  obtain ⟨t₂, ht₂, rfl⟩ := Option.map_eq_some_iff.mp ht₁
  exact ⟨t₂, rfl, ht₂⟩

/-- An entry added to a directory in use: the dots stay, and there is a child more. -/
theorem addEntry_spec (h : s.TreeInv parent) (hd : s.live d) {e : DirEntry} {g : Bool} {l' : List DirEntry}
    (he : e.inode ≠ 0) (hf : (s.node d).findEntry e.name = none)
    (ha : addEntry e g (s.node d).entries = some l') :
    l'.take 2 = (s.node d).entries.take 2 ∧ Distinct l' ∧ (inodes (l'.drop 2)).Perm (e.inode :: (s.node d).kids) := by
  have hdist := (h.distinct hd).add ((h.distinct hd).not_in_use hd.2 hf) ha
  rw [h.split hd] at ha
  obtain ⟨t', rfl, ht'⟩ := addEntry_dots (h.pos hd.1) (h.pos (h.wf.parent_live hd).1) ha
  exact ⟨(h.dots hd).symm, hdist, inodes_addEntry he ht'⟩

/-- An entry removed from a directory in use, other than the dots: it was that of the name. -/
theorem removeEntry_spec (h : s.TreeInv parent) (hd : s.live d) {l' : List DirEntry}
    (hbad : isDots name = false) (hf : (s.node d).findEntry name = some n)
    (hr : removeEntry name (s.node d).entries = some l') :
    l'.take 2 = (s.node d).entries.take 2 ∧ Distinct l' ∧ (s.node d).kids.Perm (n :: inodes (l'.drop 2)) := by
  obtain ⟨hdot, hdd⟩ := isDots_eq_false.mp hbad
  have h₁ : nameEq dotName name = false := Bool.eq_false_of_not_eq_true fun h' =>
    hdot (eq_of_take (by decide) ((nameEq_iff ⟨0, dotName, dotName_short⟩ name).mp h').symm)
  have h₂ : nameEq dotdotName name = false := Bool.eq_false_of_not_eq_true fun h' =>
    hdd (eq_of_take (by decide) ((nameEq_iff ⟨0, dotdotName, dotdotName_short⟩ name).mp h').symm)
  have hr' := hr
  rw [h.split hd] at hr'
  simp only [dotEntries, cons_append, nil_append, removeEntry, h₁, h₂, Bool.false_eq_true, and_false,
    if_false] at hr'
  obtain ⟨t₁, ht₁, rfl⟩ := Option.map_eq_some_iff.mp hr'
  obtain ⟨t₂, ht₂, rfl⟩ := Option.map_eq_some_iff.mp ht₁
  refine ⟨by rw [h.dots hd]; rfl, (h.distinct hd).remove hr, ?_⟩
  obtain ⟨e, he, hlive, hname, hperm⟩ := inodes_removeEntry ht₂
  -- `find_entry` finds the same entry
  have hfind := (h.distinct hd).findEntry hd.2 (mem_of_mem_drop he) hlive
  rw [hname, findEntry_take, hf] at hfind
  obtain rfl := Option.some.inj hfind
  exact hperm

/-! ### Files come and go -/

theorem release_of_links {t : FsTree} (hl : (t.node n).nlinks ≠ 0#8) : t.release n = t := by
  unfold release
  rw [if_neg fun h' => hl h'.2]

theorem toNat_ne_zero {b : Byte} (h : b.toNat ≠ 0) : b ≠ 0#8 := by
  rintro rfl
  exact h rfl

/-- Counts after a child has come. -/
theorem count_cons_of_perm {l l' : List ℕ} (hp : l'.Perm (n :: l)) (m : ℕ) :
    l'.count m = l.count m + if m = n then 1 else 0 := by
  rw [hp.count_eq, count_cons]
  by_cases hm : m = n
  · simp [hm]
  · simp [hm, Ne.symm hm]

/-- What `new_inode` leaves when there is a slot for the inode. -/
theorem newInode_eq {room : ℕ → Bool} (hroom : ∀ n, s.freshInode = some n → room n = true) :
    s.newInode room = match s.freshInode with
      | none => (none, s)
      | some n => (some n, { s with imap := update s.imap n true }.setNode n
          { nlinks := 1#8, count := (s.node n).count }) := by
  unfold newInode
  cases hf : s.freshInode with
  | none => rfl
  | some n => simp only [hroom n hf, if_true]

/-- **A new inode is given up.** -/
theorem givenUp {t : FsTree} (h : s.TreeInv parent) (hd : s.live d) (hfree : s.imap n = false)
    (hni : t.ninodes = s.ninodes) (hh : t.holder = s.holder) (hi : t.imap = update s.imap n true)
    (hc : (t.node n).count = (s.node n).count) (hl : (t.node n).nlinks ≠ 0#8)
    (ho : ∀ y, y ≠ n → t.node y = s.node y) : (t.giveUp n d).TreeInv parent ∧ (t.giveUp n d).live d := by
  have hdn : d ≠ n := by
    rintro rfl
    exact not_live_of_free hfree hd
  have himap : ∀ y, (t.freeInode n).imap y = s.imap y := by
    intro y
    show update t.imap n false y = s.imap y
    by_cases hy : y = n
    · rw [hy, update_self, hfree]
    · rw [update_of_ne hy, hi, update_of_ne hy]
  have hinv : (t.freeInode n).TreeInv parent := h.scratch hfree hni hh himap hc ho
  have hlive : (t.freeInode n).live d := by
    refine ⟨(himap d).trans hd.1, ?_⟩
    show (t.node d).isDir = true
    rw [ho d hdn]
    exact hd.2
  have hkeep : (t.freeInode n).release n = t.freeInode n := release_of_links hl
  rw [giveUp, hkeep, (hinv.safe_live hlive).release]
  exact ⟨hinv, hlive⟩

/-- **A new file is entered in `d`**, or there is no room for it. -/
theorem enterNew {fill done : Node → Node} (h : s.TreeInv parent) (hd : s.live d)
    (hname : name.length ≤ 14) (hf : (s.node d).findEntry name = none)
    (hfresh : ∀ n, s.freshInode = some n → av.room n = true ∧ n ≤ s.ninodes)
    (hfill : ∀ nd, (fill nd).count = nd.count ∧ (fill nd).nlinks = nd.nlinks)
    (hdone : ∀ nd, (done nd).count = nd.count ∧ (nd.nlinks = 1#8 → (done nd).nlinks = 1#8))
    (hfile : ∀ nd, nd.mode = 0#16 → (done (fill nd)).isDir = false)
    (he : s.enterNew av d name fill done = (r, s')) :
    s'.TreeInv parent ∧ s'.live d ∧ ∀ n, r = some n → s'.Safe n := by
  unfold FsTree.enterNew at he
  rw [newInode_eq fun n hn => (hfresh n hn).1] at he
  cases hfr : s.freshInode with
  | none =>
    simp only [hfr] at he
    obtain ⟨rfl, rfl⟩ := Prod.mk.inj he
    rw [(h.safe_live hd).release]
    exact ⟨h, hd, by simp⟩
  | some n =>
    obtain ⟨hfree, hn0⟩ := fresh hfr
    obtain ⟨-, hle⟩ := hfresh n hfr
    have hnot : ¬ s.live n := not_live_of_free hfree
    have hdn : d ≠ n := by
      rintro rfl
      exact hnot hd
    simp only [hfr, dirAddEntry, dif_pos hname] at he
    set nd₀ : Node := { nlinks := 1#8, count := (s.node n).count }
    set s₁ := { s with imap := update s.imap n true }.setNode n nd₀
    have hs₁n : s₁.node n = nd₀ := setNode_self ..
    rw [hs₁n] at he
    set s₂ := s₁.setNode n (fill nd₀)
    have hs₂n : s₂.node n = fill nd₀ := setNode_self ..
    have hs₂ : ∀ {y}, y ≠ n → s₂.node y = s.node y := fun hy => by
      rw [setNode_of_ne hy, setNode_of_ne hy]
    have hlinks₂ : (fill nd₀).nlinks = 1#8 := (hfill nd₀).2
    rw [hs₂ hdn] at he
    cases ha : addEntry ⟨short n, name, hname⟩ (av.grow d) (s.node d).entries with
    | none =>
      simp only [ha, Option.map_none] at he
      obtain ⟨rfl, rfl⟩ := Prod.mk.inj he
      obtain ⟨hinv, hlive⟩ := h.givenUp hd hfree (t := s₂) rfl rfl rfl (by rw [hs₂n, (hfill nd₀).1])
        (by rw [hs₂n, hlinks₂]; decide) (fun y hy => hs₂ hy)
      exact ⟨hinv, hlive, by simp⟩
    | some l' =>
      simp only [ha, Option.map_some] at he
      obtain ⟨rfl, rfl⟩ := Prod.mk.inj he
      rw [h.short_eq hle] at ha
      obtain ⟨htake, hdist, hperm⟩ := h.addEntry_spec hd hn0 hf ha
      set s₃ := s₂.setNode d { s.node d with entries := l' }
      have hs₃n : s₃.node n = fill nd₀ := by rw [setNode_of_ne hdn.symm, hs₂n]
      rw [hs₃n]
      set s₄ := s₃.setNode n (done (fill nd₀))
      have hs₄n : s₄.node n = done (fill nd₀) := setNode_self ..
      have hs₄d : s₄.node d = { s.node d with entries := l' } := by
        rw [setNode_of_ne hdn, setNode_self]
      have hs₄ : ∀ {y}, y ≠ n → y ≠ d → s₄.node y = s.node y := fun hy hyd => by
        rw [setNode_of_ne hy, setNode_of_ne hyd, hs₂ hy]
      have himap : ∀ {y}, y ≠ n → s₄.imap y = s.imap y := fun hy => update_of_ne hy ..
      have hset : s₄.imap n = true := update_self ..
      have hlinks₄ : (s₄.node n).nlinks = 1#8 := by
        rw [hs₄n]
        exact (hdone _).2 hlinks₂
      have hed : Edited s s₄ d n := by
        refine ⟨rfl, rfl, hd, hnot, not_live_of_file ?_, fun y hy => ⟨himap hy, ?_, ?_, ?_⟩, ?_,
          fun y hy hyd => by rw [hs₄ hy hyd]⟩
        · rw [hs₄n]
          exact hfile nd₀ rfl
        all_goals try
          by_cases hyd : y = d
          · rw [hyd, hs₄d]
          · rw [hs₄ hy hyd]
        · rw [hs₄n, (hdone _).1, (hfill _).1]
      have hkd : (s₄.node d).kids.Perm (n :: (s.node d).kids) := by
        rw [hs₄d]
        exact hperm
      have hinv : s₄.TreeInv parent := by
        refine h.edited hed (fun _ => ⟨hn0, hle⟩) (by rw [hs₄d]; exact htake) (by rw [hs₄d]; exact hdist)
          (fun m hm => ?_) (fun _ _ _ => hset) (fun _ => ?_) (fun _ _ => hset)
        · rw [count_cons_of_perm hkd, if_neg hm, Nat.add_zero]
        · -- one link, from `d`
          have hto := hed.linksTo h
          rw [count_cons_of_perm hkd, if_pos rfl, Hierarchy.linksTo_eq_zero fun y hy => h.unnamed hfree hy] at hto
          rw [hlinks₄]
          show 1 = _
          omega
      refine ⟨hinv, (hed.live_iff d).mpr hd, fun m hm => ?_⟩
      obtain rfl := Option.some.inj hm
      refine ⟨hset, .inl ?_⟩
      rw [hlinks₄]
      decide

/-- **A file gets another link**, in `d`. -/
theorem addLink (h : s.TreeInv parent) (hd : s.live d) (hu : s.imap n = true) (hfile : (s.node n).isDir = false)
    (hwrap : (s.node n).nlinks ≠ 255#8) (hf : (s.node d).findEntry name = none)
    (ha : s.dirAddEntry av d name n = some s') :
    (s'.setNode n { s'.node n with nlinks := (s'.node n).nlinks + 1#8 }).TreeInv parent ∧
      (s'.setNode n { s'.node n with nlinks := (s'.node n).nlinks + 1#8 }).live d ∧
      (s'.setNode n { s'.node n with nlinks := (s'.node n).nlinks + 1#8 }).Safe n := by
  have hnot : ¬ s.live n := not_live_of_file hfile
  have hdn : d ≠ n := by
    rintro rfl
    exact hnot hd
  unfold dirAddEntry at ha
  split at ha
  · next hname =>
    obtain ⟨l', hl', rfl⟩ := Option.map_eq_some_iff.mp ha
    rw [h.short_eq (h.le hu)] at hl'
    obtain ⟨htake, hdist, hperm⟩ := h.addEntry_spec hd (h.pos hu) hf hl'
    set s₁ := s.setNode d { s.node d with entries := l' }
    have hs₁n : s₁.node n = s.node n := setNode_of_ne hdn.symm
    rw [hs₁n]
    set s₂ := s₁.setNode n { s.node n with nlinks := (s.node n).nlinks + 1#8 }
    have hs₂n : s₂.node n = { s.node n with nlinks := (s.node n).nlinks + 1#8 } := setNode_self ..
    have hs₂d : s₂.node d = { s.node d with entries := l' } := by rw [setNode_of_ne hdn, setNode_self]
    have hs₂ : ∀ {y}, y ≠ n → y ≠ d → s₂.node y = s.node y := fun hy hyd => by
      rw [setNode_of_ne hy, setNode_of_ne hyd]
    have hed : Edited s s₂ d n := by
      refine ⟨rfl, rfl, hd, hnot, fun hl => hnot ⟨hu, ?_⟩, fun y hy => ⟨rfl, ?_, ?_, ?_⟩, ?_,
        fun y hy hyd => by rw [hs₂ hy hyd]⟩
      · have hdir : (s₂.node n).isDir = true := hl.2
        rw [hs₂n] at hdir
        exact hdir
      all_goals try
        by_cases hyd : y = d
        · rw [hyd, hs₂d]
        · rw [hs₂ hy hyd]
      · rw [hs₂n]
    have hkd : (s₂.node d).kids.Perm (n :: (s.node d).kids) := by
      rw [hs₂d]
      exact hperm
    have hinv : s₂.TreeInv parent := by
      refine h.edited hed (fun _ => ⟨h.pos hu, h.le hu⟩) (by rw [hs₂d]; exact htake) (by rw [hs₂d]; exact hdist)
        (fun m hm => ?_) (fun _ _ _ => hu) (fun _ => ?_) (fun _ _ => hu)
      · rw [count_cons_of_perm hkd, if_neg hm, Nat.add_zero]
      · have hto := hed.linksTo h
        have hlk : (s.node n).nlinks.toNat = s.hier.linksTo n := h.wf.fileLinks hu hfile
        rw [count_cons_of_perm hkd, if_pos rfl] at hto
        rw [hs₂n]
        rw [Bits.toNat_succ hwrap]
        omega
    refine ⟨hinv, (hed.live_iff d).mpr hd, hu, .inl ?_⟩
    rw [hs₂n]
    apply toNat_ne_zero
    rw [Bits.toNat_succ hwrap]
    exact Nat.succ_ne_zero _
  · cases ha

/-- The inode map after `release`. -/
theorem release_imap (t : FsTree) (n y : ℕ) : (t.release n).imap y =
    if y = n ∧ (t.node n).count = 0#8 ∧ (t.node n).nlinks = 0#8 then false else t.imap y := by
  unfold release
  by_cases hc : (t.node n).count = 0#8 ∧ (t.node n).nlinks = 0#8
  · rw [if_pos hc]
    show update t.imap n false y = _
    by_cases hy : y = n
    · rw [hy, update_self, if_pos ⟨rfl, hc⟩]
    · rw [update_of_ne hy, if_neg fun h' => hy h'.1]
  · rw [if_neg hc, if_neg fun h' => hc h'.2]

@[simp] theorem release_ninodes (t : FsTree) (n : ℕ) : (t.release n).ninodes = t.ninodes := by
  unfold release
  split <;> rfl

/-- **A link of a file is removed**, and the file with its last one, unless somebody holds it. -/
theorem removeLink (h : s.TreeInv parent) (hd : s.live d) (hbad : isDots name = false)
    (hf : (s.node d).findEntry name = some n) (hfile : (s.node n).isDir = false)
    (hr : s.dirRemoveEntry d name = some s') (hmode : nd.mode = (s.node n).mode)
    (hcnt : nd.count = (s.node n).count) (hlnk : nd.nlinks = (s.node n).nlinks - 1#8) :
    ((s'.setNode n nd).release n).TreeInv parent ∧ ((s'.setNode n nd).release n).live d := by
  have hn : n ∈ (s.node d).kids := h.found_kid hd hbad hf
  have hu : s.imap n = true := h.wf.named hd hn
  have hnot : ¬ s.live n := not_live_of_file hfile
  have hdn : d ≠ n := by
    rintro rfl
    exact hnot hd
  have hlk : (s.node n).nlinks.toNat = s.hier.linksTo n := h.wf.fileLinks hu hfile
  have hpos := Hierarchy.linksTo_pos h.wf hd hn
  obtain ⟨l', hl', rfl⟩ := Option.map_eq_some_iff.mp hr
  obtain ⟨htake, hdist, hperm⟩ := h.removeEntry_spec hd hbad hf hl'
  set s₁ := (s.setNode d { s.node d with entries := l' }).setNode n nd
  have hs₁n : s₁.node n = nd := setNode_self ..
  have hs₁d : s₁.node d = { s.node d with entries := l' } := by rw [setNode_of_ne hdn, setNode_self]
  have hs₁ : ∀ {y}, y ≠ n → y ≠ d → s₁.node y = s.node y := fun hy hyd => by
    rw [setNode_of_ne hy, setNode_of_ne hyd]
  set s₂ := s₁.release n
  have hnode : s₂.node = s₁.node := release_node ..
  have himap : ∀ y, s₂.imap y = if y = n ∧ nd.count = 0#8 ∧ nd.nlinks = 0#8 then false else s.imap y := by
    intro y
    rw [release_imap, hs₁n]
    rfl
  have hed : Edited s s₂ d n := by
    refine ⟨release_ninodes .., release_holder .., hd, hnot, fun hl => hnot ⟨hu, ?_⟩,
      fun y hy => ⟨by rw [himap, if_neg fun h' => hy h'.1], ?_, ?_, ?_⟩, ?_,
      fun y hy hyd => by rw [hnode, hs₁ hy hyd]⟩
    · have hdir : (s₂.node n).isDir = true := hl.2
      rw [hnode, hs₁n] at hdir
      unfold isDir at hdir
      rw [hmode] at hdir
      exact hdir
    all_goals try
      rw [hnode]
      by_cases hyd : y = d
      · rw [hyd, hs₁d]
      · rw [hs₁ hy hyd]
    · rw [hnode, hs₁n, hcnt]
  have hkd : (s.node d).kids.Perm (n :: (s₂.node d).kids) := by
    rw [hnode, hs₁d]
    exact hperm
  have hto := hed.linksTo h
  rw [count_cons_of_perm hkd, if_pos rfl] at hto
  -- the links that are left are counted
  have hleft : nd.nlinks.toNat = s₂.hier.linksTo n := by
    have hsub := Bits.toNat_pred (x := (s.node n).nlinks) (by omega)
    rw [hlnk]
    omega
  refine ⟨h.edited hed (fun _ => ⟨h.pos hu, h.le hu⟩) (by rw [hnode, hs₁d]; exact htake)
    (by rw [hnode, hs₁d]; exact hdist) (fun m hm => ?_) (fun y hy hm => ?_) (fun _ => ?_) (fun x hx => ?_),
    (hed.live_iff d).mpr hd⟩
  · rw [count_cons_of_perm hkd, if_neg hm, Nat.add_zero]
  · rw [himap]
    split
    · next hz =>
      exfalso
      have hzero : s₂.hier.linksTo n = 0 := by
        rw [← hleft, hz.2.2]
        rfl
      have hy' := (hed.live_iff y).mp hy
      have hin : y ∈ s₂.hier.dom := by
        show y ∈ Finset.range (s₂.ninodes + 1)
        rw [hed.ninodes]
        exact h.wf.inDom hy'.1
      have hle := Finset.single_le_sum (f := fun y => if s₂.hier.live y then (s₂.hier.kids y).count n else 0)
        (fun _ _ => Nat.zero_le _) hin
      have hc := count_pos_iff.mpr hm
      simp only [if_pos (show s₂.hier.live y from hy)] at hle
      have hle' : (s₂.node y).kids.count n ≤ s₂.hier.linksTo n := hle
      omega
    · exact hu
  · rw [hnode, hs₁n]
    exact hleft
  · rw [himap]
    split
    · next hz =>
      exfalso
      have hrefs := Ledger.refs_pos hx
      rw [← h.counts n, ← hcnt, hz.2.1] at hrefs
      exact absurd hrefs (by decide)
    · exact hu

/-! ### Directories come and go -/

theorem isDir_mkdir (mode : BitVec 16) : ((mode &&& 0x1ff#16) ||| 0x4000#16) &&& 0x4000#16 ≠ 0#16 := by
  intro h
  have hbit := congrArg (fun b : BitVec 16 => b.getLsbD 14) h
  simp at hbit

theorem isDir_create (mode : BitVec 16) (umask : BitVec 16) :
    ((mode &&& 0x1ff#16 &&& ~~~umask) ||| 0x8000#16) &&& 0x4000#16 = 0#16 := by
  have h₁ : (mode &&& 0x1ff#16 &&& ~~~umask) &&& 0x4000#16 = 0#16 := by
    have hac : (mode &&& 0x1ff#16 &&& ~~~umask) &&& 0x4000#16 =
        (mode &&& ~~~umask) &&& (0x1ff#16 &&& 0x4000#16) := by ac_rfl
    rw [hac, show (0x1ff#16 &&& 0x4000#16 : BitVec 16) = 0#16 by decide, BitVec.and_zero]
  rw [BitVec.and_comm, BitVec.and_or_distrib_left, BitVec.and_comm, h₁]
  decide

/-- The directory `d` has got the entries `l` and the link count `b`; besides, only the inode `n` has
changed. -/
structure DirEdit (s t : FsTree) (d n : ℕ) (l : List DirEntry) (b : Byte) : Prop where
  ninodes : t.ninodes = s.ninodes
  holder : t.holder = s.holder
  ne : d ≠ n
  imap : ∀ {y}, y ≠ n → t.imap y = s.imap y
  count : (t.node n).count = (s.node n).count
  dir : t.node d = { s.node d with nlinks := b, entries := l }
  other : ∀ {y}, y ≠ n → y ≠ d → t.node y = s.node y

section DirEdit

variable {t : FsTree} {l : List DirEntry} {b : Byte}

section
variable (he : DirEdit s t d n l b)
include he

theorem DirEdit.isDir (hy : y ≠ n) :
    (t.node y).isDir = (s.node y).isDir := by
  by_cases hyd : y = d
  · rw [hyd, he.dir]
    rfl
  · rw [he.other hy hyd]

theorem DirEdit.live_iff (hy : y ≠ n) : t.live y ↔ s.live y := by
  show t.imap y = true ∧ (t.node y).isDir = true ↔ s.imap y = true ∧ (s.node y).isDir = true
  rw [he.imap hy, he.isDir hy]

theorem DirEdit.counts (h : s.TreeInv parent) (y : ℕ) :
    (t.node y).count.toNat = Ledger.refs t.holder y := by
  rw [he.holder, ← h.counts y]
  by_cases hyn : y = n
  · rw [hyn, he.count]
  by_cases hyd : y = d
  · rw [hyd, he.dir]
  · rw [he.other hyn hyd]

theorem DirEdit.dots (h : s.TreeInv parent)
    (htake : l.take 2 = (s.node d).entries.take 2) (hyn : y ≠ n) (hy : s.live y) :
    (t.node y).entries.take 2 = dotEntries y (parent y) := by
  by_cases hyd : y = d
  · subst hyd
    rw [he.dir]
    exact htake.trans (h.dots hy)
  · rw [he.other hyn hyd]
    exact h.dots hy

theorem DirEdit.distinct (h : s.TreeInv parent) (hdist : Distinct l)
    (hyn : y ≠ n) (hy : s.live y) : Distinct (t.node y).entries := by
  by_cases hyd : y = d
  · rw [hyd, he.dir]
    exact hdist
  · rw [he.other hyn hyd]
    exact h.distinct hy

end

/-- **A directory `n` is entered in `d`.** -/
theorem enterDir (h : s.TreeInv parent) (hd : s.live d) (he : DirEdit s t d n l ((s.node d).nlinks + 1#8))
    (hfree : s.imap n = false) (hn0 : n ≠ 0) (hle : n ≤ s.ninodes) (hwrap : (s.node d).nlinks ≠ 255#8)
    (hnew : t.live n) (hlinks : (t.node n).nlinks = 2#8) (hent : (t.node n).entries = dotEntries n d)
    (htake : l.take 2 = (s.node d).entries.take 2) (hdist : Distinct l)
    (hperm : (inodes (l.drop 2)).Perm (n :: (s.node d).kids)) : t.TreeInv (update parent n d) := by
  refine ⟨he.ninodes ▸ h.small, ?_, ?_, fun {y} hy => ?_, fun {y} hy => ?_, he.counts h, fun {x y} hx => ?_⟩
  · rw [he.imap (Ne.symm hn0)]
    exact h.zero
  · refine h.wf.enterDir ⟨?_, ?_, hd, hfree, hnew, ?_, fun y hy => ⟨he.imap hy, he.isDir hy⟩,
      fun y hy hyd => ?_, ?_, fun y hy hyd => ?_, ?_⟩ ?_
    · exact hier_dom he.ninodes
    · exact Finset.mem_range.mpr (Nat.lt_succ_of_le hle)
    · show inodes ((t.node n).entries.drop 2) = []
      rw [hent]
      rfl
    · show (t.node y).nlinks.toNat = (s.node y).nlinks.toNat
      rw [he.other hy hyd]
    · show (t.node d).nlinks.toNat = (s.node d).nlinks.toNat + 1
      rw [he.dir]
      exact Bits.toNat_succ hwrap
    · show (t.node y).kids = (s.node y).kids
      rw [he.other (fun e => not_live_of_free hfree (e ▸ hy)) hyd]
    · show (t.node d).kids.Perm (n :: (s.node d).kids)
      rw [he.dir]
      exact hperm
    · show (t.node n).nlinks.toNat = 2
      rw [hlinks]
      rfl
  · by_cases hyn : y = n
    · rw [hyn, hent, update_self]
      rfl
    · rw [update_of_ne hyn]
      exact he.dots h htake hyn ((he.live_iff hyn).mp hy)
  · by_cases hyn : y = n
    · rw [hyn, hent]
      exact Distinct.of_nodup (show [dotName, dotdotName].Nodup by decide)
    · exact he.distinct h hdist hyn ((he.live_iff hyn).mp hy)
  · rw [he.holder] at hx
    by_cases hyn : y = n
    · exact hyn ▸ hnew.1
    · rw [he.imap hyn]
      exact h.held hx

/-- **An empty directory `n` that nobody holds is removed from `d`.** -/
theorem removeDir (h : s.TreeInv parent) (hd : s.live d) (he : DirEdit s t d n l ((s.node d).nlinks - 1#8))
    (hn : s.live n) (hkid : n ∈ (s.node d).kids) (hempty : (s.node n).kids = [])
    (hlast : (s.node d).nlinks ≠ 1#8) (hcount : (s.node n).count = 0#8) (hgone : t.imap n = false)
    (htake : l.take 2 = (s.node d).entries.take 2) (hdist : Distinct l)
    (hperm : (s.node d).kids.Perm (n :: inodes (l.drop 2))) : t.TreeInv parent := by
  have hlive : ∀ {y}, t.live y → s.live y ∧ y ≠ n := fun {y} hy => by
    have hyn : y ≠ n := by
      rintro rfl
      exact not_live_of_free hgone hy
    exact ⟨(he.live_iff hyn).mp hy, hyn⟩
  have hdn : d ≠ n := by
    rintro rfl
    rw [hempty] at hkid
    cases hkid
  have hsub := Bits.toNat_pred (Nat.one_le_iff_ne_zero.mpr fun e => h.nlinks_ne hd (BitVec.eq_of_toNat_eq e))
  have hunheld : ∀ x, s.holder x ≠ some n := by
    refine Ledger.refs_eq_zero_iff.mp ?_
    rw [← h.counts n, hcount]
    rfl
  refine ⟨he.ninodes ▸ h.small, ?_, ?_, fun {y} hy => ?_, fun {y} hy => ?_, he.counts h, fun {x y} hx => ?_⟩
  · rw [he.imap (Ne.symm (h.pos hn.1))]
    exact h.zero
  · refine h.wf.removeDir (d := d) ⟨?_, ?_, ?_, hgone, hn, hempty,
      fun y hy => ⟨(he.imap hy).symm, (he.isDir hy).symm⟩, fun y hy hyd => ?_, ?_, fun y hy hyd => ?_, ?_⟩ ?_
    · exact (hier_dom he.ninodes).symm
    · rw [hier_dom he.ninodes]
      exact h.wf.inDom hn.1
    · exact (he.live_iff hdn).mpr hd
    · show (s.node y).nlinks.toNat = (t.node y).nlinks.toNat
      rw [he.other hy hyd]
    · show (s.node d).nlinks.toNat = (t.node d).nlinks.toNat + 1
      rw [he.dir]
      exact hsub.symm
    · show (s.node y).kids = (t.node y).kids
      rw [he.other (hlive hy).2 hyd]
    · show (s.node d).kids.Perm (n :: (t.node d).kids)
      rw [he.dir]
      exact hperm
    · show (t.node d).nlinks.toNat ≠ 0
      rw [he.dir]
      intro hz
      rw [hz] at hsub
      exact hlast (BitVec.eq_of_toNat_eq hsub.symm)
  · obtain ⟨hy', hyn⟩ := hlive hy
    exact he.dots h htake hyn hy'
  · obtain ⟨hy', hyn⟩ := hlive hy
    exact he.distinct h hdist hyn hy'
  · rw [he.holder] at hx
    have hyn : y ≠ n := by
      rintro rfl
      exact hunheld x hx
    rw [he.imap hyn]
    exact h.held hx

end DirEdit

/-- **`sys_mkdir`.** -/
theorem sysMkdir {mode : BitVec 16} (h : s.TreeInv parent)
    (hfresh : ∀ n, s.freshInode = some n → av.room n = true ∧ n ≤ s.ninodes)
    (hwrap : ∀ d name s₁, s.parentDir c av (fun _ => false) path = (some (d, name), s₁) → (s.node d).nlinks ≠ 255#8) :
    ∃ parent', (s.sysMkdir c av path mode).2.TreeInv parent' := by
  unfold FsTree.sysMkdir
  split
  · next s₁ hp =>
    obtain ⟨rfl, -⟩ := h.parentDir hp
    exact ⟨parent, h⟩
  next d name s₁ hp =>
  have hw := hwrap d name s₁ hp
  obtain ⟨rfl, hdir⟩ := h.parentDir hp
  obtain ⟨hd, hname, -⟩ := hdir d name rfl
  split
  · rw [(h.safe_live hd).release]
    exact ⟨parent, h⟩
  next hf =>
  rw [newInode_eq fun n hn => (hfresh n hn).1]
  cases hfr : s₁.freshInode with
  | none =>
    simp only
    rw [(h.safe_live hd).release]
    exact ⟨parent, h⟩
  | some n =>
    obtain ⟨hfree, hn0⟩ := fresh hfr
    obtain ⟨-, hle⟩ := hfresh n hfr
    have hdn : d ≠ n := by
      rintro rfl
      exact not_live_of_free hfree hd
    simp only
    set nd₀ : Node := { nlinks := 1#8, count := (s₁.node n).count }
    set s₂ := { s₁ with imap := update s₁.imap n true }.setNode n nd₀
    have hs₂n : s₂.node n = nd₀ := setNode_self ..
    have hs₂ : ∀ {y}, y ≠ n → s₂.node y = s₁.node y := fun hy => setNode_of_ne hy
    split
    · have hgive := h.givenUp hd hfree (t := s₂) rfl rfl rfl (by rw [hs₂n])
        (by rw [hs₂n]; show (1#8 : Byte) ≠ 0#8; decide) (fun y hy => hs₂ hy)
      exact ⟨parent, hgive.1⟩
    rw [hs₂n]
    set nd₁ : Node := { nd₀ with
      mode := (mode &&& 0x1ff#16) ||| 0x4000#16
      uid := c.euid
      gid := c.egid.setWidth 8
      nlinks := 2#8
      entries := newEntries n d }
    set s₃ := s₂.setNode n nd₁
    have hs₃n : s₃.node n = nd₁ := setNode_self ..
    have hs₃ : ∀ {y}, y ≠ n → s₃.node y = s₁.node y := fun hy => by
      rw [setNode_of_ne hy, hs₂ hy]
    simp only [dirAddEntry, dif_pos hname, hs₃ hdn]
    cases ha : addEntry ⟨short n, name, hname⟩ (av.grow d) (s₁.node d).entries with
    | none =>
      have hgive := h.givenUp hd hfree (t := s₃) rfl rfl rfl (by rw [hs₃n])
        (by rw [hs₃n]; show (2#8 : Byte) ≠ 0#8; decide) (fun y hy => hs₃ hy)
      exact ⟨parent, hgive.1⟩
    | some l' =>
      simp only [Option.map_some]
      rw [h.short_eq hle] at ha
      obtain ⟨htake, hdist, hperm⟩ := h.addEntry_spec hd hn0 hf ha
      rw [setNode_self]
      set s₄ := (s₃.setNode d { s₁.node d with entries := l' }).setNode d
        { s₁.node d with nlinks := (s₁.node d).nlinks + 1#8, entries := l' }
      have hs₄d : s₄.node d =
          { s₁.node d with nlinks := (s₁.node d).nlinks + 1#8, entries := l' } := setNode_self ..
      have hs₄ : ∀ {y}, y ≠ d → s₄.node y = s₃.node y := fun hy => by
        rw [setNode_of_ne hy, setNode_of_ne hy]
      have hs₄n : s₄.node n = nd₁ := (hs₄ hdn.symm).trans hs₃n
      have hset : s₄.imap n = true := update_self ..
      have hnew : s₄.live n := by
        refine ⟨hset, ?_⟩
        show (s₄.node n).isDir = true
        rw [hs₄n]
        exact decide_eq_true (isDir_mkdir mode)
      have hedit : DirEdit s₁ s₄ d n l' ((s₁.node d).nlinks + 1#8) :=
        ⟨rfl, rfl, hdn, fun hy => update_of_ne hy .., by rw [hs₄n], hs₄d, fun hy hyd => (hs₄ hyd).trans (hs₃ hy)⟩
      have hinv := h.enterDir hd hedit hfree hn0 hle hw hnew (by rw [hs₄n]) (by
        rw [hs₄n]
        show newEntries n d = dotEntries n d
        unfold newEntries dotEntries
        simp only [h.short_eq hle, h.short_eq (h.le hd.1)]) htake hdist hperm
      have hsafed : s₄.Safe d := hinv.safe_live ((hedit.live_iff hdn).mpr hd)
      rw [hsafed.release, (hinv.safe_live hnew).release]
      exact ⟨_, hinv⟩

/-- A directory that `dir_is_empty` accepts has no children. -/
theorem kids_of_empty (h : dirIsEmpty nd.entries = true) : nd.kids = [] := by
  unfold dirIsEmpty at h
  rw [all_eq_true] at h
  unfold kids inodes
  rw [filter_eq_nil_iff]
  intro m hm
  obtain ⟨e, he, rfl⟩ := mem_map.mp hm
  simpa using h e he

/-- **`sys_rmdir`** of a directory that nobody holds. -/
theorem sysRmdir (h : s.TreeInv parent)
    (hc : ∀ d name s₁ n, s.parentDir c av isDots path = (some (d, name), s₁) →
      (s.node d).findEntry name = some n → (s.node n).isDir = true → dirIsEmpty (s.node n).entries = true →
      (s.node d).nlinks ≠ 1#8 ∧ (s.node n).count = 0#8) :
    (s.sysRmdir c av path).2.TreeInv parent := by
  unfold FsTree.sysRmdir
  split
  · next s₁ hp =>
    obtain ⟨rfl, -⟩ := h.parentDir hp
    exact h
  next d name s₁ hp =>
  have hcare := fun n => hc d name s₁ n hp
  obtain ⟨rfl, hdir⟩ := h.parentDir hp
  obtain ⟨hd, hname, hbad⟩ := hdir d name rfl
  split
  · rw [(h.safe_live hd).release]
    exact h
  next n hf =>
  have hsn : s₁.Safe n := h.safe_found hd hf
  have hkeep : (s₁.release n).release d = s₁ := by rw [hsn.release, (h.safe_live hd).release]
  split
  · rw [(h.safe_live hd).release]
    exact h
  split
  · rw [hkeep]
    exact h
  next hdirn =>
  split
  · rw [hkeep]
    exact h
  next hemp =>
  have hnd : (s₁.node n).isDir = true := Bool.eq_true_of_not_eq_false hdirn
  have hn : s₁.live n := ⟨hsn.1, hnd⟩
  obtain ⟨hlast, hcount⟩ := hcare n hf hnd (Bool.eq_true_of_not_eq_false hemp)
  have hkid : n ∈ (s₁.node d).kids := h.found_kid hd hbad hf
  have hempty := kids_of_empty (Bool.eq_true_of_not_eq_false hemp)
  have hdn : d ≠ n := by
    rintro rfl
    rw [hempty] at hkid
    cases hkid
  simp only [dirRemoveEntry]
  cases hr : removeEntry name (s₁.node d).entries with
  | none =>
    rw [hkeep]
    exact h
  | some l' =>
    simp only [Option.map_some]
    obtain ⟨htake, hdist, hperm⟩ := h.removeEntry_spec hd hbad hf hr
    set s₂ := (s₁.setNode d { s₁.node d with entries := l' })
    have hs₂n : s₂.node n = s₁.node n := setNode_of_ne hdn.symm
    rw [hs₂n]
    set s₃ := s₂.setNode n { s₁.node n with entries := [] }
    have hs₃d : s₃.node d = { s₁.node d with entries := l' } := by
      rw [setNode_of_ne hdn, setNode_self]
    rw [hs₃d]
    set s₄ := s₃.setNode d { s₁.node d with nlinks := (s₁.node d).nlinks - 1#8, entries := l' }
    have hs₄n : s₄.node n = { s₁.node n with entries := [] } := by
      rw [setNode_of_ne hdn.symm, setNode_self]
    rw [hs₄n]
    set s₅ := (s₄.setNode n { s₁.node n with nlinks := 0#8, entries := [] }).freeInode n
    set s₆ := s₅.release n
    have hnode : s₆.node = s₅.node := release_node ..
    have hs₆n : s₆.node n = { s₁.node n with nlinks := 0#8, entries := [] } := by
      rw [hnode]
      exact setNode_self ..
    have hs₆d : s₆.node d =
        { s₁.node d with nlinks := (s₁.node d).nlinks - 1#8, entries := l' } := by
      rw [hnode]
      exact (setNode_of_ne hdn).trans (setNode_self ..)
    have hs₆ : ∀ {y}, y ≠ n → y ≠ d → s₆.node y = s₁.node y := fun hy hyd => by
      rw [hnode]
      show (s₄.setNode n _).node _ = _
      rw [setNode_of_ne hy, setNode_of_ne hyd, setNode_of_ne hy, setNode_of_ne hyd]
    have hgone : s₆.imap n = false := by
      rw [release_imap]
      split
      · rfl
      · exact update_self ..
    have himap : ∀ {y}, y ≠ n → s₆.imap y = s₁.imap y := fun hy => by
      rw [release_imap, if_neg fun h' => hy h'.1]
      exact update_of_ne hy ..
    have hedit : DirEdit s₁ s₆ d n l' ((s₁.node d).nlinks - 1#8) :=
      ⟨release_ninodes .., release_holder .., hdn, himap, by rw [hs₆n], hs₆d, hs₆⟩
    have hinv := h.removeDir hd hedit hn hkid hempty hlast hcount hgone htake hdist hperm
    rw [(hinv.safe_live ((hedit.live_iff hdn).mpr hd)).release]
    exact hinv

/-! ### Renaming -/

/-- What `sys_rename` has found out before it moves anything. -/
theorem renameArgs {r : Option Move} (h : s.TreeInv parent)
    (hr : s.renameArgs c av old new = (r, s')) :
    s' = s ∧ ∀ m, r = some m → s.Safe m.d ∧ s.Safe m.d' ∧ (s.node m.d).findEntry m.oldbase = some m.n ∧
      m.newbase.length ≤ 14 := by
  obtain ⟨⟨l, rfl, hs⟩, hm⟩ := renameArgs_looks h.walks
    (fun d n name hd hf => h.safe_found ⟨hd.1, (findEntry_some hf).1⟩ hf) hr
  refine ⟨releaseAll_of_safe hs, fun m e => ?_⟩
  obtain ⟨hd, hd', olddir, newdir, hf⟩ := hm m e
  exact ⟨hd, hd', hf.inode, splitPath_short hf.new⟩

/-- The entries of a directory are rewritten with the same children. -/
theorem rewritten {l' : List DirEntry} (h : s.TreeInv parent) (hd : s.live d)
    (htake : l'.take 2 = (s.node d).entries.take 2) (hdist : Distinct l')
    (hperm : (inodes (l'.drop 2)).Perm (s.node d).kids) :
    (s.setNode d { s.node d with entries := l' }).TreeInv parent := by
  set s₁ := s.setNode d { s.node d with entries := l' }
  have hs₁d : s₁.node d = { s.node d with entries := l' } := setNode_self ..
  have hs₁ : ∀ {y}, y ≠ d → s₁.node y = s.node y := fun hy => setNode_of_ne hy
  have hmode : ∀ y, (s₁.node y).isDir = (s.node y).isDir := by
    intro y
    by_cases hyd : y = d
    · rw [hyd, hs₁d]
      rfl
    · rw [hs₁ hyd]
  refine ⟨h.small, h.zero, ?_, fun {y} hy => ?_, fun {y} hy => ?_, fun y => ?_, fun {x y} hx => h.held hx⟩
  · refine h.wf.reorder rfl (fun _ => rfl) hmode (fun y _ => ?_) (fun y _ => ?_)
    · show (s₁.node y).nlinks.toNat = (s.node y).nlinks.toNat
      by_cases hyd : y = d
      · rw [hyd, hs₁d]
      · rw [hs₁ hyd]
    · show (s₁.node y).kids.Perm (s.node y).kids
      by_cases hyd : y = d
      · rw [hyd, hs₁d]
        exact hperm
      · rw [hs₁ hyd]
  · have hy' : s.live y := ⟨hy.1, (hmode y).symm.trans hy.2⟩
    by_cases hyd : y = d
    · rw [hyd, hs₁d]
      exact htake.trans (h.dots hd)
    · rw [hs₁ hyd]
      exact h.dots hy'
  · have hy' : s.live y := ⟨hy.1, (hmode y).symm.trans hy.2⟩
    by_cases hyd : y = d
    · rw [hyd, hs₁d]
      exact hdist
    · rw [hs₁ hyd]
      exact h.distinct hy'
  · by_cases hyd : y = d
    · rw [hyd, hs₁d]
      exact h.counts d
    · rw [hs₁ hyd]
      exact h.counts y

/-- **`sys_rename` within one directory**, onto no other entry. -/
theorem sysRename (h : s.TreeInv parent)
    (hc : ∀ m s₁, s.renameArgs c av old new = (some m, s₁) → m.d' = m.d ∧ isDots m.oldbase = false ∧
      ((s.node m.d).findEntry m.newbase = none ∨ m.newbase = m.oldbase)) :
    (s.sysRename c av old new).2.TreeInv parent := by
  unfold FsTree.sysRename
  split
  · next s₁ hr =>
    obtain ⟨rfl, -⟩ := h.renameArgs hr
    exact h
  next m s₁ hr =>
  obtain ⟨hsame, hbad, hnew⟩ := hc m s₁ hr
  obtain ⟨rfl, hm⟩ := h.renameArgs hr
  obtain ⟨hd, -, hf, hshort⟩ := hm m rfl
  have hlive : s₁.live m.d := ⟨hd.1, (findEntry_some hf).1⟩
  have hn : s₁.Safe m.n := h.safe_found hlive hf
  rw [hsame]
  have hback : s₁.releaseAll [m.n, m.d, m.d] = s₁ := releaseAll_of_safe (by simpa using ⟨hn, hd⟩)
  simp only [moveEntry, ne_eq, not_true_eq_false, if_false, dirRemoveEntry]
  cases hrem : removeEntry m.oldbase (s₁.node m.d).entries with
  | none =>
    simp only [Option.map_none]
    rw [hback]
    exact h
  | some l₁ =>
    obtain ⟨htake₁, hdist₁, hperm₁⟩ := h.removeEntry_spec hlive hbad hf hrem
    simp only [Option.map_some, dirAddEntry, dif_pos hshort, setNode_self, h.short_eq (h.le hn.1)]
    obtain ⟨l₂, hl₂⟩ := addEntry_of_removeEntry hrem ⟨m.n, m.newbase, hshort⟩ (av.grow m.d)
    rw [hl₂]
    simp only [Option.map_some]
    have hno : ∀ a ∈ l₁, a.inode ≠ 0 → a.name ≠ m.newbase := by
      intro a ha hlv
      rcases hnew with hnone | heq
      · exact (h.distinct hlive).not_in_use hlive.2 hnone a (mem_removeEntry hrem ha hlv) hlv
      · rw [← take_of_length_le hshort, heq]
        exact (h.distinct hlive).removed hrem ha hlv
    have hdist₂ : Distinct l₂ := hdist₁.add hno hl₂
    have hsplit₁ : l₁ = dotEntries m.d (parent m.d) ++ l₁.drop 2 := by
      rw [← h.dots hlive, ← htake₁, take_append_drop]
    rw [hsplit₁] at hl₂
    obtain ⟨t, rfl, ht⟩ := addEntry_dots (h.pos hlive.1) (h.pos (h.wf.parent_live hlive).1) hl₂
    have hperm₂ : (inodes t).Perm (s₁.node m.d).kids :=
      (inodes_addEntry (h.pos hn.1) ht).trans hperm₁.symm
    have hinv : (s₁.setNode m.d { s₁.node m.d with entries := dotEntries m.d (parent m.d) ++ t }).TreeInv
        parent := h.rewritten hlive (h.dots hlive).symm hdist₂ hperm₂
    have hfinal : (s₁.setNode m.d { s₁.node m.d with entries := l₁ }).setNode m.d
        { s₁.node m.d with entries := dotEntries m.d (parent m.d) ++ t } =
        s₁.setNode m.d { s₁.node m.d with entries := dotEntries m.d (parent m.d) ++ t } := by
      unfold setNode
      simp only [update_idem]
    rw [hfinal]
    set s₂ := s₁.setNode m.d { s₁.node m.d with entries := dotEntries m.d (parent m.d) ++ t }
    have hsafe : ∀ {y}, s₁.Safe y → s₂.Safe y := by
      intro y hy
      refine ⟨hy.1, ?_⟩
      by_cases hyd : y = m.d
      · rw [hyd, setNode_self]
        exact hyd ▸ hy.2
      · rw [setNode_of_ne hyd]
        exact hy.2
    rw [releaseAll_of_safe (by simpa using ⟨hsafe hn, hsafe hd⟩)]
    exact hinv

end TreeInv

end FsTree

end Linux001

import Linux001.Fs.Namei

/-!
# Fs — where a walk searches, and where it ends

* `namei_searchable_iff`: a walk that succeeds has searched only directories the caller may search,
  except for the one it started from.
* `chroot_confines_iff`: `namei` keeps a task below its root if and only if that root is its own
  parent, or `..` cannot be brought into the inode table.
-/

namespace Linux001

open Function List Option

/-! ### The x bit -/

section Search

variable {fs : ℕ → Node} {c : Subject} {room : ℕ → Bool}

/-- Every directory searched after the first may be searched. -/
theorem walk_searched (l : List (List Text)) (n : ℕ) (m : ℕ) (hm : m ∈ (walk fs c room n l).searched) :
    m = n ∨ (fs m).permits c mayExec = true := by
  induction l generalizing n with
  | nil => cases hm
  | cons name rest ih =>
    unfold walk at hm
    split at hm
    · split at hm
      · cases hm
      split at hm
      · exact ih n hm
      · cases hm
    split at hm
    · exact .inl (mem_singleton.mp hm)
    next m' _ =>
    split at hm
    · exact .inl (mem_singleton.mp hm)
    split at hm
    · exact .inl (mem_singleton.mp hm)
    split at hm
    · next hgo =>
      -- `m'` was asked for its x bit before the walk went on from it
      rcases mem_cons.mp hm with rfl | hm
      · exact .inl rfl
      rcases ih m' hm with rfl | h
      · exact .inr hgo.2
      · exact .inr h
    · exact .inl (mem_singleton.mp hm)

/-- What is searched first is where the walk starts. -/
theorem walk_searched_head (l : List (List Text)) (n : ℕ) (h : (walk fs c room n l).searched ≠ []) :
    n ∈ (walk fs c room n l).searched := by
  induction l generalizing n with
  | nil => exact absurd rfl h
  | cons name rest ih =>
    unfold walk at h ⊢
    split at h
    · next hdot =>
      rw [if_pos hdot]
      split at h
      · exact absurd rfl h
      next hrest =>
      rw [if_neg hrest]
      split at h
      · next hx =>
        rw [if_pos hx]
        exact ih n h
      · exact absurd rfl h
    · next hdot =>
      rw [if_neg hdot]
      split
      · exact mem_singleton.mpr rfl
      split
      · exact mem_singleton.mpr rfl
      split
      · exact mem_singleton.mpr rfl
      split
      · exact mem_cons_self
      · exact mem_singleton.mpr rfl

end Search

/-- **A walk that succeeds has searched only directories that the caller may search** if and only if
the caller may search the one it started from, or nothing was looked up there. -/
theorem namei_searchable_iff (fs : ℕ → Node) (c : Subject) (room : ℕ → Bool) (path : List Text) :
    (∀ n, (namei fs c room path).result = some n →
        ∀ m ∈ (namei fs c room path).searched, (fs m).permits c mayExec = true) ↔
      ∀ n d, (namei fs c room path).result = some n → (start c room path).1 = some d →
        (namei fs c room path).searched ≠ [] → (fs d).permits c mayExec = true := by
  constructor
  · intro h n d hn hd hs
    refine h n hn d ?_
    unfold namei at hs ⊢
    rw [hd] at hs ⊢
    exact walk_searched_head _ d hs
  intro h n hn m hm
  cases hd : (start c room path).1 with
  | none =>
    unfold namei at hm
    rw [hd] at hm
    cases hm
  | some d =>
    have hx := h n d hn hd (ne_nil_of_mem hm)
    unfold namei at hm
    rw [hd] at hm
    rcases walk_searched _ d m hm with rfl | hm
    · exact hx
    · exact hm

/-- The directory 2 is its owner's alone, and holds the file 3, `f`. -/
def lockedDir : ℕ → Node
  | 2 => { mode := 0x41c0#16, nlinks := 2#8, entries := [⟨3, [⟨102#8, by decide⟩], by decide⟩] }
  | 3 => { mode := 0x81a4#16, nlinks := 1#8 }
  | _ => {}

/-- **The directory a walk starts from is not asked**: a user in a directory of mode 0700 that
belongs to root gets `f`. -/
theorem namei_unsearchable :
    (namei lockedDir { euid := 1000#16, pwd := some 2 } (fun _ => true) [⟨102#8, by decide⟩]).result = some 3 ∧
      2 ∈ (namei lockedDir { euid := 1000#16, pwd := some 2 } (fun _ => true)
        [⟨102#8, by decide⟩]).searched ∧
      (lockedDir 2).permits { euid := 1000#16, pwd := some 2 } mayExec = false := by decide

/-! ### The tree -/

def dotName : List Text := [Text.dot]
def dotdotName : List Text := [Text.dot, Text.dot]

theorem dotName_short : dotName.length ≤ 14 := by decide
theorem dotdotName_short : dotdotName.length ≤ 14 := by decide

/-- The live entries of a directory, without `.` and `..`. -/
def Node.children (nd : Node) : List DirEntry :=
  nd.entries.filter fun e => e.inode ≠ 0 ∧ e.name ≠ dotName ∧ e.name ≠ dotdotName

/-- **The directories that are `live` form a tree**: `.` and `..` are right, and the parents lead to
inode 1. -/
structure Tree (fs : ℕ → Node) (live : ℕ → Prop) (parent : ℕ → ℕ) : Prop where
  isDir : ∀ {d}, live d → (fs d).isDir = true
  dot : ∀ {d}, live d → (fs d).findEntry dotName = some d
  dotdot : ∀ {d}, live d → (fs d).findEntry dotdotName = some (parent d)
  child : ∀ {d e}, live d → e ∈ (fs d).children → (fs e.inode).isDir = true → live e.inode ∧ parent e.inode = d
  parent_live : ∀ {d}, live d → live (parent d)
  top : live 1
  top_parent : parent 1 = 1
  reach : ∀ {d}, live d → ∃ k, parent^[k] d = 1

/-- `n` is the directory `d` or one below it. -/
def Below (parent : ℕ → ℕ) (d n : ℕ) : Prop := ∃ k, parent^[k] n = d

/-- **The subtree of `d`**: the directories below it, and what their entries name. -/
def Inside (fs : ℕ → Node) (live : ℕ → Prop) (parent : ℕ → ℕ) (d n : ℕ) : Prop :=
  (live n ∧ Below parent d n) ∨
    (fs n).isDir = false ∧ ∃ m, live m ∧ Below parent d m ∧ ∃ e ∈ (fs m).children, e.inode = n

section Confine

variable {fs : ℕ → Node} {live : ℕ → Prop} {parent : ℕ → ℕ} {c : Subject} {room : ℕ → Bool} {d n m : ℕ}
  {name : List Text}

/-- What a name other than `.` and `..` is found as is a child. -/
theorem findEntry_child {nd : Node} (h : nd.findEntry name = some m) (hdot : name ≠ dotName)
    (hdd : name ≠ dotdotName) : ∃ e ∈ nd.children, e.inode = m := by
  obtain ⟨-, hm, e, he, rfl, hname⟩ := Node.findEntry_some h
  refine ⟨e, mem_filter.mpr ⟨he, decide_eq_true ⟨hm, fun h => hdot ?_, fun h => hdd ?_⟩⟩, rfl⟩
  · exact eq_of_take (by decide) (hname.symm.trans h)
  · exact eq_of_take (by decide) (hname.symm.trans h)

/-- **One step of a walk** from a directory below `d` stays in the subtree, unless it is `..` in `d`
itself. -/
theorem Tree.step_inside (hT : Tree fs live parent) (hn : live n) (hb : Below parent d n)
    (hdot : name ≠ dotName) (hup : n = d → name ≠ dotdotName ∨ parent d = d)
    (h : (fs n).findEntry name = some m) : Inside fs live parent d m := by
  by_cases hdd : name = dotdotName
  · obtain rfl : parent n = m := some.inj ((hT.dotdot hn).symm.trans (hdd ▸ h))
    refine .inl ⟨hT.parent_live hn, ?_⟩
    obtain ⟨k, hk⟩ := hb
    cases k with
    | zero =>
      obtain rfl : n = d := hk
      exact ⟨0, (hup rfl).resolve_left (not_not.mpr hdd)⟩
    | succ k => exact ⟨k, hk⟩
  · obtain ⟨e, he, rfl⟩ := findEntry_child h hdot hdd
    cases hdir : (fs e.inode).isDir with
    | false => exact .inr ⟨hdir, n, hn, hb, e, he, rfl⟩
    | true =>
      obtain ⟨hl, hp⟩ := hT.child hn he hdir
      obtain ⟨k, hk⟩ := hb
      exact .inl ⟨hl, k + 1, by rw [iterate_succ_apply, hp, hk]⟩

/-- **A walk below `d` stays in the subtree** if `..` cannot be looked up in `d`. -/
theorem Tree.walk_inside (hT : Tree fs live parent) (hup : parent d = d ∨ room (parent d) = false)
    (l : List (List Text)) (n : ℕ) (hn : live n) (hb : Below parent d n) (m : ℕ)
    (hm : (walk fs c room n l).result = some m) : Inside fs live parent d m := by
  induction l generalizing n with
  | nil =>
    obtain rfl : n = m := some.inj hm
    exact .inl ⟨hn, hb⟩
  | cons name rest ih =>
    unfold walk at hm
    split at hm
    · split at hm
      · obtain rfl : n = m := some.inj hm
        exact .inl ⟨hn, hb⟩
      split at hm
      · exact ih n hn hb hm
      · cases hm
    next hdot =>
    split at hm
    · cases hm
    next m' hf =>
    split at hm
    · cases hm
    next hroom =>
    have hin : Inside fs live parent d m' := by
      refine hT.step_inside hn hb hdot (fun hnd => ?_) hf
      rcases hup with hup | hup
      · exact .inr hup
      refine .inl fun hdd => hroom ?_
      obtain rfl : parent n = m' := some.inj ((hT.dotdot hn).symm.trans (hdd ▸ hf))
      rw [hnd, hup]
    split at hm
    · obtain rfl : m' = m := some.inj hm
      exact hin
    split at hm
    · next hgo =>
      rcases hin with ⟨hl, hb'⟩ | ⟨hfile, -⟩
      · exact ih m' hl hb' hm
      · rw [hfile] at hgo
        cases hgo.1
    · cases hm

/-- Only the top of the tree is below its own child. -/
theorem Tree.parent_not_below (hT : Tree fs live parent) (hd : live d) (h : Below parent d (parent d)) :
    parent d = d := by
  obtain ⟨k, hk⟩ := h
  obtain ⟨j, hj⟩ := hT.reach hd
  have hcycle : ∀ i, parent^[i * (k + 1)] d = d := by
    intro i
    induction i with
    | zero => rw [Nat.zero_mul, iterate_zero, id_eq]
    | succ i ih =>
      rw [Nat.succ_mul, iterate_add_apply, iterate_succ_apply, hk, ih]
  have htop : ∀ i, parent^[i] 1 = 1 := fun i => by
    induction i with
    | zero => rfl
    | succ i ih => rw [iterate_succ_apply, hT.top_parent, ih]
  -- the walk round the cycle passes inode 1, and stays there
  have hle : j ≤ j * (k + 1) := Nat.le_mul_of_pos_right j (Nat.succ_pos k)
  have hone : d = 1 := by
    rw [← hcycle j, ← Nat.sub_add_cancel hle, iterate_add_apply, hj, htop]
  rw [hone, hT.top_parent]

end Confine

/-- **`chroot` confines.**  A task whose root is `d` and whose working directory is below `d` gets no
inode outside the subtree of `d`, whatever the path, if and only if `d` is its own parent or its
parent cannot be brought into the inode table. -/
theorem chroot_confines_iff {fs : ℕ → Node} {live : ℕ → Prop} {parent : ℕ → ℕ} {c : Subject}
    {room : ℕ → Bool} {d p : ℕ} (hT : Tree fs live parent) (hd : live d) (hroot : c.root = some d)
    (hp : live p) (hpwd : c.pwd = some p) (hb : Below parent d p) :
    (∀ path n, (namei fs c room path).result = some n → Inside fs live parent d n) ↔
      (parent d = d ∨ room (parent d) = false) := by
  constructor
  · intro h
    -- the path `/..`
    by_contra hup
    obtain ⟨hne, hroom⟩ := not_or.mp hup
    have hescape : (namei fs c room [Text.slash, Text.dot, Text.dot]).result = some (parent d) := by
      have hstart : start c room [Text.slash, Text.dot, Text.dot] = (some d, dotdotName) := by
        simp [start, hroot, dotdotName]
      have hcomp : components dotdotName = [dotdotName] := by decide
      have hdd := hT.dotdot hd
      simp only [namei, hstart, hcomp, walk, if_neg (show dotdotName ≠ [Text.dot] by decide), hdd,
        if_neg hroom, if_true]
    rcases h _ _ hescape with ⟨-, hbelow⟩ | ⟨hfile, -⟩
    · exact hne (hT.parent_not_below hd hbelow)
    · rw [hT.isDir (hT.parent_live hd)] at hfile
      cases hfile
  · intro hup path n hn
    unfold namei at hn
    split at hn
    · cases hn
    next s hs =>
    have hstart : live s ∧ Below parent d s := by
      cases path with
      | nil =>
        obtain rfl : p = s := some.inj (hpwd.symm.trans hs)
        exact ⟨hp, hb⟩
      | cons b path =>
        simp only [start] at hs
        split at hs
        · obtain rfl : d = s := by simpa [hroot] using hs
          exact ⟨hd, 0, rfl⟩
        · obtain rfl : p = s := some.inj (hpwd.symm.trans hs)
          exact ⟨hp, hb⟩
    exact hT.walk_inside hup _ s hstart.1 hstart.2 n hn

/-- The root directory, with the directory 2, `j`, in it. -/
def jailTree : ℕ → Node
  | 1 =>
    { mode := 0x41ed#16, nlinks := 3#8
      entries := [⟨1, dotName, dotName_short⟩, ⟨1, dotdotName, dotdotName_short⟩, ⟨2, [⟨106#8, by decide⟩], by decide⟩] }
  | 2 =>
    { mode := 0x41ed#16, nlinks := 2#8, entries := [⟨2, dotName, dotName_short⟩, ⟨1, dotdotName, dotdotName_short⟩] }
  | _ => {}

theorem jailTree_tree : Tree jailTree (fun d => d = 1 ∨ d = 2) (fun _ => 1) where
  isDir := by rintro d (rfl | rfl) <;> decide
  dot := by rintro d (rfl | rfl) <;> decide
  dotdot := by rintro d (rfl | rfl) <;> decide
  child {d e} hd he _ := by
    rcases hd with rfl | rfl
    · obtain rfl : e = ⟨2, [⟨106#8, by decide⟩], by decide⟩ := mem_singleton.mp he
      exact ⟨.inr rfl, rfl⟩
    · cases he
  parent_live _ := .inl rfl
  top := .inl rfl
  top_parent := rfl
  reach _ := ⟨1, rfl⟩

/-- The task of the jail. -/
def jailed : Subject := { root := some 2, pwd := some 2 }

/-- **`/..` leaves the jail.** -/
theorem chroot_escape :
    (namei jailTree jailed (fun _ => true) [Text.slash, Text.dot, Text.dot]).result = some 1 ∧
      ¬ Inside jailTree (fun d => d = 1 ∨ d = 2) (fun _ => 1) 2 1 := by
  refine ⟨by decide, ?_⟩
  rintro (⟨-, k, hk⟩ | ⟨hfile, -⟩)
  · cases k with
    | zero => cases hk
    | succ k =>
      have hone : ∀ i, (fun _ : ℕ => 1)^[i] 1 = 1 := fun i => by
        induction i with
        | zero => rfl
        | succ i ih => exact ih
      rw [iterate_succ_apply, hone] at hk
      cases hk
  · cases hfile

/-- The jail 2 is left, since its parent is another directory that can be had; the jail 1 is not. -/
theorem jailed_not_confined :
    (¬ ∀ path n, (namei jailTree jailed (fun _ => true) path).result = some n →
        Inside jailTree (fun d => d = 1 ∨ d = 2) (fun _ => 1) 2 n) ∧
      ∀ path n, (namei jailTree { root := some 1, pwd := some 2 } (fun _ => true) path).result = some n →
        Inside jailTree (fun d => d = 1 ∨ d = 2) (fun _ => 1) 1 n := by
  rw [chroot_confines_iff jailTree_tree (.inr rfl) rfl (.inr rfl) rfl ⟨0, rfl⟩,
    chroot_confines_iff jailTree_tree (.inl rfl) rfl (.inr rfl) rfl ⟨1, rfl⟩]
  decide

end Linux001

import Linux001.Fs.Open

/-!
# Fs — names

`name_eq()`, `find_entry()`, `namei()` and `split_path()` of `fs/namei.c`.  A directory is the list of
its entries; the directory-entry cache is left to `Fs.Dcache`.  An inode that the walk comes to has to
be brought into `inode_table[]`: `room` says for which inodes there is a slot.

`namei` asks for the x bit where it goes on from a directory that it has come to.  Of the directory it
starts from it asks nothing, and `..` is an entry like any other.
-/

namespace Linux001

open List

/-- A character of a string: not NUL. -/
abbrev Text := { b : Byte // b ≠ 0#8 }

def Text.slash : Text := ⟨47#8, by decide⟩
def Text.dot : Text := ⟨46#8, by decide⟩

/-- `struct minix_dir_entry`; the name is what stands before the first NUL. -/
structure DirEntry where
  inode : ℕ
  name : List Text
  short : name.length ≤ 14
  deriving DecidableEq

/-- **`name_eq`.**  `de[j]? = none` is the NUL. -/
def nameEq (de name : List Text) : Bool :=
  ((List.range (min name.length 14)).all fun j => de[j]? = name[j]?) &&
    (if name.length ≤ 14 then name.length = 14 ∨ de[name.length]? = none else true)

/-- An inode and, for a directory, its `i_size / 16` entries. -/
structure Node where
  mode : BitVec 16 := 0#16
  uid : BitVec 16 := 0#16
  gid : Byte := 0#8
  nlinks : Byte := 0#8
  count : Byte := 0#8
  entries : List DirEntry := []

/-- `i_mode & S_IFDIR`. -/
def Node.isDir (nd : Node) : Bool := nd.mode &&& 0x4000#16 ≠ 0#16

/-- **`find_entry`.**  The first entry with the name decides, whether it is in use or not. -/
def Node.findEntry (nd : Node) (name : List Text) : Option ℕ :=
  if nd.isDir = false then none
  else
    match nd.entries.find? fun e => nameEq e.name name with
    | none => none
    | some e => if e.inode = 0 then none else some e.inode

/-- The fields of the current task that the calls read.  `root` and `pwd` are inode numbers. -/
structure Subject where
  euid : BitVec 16 := 0#16
  egid : BitVec 16 := 0#16
  umask : BitVec 16 := 0#16
  root : Option ℕ := none
  pwd : Option ℕ := none

/-- `permission`, of an inode on the disk. -/
def Node.permits (nd : Node) (c : Subject) (mask : Word) : Bool :=
  permission { euid := c.euid, egid := c.egid }
    { iMode := nd.mode, iUid := nd.uid, iGid := nd.gid, iNlinks := nd.nlinks, iDev := 0x301#16 } mask

/-- The next component, of at most 15 characters, and what follows it and its slashes. -/
def nextComponent (p : List Text) : List Text × List Text :=
  let name := (p.takeWhile (· ≠ Text.slash)).take 15
  (name, (p.drop name.length).dropWhile (· = Text.slash))

/-- The components of a path, the first `fuel` of them. -/
def componentsUpTo : ℕ → List Text → List (List Text)
  | 0, _ => []
  | _, [] => []
  | fuel + 1, p => (nextComponent p).1 :: componentsUpTo fuel (nextComponent p).2

/-- The components of a path. -/
def components (p : List Text) : List (List Text) := componentsUpTo p.length p

/-- What a walk comes to: the inode, held; the directories in which a name was looked up; the inodes
which have been held and put. -/
structure Walk where
  result : Option ℕ
  searched : List ℕ
  released : List ℕ

/-- The walk went through `n` first. -/
def Walk.via (w : Walk) (n : ℕ) : Walk := ⟨w.result, n :: w.searched, n :: w.released⟩

/-- **The loop of `namei`**, from the inode `n`. -/
def walk (fs : ℕ → Node) (c : Subject) (room : ℕ → Bool) : ℕ → List (List Text) → Walk
  | n, [] => ⟨some n, [], []⟩
  | n, name :: rest =>
    if name = [Text.dot] then
      if rest = [] then ⟨some n, [], []⟩
      else if (fs n).permits c mayExec then walk fs c room n rest
      else ⟨none, [], [n]⟩
    else
      match (fs n).findEntry name with
      | none => ⟨none, [n], [n]⟩
      | some m =>
        if room m = false then ⟨none, [n], [n]⟩
        else if rest = [] then ⟨some m, [n], [n]⟩
        else if (fs m).isDir ∧ (fs m).permits c mayExec then (walk fs c room m rest).via n
        else ⟨none, [n], [n, m]⟩

/-- Where the walk starts, and the path from there. -/
def start (c : Subject) (room : ℕ → Bool) : List Text → Option ℕ × List Text
  | [] => (c.pwd, [])
  | b :: p =>
    if b = Text.slash then (if c.root = none ∧ room 1 then some 1 else c.root, p) else (c.pwd, b :: p)

/-- **`namei`.** -/
def namei (fs : ℕ → Node) (c : Subject) (room : ℕ → Bool) (path : List Text) : Walk :=
  match (start c room path).1 with
  | none => ⟨none, [], []⟩
  | some d => walk fs c room d (components (start c room path).2)

/-- **`split_path`.**  The path of the directory and the name in it. -/
def splitPath (path : List Text) : Option (List Text × List Text) :=
  let name := (path.reverse.takeWhile (· ≠ Text.slash)).reverse
  if name = [] ∨ 14 < name.length then none
  else if name.length = path.length then some ([], name)
  else if name.length + 1 = path.length then some ([Text.slash], name)
  else some (path.take (path.length - name.length - 1), name)

/-! ### What a lookup finds -/

/-- A name matches an entry if they agree in 14 characters. -/
theorem nameEq_iff (e : DirEntry) (name : List Text) : nameEq e.name name = true ↔ e.name = name.take 14 := by
  have hs := e.short
  unfold nameEq
  rw [Bool.and_eq_true, all_eq_true]
  constructor
  · rintro ⟨hall, hend⟩
    apply ext_getElem?
    intro j
    by_cases hj : j < min name.length 14
    · have := of_decide_eq_true (hall j (mem_range.mpr hj))
      rw [this, getElem?_take_of_lt (by omega)]
    have htake : (name.take 14)[j]? = none := getElem?_eq_none (by rw [length_take]; omega)
    rw [htake]
    split at hend
    · next hle =>
      rcases of_decide_eq_true hend with h14 | hnul
      · exact getElem?_eq_none (by omega)
      · have := getElem?_eq_none_iff.mp hnul
        exact getElem?_eq_none (by omega)
    · exact getElem?_eq_none (by omega)
  · intro he
    have hlen : e.name.length = min 14 name.length := by rw [he, length_take]
    refine ⟨fun j hj => ?_, ?_⟩
    · have := mem_range.mp hj
      rw [decide_eq_true_iff, he, getElem?_take_of_lt (by omega)]
    · split
      · next hle =>
        rw [decide_eq_true_iff]
        by_cases h14 : name.length = 14
        · exact .inl h14
        · exact .inr (getElem?_eq_none (by omega))
      · rfl

/-- What `find_entry` finds is a live entry with the name. -/
theorem Node.findEntry_some {nd : Node} {name : List Text} {m : ℕ} (h : nd.findEntry name = some m) :
    nd.isDir = true ∧ m ≠ 0 ∧ ∃ e ∈ nd.entries, e.inode = m ∧ e.name = name.take 14 := by
  unfold Node.findEntry at h
  split at h
  · cases h
  next hd =>
  split at h
  · cases h
  next e he =>
  split at h
  · cases h
  next hne =>
  obtain rfl := Option.some.inj h
  refine ⟨by simpa using hd, hne, e, mem_of_find?_eq_some he, rfl, ?_⟩
  have hname : nameEq e.name name = true := by simpa using find?_some he
  exact (nameEq_iff e name).mp hname

/-- A name that is cut has 14 characters. -/
theorem eq_of_take {name m : List Text} (hm : m.length < 14) (h : name.take 14 = m) : name = m := by
  rw [← h, take_of_length_le]
  have := congrArg length h
  rw [length_take] at this
  omega

/-- Only the first 14 characters of a name count. -/
theorem Node.findEntry_take (nd : Node) (name : List Text) : nd.findEntry (name.take 14) = nd.findEntry name := by
  have h : (fun e : DirEntry => nameEq e.name (name.take 14)) = fun e => nameEq e.name name := by
    funext e
    rw [Bool.eq_iff_iff, nameEq_iff, nameEq_iff, take_take, Nat.min_self]
  unfold Node.findEntry
  rw [h]

/-- `P` holds of what the walk comes to, and of everything it went through. -/
structure Walk.All (P : ℕ → Prop) (w : Walk) : Prop where
  result : ∀ m, w.result = some m → P m
  searched : ∀ m ∈ w.searched, P m
  released : ∀ m ∈ w.released, P m

theorem Walk.All.via {P : ℕ → Prop} {w : Walk} {n : ℕ} (h : w.All P) (hn : P n) : (w.via n).All P :=
  ⟨h.result, forall_mem_cons.mpr ⟨hn, h.searched⟩, forall_mem_cons.mpr ⟨hn, h.released⟩⟩

/-- A property of the starting directory that every live entry hands on holds all along the walk. -/
theorem walk_all {fs : ℕ → Node} {c : Subject} {room : ℕ → Bool} {P : ℕ → Prop}
    (hstep : ∀ n m name, P n → (fs n).findEntry name = some m → P m) :
    ∀ (l : List (List Text)) (n : ℕ), P n → (walk fs c room n l).All P
  | [], n, hn => ⟨by simpa [walk] using hn, by simp [walk], by simp [walk]⟩
  | name :: rest, n, hn => by
      unfold walk
      split
      · split
        · exact ⟨by simpa using hn, by simp, by simp⟩
        split
        · exact walk_all hstep rest n hn
        · exact ⟨by simp, by simp, by simpa using hn⟩
      split
      · exact ⟨by simp, by simpa using hn, by simpa using hn⟩
      next m hm =>
      have hPm : P m := hstep n m name hn hm
      split
      · exact ⟨by simp, by simpa using hn, by simpa using hn⟩
      split
      · exact ⟨by simpa using hPm, by simpa using hn, by simpa using hn⟩
      split
      · exact (walk_all hstep rest m hPm).via hn
      · exact ⟨by simp, by simpa using hn, by simpa using ⟨hn, hPm⟩⟩

/-- As `walk_all`, from the directories that a walk may start in. -/
theorem namei_all {fs : ℕ → Node} {c : Subject} {room : ℕ → Bool} {P : ℕ → Prop} {path : List Text}
    (hstep : ∀ n m name, P n → (fs n).findEntry name = some m → P m)
    (hstart : ∀ d, (start c room path).1 = some d → P d) : (namei fs c room path).All P := by
  unfold namei
  split
  · exact ⟨by simp, by simp, by simp⟩
  · next d hd => exact walk_all hstep _ d (hstart d hd)

end Linux001

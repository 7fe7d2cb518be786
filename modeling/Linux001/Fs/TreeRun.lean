import Linux001.Fs.TreeInv

/-!
# Fs — the tree over a run

The calls that open, link and unlink, and those that hold an inode; then whole runs from the image of
`mkminix`.  `Careful` is what a call has to respect for `TreeInv` to survive it.
-/

namespace Linux001

open Function List Ledger FsTree

namespace FsTree

variable {s s' : FsTree} {parent : ℕ → ℕ} {c : Cred} {av : Avail} {n d : ℕ} {name : List Text} {x : Holder}

namespace TreeInv

/-! ### Holders -/

/-- **Holders change**, with the counts; at most the inode `m` is freed, if nothing is left of it. -/
theorem reheld {m : ℕ} (h : s.TreeInv parent) (hni : s'.ninodes = s.ninodes)
    (hnode : ∀ y, (s'.node y).mode = (s.node y).mode ∧ (s'.node y).nlinks = (s.node y).nlinks ∧
      (s'.node y).entries = (s.node y).entries)
    (himap : ∀ y, y ≠ m → s'.imap y = s.imap y)
    (hm : s'.imap m = s.imap m ∨ s'.imap m = false ∧ (s.node m).nlinks = 0#8 ∧ ∀ x, s'.holder x ≠ some m)
    (hcounts : ∀ y, (s'.node y).count.toNat = refs s'.holder y)
    (hheld : ∀ {x y}, s'.holder x = some y → s.imap y = true) : s'.TreeInv parent := by
  have hdir : ∀ y, (s'.node y).isDir = (s.node y).isDir := fun y => by
    unfold Node.isDir
    rw [(hnode y).1]
  have hkids : ∀ y, (s'.node y).kids = (s.node y).kids := fun y => by
    unfold Node.kids
    rw [(hnode y).2.2]
  have hlive : ∀ y, s'.imap y = s.imap y → (s'.live y ↔ s.live y) := fun y hy => by
    show s'.imap y = true ∧ (s'.node y).isDir = true ↔ s.imap y = true ∧ (s.node y).isDir = true
    rw [hy, hdir]
  rcases hm with hm | ⟨hfree, hz, hnone⟩
  · have hall : ∀ y, s'.imap y = s.imap y := fun y => by
      by_cases hy : y = m
      · rw [hy, hm]
      · exact himap y hy
    refine ⟨hni ▸ h.small, (hall 0).trans h.zero, ?_, fun {y} hy => ?_, fun {y} hy => ?_, hcounts,
      fun {x y} hx => (hall y).trans (hheld hx)⟩
    · refine h.wf.reorder ?_ hall hdir (fun y _ => ?_) (fun y _ => ?_)
      · exact hier_dom hni
      · show (s'.node y).nlinks.toNat = (s.node y).nlinks.toNat
        rw [(hnode y).2.1]
      · show (s'.node y).kids.Perm (s.node y).kids
        rw [hkids]
    · rw [(hnode y).2.2]
      exact h.dots ((hlive y (hall y)).mp hy)
    · rw [(hnode y).2.2]
      exact h.distinct ((hlive y (hall y)).mp hy)
  -- without links it is no directory in use, and nobody's child
  have hnot : ¬ s.live m := fun hl => h.nlinks_ne hl hz
  have hchild : ∀ {y}, s.live y → m ∉ (s.node y).kids := fun {y} hy hmem => by
    have hu : s.imap m = true := h.wf.named hy hmem
    cases hdm : (s.node m).isDir with
    | true => exact hnot ⟨hu, hdm⟩
    | false =>
      have hlinks : (s.node m).nlinks.toNat = s.hier.linksTo m := h.wf.fileLinks hu hdm
      have hpos := Hierarchy.linksTo_pos h.wf hy hmem
      rw [← hlinks, hz] at hpos
      exact absurd hpos (by decide)
  have hnot' : ¬ s'.live m := not_live_of_free hfree
  have hiff : ∀ y, s'.live y ↔ s.live y := fun y => by
    by_cases hy : y = m
    · exact hy ▸ iff_of_false hnot' hnot
    · exact hlive y (himap y hy)
  refine ⟨hni ▸ h.small, ?_, ?_, fun {y} hy => ?_, fun {y} hy => ?_, hcounts, fun {x y} hx => ?_⟩
  · by_cases hm0 : m = 0
    · exact hm0 ▸ hfree
    · exact (himap 0 (Ne.symm hm0)).trans h.zero
  · refine h.wf.edit ?_ h.wf.top_live hnot hnot' (fun h' => ?_) (fun y hy => ?_)
      (fun y _ _ => hkids y) (fun y _ => congrArg (count y) (hkids 1)) (fun y hy hmem => ?_)
      (fun h' => ?_)
    · exact hier_dom hni
    · exact absurd (hfree.symm.trans h') (by decide)
    · exact ⟨himap y hy, hdir y, congrArg BitVec.toNat (hnode y).2.1⟩
    · change m ∈ (s'.node y).kids at hmem
      rw [hkids] at hmem
      exact absurd hmem (hchild ((hiff y).mp hy))
    · exact absurd (hfree.symm.trans h') (by decide)
  · rw [(hnode y).2.2]
    exact h.dots ((hiff y).mp hy)
  · rw [(hnode y).2.2]
    exact h.distinct ((hiff y).mp hy)
  · have hy : y ≠ m := fun e => hnone x (e ▸ hx)
    exact (himap y hy).trans (hheld hx)

/-- A count changes, and nothing else of the node. -/
theorem setCount_node (s : FsTree) (n : ℕ) (k : Byte) (y : ℕ) :
    ((s.setNode n { s.node n with count := k }).node y).mode = (s.node y).mode ∧
      ((s.setNode n { s.node n with count := k }).node y).nlinks = (s.node y).nlinks ∧
      ((s.setNode n { s.node n with count := k }).node y).entries = (s.node y).entries := by
  by_cases hy : y = n
  · rw [hy, setNode_self]
    exact ⟨rfl, rfl, rfl⟩
  · rw [setNode_of_ne hy]
    exact ⟨rfl, rfl, rfl⟩

/-- The counts are right after the holder `x` has changed, if that of `n` has changed with it. -/
theorem recount (h : s.TreeInv parent) {o : Option ℕ} {k : Byte}
    (hk : k.toNat + one (s.holder x) n = (s.node n).count.toNat + one o n)
    (ho : ∀ y, y ≠ n → one (s.holder x) y = one o y) (y : ℕ) :
    ((s.setNode n { s.node n with count := k }).node y).count.toNat = refs (update s.holder x o) y := by
  have hup := refs_update s.holder x o y
  rw [← h.counts y] at hup
  by_cases hy : y = n
  · subst hy
    rw [setNode_self]
    show k.toNat = _
    omega
  · rw [setNode_of_ne hy]
    have := ho y hy
    omega

/-- A holder puts what it has. -/
theorem drop (h : s.TreeInv parent) (x : Holder) : (s.drop x).TreeInv parent := by
  unfold FsTree.drop
  split
  · exact h
  next m hx =>
  have hsub := Bits.toNat_pred (x := (s.node m).count) (by
    rw [h.counts]
    exact refs_pos hx)
  set s₁ := s.setNode m { s.node m with count := (s.node m).count - 1#8 }
  have hcounts : ∀ y, (s₁.node y).count.toNat = refs (update s.holder x none) y := by
    refine h.recount ?_ fun y hy => ?_
    · rw [hx, one_some, one_none]
      omega
    · rw [hx, one_some_of_ne hy.symm, one_none]
  have himap : ∀ y, (s₁.release m).imap y =
      if y = m ∧ (s₁.node m).count = 0#8 ∧ (s₁.node m).nlinks = 0#8 then false else s.imap y := fun y =>
    release_imap s₁ m y
  refine h.reheld (m := m) (release_ninodes ..) (fun y => ?_) (fun y hy => ?_) ?_ (fun y => ?_)
    (fun {y z} hy => ?_)
  · rw [release_node]
    exact setCount_node ..
  · exact (himap y).trans (if_neg fun h' => hy h'.1)
  · by_cases hz : (s₁.node m).count = 0#8 ∧ (s₁.node m).nlinks = 0#8
    · refine .inr ⟨(himap m).trans (if_pos ⟨rfl, hz⟩), ?_, refs_eq_zero_iff.mp ?_⟩
      · exact (setCount_node ..).2.1.symm.trans hz.2
      · rw [← hcounts m, hz.1]
        rfl
    · exact .inl ((himap m).trans (if_neg fun h' => hz h'.2))
  · rw [release_node]
    exact hcounts y
  · rcases of_update_eq hy with ⟨-, ⟨⟩⟩ | ⟨-, hy⟩
    exact h.held hy

/-- **An inode gets a holder**, one that has nothing. -/
theorem taken (h : s.TreeInv parent) (hu : s.imap n = true) (hwrap : (s.node n).count ≠ 255#8)
    (hx : s.holder x = none) :
    ({ s.setNode n { s.node n with count := (s.node n).count + 1#8 } with
      holder := update s.holder x (some n) } : FsTree).TreeInv parent := by
  have hadd := Bits.toNat_succ hwrap
  refine h.reheld (m := n) rfl (setCount_node s n _) (fun _ _ => rfl) (.inl rfl) (h.recount ?_ fun y hy => ?_)
    (fun {y z} hy => ?_)
  · rw [hx, one_some, one_none]
    omega
  · rw [hx, one_some_of_ne hy.symm, one_none]
  · rcases of_update_eq hy with ⟨-, ⟨⟩⟩ | ⟨-, hy⟩
    · exact hu
    · exact h.held hy

/-- Putting one inode and taking another can be done in either order. -/
theorem hold_eq {m : ℕ} (hx : s.holder x = some m) (hm : n ≠ m) : s.hold x n =
    { (s.drop x).setNode n { s.node n with count := (s.node n).count + 1#8 } with
      holder := update (s.drop x).holder x (some n) } := by
  have hcomm := update_comm hm { s.node n with count := (s.node n).count + 1#8 }
    { s.node m with count := (s.node m).count - 1#8 } s.node
  simp only [FsTree.hold, FsTree.drop, FsTree.setNode, hx, FsTree.release, update_of_ne hm.symm, update_self]
  split
  · rw [mk.injEq]
    exact ⟨rfl, rfl, rfl, hcomm, rfl⟩
  · rw [mk.injEq]
    exact ⟨rfl, rfl, rfl, hcomm, rfl⟩

/-- A holder that takes what it has already changes nothing. -/
theorem hold_self (hx : s.holder x = some n) (hc : (s.node n).count ≠ 0#8) :
    s.hold x n = s := by
  have hnode : ({ s.node n with count := (s.node n).count + 1#8 - 1#8 } : Node) = s.node n := by
    rw [BitVec.add_sub_cancel]
  simp only [FsTree.hold, FsTree.drop, FsTree.setNode, hx, FsTree.release, update_self,
    update_idem, hnode, update_eq_self, hc, false_and, if_false]
  rw [FsTree.mk.injEq]
  refine ⟨rfl, rfl, rfl, rfl, ?_⟩
  rw [← hx, update_eq_self]

section
variable (h : s.TreeInv parent) {path : List Text}
include h

/-- **An inode gets a holder**, which puts what it has. -/
theorem hold (hu : s.imap n = true) (hwrap : (s.node n).count ≠ 255#8) (x : Holder) :
    (s.hold x n).TreeInv parent := by
  cases hx : s.holder x with
  | none =>
    have hdrop : (s.setNode n { s.node n with count := (s.node n).count + 1#8 }).drop x =
        s.setNode n { s.node n with count := (s.node n).count + 1#8 } := by
      simp only [FsTree.drop, FsTree.setNode, hx]
    unfold FsTree.hold
    rw [hdrop]
    exact h.taken hu hwrap hx
  | some m =>
    by_cases hm : n = m
    · rw [hold_self (hm ▸ hx)]
      · exact h
      · subst hm
        exact toNat_ne_zero (by rw [h.counts]; exact (refs_pos hx).ne')
    have hd := h.drop x
    have hnode : (s.drop x).node n = s.node n := by
      simp only [FsTree.drop, hx, release_node]
      exact setNode_of_ne hm
    have himap : (s.drop x).imap n = true := by
      simp only [FsTree.drop, hx, release_imap, if_neg fun h' : n = m ∧ _ => hm h'.1]
      exact hu
    have hnone : (s.drop x).holder x = none := by
      simp only [FsTree.drop, hx, update_self]
    rw [hold_eq hx hm, ← hnode]
    exact hd.taken himap (hnode ▸ hwrap) hnone

/-! ### Files -/

/-- The contents of a file are no concern of the tree. -/
theorem contents (hu : s.imap n = true) (hfile : (s.node n).isDir = false)
    (l : List DirEntry) : (s.setNode n { s.node n with entries := l }).TreeInv parent := by
  have hnot : ¬ s.live n := not_live_of_file hfile
  set s₁ := s.setNode n { s.node n with entries := l }
  have hs₁n : s₁.node n = { s.node n with entries := l } := setNode_self ..
  have hs₁ : ∀ {y}, y ≠ n → s₁.node y = s.node y := fun hy => setNode_of_ne hy
  have hnot' : ¬ s₁.live n := not_live_of_file (by rw [hs₁n]; exact hfile)
  have h1 : (1 : ℕ) ≠ n := fun e => hnot (e ▸ h.wf.top_live)
  have he : Edited s s₁ 1 n := ⟨rfl, rfl, h.wf.top_live, hnot, hnot', fun y hy => ⟨rfl, by rw [hs₁ hy],
    by rw [hs₁ hy], by rw [hs₁ hy]⟩, by rw [hs₁n], fun y hy _ => by rw [hs₁ hy]⟩
  refine h.edited he (fun _ => ⟨h.pos hu, h.le hu⟩) (by rw [hs₁ h1])
    (by rw [hs₁ h1]; exact h.distinct h.wf.top_live) (fun m _ => by rw [hs₁ h1]) (fun _ _ _ => hu)
    (fun _ => ?_) (fun _ _ => hu)
  have hto := he.linksTo h
  have hlinks : (s.node n).nlinks.toNat = s.hier.linksTo n := h.wf.fileLinks hu hfile
  rw [hs₁ h1] at hto
  rw [hs₁n]
  show (s.node n).nlinks.toNat = _
  omega

section
variable (hfresh : ∀ n, s.freshInode = some n → av.room n = true ∧ n ≤ s.ninodes) {mode : BitVec 16}
  {r : Option ℕ} {flag : Word}
include hfresh

/-- What `sys_open` creates, or finds with `O_CREAT`. -/
theorem create
    (hr : s.create c av path mode = (r, s')) : s'.TreeInv parent ∧ ∀ n, r = some n → s'.Safe n := by
  unfold FsTree.create at hr
  split at hr
  · next s₁ hp =>
    obtain ⟨rfl, -⟩ := h.parentDir hp
    obtain ⟨rfl, rfl⟩ := Prod.mk.inj hr
    exact ⟨h, by simp⟩
  next d name s₁ hp =>
  obtain ⟨rfl, hdir⟩ := h.parentDir hp
  obtain ⟨hd, hname, -⟩ := hdir d name rfl
  split at hr
  · next n hf =>
    rw [(h.safe_live hd).release] at hr
    split at hr
    · obtain ⟨rfl, rfl⟩ := Prod.mk.inj hr
      refine ⟨h, fun m hm => ?_⟩
      obtain rfl := Option.some.inj hm
      exact h.safe_found hd hf
    · obtain ⟨rfl, rfl⟩ := Prod.mk.inj hr
      exact ⟨h, by simp⟩
  next hf =>
  have hnew : ∀ {r s'}, s₁.enterNew av d name (fun nd => { nd with
      mode := (mode &&& 0x1ff#16 &&& ~~~c.umask) ||| 0x8000#16
      uid := c.euid
      gid := c.egid.setWidth 8 }) id = (r, s') →
      s'.TreeInv parent ∧ s'.live d ∧ ∀ n, r = some n → s'.Safe n := fun he => by
    refine h.enterNew hd hname hf hfresh ?_ ?_ ?_ he
    · exact fun nd => ⟨rfl, rfl⟩
    · exact fun nd => ⟨rfl, id⟩
    · simp [Node.isDir, isDir_create]
  split at hr
  · next s₂ he =>
    obtain ⟨rfl, rfl⟩ := Prod.mk.inj hr
    exact ⟨(hnew he).1, by simp⟩
  next n s₂ he =>
  obtain ⟨hinv, hlive, hsafe⟩ := hnew he
  rw [(hinv.safe_live hlive).release] at hr
  obtain ⟨rfl, rfl⟩ := Prod.mk.inj hr
  exact ⟨hinv, hsafe⟩

theorem openInode
    (ho : s.openInode c av path flag mode = (r, s')) : s'.TreeInv parent ∧ ∀ n, r = some n → s'.Safe n := by
  unfold FsTree.openInode at ho
  split at ho
  · next n s₁ hl =>
    obtain ⟨rfl, hsafe⟩ := h.lookup hl
    obtain ⟨rfl, rfl⟩ := Prod.mk.inj ho
    exact ⟨h, hsafe⟩
  next s₁ hl =>
  obtain ⟨rfl, -⟩ := h.lookup hl
  split at ho
  · exact h.create hfresh ho
  · obtain ⟨rfl, rfl⟩ := Prod.mk.inj ho
    exact ⟨h, by simp⟩

/-- **`sys_open`.** -/
theorem sysOpen
    (hwrap : ∀ n s₁, s.openInode c av path flag mode = (some n, s₁) → (s₁.node n).count ≠ 255#8) :
    (s.sysOpen c av path flag mode).TreeInv parent := by
  unfold FsTree.sysOpen
  split
  · next s₁ ho => exact (h.openInode hfresh ho).1
  next n s₁ ho =>
  obtain ⟨hinv, hsafe⟩ := h.openInode hfresh ho
  have hn := hsafe n rfl
  have hw := hwrap n s₁ ho
  rw [hn.release]
  split
  · exact hinv
  split
  · exact hinv
  next i _ =>
  split
  · exact hinv
  split
  · next hfile =>
    have hclear := hinv.contents hn.1 hfile.2 []
    exact hclear.hold hn.1 (by rw [setNode_self]; exact hw) _
  · exact hinv.hold hn.1 hw _

/-- **`sys_mknod`** of anything but a directory. -/
theorem sysMknod
    (hmode : mode &&& 0x4000#16 = 0#16) : (s.sysMknod c av path mode).2.TreeInv parent := by
  unfold FsTree.sysMknod
  split
  · next s₁ hp =>
    obtain ⟨rfl, -⟩ := h.parentDir hp
    exact h
  next d name s₁ hp =>
  obtain ⟨rfl, hdir⟩ := h.parentDir hp
  obtain ⟨hd, hname, -⟩ := hdir d name rfl
  split
  · rw [(h.safe_live hd).release]
    exact h
  next hf =>
  have hnew : ∀ {r s'}, s₁.enterNew av d name id (fun nd => { nd with
      mode := mode, uid := c.euid, gid := c.egid.setWidth 8, nlinks := 1#8 }) = (r, s') →
      s'.TreeInv parent ∧ s'.live d ∧ ∀ n, r = some n → s'.Safe n := fun he => by
    refine h.enterNew hd hname hf hfresh ?_ ?_ ?_ he
    · exact fun nd => ⟨rfl, rfl⟩
    · exact fun nd => ⟨rfl, fun _ => rfl⟩
    · simp [Node.isDir, hmode]
  split
  · next s₂ he => exact (hnew he).1
  next n s₂ he =>
  obtain ⟨hinv, hlive, hsafe⟩ := hnew he
  rw [(hinv.safe_live hlive).release, (hsafe n rfl).release]
  exact hinv

end

/-- **`sys_link`.** -/
theorem sysLink {old new : List Text}
    (hwrap : ∀ n s₁, s.lookup c av old = (some n, s₁) → (s.node n).nlinks ≠ 255#8) :
    (s.sysLink c av old new).2.TreeInv parent := by
  unfold FsTree.sysLink
  split
  · next s₁ hl =>
    obtain ⟨rfl, -⟩ := h.lookup hl
    exact h
  next n s₁ hl =>
  have hw := hwrap n s₁ hl
  obtain ⟨rfl, hsafe⟩ := h.lookup hl
  have hn := hsafe n rfl
  rw [hn.release]
  split
  · exact h
  next hfile =>
  split
  · next s₂ hp =>
    obtain ⟨rfl, -⟩ := h.parentDir hp
    rw [hn.release]
    exact h
  next d name s₂ hp =>
  obtain ⟨rfl, hdir⟩ := h.parentDir hp
  obtain ⟨hd, -, -⟩ := hdir d name rfl
  rw [hn.release, (h.safe_live hd).release]
  split
  · exact h
  next hf =>
  split
  · exact h
  next s₃ ha =>
  obtain ⟨hinv, hlive, hsafe'⟩ := h.addLink hd hn.1 (by simpa using hfile) hw hf ha
  rw [hsafe'.release, (hinv.safe_live hlive).release]
  exact hinv

/-- **`sys_unlink`.** -/
theorem sysUnlink (path : List Text) : (s.sysUnlink c av path).2.TreeInv parent := by
  unfold FsTree.sysUnlink
  split
  · next s₁ hp =>
    obtain ⟨rfl, -⟩ := h.parentDir hp
    exact h
  next d name s₁ hp =>
  obtain ⟨rfl, hdir⟩ := h.parentDir hp
  obtain ⟨hd, -, hbad⟩ := hdir d name rfl
  rw [(h.safe_live hd).release]
  split
  · exact h
  next n hf =>
  rw [(h.safe_found hd hf).release, (h.safe_live hd).release]
  split
  · exact h
  split
  · exact h
  next hfile =>
  have hfile' : (s₁.node n).isDir = false := by simpa using hfile
  split
  · exact h
  next s₂ hr =>
  have hdn : n ≠ d := by
    rintro rfl
    exact not_live_of_file hfile' hd
  have hsame : s₂.node n = s₁.node n := by
    unfold dirRemoveEntry at hr
    obtain ⟨l, -, rfl⟩ := Option.map_eq_some_iff.mp hr
    exact setNode_of_ne hdn
  have hgone : ∀ nd : Node, nd.mode = (s₁.node n).mode → nd.count = (s₁.node n).count →
      nd.nlinks = (s₁.node n).nlinks - 1#8 →
      (((s₂.setNode n nd).release n).release d).TreeInv parent := fun nd hm hc hl => by
    obtain ⟨hinv, hlive⟩ := h.removeLink hd hbad hf hfile' hr hm hc hl
    rw [(hinv.safe_live hlive).release]
    exact hinv
  simp only
  rw [hsame]
  split
  · exact hgone _ rfl rfl rfl
  · exact hgone _ rfl rfl rfl

/-- **`sys_chdir`.** -/
theorem sysChdir
    (hwrap : ∀ n, s.imap n = true → (s.node n).count ≠ 255#8) : (s.sysChdir c av path).2.TreeInv parent := by
  unfold FsTree.sysChdir
  split
  · next s₁ hl =>
    obtain ⟨rfl, -⟩ := h.lookup hl
    exact h
  next n s₁ hl =>
  obtain ⟨rfl, hsafe⟩ := h.lookup hl
  have hn := hsafe n rfl
  rw [hn.release]
  split
  · exact h
  split
  · exact h
  · exact h.hold hn.1 (hwrap n hn.1) _

/-- **`sys_chroot`.** -/
theorem sysChroot
    (hwrap : ∀ n, s.imap n = true → (s.node n).count ≠ 255#8) : (s.sysChroot c av path).2.TreeInv parent := by
  unfold FsTree.sysChroot
  split
  · next s₁ hl =>
    obtain ⟨rfl, -⟩ := h.lookup hl
    exact h
  next n s₁ hl =>
  obtain ⟨rfl, hsafe⟩ := h.lookup hl
  have hn := hsafe n rfl
  rw [hn.release]
  split
  · exact h
  · exact h.hold hn.1 (hwrap n hn.1) _

end

end TreeInv

/-! ### Runs -/

/-- `new_inode` finds a slot for what it takes, and takes an inode that the table holds. -/
def FreshRoom (s : FsTree) (av : Avail) : Prop :=
  ∀ n, s.freshInode = some n → av.room n = true ∧ n ≤ s.ninodes

/-- **What keeps the tree.**  Reference counts and link counts stay below 255; `mknod` makes no
directory; nobody holds a directory that is removed, and it is not the last that its parent has a link
for; nothing is renamed to another directory or onto another entry, and no dots are; nobody writes into
a directory. -/
def Careful (s : FsTree) (c : Cred) (av : Avail) : FsOp → Prop
  | .open path flag mode => s.FreshRoom av ∧
    ∀ n s₁, s.openInode c av path flag mode = (some n, s₁) → (s₁.node n).count ≠ 255#8
  | .mknod _ mode => s.FreshRoom av ∧ mode &&& 0x4000#16 = 0#16
  | .mkdir path _ => s.FreshRoom av ∧ ∀ d name s₁,
    s.parentDir c av (fun _ => false) path = (some (d, name), s₁) → (s.node d).nlinks ≠ 255#8
  | .link old _ => ∀ n s₁, s.lookup c av old = (some n, s₁) → (s.node n).nlinks ≠ 255#8
  | .rmdir path => ∀ d name s₁ n, s.parentDir c av isDots path = (some (d, name), s₁) →
    (s.node d).findEntry name = some n → (s.node n).isDir = true → dirIsEmpty (s.node n).entries = true →
    (s.node d).nlinks ≠ 1#8 ∧ (s.node n).count = 0#8
  | .rename old new => ∀ m s₁, s.renameArgs c av old new = (some m, s₁) → m.d' = m.d ∧
    isDots m.oldbase = false ∧ ((s.node m.d).findEntry m.newbase = none ∨ m.newbase = m.oldbase)
  | .chdir _ | .chroot _ | .share .. => ∀ n, s.imap n = true → (s.node n).count ≠ 255#8
  | .write i _ => ∀ n, s.holder (.file i) = some n → (s.node n).isDir = false
  | .unlink _ | .drop _ | .pipe => True

/-- Every call is careful, and none changes an inode that it does not name. -/
def CarefulRun : FsTree → List (Cred × Avail × FsOp) → Prop
  | _, [] => True
  | s, (c, av, op) :: ops => s.Careful c av op ∧ av.stray = none ∧ CarefulRun (s.step c av op) ops

theorem TreeInv.step {op : FsOp} (h : s.TreeInv parent) (hc : s.Careful c av op) (hs : av.stray = none) :
    ∃ parent', (s.step c av op).TreeInv parent' := by
  rw [step_eq_call hs]
  cases op with
  | «open» path flag mode => exact ⟨parent, h.sysOpen hc.1 hc.2⟩
  | mknod path mode => exact ⟨parent, h.sysMknod hc.1 hc.2⟩
  | mkdir path mode => exact h.sysMkdir hc.1 hc.2
  | link old new => exact ⟨parent, h.sysLink hc⟩
  | unlink path => exact ⟨parent, h.sysUnlink path⟩
  | rmdir path => exact ⟨parent, h.sysRmdir hc⟩
  | rename old new => exact ⟨parent, h.sysRename hc⟩
  | chdir path => exact ⟨parent, h.sysChdir hc⟩
  | chroot path => exact ⟨parent, h.sysChroot hc⟩
  | drop x => exact ⟨parent, h.drop x⟩
  | pipe => exact ⟨parent, h⟩
  | share x x' =>
    simp only [call]
    split
    · next n hx _ => exact ⟨parent, h.hold (h.held hx) (hc n (h.held hx)) x'⟩
    · exact ⟨parent, h⟩
  | write i l =>
    simp only [call]
    split
    · next n hx => exact ⟨parent, h.contents (h.held hx) (hc n hx) l⟩
    · exact ⟨parent, h⟩

theorem TreeInv.run {ops : List (Cred × Avail × FsOp)} (h : s.TreeInv parent) (hc : s.CarefulRun ops) :
    ∃ parent', (s.run ops).TreeInv parent' := by
  induction ops generalizing s parent with
  | nil => exact ⟨parent, h⟩
  | cons x ops ih =>
    obtain ⟨c, av, op⟩ := x
    obtain ⟨parent', h'⟩ := h.step hc.1 hc.2.1
    exact ih h' hc.2.2

end FsTree

/-! ### What the invariant says -/

namespace FsTree

variable {s : FsTree} {parent : ℕ → ℕ} {d : ℕ}

/-- The entries in use that name `n`, in all directories in use. -/
def entriesNaming (s : FsTree) (n : ℕ) : ℕ :=
  ∑ d ∈ Finset.range (s.ninodes + 1),
    if s.imap d = true ∧ (s.node d).isDir = true then ((s.node d).children.map DirEntry.inode).count n else 0

/-- The subdirectories of `d`. -/
def subdirectories (s : FsTree) (d : ℕ) : ℕ :=
  ((s.node d).children.map DirEntry.inode).countP fun n => (s.node n).isDir

section
variable (h : s.TreeInv parent)
include h

/-- The children of a directory in use are what comes after the dots. -/
theorem TreeInv.children (hd : s.live d) :
    (s.node d).children.map DirEntry.inode = (s.node d).kids := by
  have hdist := h.distinct hd
  rw [h.split hd] at hdist
  have hcross := (pairwise_append.mp hdist).2.2
  unfold Node.children
  rw [h.split hd, filter_append]
  have hdots : (dotEntries d (parent d)).filter
      (fun e => e.inode ≠ 0 ∧ e.name ≠ dotName ∧ e.name ≠ dotdotName) = [] := by
    simp [dotEntries]
  have hrest : ((s.node d).entries.drop 2).filter
      (fun e => e.inode ≠ 0 ∧ e.name ≠ dotName ∧ e.name ≠ dotdotName) =
      ((s.node d).entries.drop 2).filter fun e => e.inode ≠ 0 := by
    refine filter_congr fun e he => decide_eq_decide.mpr ⟨And.left, fun hne => ⟨hne, ?_, ?_⟩⟩
    · exact fun e' => hcross _ mem_cons_self e he hne e'.symm
    · exact fun e' => hcross _ (mem_cons_of_mem _ (mem_singleton.mpr rfl)) e he hne e'.symm
  rw [hdots, nil_append, hrest]
  unfold Node.kids inodes
  rw [filter_map]
  rfl

theorem TreeInv.dot (hd : s.live d) : (s.node d).findEntry dotName = some d :=
  Distinct.findEntry (h.distinct hd) hd.2 (e := ⟨d, dotName, dotName_short⟩)
    (by rw [h.split hd]; exact mem_append_left _ mem_cons_self) (h.pos hd.1)

theorem TreeInv.dotdot (hd : s.live d) :
    (s.node d).findEntry dotdotName = some (parent d) :=
  Distinct.findEntry (h.distinct hd) hd.2 (e := ⟨parent d, dotdotName, dotdotName_short⟩)
    (by rw [h.split hd]; exact mem_append_left _ (mem_cons_of_mem _ (mem_singleton.mpr rfl)))
    (h.pos (h.wf.parent_live hd).1)

/-- The hierarchy counts the entries. -/
theorem TreeInv.entriesNaming_eq (n : ℕ) : s.entriesNaming n = s.hier.linksTo n := by
  unfold entriesNaming Hierarchy.linksTo
  refine Finset.sum_congr rfl fun d _ => ?_
  by_cases hd : s.live d
  · rw [if_pos (show s.imap d = true ∧ (s.node d).isDir = true from hd), if_pos (show s.hier.live d from hd),
      h.children hd]
    rfl
  · rw [if_neg (show ¬ (s.imap d = true ∧ (s.node d).isDir = true) from hd), if_neg (show ¬ s.hier.live d from hd)]

theorem TreeInv.subdirectories_eq (hd : s.live d) :
    s.subdirectories d = s.hier.subdirs d := by
  unfold subdirectories Hierarchy.subdirs
  rw [h.children hd]
  rfl

end

end FsTree

/-! ### From the image on -/

section Image

variable {progs : List FileName}

theorem inodes_binEntries (progs : List FileName) {n : ℕ} (hn : n ≠ 0) :
    inodes (binEntries n progs) = List.range' n progs.length := by
  induction progs generalizing n with
  | nil => rfl
  | cons p ps ih =>
    unfold binEntries
    rw [inodes_cons, if_neg hn, ih (Nat.succ_ne_zero n), length_cons, range'_succ]

theorem image_live {d : ℕ} : (image progs).live d ↔ d = 1 ∨ d = 5 ∨ d = 7 := by
  show (image progs).imap d = true ∧ ((image progs).node d).isDir = true ↔ _
  rw [image_isDir]
  refine ⟨And.right, fun hd => ⟨decide_eq_true (by omega), hd⟩⟩

theorem image_kids (progs : List FileName) : ((image progs).node 1).kids = [2, 3, 4, 5, 7] ∧ ((image progs).node 5).kids = [6] ∧
    ((image progs).node 7).kids = List.range' 8 progs.length :=
  ⟨rfl, rfl, inodes_binEntries progs (by decide)⟩

/-- How often an inode of the image is named. -/
theorem image_linksTo (m : ℕ) : (image progs).hier.linksTo m =
    [2, 3, 4, 5, 7].count m + [6].count m + (List.range' 8 progs.length).count m := by
  have hdirs : (Finset.range 513).filter (image progs).hier.live = {1, 5, 7} := by
    ext d
    rw [Finset.mem_filter, Finset.mem_range]
    have : (image progs).hier.live d ↔ d = 1 ∨ d = 5 ∨ d = 7 := image_live
    rw [this]
    simp only [Finset.mem_insert, Finset.mem_singleton]
    omega
  obtain ⟨h1, h5, h7⟩ := image_kids progs
  unfold Hierarchy.linksTo
  rw [← Finset.sum_filter]
  show ∑ d ∈ (Finset.range 513).filter (image progs).hier.live, ((image progs).node d).kids.count m = _
  rw [hdirs, Finset.sum_insert (by decide), Finset.sum_insert (by decide), Finset.sum_singleton, h1, h5, h7]
  omega

/-- A file of the image is named once. -/
theorem image_linksTo_file {m : ℕ} (h1 : m ≠ 1) (h5 : m ≠ 5) (h7 : m ≠ 7) (hu : 1 ≤ m ∧ m ≤ 7 + progs.length) :
    (image progs).hier.linksTo m = 1 := by
  rw [image_linksTo]
  by_cases hb : 8 ≤ m
  · have hbin : (range' 8 progs.length).count m = 1 :=
      count_eq_one_of_mem nodup_range' (mem_range'_1.mpr (by omega))
    rw [hbin, count_eq_zero_of_not_mem, count_eq_zero_of_not_mem]
    · simp; omega
    · simp; omega
  · have hbin : (range' 8 progs.length).count m = 0 :=
      count_eq_zero_of_not_mem fun hm => hb (mem_range'_1.mp hm).1
    rw [hbin]
    have : m = 2 ∨ m = 3 ∨ m = 4 ∨ m = 6 := by omega
    rcases this with rfl | rfl | rfl | rfl <;> decide

/-- What a directory of the image names is in use; the two directories are named by the root. -/
theorem image_kid {d m : ℕ} (hd : (image progs).live d) (hm : m ∈ ((image progs).node d).kids) :
    2 ≤ m ∧ m ≤ 7 + progs.length ∧ (m = 5 ∨ m = 7 → d = 1) := by
  obtain ⟨h1, h5, h7⟩ := image_kids progs
  rcases image_live.mp hd with rfl | rfl | rfl
  · rw [h1] at hm
    simp at hm
    omega
  · rw [h5] at hm
    simp at hm
    omega
  · rw [h7] at hm
    have := mem_range'_1.mp hm
    omega

theorem image_subdirs {d : ℕ} (hd : (image progs).live d) :
    (image progs).hier.subdirs d = if d = 1 then 2 else 0 := by
  obtain ⟨h1, -, -⟩ := image_kids progs
  show ((image progs).node d).kids.countP (fun n => ((image progs).node n).isDir) = _
  by_cases e : d = 1
  · subst e
    have hfile : ∀ m, ¬ (m = 1 ∨ m = 5 ∨ m = 7) → ((image progs).node m).isDir = false := fun m hm =>
      Bool.eq_false_of_not_eq_true fun h => hm ((image_isDir progs m).mp h)
    have hd5 := (image_isDir progs 5).mpr (.inr (.inl rfl))
    have hd7 := (image_isDir progs 7).mpr (.inr (.inr rfl))
    rw [h1]
    simp [hfile 2, hfile 3, hfile 4, hd5, hd7]
  · rw [if_neg e, countP_eq_zero]
    intro m hm hdir
    obtain ⟨hge, -, hroot⟩ := image_kid hd hm
    have hmd := (image_isDir progs m).mp hdir
    exact e (hroot (by omega))

/-- The links of the directories of the image; those of the root leave out its subdirectories. -/
theorem image_wf (hp : progs.length ≤ 505) : (image progs).hier.WF 1 2 fun _ => 1 := by
  have hused : ∀ {n}, (image progs).imap n = true ↔ 1 ≤ n ∧ n ≤ 7 + progs.length := decide_eq_true_iff
  have hdirs : ∀ {d}, (image progs).hier.live d ↔ d = 1 ∨ d = 5 ∨ d = 7 := image_live
  have hroot : (image progs).hier.live 1 := hdirs.mpr (.inl rfl)
  refine ⟨fun {n} hn => ?_, hroot, rfl, fun {d m} hd hm => ?_, fun {d m} hd hm hdir => ?_,
    fun {d} hd hne => ?_, fun _ => hroot, fun _ => ⟨1, rfl⟩, fun {m} hu hnotdir => ?_,
    fun {d} hd hne => ?_, ?_, ?_⟩
  · have := hused.mp hn
    exact Finset.mem_range.mpr (show n < 513 by omega)
  · obtain ⟨hge, hle, -⟩ := image_kid hd hm
    exact hused.mpr ⟨by omega, hle⟩
  · obtain ⟨hge, -, hone⟩ := image_kid hd hm
    have hmd := (image_isDir progs m).mp hdir
    exact ⟨(hone (by omega)).symm, by omega⟩
  · rw [show (image progs).hier.kids 1 = _ from (image_kids progs).1]
    rcases hdirs.mp hd with rfl | rfl | rfl
    · exact absurd rfl hne
    · decide
    · decide
  · have hu' := hused.mp hu
    have hnd : ¬ (m = 1 ∨ m = 5 ∨ m = 7) := fun h => by
      have : ((image progs).node m).isDir = true := (image_isDir progs m).mpr h
      exact absurd (this.symm.trans hnotdir) (by decide)
    rw [image_linksTo_file (by omega) (by omega) (by omega) hu']
    show ((image progs).node m).nlinks.toNat = 1
    rw [image_file (by omega) (by omega) (by omega), if_pos hu']
    rfl
  · rw [image_subdirs hd, if_neg hne]
    rcases hdirs.mp hd with rfl | rfl | rfl
    · exact absurd rfl hne
    · rfl
    · rfl
  · rw [image_subdirs hroot]
    rfl
  · exact fun h : (2 : ℕ) = 0 => absurd h (by decide)

/-- Before the first call, the working directory of task 0 is the one reference there is. -/
theorem image_counts (progs : List FileName) (n : ℕ) :
    ((image progs).node n).count.toNat = refs (image progs).holder n := by
  have hcount : ((image progs).node n).count = if n = 1 then 1#8 else 0#8 := by
    by_cases e1 : n = 1
    · subst e1
      rfl
    by_cases e5 : n = 5
    · subst e5
      rfl
    by_cases e7 : n = 7
    · subst e7
      rfl
    · rw [image_file e1 e5 e7, if_neg e1]
      split <;> rfl
  have hup := refs_update (fun _ : Holder => (none : Option ℕ)) (.pwd 0) (some 1) n
  have hnone : refs (fun _ : Holder => (none : Option ℕ)) n = 0 :=
    refs_eq_zero_iff.mpr fun _ h => nomatch h
  have hholder : (image progs).holder = update (fun _ => none) (.pwd 0) (some 1) := by
    funext x
    rw [update_apply]
    rfl
  rw [hnone, one_none, Nat.add_zero, Nat.zero_add] at hup
  rw [hcount, hholder, hup]
  by_cases e1 : n = 1
  · subst e1
    rfl
  · rw [if_neg e1, one_some_of_ne (Ne.symm e1)]
    rfl

/-- **The image satisfies the invariant**; the parent of every directory is the root. -/
theorem image_tree (hg : GoodNames progs) (hp : progs.length ≤ 505) : (image progs).TreeInv fun _ => 1 := by
  refine ⟨show 512 < 65536 by decide, rfl, image_wf hp, fun {d} hd => ?_, fun {d} hd => image_names hg d hd.2,
    image_counts progs, fun {x n} hx => ?_⟩
  · rcases image_live.mp hd with rfl | rfl | rfl <;> rfl
  · change (if x = .pwd 0 then some 1 else none) = some n at hx
    split at hx
    · obtain rfl := Option.some.inj hx
      exact (image_live.mpr (.inl rfl) : (image progs).live 1).1
    · cases hx

end Image

/-! ### Careless runs -/

/-- `docs`. -/
def docsName : List Text := text [100, 111, 99, 115]

/-- `rename("docs", "docs/x")`. -/
def renameIntoItself : List (Cred × Avail × FsOp) :=
  [(initCred, roomy, .rename docsName (docsName ++ text [47, 120]))]

/-- `rename("hello.txt", "docs/h")`. -/
def renameFile : List (Cred × Avail × FsOp) :=
  [(initCred, roomy, .rename helloName (docsName ++ text [47, 104]))]

/-- `fork`; the child does `mkdir("/d")` and `chdir("/d")`; its parent does `rmdir("/d")`. -/
def rmdirUnderTask : List (Cred × Avail × FsOp) :=
  [(initCred, roomy, .share (.pwd 0) (.pwd 1)), ({ task := 1 }, roomy, .mkdir (text [47, 100]) 0x1ed#16),
    ({ task := 1 }, roomy, .chdir (text [47, 100])), (initCred, roomy, .rmdir (text [47, 100]))]

theorem linkMkdirUnlink_tree : (image []).CarefulRun linkMkdirUnlink := by
  refine ⟨fun n s₁ h => ?_, rfl, ⟨fun n h => ?_, fun d name s₁ h => ?_⟩, rfl, trivial, rfl, trivial⟩
  · have hn : some n = some 2 := by
      rw [← show _ = some n from congrArg Prod.fst h]
      decide
    obtain rfl := Option.some.inj hn
    decide
  · have hn : some n = some 8 := by
      rw [← h]
      decide
    obtain rfl := Option.some.inj hn
    decide
  · have hd : some (d, name) = some (1, text [100]) := by
      rw [← show _ = some (d, name) from congrArg Prod.fst h]
      decide
    obtain ⟨rfl, -⟩ := Prod.mk.inj (Option.some.inj hd)
    decide

/-- `open("hello.txt", O_RDWR)`, `unlink("hello.txt")` and `pipe()`. -/
def openUnlink : List (Cred × Avail × FsOp) :=
  [(initCred, roomy, .open helloName 2#32 0#16), (initCred, roomy, .unlink helloName), (initCred, roomy, .pipe)]

theorem openUnlink_tree : (image []).CarefulRun openUnlink := by
  refine ⟨⟨fun n h => ?_, fun n s₁ h => ?_⟩, rfl, trivial, rfl, trivial, rfl, trivial⟩
  · have hn : some n = some 8 := by
      rw [← h]
      decide
    obtain rfl := Option.some.inj hn
    decide
  · have hn : some n = some 2 := by
      rw [← show _ = some n from congrArg Prod.fst h]
      decide
    obtain rfl := Option.some.inj hn
    rw [← show _ = s₁ from congrArg Prod.snd h]
    decide

end Linux001

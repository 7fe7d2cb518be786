import Linux001.Fs.FileSpec
import Linux001.Mm.Pages
import Linux001.Mm.SystemInv

/-!
# Mm — what a load reads

`viewPage` is the page that an access to an entry will meet: the frame the entry maps, what went
out to the swap device, or what the demand path builds.  A load that is not killed reads a byte
of that page, whatever its faults had to reclaim on the way (`SysInv.load_view`).
-/

namespace Linux001

variable {B : Boot} {tk : TaskTable} {m m' : Mm} {b : Books} {s s' : Sys}
variable {d pt : Frame} {i : Ix} {addr : Word} {t : Task} {fs : FsView} {n : Slot} {x : Byte}
  {user : Bool} {a : Access}

theorem viewPage_present (hp : present (m.mem pt i) = true) :
    viewPage fs t m pt i = m.mem (frameOf (m.mem pt i)) := if_pos hp

theorem viewPage_zero (hz : m.mem pt i = 0#32) :
    viewPage fs t m pt i = demandFill fs t (userVa i) zeroPage := by
  unfold viewPage
  rw [hz]
  simp

/-- The byte that the executable's image has at offset `o` of the `i`th page of the user window:
the file's byte, and zero where there is none. -/
def Task.imageByte (fs : FsView) (t : Task) (i : Ix) (o : Fin 4096) : Byte :=
  if userProgStart ≤ userVa i ∧ userVa i < userProgEnd then
    ((t.imageBytes fs (userVa i))[o.val]?).getD 0#8
  else 0#8

theorem getByte_zeroPage (o : Fin 4096) : getByte zeroPage o = 0#8 := by
  simp [getByte, zeroPage]

/-- **The page the demand path builds is the image's.** -/
theorem getByte_demandFill (fs : FsView) (t : Task) (i : Ix) (o : Fin 4096) :
    getByte (demandFill fs t (userVa i) zeroPage) o = t.imageByte fs i o := by
  unfold demandFill Task.imageByte
  split
  · rw [getByte_pageInImage, getByte_zeroPage]
  · exact getByte_zeroPage o

namespace Inv

section
variable (h : Inv B tk m b) (hd : t.pgDir = some d) (hl : d ∈ b.live) {wp : Bool}
include h hd hl

/-- A load that is not killed reads the page it meets. -/
theorem cpuAccess_view
    {k : ℕ} (hr : cpuAccess fs tk t wp true (.load addr) k m = (.done x, m')) :
    x = getByte (viewPage fs t m (b.tbl d) (pteIx addr)) (pageOffset addr) ∧
      m'.page (b.tbl d) (pteIx addr) = some (viewPage fs t m (b.tbl d) (pteIx addr)) := by
  induction k generalizing m b with
  | zero => cases hr
  | succ k ih =>
    simp only [cpuAccess, hd, Access.addr, Access.write] at hr
    cases hw : m.walk wp d addr false true with
    | ok r =>
      obtain ⟨rfl, hp⟩ := h.walk_ok hl (.inl rfl) hw
      rw [hw] at hr
      rw [← h.mem_tbl hl] at hp
      simp only [Mm.perform, Prod.mk.injEq, Outcome.done.injEq] at hr
      obtain ⟨rfl, rfl⟩ := hr
      have hdata := h.data_hold (h.hold_eq hl ((h.mem_tbl hl) ▸ hp))
      rw [viewPage_present hp]
      refine ⟨rfl, ?_⟩
      rw [Mm.page_sameEntry (m := m) (by rw [Mm.setWord_same]; exact sameEntry_access _) fun _ => ?_]
      · exact if_pos hp
      · rw [h.mem_tbl hl]
        exact Mm.setWord_of_ne (hdata.table d hl).symm
    | error err =>
      obtain ⟨⟨⟨b₁, h₁, hs₁⟩, hserved⟩, -⟩ := h.doNoPage fs hd hl (h.walk_error hl hw)
      rw [hw] at hr
      simp only at hr
      generalize doNoPage fs tk t m err addr = r at hr h₁ hserved
      obtain ⟨_ | _, m₁⟩ := r
      · cases hr
      -- the entry now maps a page with the contents it is to have
      obtain ⟨f, he, hf⟩ := hserved rfl
      have := ih h₁ (hs₁.live ▸ hl) hr
      rwa [hs₁.tbl, viewPage_present (by rw [he, present_mapEntry]), he, frameOf_mapEntry, hf] at this

/-- **The first load from a page**, with a frame left for it: the byte is the image's. -/
theorem cpuAccess_first
    (ha : userAddrOk addr 1#32 = true) (hz : b.pte d (pteIx addr) = 0#32)
    (hmem : (getFreePage tk m).1.isSome = true) :
    ∃ m', cpuAccess fs tk t wp true (.load addr) 2 m =
      (.done (t.imageByte fs (pteIx addr) (pageOffset addr)), m') := by
  have hx := pdeIx_of_userAddrOk ha
  have hw : m.walk wp d addr false true = .error (faultCode false false true) := by
    rw [h.walk_user wp false true hl hx, hz]
    rfl
  -- the handler finds the entry empty, and a frame for it
  have hno : (doNoPage fs tk t m (faultCode false false true) addr).1 = true := by
    have hx' : pdeIx (pageBase addr) = userPdeIndex := by rw [pdeIx_pageBase, hx]
    have hslot := h.shape.pteSlot_user hl hx'
    have hempty : ¬ (swapped 0#32 = true ∧ present 0#32 = false) := by decide
    simp only [doNoPage, hd, present_faultCode, Bool.false_eq_true, if_false, ha, if_true,
      missingPage, hslot, pteIx_pageBase, h.mem_tbl hl, hz, if_neg hempty, demandFault]
    generalize getFreePage tk m = r at hmem
    obtain ⟨_ | pa, m₁⟩ := r
    · cases hmem
    · rfl
  obtain ⟨⟨⟨b₁, h₁, hs₁⟩, hserved⟩, -⟩ := h.doNoPage fs hd hl (h.walk_error hl hw)
  obtain ⟨f, he, hf⟩ := hserved hno
  simp only [cpuAccess, hd, Access.addr, Access.write, hw]
  generalize doNoPage fs tk t m (faultCode false false true) addr = r at *
  obtain ⟨_ | _, m₁⟩ := r
  · cases hno
  have hl₁ : d ∈ b₁.live := hs₁.live ▸ hl
  have he₁ : b₁.pte d (pteIx addr) = mapEntry f := by rw [← h₁.mem_tbl hl₁, hs₁.tbl, he]
  obtain ⟨m', e', -⟩ := h₁.cpuAccess_own wp (a := .load addr) fs hd hl₁ hx
    (by rw [Access.addr, he₁, present_mapEntry]) (fun hw => by cases hw) 0
  refine ⟨m', ?_⟩
  rw [Access.addr, he₁, frameOf_mapEntry, hf, viewPage_zero (by rw [h.mem_tbl hl, hz])] at e'
  rw [← getByte_demandFill]
  simp only [cpuAccess, hd, Access.addr, Access.write] at e'
  exact e'

/-- After a store in Ring3 the entry is not copy-on-write. -/
theorem store_own {v : Byte}
    {k : ℕ} (hr : cpuAccess fs tk t wp true (.store addr v) k m = (.done x, m')) :
    cow (m'.mem (b.tbl d) (pteIx addr)) = false := by
  induction k generalizing m b with
  | zero => cases hr
  | succ k ih =>
    simp only [cpuAccess, hd, Access.addr, Access.write] at hr
    cases hw : m.walk wp d addr true true with
    | ok r =>
      obtain ⟨rfl, hp⟩ := h.walk_ok hl (.inl rfl) hw
      have hx : pdeIx addr = userPdeIndex := by
        by_contra hx
        obtain ⟨err, he⟩ := h.walk_kernel wp true hl hx
        rw [he] at hw
        cases hw
      have hc : cow (b.pte d (pteIx addr)) = false := by
        rw [h.walk_user wp true true hl hx, if_pos hp] at hw
        split at hw
        · cases hw
        next hn =>
        have hrw := (h.mapped hl hp).rw
        simp only [true_and, true_or, not_not] at hn
        rw [hn] at hrw
        simpa using hrw.symm
      rw [hw] at hr
      simp only [Mm.perform, Prod.mk.injEq, Outcome.done.injEq] at hr
      obtain ⟨-, rfl⟩ := hr
      have hdata := h.data_hold (h.hold_eq hl hp)
      have hs := (sameEntry_access (b.pte d (pteIx addr))).trans (sameEntry_dirty _)
      rw [Mm.setPage_of_ne (by rw [h.mem_tbl hl]; exact hdata.table d hl), Mm.setWord_same, h.mem_tbl hl, hs.cow, hc]
    | error err =>
      obtain ⟨⟨⟨b₁, h₁, hs₁⟩, -⟩, -⟩ := h.doNoPage fs hd hl (h.walk_error hl hw)
      rw [hw] at hr
      simp only at hr
      generalize doNoPage fs tk t m err addr = r at hr h₁
      obtain ⟨_ | _, m₁⟩ := r
      · cases hr
      · have := ih h₁ (hs₁.live ▸ hl) hr
        rwa [hs₁.tbl] at this

end

end Inv

/-! ### Loads in a system -/

theorem step_access (s : Sys) (fs : FsView) (n : Slot) (a : Access) :
    step s (.access fs n true a) = (s.access fs n true a).2 := by
  simp [step]

/-- A completed access changes the memory, and leaves the tasks. -/
theorem Sys.access_done (hr : s.access fs n user a = (.done x, s')) :
    ∃ t m₁, s.tk n = some t ∧ cpuAccess fs s.tk t (wpOf s.cr0) user a 2 s.mm = (.done x, m₁) ∧
      s' = { s with mm := m₁ } := by
  unfold Sys.access at hr
  cases ht : s.tk n with
  | none =>
    rw [ht] at hr
    cases hr
  | some t =>
    simp only [ht] at hr
    generalize hc : cpuAccess fs s.tk t (wpOf s.cr0) user a 2 s.mm = r at hr
    obtain ⟨_ | _ | _, m₁⟩ := r <;> cases hr
    exact ⟨t, m₁, rfl, hc, rfl⟩

theorem Sys.access_tk (hr : s.access fs n user a = (.done x, s')) : s'.tk = s.tk := by
  obtain ⟨t, m₁, -, -, rfl⟩ := Sys.access_done hr
  rfl

section
variable (h : SysInv B s)
include h

theorem SysInv.store_own {v : Byte} (ht : s.tk n = some t) (hd : t.pgDir = some d)
    (hr : s.access fs n true (.store addr v) = (.done x, s'))
    (hpt : s'.mm.userPt (some d) = some pt) : cow (s'.mm.mem pt (pteIx addr)) = false := by
  obtain ⟨b, -, -, hi⟩ := h
  have hl := hi.tasks ht hd
  obtain ⟨b', h', hs'⟩ : Kept B s.tk b (cpuAccess fs s.tk t (wpOf s.cr0) true (.store addr v) 2 s.mm).2 :=
    hi.cpuAccess fs hd hl (.inl rfl) 2
  obtain ⟨t₁, m₁, ht₁, hc, rfl⟩ := Sys.access_done hr
  obtain rfl := Option.some.inj (ht.symm.trans ht₁)
  rw [hc] at h'
  obtain rfl := h'.tbl_eq (hs'.live ▸ hl) hpt
  rw [hs'.tbl]
  exact hi.store_own hd hl hc

section
variable (ht : s.tk n = some t) (hd : t.pgDir = some d) (hpt : s.mm.userPt (some d) = some pt)
include ht hd hpt

/-- **A load that is not killed reads the page it meets.** -/
theorem SysInv.load_view
    (hr : s.access fs n true (.load addr) = (.done x, s')) :
    x = getByte (viewPage fs t s.mm pt (pteIx addr)) (pageOffset addr) ∧
      s'.mm.pages d (pteIx addr) = some (viewPage fs t s.mm pt (pteIx addr)) := by
  obtain ⟨b, -, -, hi⟩ := h
  have hl := hi.tasks ht hd
  obtain rfl := hi.tbl_eq hl hpt
  obtain ⟨b', h', hs'⟩ : Kept B s.tk b (cpuAccess fs s.tk t (wpOf s.cr0) true (.load addr) 2 s.mm).2 :=
    hi.cpuAccess fs hd hl (.inl rfl) 2
  obtain ⟨t₁, m₁, ht₁, hc, rfl⟩ := Sys.access_done hr
  obtain rfl := Option.some.inj (ht.symm.trans ht₁)
  rw [hc] at h'
  rw [h'.pages_eq (hs'.live ▸ hl), hs'.tbl]
  exact hi.cpuAccess_view hd hl hc

/-- **The first load from a page**, with a frame left for it. -/
theorem SysInv.load_first
    (ha : userAddrOk addr 1#32 = true)
    (hz : s.mm.mem pt (pteIx addr) = 0#32) (hmem : (getFreePage s.tk s.mm).1.isSome = true) :
    (s.access fs n true (.load addr)).1 = .done (t.imageByte fs (pteIx addr) (pageOffset addr)) := by
  obtain ⟨b, -, -, hi⟩ := h
  have hl := hi.tasks ht hd
  obtain rfl := hi.tbl_eq hl hpt
  rw [hi.mem_tbl hl] at hz
  obtain ⟨m', e⟩ : ∃ m', cpuAccess fs s.tk t (wpOf s.cr0) true (.load addr) 2 s.mm = _ :=
    hi.cpuAccess_first hd hl ha hz hmem
  simp only [Sys.access, ht, e]

/-- A copy-on-write entry that the reclaimer has taken is empty. -/
theorem SysInv.reclaim_share
    (hp : present (s.mm.mem pt i) = true)
    (hc : cow (s.mm.mem pt i) = true) (hab : present ((step s .reclaim).mm.mem pt i) = false) :
    (step s .reclaim).mm.mem pt i = 0#32 := by
  obtain ⟨b, -, -, hi⟩ := h
  have hl := hi.tasks ht hd
  obtain rfl := hi.tbl_eq hl hpt
  obtain ⟨b', h', hd'⟩ := hi.reclaims (tryToFreePage_reclaims s.tk s.mm)
  rw [hi.mem_tbl hl] at hp hc
  have hm : (step s .reclaim).mm.mem (b.tbl d) i = b'.pte d i := by
    rw [← hd'.spaces.tbl]
    exact h'.mem_tbl (hd'.spaces.live ▸ hl)
  rw [hm] at hab ⊢
  rcases (hd'.shared hl hp hc).2 with hz | hs
  · exact hz
  · rw [hs.present, hp] at hab
    cases hab

omit ht hd hpt in
/-- The reclaimer leaves every directory its table. -/
theorem SysInv.reclaim_userPt (ht : s.tk n = some t) (hd : t.pgDir = some d) :
    (step s .reclaim).mm.userPt (some d) = s.mm.userPt (some d) := by
  obtain ⟨b, -, -, hi⟩ := h
  have hl := hi.tasks ht hd
  obtain ⟨b', h', hd'⟩ := hi.reclaims (tryToFreePage_reclaims s.tk s.mm)
  rw [hi.userPt_eq hl, ← hd'.spaces.tbl]
  exact h'.userPt_eq (hd'.spaces.live ▸ hl)

/-- What is read from a page after the reclaimer has emptied its entry. -/
theorem SysInv.reclaim_load
    (hz : (step s .reclaim).mm.mem pt (pteIx addr) = 0#32)
    (hr : (step s .reclaim).access fs n true (.load addr) = (.done x, s')) :
    x = getByte (demandFill fs t (userVa (pteIx addr)) zeroPage) (pageOffset addr) ∧
      s'.mm.pages d (pteIx addr) = some (demandFill fs t (userVa (pteIx addr)) zeroPage) := by
  have := h.reclaim.load_view ht hd ((h.reclaim_userPt ht hd).trans hpt) hr
  rwa [viewPage_zero hz] at this

end

end

end Linux001

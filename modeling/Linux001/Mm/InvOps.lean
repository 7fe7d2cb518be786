import Linux001.Mm.Fault
import Linux001.Mm.InvReclaim

/-!
# Mm — the functions of `mm/memory.c` keep the invariant

For each function: from any state with the invariant, whatever the reclaimer does in the middle
and however the disk behaves, the invariant holds again, and the address spaces are those the
function says.
-/

namespace Linux001

open Function Finset Mm Books
open Ledger

variable {B : Boot} {tk : TaskTable} {m m' m₁ : Mm} {b b' : Books}
variable {d d' f pt : Frame} {i : Ix} {va addr err : Word} {t : Task} {s : ℕ} {p : Page}

/-! ### Walking a directory -/

theorem Shape.pteSlot_user (h : Shape B m b) (hd : d ∈ b.live) (hx : pdeIx va = userPdeIndex) :
    m.pteSlot d va = some (b.tbl d, pteIx va) := by
  simp [pteSlot, h.dir hd, hx]

theorem Shape.mapUserPage (h : Shape B m b) (hd : d ∈ b.live) (hx : pdeIx va = userPdeIndex) :
    m.mapUserPage d va f = m.setWord (b.tbl d) (pteIx va) (mapEntry f) := by
  simp only [Mm.mapUserPage, h.pteSlot_user hd hx]

namespace Inv

/-- An entry marked copy-on-write is one of the user window: the kernel's tables have none. -/
theorem pteSlot_cow (h : Inv B tk m b) (hd : d ∈ b.live) (hs : m.pteSlot d va = some (pt, i))
    (hc : cow (m.mem pt i) = true) : pdeIx va = userPdeIndex ∧ pt = b.tbl d ∧ i = pteIx va := by
  by_cases hx : pdeIx va = userPdeIndex
  · rw [h.shape.pteSlot_user hd hx] at hs
    simp only [Option.some.injEq, Prod.mk.injEq] at hs
    exact ⟨hx, hs.1.symm, hs.2.symm⟩
  exfalso
  simp only [pteSlot, h.shape.dir hd, update_of_ne hx, kernelPde] at hs
  by_cases hk : (pdeIx va).val < kernelPtCount
  · simp only [if_pos hk] at hs
    split at hs
    · obtain ⟨rfl, rfl⟩ := hs
      have he : frameOf (kernelEntry (pdeIx va).val) = kernelTable (pdeIx va).val := by
        unfold kernelEntry
        rw [frameOf_or (by decide), frameOf_or (by decide), frameOf_frameAddr]
      rw [he, h.shape.kernel hk, B.plain _ hk] at hc
      cases hc
    · cases hs
  · simp only [if_neg hk, present_zero] at hs
    cases hs

/-! ### A fresh address space -/

/-- The loop of `alloc_user_pgdir` over a zeroed page. -/
theorem putKernelEntries_eq (m : Mm) (hz : m.mem d = zeroPage) :
    m.putKernelEntries d = m.setPage d kernelPde := by
  have hl := Loop.foldl_finRange (n := 4) (s := m)
    (J := fun k m' => m' = m.setPage d fun j => if j.val < k then kernelEntry j.val else 0#32)
    (f := fun m i => m.setWord d (i.castLE (by omega)) (kernelEntry i.val))
    (by simp only [Nat.not_lt_zero, if_false]; rw [show (fun _ => 0#32) = m.mem d from hz.symm]
        simp [Mm.setPage]) fun i m' hm' => ?_
  · exact hl
  subst hm'
  unfold Mm.setWord Mm.setPage update₂
  simp only [update_idem, update_self]
  congr 2
  funext j
  by_cases e : j = i.castLE (by omega)
  · subst e; simp
  have hne : j.val ≠ i.val := fun h => e (Fin.ext h)
  rw [update_of_ne e]
  by_cases hj : j.val < i.val
  · rw [if_pos hj, if_pos (by omega)]
  · rw [if_neg hj, if_neg (by omega)]

/-- **`alloc_user_pgdir`.** -/
protected theorem allocUserPgdir (h : Inv B tk m b) (hfew : B.few → b.live.card + 1 < used) :
    (∃ m' b', allocUserPgdir tk m = (none, m') ∧ Inv B tk m' b' ∧ b.SameSpaces b') ∨
    (∃ d m' b', allocUserPgdir tk m = (some d, m') ∧ Inv B tk m' b' ∧ d ∉ b.live ∧
      b'.live = insert d b.live ∧ b'.kern = b.kern ∧ ∀ i, b'.pte d i = 0#32) := by
  unfold allocUserPgdir
  obtain ⟨m₁, b₁, h₁, hd₁, e₁ | ⟨p, e₁, hf₁, hi₁, hn₁⟩⟩ := h.getFreePage
  · exact .inl ⟨m₁, b₁, by rw [e₁], h₁, hd₁.spaces⟩
  simp only [e₁]
  have hpk : p ∉ b₁.kern := fun hk => hn₁ _ (cells_kern hk)
  have hpl : p ∉ b₁.live := fun hl => hn₁ _ (cells_dir hl)
  obtain ⟨m₂, b₂, h₂, hd₂, e₂ | ⟨q, e₂, hf₂, hi₂, hn₂⟩⟩ := hi₁.getFreePage
  · -- the second page is missing: the first goes back
    have hk₂ : b₂.kern = insert p b₁.kern := hd₂.spaces.kern
    refine .inl ⟨m₂.freePage (frameAddr p), b₂.dropKern p, by simp only [e₂], h₂.release ?_, ?_⟩
    · rw [hk₂]; exact mem_insert_self _ _
    · refine ⟨hd₂.spaces.live.trans hd₁.spaces.live, ?_, hd₂.spaces.tbl.trans hd₁.spaces.tbl⟩
      show b₂.kern.erase p = b.kern
      rw [hk₂, erase_insert hpk, hd₁.spaces.kern]
  have hk₂ : b₂.kern = insert p b₁.kern := hd₂.spaces.kern
  have hp₂ : p ∈ b₂.kern := by rw [hk₂]; exact mem_insert_self _ _
  have hqp : q ≠ p := fun e => hn₂ (.kern p) (by rw [cells_kern hp₂, e])
  have hqk : q ∉ b₂.kern := fun hk => hn₂ _ (cells_kern hk)
  have hz : m₂.mem p = zeroPage := by
    have hdata := hi₁.data_kern (mem_insert_self _ _)
    rw [hd₂.data hdata.table]
    simp [takeFrame]
  have hl₂ : b₂.live = b.live := hd₂.spaces.live.trans hd₁.spaces.live
  have hz' : (m₂.takeFrame q).mem p = zeroPage := by
    show update m₂.mem q zeroPage p = zeroPage
    rw [update_of_ne hqp.symm, hz]
  refine .inr ⟨p, ((m₂.takeFrame q).setPage p kernelPde).setWord p userPdeIndex (mapEntry q),
    (b₂.addKern q).addDir p q, by simp only [e₂, putKernelEntries_eq _ hz'],
    hi₂.addDir (mem_insert_of_mem hp₂) (mem_insert_self _ _) hqp
      (by simp [Mm.takeFrame]) (fun hfw => ?_) (by simp [Mm.setWord, Mm.setPage, update₂])
      rfl rfl rfl rfl rfl rfl, ?_, ?_, ?_, fun i => by simp [Books.addDir]⟩
  · show b₂.live.card + 1 < used
    rw [hl₂]
    exact hfew hfw
  · exact fun hl => hpl (hd₁.spaces.live ▸ hl)
  · show insert p b₂.live = _
    rw [hl₂]
  · show ((insert q b₂.kern).erase p).erase q = b.kern
    rw [erase_right_comm, erase_insert hqk, hk₂, erase_insert hpk, hd₁.spaces.kern]

end Inv

/-! ### Page faults -/

/-- The contents of page `i` of an address space with table `pt`, wherever they are: in the frame
mapped there, on the swap device, or still in the executable. -/
def viewPage (fs : FsView) (t : Task) (m : Mm) (pt : Frame) (i : Ix) : Page :=
  if present (m.mem pt i) then m.mem (frameOf (m.mem pt i))
  else if swapped (m.mem pt i) then m.wentOut pt i
  else demandFill fs t (userVa i) zeroPage

/-- The invariant holds, with the address spaces of `b`. -/
def Kept (B : Boot) (tk : TaskTable) (b : Books) (m : Mm) : Prop :=
  ∃ b', Inv B tk m b' ∧ b.SameSpaces b'

/-- A fault at entry `i` has been dealt with; if the task goes on, the entry maps a page of its
own that holds `p`. -/
def Served (B : Boot) (tk : TaskTable) (b : Books) (d : Frame) (i : Ix) (p : Page)
    (r : Bool × Mm) : Prop :=
  Kept B tk b r.2 ∧ (r.1 = true → ∃ f, r.2.mem (b.tbl d) i = mapEntry f ∧ r.2.mem f = p)

theorem Served.intro (hd : d ∈ b.live) (h : Inv B tk m b') (hs : b.SameSpaces b')
    (he : b'.pte d i = mapEntry f) (hm : m.mem f = p) : Served B tk b d i p (true, m) := by
  refine ⟨⟨b', h, hs⟩, fun _ => ⟨f, ?_, hm⟩⟩
  rw [← hs.tbl, h.mem_tbl (hs.live ▸ hd), he]

theorem Served.of_spaces {r : Bool × Mm} (hs : b.SameSpaces b')
    (h : Served B tk b' d i p r) : Served B tk b d i p r := by
  obtain ⟨⟨b'', h₁, h₂⟩, h₃⟩ := h
  rw [hs.tbl] at h₃
  exact ⟨⟨b'', h₁, hs.trans h₂⟩, h₃⟩

namespace Inv

/-- **`un_wp_page`.**  The reclaimer may empty the very entry that is being served: its reference
is still there to be given back. -/
protected theorem unWpPage (h : Inv B tk m b) (hd : d ∈ b.live) (hx : pdeIx addr = userPdeIndex)
    (hp : present (b.pte d (pteIx addr)) = true) (hc : cow (b.pte d (pteIx addr)) = true) :
    Served B tk b d (pteIx addr) (m.mem (frameOf (b.pte d (pteIx addr)))) (unWpPage tk m d addr) := by
  unfold unWpPage
  simp only [h.shape.pteSlot_user hd hx, h.mem_tbl hd, hp, if_true]
  generalize pteIx addr = i at hp hc
  have hold := h.hold_eq hd hp
  obtain ⟨m₁, b₁, h₁, hd₁, e₁ | ⟨f, e₁, hf₁, hi₁, hn₁⟩⟩ := h.getFreePage
  · simp only [e₁]
    exact ⟨⟨b₁, h₁, hd₁.spaces⟩, nofun⟩
  simp only [e₁]
  have hl₁ : d ∈ b₁.live := hd₁.spaces.live ▸ hd
  have ht₁ : b₁.tbl d = b.tbl d := by rw [hd₁.spaces.tbl]
  have hold₁ : b₁.hold d i = some (frameOf (b.pte d i)) := by rw [(hd₁.shared hd hp hc).1, hold]
  have hkern : f ∈ (b₁.addKern f).kern := mem_insert_self _ _
  have hdata := hi₁.data_kern hkern
  have hne : frameOf (b.pte d i) ≠ f := fun e => hn₁ (.pte d i) (e ▸ hold₁)
  -- the old frame is still referred to, so its contents are what they were
  have hold' : (m₁.takeFrame f).mem (frameOf (b.pte d i)) = m.mem (frameOf (b.pte d i)) := by
    show update m₁.mem f zeroPage _ = _
    rw [update_of_ne hne, hd₁.data (h.data_hold hold).table]
  rw [hold']
  have h₂ := (hi₁.setPage (p := m.mem (frameOf (b.pte d i))) hdata).cowBreak hkern hl₁
    (h.userPage hd hp) hold₁
  have ht₂ : (b₁.addKern f).tbl d = b.tbl d := ht₁
  rw [ht₂] at h₂
  have htf : f ≠ b.tbl d := fun e => hdata.table d hl₁ (ht₂.trans e.symm)
  refine ⟨⟨_, h₂, ⟨hd₁.spaces.live, ?_, hd₁.spaces.tbl⟩⟩, fun _ => ⟨f, ?_, ?_⟩⟩
  · have hk : f ∉ b₁.kern := fun hk => hn₁ _ (cells_kern hk)
    show (insert f b₁.kern).erase f = b.kern
    rw [erase_insert hk, hd₁.spaces.kern]
  · simp
  · simp [setWord_of_ne htf]

section
variable (hk : f ∉ b.kern) (h : Inv B tk m (b.addKern f))
include hk h

/-- A page handed out, filled with `p`, is mapped at an absent entry. -/
theorem installPage (hd : d ∈ b.live)
    (hleg : UserPage i) (hp : present (b.pte d i) = false) (hs : Slots m' (b.setPte d i (mapEntry f)))
    (hmem : m'.mem = update₂ (update m.mem f p) (b.tbl d) i (mapEntry f))
    (hr : m'.ram = m.ram) (hmm : m'.memMap = m.memMap) (hu : m'.nrUnmapped = m.nrUnmapped) :
    ∃ b', Inv B tk m' b' ∧ b.SameSpaces b' ∧ b'.pte = update₂ b.pte d i (mapEntry f) ∧ m'.mem f = p := by
  have hkern : f ∈ (b.addKern f).kern := mem_insert_self _ _
  have hdata := h.data_kern hkern
  have htf : f ≠ b.tbl d := fun e => hdata.table d hd e.symm
  refine ⟨_, (h.setPage hdata).install hkern hd hleg hp hmem hr hmm hu
    (hs.books rfl rfl rfl), ⟨rfl, ?_, rfl⟩, rfl, ?_⟩
  · show (insert f b.kern).erase f = b.kern
    rw [erase_insert hk]
  · rw [hmem, update₂_of_ne_left htf, update_self]

/-- A page that was handed out and could not be filled goes back. -/
theorem giveBack :
    Kept B tk b (m.freePage (frameAddr f)) := by
  refine ⟨_, h.release (mem_insert_self _ _), rfl, ?_, rfl⟩
  show (insert f b.kern).erase f = b.kern
  rw [erase_insert hk]

/-- A page that could not be read back from its slot. -/
theorem swapIn_false
    (hr : m.swapInPage s f = (false, m₁)) : Kept B tk b (m₁.freePage (frameAddr f)) := by
  obtain ⟨p, e⟩ := swapInPage_false hr
  refine giveBack hk ?_
  rw [e]
  exact (h.setPage (h.data_kern (mem_insert_self _ _))).congr rfl rfl rfl
    (fun _ _ => rfl) rfl (fun _ _ => rfl) rfl

/-- A page read back from its slot takes the entry's place, and the slot is free. -/
theorem swapIn_true (hd : d ∈ b.live)
    (hlt : s < nrSwapSlots) (he : b.pte d i = swapEntry s)
    (hr : m.swapInPage s f = (true, m₁)) :
    Shape B (m₁.swapFreeSlot s) b ∧
    ∃ b', Inv B tk ((m₁.swapFreeSlot s).setWord (b.tbl d) i (mapEntry f)) b' ∧ b.SameSpaces b' ∧
      b'.pte = update₂ b.pte d i (mapEntry f) ∧
      ((m₁.swapFreeSlot s).setWord (b.tbl d) i (mapEntry f)).mem f = m.wentOut (b.tbl d) i := by
  obtain ⟨-, e⟩ := swapInPage_true hr
  have hkept : m.slotPage s = m.wentOut (b.tbl d) i := h.slots.kept hlt hd he
  have hmem : m₁.mem = update m.mem f (m.slotPage s) := by rw [e]
  have hdata := h.data_kern (mem_insert_self f b.kern)
  have hleg : UserPage i := h.entries.legal hd fun e' => by
    have hsw := congrArg swapped (he.symm.trans e')
    rw [swapped_swapEntry, swapped_zero] at hsw
    cases hsw
  rw [swapFreeSlot_of_lt hlt, ← hkept]
  refine ⟨Shape.books (h.shape.update hdata hmem) rfl rfl rfl,
    installPage hk h hd hleg (by rw [he, present_swapEntry]) ?_ ?_ ?_ ?_ ?_⟩
  · refine Slots.books (h.slots.clear hd hlt he (swapped_mapEntry f) ?_ ?_ ?_)
      rfl rfl rfl
    · rw [e]; rfl
    · exact slotPage_congr (by rw [e]; rfl)
    · rw [e]; rfl
  · show update₂ m₁.mem _ _ _ = _
    rw [hmem]
  · rw [e]; rfl
  · rw [e]; rfl
  · rw [e]; rfl

end

/-- A fault at a page that is out on the swap device. -/
theorem swapInFault (h : Inv B tk m b) (hd : d ∈ b.live) (hx : pdeIx va = userPdeIndex)
    (hlt : s < nrSwapSlots) (he : b.pte d (pteIx va) = swapEntry s) :
    Served B tk b d (pteIx va) (m.wentOut (b.tbl d) (pteIx va)) (swapInFault tk m d va s) := by
  unfold Linux001.swapInFault
  obtain ⟨m₁, b₁, h₁, hd₁, e₁ | ⟨f, e₁, hf₁, hi₁, hn₁⟩⟩ := h.getFreePage
  · simp only [e₁]
    exact ⟨⟨b₁, h₁, hd₁.spaces⟩, nofun⟩
  simp only [e₁]
  refine Served.of_spaces hd₁.spaces ?_
  have hl₁ : d ∈ b₁.live := hd₁.spaces.live ▸ hd
  have hk : f ∉ b₁.kern := fun hk => hn₁ _ (cells_kern hk)
  -- the entry is not present, so the reclaimer has left it and its slot alone
  obtain ⟨he₁, -, hw₁⟩ := hd₁.absent hd (by rw [he, present_swapEntry])
  rw [he] at he₁
  cases hr : (m₁.takeFrame f).swapInPage s f with
  | mk ok m₂ =>
    cases ok with
    | false => exact ⟨swapIn_false hk hi₁ hr, nofun⟩
    | true =>
      obtain ⟨hshape, b₂, h₂, hs₂, hp₂, hc₂⟩ := swapIn_true hk hi₁ hl₁ hlt he₁ hr
      simp only
      rw [hshape.mapUserPage hl₁ hx]
      refine .intro hl₁ h₂ hs₂ (by rw [hp₂, update₂_self]) (hc₂.trans ?_)
      show m₁.wentOut (b₁.tbl d) (pteIx va) = _
      rw [hd₁.spaces.tbl, hw₁]

/-- A fault at a page that has never been touched, or that the reclaimer has dropped. -/
protected theorem demandFault (fs : FsView) (h : Inv B tk m b) (hd : d ∈ b.live)
    (hx : pdeIx va = userPdeIndex) (hleg : UserPage (pteIx va)) (he : b.pte d (pteIx va) = 0#32) :
    Served B tk b d (pteIx va) (demandFill fs t va zeroPage) (demandFault fs tk t m d va) := by
  unfold demandFault
  obtain ⟨m₁, b₁, h₁, hd₁, e₁ | ⟨f, e₁, hf₁, hi₁, hn₁⟩⟩ := h.getFreePage
  · simp only [e₁]
    exact ⟨⟨b₁, h₁, hd₁.spaces⟩, nofun⟩
  simp only [e₁]
  refine Served.of_spaces hd₁.spaces ?_
  have hl₁ : d ∈ b₁.live := hd₁.spaces.live ▸ hd
  have hk : f ∉ b₁.kern := fun hk => hn₁ _ (cells_kern hk)
  have hdata := hi₁.data_kern (mem_insert_self _ _)
  obtain ⟨he₁, -, -⟩ := hd₁.absent hd (by rw [he, present_zero])
  rw [he] at he₁
  have hz : (m₁.takeFrame f).mem f = zeroPage := by simp [takeFrame]
  have hshape : Shape B ((m₁.takeFrame f).setPage f (demandFill fs t va zeroPage)) (b₁.addKern f) :=
    hi₁.shape.update hdata rfl
  rw [hz, hshape.mapUserPage hl₁ hx]
  have hslots : Slots (((m₁.takeFrame f).setPage f (demandFill fs t va zeroPage)).setWord (b₁.tbl d)
      (pteIx va) (mapEntry f)) (b₁.setPte d (pteIx va) (mapEntry f)) :=
    h₁.slots.set (by rw [he₁]; exact swapped_zero) (swapped_mapEntry f) rfl rfl rfl
  obtain ⟨b₂, h₂, hs₂, hp₂, hc₂⟩ := installPage hk hi₁ hl₁ hleg
    (by rw [he₁, present_zero]) hslots rfl rfl rfl rfl
  exact .intro hl₁ h₂ hs₂ (by rw [hp₂, update₂_self]) hc₂

/-- Nothing has been done and the task is killed. -/
theorem killed (h : Inv B tk m b) : Served B tk b d i p (false, m) :=
  ⟨⟨b, h, .refl b⟩, nofun⟩

/-- **`do_no_page`.**  For a fault the processor raised at this entry: either the task is killed,
or the address is one of the user window and its entry maps a page of its own with the contents
it had before, wherever those were. -/
protected theorem doNoPage (fs : FsView) (h : Inv B tk m b) (hd : t.pgDir = some d) (hl : d ∈ b.live)
    (herr : present err = false → pdeIx addr = userPdeIndex → present (b.pte d (pteIx addr)) = false) :
    Served B tk b d (pteIx addr) (viewPage fs t m (b.tbl d) (pteIx addr))
        (doNoPage fs tk t m err addr) ∧
      ((doNoPage fs tk t m err addr).1 = true → pdeIx addr = userPdeIndex) := by
  unfold doNoPage
  simp only [hd]
  by_cases hpe : present err = true
  · rw [if_pos hpe]
    by_cases hwe : writable err = true
    · rw [if_pos hwe]
      cases hs : m.pteSlot d addr with
      | none => exact ⟨h.killed, nofun⟩
      | some p =>
        obtain ⟨pt, i⟩ := p
        simp only
        by_cases hc : cow (m.mem pt i) = true
        · rw [if_pos hc]
          obtain ⟨hx, rfl, rfl⟩ := h.pteSlot_cow hl hs hc
          rw [h.mem_tbl hl] at hc
          have hp := (h.entries.entry hl (pteIx addr)).present_of_cow hc
          unfold viewPage
          rw [h.mem_tbl hl, if_pos hp]
          exact ⟨h.unWpPage hl hx hp hc, fun _ => hx⟩
        · rw [if_neg hc]
          exact ⟨h.killed, nofun⟩
    · rw [if_neg hwe]
      exact ⟨h.killed, nofun⟩
  · rw [if_neg hpe]
    by_cases ha : userAddrOk addr 1#32 = true
    · rw [if_pos ha]
      have hx := pdeIx_of_userAddrOk ha
      have hx' : pdeIx (pageBase addr) = userPdeIndex := by rw [pdeIx_pageBase, hx]
      have hp := herr (by simpa using hpe) hx
      refine ⟨?_, fun _ => hx⟩
      have hview : viewPage fs t m (b.tbl d) (pteIx addr) =
          if swapped (b.pte d (pteIx addr)) then m.wentOut (b.tbl d) (pteIx addr)
          else demandFill fs t (pageBase addr) zeroPage := by
        unfold viewPage
        rw [h.mem_tbl hl, hp, userVa_pteIx hx]
        simp
      rw [hview]
      unfold missingPage
      simp only [h.shape.pteSlot_user hl hx', pteIx_pageBase, h.mem_tbl hl]
      by_cases hs : swapped (b.pte d (pteIx addr)) = true
      · rw [if_pos hs, if_pos ⟨hs, hp⟩]
        obtain ⟨s, hlt, he, -⟩ := (h.entries.entry hl (pteIx addr)).of_swapped hp hs
        rw [he, swapSlot_swapEntry hlt]
        have := h.swapInFault hl hx' hlt (by rw [pteIx_pageBase, he])
        rwa [pteIx_pageBase] at this
      · rw [if_neg hs, if_neg fun h => hs h.1]
        have he := (h.entries.entry hl (pteIx addr)).of_absent hp (by simpa using hs)
        have := h.demandFault fs (t := t) hl hx'
          (by rw [pteIx_pageBase]; exact userPage_pteIx ha) (by rw [pteIx_pageBase, he])
        rwa [pteIx_pageBase] at this
    · rw [if_neg ha]
      exact ⟨h.killed, nofun⟩

end Inv

/-! ### The processor's accesses -/

theorem present_faultCode (p w u : Bool) : present (faultCode p w u) = p := by
  cases p <;> cases w <;> cases u <;> decide

namespace Inv

/-- The processor's walk through a user directory. -/
theorem walk_user (wp write user : Bool) (h : Inv B tk m b) (hl : d ∈ b.live)
    (hx : pdeIx addr = userPdeIndex) :
    m.walk wp d addr write user = if present (b.pte d (pteIx addr)) then
        if write ∧ (user ∨ wp) ∧ ¬ writable (b.pte d (pteIx addr)) then
          .error (faultCode true write user)
        else .ok (b.tbl d, pteIx addr)
      else .error (faultCode false write user) := by
  unfold Mm.walk
  simp only [h.shape.dir hl, hx, update_self, present_mapEntry, userBit_mapEntry,
    writable_mapEntry, frameOf_mapEntry, if_true, h.mem_tbl hl, true_and]
  by_cases hp : present (b.pte d (pteIx addr)) = true
  · simp [hp, (h.mapped hl hp).user]
  · simp [hp]

/-- Outside the user window a Ring3 access faults. -/
theorem walk_kernel (wp write : Bool) (h : Inv B tk m b) (hl : d ∈ b.live)
    (hx : pdeIx addr ≠ userPdeIndex) : ∃ err, m.walk wp d addr write true = .error err := by
  have hu : ∀ j, userBit (kernelPde j) = false := fun j => by
    unfold kernelPde kernelEntry
    split <;> simp [userBit_eq, ptePresent, pteRw, frameAddr]
  unfold Mm.walk
  simp only [h.shape.dir hl, update_of_ne hx, hu]
  split
  · split
    · exact ⟨_, if_pos (by simp)⟩
    · exact ⟨_, rfl⟩
  · exact ⟨_, rfl⟩

section
variable (h : Inv B tk m b) (hl : d ∈ b.live) {wp write user : Bool}
include h hl

/-- The access itself: the entry's Accessed and Dirty bits, and on a store one byte of a user
page. -/
theorem perform (hp : present (b.pte d i) = true)
    (a : Access) : Kept B tk b (m.perform (b.tbl d) i a).2 := by
  cases a with
  | load addr =>
    simp only [Mm.perform, h.mem_tbl hl]
    exact ⟨_, h.retag hl hp (sameEntry_access _), rfl, rfl, rfl⟩
  | store addr v =>
    simp only [Mm.perform, h.mem_tbl hl]
    have h₁ := h.retag hl hp ((sameEntry_access (b.pte d i)).trans (sameEntry_dirty _))
    exact ⟨_, h₁.setPage (h₁.data_hold (h.hold_eq hl hp)), rfl, rfl, rfl⟩

/-- The walk has found an entry. -/
theorem walk_ok {r : Frame × Ix}
    (hu : user = true ∨ pdeIx addr = userPdeIndex) (hw : m.walk wp d addr write user = .ok r) :
    r = (b.tbl d, pteIx addr) ∧ present (b.pte d (pteIx addr)) = true := by
  have hx : pdeIx addr = userPdeIndex := by
    by_contra hx
    obtain rfl := hu.resolve_right hx
    obtain ⟨err, he⟩ := h.walk_kernel wp write hl hx
    rw [he] at hw
    cases hw
  rw [h.walk_user wp write user hl hx] at hw
  split at hw
  · next hp =>
    split at hw
    · cases hw
    · exact ⟨by simpa using hw.symm, hp⟩
  · cases hw

/-- The error code says whether the entry was there. -/
theorem walk_error
    (hw : m.walk wp d addr write user = .error err) (he : present err = false)
    (hx : pdeIx addr = userPdeIndex) : present (b.pte d (pteIx addr)) = false := by
  rw [h.walk_user wp write user hl hx] at hw
  split at hw
  · split at hw
    · obtain rfl : faultCode true write user = err := by simpa using hw
      rw [present_faultCode] at he
      cases he
    · cases hw
  · next hp => simpa using hp

omit h hl in
/-- **A load or a store**, with the faults it takes. -/
protected theorem cpuAccess {wp user : Bool} {a : Access} (fs : FsView) (h : Inv B tk m b)
    (hd : t.pgDir = some d) (hl : d ∈ b.live)
    (hu : user = true ∨ pdeIx a.addr = userPdeIndex) (k : ℕ) :
    Kept B tk b (cpuAccess fs tk t wp user a k m).2 := by
  induction k generalizing m b with
  | zero => exact ⟨b, h, .refl b⟩
  | succ k ih =>
    simp only [cpuAccess, hd]
    cases hw : m.walk wp d a.addr a.write user with
    | ok r =>
      obtain ⟨rfl, hp⟩ := h.walk_ok hl hu hw
      exact h.perform hl hp a
    | error err =>
      obtain ⟨⟨⟨b₁, h₁, hs₁⟩, -⟩, -⟩ := h.doNoPage fs hd hl (h.walk_error hl hw)
      simp only
      cases hr : doNoPage fs tk t m err a.addr with
      | mk ok m₁ =>
        rw [hr] at h₁
        cases ok with
        | false => exact ⟨b₁, h₁, hs₁⟩
        | true =>
          obtain ⟨b₂, h₂, hs₂⟩ := ih h₁ (hs₁.live ▸ hl)
          exact ⟨b₂, h₂, hs₁.trans hs₂⟩

/-! ### Copying an address space -/

/-- A swapped page that fork meets is brought back. -/
protected theorem copySwapIn (hlt : s < nrSwapSlots)
    (he : b.pte d i = swapEntry s) :
    (∃ m', copySwapIn tk m (b.tbl d) i = (none, m') ∧ Kept B tk b m') ∨
    (∃ m' b', copySwapIn tk m (b.tbl d) i = (some (), m') ∧ Inv B tk m' b' ∧ b.SameSpaces b' ∧
      present (b'.pte d i) = true ∧ m'.mem (frameOf (b'.pte d i)) = m.wentOut (b.tbl d) i ∧
      m.nrUnmapped ≤ m'.nrUnmapped ∧
      ∀ {d' i'}, d' ∈ b.live → ¬ (d' = d ∧ i' = i) → (present (b.pte d' i') = false → b'.pte d' i' = b.pte d' i' ∧
          m'.wentOut (b.tbl d') i' = m.wentOut (b.tbl d') i') ∧
        ∀ {u p}, u ≤ m.nrUnmapped → Back u m b d' i' p → Back u m' b' d' i' p) := by
  unfold copySwapIn
  rw [h.mem_tbl hl, he, swapSlot_swapEntry hlt]
  obtain ⟨m₁, b₁, h₁, hd₁, e₁ | ⟨f, e₁, hf₁, hi₁, hn₁⟩⟩ := h.getFreePage
  · exact .inl ⟨m₁, by simp only [e₁], b₁, h₁, hd₁.spaces⟩
  simp only [e₁]
  have hl₁ : d ∈ b₁.live := hd₁.spaces.live ▸ hl
  have hk : f ∉ b₁.kern := fun hk => hn₁ _ (cells_kern hk)
  have ht₁ : b₁.tbl d = b.tbl d := by rw [hd₁.spaces.tbl]
  obtain ⟨he₁, -, hw₁⟩ := hd₁.absent hl (by rw [he, present_swapEntry])
  rw [he] at he₁
  cases hr : (m₁.takeFrame f).swapInPage s f with
  | mk ok m₂ =>
    cases ok with
    | false =>
      obtain ⟨b₃, h₃, hs₃⟩ := swapIn_false hk hi₁ hr
      exact .inl ⟨_, rfl, b₃, h₃, hd₁.spaces.trans hs₃⟩
    | true =>
      obtain ⟨-, b₂, h₂, hs₂, hp₂, hc₂⟩ := swapIn_true hk hi₁ hl₁ hlt he₁ hr
      rw [ht₁] at h₂ hc₂
      have hp : b₂.pte d i = mapEntry f := by rw [hp₂, update₂_self]
      obtain ⟨-, e₂⟩ := swapInPage_true hr
      have hcore : ((m₂.swapFreeSlot s).setWord (b.tbl d) i (mapEntry f)).wentOut = m₁.wentOut ∧
          ((m₂.swapFreeSlot s).setWord (b.tbl d) i (mapEntry f)).nrUnmapped = m₁.nrUnmapped := by
        rw [swapFreeSlot_of_lt hlt, e₂]
        exact ⟨rfl, rfl⟩
      have hmem : ∀ g, g ≠ f → g ≠ b.tbl d →
          ((m₂.swapFreeSlot s).setWord (b.tbl d) i (mapEntry f)).mem g = m₁.mem g := fun g hg ht => by
        rw [setWord_of_ne ht, swapFreeSlot_of_lt hlt, e₂]
        show update (update m₁.mem f zeroPage) f _ g = m₁.mem g
        rw [update_of_ne hg, update_of_ne hg]
      refine .inr ⟨_, b₂, rfl, h₂, hd₁.spaces.trans hs₂, by rw [hp, present_mapEntry], ?_,
        by rw [hcore.2]; exact hd₁.unmapped, fun {d' i'} hl' e => ⟨fun hp' => ?_, fun {u p} hu hb => ?_⟩⟩
      · rw [hp, frameOf_mapEntry, hc₂, ← hw₁]
        rfl
      · obtain ⟨he', -, hw'⟩ := hd₁.absent hl' hp'
        rw [hp₂, update₂_of_ne e, hcore.1]
        exact ⟨he', hw'⟩
      · -- a page in memory is neither the fresh frame nor the table
        have hl₁' : d' ∈ b₁.live := hd₁.spaces.live ▸ hl'
        refine (hb.drift h hl' hd₁ hu).congr (by rw [hp₂, update₂_of_ne e]) (fun hp' => ?_)
          (by rw [hcore.2])
        have hold := h₁.hold_eq hl₁' hp'
        refine hmem _ (fun e' => hn₁ (.pte d' i') (e' ▸ hold)) fun e' => ?_
        exact (h₁.data_hold hold).table d hl₁ (by rw [ht₁, e'])

end

/-- What holds before the copy of entry `k` of `d`: the rest of the new table is still empty, the
swapped pages that are still to come are where they were in `m₀`, and the others are back, on
both sides. -/
def CopyInv (B : Boot) (tk : TaskTable) (m₀ : Mm) (b : Books) (d d' : Frame) (k : ℕ) (s : ℕ × Mm) :
    Prop :=
  ∃ b', Inv B tk s.2 b' ∧ b.SameSpaces b' ∧ (∀ j : Ix, k ≤ j.val → b'.pte d' j = 0#32) ∧
    m₀.nrUnmapped ≤ s.2.nrUnmapped ∧
    ∀ j : Ix, present (b.pte d j) = false → swapped (b.pte d j) = true →
      (k ≤ j.val → b'.pte d j = b.pte d j ∧ s.2.wentOut (b.tbl d) j = m₀.wentOut (b.tbl d) j) ∧
      (j.val < k → Back m₀.nrUnmapped s.2 b' d j (m₀.wentOut (b.tbl d) j) ∧
        Back m₀.nrUnmapped s.2 b' d' j (m₀.wentOut (b.tbl d) j))

/-- The second half of the loop's body. -/
protected theorem copyShare {n : ℕ} {m₀ : Mm} (h : Inv B tk m b') (hs : b.SameSpaces b') (hd : d ∈ b.live)
    (hd' : d' ∈ b.live) (e : d' ≠ d) (hz : ∀ j : Ix, i.val ≤ j.val → b'.pte d' j = 0#32)
    (hu : m₀.nrUnmapped ≤ m.nrUnmapped)
    (hback : ∀ j : Ix, present (b.pte d j) = false → swapped (b.pte d j) = true →
      (i.val < j.val → b'.pte d j = b.pte d j ∧ m.wentOut (b.tbl d) j = m₀.wentOut (b.tbl d) j) ∧
      (j.val < i.val → Back m₀.nrUnmapped m b' d j (m₀.wentOut (b.tbl d) j) ∧
        Back m₀.nrUnmapped m b' d' j (m₀.wentOut (b.tbl d) j)) ∧
      (j = i → present (b'.pte d i) = true ∧ m.mem (frameOf (b'.pte d i)) = m₀.wentOut (b.tbl d) i)) :
    CopyInv B tk m₀ b d d' (i.val + 1) (copyShare (b.tbl d) (b.tbl d') (n, m) i) := by
  have hl : d ∈ b'.live := hs.live ▸ hd
  have hl' : d' ∈ b'.live := hs.live ▸ hd'
  have hi := hz i (Nat.le_refl _)
  unfold copyShare
  rw [← hs.tbl, h.mem_tbl hl]
  split
  · next hp =>
    -- the memory that the two new entries leave alone
    have hmem : ∀ {d₁ j}, d₁ ∈ b'.live → present (b'.pte d₁ j) = true →
        (m.shareEntry (b'.tbl d) (b'.tbl d') i).mem (frameOf (b'.pte d₁ j)) =
          m.mem (frameOf (b'.pte d₁ j)) := fun {d₁ j} hl₁ hp₁ => by
      have hdata := h.data_hold (h.hold_eq hl₁ hp₁)
      unfold Mm.shareEntry
      rw [setWord_of_ne (hdata.table d' hl').symm, setWord_of_ne (hdata.table d hl).symm, sharePage_eq]
    have hcore : (m.shareEntry (b'.tbl d) (b'.tbl d') i).wentOut = m.wentOut ∧
        (m.shareEntry (b'.tbl d) (b'.tbl d') i).nrUnmapped = m.nrUnmapped := by
      simp only [Mm.shareEntry, Mm.sharePage_eq]
      exact ⟨rfl, rfl⟩
    have hne : ∀ {d₁ : Frame} {j : Ix}, j ≠ i →
        update₂ (update₂ b'.pte d i (cowEntry (b'.pte d i))) d' i (cowEntry (b'.pte d i)) d₁ j =
          b'.pte d₁ j := fun hj => by
      rw [update₂_of_ne fun h => hj h.2, update₂_of_ne fun h => hj h.2]
    refine ⟨_, h.shareEntry hl hl' e hp (by rw [hi, present_zero]) (by rw [hi]; exact swapped_zero),
      hs.trans ⟨rfl, rfl, rfl⟩, fun j hj => ?_, hcore.2 ▸ hu, fun j hp₀ hs₀ => ?_⟩
    · exact (hne fun h => by subst h; omega).trans (hz j (by omega))
    obtain ⟨hlater, hearlier, hnow⟩ := hback j hp₀ hs₀
    refine ⟨fun hj => ?_, fun hj => ?_⟩
    · obtain ⟨h₁, h₂⟩ := hlater (by omega)
      exact ⟨(hne fun h => by subst h; omega).trans h₁, by rw [hcore.1]; exact h₂⟩
    by_cases hji : j = i
    · subst hji
      obtain ⟨-, hw⟩ := hnow rfl
      have hw' := (hmem hl hp).trans hw
      have hnew : ∀ {b₁ : Books} {d₁ : Frame}, b₁.pte d₁ j = cowEntry (b'.pte d j) →
          Back m₀.nrUnmapped (m.shareEntry (b'.tbl d) (b'.tbl d') j) b₁ d₁ j
            (m₀.wentOut (b'.tbl d) j) := fun he => .inl (by
        rw [he, present_cowEntry, cow_cowEntry, frameOf_cowEntry]
        exact ⟨hp, rfl, by rw [hw', hs.tbl]⟩)
      rw [← hs.tbl]
      refine ⟨hnew ?_, hnew update₂_self⟩
      show update₂ (update₂ b'.pte d j _) d' j _ d j = _
      rw [update₂_of_ne fun h => e h.1.symm, update₂_self]
    · have hlt : j.val < i.val := by
        have : j.val ≠ i.val := fun h => hji (Fin.ext h)
        omega
      obtain ⟨h₁, h₂⟩ := hearlier hlt
      exact ⟨h₁.congr (hne hji) (fun hp₁ => hmem hl hp₁) hcore.2.ge,
        h₂.congr (hne hji) (fun hp₁ => hmem hl' hp₁) hcore.2.ge⟩
  · next hp =>
    refine ⟨b', h, hs, fun j hj => hz j (by omega), hu, fun j hp₀ hs₀ => ?_⟩
    obtain ⟨hlater, hearlier, hnow⟩ := hback j hp₀ hs₀
    refine ⟨fun hj => hlater (by omega), fun hj => hearlier ?_⟩
    have hji : j ≠ i := fun hji => hp (hnow hji).1
    have : j.val ≠ i.val := fun h => hji (Fin.ext h)
    omega

/-- One entry of a fork. -/
protected theorem copyEntry {s : ℕ × Mm} {m₀ : Mm} (hd : d ∈ b.live) (hd' : d' ∈ b.live) (e : d' ≠ d)
    (h : CopyInv B tk m₀ b d d' i.val s) :
    Loop.Sat (CopyInv B tk m₀ b d d' (i.val + 1)) (Kept B tk b)
      (copyEntry tk (b.tbl d) (b.tbl d') s i) := by
  obtain ⟨n, m⟩ := s
  obtain ⟨b', h, hs, hz, hu, hback⟩ := h
  have hl : d ∈ b'.live := hs.live ▸ hd
  have hl' : d' ∈ b'.live := hs.live ▸ hd'
  have hw : m.mem (b.tbl d) i = b'.pte d i := by rw [← hs.tbl, h.mem_tbl hl]
  simp only [copyEntry, hw]
  split
  · next hsw =>
    obtain ⟨slot, hlt, he, -⟩ := (h.entries.entry hl i).of_swapped hsw.1 hsw.2
    rcases h.copySwapIn hl hlt he with
      ⟨m₁, e₁, b₁, h₁, hs₁⟩ | ⟨m₁, b₁, e₁, h₁, hs₁, hp₁, hw₁, hu₁, hkeep⟩
    · rw [hs.tbl] at e₁
      simp only [e₁]
      exact .error ⟨b₁, h₁, hs.trans hs₁⟩
    rw [hs.tbl] at e₁ hw₁
    simp only [e₁]
    refine .ok (h₁.copyShare (hs.trans hs₁) hd hd' e (fun j hj => ?_) (hu.trans hu₁) fun j hp₀ hs₀ => ?_)
    · rw [((hkeep hl' fun h => e h.1).1 (by rw [hz j hj, present_zero])).1, hz j hj]
    obtain ⟨hlater, hearlier⟩ := hback j hp₀ hs₀
    refine ⟨fun hj => ?_, fun hj => ?_, fun hj => ?_⟩
    · obtain ⟨h₂, h₃⟩ := hlater (by omega)
      have hne : ¬ (d = d ∧ j = i) := fun h => by have := congrArg Fin.val h.2; omega
      obtain ⟨h₄, h₅⟩ := (hkeep hl hne).1 (by rw [h₂, hp₀])
      rw [hs.tbl] at h₅
      exact ⟨h₄.trans h₂, h₅.trans h₃⟩
    · obtain ⟨h₂, h₃⟩ := hearlier hj
      have hne : ∀ {d₁ : Frame}, ¬ (d₁ = d ∧ j = i) := fun h => by
        have := congrArg Fin.val h.2
        omega
      exact ⟨(hkeep hl hne).2 hu h₂, (hkeep hl' hne).2 hu h₃⟩
    · subst hj
      exact ⟨hp₁, hw₁.trans (hlater (Nat.le_refl _)).2⟩
  · next hsw =>
    refine .ok (h.copyShare hs hd hd' e hz hu fun j hp₀ hs₀ => ?_)
    obtain ⟨hlater, hearlier⟩ := hback j hp₀ hs₀
    refine ⟨fun hj => hlater (by omega), hearlier, fun hj => ?_⟩
    subst hj
    exact absurd (by rw [(hlater (Nat.le_refl _)).1]; exact ⟨hp₀, hs₀⟩) hsw

section
variable (h : Inv B tk m b) (hd : d ∈ b.live) (hd' : d' ∈ b.live)
include h hd hd'

/-- The loop of `copy_page_tables` into a fresh directory. -/
theorem copyLoop (e : d' ≠ d)
    (hz : ∀ i, b.pte d' i = 0#32) :
    Loop.Sat (CopyInv B tk m b d d' 1024) (Kept B tk b)
      ((List.finRange 1024).foldlM (copyEntry tk (b.tbl d) (b.tbl d')) (0, m)) :=
  Loop.foldlM_finRange
    ⟨b, h, .refl b, fun j _ => hz j, Nat.le_refl _, fun _ _ _ => ⟨fun _ => ⟨rfl, rfl⟩,
      fun hj => absurd hj (Nat.not_lt_zero _)⟩⟩
    fun _ _ hs => Inv.copyEntry hd hd' e hs

/-- **`copy_page_tables`** into a fresh directory. -/
protected theorem copyPageTables (e : d' ≠ d)
    (hz : ∀ i, b.pte d' i = 0#32) : Kept B tk b (copyPageTables tk m d d').2 := by
  unfold copyPageTables
  simp only [h.userPt_eq hd, h.userPt_eq hd']
  have hl := copyLoop h hd hd' e hz
  generalize (List.finRange 1024).foldlM (copyEntry tk (b.tbl d) (b.tbl d')) (0, m) = r
    at hl
  cases hl with
  | error h => exact h
  | ok h =>
    obtain ⟨b', h', hs, -⟩ := h
    exact ⟨b', h', hs⟩

end

/-! ### Tearing down an address space -/

/-- **`free_user_space`.**  Nothing of the space is left, and the rest is as it was. -/
protected theorem freeUserSpace {tk' : TaskTable} (h : Inv B tk m b) (hd : d ∈ b.live)
    (ht : ∀ {n t d'}, tk' n = some t → t.pgDir = some d' → d' ∈ b.live.erase d) :
    ∃ b', Inv B tk' (freeUserSpace m d) b' ∧ b'.live = b.live.erase d ∧ b'.kern = b.kern := by
  have hl := Loop.foldl_finRange (f := freeEntry (b.tbl d))
    (J := fun k m' => ∃ b', Inv B tk m' b' ∧ b.SameSpaces b' ∧
      ∀ j : Ix, j.val < k → b'.pte d j = 0#32 ∧ b'.hold d j = none)
    ⟨b, h, .refl b, fun j hj => absurd hj (Nat.not_lt_zero _)⟩ fun i m' => ?_
  · obtain ⟨b', h', hs, hz⟩ := hl
    have hd' : d ∈ b'.live := hs.live ▸ hd
    refine ⟨b'.dropDir d, ?_, by rw [← hs.live]; rfl, hs.kern⟩
    unfold freeUserSpace freePageTables
    simp only [h.userPt_eq hd]
    generalize (List.finRange 1024).foldl (freeEntry (b.tbl d)) m = m₁ at h'
    have e : ((m₁.freePage (frameAddr (b.tbl d))).setWord d userPdeIndex 0#32).freePage
        (frameAddr d) = (((m₁.freePage (frameAddr (b.tbl d))).freePage (frameAddr d)).setWord d
          userPdeIndex 0#32) := freePage_setWord _
    rw [e]
    refine h'.dropDir hd' (fun i => (hz i i.isLt).1) (fun i => (hz i i.isLt).2) ?_ ?_ ?_ ?_ ?_ ?_ ?_ ?_
    · rw [hs.live]; exact ht
    · simp [setWord]
    · simp [setWord]
    · rw [hs.tbl]; rfl
    · simp [setWord]
    · simp [setWord]
    · exact slotPage_congr (by simp [setWord])
    · simp [setWord]
  · rintro ⟨b', h', hs, hz⟩
    obtain ⟨b'', h'', hs', hp, hh⟩ := h'.freeEntry (hs.live ▸ hd)
    rw [hs.tbl] at h''
    refine ⟨b'', h'', hs.trans hs', fun j hj => ?_⟩
    rw [hp, hh]
    by_cases e : j = i
    · subst e; simp
    have hne : j.val ≠ i.val := fun h => e (Fin.ext h)
    rw [update₂_of_ne_right e, update₂_of_ne_right e]
    exact hz j (by omega)

end Inv

end Linux001

import Dreamos64.Mem.VmmTables

/-!
# Dreamos64 — what is behind the memory that `vmm_alloc` hands out

A call of `vmm_alloc` on the tables of a root that is in order. The range is recorded first;
then each of its pages gets the next frame and whatever tables its way needs, and neither the
frame nor the mapper's answer is looked at.

* `VmmTables.run_enough`     — with enough frames, every page of the range is backed in turn;
* `leaf_flags_iff`           — the entries are the frame and the flags of the hardware, unless
  `VMM_FLAGS_STACK` is among the flags: nothing takes it out;
* `vmm_alloc_backs_iff`      — a call that returns memory has put frames of its own behind it
  exactly if there were frames enough and no page was mapped before; without frames it only
  fails when it needs a container first.
-/

namespace Dreamos64

open Machine TableTree

namespace VmmTables

/-! ## The pages of a call -/

/-- The pages that `size` bytes take up. -/
def pagesOf (m : PageMode) (size : Nat) : Nat := (size + pageSizeInBytes m - 1) / pageSizeInBytes m

/-- Where the range of the next call begins. -/
def start (s : VmmTables) : Nat := s.vmm.info.nextAvailableAddress

/-- Page `i` of the range of the next call. -/
def page (m : PageMode) (s : VmmTables) (i : Nat) : Nat :=
  (s.start + i * pageSizeInBytes m) % 2 ^ 64

/-- The pages that a call has to back, with their flags: that of another container, if it needs
one, and those of its range. -/
def backs (m : PageMode) (s : VmmTables) (size flags : Nat) : List (Nat × Nat) :=
  s.containerPages m ++ rangePages m s.start (archFlags s.start flags) (pagesOf m size)

/-- The frames that a call takes. -/
def needs (m : PageMode) (s : VmmTables) (r size : Nat) : Nat :=
  if size = 0 then 0 else framesNeeded m s.vm r ((s.backs m size 0).map Prod.fst)

/-- The frame that is due for page `i` of the range. -/
def pageFrame (m : PageMode) (s : VmmTables) (r size i : Nat) : Nat :=
  s.vm.freeTables.getD (framesNeeded m s.vm r
    (((s.backs m size 0).map Prod.fst).take ((s.containerPages m).length + i))) 0

/-- A manager on a root that is in order. The frames of the supply are pages, and 0 is none of
them. -/
structure Ready (m : PageMode) (s : VmmTables) (r : Nat) : Prop where
  root    : RootOk m s.vm r
  pointer : s.vmm.info.rootTableHhdm.or s.vm.hhdmPageRootAddress = tablePtr m r
  items   : s.vmm.info.vmmItemsPerPage = vmmRootLength m
  aligned : s.start % pageSizeInBytes m = 0
  frames  : ∀ t ∈ s.vm.freeTables, t ≠ 0 ∧ t % pageSizeInBytes m = 0

/-- The pages of a call lie outside of the root's entry 510, and a new container is not put
into the range. -/
structure Placed (m : PageMode) (s : VmmTables) (size : Nat) : Prop where
  container : ∀ p ∈ s.containerPages m, indexAt p.1 0 ≠ 510 ∧
    ∀ i < pagesOf m size, ¬ SamePage m (s.page m i) p.1
  range     : ∀ i < pagesOf m size, indexAt (s.page m i) 0 ≠ 510

section Pages

variable {m : PageMode} {s : VmmTables} {r size flags i j : Nat}

theorem map_rangePages (address fl n : Nat) :
    (rangePages m address fl n).map Prod.fst =
      (List.range n).map fun i => (address + i * pageSizeInBytes m) % 2 ^ 64 := by
  rw [rangePages, List.map_map]
  rfl

/-- How many frames a call takes does not depend on its flags. -/
theorem map_backs (flags : Nat) :
    (s.backs m size flags).map Prod.fst = (s.backs m size 0).map Prod.fst := by
  rw [backs, backs, List.map_append, List.map_append, map_rangePages, map_rangePages]

theorem length_backs (m : PageMode) (s : VmmTables) (size flags : Nat) :
    (s.backs m size flags).length = (s.containerPages m).length + pagesOf m size := by
  rw [backs, List.length_append, rangePages, List.length_map, List.length_range]

/-- The entry of the list for page `i` of the range. -/
theorem backs_page (hi : i < pagesOf m size) :
    (s.backs m size flags)[(s.containerPages m).length + i]? =
      some (s.page m i, archFlags s.start flags) := by
  rw [backs, List.getElem?_append_right (Nat.le_add_right _ _), Nat.add_sub_cancel_left, rangePages,
    List.getElem?_map, List.getElem?_range hi]
  rfl

theorem pagesOf_pos (hsize : size ≠ 0) : 0 < pagesOf m size := by
  unfold pagesOf
  cases m <;> simp only [pageSizeInBytes] <;> omega

theorem Ready.null (h : s.Ready m r) : 0 ∉ s.vm.freeTables := fun hmem => (h.frames 0 hmem).1 rfl

/-- There are at most as many frames as fit below the limit. -/
theorem Ready.supply_le (h : s.Ready m r) :
    s.vm.freeTables.length ≤ 2 ^ 40 / pageSizeInBytes m := by
  have hbelow : ∀ t ∈ s.vm.freeTables, t < 2 ^ 40 := fun t ht =>
    Nat.lt_of_lt_of_le (h.root.below.supply t ht) h.root.below.limit
  have hpos := pageSizeInBytes_pos m
  -- frames are whole pages, so their numbers are different too
  have hinj : Set.InjOn (· / pageSizeInBytes m) (s.vm.freeTables.toFinset : Set Nat) := by
    intro t ht u hu heq
    have ht' := (h.frames t (by simpa using ht)).2
    have hu' := (h.frames u (by simpa using hu)).2
    have heq' : t / pageSizeInBytes m = u / pageSizeInBytes m := heq
    rw [← Nat.div_add_mod t (pageSizeInBytes m), ← Nat.div_add_mod u (pageSizeInBytes m), ht', hu',
      heq']
  have hsub : s.vm.freeTables.toFinset.image (· / pageSizeInBytes m) ⊆
      Finset.range (2 ^ 40 / pageSizeInBytes m) := by
    intro k hk
    obtain ⟨t, ht, rfl⟩ := Finset.mem_image.mp hk
    have hlt := hbelow t (List.mem_toFinset.mp ht)
    have hpage := (h.frames t (List.mem_toFinset.mp ht)).2
    rw [Finset.mem_range]
    cases m <;> simp only [pageSizeInBytes] at hpage ⊢ <;> omega
  have hcard := Finset.card_le_card hsub
  rwa [Finset.card_image_of_injOn hinj, Finset.card_range,
    List.toFinset_card_of_nodup h.root.tables.nodup] at hcard

/-- Counting the pages of a small range does not wrap. -/
theorem pagesOf_eq (hsmall : pagesOf m size ≤ 2 ^ 40 / pageSizeInBytes m) :
    getNumberOfPagesFromSize m size = pagesOf m size := by
  unfold getNumberOfPagesFromSize alignValueToPage
  unfold pagesOf at hsmall ⊢
  rw [Nat.mul_div_cancel _ (pageSizeInBytes_pos m)]
  cases m <;> simp only [pageSizeInBytes] at hsmall ⊢ <;> omega

/-- And its pages are different ones. -/
theorem page_inj (hsmall : pagesOf m size ≤ 2 ^ 40 / pageSizeInBytes m)
    (haligned : s.start % pageSizeInBytes m = 0) (hi : i < pagesOf m size)
    (hj : j < pagesOf m size) (hsame : SamePage m (s.page m i) (s.page m j)) : i = j := by
  rw [samePage_iff, page, page] at hsame
  generalize s.start = a at haligned hsame
  generalize pagesOf m size = n at hsmall hi hj
  cases m <;> simp only [pageSizeInBytes] at hsmall haligned hsame <;> omega

/-- The bytes of a page. -/
theorem samePage_page (haligned : s.start % pageSizeInBytes m = 0) {offset : Nat}
    (hoffset : offset < pageSizeInBytes m) (i : Nat) :
    SamePage m (s.page m i + offset) (s.page m i) ∧
      (s.page m i + offset) % pageSizeInBytes m = offset := by
  rw [samePage_iff, page]
  generalize s.start = a at haligned
  cases m <;> simp only [pageSizeInBytes] at haligned hoffset ⊢ <;> omega

end Pages

/-! ## A call with enough frames -/

section Enough

variable {m : PageMode} {s s' : VmmTables} {r size flags i j : Nat}

theorem archFlags_present (address flags : Nat) : archFlags address flags % 2 = 1 := by
  have hbit : (archFlags address flags).testBit 0 = true := by
    simp [archFlags, vmmFlagsPresent, vmmFlagsWriteEnable]
  rwa [Nat.testBit_zero, decide_eq_true_iff] at hbit

/-- Flags without address bits get to the mapper without any. -/
theorem hwFrame_archFlags (address : Nat) (hflags : hwFrame flags = 0) :
    hwFrame (archFlags address flags) = 0 := by
  have hpresent : hwFrame vmmFlagsPresent = 0 := rfl
  have hwrite : hwFrame vmmFlagsWriteEnable = 0 := rfl
  rw [archFlags, hwFrame_or, hwFrame_or, vmParseFlags, hwFrame_and,
    hwFrame_userFlags address hflags, hpresent, hwrite, Nat.zero_and, Nat.or_zero, Nat.or_zero]

theorem containerPages_present {p : Nat × Nat} (hp : p ∈ s.containerPages m) : p.2 % 2 = 1 := by
  unfold containerPages at hp
  split_ifs at hp
  · rw [List.mem_singleton.mp hp]
    show (vmmFlagsPresent ||| vmmFlagsWriteEnable) % 2 = 1
    decide
  · exact absurd hp List.not_mem_nil

/-- The first address of a page, and all others in it, are outside of entry 510. -/
theorem root_of_samePage {a va : Nat} (h : SamePage m a va) (hva : indexAt va 0 ≠ 510) :
    indexAt a 0 ≠ 510 := by
  have hdepth : 0 < pageDepth m := by cases m <;> decide
  rw [(pathTo_initial h.1 0 hdepth).2]
  exact hva

/-- A page with such an entry leads to its frame. -/
theorem physicalOf_leaf {vm : Vm} {a va fl frame : Nat} (h : RootOk m vm r)
    (hva : indexAt va 0 ≠ 510) (hsame : SamePage m a va) (hpresent : fl % 2 = 1)
    (hflags : hwFrame fl = 0) (haligned : frame % pageSizeInBytes m = 0) (hframe : frame < 2 ^ 52)
    (hleaf : vm.pageSlot m r va = pageValue m frame va fl) :
    physicalOf vm r a = some (frame + a % pageSizeInBytes m) := by
  have ha := root_of_samePage hsame hva
  have hslot : vm.pageSlot m r a = pageValue m frame va fl := by rw [hsame.pageSlot_eq, hleaf]
  have hvalue : pageValue m frame va fl % 2 = 1 := pageValue_present _ _ hpresent
  have hpage : TaskPage m vm r a := by
    refine ⟨h.below.limit, ?_, fun d hd n hn => ?_, by rw [hslot, hvalue], ?_⟩
    -- a slot below no table reads as 0, and this one is present
    · rw [Option.isSome_iff_ne_none]
      intro hnone
      have hzero : vm.pageSlot m r a = 0 := slot_of_none hnone
      rw [hslot] at hzero
      rw [hzero] at hvalue
      exact absurd hvalue (by decide)
    · exact h.below.tables n ⟨_, tablePath_pathTo (hd.trans (pageDepth_le m)) ha, hn⟩
    · rintro rfl
      rw [hslot]
      exact pageValue_huge _ _ _
  rw [hpage.physicalOf_eq, hslot, pageByte_pageValue haligned hframe hflags]

/-- A later page is due a later frame. -/
theorem framesNeeded_page_lt (hij : i < j) (hj : j ≤ pagesOf m size) :
    framesNeeded m s.vm r
        (((s.backs m size 0).map Prod.fst).take ((s.containerPages m).length + i)) <
      framesNeeded m s.vm r
        (((s.backs m size 0).map Prod.fst).take ((s.containerPages m).length + j)) := by
  refine framesNeeded_take_lt m s.vm r _ (Nat.add_lt_add_left hij _) ?_
  rw [List.length_map, length_backs]
  exact Nat.add_le_add_left hj _

variable (hsize : size ≠ 0) (henough : s.needs m r size ≤ s.vm.freeTables.length)

include hsize henough

/-- The frame that is due for a page is one of those that the call takes. -/
theorem pageFrame_due (hi : i < pagesOf m size) :
    ∃ k < s.needs m r size, k = framesNeeded m s.vm r
        (((s.backs m size 0).map Prod.fst).take ((s.containerPages m).length + i)) ∧
      s.vm.freeTables[k]? = some (s.pageFrame m r size i) := by
  have hlength : ((s.backs m size 0).map Prod.fst).length =
      (s.containerPages m).length + pagesOf m size := by
    rw [List.length_map, length_backs]
  -- all of its pages are one more than the last
  have hlt := framesNeeded_page_lt (s := s) (r := r) hi le_rfl
  rw [← hlength, List.take_length] at hlt
  rw [needs, if_neg hsize] at henough ⊢
  refine ⟨_, hlt, rfl, ?_⟩
  rw [pageFrame, List.getD_eq_getElem?_getD, List.getElem?_eq_getElem (by omega), Option.getD_some]

variable (h : s.Ready m r)

include h

/-- With enough frames the range is small: it fits below the limit too. -/
theorem Ready.pages_le : pagesOf m size ≤ 2 ^ 40 / pageSizeInBytes m := by
  have hlength := length_backs m s size 0
  have hsupply := h.supply_le
  -- each page takes a frame of its own
  rw [needs, if_neg hsize, framesNeeded, List.length_map, hlength] at henough
  omega

/-- No two pages are due the same frame. -/
theorem Ready.pageFrame_inj (hi : i < pagesOf m size) (hj : j < pagesOf m size)
    (heq : s.pageFrame m r size i = s.pageFrame m r size j) : i = j := by
  obtain ⟨k, hk, hdue, hframe⟩ := pageFrame_due hsize henough hi
  obtain ⟨l, -, hdue', hframe'⟩ := pageFrame_due hsize henough hj
  have hkl : k = l := (List.getElem?_inj (Nat.lt_of_lt_of_le hk henough)
    h.root.tables.nodup).mp (by rw [hframe, hframe', heq])
  rcases Nat.lt_trichotomy i j with hij | rfl | hij
  · have := framesNeeded_page_lt (s := s) (r := r) hij hj.le
    omega
  · rfl
  · have := framesNeeded_page_lt (s := s) (r := r) hij hi.le
    omega

/-- The frames are whole pages. -/
theorem Ready.pageFrame_mem (hi : i < pagesOf m size) :
    s.pageFrame m r size i ∈ s.vm.freeTables ∧ s.pageFrame m r size i % pageSizeInBytes m = 0 ∧
      s.pageFrame m r size i < 2 ^ 40 := by
  obtain ⟨k, -, -, hframe⟩ := pageFrame_due hsize henough hi
  have hmem := List.mem_of_getElem? hframe
  exact ⟨hmem, (h.frames _ hmem).2,
    Nat.lt_of_lt_of_le (h.root.below.supply _ hmem) h.root.below.limit⟩

variable (hplaced : s.Placed m size)

include hplaced

/-- **With enough frames** a call backs its pages one after the other. -/
theorem run_enough (honly : isAddressOnly flags = false) :
    ∃ u, s.vmmAlloc m size flags = .ok (some (handedOut s.start flags), u) ∧
      PagesStep m s.vm u.vm r (s.backs m size flags) := by
  have hpages := pagesOf_eq (h.pages_le hsize henough)
  have hneeds : framesNeeded m s.vm r ((s.backs m size flags).map Prod.fst) ≤
      s.vm.freeTables.length := by
    rw [map_backs]
    rwa [needs, if_neg hsize] at henough
  -- what the mapper is asked for: pages outside of entry 510, with a present entry
  have hroots : ∀ p ∈ s.backs m size flags, indexAt p.1 0 ≠ 510 ∧ p.2 % 2 = 1 := by
    intro p hp
    rcases List.mem_append.mp hp with hp | hp
    · exact ⟨(hplaced.container p hp).1, containerPages_present hp⟩
    · obtain ⟨i, hi, rfl⟩ := List.mem_map.mp hp
      exact ⟨hplaced.range i (List.mem_range.mp hi), archFlags_present _ _⟩
  obtain ⟨vm, hback, hstep⟩ := h.root.backPages (s.backs m size flags) h.pointer hroots hneeds
  -- there is a frame, because the range has pages
  have hframe : ¬ (s.isFull ∧ s.allocFrame.1 = 0) := by
    rintro ⟨-, hzero⟩
    have hpos := pagesOf_pos (m := m) hsize
    rw [framesNeeded, List.length_map, length_backs, (allocFrame_zero_iff h.null).mp hzero,
      List.length_nil] at hneeds
    omega
  rw [backs, ← hpages] at hback
  obtain ⟨u, hrun, hvm⟩ := vmmAlloc_of hsize honly hframe h.items hback
  exact ⟨u, hrun, hvm ▸ hstep⟩

/-- **The entry of a page** that was not mapped before the call. -/
theorem leaf_of_enough (hstep : PagesStep m s.vm s'.vm r (s.backs m size flags))
    (hi : i < pagesOf m size) (habsent : s.vm.pageSlot m r (s.page m i) % 2 = 0) :
    s'.vm.pageSlot m r (s.page m i) =
      pageValue m (s.pageFrame m r size i) (s.page m i) (archFlags s.start flags) := by
  obtain ⟨k, -, rfl, hframe⟩ := pageFrame_due hsize henough hi
  have hbacked := hstep.backed _ _ (s.pageFrame m r size i) (backs_page hi) habsent
  refine hbacked ?_ ?_
  · -- no earlier page is the same one
    intro q hq hsame
    rw [backs, List.take_length_add_append] at hq
    rcases List.mem_append.mp hq with hq | hq
    · exact (hplaced.container q hq).2 i hi hsame
    · rw [rangePages, ← List.map_take, List.take_range] at hq
      obtain ⟨j, hj, rfl⟩ := List.mem_map.mp hq
      have hj' := List.mem_range.mp hj
      have := page_inj (h.pages_le hsize henough) h.aligned hi (by omega) hsame
      omega
  · rw [List.map_take, map_backs]
    exact hframe

end Enough

/-! ## Flags -/

/-- The bits of an entry that the hardware is meant to see, for a page in either half. -/
def hardwareBits (m : PageMode) (high : Bool) (flags : Nat) : Nat :=
  presentBit ||| writeBit ||| (match m with | .large => hugepageBit | .small => 0) |||
    if high = false ∨ flags &&& vmmFlagsUserLevel ≠ 0 then vmmFlagsUserLevel else 0

def hardwareLeaf (m : PageMode) (frame va flags : Nat) : Nat :=
  frame ||| hardwareBits m (isAddressHigherHalf va) flags

/-- The bits that `vm_parse_flags` and the mapper make of the flags of a call, for a page and a
range in either half. -/
def entryBits (m : PageMode) (high startHigh : Bool) (flags : Nat) : Nat :=
  let fl := vmParseFlags (if startHigh then flags else flags ||| vmmFlagsUserLevel) |||
    vmmFlagsPresent ||| vmmFlagsWriteEnable
  match m with
  | .large => hugepageBit ||| (if high then fl else fl ||| vmmFlagsUserLevel) |||
    if high then 0 else vmmFlagsUserLevel
  | .small => if high then fl else fl ||| vmmFlagsUserLevel

/-- The range is no stack, and it does not go from the lower into the higher half. -/
def FlagsKept (high startHigh : Bool) (flags : Nat) : Prop :=
  isAddressStack flags = false ∧
    (high = true → startHigh = true ∨ flags &&& vmmFlagsUserLevel ≠ 0)

instance (high startHigh : Bool) (flags : Nat) : Decidable (FlagsKept high startHigh flags) :=
  inferInstanceAs (Decidable (_ ∧ _))

/-- A call puts the hardware's flags, and no others, into the entries of the pages that were not
mapped before. -/
def InstallsHardwareFlags (m : PageMode) (s : VmmTables) (r size flags : Nat) : Prop :=
  ∃ ret s', s.vmmAlloc m size flags = .ok (ret, s') ∧
    ∀ i < pagesOf m size, s.vm.pageSlot m r (s.page m i) % 2 = 0 →
      s'.vm.pageSlot m r (s.page m i) =
        hardwareLeaf m (s.pageFrame m r size i) (s.page m i) flags

section Flags

variable {m : PageMode} {s : VmmTables} {r size flags : Nat}

theorem pageValue_bits (m : PageMode) (frame va start flags : Nat) :
    pageValue m frame va (archFlags start flags) =
      frame ||| entryBits m (isAddressHigherHalf va) (isAddressHigherHalf start) flags := by
  cases m with
  | large => simp only [pageValue, leafValue, archFlags, userModeStatus, entryBits, Nat.or_assoc]
  | small => simp only [pageValue, archFlags, entryBits]

/-- Each combination of flags, for pages and ranges in either half. -/
theorem flags_table (m : PageMode) : ∀ high startHigh, ∀ flags < 512,
    flags &&& vmmFlagsAll = flags → isAddressOnly flags = false →
      (entryBits m high startHigh flags = hardwareBits m high flags ↔
        FlagsKept high startHigh flags) ∧
      entryBits m high startHigh flags < 4096 ∧ hardwareBits m high flags < 4096 := by
  cases m <;> decide +kernel

/-- The entry of a page is the hardware's exactly if the flags are kept to it. -/
theorem pageValue_eq_hardwareLeaf_iff {frame va start : Nat} (hframe : frame % 4096 = 0)
    (hflags : flags &&& vmmFlagsAll = flags) (honly : isAddressOnly flags = false) :
    pageValue m frame va (archFlags start flags) = hardwareLeaf m frame va flags ↔
      FlagsKept (isAddressHigherHalf va) (isAddressHigherHalf start) flags := by
  have hlt : flags < 512 := by
    rw [← hflags]
    exact Nat.lt_of_le_of_lt Nat.and_le_right (by decide)
  obtain ⟨htable, hlow, hlow'⟩ := flags_table m (isAddressHigherHalf va) (isAddressHigherHalf start)
    flags hlt hflags honly
  -- the frame has none of these bits
  obtain ⟨k, rfl⟩ : ∃ k, frame = 2 ^ 12 * k := ⟨frame / 4096, by omega⟩
  rw [← htable, pageValue_bits, hardwareLeaf, or_low _ 12 _ hlow, or_low _ 12 _ hlow',
    Nat.add_left_cancel_iff]

end Flags

/-- **Flags.** With frames for a call, the entries of its new pages are their frames and the
hardware's flags exactly if the range is no stack (and does not go from the lower into the higher
half): `vm_parse_flags` takes `VMM_FLAGS_ADDRESS_ONLY` out of the flags, but not
`VMM_FLAGS_STACK`, which is the global bit of an entry. -/
theorem leaf_flags_iff (m : PageMode) (s : VmmTables) (r size flags : Nat) (h : s.Ready m r)
    (hplaced : s.Placed m size) (henough : s.needs m r size ≤ s.vm.freeTables.length)
    (hflags : flags &&& vmmFlagsAll = flags) (honly : isAddressOnly flags = false) :
    s.InstallsHardwareFlags m r size flags ↔
      ∀ i < pagesOf m size, s.vm.pageSlot m r (s.page m i) % 2 = 0 →
        FlagsKept (isAddressHigherHalf (s.page m i)) (isAddressHigherHalf s.start) flags := by
  -- no bytes, no pages
  by_cases hsize : size = 0
  · subst hsize
    have hnone : ∀ i, ¬ i < pagesOf m 0 := by
      intro i
      unfold pagesOf
      cases m <;> simp only [pageSizeInBytes] <;> omega
    exact iff_of_true ⟨none, s, rfl, fun i hi => absurd hi (hnone i)⟩
      fun i hi => absurd hi (hnone i)
  obtain ⟨u, hrun, hstep⟩ := run_enough hsize henough h hplaced honly
  have hentry : ∀ i < pagesOf m size, s.vm.pageSlot m r (s.page m i) % 2 = 0 →
      (u.vm.pageSlot m r (s.page m i) = hardwareLeaf m (s.pageFrame m r size i) (s.page m i) flags ↔
        FlagsKept (isAddressHigherHalf (s.page m i)) (isAddressHigherHalf s.start) flags) := by
    intro i hi habsent
    have haligned := (h.pageFrame_mem hsize henough hi).2.1
    rw [leaf_of_enough hsize henough h hplaced hstep hi habsent]
    refine pageValue_eq_hardwareLeaf_iff ?_ hflags honly
    cases m <;> simp only [pageSizeInBytes] at haligned <;> omega
  constructor
  · rintro ⟨ret, s', hrun', hleaf⟩ i hi habsent
    rw [hrun] at hrun'
    cases hrun'
    exact (hentry i hi habsent).mp (hleaf i hi habsent)
  · intro hkept
    exact ⟨_, u, hrun, fun i hi habsent => (hentry i hi habsent).mpr (hkept i hi habsent)⟩

/-- A manager of the kernel as `vmm_init` leaves it, with 1 GiB of memory and three frames left. -/
def freshManager : VmmTables where
  vmm :=
    { info :=
        { vmmDataStart          := 0xFFFF8002C0400000
          vmmSpaceStart         := 0xFFFF8144C0600000
          startOfVmmSpace       := 0xFFFF8144C0600000
          rootTableHhdm         := tablePtr .large 1
          vmmItemsPerPage       := vmmRootLength .large
          vmmCurIndex           := 0
          nextAvailableAddress  := 0xFFFF8144C0600000
          vmmNumberOfContainers := 1
          endOfVmmData          := vmmReservedSpaceSize
          vmmContainerRoot      := 0xFFFF8002C0400000
          vmmCurContainer       := 0xFFFF8002C0400000 }
      container := fun _ => ⟨fun _ => ⟨0, 0, 0⟩, vmmRootLength .large, none⟩
      frames    := []
      maps      := [] }
  vm := { recursiveSpace with freeTables := [0x200000, 0x400000, 0x600000] }

section Fresh

theorem freshManager_page : freshManager.page .large 0 = 0xFFFF8144C0600000 ∧
    freshManager.page .large 1 = 0xFFFF8144C0800000 := by
  decide

theorem freshManager_ready : freshManager.Ready .large 1 where
  root := rootOk_recursive rfl rfl (by decide) fun t ht => by
    have hframe : t % 4096 = 0 ∧ 0x200000 ≤ t ∧ t < 2 ^ 30 := by
      revert t
      decide
    exact ⟨t / 4096, by omega, by omega, hframe.2.2⟩
  pointer := rfl
  items := rfl
  aligned := by decide
  frames := by decide

theorem freshManager_absent :
    freshManager.vm.pageSlot .large 1 (freshManager.page .large 0) % 2 = 0 ∧
      freshManager.vm.pageSlot .large 1 (freshManager.page .large 1) % 2 = 0 := by
  rw [freshManager_page.1, freshManager_page.2]
  decide +kernel

/-- One page takes three frames, two of them for its tables, and the page after it one more. -/
theorem freshManager_needs : freshManager.needs .large 1 1 = 3 ∧
    freshManager.needs .large 1 0x400000 = 4 := by
  have hone : (freshManager.backs .large 1 0).map Prod.fst = [freshManager.page .large 0] := rfl
  have htwo : (freshManager.backs .large 0x400000 0).map Prod.fst =
      [freshManager.page .large 0, freshManager.page .large 1] := rfl
  rw [needs, if_neg (by decide), needs, if_neg (by decide), hone, htwo, freshManager_page.1,
    freshManager_page.2]
  decide +kernel

theorem freshManager_pages {P : Nat → Prop} (h : P 0) : ∀ i < pagesOf .large 1, P i := by
  have hone : pagesOf .large 1 = 1 := by decide
  intro i hi
  obtain rfl : i = 0 := by omega
  exact h

theorem freshManager_placed : freshManager.Placed .large 1 where
  container := fun p hp => by
    have hnone : freshManager.containerPages .large = [] := rfl
    rw [hnone] at hp
    exact absurd hp List.not_mem_nil
  range := freshManager_pages (by
    rw [freshManager_page.1]
    decide)

end Fresh

/-- One page, with three frames for it and its tables. -/
theorem vmmAllocAt_refines_one_page : ∃ ret u frames left,
    freshManager.vmmAllocAt .large 0 1 3 = .ok (ret, u) ∧
    Dreamos64.vmmAllocAt .large 0 1 3 (withFrames freshManager.vmm frames) =
      .ok (ret, withFrames u.vmm left) := by
  obtain ⟨u, hrun, -⟩ := run_enough (by decide) freshManager_needs.1.le freshManager_ready
    freshManager_placed (rfl : isAddressOnly 3 = false)
  obtain ⟨frames, left, hledger⟩ := vmmAllocAt_refines hrun
  exact ⟨_, u, frames, left, hrun, hledger⟩

theorem leaf_flags_one_page : freshManager.InstallsHardwareFlags .large 1 1 3 :=
  (leaf_flags_iff .large _ 1 1 3 freshManager_ready freshManager_placed freshManager_needs.1.le rfl
    rfl).mpr (freshManager_pages fun _ => by
      rw [freshManager_page.1]
      decide)

/-- A stack for the kernel: bit 8 of the entry of its page is `VMM_FLAGS_STACK`. -/
theorem stack_flag_in_entry :
    (∃ u, freshManager.vmmAlloc .large 1 0x103 = .ok (some 0xFFFF8144C0610000, u) ∧
      u.vm.pageSlot .large 1 0xFFFF8144C0600000 = 0x200183) ∧
    ¬ freshManager.InstallsHardwareFlags .large 1 1 0x103 := by
  obtain ⟨u, hrun, hleaf⟩ : ∃ u, freshManager.vmmAlloc .large 1 0x103 =
      .ok (some 0xFFFF8144C0610000, u) ∧
      u.vm.pageSlot .large 1 0xFFFF8144C0600000 = 0x200183 := by decide +kernel
  refine ⟨⟨u, hrun, hleaf⟩, ?_⟩
  rintro ⟨ret, s', hrun', hentries⟩
  rw [hrun] at hrun'
  cases hrun'
  have hentry := hentries 0 (by decide) freshManager_absent.1
  -- the first frame is for the page, and two more are for its tables
  have hframe : freshManager.pageFrame .large 1 1 0 = 0x200000 := rfl
  rw [hframe, freshManager_page.1, hleaf] at hentry
  exact absurd hentry (by decide)

/-! ## Frames -/

/-- Every page of the range leads to a frame of its own that the call has taken. -/
def RegionBacked (m : PageMode) (s s' : VmmTables) (r size : Nat) : Prop :=
  ∃ frame : Nat → Nat,
    (∀ i < pagesOf m size, frame i ∈ s.vm.freeTables ∧ frame i ∉ s'.vm.freeTables) ∧
    (∀ i < pagesOf m size, ∀ j < pagesOf m size, frame i = frame j → i = j) ∧
    ∀ i < pagesOf m size, ∀ offset < pageSizeInBytes m,
      physicalOf s'.vm r (s.page m i + offset) = some (frame i + offset)

/-- A call returns and does not hand out memory with nothing behind it: a pointer that is not NULL
is to a range with frames, and without enough frames it is NULL and nothing is recorded. -/
def HandsOutBacked (m : PageMode) (s : VmmTables) (r size flags : Nat) : Prop :=
  ∃ ret s', s.vmmAlloc m size flags = .ok (ret, s') ∧
    (ret.getD 0 ≠ 0 → RegionBacked m s s' r size) ∧
    (s.vm.freeTables.length < s.needs m r size →
      ret.getD 0 = 0 ∧ s'.vmm.info = s.vmm.info ∧ s'.vmm.container = s.vmm.container)

section Frames

variable {m : PageMode} {s s' : VmmTables} {r size flags : Nat}

/-- What a call has taken from the supply is not in it any more. -/
theorem notMem_drop_of_lt {l : List Nat} (hnodup : l.Nodup) {k n t : Nat} (hk : k < n)
    (ht : l[k]? = some t) : t ∉ l.drop n := by
  intro hmem
  rw [← List.take_append_drop n l, List.nodup_append] at hnodup
  refine hnodup.2.2 t ?_ t hmem rfl
  exact List.mem_of_getElem? ((List.getElem?_take_of_lt hk).trans ht)

/-- With enough frames, and no page mapped before, the range is backed. -/
theorem regionBacked_of_enough (h : s.Ready m r) (hplaced : s.Placed m size) (hsize : size ≠ 0)
    (hflags : hwFrame flags = 0) (henough : s.needs m r size ≤ s.vm.freeTables.length)
    (hstep : PagesStep m s.vm s'.vm r (s.backs m size flags))
    (habsent : ∀ i < pagesOf m size, s.vm.pageSlot m r (s.page m i) % 2 = 0) :
    RegionBacked m s s' r size := by
  have hsupply : s'.vm.freeTables = s.vm.freeTables.drop (s.needs m r size) := by
    rw [hstep.supply, map_backs, needs, if_neg hsize]
  refine ⟨s.pageFrame m r size, fun i hi => ?_,
    fun i hi j hj => h.pageFrame_inj hsize henough hi hj,
    fun i hi offset hoffset => ?_⟩
  · obtain ⟨k, hk, -, hframe⟩ := pageFrame_due hsize henough hi
    refine ⟨List.mem_of_getElem? hframe, ?_⟩
    rw [hsupply]
    exact notMem_drop_of_lt h.root.tables.nodup hk hframe
  · obtain ⟨-, haligned, hlt⟩ := h.pageFrame_mem hsize henough hi
    obtain ⟨hsame, hmod⟩ := samePage_page h.aligned hoffset i
    have hphys := physicalOf_leaf hstep.root (hplaced.range i hi) hsame (archFlags_present _ _)
      (hwFrame_archFlags s.start hflags) haligned (hlt.trans (by decide))
      (leaf_of_enough hsize henough h hplaced hstep hi (habsent i hi))
    rw [hphys, hmod]

/-- A page that was mapped keeps its frame, which is none of the supply's. -/
theorem not_regionBacked_of_mapped (hplaced : s.Placed m size)
    (hstep : PagesStep m s.vm s'.vm r (s.backs m size flags)) {i : Nat} (hi : i < pagesOf m size)
    (hmapped : s.vm.pageSlot m r (s.page m i) % 2 = 1)
    (hunused : ∀ t ∈ s.vm.freeTables, physicalOf s.vm r (s.page m i) ≠ some t) :
    ¬ RegionBacked m s s' r size := by
  rintro ⟨frame, htaken, -, hphys⟩
  have hkept : translate s'.vm r (s.page m i) = translate s.vm r (s.page m i) :=
    hstep.translated _ (hplaced.range i hi) fun _ _ _ => hmapped
  -- so its first byte would be at a frame of the supply
  have hfirst := hphys i hi 0 (pageSizeInBytes_pos m)
  rw [Nat.add_zero, Nat.add_zero, physicalOf, hkept] at hfirst
  exact hunused _ (htaken i hi).1 hfirst

end Frames

/-- **Frames.** A call does not hand out memory with nothing behind it exactly if it is for no
bytes, or there are frames for the container, the
pages and their tables, and no page of the range was mapped before (or the address is 0, which the
caller takes for NULL). The frames are taken, and the tables changed, after the range has been
recorded, and no answer to that is checked. -/
theorem vmm_alloc_backs_iff (m : PageMode) (s : VmmTables) (r size flags : Nat) (h : s.Ready m r)
    (honly : isAddressOnly flags = false) (hflags : hwFrame flags = 0)
    (hplaced : s.needs m r size ≤ s.vm.freeTables.length → s.Placed m size)
    (hunused : s.needs m r size ≤ s.vm.freeTables.length → ∀ i < pagesOf m size,
      s.vm.pageSlot m r (s.page m i) % 2 = 1 →
        ∀ t ∈ s.vm.freeTables, physicalOf s.vm r (s.page m i) ≠ some t) :
    s.HandsOutBacked m r size flags ↔
      size = 0 ∨ (s.needs m r size ≤ s.vm.freeTables.length ∧ (handedOut s.start flags = 0 ∨
        ∀ i < pagesOf m size, s.vm.pageSlot m r (s.page m i) % 2 = 0)) := by
  by_cases hsize : size = 0
  · subst hsize
    refine iff_of_true ⟨none, s, rfl, fun hret => absurd rfl hret, fun _ => ⟨rfl, rfl, rfl⟩⟩ ?_
    exact Or.inl rfl
  by_cases henough : s.needs m r size ≤ s.vm.freeTables.length
  · obtain ⟨u, hrun, hstep⟩ := run_enough hsize henough h (hplaced henough) honly
    constructor
    · rintro ⟨ret, s', hrun', hbacked, -⟩
      rw [hrun] at hrun'
      cases hrun'
      refine Or.inr ⟨henough, ?_⟩
      by_cases hnull : handedOut s.start flags = 0
      · exact Or.inl hnull
      · refine Or.inr fun i hi => ?_
        -- a page that was mapped before is not behind a frame of this call
        by_contra hmapped
        have hmapped' : s.vm.pageSlot m r (s.page m i) % 2 = 1 := by omega
        exact not_regionBacked_of_mapped (hplaced henough) hstep hi hmapped'
          (hunused henough i hi hmapped') (hbacked hnull)
    · intro hcond
      refine ⟨_, u, hrun, fun hret => ?_, fun hfew => absurd henough (Nat.not_le_of_lt hfew)⟩
      have habsent := (hcond.resolve_left hsize).2.resolve_left hret
      exact regionBacked_of_enough h (hplaced henough) hsize hflags henough hstep habsent
  · -- too few frames: if the call returns at all, the range is recorded
    refine iff_of_false ?_ fun hcond => henough (hcond.resolve_left hsize).1
    rintro ⟨ret, s', hrun, -, hfew⟩
    obtain ⟨-, hinfo, -⟩ := hfew (Nat.lt_of_not_le henough)
    exact (vmmAlloc_inv hsize hrun).2 hinfo

theorem vmm_alloc_backs_one_page : freshManager.HandsOutBacked .large 1 1 3 := by
  have habsent : ∀ i < pagesOf .large 1,
      freshManager.vm.pageSlot .large 1 (freshManager.page .large i) % 2 = 0 :=
    freshManager_pages freshManager_absent.1
  refine (vmm_alloc_backs_iff .large _ 1 1 3 freshManager_ready rfl rfl
    (fun _ => freshManager_placed) fun _ i hi hmapped => ?_).mpr
    (Or.inr ⟨freshManager_needs.1.le, Or.inr habsent⟩)
  rw [habsent i hi] at hmapped
  cases hmapped

/-- Two pages with three frames: one is for the first page, two are for its tables, and the second
page is mapped to frame 0. -/
theorem second_page_unbacked :
    (∃ u, freshManager.vmmAlloc .large 0x400000 3 = .ok (some 0xFFFF8144C0600000, u) ∧
      physicalOf u.vm 1 0xFFFF8144C0800000 = some 0 ∧ u.vmm.info ≠ freshManager.vmm.info) ∧
    ¬ freshManager.HandsOutBacked .large 1 0x400000 3 := by
  obtain ⟨u, hrun, hphysical, hinfo⟩ : ∃ u, freshManager.vmmAlloc .large 0x400000 3 =
      .ok (some 0xFFFF8144C0600000, u) ∧ physicalOf u.vm 1 0xFFFF8144C0800000 = some 0 ∧
      u.vmm.info ≠ freshManager.vmm.info := by decide +kernel
  refine ⟨⟨u, hrun, hphysical, hinfo⟩, ?_⟩
  rintro ⟨ret, s', hrun', -, hfew⟩
  rw [hrun] at hrun'
  cases hrun'
  exact hinfo (hfew (by rw [freshManager_needs.2]; decide)).2.1

end VmmTables

end Dreamos64

import Dreamos64.Arch.TaskPage
import Mathlib.Order.Interval.Finset.Nat

/-!
# Dreamos64 — how many frames pages cost

After boot `pmm_prepare_new_pagetable` is `pmm_alloc_frame`: the frame behind a page and
the tables on the way to it come out of one supply. `backPage` is the pair of calls that
`vmm_alloc_at` makes for a page, and `framesNeeded` says of a list of pages how many frames
such calls take, one for each page and one for each table that is not there.

* `mapPhysToVirtAddr_supply` — a call of the mappers takes exactly the missing tables;
* `PageMapped.missing`       — afterwards these are the ones that are not missing any more;
* `RootOk.backPages`         — so with enough frames a whole list of pages is backed, and
  each page that was not mapped gets the frame that is due.
-/

namespace Dreamos64

open Machine TableTree

/-! ## Tables on the way -/

/-- The paths of the first `d` tables below the root on the way of an address. -/
def pathsBelow (va d : Nat) : Finset (List (Fin 512)) :=
  (Finset.range d).image fun e => pathTo va (e + 1)

/-- The tables on the way to the page of an address. -/
def tablePaths (m : PageMode) (va : Nat) : Finset (List (Fin 512)) := pathsBelow va (pageDepth m)

/-- The tables on the way to some pages. -/
def tablePathsOf (m : PageMode) (vas : List Nat) : Finset (List (Fin 512)) :=
  vas.foldr (fun va P => tablePaths m va ∪ P) ∅

/-- The paths that lead to no table. -/
def Vm.missing (s : Vm) (r : Nat) (P : Finset (List (Fin 512))) : Finset (List (Fin 512)) :=
  P.filter fun p => (descend hwTable s.entry r p).isNone

/-- The frames that backing some pages takes: one for each page, and one for each table on
the way that is not there. -/
def framesNeeded (m : PageMode) (s : Vm) (r : Nat) (vas : List Nat) : Nat :=
  vas.length + (s.missing r (tablePathsOf m vas)).card

section Paths

variable {m : PageMode} {s s' : Vm} {r va d : Nat} {p : List (Fin 512)}

theorem mem_pathsBelow : p ∈ pathsBelow va d ↔ ∃ e < d, pathTo va (e + 1) = p := by
  simp only [pathsBelow, Finset.mem_image, Finset.mem_range]

theorem mem_missing {P : Finset (List (Fin 512))} :
    p ∈ s.missing r P ↔ p ∈ P ∧ descend hwTable s.entry r p = none := by
  simp only [Vm.missing, Finset.mem_filter, Option.isNone_iff_eq_none]

theorem pathsBelow_succ (va d : Nat) :
    pathsBelow va (d + 1) = insert (pathTo va (d + 1)) (pathsBelow va d) := by
  rw [pathsBelow, Finset.range_add_one, Finset.image_insert]
  rfl

theorem pathTo_notMem (va d : Nat) : pathTo va (d + 1) ∉ pathsBelow va d := by
  rw [mem_pathsBelow]
  rintro ⟨e, he, hpath⟩
  have := pathTo_length_eq hpath
  omega

/-- One more level costs one more table if its table is missing. -/
theorem card_missing_succ (s : Vm) (r va d : Nat) :
    (s.missing r (pathsBelow va (d + 1))).card = (s.missing r (pathsBelow va d)).card +
      if descend hwTable s.entry r (pathTo va (d + 1)) = none then 1 else 0 := by
  have hout : pathTo va (d + 1) ∉ s.missing r (pathsBelow va d) := fun h =>
    pathTo_notMem va d (mem_missing.mp h).1
  rw [pathsBelow_succ, Vm.missing, Finset.filter_insert]
  by_cases hnone : descend hwTable s.entry r (pathTo va (d + 1)) = none
  · rw [if_pos (by rw [hnone]; rfl), if_pos hnone]
    exact Finset.card_insert_of_notMem hout
  · rw [if_neg (by rwa [Option.isNone_iff_eq_none]), if_neg hnone]
    rfl

/-- Whether the next table is there is seen at its entry. -/
theorem descend_none_iff {Own : List (Fin 512) → Prop} (hown : Owned Own s r)
    (hva : Own (pathTo va (d + 1))) :
    descend hwTable s.entry r (pathTo va (d + 1)) = none ↔
      s.hwSlot r (pathTo va d) (indexAt va d) % 2 = 0 := by
  have hslot : descend hwTable s.entry r (pathTo va (d + 1)) =
      hwTable (s.hwSlot r (pathTo va d) (indexAt va d)) := descend_slot hwTable_zero
  rw [hslot]
  constructor
  · intro hnone
    -- an entry that is present links to a table, because the path is owned
    by_contra hpresent
    obtain ⟨hlink, -⟩ := hown.links _ _ hva (by omega)
    rw [hnone] at hlink
    cases hlink
  · intro habsent
    exact if_neg (by omega)

end Paths

/-! ## What the mappers take -/

section Supply

variable {m : PageMode} {s s' : Vm} {r va d : Nat} {Own : List (Fin 512) → Prop}

/-- The first `d` blocks take one frame for each table that is missing. -/
theorem ensurePath_supply (hreg : Region Own) (hok : HwTables s r) (hown : Owned Own s r)
    (hva : ∀ e ≤ d, Own (pathTo va e)) (hd : d ≤ 3) (hsupply : FramesFor s r va d)
    (hrun : ensurePath s r va d = .ok s') :
    s'.freeTables = s.freeTables.drop (s.missing r (pathsBelow va d)).card := by
  -- level by level; the blocks before this one leave its entry as it was
  induction d generalizing s' with
  | zero =>
    cases hrun
    rfl
  | succ d ih =>
    have hframes : FramesFor s r va d := fun e he habsent => by
      have := hsupply e (by omega) habsent
      omega
    obtain ⟨s₁, t, hrun₁, -, ht, h₁⟩ := ensurePath_spec .large hreg hok hown
      (fun e he => hva e (by omega)) (by omega) hframes
    have htaken := ih (fun e he => hva e (by omega)) (by omega) hframes hrun₁
    rw [ensurePath, hrun₁, ok_bind] at hrun
    -- what this block finds in its entry is what was there at first
    have hslot := h₁.slot_eq (hreg.paths _ (hva d (by omega))) (indexAt va d)
    have hleft : s₁.hwSlot r (pathTo va d) (indexAt va d) % 2 = 0 → s₁.freeTables ≠ [] :=
      fun habsent => h₁.left hsupply (hslot ▸ habsent)
    have hblock : ensureAt s₁ r va d = .ok (s₁.ensure t (indexAt va d) (userModeStatus va)) :=
      ensureTable_block hreg h₁.tables h₁.owned (hva (d + 1) le_rfl) ht
        (userModeStatus_cases va) hleft
    have hentry : s₁.hwSlot r (pathTo va d) (indexAt va d) = s₁.entry t (indexAt va d) :=
      slot_of_descend ht
    rw [hentry] at hslot hleft
    obtain rfl := Except.ok.inj (hblock.symm.trans hrun)
    have hnone := descend_none_iff hown (hva (d + 1) le_rfl)
    rw [← hslot] at hnone
    rw [card_missing_succ]
    -- the block takes a frame exactly if the entry is not present
    by_cases habsent : s₁.entry t (indexAt va d) % 2 = 0
    · obtain ⟨n, rest, hfree, -⟩ := h₁.tables.next (hleft habsent)
      rw [if_pos (hnone.mpr habsent), (ensure_rest habsent hfree).2.2, ← List.drop_drop, ← htaken,
        hfree]
      rfl
    · rw [if_neg fun h => habsent (hnone.mp h), ensure_present (by omega), htaken, Nat.add_zero]

theorem storeVirtual_freeTables {table v : Nat} {i : Fin 512}
    (h : storeVirtual s r table i v = .ok s') : s'.freeTables = s.freeTables := by
  unfold storeVirtual at h
  split at h
  · cases h
  · split_ifs at h
    cases h
    rfl

/-- **The mappers take exactly the missing tables.** -/
theorem mapPhysToVirtAddr_supply {pa flags ret : Nat} (hreg : Region Own) (hok : HwTables s r)
    (hown : Owned Own s r) (hva : ∀ e ≤ pageDepth m, Own (pathTo va e))
    (hsupply : FramesFor s r va (pageDepth m))
    (hrun : mapPhysToVirtAddr m s r pa va flags = .ok (ret, s')) :
    s'.freeTables = s.freeTables.drop (s.missing r (tablePaths m va)).card := by
  rw [mapPhysToVirtAddr_eq] at hrun
  obtain ⟨s₁, hpath, hrun⟩ := bind_inv hrun
  obtain ⟨s₂, hentry, hrun⟩ := bind_inv hrun
  cases hrun
  have htaken := ensurePath_supply hreg hok hown hva (pageDepth_le m) hsupply hpath
  -- the last step writes an entry, or not
  have hsame : s'.freeTables = s₁.freeTables := by
    unfold ensureEntry at hentry
    obtain ⟨old, -, hentry⟩ := bind_inv hentry
    split_ifs at hentry
    · exact storeVirtual_freeTables hentry
    · cases hentry
      rfl
  rw [hsame, htaken]
  rfl

/-- A table that is missing has none below it, so that many frames are enough at every level. -/
theorem framesFor_of_missing (hown : Owned Own s r) (hva : ∀ e ≤ d, Own (pathTo va e))
    (hsupply : (s.missing r (pathsBelow va d)).card ≤ s.freeTables.length) :
    FramesFor s r va d := by
  intro e he habsent
  have hnone : ∀ f, e ≤ f → f < d → descend hwTable s.entry r (pathTo va (f + 1)) = none := by
    intro f hef hfd
    induction f, hef using Nat.le_induction with
    | base => exact (descend_none_iff hown (hva (e + 1) he)).mpr habsent
    | succ f hef ih => rw [pathTo, descend_concat, ih (by omega), Option.bind_none]
  -- so all levels from here on are among the missing ones
  have hsub : (Finset.Ico e d).image (fun f => pathTo va (f + 1)) ⊆
      s.missing r (pathsBelow va d) := by
    intro p hp
    obtain ⟨f, hf, rfl⟩ := Finset.mem_image.mp hp
    obtain ⟨hef, hfd⟩ := Finset.mem_Ico.mp hf
    exact mem_missing.mpr ⟨mem_pathsBelow.mpr ⟨f, hfd, rfl⟩, hnone f hef hfd⟩
  have hcard : ((Finset.Ico e d).image fun f => pathTo va (f + 1)).card = d - e := by
    rw [Finset.card_image_of_injective, Nat.card_Ico]
    intro f g hfg
    have := pathTo_length_eq hfg
    omega
  have := Finset.card_le_card hsub
  omega

end Supply

/-! ## One page -/

/-- `pmm_alloc_frame`, and `map_phys_to_virt_addr_hh` for the page at an address with some
flags. Neither of the two results is looked at. -/
def backPage (m : PageMode) (root : Option Nat) (s : Vm) (page : Nat × Nat) : Exec Vm := do
  let (frame, s) := newPagetable s
  let (_, s) ← mapPhysToVirtAddrHh m s frame page.1 page.2 root
  .ok s

theorem mapPhysToVirtAddrHh_root {m : PageMode} {s : Vm} {root : Option Nat} {r : Nat}
    (hroot : root.or s.hhdmPageRootAddress = tablePtr m r) (pa va flags : Nat) :
    mapPhysToVirtAddrHh m s pa va flags root =
      mapPhysToVirtAddrHh m s pa va flags (tablePtr m r) := by
  unfold mapPhysToVirtAddrHh
  dsimp only
  rw [hroot, show (tablePtr m r).or s.hhdmPageRootAddress = tablePtr m r by
    rw [tablePtr, Option.some_or]]

/-- What backing the page of `va` does. -/
structure PageStep (m : PageMode) (s s' : Vm) (r va v : Nat) : Prop where
  root    : RootOk m s' r
  pointer : s'.hhdmPageRootAddress = s.hhdmPageRootAddress
  supply  : s'.freeTables = s.freeTables.drop (framesNeeded m s r [va])
  mapped  : PageMapped m s s' r va (if s.pageSlot m r va % 2 = 0 then v else s.pageSlot m r va)

section Page

variable {m : PageMode} {s s' : Vm} {r va : Nat} {root : Option Nat}

theorem framesNeeded_one (m : PageMode) (s : Vm) (r va : Nat) :
    framesNeeded m s r [va] = 1 + (s.missing r (tablePaths m va)).card := by
  rw [framesNeeded, tablePathsOf, List.foldr_cons, List.foldr_nil, Finset.union_empty,
    List.length_singleton]

theorem tablePathsOf_append (m : PageMode) (vas vas' : List Nat) :
    tablePathsOf m (vas ++ vas') = tablePathsOf m vas ∪ tablePathsOf m vas' := by
  induction vas with
  | nil => exact (Finset.empty_union _).symm
  | cons va vas ih =>
    show tablePaths m va ∪ tablePathsOf m (vas ++ vas') = _
    rw [ih, ← Finset.union_assoc]
    rfl

/-- More pages take more frames. -/
theorem framesNeeded_append_le (m : PageMode) (s : Vm) (r : Nat) (vas vas' : List Nat) :
    framesNeeded m s r vas + vas'.length ≤ framesNeeded m s r (vas ++ vas') := by
  have hsub : s.missing r (tablePathsOf m vas) ⊆ s.missing r (tablePathsOf m (vas ++ vas')) := by
    rw [tablePathsOf_append]
    exact Finset.filter_subset_filter _ Finset.subset_union_left
  -- more pages have more tables on their way
  have hcard := Finset.card_le_card hsub
  rw [framesNeeded, framesNeeded, List.length_append]
  omega

theorem framesNeeded_take_lt (m : PageMode) (s : Vm) (r : Nat) (vas : List Nat) {k l : Nat}
    (hkl : k < l) (hl : l ≤ vas.length) :
    framesNeeded m s r (vas.take k) < framesNeeded m s r (vas.take l) := by
  have hsplit := (List.take_append_drop k (vas.take l)).symm
  rw [List.take_take, Nat.min_eq_left hkl.le] at hsplit
  have hmore := framesNeeded_append_le m s r (vas.take k) ((vas.take l).drop k)
  rw [← hsplit, List.length_drop, List.length_take] at hmore
  omega

/-- **Backing a page**, with frames for the tables on its way. If there is none for the page
itself, its entry is made with NULL. -/
theorem RootOk.backPage (h : RootOk m s r) (flags : Nat)
    (hroot : root.or s.hhdmPageRootAddress = tablePtr m r) (hva : indexAt va 0 ≠ 510)
    (hsupply : (s.missing r (tablePaths m va)).card ≤ s.freeTables.length - 1) :
    ∃ s', backPage m root s (va, flags) = .ok s' ∧
      PageStep m s s' r va (pageValue m (s.freeTables.headD 0) va flags) := by
  -- the tables do not change when the frame of the page is taken
  have h₁ : RootOk m { s with freeTables := s.freeTables.tail } r :=
    h.same rfl (List.tail_suffix _) fun _ _ _ => rfl
  have howned : ∀ e ≤ pageDepth m, TablePath (pageDepth m) (pathTo va e) :=
    fun e he => tablePath_pathTo he hva
  have hframes : FramesFor { s with freeTables := s.freeTables.tail } r va (pageDepth m) :=
    framesFor_of_missing h₁.owned howned (by rw [List.length_tail]; exact hsupply)
  obtain ⟨s', ret, hrun, hhrun, hstep⟩ := h₁.map (s.freeTables.headD 0) flags hva hframes
  have htaken :=
    mapPhysToVirtAddr_supply (region_tablePath m) h₁.tables h₁.owned howned hframes hrun
  refine ⟨s', ?_, h₁.step hstep, hstep.confined.pointer, ?_,
    ⟨hstep.mapped.leaf, hstep.mapped.there, hstep.mapped.slots⟩⟩
  · unfold Dreamos64.backPage
    rw [newPagetable_headD]
    dsimp only
    rw [mapPhysToVirtAddrHh_root (by exact hroot), hhrun, ok_bind]
  · rw [htaken, framesNeeded_one, ← List.drop_drop, List.drop_one]
    rfl

/-- The tables that are there afterwards: those that were, and those on the way. -/
theorem PageMapped.descend_none_iff {v : Nat} {p : List (Fin 512)} (h : PageMapped m s s' r va v)
    (hp : TablePath (pageDepth m) p) :
    descend hwTable s'.entry r p = none ↔
      descend hwTable s.entry r p = none ∧ p ∉ tablePaths m va := by
  have hway : ∀ e < pageDepth m, descend hwTable s'.entry r (pathTo va (e + 1)) ≠ none := by
    intro e he hnone
    obtain ⟨n, hn⟩ := h.there
    obtain ⟨u, hu⟩ := descend_initial hn (Nat.succ_le_of_lt he)
    rw [Nat.succ_eq_add_one, hnone] at hu
    cases hu
  induction p using List.reverseRecOn with
  | nil => exact iff_of_false (fun h => nomatch h) fun h => nomatch h.1
  | append_singleton q j _ =>
    have hlen := hp.1
    rw [List.length_append, List.length_singleton] at hlen
    have hq : TablePath 3 q := by
      have := (tablePath_closed _ q j hp)
      exact ⟨this.1.trans (pageDepth_le m), this.2⟩
    -- a table hangs from a slot above the pages
    have hleaf : ¬ (q = pathTo va (pageDepth m) ∧ j = indexAt va (pageDepth m)) := by
      rintro ⟨rfl, -⟩
      rw [length_pathTo] at hlen
      omega
    have hchild : descend hwTable s'.entry r (q ++ [j]) = hwTable (s'.hwSlot r q j) :=
      descend_slot hwTable_zero
    have hchild₀ : descend hwTable s.entry r (q ++ [j]) = hwTable (s.hwSlot r q j) :=
      descend_slot hwTable_zero
    rcases h.slots q j hq hleaf with hsame | ⟨⟨e, he, rfl, rfl⟩, habsent, hlink⟩
    · rw [hchild, hchild₀, hsame]
      refine ⟨fun hnone => ⟨hnone, fun hmem => ?_⟩, fun hnone => hnone.1⟩
      obtain ⟨e, he, hpath⟩ := mem_pathsBelow.mp hmem
      refine hway e he ?_
      rw [hpath, hchild, hsame, hnone]
    · refine iff_of_false (hway e he) fun hnone => hnone.2 ?_
      exact mem_pathsBelow.mpr ⟨e, he, rfl⟩

theorem tablePaths_path {p : List (Fin 512)} (hva : indexAt va 0 ≠ 510)
    (hp : p ∈ tablePaths m va) : TablePath (pageDepth m) p := by
  obtain ⟨e, he, rfl⟩ := mem_pathsBelow.mp hp
  exact tablePath_pathTo he hva

theorem tablePathsOf_path {vas : List Nat} {p : List (Fin 512)}
    (hvas : ∀ va ∈ vas, indexAt va 0 ≠ 510) (hp : p ∈ tablePathsOf m vas) :
    TablePath (pageDepth m) p := by
  induction vas with
  | nil => exact absurd hp (Finset.notMem_empty p)
  | cons va vas ih =>
    rcases Finset.mem_union.mp hp with hp | hp
    · exact tablePaths_path (hvas va List.mem_cons_self) hp
    · exact ih (fun va hva => hvas va (List.mem_cons_of_mem _ hva)) hp

/-- What is missing afterwards. -/
theorem PageMapped.missing {v : Nat} {vas : List Nat} (h : PageMapped m s s' r va v)
    (hvas : ∀ va ∈ vas, indexAt va 0 ≠ 510) :
    s'.missing r (tablePathsOf m vas) = s.missing r (tablePathsOf m vas) \ tablePaths m va := by
  -- a path is missing afterwards if it was before and is not one of the new page's
  ext p
  rw [Finset.mem_sdiff, mem_missing, mem_missing]
  constructor
  · rintro ⟨hp, hnone⟩
    obtain ⟨hnone₀, hnew⟩ := (h.descend_none_iff (tablePathsOf_path hvas hp)).mp hnone
    exact ⟨⟨hp, hnone₀⟩, hnew⟩
  · rintro ⟨⟨hp, hnone₀⟩, hnew⟩
    exact ⟨hp, (h.descend_none_iff (tablePathsOf_path hvas hp)).mpr ⟨hnone₀, hnew⟩⟩

/-- **Counting page by page.** A table that several pages need is paid for once. -/
theorem framesNeeded_cons {v : Nat} {vas : List Nat} (h : PageMapped m s s' r va v)
    (hvas : ∀ va ∈ vas, indexAt va 0 ≠ 510) :
    framesNeeded m s r (va :: vas) = framesNeeded m s r [va] + framesNeeded m s' r vas := by
  -- what is missing is split into what the first page pays for and the rest
  have hsplit : s.missing r (tablePathsOf m (va :: vas)) =
      s.missing r (tablePaths m va) ∪ s'.missing r (tablePathsOf m vas) := by
    rw [h.missing hvas]
    ext p
    simp only [tablePathsOf, List.foldr_cons, Finset.mem_union, Finset.mem_sdiff, mem_missing]
    tauto
  have hdisjoint :
      Disjoint (s.missing r (tablePaths m va)) (s'.missing r (tablePathsOf m vas)) := by
    rw [h.missing hvas, Finset.disjoint_left]
    intro p hp hp'
    exact (Finset.mem_sdiff.mp hp').2 (mem_missing.mp hp).1
  rw [framesNeeded_one]
  unfold framesNeeded
  rw [hsplit, Finset.card_union_of_disjoint hdisjoint, List.length_cons]
  omega

end Page

/-! ## A list of pages -/

/-- What backing some pages does. The frame of a page is the one that is due after the pages
before it. -/
structure PagesStep (m : PageMode) (s s' : Vm) (r : Nat) (pages : List (Nat × Nat)) : Prop where
  root       : RootOk m s' r
  pointer    : s'.hhdmPageRootAddress = s.hhdmPageRootAddress
  supply     : s'.freeTables = s.freeTables.drop (framesNeeded m s r (pages.map Prod.fst))
  kept       : ∀ a, indexAt a 0 ≠ 510 → s.pageSlot m r a % 2 = 1 →
    s'.pageSlot m r a = s.pageSlot m r a
  translated : ∀ a, indexAt a 0 ≠ 510 →
    (∀ page ∈ pages, SamePage m a page.1 → s.pageSlot m r a % 2 = 1) →
    translate s' r a = translate s r a
  backed     : ∀ i page frame, pages[i]? = some page → s.pageSlot m r page.1 % 2 = 0 →
    (∀ q ∈ pages.take i, ¬ SamePage m page.1 q.1) →
    s.freeTables[framesNeeded m s r ((pages.take i).map Prod.fst)]? = some frame →
    s'.pageSlot m r page.1 = pageValue m frame page.1 page.2

section Pages

variable {m : PageMode} {s s' : Vm} {r : Nat} {root : Option Nat}

theorem PageStep.kept {va v a : Nat} (h : PageStep m s s' r va v) (ha : indexAt a 0 ≠ 510)
    (hpresent : s.pageSlot m r a % 2 = 1) : s'.pageSlot m r a = s.pageSlot m r a :=
  h.mapped.present (tablePath_pathTo (pageDepth_le m) ha) hpresent

/-- Addresses outside of the page, and those of a page that was mapped, lead where they led. -/
theorem PageStep.translated {va v a : Nat} (h : PageStep m s s' r va v) (ha : indexAt a 0 ≠ 510)
    (hkeep : SamePage m a va → s.pageSlot m r a % 2 = 1) : translate s' r a = translate s r a := by
  by_cases hsame : SamePage m a va
  · refine Extended.translate_eq fun d hd => Or.inl ?_
    have hpage := hkeep hsame
    rw [hsame.pageSlot_eq] at hpage
    exact h.mapped.again hpage (tablePath_pathTo hd ha)
  · exact translate_other h.mapped ha hsame

theorem PagesStep.nil (h : RootOk m s r) : PagesStep m s s r [] :=
  ⟨h, rfl, rfl, fun _ _ _ => rfl, fun _ _ _ => rfl, fun i page frame hi => by
    rw [List.getElem?_nil] at hi
    cases hi⟩

theorem PagesStep.cons {s₁ : Vm} {va flags : Nat} {pages : List (Nat × Nat)}
    (h₁ : PageStep m s s₁ r va (pageValue m (s.freeTables.headD 0) va flags))
    (hflags : flags % 2 = 1) (h : PagesStep m s₁ s' r pages) (hva : indexAt va 0 ≠ 510)
    (hpages : ∀ page ∈ pages, indexAt page.1 0 ≠ 510) :
    PagesStep m s s' r ((va, flags) :: pages) where
  root := h.root
  pointer := h.pointer.trans h₁.pointer
  supply := by
    rw [h.supply, h₁.supply, List.drop_drop, List.map_cons,
      framesNeeded_cons h₁.mapped (List.forall_mem_map.mpr hpages)]
  kept := fun a ha hpresent => by
    have hfirst := h₁.kept ha hpresent
    rw [h.kept a ha (hfirst ▸ hpresent), hfirst]
  translated := fun a ha hkeep => by
    rw [h.translated a ha, h₁.translated ha (hkeep _ List.mem_cons_self)]
    intro page hpage hsame
    have hpresent := hkeep page (List.mem_cons_of_mem _ hpage) hsame
    rwa [h₁.kept ha hpresent]
  backed := fun i page frame' hi habsent hnew hframe => by
    cases i with
    | zero =>
      cases hi
      -- the first frame of the supply is for the first page, and later pages leave it alone
      have hfirst : framesNeeded m s r (([] : List (Nat × Nat)).map Prod.fst) = 0 := rfl
      rw [List.take_zero, hfirst, ← List.head?_eq_getElem?] at hframe
      have hleaf : s₁.pageSlot m r va = pageValue m frame' va flags := by
        rw [Vm.pageSlot, h₁.mapped.leaf, if_pos habsent, List.headD_eq_head?_getD, hframe,
          Option.getD_some]
      rw [h.kept va hva (by rw [hleaf]; exact pageValue_present _ _ hflags), hleaf]
    | succ i =>
      rw [List.getElem?_cons_succ] at hi
      -- a later page: its slot is as it was, and its frame is due that much later
      have hmem : page ∈ pages := List.mem_of_getElem? hi
      have hother := h₁.mapped.pageSlot_other (hpages page hmem)
        (hnew (va, flags) (by rw [List.take_succ_cons]; exact List.mem_cons_self))
      refine h.backed i page frame' hi (hother ▸ habsent) (fun q hq => hnew q ?_) ?_
      · rw [List.take_succ_cons]
        exact List.mem_cons_of_mem _ hq
      · rw [List.take_succ_cons, List.map_cons, framesNeeded_cons h₁.mapped] at hframe
        · rw [h₁.supply, List.getElem?_drop]
          exact hframe
        · intro va' hva'
          obtain ⟨q, hq, rfl⟩ := List.mem_map.mp hva'
          exact hpages q (List.mem_of_mem_take hq)

/-- **Backing a list of pages**, with frames for all of them. -/
theorem RootOk.backPages (pages : List (Nat × Nat)) (h : RootOk m s r)
    (hroot : root.or s.hhdmPageRootAddress = tablePtr m r)
    (hpages : ∀ page ∈ pages, indexAt page.1 0 ≠ 510 ∧ page.2 % 2 = 1)
    (hsupply : framesNeeded m s r (pages.map Prod.fst) ≤ s.freeTables.length) :
    ∃ s', pages.foldlM (Dreamos64.backPage m root) s = .ok s' ∧ PagesStep m s s' r pages := by
  induction pages generalizing s with
  | nil => exact ⟨s, rfl, PagesStep.nil h⟩
  | cons page pages ih =>
    obtain ⟨va, flags⟩ := page
    obtain ⟨hva, hflags⟩ := hpages (va, flags) List.mem_cons_self
    have hrest : ∀ page ∈ pages, indexAt page.1 0 ≠ 510 ∧ page.2 % 2 = 1 :=
      fun page hpage => hpages page (List.mem_cons_of_mem _ hpage)
    have hvas : ∀ va ∈ pages.map Prod.fst, indexAt va 0 ≠ 510 :=
      List.forall_mem_map.mpr fun page hpage => (hrest page hpage).1
    -- no page alone needs more than all of them
    have hone : framesNeeded m s r [va] ≤ framesNeeded m s r (va :: pages.map Prod.fst) :=
      (Nat.le_add_right _ _).trans (framesNeeded_append_le m s r [va] (pages.map Prod.fst))
    have hfirst := hone.trans hsupply
    rw [framesNeeded_one] at hfirst
    obtain ⟨s₁, hrun, h₁⟩ := h.backPage flags hroot hva (Nat.le_sub_of_add_le' hfirst)
    have hleft : framesNeeded m s₁ r (pages.map Prod.fst) ≤ s₁.freeTables.length := by
      rw [List.map_cons, framesNeeded_cons h₁.mapped hvas] at hsupply
      rw [h₁.supply, List.length_drop]
      omega
    obtain ⟨s', hrun', h'⟩ := ih h₁.root (by rw [h₁.pointer]; exact hroot) hrest hleft
    refine ⟨s', by rw [List.foldlM_cons, hrun, ok_bind, hrun'], ?_⟩
    exact h'.cons h₁ hflags hva fun page hpage => (hrest page hpage).1

end Pages

end Dreamos64

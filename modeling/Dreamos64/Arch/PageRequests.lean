import Dreamos64.Arch.HardwareTree

/-!
# Dreamos64 — mapping several pages

A sequence of calls of `map_phys_to_virt_addr`, each for a page of its own. If the pages are not
mapped before, and there are frames for the tables, every one of them is afterwards translated to
the frame that it was mapped to, and no other address is translated differently.

* `mapPages_spec` — what the calls do to the translation of addresses.
-/

namespace Dreamos64

open Machine

/-- The arguments of a call of `map_phys_to_virt_addr`, its flags aside. -/
structure PageRequest where
  physicalAddress : Nat
  address         : Nat
  deriving DecidableEq, Repr

/-- The flags that a page is mapped with. -/
def requestFlags : Nat := vmmFlagsPresent ||| vmmFlagsWriteEnable

/-- The calls, one after the other. -/
def Vm.mapPages (m : PageMode) (s : Vm) (r : Nat) (requests : List PageRequest) : Exec Vm :=
  requests.foldlM (fun s q => do
    let (_, s) ← mapPhysToVirtAddr m s r q.physicalAddress q.address requestFlags
    .ok s) s

/-- The paths to the tables of the pages. -/
def OnWay (m : PageMode) (requests : List PageRequest) (p : List (Fin 512)) : Prop :=
  ∃ q ∈ requests, ∃ d ≤ pageDepth m, p = pathTo q.address d

/-- The pages are apart, none of them is mapped, and there are frames for all tables that may be
missing. Physical addresses have no more bits than an entry has room for. -/
structure RequestsReady (m : PageMode) (Own : List (Fin 512) → Prop) (s : Vm) (r : Nat)
    (requests : List PageRequest) : Prop where
  tables   : HwTables s r
  owned    : Owned Own s r
  way      : ∀ q ∈ requests, ∀ d ≤ pageDepth m, Own (pathTo q.address d)
  leaf     : ∀ q ∈ requests,
    ¬ Own (pathTo q.address (pageDepth m) ++ [indexAt q.address (pageDepth m)])
  root     : ∀ q ∈ requests, indexAt q.address 0 ≠ 510
  physical : ∀ q ∈ requests, q.physicalAddress < 2 ^ 52
  supply   : pageDepth m * requests.length ≤ s.freeTables.length
  vacant   : ∀ q ∈ requests, s.pageSlot m r q.address % 2 = 0
  apart    : requests.Pairwise fun q q' => ¬ SamePage m q'.address q.address

/-- Page tables in order, in which none of the pages is mapped yet, with frames for the tables
that may be missing, and the recursive entry out of the way. -/
structure PagesVacant (m : PageMode) (s : Vm) (r : Nat) (requests : List PageRequest) : Prop where
  tables : HwTables s r
  owned  : Owned (OnWay m requests) s r
  root   : ∀ q ∈ requests, indexAt q.address 0 ≠ 510
  supply : pageDepth m * requests.length ≤ s.freeTables.length
  vacant : ∀ q ∈ requests, s.pageSlot m r q.address % 2 = 0

section Requests

variable {m : PageMode} {s : Vm} {r : Nat} {Own : List (Fin 512) → Prop}
  {q : PageRequest} {requests : List PageRequest}

theorem hwFrame_requestFlags : hwFrame requestFlags = 0 := by decide

theorem isWritable_pageValue (m : PageMode) (pa va : Nat) :
    isWritable (pageValue m pa va requestFlags) = true := by
  have hflags : requestFlags.testBit 1 = true := by decide
  unfold isWritable pageValue leafValue
  cases m <;> split_ifs <;> simp only [Nat.testBit_or, hflags, Bool.or_true, Bool.true_or]

theorem SamePage.symm {a b : Nat} (h : SamePage m a b) : SamePage m b a := ⟨h.1.symm, h.2.symm⟩

theorem SamePage.trans {a b c : Nat} (h : SamePage m a b) (h' : SamePage m b c) : SamePage m a c :=
  ⟨h.1.trans h'.1, h.2.trans h'.2⟩

/-- Addresses of one page have the same entry in the root. -/
theorem SamePage.root_eq {a b : Nat} (h : SamePage m a b) : indexAt a 0 = indexAt b 0 := by
  have hpos : 0 < pageDepth m := by cases m <;> decide
  exact (pathTo_initial h.1 0 hpos).2

/-- **One call**: the page is translated to its frame, and the others are ready as before. -/
theorem RequestsReady.step (hreg : Region Own) (h : RequestsReady m Own s r (q :: requests)) :
    ∃ s', mapPhysToVirtAddr m s r q.physicalAddress q.address requestFlags = .ok (q.address, s') ∧
      RequestsReady m Own s' r requests ∧
      (∀ a, SamePage m a q.address → translate s' r a =
        some ⟨q.physicalAddress / pageSizeInBytes m * pageSizeInBytes m + a % pageSizeInBytes m,
          true⟩) ∧
      ∀ a, indexAt a 0 ≠ 510 → ¬ SamePage m a q.address → translate s' r a = translate s r a := by
  have hmem : q ∈ q :: requests := List.mem_cons_self
  have hrest : ∀ q' ∈ requests, q' ∈ q :: requests := fun q' => List.mem_cons_of_mem q
  have hsupply := h.supply
  rw [List.length_cons, Nat.mul_add, Nat.mul_one] at hsupply
  obtain ⟨s', hrun, -, hok', hown', -, hused, hmap⟩ := mapPage_spec q.physicalAddress requestFlags
    hreg h.tables h.owned (h.way q hmem) (h.leaf q hmem) fun e _ _ => by omega
  rw [if_pos (h.vacant q hmem)] at hmap
  obtain ⟨hapart, hpairs⟩ := List.pairwise_cons.mp h.apart
  refine ⟨s', hrun, ?_, fun a ha => ?_, fun a hroot hne => translate_other hmap hroot hne⟩
  · refine ⟨hok', hown', fun q' hq => h.way q' (hrest q' hq), fun q' hq => h.leaf q' (hrest q' hq),
      fun q' hq => h.root q' (hrest q' hq), fun q' hq => h.physical q' (hrest q' hq), by omega,
      fun q' hq => ?_, hpairs⟩
    rw [hmap.pageSlot_other (h.root q' (hrest q' hq)) (hapart q' hq)]
    exact h.vacant q' (hrest q' hq)
  · rw [translate_mapped hmap hown' (h.way q hmem) ha
      (pageValue_present _ _ (by decide)) fun hm => by rw [hm]; exact pageValue_huge _ _ _,
      pageByte_pageValue_frame (h.physical q hmem) hwFrame_requestFlags, isWritable_pageValue]

/-- **The calls** map every page, and nothing else. -/
theorem mapPages_spec (hreg : Region Own) (h : RequestsReady m Own s r requests) :
    ∃ s', s.mapPages m r requests = .ok s' ∧
      (∀ q ∈ requests, ∀ a, SamePage m a q.address → translate s' r a =
        some ⟨q.physicalAddress / pageSizeInBytes m * pageSizeInBytes m + a % pageSizeInBytes m,
          true⟩) ∧
      ∀ a, indexAt a 0 ≠ 510 → (∀ q ∈ requests, ¬ SamePage m a q.address) →
        translate s' r a = translate s r a := by
  -- on the calls; what one of them has mapped is not in a page of a later one
  induction requests generalizing s with
  | nil => exact ⟨s, rfl, fun q hq => absurd hq List.not_mem_nil, fun a _ _ => rfl⟩
  | cons q requests ih =>
    obtain ⟨s₁, hrun, hready, hmapped, hother⟩ := h.step hreg
    obtain ⟨s', hrest, hmapped', hother'⟩ := ih hready
    refine ⟨s', ?_, fun q' hq a ha => ?_, fun a hroot hout => ?_⟩
    · unfold Vm.mapPages at hrest ⊢
      rw [List.foldlM_cons, hrun]
      exact hrest
    · rcases List.mem_cons.mp hq with rfl | hq
      · have hroot : indexAt a 0 ≠ 510 := by
          rw [ha.root_eq]
          exact h.root q' List.mem_cons_self
        rw [hother' a hroot fun q₁ hq₁ hsame => (List.pairwise_cons.mp h.apart).1 q₁ hq₁
          (hsame.symm.trans ha)]
        exact hmapped a ha
      · exact hmapped' q' hq a ha
    · rw [hother' a hroot fun q' hq => hout q' (List.mem_cons_of_mem q hq)]
      exact hother a hroot (hout q List.mem_cons_self)

theorem region_onWay (hroot : ∀ q ∈ requests, indexAt q.address 0 ≠ 510) :
    Region (OnWay m requests) where
  closed := by
    rintro p i ⟨q, hq, d, hd, hpath⟩
    cases d with
    | zero => exact absurd hpath (List.append_ne_nil_of_right_ne_nil _ (List.cons_ne_nil _ _))
    | succ d =>
      obtain ⟨rfl, -⟩ := List.append_inj' hpath rfl
      exact ⟨q, hq, d, by omega, rfl⟩
  paths := by
    rintro p ⟨q, hq, d, hd, rfl⟩
    exact tablePath_pathTo (hd.trans (pageDepth_le m)) (hroot q hq)

theorem PagesVacant.ready (h : PagesVacant m s r requests)
    (hphysical : ∀ q ∈ requests, q.physicalAddress < 2 ^ 52)
    (hapart : requests.Pairwise fun q q' => ¬ SamePage m q'.address q.address) :
    RequestsReady m (OnWay m requests) s r requests where
  tables   := h.tables
  owned    := h.owned
  way      := fun q hq d hd => ⟨q, hq, d, hd, rfl⟩
  leaf     := by
    -- the slot of a page is not on the way to a table
    rintro q - ⟨q', -, d, hd, hpath⟩
    have hlen := congrArg List.length hpath
    rw [List.length_append, List.length_singleton, length_pathTo, length_pathTo] at hlen
    omega
  root     := h.root
  physical := hphysical
  supply   := h.supply
  vacant   := h.vacant
  apart    := hapart

end Requests

end Dreamos64

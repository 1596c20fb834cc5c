import Dreamos64.Mem.VmmFree

/-!
# Dreamos64 — what `vmm_free` finds

`vmm_free` looks for an address in two steps. The container is the last one, from the root on,
whose first item is below the address; the item is the first one in it that starts at the
address, which for a stack is lowered to the base first. The first step compares with `<`, and
with the address as it was returned: the two steps can disagree at the first item of a container,
and for a stack near the end of one.

* `vmmFreeFound`      — the container and the index that the two steps give;
* `vmmFree_of_found`, `vmmFree_of_missed` — they decide what `vmm_free` does;
* `vmm_free_finds`    — after any allocations, the item of a range is found exactly if it is not
  the first one of its container; or, for a stack, if the address is between the first items of
  its container and of the next.
-/

namespace Dreamos64

open Machine

/-- `container_containing_address`, and the `i` at which `vmm_free` leaves its loop over the
items; `none` if it has no container, or comes to the end of it. -/
def vmmFreeFound (address : Nat) (isStack : Bool) (s : Vmm) : Option (Nat × Nat) :=
  if address = 0 then none
  else if s.info.vmmItemsPerPage = 0 then none
  else
    match freeSearch s address with
    | .ok (_, _, some containing) =>
      ((List.range s.info.vmmItemsPerPage).find? fun i =>
        ((s.container containing).vmmRoot i).base = freedBase address isStack).map
          fun i => (containing, i)
    | _ => none

section Found

variable {s t : Vmm} {address : Nat} {isStack : Bool}

theorem vmmFreeFound_search {selected : Option Nat} {prev containing : Nat}
    (haddress : address ≠ 0) (hperPage : s.info.vmmItemsPerPage ≠ 0)
    (hsearch : freeSearch s address = .ok (selected, prev, some containing)) :
    vmmFreeFound address isStack s =
      ((List.range s.info.vmmItemsPerPage).find? fun i =>
        ((s.container containing).vmmRoot i).base = freedBase address isStack).map
          fun i => (containing, i) := by
  unfold vmmFreeFound
  rw [if_neg haddress, if_neg hperPage, hsearch]

/-- What is found, is found in a container that the search gave. -/
theorem vmmFreeFound_inv {containing i : Nat}
    (h : vmmFreeFound address isStack s = some (containing, i)) :
    address ≠ 0 ∧ s.info.vmmItemsPerPage ≠ 0 ∧
      ∃ selected prev, freeSearch s address = .ok (selected, prev, some containing) := by
  unfold vmmFreeFound at h
  split_ifs at h with haddress hperPage
  refine ⟨haddress, hperPage, ?_⟩
  split at h
  · next selected prev found hsearch =>
    obtain ⟨j, -, heq⟩ := Option.map_eq_some_iff.mp h
    cases heq
    exact ⟨selected, prev, hsearch⟩
  · cases h

/-- **With an item found**, the current container counts it, and may be given up. -/
theorem vmmFree_of_found {containing i : Nat}
    (h : vmmFreeFound address isStack s = some (containing, i)) :
    ((s.container containing).vmmRoot i).base = freedBase address isStack ∧
      ∃ selected prev, vmmFree address isStack s = releaseContainer (countOne s) selected prev := by
  obtain ⟨haddress, hperPage, selected, prev, hsearch⟩ := vmmFreeFound_inv h
  rw [vmmFreeFound_search haddress hperPage hsearch] at h
  obtain ⟨j, hj, heq⟩ := Option.map_eq_some_iff.mp h
  cases heq
  rw [List.find?_range_eq_some] at hj
  refine ⟨of_decide_eq_true hj.1, selected, prev, ?_⟩
  -- the loop that finds the item and the one that counts it are the same
  unfold vmmFree
  rw [if_neg haddress, if_neg hperPage, hsearch, ok_bind]
  dsimp only
  unfold countFreed
  rw [if_pos (List.any_eq_true.mpr ⟨i, hj.2.1, hj.1⟩)]

/-- **With none found**, it does not count anything. -/
theorem vmmFree_of_missed (h : vmmFreeFound address isStack s = none)
    (hfree : vmmFree address isStack s = .ok t) :
    t = s ∨ ∃ selected prev, releaseContainer s selected prev = .ok t := by
  unfold vmmFree at hfree
  by_cases haddress : address = 0
  · rw [if_pos haddress] at hfree
    exact .inl (Except.ok.inj hfree).symm
  rw [if_neg haddress] at hfree
  by_cases hperPage : s.info.vmmItemsPerPage = 0
  · rw [if_pos hperPage] at hfree
    exact .inl (Except.ok.inj hfree).symm
  rw [if_neg hperPage] at hfree
  obtain ⟨⟨selected, prev, containing⟩, hsearch, hfree⟩ := bind_inv hfree
  cases containing with
  | none =>
    -- without a container the log follows NULL, and the call does not return
    cases hfree
  | some containing =>
    rw [vmmFreeFound_search haddress hperPage hsearch, Option.map_eq_none_iff,
      List.find?_eq_none] at h
    have hmissing := countFreed_missing (s := s) fun i hi hbase =>
      h i (List.mem_range.mpr hi) (decide_eq_true hbase)
    dsimp only at hfree
    rw [hmissing] at hfree
    exact .inr ⟨selected, prev, hfree⟩

end Found

/-! ## Ranges that are held -/

section Held

variable {m : PageMode} {start root origin : Nat} {s : VmmHeld} {ledger : List VmmItem}
  {r : HeldRange} {n : Nat}

/-- Where container `k` of a manager begins to record. -/
def firstBase (m : PageMode) (root : Nat) (s : VmmHeld) (k : Nat) : Nat :=
  ((s.vmm.container (containerAt m root k)).vmmRoot 0).base

namespace HeldInv

section

variable (h : HeldInv m start root s origin ledger)

include h

/-- The first item in its container that starts where a range does is its own. -/
theorem find_item (hn : ledger[n]? = some r.item) :
    (List.range s.vmm.info.vmmItemsPerPage).find? (fun i =>
      ((s.vmm.container (containerAt m root (n / vmmRootLength m))).vmmRoot i).base =
        r.item.base) = some (n % vmmRootLength m) := by
  have hpos := vmmRootLength_pos m
  have hmod := Nat.mod_lt n hpos
  have hsplit := Nat.div_add_mod' n (vmmRootLength m)
  have hlt := (List.getElem?_eq_some_iff.mp hn).1
  rw [List.find?_range_eq_some, List.mem_range, h.records.perPage]
  refine ⟨decide_eq_true (by rw [h.records.items n r.item hn]), hmod, fun i hi => ?_⟩
  -- an earlier slot has an earlier range
  obtain ⟨hdiv, hslot⟩ := slot_of_index (Nat.lt_trans hi hmod) (q := n / vmmRootLength m)
  have hearlier : n / vmmRootLength m * vmmRootLength m + i < ledger.length := by omega
  have hitem := List.getElem?_eq_getElem hearlier
  have hrecorded := h.records.items _ _ hitem
  rw [hdiv, hslot] at hrecorded
  have hless := h.base_lt hitem hn (by omega)
  rw [hrecorded, Bool.not_eq_true', decide_eq_false_iff_not]
  omega

/-- The item of a range is found exactly if the search selects its container. -/
theorem found_iff (hr : r ∈ s.live) (hn : ledger[n]? = some r.item)
    (hcontainer : r.container = containerAt m root (n / vmmRootLength m))
    (hslot : r.slot = n % vmmRootLength m) :
    vmmFreeFound r.address (isAddressStack r.item.flags) s.vmm = some (r.container, r.slot) ↔
      firstBase m root s (n / vmmRootLength m) < r.address ∧
        (n / vmmRootLength m + 1 < s.vmm.info.vmmNumberOfContainers →
          r.address ≤ firstBase m root s (n / vmmRootLength m + 1)) := by
  have hperPage : s.vmm.info.vmmItemsPerPage ≠ 0 := by
    have hpos := vmmRootLength_pos m
    rw [h.records.perPage]
    omega
  have hlt := h.container_lt hn
  generalize hq : n / vmmRootLength m = q at *
  -- the search passes `j` containers
  obtain ⟨j, hpasses⟩ := exists_stopsAt m root s.vmm r.address
  have hj := hpasses.le
  have hsearch := freeSearch_eq h.records hpasses
  constructor
  · intro hfound
    obtain ⟨-, -, selected, prev, hselected⟩ := vmmFreeFound_inv hfound
    rw [hsearch] at hselected
    have hcontaining := (Prod.mk.inj (Prod.mk.inj (Except.ok.inj hselected)).2).2
    have hpassed : j ≠ 0 ∧ j - 1 = q := by
      split_ifs at hcontaining with hzero
      rw [hcontainer, Option.some_inj, containerAt_inj] at hcontaining
      exact ⟨hzero, hcontaining⟩
    refine ⟨hpasses.low q (by omega), fun hnext => Nat.not_lt.mp ?_⟩
    have hstop := hpasses.high (by omega)
    rwa [(by omega : j = q + 1)] at hstop
  · rintro ⟨hbelow, hnext⟩
    have haddress : r.address ≠ 0 := by omega
    have hpassed : j = q + 1 := by
      refine Nat.le_antisymm (Nat.not_lt.mp fun hgt => ?_) (Nat.lt_of_not_le fun hle => ?_)
      · -- not past the next container, which begins at the address or above
        have hpast := hpasses.low (q + 1) hgt
        have habove := hnext (by omega)
        unfold firstBase at habove
        omega
      · -- and not before its own, since the containers before it begin lower
        have hstop := hpasses.high (by omega)
        have hfirst := h.first_le hr hle hlt
        unfold firstBase at hbelow
        omega
    subst hpassed
    have hcontaining : freeSearch s.vmm r.address = .ok (_, _, some (containerAt m root q)) :=
      hsearch
    have hbase : freedBase r.address (isAddressStack r.item.flags) = r.item.base :=
      h.freed_base hr
    have hitem := h.find_item hn
    rw [hq] at hitem
    rw [vmmFreeFound_search haddress hperPage hcontaining, hbase, hitem, hcontainer, hslot]
    rfl

/-- A range that is no stack is behind the first item of its container, unless it is that. -/
theorem firstBase_lt_iff (hr : r ∈ s.live) (hn : ledger[n]? = some r.item) :
    firstBase m root s (n / vmmRootLength m) < r.item.base ↔ n % vmmRootLength m ≠ 0 := by
  have hsplit := Nat.div_add_mod' n (vmmRootLength m)
  have hfirst := h.first_item (h.first_used hr (h.container_lt hn))
  unfold firstBase
  constructor
  · intro hless hzero
    rw [hzero, Nat.add_zero] at hsplit
    rw [hsplit, hn] at hfirst
    rw [← Option.some_inj.mp hfirst] at hless
    exact Nat.lt_irrefl _ hless
  · intro hne
    exact h.base_lt hfirst hn (by omega)

/-- It starts below the next container's first item. -/
theorem base_le_next (hr : r ∈ s.live) (hn : ledger[n]? = some r.item)
    (hnext : n / vmmRootLength m + 1 < s.vmm.info.vmmNumberOfContainers) :
    r.item.base ≤ firstBase m root s (n / vmmRootLength m + 1) := by
  have hpos := vmmRootLength_pos m
  have hsplit := Nat.div_add_mod' n (vmmRootLength m)
  have hmod := Nat.mod_lt n hpos
  have hfirst := h.first_item (h.first_used hr hnext)
  refine Nat.le_of_lt (h.base_lt hn hfirst ?_)
  rw [Nat.succ_mul]
  omega

end

end HeldInv

end Held

/-! ## Runs -/

/-- The item of a range is where a search for it can find it: for a stack, between the first
items of its container and of the next one; for another range, not the first of its container. -/
def Findable (s : VmmHeld) (r : HeldRange) : Prop :=
  if isAddressStack r.item.flags then
    ((s.vmm.container r.container).vmmRoot 0).base < r.address ∧
      ∀ next, (s.vmm.container r.container).next = some next →
        r.address ≤ ((s.vmm.container next).vmmRoot 0).base
  else r.slot ≠ 0

/-- **Finding what is freed.** After `vmm_init` and any sequence of calls, `vmm_free` of the
address that one of them returned finds its item exactly if that is findable. -/
theorem vmm_free_finds (m : PageMode) (level : VmmLevel) (memorySizeInBytes : Nat)
    (rootTable : Option Nat) (s₀ : Vmm) (start : Nat) (hframes : s₀.frames ≠ [])
    (hstart : start = (vmmInit m level memorySizeInBytes rootTable s₀).info.startOfVmmSpace)
    (calls : List VmmCall) (t : VmmHeld)
    (hrun : Run (heldStep m start) (initialHeld m level memorySizeInBytes rootTable s₀)
      (calls.map .call) t) (r : HeldRange) (hr : r ∈ t.live) :
    vmmFreeFound r.address (isAddressStack r.item.flags) t.vmm = some (r.container, r.slot) ↔
      Findable t r := by
  have hinit := HeldInv.init m level memorySizeInBytes rootTable hframes
  rw [← hstart] at hinit
  generalize (vmmInit m level memorySizeInBytes rootTable s₀).info.vmmContainerRoot = root at hinit
  -- nothing is freed in the run
  obtain ⟨origin, ledger, h⟩ := hinit.reached (fun before r u hpre => by
    have hmem := hpre.subset (List.mem_append_right before List.mem_cons_self)
    obtain ⟨c, -, hc⟩ := List.mem_map.mp hmem
    cases hc) (List.prefix_refl _) hrun
  obtain ⟨n, hn, hcontainer, hslot⟩ := h.places r hr
  have hlt := h.container_lt hn
  rw [h.found_iff hr hn hcontainer hslot]
  unfold Findable
  -- a stack is looked for by its upper end, any other range by its base
  split_ifs with hstack
  · rw [hcontainer, h.records.linked _ hlt]
    refine and_congr_right fun _ => ?_
    by_cases hnext : n / vmmRootLength m + 1 < t.vmm.info.vmmNumberOfContainers
    · rw [if_pos hnext]
      constructor
      · intro hle next hsome
        cases hsome
        exact hle hnext
      · exact fun hle _ => hle _ rfl
    · rw [if_neg hnext]
      exact iff_of_true (fun h => absurd h hnext) fun next hnone => nomatch hnone
  -- the next container never matters here: it begins above the base
  · have haddress : r.address = r.item.base := by
      rw [h.returned r hr]
      exact if_neg hstack
    rw [haddress, h.firstBase_lt_iff hr hn, hslot]
    exact and_iff_left fun hnext => h.base_le_next hr hn hnext

/-- Calls for a page of addresses each. -/
def pageCalls (n : Nat) : List VmmCall := List.replicate n (.alloc 4096 vmmFlagsAddressOnly)

/-- Of two ranges the second is found. -/
theorem vmm_free_finds_second : ∃ t,
    Run (heldStep .small 4096) (initialHeld .small .user 0 none blankVmm)
      ((pageCalls 2).map .call) t ∧ heldPage 1 ∈ t.live ∧
    vmmFreeFound (heldPage 1).address false t.vmm =
      some ((heldPage 1).container, (heldPage 1).slot) := by
  obtain ⟨t, hrun, hheld⟩ : ∃ t, Run (heldStep .small 4096)
      (initialHeld .small .user 0 none blankVmm) ((pageCalls 2).map .call) t ∧
      heldPage 1 ∈ t.live := exists_held (by decide +kernel)
  have hfindable : Findable t (heldPage 1) := (by decide : (heldPage 1).slot ≠ 0)
  exact ⟨t, hrun, hheld, (vmm_free_finds .small .user 0 none blankVmm 4096 (by decide) rfl
    (pageCalls 2) t hrun (heldPage 1) hheld).mpr hfindable⟩

/-- A stack of one page, as the last range of the first container. -/
def heldStack : HeldRange :=
  ⟨⟨4096 * 169, 4096, vmmFlagsStack ||| vmmFlagsAddressOnly⟩,
    4096 * 169 + threadDefaultStackSize, 0xffff800280002000, 168⟩

/-- Calls that fill a container, with a stack at its end, and need another one. -/
def stackCalls : List VmmCall :=
  pageCalls 168 ++ [.alloc 4096 (vmmFlagsStack ||| vmmFlagsAddressOnly)] ++ pageCalls 1

/-- For the only range there is, no container is selected, and NULL is followed; and the item of
a stack at the end of a container is looked for in the next one. -/
theorem vmm_free_misses :
    (∃ t, Run (heldStep .small 4096) (initialHeld .small .user 0 none blankVmm)
        ((pageCalls 1).map .call) t ∧ heldPage 0 ∈ t.live ∧
      vmmFreeFound (heldPage 0).address false t.vmm = none ∧
      vmmFree (heldPage 0).address false t.vmm matches .error .nullPointer) ∧
    ∃ t, Run (heldStep .small 4096)
        (initialHeld .small .user 0 none { blankVmm with frames := [0x400000, 0x401000] })
        (stackCalls.map .call) t ∧
      heldStack ∈ t.live ∧ vmmFreeFound heldStack.address true t.vmm = none := by
  exact ⟨exists_held (by decide +kernel), exists_held (by decide +kernel)⟩

end Dreamos64

import Dreamos64.Mem.VmmLedger

/-!
# Dreamos64 — `vmm_free`

Ranges are freed by the address that `vmm_alloc` returned. What is reserved at a moment
is kept beside the manager, each range with the slot it was recorded in (`HeldRange`).

`vmm_free` looks for the container of an address by the first item of each container,
and then works on the current container, whichever it found: its count goes up, and when
it is empty a container is taken out of the list.

* `vmmFree_eq`       — what a call does, by the number of containers whose first item is
  below the address;
* `HeldInv`          — the records and the counts while all is well, kept by
  `HeldInv.call` and `HeldInv.free`;
* `vmm_free_keeps`   — they stay right along a run exactly if every range that is freed is
  in the current container, behind its first item, and does not empty it while there
  are others.
-/

namespace Dreamos64

open Machine Links

/-! ## The function -/

/-- One turn of the search of `vmm_free`, over `selected_container`, `prev_container` and
`container_containing_address`. -/
def freeSearchBody (s : Vmm) (address : Nat) :
    Option Nat × Nat × Option Nat →
      Exec (LoopStep (Option Nat × Nat × Option Nat) (Option Nat × Nat × Option Nat))
  | (none, prev, containing) => .ok (.done (none, prev, containing))
  | (some selected, prev, containing) =>
    if ((s.container selected).vmmRoot 0).base < address then
      .ok (.next ((s.container selected).next, selected, some selected))
    else .ok (.done (some selected, prev, containing))

/-- The loop of `vmm_free` over the containers: `selected_container`, `prev_container` and
`container_containing_address` after it. The list has no more containers than
`vmm_number_of_containers`. -/
def freeSearch (s : Vmm) (address : Nat) : Exec (Option Nat × Nat × Option Nat) :=
  loop (freeSearchBody s address) (s.info.vmmNumberOfContainers + 1)
    (some s.info.vmmContainerRoot, s.info.vmmContainerRoot, none)

/-- The address that `vmm_free` compares the items with. -/
def freedBase (address : Nat) (isStack : Bool) : Nat :=
  if isStack then (address + 2 ^ 64 - threadDefaultStackSize) % 2 ^ 64 else address

/-- The current container counts one more item that is free. -/
def countOne (s : Vmm) : Vmm :=
  s.write s.info.vmmCurContainer fun c =>
    { c with vmmItemsAvailable := (c.vmmItemsAvailable + 1) % 2 ^ 64 }

/-- The loop of `vmm_free` over the items: one that starts at the address counts for the
current container. -/
def countFreed (s : Vmm) (containing address : Nat) : Vmm :=
  if (List.range s.info.vmmItemsPerPage).any fun i =>
      ((s.container containing).vmmRoot i).base = address then countOne s
  else s

/-- The end of `vmm_free`: what follows when the current container is empty. -/
def releaseContainer (s : Vmm) (selected : Option Nat) (prev : Nat) : Exec Vmm :=
  if (s.container s.info.vmmCurContainer).vmmItemsAvailable = s.info.vmmItemsPerPage then
    if s.info.vmmNumberOfContainers = 1 then
      .ok { s with info := { s.info with vmmCurIndex := 0 } }
    else
      match selected with
      | none => .error .nullPointer
      | some selected =>
        let s := { s with info := { s.info with
          vmmNumberOfContainers := s.info.vmmNumberOfContainers - 1 } }
        .ok (s.write prev fun c => { c with next := (s.container selected).next })
  else .ok s

/-- `vmm_free`. -/
def vmmFree (address : Nat) (isStack : Bool) (s : Vmm) : Exec Vmm :=
  if address = 0 then .ok s
  else if s.info.vmmItemsPerPage = 0 then .ok s
  else do
    let (selected, prev, containing) ← freeSearch s address
    match containing with
    -- the first item of the container is logged
    | none => .error .nullPointer
    | some containing =>
      releaseContainer (countFreed s containing (freedBase address isStack)) selected prev

/-! ## Ranges that are held -/

/-- A range: what was recorded, the address that was returned, and the slot. -/
structure HeldRange where
  item      : VmmItem
  address   : Nat
  container : Nat
  slot      : Nat
  deriving DecidableEq, Repr

/-- A manager, the range that was reserved last, and the ranges that are held. -/
structure VmmHeld where
  vmm  : Vmm
  last : Option VmmItem
  live : List HeldRange

inductive VmmOp where
  | call (c : VmmCall)
  | free (r : HeldRange)
  deriving DecidableEq, Repr

namespace VmmOp

/-- A call records its range where the current index was. -/
def exec (m : PageMode) (start : Nat) (s : VmmHeld) : VmmOp → Exec VmmHeld
  | .call c => do
    let (p, vmm) ← c.exec m s.vmm
    match p with
    | none => .ok { s with vmm := vmm }
    | some p =>
      let item := c.item m start s.last.toList
      .ok ⟨vmm, some item,
        s.live ++ [⟨item, p, vmm.info.vmmCurContainer, vmm.info.vmmCurIndex - 1⟩]⟩
  | .free r => do
    let vmm ← vmmFree r.address (isAddressStack r.item.flags) s.vmm
    .ok { s with vmm := vmm, live := s.live.erase r }

/-- A call asks for nothing, or returns a range with no address past the end of the address
space, and what is freed is held. -/
def Permitted (m : PageMode) (start : Nat) (s : VmmHeld) : VmmOp → Prop
  | .call c => c.size = 0 ∨ c.Permitted m start ⟨s.vmm, s.last.toList⟩
  | .free r => r ∈ s.live

end VmmOp

instance (m : PageMode) (start : Nat) (s : VmmHeld) (op : VmmOp) :
    Decidable (op.Permitted m start s) :=
  match op with
  | .call _ => inferInstanceAs (Decidable (_ ∨ _))
  | .free _ => inferInstanceAs (Decidable (_ ∈ _))

def heldStep (m : PageMode) (start : Nat) (s : VmmHeld) (op : VmmOp) (t : VmmHeld) : Prop :=
  op.Permitted m start s ∧ op.exec m start s = .ok t

/-- The number of slots of a container that hold no range. -/
def freeSlots (perPage : Nat) (live : List HeldRange) (container : Nat) : Nat :=
  ((List.range perPage).filter fun i =>
    ∀ r ∈ live, ¬ (r.container = container ∧ r.slot = i)).length

/-- Every range that is held has its item, in a container of the list, and every
container of the list counts the slots that hold nothing. -/
structure NothingForgotten (s : VmmHeld) (containers : List Nat) : Prop where
  linked    : Chain (fun a => (s.vmm.container a).next)
    (some s.vmm.info.vmmContainerRoot) containers
  recorded  : ∀ r ∈ s.live, r.container ∈ containers ∧
    (s.vmm.container r.container).vmmRoot r.slot = r.item
  available : ∀ a ∈ containers, (s.vmm.container a).vmmItemsAvailable =
    freeSlots s.vmm.info.vmmItemsPerPage s.live a

/-- A range that can be freed: it is in the current container and behind its first item,
and there is no other container, or another range in this one. -/
structure Freeable (s : VmmHeld) (r : HeldRange) : Prop where
  current : r.container = s.vmm.info.vmmCurContainer
  behind  : ((s.vmm.container s.vmm.info.vmmCurContainer).vmmRoot 0).base < r.address
  remains : s.vmm.info.vmmNumberOfContainers = 1 ∨
    ∃ r' ∈ s.live, r' ≠ r ∧ r'.container = s.vmm.info.vmmCurContainer

/-! ## The call -/

section Call

variable {m : PageMode} {origin root : Nat} {s : Vmm} {ledger : List VmmItem} {address i j : Nat}

/-- The search has passed the containers before `i`. -/
def searched (m : PageMode) (root number i : Nat) : Option Nat × Nat × Option Nat :=
  (if i < number then some (containerAt m root i) else none, containerAt m root (i - 1),
    if i = 0 then none else some (containerAt m root (i - 1)))

/-- Before the search, no container has been passed. -/
theorem searched_zero (hr : Records m origin root s ledger) :
    (some s.info.vmmContainerRoot, s.info.vmmContainerRoot, none) =
      searched m root s.info.vmmNumberOfContainers 0 := by
  unfold searched containerAt
  rw [if_pos hr.number, if_pos rfl, hr.rooted.1]
  rfl

/-- The first items of the containers before `j` are below the address, and that of container
`j`, if there is one, is not. -/
structure StopsAt (m : PageMode) (root : Nat) (s : Vmm) (address j : Nat) : Prop where
  le   : j ≤ s.info.vmmNumberOfContainers
  low  : ∀ k < j, ((s.container (containerAt m root k)).vmmRoot 0).base < address
  high : j < s.info.vmmNumberOfContainers →
    ¬ ((s.container (containerAt m root j)).vmmRoot 0).base < address

theorem exists_stopsAt (m : PageMode) (root : Nat) (s : Vmm) (address : Nat) :
    ∃ j, StopsAt m root s address j := by
  have hends : ∃ j, j = s.info.vmmNumberOfContainers ∨
      ¬ ((s.container (containerAt m root j)).vmmRoot 0).base < address := ⟨_, Or.inl rfl⟩
  refine ⟨Nat.find hends, Nat.find_min' hends (Or.inl rfl), fun k hk => ?_, fun hlt => ?_⟩
  · exact not_not.mp (not_or.mp (Nat.find_min hends hk)).2
  · exact (Nat.find_spec hends).resolve_left (Nat.ne_of_lt hlt)

theorem freeSearch_from (hr : Records m origin root s ledger) (hstop : StopsAt m root s address j)
    (d : Nat) (hd : i + d = j) {fuel : Nat} (hfuel : d < fuel) :
    loop (freeSearchBody s address) fuel (searched m root s.info.vmmNumberOfContainers i) =
      .ok (searched m root s.info.vmmNumberOfContainers j) := by
  -- on the containers between the current one and the one the search stops at
  induction d generalizing i fuel with
  | zero =>
    obtain ⟨fuel, rfl⟩ : ∃ f, fuel = f + 1 := ⟨fuel - 1, by omega⟩
    obtain rfl : i = j := by omega
    refine loop_done ?_
    unfold searched
    by_cases hlast : i < s.info.vmmNumberOfContainers
    · rw [if_pos hlast]
      exact if_neg (hstop.high hlast)
    · rw [if_neg hlast]
      rfl
  | succ d ih =>
    obtain ⟨fuel, rfl⟩ : ∃ f, fuel = f + 1 := ⟨fuel - 1, by omega⟩
    have hi : i < s.info.vmmNumberOfContainers := by
      have := hstop.le
      omega
    have hturn : freeSearchBody s address (searched m root s.info.vmmNumberOfContainers i) =
        .ok (.next (searched m root s.info.vmmNumberOfContainers (i + 1))) := by
      unfold searched
      rw [if_pos hi, if_neg (Nat.succ_ne_zero i), Nat.add_sub_cancel, ← hr.linked i hi]
      exact if_pos (hstop.low i (by omega))
    rw [loop_next hturn]
    exact ih (i := i + 1) (by omega) (by omega)

/-- The search passes the containers whose first items are below the address. -/
theorem freeSearch_eq (hr : Records m origin root s ledger) (hstop : StopsAt m root s address j) :
    freeSearch s address = .ok (searched m root s.info.vmmNumberOfContainers j) := by
  unfold freeSearch
  rw [searched_zero hr]
  exact freeSearch_from hr hstop j (Nat.zero_add j) (Nat.lt_succ_of_le hstop.le)

/-- What `vmm_free` does, when the first items of `j` containers are below the address. -/
theorem vmmFree_eq (hr : Records m origin root s ledger) (haddress : address ≠ 0)
    (hstop : StopsAt m root s address j) (isStack : Bool) :
    vmmFree address isStack s =
      if j = 0 then .error .nullPointer
      else releaseContainer
        (countFreed s (containerAt m root (j - 1)) (freedBase address isStack))
        (if j < s.info.vmmNumberOfContainers then some (containerAt m root j) else none)
        (containerAt m root (j - 1)) := by
  have hpos : s.info.vmmItemsPerPage ≠ 0 := by
    have := vmmRootLength_pos m
    rw [hr.perPage]
    omega
  unfold vmmFree
  rw [if_neg haddress, if_neg hpos, freeSearch_eq hr hstop, ok_bind]
  unfold searched
  by_cases hzero : j = 0
  · rw [if_pos hzero, if_pos hzero]
  · rw [if_neg hzero, if_neg hzero]

/-- A freed item changes one count. -/
theorem countFreed_frame (s : Vmm) (containing address : Nat) :
    (countFreed s containing address).info = s.info ∧
      (∀ a, ((countFreed s containing address).container a).next = (s.container a).next) ∧
      (∀ a, ((countFreed s containing address).container a).vmmRoot = (s.container a).vmmRoot) ∧
      ∀ a, a ≠ s.info.vmmCurContainer →
        (countFreed s containing address).container a = s.container a := by
  unfold countFreed countOne Vmm.write
  split_ifs
  · refine ⟨rfl, fun a => ?_, fun a => ?_, fun a ha => Function.update_of_ne ha _ _⟩
    · by_cases ha : a = s.info.vmmCurContainer
      · rw [ha]
        dsimp only
        rw [Function.update_self]
      · dsimp only
        rw [Function.update_of_ne ha]
    · by_cases ha : a = s.info.vmmCurContainer
      · rw [ha]
        dsimp only
        rw [Function.update_self]
      · dsimp only
        rw [Function.update_of_ne ha]
  · exact ⟨rfl, fun _ => rfl, fun _ => rfl, fun _ _ => rfl⟩

theorem countFreed_found {containing : Nat} (hfound : ∃ i < s.info.vmmItemsPerPage,
    ((s.container containing).vmmRoot i).base = address) :
    ((countFreed s containing address).container s.info.vmmCurContainer).vmmItemsAvailable =
      ((s.container s.info.vmmCurContainer).vmmItemsAvailable + 1) % 2 ^ 64 := by
  obtain ⟨i, hi, hbase⟩ := hfound
  unfold countFreed countOne Vmm.write
  rw [if_pos (List.any_eq_true.mpr ⟨i, List.mem_range.mpr hi, decide_eq_true hbase⟩)]
  dsimp only
  rw [Function.update_self]

theorem countFreed_missing {containing : Nat} (hmissing : ∀ i < s.info.vmmItemsPerPage,
    ((s.container containing).vmmRoot i).base ≠ address) : countFreed s containing address = s := by
  unfold countFreed
  rw [if_neg]
  intro hany
  obtain ⟨i, hi, hbase⟩ := List.any_eq_true.mp hany
  exact hmissing i (List.mem_range.mp hi) (of_decide_eq_true hbase)

/-- The records do not depend on the counts. -/
theorem Records.of_counts {t : Vmm} (hr : Records m origin root s ledger) (hinfo : t.info = s.info)
    (hnext : ∀ a, (t.container a).next = (s.container a).next)
    (hroot : ∀ a, (t.container a).vmmRoot = (s.container a).vmmRoot) :
    Records m origin root t ledger := by
  refine ⟨?_, ?_, ?_, ?_, ?_, ?_, ?_, fun k hk => ?_, fun n item hn => ?_, hr.ordered⟩
  · rw [hinfo]; exact hr.perPage
  · rw [hinfo]; exact hr.rooted
  · rw [hinfo]; exact hr.number
  · rw [hinfo]; exact hr.current
  · rw [hinfo]; exact hr.count
  · rw [hinfo]; exact hr.index
  · rw [hinfo]; exact hr.next
  · rw [hinfo] at hk ⊢
    rw [hnext]
    exact hr.linked k hk
  · rw [hroot]
    exact hr.items n item hn

end Call

/-! ## Slots -/

section Slots

variable {perPage : Nat} {live : List HeldRange} {container : Nat}

/-- How many ranges a container holds. -/
def heldIn (live : List HeldRange) (container : Nat) : Nat :=
  (live.filter fun r => r.container = container).length

theorem slots_nodup (container : Nat) (hnodup : (live.map fun r => (r.container, r.slot)).Nodup) :
    ((live.filter fun r => r.container = container).map HeldRange.slot).Nodup := by
  refine List.Nodup.map_on ?_ ((List.Nodup.of_map _ hnodup).filter _)
  intro r hr r' hr' heq
  rw [List.mem_filter, decide_eq_true_eq] at hr hr'
  exact List.inj_on_of_nodup_map hnodup hr.1 hr'.1 (by rw [hr.2, hr'.2, heq])

/-- With every range in a slot of its own, what is free is the rest. -/
theorem freeSlots_eq (container : Nat) (hnodup : (live.map fun r => (r.container, r.slot)).Nodup)
    (hslot : ∀ r ∈ live, r.slot < perPage) :
    freeSlots perPage live container + heldIn live container = perPage := by
  obtain ⟨used, hused⟩ : ∃ used,
      used = (live.filter fun r => r.container = container).map HeldRange.slot :=
    ⟨_, rfl⟩
  have husedlen : used.length = heldIn live container := by
    rw [hused, List.length_map]
    rfl
  have hmem : ∀ i, i ∈ used ↔ ∃ r ∈ live, r.container = container ∧ r.slot = i := by
    intro i
    simp [hused, and_assoc]
  have husednodup : used.Nodup := hused ▸ slots_nodup container hnodup
  -- the slots in use and the free ones make up the container
  have hsplit := List.length_eq_countP_add_countP (fun i => decide (i ∈ used))
    (l := List.range perPage)
  have hin : ((List.range perPage).filter fun i => decide (i ∈ used)).length = used.length := by
    refine List.Perm.length_eq ((List.perm_ext_iff_of_nodup
      (List.nodup_range.filter _) husednodup).mpr fun i => ?_)
    rw [List.mem_filter, decide_eq_true_eq, List.mem_range]
    refine ⟨fun h => h.2, fun h => ⟨?_, h⟩⟩
    obtain ⟨r, hr, -, rfl⟩ := (hmem i).mp h
    exact hslot r hr
  have hout : freeSlots perPage live container =
      ((List.range perPage).filter fun i => ¬ decide (i ∈ used) = true).length := by
    unfold freeSlots
    congr 1
    refine List.filter_congr fun i _ => ?_
    rw [decide_eq_decide, decide_eq_true_eq, hmem]
    push Not
    rfl
  rw [List.length_range, List.countP_eq_length_filter, List.countP_eq_length_filter, hin,
    ← hout] at hsplit
  omega

theorem heldIn_append (r : HeldRange) :
    heldIn (live ++ [r]) container =
      heldIn live container + if r.container = container then 1 else 0 := by
  unfold heldIn
  rw [List.filter_append, List.length_append, List.filter_singleton]
  split_ifs <;> simp_all

theorem heldIn_erase (container : Nat) {r : HeldRange} (hr : r ∈ live) :
    heldIn live container =
      heldIn (live.erase r) container + if r.container = container then 1 else 0 := by
  unfold heldIn
  rw [((List.perm_cons_erase hr).filter _).length_eq, List.filter_cons]
  split_ifs <;> simp_all

/-- A container whose ranges lie in its first slots holds no more than these. -/
theorem heldIn_le (hnodup : (live.map fun r => (r.container, r.slot)).Nodup) {bound : Nat}
    (hslot : ∀ r ∈ live, r.container = container → r.slot < bound) :
    heldIn live container ≤ bound := by
  have hsub : ((live.filter fun r => r.container = container).map HeldRange.slot) ⊆
      List.range bound := by
    intro i hi
    obtain ⟨r, hr, rfl⟩ := List.mem_map.mp hi
    rw [List.mem_filter, decide_eq_true_eq] at hr
    exact List.mem_range.mpr (hslot r hr.1 hr.2)
  have hlen := (List.subperm_of_subset (slots_nodup container hnodup) hsub).length_le
  rwa [List.length_map, List.length_range] at hlen

theorem heldIn_pos {r : HeldRange} (hr : r ∈ live) (hcontainer : r.container = container) :
    0 < heldIn live container :=
  List.length_pos_of_mem (List.mem_filter.mpr ⟨hr, decide_eq_true hcontainer⟩)

theorem heldIn_eq_zero (h : ∀ r ∈ live, r.container ≠ container) : heldIn live container = 0 := by
  unfold heldIn
  rw [List.length_eq_zero_iff, List.filter_eq_nil_iff]
  intro r hr
  rw [decide_eq_true_eq]
  exact h r hr

end Slots

/-! ## The invariant -/

/-- The ranges reserved since the manager was last empty are `ledger`, from `origin` on, and
those that are held are in their slots and counted. -/
structure HeldInv (m : PageMode) (start root : Nat) (s : VmmHeld) (origin : Nat)
    (ledger : List VmmItem) : Prop where
  records   : Records m origin root s.vmm ledger
  ended     : reservedEnd start s.last.toList = reservedEnd origin ledger
  fits      : ∀ item ∈ ledger, 0 < item.size ∧ item.base + item.size ≤ 2 ^ 64
  places    : ∀ r ∈ s.live, ∃ n, ledger[n]? = some r.item ∧
    r.container = containerAt m root (n / vmmRootLength m) ∧ r.slot = n % vmmRootLength m
  returned  : ∀ r ∈ s.live, r.address = handedOut r.item.base r.item.flags
  nodup     : (s.live.map fun r => (r.container, r.slot)).Nodup
  available : ∀ k < s.vmm.info.vmmNumberOfContainers,
    (s.vmm.container (containerAt m root k)).vmmItemsAvailable +
      heldIn s.live (containerAt m root k) = vmmRootLength m
  occupied  : 1 < s.vmm.info.vmmNumberOfContainers → 0 < heldIn s.live s.vmm.info.vmmCurContainer

namespace HeldInv

variable {m : PageMode} {start root origin : Nat} {s t : VmmHeld} {ledger : List VmmItem}
  {r : HeldRange}

/-- After `vmm_init` nothing is held. -/
theorem init (m : PageMode) (level : VmmLevel) (memorySizeInBytes : Nat) (rootTable : Option Nat)
    {s : Vmm} (hframes : s.frames ≠ []) :
    HeldInv m (vmmInit m level memorySizeInBytes rootTable s).info.startOfVmmSpace
      (vmmInit m level memorySizeInBytes rootTable s).info.vmmContainerRoot
      ⟨vmmInit m level memorySizeInBytes rootTable s, none, []⟩
      (vmmInit m level memorySizeInBytes rootTable s).info.startOfVmmSpace [] := by
  have hledger := vmmInit_ledger m level memorySizeInBytes rootTable s hframes
  refine ⟨hledger.toRecords, rfl, by simp, by simp, by simp, List.nodup_nil,
    fun k hk => ?_, fun h => ?_⟩
  · rw [hledger.available k hk]
    simp [usedSlots, heldIn]
  · have hone : (vmmInit m level memorySizeInBytes rootTable s).info.vmmNumberOfContainers = 1 := by
      unfold vmmInit
      obtain ⟨frame, rest, hframes⟩ := List.exists_cons_of_ne_nil hframes
      simp only [hframes]
    exact absurd h (by simp [hone])

variable (h : HeldInv m start root s origin ledger)

include h

/-- Later ranges start higher. -/
theorem base_lt {i j : Nat} {a b : VmmItem}
    (ha : ledger[i]? = some a) (hb : ledger[j]? = some b) (hij : i < j) : a.base < b.base := by
  obtain ⟨hi, rfl⟩ := List.getElem?_eq_some_iff.mp ha
  obtain ⟨hj, rfl⟩ := List.getElem?_eq_some_iff.mp hb
  have hordered := List.pairwise_iff_getElem.mp h.records.ordered i j hi hj hij
  have hsize := (h.fits ledger[i] (List.getElem_mem hi)).1
  omega

/-- Ranges are told apart by where they start. -/
theorem base_inj {i j : Nat} {a b : VmmItem}
    (ha : ledger[i]? = some a) (hb : ledger[j]? = some b) (hbase : a.base = b.base) : i = j := by
  rcases Nat.lt_trichotomy i j with hij | hij | hij
  · have := h.base_lt ha hb hij
    omega
  · exact hij
  · have := h.base_lt hb ha hij
    omega

/-- A range that is held is in a slot of one of the containers. -/
theorem slot_lt (hr : r ∈ s.live) :
    r.slot < vmmRootLength m := by
  obtain ⟨n, -, -, hslot⟩ := h.places r hr
  rw [hslot]
  exact Nat.mod_lt _ (vmmRootLength_pos m)

/-- While something is held, every container has its first slot in use. -/
theorem first_used (hr : r ∈ s.live) {k : Nat}
    (hk : k < s.vmm.info.vmmNumberOfContainers) : k * vmmRootLength m < ledger.length := by
  have hpos := vmmRootLength_pos m
  have hcount := h.records.count
  -- the current container is not empty
  have hindex : 0 < s.vmm.info.vmmCurIndex := by
    by_cases hone : s.vmm.info.vmmNumberOfContainers = 1
    · obtain ⟨n, hn, -, -⟩ := h.places r hr
      have hlt := (List.getElem?_eq_some_iff.mp hn).1
      rw [hcount, hone] at hlt
      omega
    · have hheld := h.occupied (by have := h.records.number; omega)
      obtain ⟨r', hr'⟩ := List.exists_mem_of_length_pos hheld
      rw [List.mem_filter, decide_eq_true_eq] at hr'
      obtain ⟨n, hn, hcontainer, -⟩ := h.places r' hr'.1
      have hlt := (List.getElem?_eq_some_iff.mp hn).1
      rw [hr'.2, h.records.current, containerAt_inj] at hcontainer
      have hle := Nat.div_mul_le_self n (vmmRootLength m)
      rw [← hcontainer] at hle
      omega
  have hle : k * vmmRootLength m ≤ (s.vmm.info.vmmNumberOfContainers - 1) * vmmRootLength m :=
    Nat.mul_le_mul_right _ (by omega)
  omega

/-- The first item of a container. -/
theorem first_item {k : Nat}
    (hk : k * vmmRootLength m < ledger.length) :
    ledger[k * vmmRootLength m]? =
      some ((s.vmm.container (containerAt m root k)).vmmRoot 0) := by
  have hpos := vmmRootLength_pos m
  have hitem := List.getElem?_eq_getElem hk
  have hrecorded := h.records.items _ _ hitem
  rw [Nat.mul_div_cancel _ hpos, Nat.mul_mod_left] at hrecorded
  rw [hitem, hrecorded]

theorem container_lt {n : Nat} {item : VmmItem}
    (hn : ledger[n]? = some item) : n / vmmRootLength m < s.vmm.info.vmmNumberOfContainers :=
  h.records.slot_lt (List.getElem?_eq_some_iff.mp hn).1

theorem container_mem (hr : r ∈ s.live) :
    r.container ∈ (List.range s.vmm.info.vmmNumberOfContainers).map (containerAt m root) := by
  obtain ⟨n, hn, hcontainer, -⟩ := h.places r hr
  exact List.mem_map.mpr ⟨_, List.mem_range.mpr (h.container_lt hn), hcontainer.symm⟩

/-- **All is well**: the ranges are recorded, and the counts are right. -/
theorem nothingForgotten :
    NothingForgotten s
      ((List.range s.vmm.info.vmmNumberOfContainers).map (containerAt m root)) := by
  refine ⟨h.records.chain, fun r hr => ?_, fun a ha => ?_⟩
  · obtain ⟨n, hn, hcontainer, hslot⟩ := h.places r hr
    refine ⟨h.container_mem hr, ?_⟩
    rw [hcontainer, hslot]
    exact h.records.items n r.item hn
  · obtain ⟨k, hk, rfl⟩ := List.mem_map.mp ha
    have havailable := h.available k (List.mem_range.mp hk)
    have hfree := freeSlots_eq (containerAt m root k) h.nodup fun r hr => h.slot_lt hr
    rw [h.records.perPage]
    omega

/-! ### Allocating -/

/-- A container that has just been made is empty: nothing that is held lies there. -/
theorem grown_available {g : Vmm}
    (hnumber : g.info.vmmNumberOfContainers = s.vmm.info.vmmNumberOfContainers ∨
      g.info.vmmNumberOfContainers = s.vmm.info.vmmNumberOfContainers + 1 ∧
      (g.container (containerAt m root s.vmm.info.vmmNumberOfContainers)).vmmItemsAvailable =
        vmmRootLength m)
    (hsame : ∀ k < s.vmm.info.vmmNumberOfContainers,
      (g.container (containerAt m root k)).vmmItemsAvailable =
        (s.vmm.container (containerAt m root k)).vmmItemsAvailable) :
    ∀ k < g.info.vmmNumberOfContainers,
      (g.container (containerAt m root k)).vmmItemsAvailable +
        heldIn s.live (containerAt m root k) = vmmRootLength m := by
  intro k hk
  by_cases hold : k < s.vmm.info.vmmNumberOfContainers
  · rw [hsame k hold]
    exact h.available k hold
  · rcases hnumber with hnumber | ⟨hnumber, hempty⟩
    · omega
    · obtain rfl : k = s.vmm.info.vmmNumberOfContainers := by omega
      rw [hempty, heldIn_eq_zero, Nat.add_zero]
      intro r hr hcontainer
      obtain ⟨n, hn, hplace, -⟩ := h.places r hr
      rw [hplace, containerAt_inj] at hcontainer
      have := h.container_lt hn
      omega

/-- Nothing that is held lies in the slot after the ledger's last one. -/
theorem place_fresh (hr : r ∈ s.live)
    (hcontainer : r.container = containerAt m root (ledger.length / vmmRootLength m)) :
    r.slot ≠ ledger.length % vmmRootLength m := by
  intro hsame
  obtain ⟨n, hn, hplace, hslot⟩ := h.places r hr
  rw [hplace, containerAt_inj] at hcontainer
  rw [hslot] at hsame
  have hsplit := Nat.div_add_mod n (vmmRootLength m)
  rw [hcontainer, hsame, Nat.div_add_mod] at hsplit
  have := (List.getElem?_eq_some_iff.mp hn).1
  omega

/-- What is held in the last container lies below the index. -/
theorem heldIn_le_index {k index : Nat}
    (hcount : ledger.length = k * vmmRootLength m + index) :
    heldIn s.live (containerAt m root k) ≤ index := by
  refine heldIn_le h.nodup fun r hr hcontainer => ?_
  obtain ⟨n, hn, hplace, hslot⟩ := h.places r hr
  rw [hplace, containerAt_inj] at hcontainer
  have hlt := (List.getElem?_eq_some_iff.mp hn).1
  have hsplit := Nat.div_add_mod' n (vmmRootLength m)
  rw [hcontainer] at hsplit
  rw [hslot]
  omega

/-- A range that is reserved goes to the end of the ledger. -/
theorem reserve {c : VmmCall}
    (hc : c.Permitted m start ⟨s.vmm, s.last.toList⟩) :
    ∃ t, (VmmOp.call c).exec m start s = .ok t ∧
      HeldInv m start root t origin (ledger ++ [c.item m start s.last.toList]) := by
  have hpos := vmmRootLength_pos m
  have hpages : 0 < wholePages m c.size :=
    Nat.lt_of_lt_of_le (Nat.pos_of_ne_zero hc.size) (le_wholePages m c.size)
  obtain ⟨g, hg, hrecords, hroom, -, hnumber, hsame⟩ := h.records.ensure hc.container hc.frame
  obtain ⟨t, hexec, hinfo, hcontainer⟩ :=
    VmmCall.returns hc hg hroom (by rw [hrecords.next, h.ended])
  have haddress := hc.address
  generalize hitem : c.item m start s.last.toList = item at *
  have hbase : reservedEnd origin ledger ≤ item.base := by
    rw [← h.ended, ← hitem]
    exact Nat.le_max_right _ _
  obtain ⟨hrecords', havailable⟩ := hrecords.record hroom hbase hinfo hcontainer
  have hcount := hrecords.count
  obtain ⟨hdiv, hmod⟩ := slot_of_index hroom (q := g.info.vmmNumberOfContainers - 1)
  rw [← hcount] at hdiv hmod
  have hcur : t.info.vmmCurContainer = containerAt m root (ledger.length / vmmRootLength m) := by
    rw [hinfo, hdiv]
    exact hrecords.current
  have hindex : t.info.vmmCurIndex - 1 = ledger.length % vmmRootLength m := by
    rw [hinfo, hmod]
    rfl
  have hnumber' : t.info.vmmNumberOfContainers = g.info.vmmNumberOfContainers := by rw [hinfo]
  -- before the item is recorded, the counts are right for the containers of `g`
  have hbefore := h.grown_available (hnumber.imp_right fun hgrown => ⟨hgrown.1, hgrown.2.2⟩) hsame
  obtain ⟨new, hnew⟩ : ∃ new : HeldRange, new = ⟨item, handedOut item.base c.flags,
    t.info.vmmCurContainer, t.info.vmmCurIndex - 1⟩ := ⟨_, rfl⟩
  have hnewcontainer : new.container = containerAt m root (ledger.length / vmmRootLength m) := by
    rw [hnew]
    exact hcur
  have hnewslot : new.slot = ledger.length % vmmRootLength m := by
    rw [hnew]
    exact hindex
  have hflags : item.flags = c.flags := by rw [← hitem]; rfl
  refine ⟨⟨t, some item, s.live ++ [new]⟩, ?_, ?_⟩
  · have hexec : c.exec m s.vmm = .ok (some (handedOut item.base c.flags), t) := hexec
    simp only [VmmOp.exec, hexec, ok_bind, hitem, hnew]
  constructor
  case records => exact hrecords'
  case ended =>
    show reservedEnd start [item] = reservedEnd origin (ledger ++ [item])
    unfold reservedEnd
    rw [List.getLast?_concat]
    rfl
  case fits =>
    intro item' hmem
    rcases List.mem_append.mp hmem with hmem | hmem
    · exact h.fits item' hmem
    · rw [List.mem_singleton.mp hmem]
      refine ⟨?_, haddress⟩
      rw [← hitem]
      exact hpages
  case places =>
    intro r hr
    rcases List.mem_append.mp hr with hr | hr
    · obtain ⟨n, hn, hplace⟩ := h.places r hr
      refine ⟨n, ?_, hplace⟩
      rw [List.getElem?_append_left (List.getElem?_eq_some_iff.mp hn).1]
      exact hn
    · rw [List.mem_singleton.mp hr]
      refine ⟨ledger.length, ?_, hnewcontainer, hnewslot⟩
      rw [List.getElem?_concat_length, hnew]
  case returned =>
    intro r hr
    rcases List.mem_append.mp hr with hr | hr
    · exact h.returned r hr
    · rw [List.mem_singleton.mp hr, hnew, hflags]
  case nodup =>
    rw [List.map_append]
    refine List.nodup_append'.mpr ⟨h.nodup, List.nodup_singleton _, ?_⟩
    intro place hmem hmem'
    obtain rfl := List.mem_singleton.mp hmem'
    obtain ⟨r, hr, heq⟩ := List.mem_map.mp hmem
    injection heq with hcontainer hslot
    exact h.place_fresh hr (hcontainer.trans hnewcontainer) (hslot.trans hnewslot)
  case available =>
    intro k hk
    have hk : k < g.info.vmmNumberOfContainers := hnumber' ▸ hk
    have hcounted := hbefore k hk
    have hsmall : vmmRootLength m < 2 ^ 64 := by cases m <;> decide
    show (t.container (containerAt m root k)).vmmItemsAvailable + heldIn (s.live ++ [new]) _ = _
    rw [havailable k, heldIn_append, hnewcontainer, hdiv]
    by_cases hlast : k + 1 = g.info.vmmNumberOfContainers
    · rw [if_pos hlast, if_pos (containerAt_inj.mpr (by omega))]
      -- the slot at the current index was free
      have hroom' : heldIn s.live (containerAt m root k) ≤ g.info.vmmCurIndex := by
        refine h.heldIn_le_index ?_
        rw [hcount, show g.info.vmmNumberOfContainers - 1 = k by omega]
      omega
    · rw [if_neg hlast, if_neg fun heq => hlast (by have := containerAt_inj.mp heq; omega)]
      exact hcounted
  case occupied =>
    intro _
    refine heldIn_pos (r := new) (List.mem_append_right _ (List.mem_singleton_self _)) ?_
    rw [hnewcontainer]
    exact hcur.symm

/-- **A call keeps the invariant.** -/
theorem call {c : VmmCall}
    (hc : (VmmOp.call c).Permitted m start s) :
    ∃ t ledger', (VmmOp.call c).exec m start s = .ok t ∧
      HeldInv m start root t origin ledger' := by
  rcases hc with hsize | hpermitted
  · refine ⟨s, ledger, ?_, h⟩
    simp only [VmmOp.exec, c.exec_eq, vmmAllocAt_zero hsize, ok_bind]
  · obtain ⟨t, hexec, ht⟩ := h.reserve hpermitted
    exact ⟨t, _, hexec, ht⟩

/-! ### Freeing -/

/-- The address to look for, from the one that was returned. -/
theorem freed_base (hr : r ∈ s.live) :
    freedBase r.address (isAddressStack r.item.flags) = r.item.base := by
  obtain ⟨n, hn, -, -⟩ := h.places r hr
  have hfits := h.fits r.item (List.mem_of_getElem? hn)
  rw [h.returned r hr]
  unfold freedBase handedOut threadDefaultStackSize
  split_ifs
  · omega
  · rfl

/-- First items of later containers start higher. -/
theorem first_le (hr : r ∈ s.live) {j k : Nat}
    (hjk : j ≤ k) (hk : k < s.vmm.info.vmmNumberOfContainers) :
    ((s.vmm.container (containerAt m root j)).vmmRoot 0).base ≤
      ((s.vmm.container (containerAt m root k)).vmmRoot 0).base := by
  rcases Nat.lt_or_eq_of_le hjk with hlt | rfl
  · have hpos := vmmRootLength_pos m
    have hfirst := h.first_item (h.first_used hr (Nat.lt_trans hlt hk))
    have hsecond := h.first_item (h.first_used hr hk)
    exact Nat.le_of_lt (h.base_lt hfirst hsecond (Nat.mul_lt_mul_of_pos_right hlt hpos))
  · exact Nat.le_refl _

theorem current_eq :
    s.vmm.info.vmmCurContainer = containerAt m root (s.vmm.info.vmmNumberOfContainers - 1) :=
  h.records.current

/-- The count of the current container. -/
theorem available_current :
    (s.vmm.container s.vmm.info.vmmCurContainer).vmmItemsAvailable +
      heldIn s.live s.vmm.info.vmmCurContainer = vmmRootLength m := by
  have hnumber := h.records.number
  rw [h.current_eq]
  exact h.available _ (by omega)

/-- The current container counts a range of its own that is freed. -/
theorem counted_available (hr : r ∈ s.live)
    (hcurrent : r.container = s.vmm.info.vmmCurContainer) :
    ((countFreed s.vmm s.vmm.info.vmmCurContainer r.item.base).container
        s.vmm.info.vmmCurContainer).vmmItemsAvailable =
      (s.vmm.container s.vmm.info.vmmCurContainer).vmmItemsAvailable + 1 := by
  have hsmall : vmmRootLength m < 2 ^ 64 := by cases m <;> decide
  have hbefore := h.available_current
  have hheld := heldIn_pos hr hcurrent
  obtain ⟨n, hn, hplace, hslot⟩ := h.places r hr
  -- the item is found in the slot that recorded it
  rw [countFreed_found ⟨r.slot, ?_, ?_⟩]
  · omega
  · rw [h.records.perPage]
    exact h.slot_lt hr
  · rw [← hcurrent, hplace, hslot, h.records.items n r.item hn]

/-- When the last range of the only container is freed, the ledger starts anew. -/
theorem freed_all {v : Vmm}
    (hrecords : Records m origin root v ledger) (hone : v.info.vmmNumberOfContainers = 1)
    (hall : (v.container (containerAt m root 0)).vmmItemsAvailable = vmmRootLength m) :
    HeldInv m start root
      { s with vmm := { v with info := { v.info with vmmCurIndex := 0 } }, live := [] }
      (reservedEnd origin ledger) [] where
  -- the number of containers and their list stay, the index goes back to 0
  records := by
    refine ⟨hrecords.perPage, hrecords.rooted, hrecords.number, hrecords.current, ?_, Nat.zero_le _,
      hrecords.next, hrecords.linked, fun n item hn => (nomatch hn), List.Pairwise.nil⟩
    show 0 = (v.info.vmmNumberOfContainers - 1) * _ + 0
    rw [hone]
    omega
  ended := h.ended
  fits := fun _ hmem => (nomatch hmem)
  places := fun _ hmem => (nomatch hmem)
  returned := fun _ hmem => (nomatch hmem)
  nodup := List.nodup_nil
  available := fun k hk => by
    have hk : k < v.info.vmmNumberOfContainers := hk
    obtain rfl : k = 0 := by omega
    exact hall
  occupied := fun hmore => by
    have hmore : 1 < v.info.vmmNumberOfContainers := hmore
    omega

/-- When something is left in the current container, only its count changes. -/
theorem freed_one (hr : r ∈ s.live)
    (hcurrent : r.container = s.vmm.info.vmmCurContainer)
    (hleft : heldIn (s.live.erase r) s.vmm.info.vmmCurContainer ≠ 0) :
    HeldInv m start root { s with
      vmm := countFreed s.vmm s.vmm.info.vmmCurContainer r.item.base, live := s.live.erase r }
      origin ledger := by
  obtain ⟨hinfo, hnext, hroot, hothers⟩ :=
    countFreed_frame s.vmm s.vmm.info.vmmCurContainer r.item.base
  have hafter := h.counted_available hr hcurrent
  generalize countFreed s.vmm s.vmm.info.vmmCurContainer r.item.base = counted at *
  constructor
  case records => exact h.records.of_counts hinfo hnext hroot
  case ended => exact h.ended
  case fits => exact h.fits
  case places => exact fun r' hr' => h.places r' (List.mem_of_mem_erase hr')
  case returned => exact fun r' hr' => h.returned r' (List.mem_of_mem_erase hr')
  case nodup => exact h.nodup.sublist ((List.erase_sublist).map _)
  case available =>
    intro k hk
    have hk : k < s.vmm.info.vmmNumberOfContainers := by
      have hk : k < counted.info.vmmNumberOfContainers := hk
      rwa [hinfo] at hk
    have hold := h.available k hk
    have hheld := heldIn_erase (containerAt m root k) hr
    show (counted.container (containerAt m root k)).vmmItemsAvailable +
      heldIn (s.live.erase r) (containerAt m root k) = _
    -- what one record gives back its own container counts, and no other does
    by_cases hcur : containerAt m root k = s.vmm.info.vmmCurContainer
    · rw [hcur] at hold hheld ⊢
      rw [if_pos hcurrent] at hheld
      rw [hafter]
      omega
    · rw [if_neg fun heq => hcur (heq.symm.trans hcurrent)] at hheld
      rw [hothers _ hcur]
      omega
  case occupied =>
    intro _
    show 0 < heldIn (s.live.erase r) counted.info.vmmCurContainer
    rw [hinfo]
    omega

/-- `vmm_free` of a range in the current container counts it there. -/
theorem vmmFree_current (hr : r ∈ s.live)
    (hf : Freeable s r) :
    vmmFree r.address (isAddressStack r.item.flags) s.vmm = releaseContainer
      (countFreed s.vmm s.vmm.info.vmmCurContainer r.item.base) none
        s.vmm.info.vmmCurContainer := by
  have hnumber := h.records.number
  have hbehind := hf.behind
  -- all first items are below the address: the search ends with the current container
  have hlow : ∀ k < s.vmm.info.vmmNumberOfContainers,
      ((s.vmm.container (containerAt m root k)).vmmRoot 0).base < r.address := by
    intro k hk
    have hle := h.first_le hr (Nat.le_sub_one_of_lt hk) (by omega)
    rw [← h.current_eq] at hle
    omega
  have hstop : StopsAt m root s.vmm r.address s.vmm.info.vmmNumberOfContainers :=
    ⟨Nat.le_refl _, hlow, fun hlt => absurd hlt (Nat.lt_irrefl _)⟩
  rw [vmmFree_eq h.records (by omega) hstop, if_neg (by omega), if_neg (Nat.lt_irrefl _),
    h.freed_base hr, ← h.current_eq]

/-- **Freeing a range of the current container** keeps the invariant; when it was the last
one, of the only container, the ledger starts anew. -/
theorem free (hr : r ∈ s.live) (hf : Freeable s r) :
    ∃ t origin' ledger', (VmmOp.free r).exec m start s = .ok t ∧
      HeldInv m start root t origin' ledger' := by
  obtain ⟨hinfo, hnext, hroot, -⟩ := countFreed_frame s.vmm s.vmm.info.vmmCurContainer r.item.base
  have hbefore := h.available_current
  have hafter := h.counted_available hr hf.current
  have hheld := heldIn_erase s.vmm.info.vmmCurContainer hr
  rw [if_pos hf.current] at hheld
  -- what is left is to say how the call ends
  have hexec : ∀ v, releaseContainer (countFreed s.vmm s.vmm.info.vmmCurContainer r.item.base) none
      s.vmm.info.vmmCurContainer = .ok v →
      (VmmOp.free r).exec m start s = .ok { s with vmm := v, live := s.live.erase r } := by
    intro v hv
    simp only [VmmOp.exec, h.vmmFree_current hr hf, hv, ok_bind]
  by_cases hempty : heldIn (s.live.erase r) s.vmm.info.vmmCurContainer = 0
  · -- nothing is left in it, so it is the only one
    have hone : s.vmm.info.vmmNumberOfContainers = 1 := by
      refine hf.remains.resolve_right ?_
      rintro ⟨r', hr', hne, hcurrent⟩
      have := heldIn_pos ((List.mem_erase_of_ne hne).mpr hr') hcurrent
      omega
    have hcur : s.vmm.info.vmmCurContainer = containerAt m root 0 := by rw [h.current_eq, hone]
    have hnone : s.live.erase r = [] := by
      refine List.eq_nil_iff_forall_not_mem.mpr fun r' hr' => ?_
      obtain ⟨n', hn', hplace', -⟩ := h.places r' (List.mem_of_mem_erase hr')
      have hfirst : n' / vmmRootLength m = 0 := Nat.lt_one_iff.mp (hone ▸ h.container_lt hn')
      rw [hfirst, ← hcur] at hplace'
      have := heldIn_pos hr' hplace'
      omega
    have hrelease : releaseContainer (countFreed s.vmm s.vmm.info.vmmCurContainer r.item.base) none
        s.vmm.info.vmmCurContainer = .ok
          { countFreed s.vmm s.vmm.info.vmmCurContainer r.item.base with
            info := { (countFreed s.vmm s.vmm.info.vmmCurContainer r.item.base).info with
              vmmCurIndex := 0 } } := by
      unfold releaseContainer
      rw [hinfo, if_pos (by rw [hafter, h.records.perPage]; omega), if_pos hone]
    refine ⟨_, reservedEnd origin ledger, [], hexec _ hrelease, ?_⟩
    rw [hnone]
    refine h.freed_all (h.records.of_counts hinfo hnext hroot) (by rw [hinfo, hone]) ?_
    rw [← hcur, hafter]
    omega
  · have hrelease : releaseContainer (countFreed s.vmm s.vmm.info.vmmCurContainer r.item.base) none
        s.vmm.info.vmmCurContainer =
          .ok (countFreed s.vmm s.vmm.info.vmmCurContainer r.item.base) := by
      unfold releaseContainer
      rw [hinfo, if_neg (by rw [hafter, h.records.perPage]; omega)]
    exact ⟨_, origin, ledger, hexec _ hrelease, h.freed_one hr hf.current hempty⟩

/-- A range is gone, and its container does not count it. -/
theorem miscounted (hr : r ∈ s.live) {v : Vmm}
    {containers l : List Nat} (hperPage : v.info.vmmItemsPerPage = s.vmm.info.vmmItemsPerPage)
    (hroot : v.info.vmmContainerRoot = s.vmm.info.vmmContainerRoot)
    (hsame : (v.container r.container).vmmItemsAvailable =
      (s.vmm.container r.container).vmmItemsAvailable)
    (hchain : Chain (fun a => (v.container a).next) (some s.vmm.info.vmmContainerRoot) l)
    (hmem : r.container ∈ l) :
    ¬ NothingForgotten { s with vmm := v, live := s.live.erase r } containers := by
  intro hkept
  have hlinked := hkept.linked
  dsimp only at hlinked
  rw [hroot] at hlinked
  have hcount := hkept.available r.container (hlinked.unique hchain ▸ hmem)
  dsimp only at hcount
  obtain ⟨n, hn, hplace, -⟩ := h.places r hr
  have hbefore := h.available _ (h.container_lt hn)
  rw [← hplace] at hbefore
  have hfree := freeSlots_eq r.container
    (h.nodup.sublist ((List.erase_sublist (a := r)).map _))
    fun r' hr' => h.slot_lt (List.mem_of_mem_erase hr')
  have hheld := heldIn_erase r.container hr
  rw [if_pos rfl] at hheld
  rw [hsame, hperPage, h.records.perPage] at hcount
  omega

/-- The item of a range is not in a container before its own. -/
theorem not_found {n k : Nat} {item : VmmItem}
    (hn : ledger[n]? = some item) (hk : k + 1 < s.vmm.info.vmmNumberOfContainers)
    (hne : k ≠ n / vmmRootLength m) : ∀ i < s.vmm.info.vmmItemsPerPage,
      ((s.vmm.container (containerAt m root k)).vmmRoot i).base ≠ item.base := by
  intro i hi hbase
  rw [h.records.perPage] at hi
  obtain ⟨hdiv, hmod⟩ := slot_of_index hi (q := k)
  -- the container is full, so the slot is in use
  have hlt : k * vmmRootLength m + i < ledger.length := by
    have hle : (k + 1) * vmmRootLength m ≤
        (s.vmm.info.vmmNumberOfContainers - 1) * vmmRootLength m :=
      Nat.mul_le_mul_right _ (by omega)
    rw [Nat.succ_mul] at hle
    have := h.records.count
    omega
  have hitem := List.getElem?_eq_getElem hlt
  have hrecorded := h.records.items _ _ hitem
  rw [hdiv, hmod] at hrecorded
  rw [hrecorded] at hbase
  have hsame := h.base_inj hitem hn hbase
  exact hne (by rw [← hsame, hdiv])

/-- Taking the container after one out of the list leaves that one in it. -/
theorem unlink_chain {k : Nat}
    (hk : k + 1 < s.vmm.info.vmmNumberOfContainers) (next' : Nat → Option Nat)
    (hpast : next' (containerAt m root k) = (s.vmm.container (containerAt m root (k + 1))).next)
    (hothers : ∀ a, a ≠ containerAt m root k → next' a = (s.vmm.container a).next) :
    ∃ l, Chain next' (some s.vmm.info.vmmContainerRoot) l ∧ containerAt m root k ∈ l := by
  obtain ⟨d, hd⟩ : ∃ d, s.vmm.info.vmmNumberOfContainers = k + (d + 2) :=
    ⟨s.vmm.info.vmmNumberOfContainers - k - 2, by omega⟩
  have hlist : (List.range s.vmm.info.vmmNumberOfContainers).map (containerAt m root) =
      (List.range k).map (containerAt m root) ++
        containerAt m root k :: containerAt m root (k + 1) ::
        (List.range' (k + 2) d).map (containerAt m root) := by
    rw [hd, List.range_eq_range', ← List.range'_append_1, List.map_append, ← List.range_eq_range',
      Nat.zero_add, List.range'_succ, List.range'_succ]
    rfl
  have hchain := h.records.chain
  rw [hlist] at hchain
  refine ⟨_, hchain.unlink hpast fun a _ ha => hothers a ha, by simp⟩

/-- Its container does not count a range that is freed while another container is the current
one, whether or not one is taken out of the list. -/
theorem miscounted_elsewhere (hr : r ∈ s.live) (hcur : r.container ≠ s.vmm.info.vmmCurContainer)
    {j : Nat} (hj : j ≤ s.vmm.info.vmmNumberOfContainers) (hzero : j ≠ 0) {v : Vmm}
    (hfree : releaseContainer (countFreed s.vmm (containerAt m root (j - 1)) r.item.base)
      (if j < s.vmm.info.vmmNumberOfContainers then some (containerAt m root j) else none)
      (containerAt m root (j - 1)) = .ok v) (containers : List Nat) :
    ¬ NothingForgotten { s with vmm := v, live := s.live.erase r } containers := by
  obtain ⟨n, hn, hplace, -⟩ := h.places r hr
  have hlt := h.container_lt hn
  obtain ⟨k, hk⟩ : ∃ k, n / vmmRootLength m = k := ⟨_, rfl⟩
  rw [hk] at hplace hlt
  obtain ⟨counted, hcounted⟩ : ∃ counted,
    counted = countFreed s.vmm (containerAt m root (j - 1)) r.item.base := ⟨_, rfl⟩
  obtain ⟨hinfo, hnext, -, hothers⟩ :=
    countFreed_frame s.vmm (containerAt m root (j - 1)) r.item.base
  rw [← hcounted] at hfree hinfo hnext hothers
  have hsame : (counted.container r.container).vmmItemsAvailable =
      (s.vmm.container r.container).vmmItemsAvailable := by rw [hothers _ hcur]
  have hindex : k ≠ s.vmm.info.vmmNumberOfContainers - 1 := by
    intro heq
    exact hcur (by rw [hplace, heq, h.current_eq])
  have hheld := h.occupied (by omega)
  have hbefore := h.available_current
  unfold releaseContainer at hfree
  rw [hinfo] at hfree
  split_ifs at hfree with hfull hone hbelow
  · omega
  · -- a container is taken out of the list, but not the one of the range
    have hfound : j - 1 = k := by
      by_contra hne
      have hmissing := countFreed_missing (h.not_found (k := j - 1) hn (by omega) (by rwa [hk]))
      rw [← hcounted] at hmissing
      rw [hmissing, h.records.perPage] at hfull
      omega
    cases hfree
    obtain rfl : j = k + 1 := by omega
    obtain ⟨l, hlinked, hkeeps⟩ := h.unlink_chain (k := k) (by omega)
      (fun a => (Function.update counted.container (containerAt m root k)
        { counted.container (containerAt m root k) with
          next := (counted.container (containerAt m root (k + 1))).next } a).next)
      (by simp only [Function.update_self, hnext])
      (fun a ha => by simp only [Function.update_of_ne ha, hnext])
    refine h.miscounted hr rfl rfl ?_ hlinked (hplace ▸ hkeeps)
    rw [← hsame, hplace]
    simp only [Vmm.write, Nat.add_sub_cancel, Function.update_self]
  · cases hfree
    refine h.miscounted hr (by rw [hinfo]) (by rw [hinfo]) hsame ?_ (h.container_mem hr)
    rw [funext hnext]
    exact h.records.chain

/-- **Freeing any other range** goes wrong. -/
theorem freeable (hr : r ∈ s.live)
    (hexec : (VmmOp.free r).exec m start s = .ok t) {containers : List Nat}
    (hkept : NothingForgotten t containers) : Freeable s r := by
  obtain ⟨v, hfree, hexec⟩ := bind_inv hexec
  cases hexec
  have hnumber := h.records.number
  -- a call that changes nothing leaves the range counted: `NothingForgotten` excludes it
  have hunchanged : v ≠ s.vmm := by
    rintro rfl
    exact h.miscounted hr rfl rfl rfl h.records.chain (h.container_mem hr) hkept
  by_cases haddress : r.address = 0
  · unfold vmmFree at hfree
    rw [if_pos haddress] at hfree
    cases hfree
    exact absurd rfl hunchanged
  -- the search stops behind the containers whose first item is below the address
  obtain ⟨j, hstop⟩ := exists_stopsAt m root s.vmm r.address
  have hj := hstop.le
  rw [vmmFree_eq h.records haddress hstop] at hfree
  by_cases hzero : j = 0
  · rw [if_pos hzero] at hfree
    cases hfree
  rw [if_neg hzero, h.freed_base hr] at hfree
  by_cases hcur : r.container = s.vmm.info.vmmCurContainer
  swap
  · exact absurd hkept (h.miscounted_elsewhere hr hcur hj hzero hfree containers)
  have hheld := heldIn_pos hr hcur
  have hbefore := h.available_current
  by_cases hlast : j = s.vmm.info.vmmNumberOfContainers
  · have hbehind := hstop.low (s.vmm.info.vmmNumberOfContainers - 1) (by omega)
    rw [← h.current_eq] at hbehind
    refine ⟨hcur, hbehind, ?_⟩
    -- if nothing remains, the container after the current one is followed
    by_contra hgone
    rw [not_or] at hgone
    have hempty : heldIn (s.live.erase r) s.vmm.info.vmmCurContainer = 0 := by
      refine heldIn_eq_zero fun r' hr' hcur' => hgone.2 ⟨r', List.mem_of_mem_erase hr', ?_, hcur'⟩
      exact ((List.Nodup.of_map _ h.nodup).mem_erase_iff.mp hr').1
    have hheld' := heldIn_erase s.vmm.info.vmmCurContainer hr
    rw [if_pos hcur] at hheld'
    have hafter := h.counted_available hr hcur
    have hinfo := (countFreed_frame s.vmm s.vmm.info.vmmCurContainer r.item.base).1
    unfold releaseContainer at hfree
    rw [hlast, ← h.current_eq, hinfo, if_pos (by rw [hafter, h.records.perPage]; omega),
      if_neg hgone.1, if_neg (by omega)] at hfree
    cases hfree
  · -- the item is looked for in an earlier container
    obtain ⟨n, hn, hplace, -⟩ := h.places r hr
    have hindex : n / vmmRootLength m = s.vmm.info.vmmNumberOfContainers - 1 :=
      containerAt_inj.mp (hplace.symm.trans (hcur.trans h.current_eq))
    unfold releaseContainer at hfree
    rw [countFreed_missing (h.not_found (k := j - 1) hn (by omega) (by omega)),
      if_neg (by rw [h.records.perPage]; omega)] at hfree
    cases hfree
    exact absurd rfl hunchanged

/-- **A step keeps the invariant**, if what it frees can be freed. -/
theorem step {op : VmmOp}
    (hop : op.Permitted m start s) (hfree : ∀ r, op = .free r → Freeable s r) :
    ∃ t origin' ledger', op.exec m start s = .ok t ∧
      HeldInv m start root t origin' ledger' := by
  cases op with
  | call c =>
    obtain ⟨t, ledger', hexec, ht⟩ := h.call hop
    exact ⟨t, origin, ledger', hexec, ht⟩
  | free r => exact h.free hop (hfree r rfl)

/-- The invariant holds along a run, if what is freed from states with it can be freed. -/
theorem reached {ops : List VmmOp}
    (hfreeable : ∀ before r u, before ++ [.free r] <+: ops → Run (heldStep m start) s before u →
      (∃ origin ledger, HeldInv m start root u origin ledger) → r ∈ u.live → Freeable u r)
    {before : List VmmOp} {u : VmmHeld} (hbefore : before <+: ops)
    (hrun : Run (heldStep m start) s before u) :
    ∃ origin ledger, HeldInv m start root u origin ledger := by
  -- the hypothesis about frees is used at the states of the run itself
  refine hrun.trace
    (fun is t => is <+: ops → ∃ origin ledger, HeldInv m start root t origin ledger)
    (fun _ => ⟨origin, ledger, h⟩) ?_ hbefore
  rintro is t u op hrun ih ⟨hop, hexec⟩ hpre
  have hinv := ih ((List.prefix_append _ _).trans hpre)
  have hfree : ∀ r, op = .free r → Freeable t r := by
    rintro r rfl
    exact hfreeable is r t hpre hrun hinv hop
  obtain ⟨origin, ledger, hinv⟩ := hinv
  obtain ⟨u', origin', ledger', hexec', hinv'⟩ := hinv.step hop hfree
  cases hexec.symm.trans hexec'
  exact ⟨origin', ledger', hinv'⟩

end HeldInv

/-! ## Runs -/

/-- The manager that `vmm_init` leaves, with nothing reserved. -/
def initialHeld (m : PageMode) (level : VmmLevel) (memorySizeInBytes : Nat)
    (rootTable : Option Nat) (s : Vmm) : VmmHeld :=
  ⟨vmmInit m level memorySizeInBytes rootTable s, none, []⟩

/-- **Freeing one range never forgets another**, after every step of a run, exactly if
every range that the run frees can be freed. -/
theorem vmm_free_keeps (m : PageMode) (level : VmmLevel) (memorySizeInBytes : Nat)
    (rootTable : Option Nat) (s₀ : Vmm) (start : Nat) (hframes : s₀.frames ≠ [])
    (hstart : start = (vmmInit m level memorySizeInBytes rootTable s₀).info.startOfVmmSpace)
    (ops : List VmmOp) :
    (∀ before op u, before ++ [op] <+: ops →
      Run (heldStep m start) (initialHeld m level memorySizeInBytes rootTable s₀) before u →
      op.Permitted m start u →
      ∃ t containers, op.exec m start u = .ok t ∧ NothingForgotten t containers) ↔
    ∀ before r u, before ++ [.free r] <+: ops →
      Run (heldStep m start) (initialHeld m level memorySizeInBytes rootTable s₀) before u →
      r ∈ u.live → Freeable u r := by
  have hinit := HeldInv.init m level memorySizeInBytes rootTable hframes
  rw [← hstart] at hinit
  generalize (vmmInit m level memorySizeInBytes rootTable s₀).info.vmmContainerRoot = root at hinit
  constructor
  · intro hkept
    -- the invariant is needed at each free of a prefix, and is kept by those before it
    have hfreeable : ∀ before r u, before ++ [.free r] <+: ops →
        Run (heldStep m start) (initialHeld m level memorySizeInBytes rootTable s₀) before u →
        (∃ origin ledger, HeldInv m start root u origin ledger) → r ∈ u.live → Freeable u r := by
      rintro before r u hpre hrun ⟨origin, ledger, hinv⟩ hr
      obtain ⟨t, containers, hexec, hkeeps⟩ := hkept before (.free r) u hpre hrun hr
      exact hinv.freeable hr hexec hkeeps
    intro before r u hpre hrun hr
    have hinv := hinit.reached hfreeable ((List.prefix_append _ _).trans hpre) hrun
    exact hfreeable before r u hpre hrun hinv hr
  · intro hfreeable before op u hpre hrun hop
    obtain ⟨origin, ledger, hinv⟩ := hinit.reached
      (fun before r u hpre hrun _ hr => hfreeable before r u hpre hrun hr)
      ((List.prefix_append _ _).trans hpre) hrun
    -- a call that frees nothing needs no condition
    have hfree : ∀ r, op = .free r → Freeable u r := by
      rintro r rfl
      exact hfreeable before r u hpre hrun hop
    obtain ⟨t, origin', ledger', hexec, hinv'⟩ := hinv.step hop hfree
    exact ⟨t, _, hexec, hinv'.nothingForgotten⟩

/-- A permitted operation, computed. -/
def heldExec (m : PageMode) (start : Nat) (s : VmmHeld) (op : VmmOp) : Exec VmmHeld :=
  if op.Permitted m start s then op.exec m start s else .error .halted

theorem heldExec_iff {m : PageMode} {start : Nat} {s t : VmmHeld} {op : VmmOp} :
    heldExec m start s op = .ok t ↔ heldStep m start s op t := by
  unfold heldExec heldStep
  split_ifs with hop
  · exact (and_iff_right hop).symm
  · exact iff_of_false nofun fun h => hop h.1

/-- What is computed of the state after a run. -/
theorem exists_held {m : PageMode} {start : Nat} {ops : List VmmOp} {s : VmmHeld}
    {P : VmmHeld → Prop} (h : ∃ t, ops.foldlM (heldExec m start) s = .ok t ∧ P t) :
    ∃ t, Run (heldStep m start) s ops t ∧ P t :=
  Run.exists_run (fun _ _ _ => heldExec_iff.mp) h

/-- `n` ranges of a page of addresses each. -/
def pageAllocs (n : Nat) : List VmmOp := List.replicate n (.call (.alloc 4096 128))

/-- A range of `pageAllocs`, by its slot in the first container. -/
def heldPage (slot : Nat) : HeldRange :=
  ⟨⟨4096 * (slot + 1), 4096, 128⟩, 4096 * (slot + 1), 0xffff800280002000, slot⟩

/-- Of three ranges in one container the second is freed. -/
theorem vmm_free_keeps_pageAllocs : ∃ t u containers,
    Run (heldStep .small 4096) (initialHeld .small .user 0 none blankVmm) (pageAllocs 3) t ∧
    (VmmOp.free (heldPage 1)).exec .small 4096 t = .ok u ∧ u.live = [heldPage 0, heldPage 2] ∧
    NothingForgotten u containers := by
  obtain ⟨t, hrun, hlive, hcurrent, hbehind, hnumber⟩ : ∃ t,
      Run (heldStep .small 4096) (initialHeld .small .user 0 none blankVmm) (pageAllocs 3) t ∧
      t.live = [heldPage 0, heldPage 1, heldPage 2] ∧
      t.vmm.info.vmmCurContainer = (heldPage 1).container ∧
      ((t.vmm.container t.vmm.info.vmmCurContainer).vmmRoot 0).base < (heldPage 1).address ∧
      t.vmm.info.vmmNumberOfContainers = 1 := exists_held (by decide +kernel)
  have hfreeable : ∀ before r u, before ++ [.free r] <+: pageAllocs 3 ++ [.free (heldPage 1)] →
      Run (heldStep .small 4096) (initialHeld .small .user 0 none blankVmm) before u →
      r ∈ u.live → Freeable u r := by
    intro before r u hpre hrun' hr
    -- nothing before the last operation frees
    obtain ⟨rfl, rfl⟩ : before = pageAllocs 3 ∧ r = heldPage 1 := by
      rcases before with _ | ⟨a, _ | ⟨b, _ | ⟨c, _ | ⟨d, before⟩⟩⟩⟩ <;>
        simp_all [pageAllocs, List.replicate]
    obtain rfl := hrun.det (f := heldExec .small 4096) (fun _ _ _ => heldExec_iff.mpr) hrun'
    exact ⟨hcurrent.symm, hbehind, .inl hnumber⟩
  have hheld : heldPage 1 ∈ t.live := by
    rw [hlive]
    decide
  obtain ⟨u, containers, hexec, hkept⟩ := (vmm_free_keeps .small .user 0 none blankVmm
    4096 (by decide) rfl _).mpr hfreeable (pageAllocs 3) _ t
    (List.prefix_refl _) hrun hheld
  refine ⟨t, u, containers, hrun, hexec, ?_, hkept⟩
  obtain ⟨v, -, hu⟩ := bind_inv hexec
  cases hu
  show t.live.erase (heldPage 1) = _
  rw [hlive]
  decide

/-- With a second container, a range of the first is freed. -/
theorem vmm_free_forgets : ∃ u,
    Run (heldStep .small 4096)
      (initialHeld .small .user 0 none { blankVmm with frames := [0x400000, 0x401000] })
      (pageAllocs 170 ++ [.free (heldPage 1)]) u ∧
    ∀ containers, ¬ NothingForgotten u containers := by
  obtain ⟨t, hrun, hr, hcurrent, u, hexec, -⟩ : ∃ t, Run (heldStep .small 4096)
      (initialHeld .small .user 0 none { blankVmm with frames := [0x400000, 0x401000] })
      (pageAllocs 170) t ∧ heldPage 1 ∈ t.live ∧
      (heldPage 1).container ≠ t.vmm.info.vmmCurContainer ∧
      ∃ u, (VmmOp.free (heldPage 1)).exec .small 4096 t = .ok u ∧ True :=
    exists_held (by decide +kernel)
  -- only calls so far, so the manager is in order
  have hcalls : ∀ before r, ¬ before ++ [VmmOp.free r] <+: pageAllocs 170 := by
    intro before r hpre
    have hmem := hpre.subset (List.mem_append_right before (List.mem_singleton_self _))
    cases List.eq_of_mem_replicate hmem
  obtain ⟨origin, ledger, hinv⟩ :=
    (HeldInv.init .small .user 0 none (s := { blankVmm with frames := [0x400000, 0x401000] })
      (by decide)).reached (fun before r _ hpre _ _ _ => absurd hpre (hcalls before r))
      (List.prefix_refl _) hrun
  refine ⟨u, hrun.extend ⟨hr, hexec⟩, fun containers hkept => ?_⟩
  exact hcurrent (hinv.freeable hr hexec hkept).current

end Dreamos64

import Dreamos64.Lib.Links
import Dreamos64.Lib.Run
import Dreamos64.Mem.Vmm

/-!
# Dreamos64 — the ledger of the virtual memory manager

What the containers are for: they record every range that was reserved, in order.
The ranges themselves are told without containers (`VmmCall.item`): each starts at
the end of the one before it, or at the address asked for if that is higher, and
takes whole pages.

`LedgerInv` relates the two. The `n`-th range is item `n % vmm_items_per_page` of
container `n / vmm_items_per_page`, and container `k` lies `2 * k` pages behind the
root. A full container stays the current one until the next call needs room.

* `LedgerInv.ensure`  — a new container when the current one is full;
* `LedgerInv.record`  — one more item;
* `vmm_ledger`        — both along any run of calls from `vmm_init`.
-/

namespace Dreamos64

open Machine Links

/-! ## Calls and the ranges they reserve -/

inductive VmmCall where
  | alloc (size flags : Nat)
  | allocAt (baseAddress size flags : Nat)
  deriving DecidableEq, Repr

namespace VmmCall

def baseAddress : VmmCall → Nat
  | alloc .. => 0
  | allocAt baseAddress .. => baseAddress

def size : VmmCall → Nat
  | alloc size _ => size
  | allocAt _ size _ => size

def flags : VmmCall → Nat
  | alloc _ flags => flags
  | allocAt _ _ flags => flags

def exec (m : PageMode) (s : Vmm) : VmmCall → Exec (Option Nat × Vmm)
  | alloc size flags => vmmAlloc m size flags s
  | allocAt baseAddress size flags => vmmAllocAt m baseAddress size flags s

theorem exec_eq (m : PageMode) (s : Vmm) (c : VmmCall) :
    c.exec m s = vmmAllocAt m c.baseAddress c.size c.flags s := by
  cases c <;> rfl

end VmmCall

/-- Where the ranges reserved so far end. -/
def reservedEnd (start : Nat) (reserved : List VmmItem) : Nat :=
  (reserved.getLast?.map fun item => item.base + item.size).getD start

/-- The range that a call reserves after others. -/
def VmmCall.item (m : PageMode) (start : Nat) (reserved : List VmmItem) (c : VmmCall) : VmmItem :=
  ⟨max c.baseAddress (reservedEnd start reserved), wholePages m c.size, c.flags⟩

/-- A manager and the ranges it has reserved, oldest first. -/
structure VmmUse where
  vmm      : Vmm
  reserved : List VmmItem

/-- Non-zero size, a base address on a page boundary if it is taken, no address past the end of
the address space, and a frame for a container if one is needed. -/
structure VmmCall.Permitted (m : PageMode) (start : Nat) (s : VmmUse) (c : VmmCall) : Prop where
  size      : c.size ≠ 0
  pages     : c.size + (pageSizeInBytes m - 1) < 2 ^ 64
  aligned   : reservedEnd start s.reserved < c.baseAddress → pageSizeInBytes m ∣ c.baseAddress
  address   : (c.item m start s.reserved).base + (c.item m start s.reserved).size ≤ 2 ^ 64
  container : s.vmm.info.vmmItemsPerPage ≤ s.vmm.info.vmmCurIndex →
    s.vmm.info.vmmCurContainer + sizeofVmmContainer m + pageSizeInBytes m +
      (pageSizeInBytes m - 1) ≤ 2 ^ 64
  frame     : s.vmm.info.vmmItemsPerPage ≤ s.vmm.info.vmmCurIndex → s.vmm.frames ≠ []

instance (m : PageMode) (start : Nat) (s : VmmUse) (c : VmmCall) :
    Decidable (c.Permitted m start s) :=
  decidable_of_iff (c.size ≠ 0 ∧ c.size + (pageSizeInBytes m - 1) < 2 ^ 64 ∧
      (reservedEnd start s.reserved < c.baseAddress → pageSizeInBytes m ∣ c.baseAddress) ∧
      (c.item m start s.reserved).base + (c.item m start s.reserved).size ≤ 2 ^ 64 ∧
      (s.vmm.info.vmmItemsPerPage ≤ s.vmm.info.vmmCurIndex →
        s.vmm.info.vmmCurContainer + sizeofVmmContainer m + pageSizeInBytes m +
          (pageSizeInBytes m - 1) ≤ 2 ^ 64) ∧
      (s.vmm.info.vmmItemsPerPage ≤ s.vmm.info.vmmCurIndex → s.vmm.frames ≠ []))
    ⟨fun h => ⟨h.1, h.2.1, h.2.2.1, h.2.2.2.1, h.2.2.2.2.1, h.2.2.2.2.2⟩,
      fun h => ⟨h.size, h.pages, h.aligned, h.address, h.container, h.frame⟩⟩

def vmmStep (m : PageMode) (start : Nat) (s : VmmUse) (c : VmmCall) (t : VmmUse) : Prop :=
  c.Permitted m start s ∧ (∃ p, c.exec m s.vmm = .ok (p, t.vmm)) ∧
    t.reserved = s.reserved ++ [c.item m start s.reserved]

/-! ## Where containers lie -/

/-- The address of container `k`. -/
def containerAt (m : PageMode) (root k : Nat) : Nat := root + 2 * pageSizeInBytes m * k

theorem containerAt_inj {m : PageMode} {root j k : Nat} :
    containerAt m root j = containerAt m root k ↔ j = k := by
  unfold containerAt
  cases m <;> simp only [pageSizeInBytes] <;> omega

theorem vmmRootLength_pos (m : PageMode) : 0 < vmmRootLength m := by
  cases m <;> decide

/-- Where range `q * perPage + i` is recorded. -/
theorem slot_of_index {perPage q i : Nat} (hi : i < perPage) :
    (q * perPage + i) / perPage = q ∧ (q * perPage + i) % perPage = i := by
  have hpos : 0 < perPage := Nat.lt_of_le_of_lt (Nat.zero_le i) hi
  rw [Nat.mul_comm, Nat.mul_add_div hpos, Nat.div_eq_of_lt hi, Nat.mul_add_mod,
    Nat.mod_eq_of_lt hi]
  exact ⟨rfl, rfl⟩

/-- The address `vmm_alloc_at` computes for a new container. -/
theorem next_container {m : PageMode} {cur : Nat} (hcur : pageSizeInBytes m ∣ cur)
    (hfit : cur + sizeofVmmContainer m + pageSizeInBytes m + (pageSizeInBytes m - 1) ≤ 2 ^ 64) :
    alignValueToPage m ((cur + sizeofVmmContainer m + pageSizeInBytes m) % 2 ^ 64) =
      cur + 2 * pageSizeInBytes m := by
  obtain ⟨j, rfl⟩ := hcur
  have hsize : sizeofVmmContainer .large = 2097136 ∧ sizeofVmmContainer .small = 4072 := by decide
  unfold alignValueToPage
  cases m
  · simp only [hsize.1, pageSizeInBytes] at hfit ⊢
    omega
  · simp only [hsize.2, pageSizeInBytes] at hfit ⊢
    omega

/-! ## The pieces of a call -/

section Pieces

variable {m : PageMode} {s g : Vmm}

/-- Backing the pages with frames leaves the records alone. -/
theorem mapPages_records (m : PageMode) (address flags requiredPages : Nat) (s : Vmm) :
    (mapPages m address flags requiredPages s).info = s.info ∧
      (mapPages m address flags requiredPages s).container = s.container := by
  have hone (s : Vmm) : s.allocFrame.2.info = s.info ∧ s.allocFrame.2.container = s.container := by
    unfold Vmm.allocFrame
    split <;> exact ⟨rfl, rfl⟩
  unfold mapPages
  induction List.range requiredPages generalizing s with
  | nil => exact ⟨rfl, rfl⟩
  | cons i l ih =>
    obtain ⟨hinfo, hcontainer⟩ := hone s
    rw [List.foldl_cons]
    exact ⟨(ih _).1.trans hinfo, (ih _).2.trans hcontainer⟩

/-- A new container: linked behind the current one, empty, and current. -/
theorem ensureContainer_full {frame new : Nat} {rest : List Nat}
    (hfull : s.info.vmmItemsPerPage ≤ s.info.vmmCurIndex) (hframes : s.frames = frame :: rest)
    (hnew : newContainer m s = new) (hne : s.info.vmmCurContainer ≠ new) :
    ∃ g, ensureContainer m s = .ok g ∧
      g.info = { s.info with
        vmmCurIndex := 0
        vmmCurContainer := new
        vmmNumberOfContainers := s.info.vmmNumberOfContainers + 1 } ∧
      ∀ a, g.container a =
        if a = s.info.vmmCurContainer then { s.container a with next := some new }
        else if a = new then
          { s.container a with next := none, vmmItemsAvailable := s.info.vmmItemsPerPage }
        else s.container a := by
  unfold ensureContainer
  rw [if_pos hfull, hframes]
  refine ⟨_, rfl, ?_, fun a => ?_⟩
  · rw [← hnew]
    rfl
  · simp only [enterContainer, Vmm.write, Vmm.map, hnew, Function.update_apply, if_neg hne]
    by_cases ha : a = s.info.vmmCurContainer
    · simp [ha]
    · by_cases ha' : a = new
      · simp [ha', hne.symm]
      · simp [ha, ha']

/-- A call with a container that has room: it records its item and moves on. -/
theorem vmmAllocAt_records {baseAddress address size : Nat} (flags : Nat) (hsize : size ≠ 0)
    (hg : ensureContainer m s = .ok g) (haddress : addressToReturn m baseAddress g = .ok address)
    (hroom : g.info.vmmCurIndex < vmmRootLength m) :
    ∃ t, vmmAllocAt m baseAddress size flags s = .ok (some (handedOut address flags), t) ∧
      t.info = { g.info with
        nextAvailableAddress := (address + alignValueToPage m size) % 2 ^ 64
        vmmCurIndex := g.info.vmmCurIndex + 1 } ∧
      t.container = (recordItem g ⟨address, alignValueToPage m size, flags⟩).container := by
  -- the flags decide only what is mapped
  have hkept (fl n : Nat) (v : Vmm) :
      (if isAddressOnly flags then v else mapPages m address fl n v).info = v.info ∧
        (if isAddressOnly flags then v else mapPages m address fl n v).container =
          v.container := by
    by_cases honly : isAddressOnly flags = true
    · rw [if_pos honly]
      exact ⟨rfl, rfl⟩
    · rw [if_neg honly]
      exact mapPages_records m address fl n v
  refine ⟨_, vmmAllocAt_some flags hsize hg haddress (Nat.not_le.2 hroom), ?_, (hkept _ _ _).2⟩
  rw [countItem, (hkept _ _ _).1]
  rfl

end Pieces

/-! ## The invariant -/

/-- How many of the first `n` ranges container `k` holds. -/
def usedSlots (perPage n k : Nat) : Nat := min perPage (n - k * perPage)

/-- The records of `s` are the ranges `reserved`, in containers from `root` on. -/
structure Records (m : PageMode) (start root : Nat) (s : Vmm) (reserved : List VmmItem) :
    Prop where
  perPage   : s.info.vmmItemsPerPage = vmmRootLength m
  rooted    : s.info.vmmContainerRoot = root ∧ pageSizeInBytes m ∣ root
  number    : 0 < s.info.vmmNumberOfContainers
  current   : s.info.vmmCurContainer = containerAt m root (s.info.vmmNumberOfContainers - 1)
  count     : reserved.length =
    (s.info.vmmNumberOfContainers - 1) * vmmRootLength m + s.info.vmmCurIndex
  index     : s.info.vmmCurIndex ≤ vmmRootLength m
  next      : s.info.nextAvailableAddress = reservedEnd start reserved % 2 ^ 64
  linked    : ∀ k < s.info.vmmNumberOfContainers, (s.container (containerAt m root k)).next =
    if k + 1 < s.info.vmmNumberOfContainers then some (containerAt m root (k + 1)) else none
  items     : ∀ n item, reserved[n]? = some item →
    (s.container (containerAt m root (n / vmmRootLength m))).vmmRoot (n % vmmRootLength m) = item
  ordered   : reserved.Pairwise fun a b => a.base + a.size ≤ b.base

/-- And the counts of what is left, which `vmm_free` changes too. -/
structure LedgerInv (m : PageMode) (start root : Nat) (s : Vmm) (reserved : List VmmItem) : Prop
    extends Records m start root s reserved where
  available : ∀ k < s.info.vmmNumberOfContainers,
    (s.container (containerAt m root k)).vmmItemsAvailable =
      vmmRootLength m - usedSlots (vmmRootLength m) reserved.length k

namespace Records

variable {m : PageMode} {start root : Nat} {s g : Vmm} {reserved : List VmmItem}

variable (hi : Records m start root s reserved)

include hi

/-- The container of a recorded range is one of those in use. -/
theorem slot_lt {n : Nat} (hn : n < reserved.length) :
    n / vmmRootLength m < s.info.vmmNumberOfContainers := by
  have hpos := vmmRootLength_pos m
  rw [Nat.div_lt_iff_lt_mul hpos]
  have hcount := hi.count
  have hindex := hi.index
  have hsucc : s.info.vmmNumberOfContainers * vmmRootLength m =
      (s.info.vmmNumberOfContainers - 1) * vmmRootLength m + vmmRootLength m := by
    rw [← Nat.succ_mul]
    congr 1
    have := hi.number
    omega
  omega

/-- Where the container after the current one is put. -/
theorem new_container {last : Nat}
    (hcurrent : s.info.vmmCurContainer = containerAt m root last)
    (hfit : s.info.vmmCurContainer + sizeofVmmContainer m + pageSizeInBytes m +
      (pageSizeInBytes m - 1) ≤ 2 ^ 64) :
    newContainer m s = containerAt m root (last + 1) := by
  rw [newContainer, next_container ?_ hfit, hcurrent]
  · unfold containerAt
    rw [Nat.mul_add]
    omega
  · rw [hcurrent]
    exact (Nat.dvd_add_right hi.rooted.2).2 ⟨2 * last, by rw [Nat.mul_right_comm, Nat.mul_comm]⟩

/-- A new container goes behind the last one, which is full. -/
theorem grow {last : Nat}
    (hlast : s.info.vmmNumberOfContainers = last + 1)
    (hcount : reserved.length = (last + 1) * vmmRootLength m)
    (hinfo : g.info = { s.info with
      vmmNumberOfContainers := s.info.vmmNumberOfContainers + 1
      vmmCurContainer := containerAt m root (last + 1)
      vmmCurIndex := 0 })
    (hcontainer : ∀ k, g.container (containerAt m root k) =
      if k = last then
        { s.container (containerAt m root k) with next := some (containerAt m root (last + 1)) }
      else if k = last + 1 then
        { s.container (containerAt m root k) with
          next := none, vmmItemsAvailable := vmmRootLength m }
      else s.container (containerAt m root k)) :
    Records m start root g reserved := by
  have hnumber : g.info.vmmNumberOfContainers = last + 2 := by
    rw [hinfo]
    exact congrArg (· + 1) hlast
  refine ⟨?_, ?_, by omega, ?_, ?_, ?_, ?_, ?_, ?_, hi.ordered⟩
  · rw [hinfo]
    exact hi.perPage
  · rw [hinfo]
    exact hi.rooted
  · rw [hnumber, hinfo]
    rfl
  · rw [hnumber, hinfo]
    exact hcount
  · rw [hinfo]
    exact Nat.zero_le _
  · rw [hinfo]
    exact hi.next
  -- the link of the last container is the only one that changes
  · intro k hk
    rw [hnumber] at hk ⊢
    rw [hcontainer]
    by_cases hkl : k = last
    · simp [hkl]
    · rw [if_neg hkl]
      by_cases hkn : k = last + 1
      · simp [hkn]
      · rw [if_neg hkn, hi.linked k (by omega), hlast, if_pos (by omega), if_pos (by omega)]
  -- no item lies in the new container
  · intro n item hitem
    have hslot := hi.slot_lt (List.getElem?_eq_some_iff.1 hitem).1
    have hold := hi.items n item hitem
    rw [hcontainer]
    rw [hlast] at hslot
    split_ifs with hlast' hnew'
    · exact hold
    · omega
    · exact hold

/-- **A container when one is needed.** -/
theorem ensure (hfit : s.info.vmmItemsPerPage ≤ s.info.vmmCurIndex →
      s.info.vmmCurContainer + sizeofVmmContainer m + pageSizeInBytes m +
        (pageSizeInBytes m - 1) ≤ 2 ^ 64)
    (hframe : s.info.vmmItemsPerPage ≤ s.info.vmmCurIndex → s.frames ≠ []) :
    ∃ g, ensureContainer m s = .ok g ∧ Records m start root g reserved ∧
      g.info.vmmCurIndex < vmmRootLength m ∧
      g.info.nextAvailableAddress = s.info.nextAvailableAddress ∧
      (g.info.vmmNumberOfContainers = s.info.vmmNumberOfContainers ∨
        g.info.vmmNumberOfContainers = s.info.vmmNumberOfContainers + 1 ∧
        reserved.length = s.info.vmmNumberOfContainers * vmmRootLength m ∧
        (g.container (containerAt m root s.info.vmmNumberOfContainers)).vmmItemsAvailable =
          vmmRootLength m) ∧
      ∀ k < s.info.vmmNumberOfContainers,
        (g.container (containerAt m root k)).vmmItemsAvailable =
          (s.container (containerAt m root k)).vmmItemsAvailable := by
  by_cases hfull : s.info.vmmItemsPerPage ≤ s.info.vmmCurIndex
  · obtain ⟨frame, rest, hframes⟩ := List.exists_cons_of_ne_nil (hframe hfull)
    have hpos := vmmRootLength_pos m
    obtain ⟨last, hlast⟩ : ∃ last, s.info.vmmNumberOfContainers = last + 1 :=
      Nat.exists_eq_succ_of_ne_zero (by have := hi.number; omega)
    have hcurrent := hi.current
    rw [hlast, Nat.add_sub_cancel] at hcurrent
    have hnew := hi.new_container hcurrent (hfit hfull)
    have hindex : s.info.vmmCurIndex = vmmRootLength m := by
      have := hi.index
      rw [hi.perPage] at hfull
      omega
    have hcount := hi.count
    rw [hlast, Nat.add_sub_cancel, hindex, ← Nat.succ_mul] at hcount
    have hne : s.info.vmmCurContainer ≠ containerAt m root (last + 1) := by
      rw [hcurrent, ne_eq, containerAt_inj]
      omega
    obtain ⟨g, hg, hinfo, hmemory⟩ := ensureContainer_full hfull hframes hnew hne
    have hcontainer (k : Nat) : g.container (containerAt m root k) =
        if k = last then
          { s.container (containerAt m root k) with next := some (containerAt m root (last + 1)) }
        else if k = last + 1 then
          { s.container (containerAt m root k) with
            next := none, vmmItemsAvailable := vmmRootLength m }
        else s.container (containerAt m root k) := by
      simp only [hmemory, hcurrent, containerAt_inj, hi.perPage]
    have hnumber : g.info.vmmNumberOfContainers = last + 2 := by
      rw [hinfo]
      exact congrArg (· + 1) hlast
    refine ⟨g, hg, hi.grow hlast hcount hinfo hcontainer, ?_, by rw [hinfo],
      .inr ⟨by omega, by rw [hlast]; exact hcount, ?_⟩, fun k hk => ?_⟩
    · rw [hinfo]
      exact hpos
    · -- the new one is empty
      rw [hlast, hcontainer, if_neg (by omega), if_pos rfl]
    · rw [hcontainer]
      split_ifs with hkl hkn
      · rfl
      · omega
      · rfl
  · refine ⟨s, if_neg hfull, hi, ?_, rfl, .inl rfl, fun _ _ => rfl⟩
    rw [hi.perPage] at hfull
    omega

/-- Every range ends before the end of the last one. -/
theorem le_reservedEnd {a : VmmItem} (ha : a ∈ reserved) :
    a.base + a.size ≤ reservedEnd start reserved := by
  rcases List.eq_nil_or_concat reserved with rfl | ⟨before, z, rfl⟩
  · cases ha
  · have hend : reservedEnd start (before.concat z) = z.base + z.size := by
      simp [reservedEnd]
    rw [hend]
    have hordered := hi.ordered
    simp only [List.concat_eq_append, List.mem_append, List.mem_singleton,
      List.pairwise_append] at ha hordered
    rcases ha with ha | rfl
    · have := hordered.2.2 a ha z (by simp)
      omega
    · exact Nat.le_refl _

/-- **One more item.** -/
theorem record {t : Vmm} {item : VmmItem}
    (hroom : s.info.vmmCurIndex < vmmRootLength m) (hbase : reservedEnd start reserved ≤ item.base)
    (hinfo : t.info = { s.info with
      nextAvailableAddress := (item.base + item.size) % 2 ^ 64
      vmmCurIndex := s.info.vmmCurIndex + 1 })
    (hrecord : t.container = (recordItem s item).container) :
    Records m start root t (reserved ++ [item]) ∧
      ∀ k, (t.container (containerAt m root k)).vmmItemsAvailable =
        if k + 1 = s.info.vmmNumberOfContainers then
          ((s.container (containerAt m root k)).vmmItemsAvailable + 2 ^ 64 - 1) % 2 ^ 64
        else (s.container (containerAt m root k)).vmmItemsAvailable := by
  have hpos := vmmRootLength_pos m
  obtain ⟨last, hlast⟩ : ∃ last, s.info.vmmNumberOfContainers = last + 1 :=
    Nat.exists_eq_succ_of_ne_zero (by have := hi.number; omega)
  have hcurrent := hi.current
  have hcount := hi.count
  rw [hlast, Nat.add_sub_cancel] at hcurrent hcount
  have hcontainer (k : Nat) : t.container (containerAt m root k) = if k = last then
      { s.container (containerAt m root k) with
        vmmRoot := Function.update (s.container (containerAt m root k)).vmmRoot
          s.info.vmmCurIndex item
        vmmItemsAvailable := ((s.container (containerAt m root k)).vmmItemsAvailable + 2 ^ 64 - 1) %
          2 ^ 64 }
      else s.container (containerAt m root k) := by
    rw [hrecord]
    simp only [recordItem, Vmm.write, hcurrent, Function.update_apply, containerAt_inj]
    split_ifs with hk
    · rw [hk]
    · rfl
  refine ⟨⟨by rw [hinfo]; exact hi.perPage, by rw [hinfo]; exact hi.rooted,
    by rw [hinfo]; exact hi.number, by rw [hinfo]; exact hi.current, ?_, ?_, ?_, ?_, ?_, ?_⟩, ?_⟩
  · rw [hinfo, List.length_append, List.length_singleton, hi.count]
    simp only
    omega
  · rw [hinfo]
    exact hroom
  · rw [hinfo, reservedEnd, List.getLast?_concat]
    rfl
  · intro k hk
    rw [hinfo] at hk ⊢
    have hold := hi.linked k hk
    rw [hcontainer]
    by_cases hkl : k = last
    · rw [if_pos hkl]
      exact hold
    · rw [if_neg hkl]
      exact hold
  · intro n it hit
    rw [hcontainer]
    have hdiv := slot_of_index hroom (q := last)
    rcases Nat.lt_trichotomy n reserved.length with hn | hn | hn
    · rw [List.getElem?_append_left hn] at hit
      have hold := hi.items n it hit
      split_ifs with hk
      · -- an earlier item of the same container
        show Function.update (s.container _).vmmRoot s.info.vmmCurIndex item _ = it
        rw [Function.update_of_ne]
        · exact hold
        · intro heq
          have hsplit := Nat.div_add_mod n (vmmRootLength m)
          rw [hk, heq, Nat.mul_comm] at hsplit
          omega
      · exact hold
    · rw [hn, List.getElem?_concat_length] at hit
      rw [hn, hcount, hdiv.1, hdiv.2, if_pos rfl]
      simpa using hit
    · have hout : (reserved ++ [item])[n]? = none := by
        rw [List.getElem?_eq_none_iff, List.length_append, List.length_singleton]
        omega
      rw [hout] at hit
      cases hit
  · refine List.pairwise_append.2 ⟨hi.ordered, List.pairwise_singleton _ _, fun a ha b hb => ?_⟩
    rw [List.mem_singleton.1 hb]
    exact Nat.le_trans (hi.le_reservedEnd ha) hbase
  · intro k
    rw [hcontainer]
    by_cases hkl : k = last
    · rw [if_pos hkl, if_pos (by omega)]
    · rw [if_neg hkl, if_neg (by omega)]

/-- The list from container `k` on. -/
theorem chain_from (n k : Nat)
    (hk : k + n = s.info.vmmNumberOfContainers) :
    Chain (fun a => (s.container a).next) (if 0 < n then some (containerAt m root k) else none)
      ((List.range' k n).map (containerAt m root)) := by
  -- from container `k` to the last one
  induction n generalizing k with
  | zero => exact rfl
  | succ n ih =>
    rw [if_pos (Nat.succ_pos n), List.range'_succ, List.map_cons, chain_cons]
    refine ⟨rfl, ?_⟩
    show Chain _ (s.container (containerAt m root k)).next _
    have htail := ih (k + 1) (by omega)
    rw [hi.linked k (by omega)]
    by_cases hn : 0 < n
    · rw [if_pos hn] at htail
      rw [if_pos (by omega)]
      exact htail
    · rw [if_neg hn] at htail
      rw [if_neg (by omega)]
      exact htail

/-- **The containers are a list** from the root to the current one. -/
theorem chain :
    Chain (fun a => (s.container a).next) (some s.info.vmmContainerRoot)
      ((List.range s.info.vmmNumberOfContainers).map (containerAt m root)) := by
  have hfrom := hi.chain_from s.info.vmmNumberOfContainers 0 (Nat.zero_add _)
  rw [if_pos hi.number] at hfrom
  rw [List.range_eq_range', hi.rooted.1]
  exact hfrom

end Records

namespace LedgerInv

variable {m : PageMode} {start root : Nat} {s g : Vmm} {reserved : List VmmItem}

/-- **A container when one is needed.** -/
theorem ensure (hi : LedgerInv m start root s reserved)
    (hfit : s.info.vmmItemsPerPage ≤ s.info.vmmCurIndex →
      s.info.vmmCurContainer + sizeofVmmContainer m + pageSizeInBytes m +
        (pageSizeInBytes m - 1) ≤ 2 ^ 64)
    (hframe : s.info.vmmItemsPerPage ≤ s.info.vmmCurIndex → s.frames ≠ []) :
    ∃ g, ensureContainer m s = .ok g ∧ LedgerInv m start root g reserved ∧
      g.info.vmmCurIndex < vmmRootLength m ∧
      g.info.nextAvailableAddress = s.info.nextAvailableAddress := by
  obtain ⟨g, hg, hrecords, hroom, hnext, hnumber, hsame⟩ := hi.toRecords.ensure hfit hframe
  refine ⟨g, hg, ⟨hrecords, fun k hk => ?_⟩, hroom, hnext⟩
  by_cases hold : k < s.info.vmmNumberOfContainers
  · rw [hsame k hold]
    exact hi.available k hold
  · -- the new one is empty
    rcases hnumber with hnumber | ⟨hnumber, hlength, hempty⟩
    · omega
    · obtain rfl : k = s.info.vmmNumberOfContainers := by omega
      rw [hempty, usedSlots, hlength, Nat.sub_self, Nat.min_zero, Nat.sub_zero]

/-- **One more item.** -/
theorem record {t : Vmm} {item : VmmItem} (hi : LedgerInv m start root s reserved)
    (hroom : s.info.vmmCurIndex < vmmRootLength m) (hbase : reservedEnd start reserved ≤ item.base)
    (hinfo : t.info = { s.info with
      nextAvailableAddress := (item.base + item.size) % 2 ^ 64
      vmmCurIndex := s.info.vmmCurIndex + 1 })
    (hrecord : t.container = (recordItem s item).container) :
    LedgerInv m start root t (reserved ++ [item]) := by
  obtain ⟨hrecords, havailable⟩ := hi.toRecords.record hroom hbase hinfo hrecord
  obtain ⟨last, hlast⟩ : ∃ last, s.info.vmmNumberOfContainers = last + 1 :=
    Nat.exists_eq_succ_of_ne_zero (by have := hi.number; omega)
  have hcount := hi.count
  rw [hlast, Nat.add_sub_cancel] at hcount
  refine ⟨hrecords, fun k hk => ?_⟩
  rw [hinfo] at hk
  have hold := hi.available k hk
  have hkl : k ≤ last := by
    have : k < s.info.vmmNumberOfContainers := hk
    omega
  rw [havailable, List.length_append, List.length_singleton, hcount, hlast]
  rw [hcount] at hold
  have hsmall : vmmRootLength m < 2 ^ 64 := by cases m <;> decide
  unfold usedSlots at hold ⊢
  by_cases hkl' : k = last
  · -- the current container had `vmm_cur_index` items
    rw [if_pos (by omega)]
    rw [hkl', Nat.add_sub_cancel_left] at hold
    rw [hkl', Nat.add_assoc, Nat.add_sub_cancel_left]
    simp only [hold]
    omega
  · -- the ones before it are full
    have hfull : (k + 1) * vmmRootLength m ≤ last * vmmRootLength m :=
      Nat.mul_le_mul_right _ (by omega)
    rw [Nat.succ_mul] at hfull
    rw [if_neg (by omega), hold]
    omega

end LedgerInv

/-! ## Runs -/

section Runs

variable {m : PageMode} {start root : Nat} {s t : VmmUse} {c : VmmCall}

theorem vmmInit_ledger (m : PageMode) (level : VmmLevel) (memorySizeInBytes : Nat)
    (rootTable : Option Nat) (s : Vmm) (hframes : s.frames ≠ []) :
    LedgerInv m (vmmInit m level memorySizeInBytes rootTable s).info.startOfVmmSpace
      (vmmInit m level memorySizeInBytes rootTable s).info.vmmContainerRoot
      (vmmInit m level memorySizeInBytes rootTable s) [] := by
  obtain ⟨frame, rest, hframes⟩ := List.exists_cons_of_ne_nil hframes
  have haligned : pageSizeInBytes m ∣ alignValueToPage m
      ((higherHalfDirectMapBase m + memorySizeInBytes + vmKernelMemoryPadding m) % 2 ^ 64) :=
    ⟨_, Nat.mul_comm ..⟩
  have hpadding : vmKernelMemoryPadding m < 2 ^ 64 := by cases m <;> decide
  unfold vmmInit
  simp only [hframes]
  generalize alignValueToPage m
    ((higherHalfDirectMapBase m + memorySizeInBytes + vmKernelMemoryPadding m) % 2 ^ 64) = dataStart
    at haligned ⊢
  -- the start of the space is an address
  have hstart : startOfSpace m dataStart level < 2 ^ 64 := by
    cases level with
    | user => exact hpadding
    | supervisor => exact Nat.mod_lt _ (by decide)
  generalize startOfSpace m dataStart level = spaceStart at hstart ⊢
  simp only [Vmm.write, Vmm.map]
  refine ⟨⟨rfl, ⟨rfl, haligned⟩, Nat.one_pos, rfl, ?_, Nat.zero_le _,
    (Nat.mod_eq_of_lt hstart).symm, ?_, ?_, List.Pairwise.nil⟩, ?_⟩
  · simp
  · intro k hk
    obtain rfl : k = 0 := Nat.lt_one_iff.1 hk
    simp [containerAt]
  · intro n item hitem
    simp at hitem
  · intro k hk
    obtain rfl : k = 0 := Nat.lt_one_iff.1 hk
    simp [containerAt, usedSlots, vmmRootLength]

/-- **A permitted call returns its range**, and goes on from a container with room. -/
theorem VmmCall.returns {g : Vmm} (hc : c.Permitted m start s)
    (hg : ensureContainer m s.vmm = .ok g) (hroom : g.info.vmmCurIndex < vmmRootLength m)
    (hnext : g.info.nextAvailableAddress = reservedEnd start s.reserved % 2 ^ 64) :
    ∃ t, c.exec m s.vmm =
        .ok (some (handedOut (c.item m start s.reserved).base c.flags), t) ∧
      t.info = { g.info with
        nextAvailableAddress :=
          ((c.item m start s.reserved).base + (c.item m start s.reserved).size) % 2 ^ 64
        vmmCurIndex := g.info.vmmCurIndex + 1 } ∧
      t.container = (recordItem g (c.item m start s.reserved)).container := by
  have haddress := hc.address
  have hpages : 0 < wholePages m c.size :=
    Nat.lt_of_lt_of_le (Nat.pos_of_ne_zero hc.size) (le_wholePages m c.size)
  have hend : reservedEnd start s.reserved < 2 ^ 64 := by
    have : reservedEnd start s.reserved ≤ (c.item m start s.reserved).base := Nat.le_max_right _ _
    have : (c.item m start s.reserved).size = wholePages m c.size := rfl
    omega
  rw [Nat.mod_eq_of_lt hend] at hnext
  have hbase : max c.baseAddress g.info.nextAvailableAddress =
      (c.item m start s.reserved).base := by
    rw [hnext]
    rfl
  obtain ⟨t, hexec, hinfo, hcontainer⟩ := vmmAllocAt_records c.flags hc.size hg
    (addressToReturn_eq (by rw [hnext]; exact hc.aligned)) hroom
  have hpagesize := pageSizeInBytes_pos m
  have hsize : alignValueToPage m c.size = (c.item m start s.reserved).size :=
    alignValueToPage_eq (by have := hc.pages; omega)
  rw [hbase] at hexec
  rw [hbase, hsize] at hinfo hcontainer
  exact ⟨t, (c.exec_eq m s.vmm).trans hexec, hinfo, hcontainer⟩

/-- **A permitted call records its range.** -/
theorem LedgerInv.call (hi : LedgerInv m start root s.vmm s.reserved)
    (hc : c.Permitted m start s) :
    ∃ p t, c.exec m s.vmm = .ok (some p, t) ∧
      LedgerInv m start root t (s.reserved ++ [c.item m start s.reserved]) := by
  obtain ⟨g, hg, hig, hroom, -⟩ := hi.ensure hc.container hc.frame
  obtain ⟨t, hexec, hinfo, hcontainer⟩ := VmmCall.returns hc hg hroom hig.next
  exact ⟨_, t, hexec, hig.record hroom (Nat.le_max_right _ _) hinfo hcontainer⟩

/-- **The ledger.** After `vmm_init` and any run of permitted calls the ranges are
disjoint and increasing, and the containers are a list from the root to the current
one that records them: range `n` in slot `n % vmm_items_per_page` of container
`n / vmm_items_per_page`, with the count of what is left in each. Every further
permitted call returns an address. -/
theorem vmm_ledger (m : PageMode) (level : VmmLevel) (memorySizeInBytes : Nat)
    (rootTable : Option Nat) (s₀ : Vmm) (t : VmmUse) (calls : List VmmCall)
    (hframes : s₀.frames ≠ [])
    (hrun : Run (vmmStep m (vmmInit m level memorySizeInBytes rootTable s₀).info.startOfVmmSpace)
      ⟨vmmInit m level memorySizeInBytes rootTable s₀, []⟩ calls t) :
    t.reserved.Pairwise (fun a b => a.base + a.size ≤ b.base) ∧
    (∃ containers : List Nat,
      Chain (fun a => (t.vmm.container a).next) (some t.vmm.info.vmmContainerRoot) containers ∧
      t.vmm.info.vmmNumberOfContainers = containers.length ∧
      containers.getLast? = some t.vmm.info.vmmCurContainer ∧
      (∀ n item, t.reserved[n]? = some item →
        ∃ a, containers[n / t.vmm.info.vmmItemsPerPage]? = some a ∧
          (t.vmm.container a).vmmRoot (n % t.vmm.info.vmmItemsPerPage) = item) ∧
      ∀ k a, containers[k]? = some a → (t.vmm.container a).vmmItemsAvailable =
        t.vmm.info.vmmItemsPerPage - usedSlots t.vmm.info.vmmItemsPerPage t.reserved.length k) ∧
    ∀ c : VmmCall, c.Permitted m
        (vmmInit m level memorySizeInBytes rootTable s₀).info.startOfVmmSpace t →
      ∃ p u, c.exec m t.vmm = .ok (some p, u) := by
  have hi₀ := vmmInit_ledger m level memorySizeInBytes rootTable s₀ hframes
  -- the root and the start are kept, so they are named once for the whole run
  obtain ⟨root, hroot⟩ : ∃ root,
    root = (vmmInit m level memorySizeInBytes rootTable s₀).info.vmmContainerRoot := ⟨_, rfl⟩
  obtain ⟨start, hstart⟩ : ∃ start,
    start = (vmmInit m level memorySizeInBytes rootTable s₀).info.startOfVmmSpace := ⟨_, rfl⟩
  rw [← hroot, ← hstart] at hi₀
  rw [← hstart] at hrun ⊢
  -- every call keeps the ledger
  have hi : LedgerInv m start root t.vmm t.reserved := by
    refine hrun.inv (fun s => LedgerInv m start root s.vmm s.reserved) hi₀ ?_
    rintro s t c hi ⟨hc, ⟨p, hexec⟩, hreserved⟩
    obtain ⟨p', t', hexec', hi'⟩ := hi.call hc
    cases hexec.symm.trans hexec'
    rw [hreserved]
    exact hi'
  -- the containers are listed by their numbers
  refine ⟨hi.ordered, ⟨_, hi.toRecords.chain, by simp, ?_, ?_, ?_⟩, fun c hc => ?_⟩
  · rw [hi.current, List.getLast?_map, List.getLast?_range, if_neg]
    · rfl
    · have := hi.number
      omega
  · intro n item hitem
    have hslot := hi.toRecords.slot_lt (List.getElem?_eq_some_iff.1 hitem).1
    rw [hi.perPage]
    refine ⟨_, ?_, hi.items n item hitem⟩
    rw [List.getElem?_map, List.getElem?_range hslot]
    rfl
  · intro k a ha
    rw [List.getElem?_map, Option.map_eq_some_iff] at ha
    obtain ⟨j, hj, rfl⟩ := ha
    obtain ⟨hk, rfl⟩ := List.getElem?_eq_some_iff.1 hj
    rw [List.getElem_range, hi.perPage]
    exact hi.available k (by simpa using hk)
  · obtain ⟨p, u, hexec, -⟩ := hi.call hc
    exact ⟨p, u, hexec⟩

end Runs

/-- A manager before `vmm_init`, with one frame to begin with. -/
def blankVmm : Vmm where
  info      := ⟨0, 0, 0, none, 0, 0, 0, 0, 0, 0, 0⟩
  container := fun _ => ⟨fun _ => ⟨0, 0, 0⟩, 0, none⟩
  frames    := [0x400000]
  maps      := []

/-- Two calls: the second one asks for an address above the first range. -/
theorem vmm_ledger_blankVmm :
    ∃ t, Run (vmmStep .large (vmmInit .large .user 0 none blankVmm).info.startOfVmmSpace)
        ⟨vmmInit .large .user 0 none blankVmm, []⟩ [.alloc 100 3, .allocAt 0x800000 1 3] t ∧
      t.reserved = [⟨0x200000, 0x200000, 3⟩, ⟨0x800000, 0x200000, 3⟩] ∧
      t.reserved.Pairwise (fun a b => a.base + a.size ≤ b.base) ∧
      ∃ a, (t.vmm.container a).vmmRoot 1 = ⟨0x800000, 0x200000, 3⟩ := by
  let start := (vmmInit .large .user 0 none blankVmm).info.startOfVmmSpace
  obtain ⟨p, u, hexec, hfirst, q, w, hexec', hsecond, hperPage⟩ : ∃ p u,
      (VmmCall.alloc 100 3).exec .large (vmmInit .large .user 0 none blankVmm) = .ok (p, u) ∧
      (VmmCall.alloc 100 3).Permitted .large start ⟨vmmInit .large .user 0 none blankVmm, []⟩ ∧
      ∃ q w, (VmmCall.allocAt 0x800000 1 3).exec .large u = .ok (q, w) ∧
        (VmmCall.allocAt 0x800000 1 3).Permitted .large start ⟨u, [⟨0x200000, 0x200000, 3⟩]⟩ ∧
        w.info.vmmItemsPerPage = 87380 := by decide +kernel
  have hrun : Run (vmmStep .large start) ⟨vmmInit .large .user 0 none blankVmm, []⟩
      [.alloc 100 3, .allocAt 0x800000 1 3]
      ⟨w, [⟨0x200000, 0x200000, 3⟩, ⟨0x800000, 0x200000, 3⟩]⟩ :=
    .extend (.extend .start ⟨hfirst, ⟨p, hexec⟩, rfl⟩) ⟨hsecond, ⟨q, hexec'⟩, rfl⟩
  obtain ⟨hordered, ⟨containers, -, -, -, hitems, -⟩, -⟩ :=
    vmm_ledger .large .user 0 none blankVmm _ _ (by decide) hrun
  obtain ⟨a, -, ha⟩ := hitems 1 _ rfl
  rw [hperPage] at ha
  exact ⟨_, hrun, rfl, hordered, a, ha⟩

end Dreamos64

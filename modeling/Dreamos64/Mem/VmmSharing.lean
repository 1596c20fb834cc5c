import Dreamos64.Mem.VmmLedger

/-!
# Dreamos64 — several virtual memory managers

The kernel has a `VmmInfo` and so has every task. `vmm_init` puts the first container at
`vmmDataStart`, which depends on the size of memory only, and containers are written
through the kernel half, which all roots share: the managers have one memory of
containers between them, and all of them start at the same place in it.

* `VmmCall.keeps_tapped`  — what a call does to the counts;
* `ledgers_independent` — along a run every operation leaves the containers of the
  other managers alone exactly if there are no other managers, or nothing is allocated.
-/

namespace Dreamos64

open Machine Links

/-! ## The model -/

/-- The managers, the kernel's first, over one memory. -/
structure Ledgers where
  infos     : List VmmInfo
  container : Nat → VmmContainer
  frames    : List Nat
  maps      : List VmmMapping

/-- The memory as one manager sees it. -/
def Ledgers.view (s : Ledgers) (info : VmmInfo) : Vmm := ⟨info, s.container, s.frames, s.maps⟩

/-- The kernel's `vmm_init`. -/
def bootLedgers (m : PageMode) (memorySizeInBytes : Nat) (root : Option Nat) (s : Vmm) : Ledgers :=
  let s := vmmInit m .supervisor memorySizeInBytes root s
  ⟨[s.info], s.container, s.frames, s.maps⟩

/-- A task is created, with what `kmalloc` and `create_task` left in its `vmm_data`, or the
manager with number `i` is asked for a range. -/
inductive LedgerOp where
  | task (level : VmmLevel) (vmmData : VmmInfo)
  | call (i : Nat) (c : VmmCall)
  deriving DecidableEq, Repr

namespace LedgerOp

def exec (m : PageMode) (memorySizeInBytes : Nat) (s : Ledgers) : LedgerOp → Exec Ledgers
  | .task level vmmData =>
    let v := vmmInit m level memorySizeInBytes vmmData.rootTableHhdm (s.view vmmData)
    .ok ⟨s.infos ++ [v.info], v.container, v.frames, v.maps⟩
  | .call i c =>
    match s.infos[i]? with
    | none => .error .outOfBounds
    | some info => do
      let (_, v) ← c.exec m (s.view info)
      .ok ⟨s.infos.set i v.info, v.container, v.frames, v.maps⟩

/-- The manager that is worked on. -/
def target (s : Ledgers) : LedgerOp → Nat
  | .task .. => s.infos.length
  | .call i _ => i

def Creates : LedgerOp → Prop
  | .task .. => True
  | .call .. => False

def Allocates : LedgerOp → Prop
  | .task .. => False
  | .call _ c => c.size ≠ 0

end LedgerOp

/-- `vmm_init` gets the frame that it asks for. -/
def ledgerStep (m : PageMode) (memorySizeInBytes : Nat) (s : Ledgers) (op : LedgerOp)
    (t : Ledgers) : Prop :=
  (op.Creates → s.frames ≠ []) ∧ op.exec m memorySizeInBytes s = .ok t

/-- The containers of every manager but one are as they were: its root, and what the
links lead to from there. -/
def Untouched (s t : Ledgers) (target : Nat) : Prop :=
  ∀ j info, s.infos[j]? = some info → j ≠ target →
    ∀ l a, Seg (fun a => (s.container a).next) (some info.vmmContainerRoot) l (some a) →
      t.container a = s.container a

/-! ## The operations -/

section Operations

variable {m : PageMode} {s t : Vmm}

/-- `vmm_init` with a frame. -/
theorem vmmInit_first (m : PageMode) (level : VmmLevel) (memorySizeInBytes : Nat)
    (root : Option Nat) (hframes : s.frames ≠ []) :
    (vmmInit m level memorySizeInBytes root s).info.vmmContainerRoot =
        vmmDataStart m memorySizeInBytes ∧
      (vmmInit m level memorySizeInBytes root s).info.vmmCurContainer =
        vmmDataStart m memorySizeInBytes ∧
      (vmmInit m level memorySizeInBytes root s).info.vmmCurIndex = 0 ∧
      (vmmInit m level memorySizeInBytes root s).info.vmmItemsPerPage = vmmRootLength m ∧
      (vmmInit m level memorySizeInBytes root s).container =
        Function.update s.container (vmmDataStart m memorySizeInBytes)
          { s.container (vmmDataStart m memorySizeInBytes) with
            next := none, vmmItemsAvailable := vmmRootLength m } := by
  obtain ⟨frame, rest, hframes⟩ := List.exists_cons_of_ne_nil hframes
  unfold vmmInit
  simp only [hframes]
  exact ⟨rfl, rfl, rfl, rfl, rfl⟩

/-- The counts of a manager that has the memory to itself, by its index: `index` slots of
the current container are in use, and a slot of the root, unless it is the first of all. -/
structure Tapped (m : PageMode) (s : Vmm) : Prop where
  perPage   : s.info.vmmItemsPerPage = vmmRootLength m
  available : (s.container s.info.vmmCurContainer).vmmItemsAvailable + s.info.vmmCurIndex =
    vmmRootLength m
  first     : s.info.vmmCurIndex = 0 → s.info.vmmCurContainer = s.info.vmmContainerRoot ∧
    (s.container s.info.vmmContainerRoot).next = none
  root      : 0 < s.info.vmmCurIndex →
    (s.container s.info.vmmContainerRoot).vmmItemsAvailable < vmmRootLength m

theorem Tapped.congr (hs : Tapped m s) (hinfo : t.info = s.info)
    (hcontainer : t.container = s.container) : Tapped m t := by
  obtain ⟨hperPage, havailable, hfirst, hroot⟩ := hs
  rw [← hinfo, ← hcontainer] at havailable hfirst hroot
  exact ⟨hinfo ▸ hperPage, havailable, hfirst, hroot⟩

theorem vmmInit_tapped (m : PageMode) (level : VmmLevel) (memorySizeInBytes : Nat)
    (root : Option Nat) (hframes : s.frames ≠ []) :
    Tapped m (vmmInit m level memorySizeInBytes root s) := by
  obtain ⟨hroot, hcur, hindex, hpage, hcontainer⟩ :=
    vmmInit_first m level memorySizeInBytes root hframes
  refine ⟨hpage, ?_, fun _ => ⟨hcur.trans hroot.symm, ?_⟩, fun hpos => ?_⟩
  · rw [hcur, hindex, hcontainer, Function.update_self]
    rfl
  · rw [hroot, hcontainer, Function.update_self]
  · rw [hindex] at hpos
    exact absurd hpos (Nat.lt_irrefl 0)

/-- A new container is empty and the others keep their counts. -/
theorem enterContainer_available (s : Vmm) (new a : Nat) :
    ((enterContainer s new).container a).vmmItemsAvailable =
      if a = new then s.info.vmmItemsPerPage else (s.container a).vmmItemsAvailable := by
  simp only [enterContainer, Vmm.write]
  -- the link of the old container is written last, and is not a count
  by_cases hcur : a = s.info.vmmCurContainer
  · simp only [hcur, Function.update_self, Function.update_apply]
    split_ifs <;> rfl
  · simp only [Function.update_of_ne hcur, Function.update_apply]
    split_ifs <;> rfl

theorem ensureContainer_available {g : Vmm} (hg : ensureContainer m s = .ok g) :
    g = s ∧ s.info.vmmCurIndex < s.info.vmmItemsPerPage ∨
      s.info.vmmItemsPerPage ≤ s.info.vmmCurIndex ∧ g.info.vmmCurIndex = 0 ∧
        g.info.vmmContainerRoot = s.info.vmmContainerRoot ∧
        g.info.vmmItemsPerPage = s.info.vmmItemsPerPage ∧
        ∀ a, (g.container a).vmmItemsAvailable =
          if a = g.info.vmmCurContainer then s.info.vmmItemsPerPage
          else (s.container a).vmmItemsAvailable := by
  unfold ensureContainer at hg
  split_ifs at hg with hfull
  · split at hg
    · cases hg
    · cases hg
      exact .inr ⟨hfull, rfl, rfl, rfl, fun a => enterContainer_available _ _ a⟩
  · cases hg
    exact .inl ⟨rfl, Nat.lt_of_not_le hfull⟩

/-- The record takes a slot of the current container. -/
theorem recordItem_available (s : Vmm) (item : VmmItem) (a : Nat) :
    ((recordItem s item).container a).vmmItemsAvailable =
      if a = s.info.vmmCurContainer then
        ((s.container a).vmmItemsAvailable + 2 ^ 64 - 1) % 2 ^ 64
      else (s.container a).vmmItemsAvailable := by
  simp only [recordItem, Vmm.write, Function.update_apply]
  split_ifs with ha
  · rw [ha]
  · rfl

/-- The first block leaves room in the current container, and the root's count below a full one. -/
theorem Tapped.ensure {g : Vmm} (hs : Tapped m s) (hg : ensureContainer m s = .ok g) :
    g.info.vmmCurIndex < vmmRootLength m ∧ g.info.vmmItemsPerPage = vmmRootLength m ∧
      (g.container g.info.vmmCurContainer).vmmItemsAvailable + g.info.vmmCurIndex =
        vmmRootLength m ∧
      g.info.vmmContainerRoot = s.info.vmmContainerRoot ∧
      (g.info.vmmContainerRoot ≠ g.info.vmmCurContainer →
        (g.container g.info.vmmContainerRoot).vmmItemsAvailable < vmmRootLength m) := by
  have hpos := vmmRootLength_pos m
  have hperPage := hs.perPage
  rcases ensureContainer_available hg with ⟨rfl, hroom⟩ | ⟨hfull, hindex, hroot, hpage, hcounts⟩
  · refine ⟨by omega, hperPage, hs.available, rfl, fun hne => hs.root ?_⟩
    by_contra hzero
    exact hne (hs.first (by omega)).1.symm
  · refine ⟨by omega, hpage.trans hperPage, ?_, hroot, fun hne => ?_⟩
    · rw [hcounts, if_pos rfl, hindex, hperPage]
      rfl
    · rw [hcounts, if_neg hne, hroot]
      exact hs.root (by omega)

/-- **What a call does to the counts.** -/
theorem VmmCall.keeps_tapped {c : VmmCall} {p : Option Nat} (hs : Tapped m s)
    (hexec : c.exec m s = .ok (p, t)) :
    Tapped m t ∧ t.info.vmmContainerRoot = s.info.vmmContainerRoot ∧
      (c.size ≠ 0 ∨ 0 < s.info.vmmCurIndex → 0 < t.info.vmmCurIndex) := by
  rw [c.exec_eq] at hexec
  have hlen : vmmRootLength m < 2 ^ 64 := by cases m <;> decide
  by_cases hsize : c.size = 0
  · rw [vmmAllocAt_zero hsize] at hexec
    cases hexec
    exact ⟨hs, rfl, fun h => h.resolve_left fun hne => hne hsize⟩
  obtain ⟨g, hg, address, haddress⟩ : ∃ g, ensureContainer m s = .ok g ∧
      ∃ address, addressToReturn m c.baseAddress g = .ok address := by
    unfold vmmAllocAt at hexec
    rw [if_neg hsize] at hexec
    obtain ⟨g, hg, hexec⟩ := bind_inv hexec
    obtain ⟨address, haddress, -⟩ := bind_inv hexec
    exact ⟨g, hg, address, haddress⟩
  obtain ⟨hroom, hgPage, havailable, hgRoot, hothers⟩ := hs.ensure hg
  obtain ⟨u, hexec', hinfo, hcontainer⟩ :=
    vmmAllocAt_records c.flags hsize hg haddress hroom
  cases hexec.symm.trans hexec'
  refine ⟨⟨?_, ?_, ?_, ?_⟩, ?_, fun _ => ?_⟩
  · rw [hinfo]
    exact hgPage
  · rw [hinfo]
    show (t.container g.info.vmmCurContainer).vmmItemsAvailable + (g.info.vmmCurIndex + 1) = _
    rw [hcontainer, recordItem_available, if_pos rfl]
    omega
  · rw [hinfo]
    intro hzero
    exact absurd hzero (Nat.succ_ne_zero _)
  · intro _
    rw [hinfo]
    show (t.container g.info.vmmContainerRoot).vmmItemsAvailable < _
    rw [hcontainer, recordItem_available]
    split_ifs with hcur
    · rw [hcur]
      omega
    · exact hothers hcur
  · rw [hinfo]
    exact hgRoot
  · rw [hinfo]
    exact Nat.succ_pos _

end Operations

/-! ## Runs -/

section Runs

variable {m : PageMode} {memorySizeInBytes : Nat} {s t : Ledgers} {op : LedgerOp}

theorem LedgerOp.call_cases {i : Nat} {c : VmmCall}
    (hexec : (LedgerOp.call i c).exec m memorySizeInBytes s = .ok t) :
    ∃ info p v, s.infos[i]? = some info ∧ c.exec m (s.view info) = .ok (p, v) ∧
      t = ⟨s.infos.set i v.info, v.container, v.frames, v.maps⟩ := by
  simp only [LedgerOp.exec] at hexec
  split at hexec
  · cases hexec
  · rename_i info hinfo
    obtain ⟨⟨p, v⟩, hcall, hexec⟩ := bind_inv hexec
    cases hexec
    exact ⟨info, p, v, hinfo, hcall, rfl⟩

/-- The root of every other manager is as it was. -/
theorem Untouched.root {k j : Nat} {info : VmmInfo} (h : Untouched s t k)
    (hj : s.infos[j]? = some info) (hne : j ≠ k) :
    t.container info.vmmContainerRoot = s.container info.vmmContainerRoot :=
  h j info hj hne [] _ rfl

/-- Nothing has been allocated: every manager is at the first slot of the one root. -/
structure Untapped (m : PageMode) (memorySizeInBytes : Nat) (s : Ledgers) : Prop where
  infos     : ∀ info ∈ s.infos, info.vmmContainerRoot = vmmDataStart m memorySizeInBytes ∧
    Tapped m (s.view info) ∧ info.vmmCurIndex = 0
  available : (s.container (vmmDataStart m memorySizeInBytes)).vmmItemsAvailable = vmmRootLength m
  next      : (s.container (vmmDataStart m memorySizeInBytes)).next = none

/-- The kernel has the memory to itself. -/
structure Alone (m : PageMode) (memorySizeInBytes : Nat) (s : Ledgers) (info : VmmInfo) : Prop where
  infos  : s.infos = [info]
  root   : info.vmmContainerRoot = vmmDataStart m memorySizeInBytes
  tapped : Tapped m (s.view info)

theorem Alone.untapped {info : VmmInfo} (h : Alone m memorySizeInBytes s info)
    (hzero : info.vmmCurIndex = 0) : Untapped m memorySizeInBytes s := by
  obtain ⟨hcur, hnext⟩ := h.tapped.first hzero
  have havailable := h.tapped.available
  rw [hcur] at havailable
  refine ⟨fun info' hmem => ?_, ?_, ?_⟩
  · rw [h.infos, List.mem_singleton] at hmem
    rw [hmem]
    exact ⟨h.root, h.tapped, hzero⟩
  · rw [← h.root]
    simpa [Ledgers.view, hzero] using havailable
  · rw [← h.root]
    exact hnext

/-- A root that is written over an untapped one makes no difference. -/
theorem Untapped.keeps (hs : Untapped m memorySizeInBytes s)
    (hstep : ledgerStep m memorySizeInBytes s op t) (hop : ¬ op.Allocates) :
    Untapped m memorySizeInBytes t ∧ t.container = s.container := by
  obtain ⟨hframes, hexec⟩ := hstep
  cases op with
  | task level vmmData =>
    have hframes : (s.view vmmData).frames ≠ [] := hframes trivial
    obtain ⟨hroot, -, hindex, -, hcontainer⟩ :=
      vmmInit_first m level memorySizeInBytes vmmData.rootTableHhdm hframes
    have htapped := vmmInit_tapped m level memorySizeInBytes vmmData.rootTableHhdm hframes
    have hsame : (vmmInit m level memorySizeInBytes vmmData.rootTableHhdm
        (s.view vmmData)).container = s.container := by
      rw [hcontainer, ← hs.available, ← hs.next]
      exact Function.update_eq_self _ _
    cases hexec
    refine ⟨⟨fun info hmem => ?_, ?_, ?_⟩, hsame⟩
    · rcases List.mem_append.mp hmem with hmem | hmem
      · obtain ⟨hroot, htapped, hindex⟩ := hs.infos info hmem
        exact ⟨hroot, htapped.congr rfl hsame, hindex⟩
      · rw [List.mem_singleton.mp hmem]
        exact ⟨hroot, htapped.congr rfl rfl, hindex⟩
    · exact hsame ▸ hs.available
    · exact hsame ▸ hs.next
  | call i c =>
    -- nothing is asked for, and nothing happens
    have hsize : c.size = 0 := not_not.mp hop
    obtain ⟨info, p, v, hinfo, hcall, rfl⟩ := LedgerOp.call_cases hexec
    rw [c.exec_eq, vmmAllocAt_zero hsize] at hcall
    cases hcall
    have hset : s.infos.set i (s.view info).info = s.infos := by
      obtain ⟨hi, rfl⟩ := List.getElem?_eq_some_iff.mp hinfo
      exact List.set_getElem_self hi
    rw [hset]
    exact ⟨⟨hs.infos, hs.available, hs.next⟩, rfl⟩

/-- With one manager, a call only moves it on. -/
theorem Alone.call {info : VmmInfo} {i : Nat} {c : VmmCall}
    (hs : Alone m memorySizeInBytes s info)
    (hexec : (LedgerOp.call i c).exec m memorySizeInBytes s = .ok t) :
    ∃ info', Alone m memorySizeInBytes t info' ∧
      (c.size ≠ 0 ∨ 0 < info.vmmCurIndex → 0 < info'.vmmCurIndex) := by
  obtain ⟨info', p, v, hinfo, hcall, rfl⟩ := LedgerOp.call_cases hexec
  obtain ⟨rfl, rfl⟩ : i = 0 ∧ info' = info := by
    rw [hs.infos] at hinfo
    cases i with
    | zero => exact ⟨rfl, (Option.some.inj hinfo).symm⟩
    | succ i => cases hinfo
  obtain ⟨htapped, hroot, hindex⟩ := VmmCall.keeps_tapped hs.tapped hcall
  refine ⟨v.info, ⟨?_, ?_, htapped.congr rfl rfl⟩, hindex⟩
  · rw [hs.infos]
    rfl
  · exact hroot.trans hs.root

/-- With one manager that has allocated, another one resets the count of its root. -/
theorem Alone.index_of_task {info : VmmInfo} {level : VmmLevel} {vmmData : VmmInfo}
    (hs : Alone m memorySizeInBytes s info)
    (hstep : ledgerStep m memorySizeInBytes s (.task level vmmData) t)
    (hkept : Untouched s t s.infos.length) : info.vmmCurIndex = 0 := by
  obtain ⟨hframes, hexec⟩ := hstep
  have hframes : (s.view vmmData).frames ≠ [] := hframes trivial
  obtain ⟨-, -, -, -, hcontainer⟩ :=
    vmmInit_first m level memorySizeInBytes vmmData.rootTableHhdm hframes
  cases hexec
  have hfirst : s.infos[0]? = some info := by
    rw [hs.infos]
    rfl
  have hnew : 0 ≠ s.infos.length := by
    rw [hs.infos]
    exact Nat.zero_ne_one
  have hroot := hkept.root hfirst hnew
  by_contra hindex
  have hcount : (s.container info.vmmContainerRoot).vmmItemsAvailable < vmmRootLength m :=
    hs.tapped.root (Nat.pos_of_ne_zero hindex)
  rw [← hroot] at hcount
  dsimp only at hcount
  rw [hcontainer, hs.root, Function.update_self] at hcount
  exact Nat.lt_irrefl _ hcount

/-- With several managers, a range of one takes a slot of the root of another. -/
theorem Untapped.not_allocates (hs : Untapped m memorySizeInBytes s) (hmany : 2 ≤ s.infos.length)
    (hstep : ledgerStep m memorySizeInBytes s op t) (hkept : Untouched s t (op.target s)) :
    ¬ op.Allocates := by
  intro hop
  cases op with
  | task level vmmData => exact hop
  | call i c =>
    obtain ⟨info, p, v, hinfo, hcall, rfl⟩ := LedgerOp.call_cases hstep.2
    obtain ⟨hroot, htapped, hindex⟩ := hs.infos info (List.mem_of_getElem? hinfo)
    obtain ⟨htapped', hroot', hindex'⟩ := VmmCall.keeps_tapped htapped hcall
    have hcount := htapped'.root (hindex' (.inl hop))
    -- some other manager
    obtain ⟨j, hj, hne⟩ : ∃ j < s.infos.length, j ≠ i := by
      by_cases hi : i = 0
      · exact ⟨1, by omega, by omega⟩
      · exact ⟨0, by omega, by omega⟩
    have hother := hkept.root (List.getElem?_eq_getElem hj) hne
    rw [(hs.infos _ (List.getElem_mem hj)).1] at hother
    have hview : (s.view info).info.vmmContainerRoot = vmmDataStart m memorySizeInBytes := hroot
    rw [hroot', hview] at hcount
    have hsame : v.container (vmmDataStart m memorySizeInBytes) =
      s.container (vmmDataStart m memorySizeInBytes) := hother
    rw [hsame, hs.available] at hcount
    exact Nat.lt_irrefl _ hcount

/-- The operations so far: none has created a task, or none has allocated. -/
def OneOrUnused (m : PageMode) (memorySizeInBytes : Nat) (ops : List LedgerOp) (s : Ledgers) :
    Prop :=
  (∀ op ∈ ops, ¬ op.Creates) ∧ (∃ info, Alone m memorySizeInBytes s info ∧
      (info.vmmCurIndex = 0 → ∀ op ∈ ops, ¬ op.Allocates)) ∨
    (∀ op ∈ ops, ¬ op.Allocates) ∧ 2 ≤ s.infos.length ∧ Untapped m memorySizeInBytes s

/-- A property of all operations, one more included. -/
theorem forall_mem_concat {ops : List LedgerOp} {P : LedgerOp → Prop} (hops : ∀ op ∈ ops, P op)
    (hop : P op) : ∀ op' ∈ ops ++ [op], P op' := by
  intro op' hmem
  rcases List.mem_append.mp hmem with hmem | hmem
  · exact hops op' hmem
  · rw [List.mem_singleton.mp hmem]
    exact hop

/-- A step that leaves the others alone keeps to one manager, or to none that is used. -/
theorem OneOrUnused.step {ops : List LedgerOp} (hs : OneOrUnused m memorySizeInBytes ops s)
    (hstep : ledgerStep m memorySizeInBytes s op t) (hkept : Untouched s t (op.target s)) :
    OneOrUnused m memorySizeInBytes (ops ++ [op]) t := by
  rcases hs with ⟨hcreates, info, halone, hunused⟩ | ⟨hallocates, hmany, huntapped⟩
  · cases op with
    | task level vmmData =>
      have hindex := halone.index_of_task hstep hkept
      have hnone : ¬ (LedgerOp.task level vmmData).Allocates := id
      have hnext := ((halone.untapped hindex).keeps hstep hnone).1
      refine .inr ⟨forall_mem_concat (hunused hindex) hnone, ?_, hnext⟩
      cases hstep.2
      simp [halone.infos]
    | call i c =>
      obtain ⟨info', halone', hindex⟩ := halone.call hstep.2
      refine .inl ⟨forall_mem_concat hcreates id, info', halone', fun hzero => ?_⟩
      have hstill : ¬ (c.size ≠ 0 ∨ 0 < info.vmmCurIndex) := fun h => by
        have := hindex h
        omega
      rw [not_or] at hstill
      exact forall_mem_concat (hunused (Nat.eq_zero_of_not_pos hstill.2)) hstill.1
  · have hnone := huntapped.not_allocates hmany hstep hkept
    refine .inr ⟨forall_mem_concat hallocates hnone, ?_, (huntapped.keeps hstep hnone).1⟩
    cases op with
    | task level vmmData =>
      cases hstep.2
      simp
      omega
    | call i c =>
      obtain ⟨info, p, v, -, -, rfl⟩ := LedgerOp.call_cases hstep.2
      simpa using hmany

/-- The kernel stays alone as long as no task is created. -/
theorem Alone.reached {info : VmmInfo} {ops : List LedgerOp} (hs : Alone m memorySizeInBytes s info)
    (hcreates : ∀ op ∈ ops, ¬ op.Creates) (hrun : Run (ledgerStep m memorySizeInBytes) s ops t) :
    ∃ info', Alone m memorySizeInBytes t info' := by
  refine hrun.trace (fun is u => (∀ op ∈ is, ¬ op.Creates) →
    ∃ info', Alone m memorySizeInBytes u info')
    (fun _ => ⟨info, hs⟩) ?_ hcreates
  -- the only ops of such a run are calls, of the kernel
  intro is u v op _ ih hstep hcreates
  obtain ⟨info, halone⟩ := ih fun op hop => hcreates op (List.mem_append_left _ hop)
  cases op with
  | task level vmmData =>
    exact absurd trivial (hcreates (.task level vmmData) (by simp))
  | call i c =>
    obtain ⟨info', halone', -⟩ := halone.call hstep.2
    exact ⟨info', halone'⟩

/-- The memory of containers stays as it is as long as nothing is allocated. -/
theorem Untapped.reached {ops : List LedgerOp} (hs : Untapped m memorySizeInBytes s)
    (hallocates : ∀ op ∈ ops, ¬ op.Allocates)
    (hrun : Run (ledgerStep m memorySizeInBytes) s ops t) : Untapped m memorySizeInBytes t := by
  refine hrun.trace (fun is u => (∀ op ∈ is, ¬ op.Allocates) → Untapped m memorySizeInBytes u)
    (fun _ => hs) ?_ hallocates
  intro is u v op _ ih hstep hallocates
  have huntapped := ih fun op hop => hallocates op (List.mem_append_left _ hop)
  exact (huntapped.keeps hstep (hallocates op (by simp))).1

/-- The kernel's `vmm_init`. -/
theorem bootLedgers_alone (m : PageMode) (memorySizeInBytes : Nat) (root : Option Nat) {s : Vmm}
    (hframes : s.frames ≠ []) :
    ∃ info, Alone m memorySizeInBytes (bootLedgers m memorySizeInBytes root s) info ∧
      info.vmmCurIndex = 0 := by
  obtain ⟨hroot, -, hindex, -, -⟩ := vmmInit_first m .supervisor memorySizeInBytes root hframes
  have htapped := vmmInit_tapped m .supervisor memorySizeInBytes root hframes
  exact ⟨_, ⟨rfl, hroot, htapped.congr rfl rfl⟩, hindex⟩

/-- **The managers do not touch each other's containers**, at any step of a run, exactly
if the run creates no task or allocates nothing. -/
theorem ledgers_independent (m : PageMode) (memorySizeInBytes : Nat) (root : Option Nat) (s₀ : Vmm)
    (hframes : s₀.frames ≠ []) (ops : List LedgerOp) (t : Ledgers)
    (hrun : Run (ledgerStep m memorySizeInBytes) (bootLedgers m memorySizeInBytes root s₀) ops t) :
    (∀ before op u v, before ++ [op] <+: ops →
      Run (ledgerStep m memorySizeInBytes) (bootLedgers m memorySizeInBytes root s₀) before u →
      ledgerStep m memorySizeInBytes u op v → Untouched u v (op.target u)) ↔
    (∀ op ∈ ops, ¬ op.Creates) ∨ ∀ op ∈ ops, ¬ op.Allocates := by
  obtain ⟨kernel, halone, hindex⟩ := bootLedgers_alone m memorySizeInBytes root hframes
  constructor
  · intro hkept
    have hshape := hrun.trace (fun is u => is <+: ops → OneOrUnused m memorySizeInBytes is u)
      (fun _ => .inl ⟨by simp, kernel, halone, by simp⟩)
      (fun {is u v op} hrun ih hstep hpre =>
        (ih ((List.prefix_append _ _).trans hpre)).step hstep (hkept is op u v hpre hrun hstep))
      (List.prefix_refl ops)
    rcases hshape with ⟨hcreates, -⟩ | ⟨hallocates, -⟩
    · exact .inl hcreates
    · exact .inr hallocates
  · intro hops before op u v hpre hrun hstep j info hj hne l a hreach
    have hop : op ∈ ops := hpre.subset (by simp)
    have hbefore : ∀ op ∈ before, op ∈ ops := fun op hmem => hpre.subset (by simp [hmem])
    rcases hops with hcreates | hallocates
    · -- there is no other manager
      exfalso
      obtain ⟨info', halone'⟩ := halone.reached (fun op hmem => hcreates op (hbefore op hmem)) hrun
      rw [halone'.infos] at hj
      cases op with
      | task level vmmData => exact hcreates (.task level vmmData) hop trivial
      | call i c =>
        obtain ⟨info, -, -, hi, -, -⟩ := LedgerOp.call_cases hstep.2
        rw [halone'.infos] at hi
        have hj := (List.getElem?_eq_some_iff.mp hj).1
        have hi := (List.getElem?_eq_some_iff.mp hi).1
        have hne : j ≠ i := hne
        rw [List.length_singleton] at hi hj
        omega
    · -- nothing is written
      have huntapped := (halone.untapped hindex).reached
        (fun op hmem => hallocates op (hbefore op hmem)) hrun
      rw [(huntapped.keeps hstep (hallocates op hop)).2]

end Runs

/-- A manager is created beside the kernel's, which is not used yet. -/
theorem ledgers_independent_tasks : ∃ t,
    Run (ledgerStep .large 0)
      (bootLedgers .large 0 none { blankVmm with frames := [0x400000, 0x600000] })
      [.task .user blankVmm.info] t ∧
    Untouched (bootLedgers .large 0 none { blankVmm with frames := [0x400000, 0x600000] }) t 1 := by
  have hstep : ledgerStep .large 0
      (bootLedgers .large 0 none { blankVmm with frames := [0x400000, 0x600000] })
      (.task .user blankVmm.info) _ := ⟨fun _ => List.cons_ne_nil _ _, rfl⟩
  have hrun := Run.extend Run.start hstep
  have hunused : ∀ op ∈ [LedgerOp.task .user blankVmm.info], ¬ op.Allocates := by
    intro op hop
    rw [List.mem_singleton.mp hop]
    exact id
  exact ⟨_, hrun, (ledgers_independent .large 0 none _ (List.cons_ne_nil _ _) _ _ hrun).mpr
    (.inr hunused) [] _ _ _ (List.prefix_refl _) Run.start hstep⟩

/-- The kernel allocates a page and a task is created: the slot that the kernel used counts
as free again. -/
theorem ledgers_overlap : ∃ s t,
    Run (ledgerStep .large 0)
      (bootLedgers .large 0 none { blankVmm with frames := [0x400000, 0x600000] })
      [.call 0 (.alloc 100 128)] s ∧
    ledgerStep .large 0 s (.task .user blankVmm.info) t ∧ ¬ Untouched s t 1 := by
  obtain ⟨kernel, halone, -⟩ := bootLedgers_alone .large 0 none
    (s := { blankVmm with frames := [0x400000, 0x600000] }) (List.cons_ne_nil _ _)
  obtain ⟨s, hs, hframes⟩ : ∃ s, (LedgerOp.call 0 (.alloc 100 128)).exec .large 0
      (bootLedgers .large 0 none { blankVmm with frames := [0x400000, 0x600000] }) = .ok s ∧
      s.frames ≠ [] := by decide +kernel
  obtain ⟨info, halone', hindex⟩ := halone.call hs
  have hstep : ledgerStep .large 0 s (.task .user blankVmm.info) _ := ⟨fun _ => hframes, rfl⟩
  refine ⟨s, _, Run.extend Run.start ⟨fun h => h.elim, hs⟩, hstep, fun hkept => ?_⟩
  have hzero := halone'.index_of_task hstep (by rw [halone'.infos]; exact hkept)
  have hpos := hindex (.inl (by decide))
  omega

end Dreamos64

import Dreamos64.Arch.DirectMap
import Dreamos64.Sched.ElfKernelHalf
import Mathlib.Data.List.Pairwise

/-!
# Dreamos64 — what a loaded program finds in its memory

`create_task_from_elf` in the 2 MiB build, down to the bytes. A page of the task's lower half
is the one that the loader maps there first: later pages at the same place are refused.
Its bytes are those of the image if it is mapped in place, and a copy of them otherwise.

* `pageSlot_first`  — which page that is;
* `bytes_of_run`    — which bytes are where after the loop;
* `elf_provides`    — so an address holds the byte at `Placement.sourceOf`, or is not mapped;
* `elf_loads_faithfully` — a program finds what its segments say exactly if these are the bytes;
* `elf_segment_misplaced` — an image that does not.
-/

namespace Dreamos64

open Machine TableTree

/-! ## Which page an address is in -/

/-- The address is in the page that `p` is for. -/
def Placement.covers (p : Placement) (m : PageMode) (v : Nat) : Bool :=
  v % 2 ^ 48 / pageSizeInBytes m = p.virtual % 2 ^ 48 / pageSizeInBytes m

/-- The first page that the loader maps at an address. -/
def firstFor (m : PageMode) (ps : List Placement) (v : Nat) : Option Placement :=
  ps.find? fun p => p.covers m v

section Slots

variable {m : PageMode} {s u : Vm} {n v : Nat} {p : Placement} {ps : List Placement}

theorem covers_iff : p.covers m v = true ↔ SamePage m v p.virtual := by
  rw [Placement.covers, decide_eq_true_iff, samePage_iff]

/-- A page elsewhere does not change the slot of an address. -/
theorem Placed.pageSlot_other (h : Placed m s u n p) (hv : pml4Entry v ≠ 510)
    (hcovers : p.covers m v = false) : u.pageSlot m n v = s.pageSlot m n v := by
  have hother : ¬ SamePage m v p.virtual := by
    rw [← covers_iff, hcovers]
    exact Bool.false_ne_true
  exact h.mapped.pageSlot_other hv hother

theorem Placed.pageSlot_here (h : Placed m s u n p) (hcovers : p.covers m v = true)
    (habsent : s.pageSlot m n v % 2 = 0) :
    u.pageSlot m n v = pageValue m p.physical p.virtual p.flags := by
  obtain ⟨hpath, hindex⟩ := covers_iff.mp hcovers
  have hleaf := h.mapped.leaf
  unfold Vm.pageSlot at habsent hleaf ⊢
  rw [hpath, hindex] at habsent ⊢
  rw [hleaf, if_pos habsent]

/-- **The first page stays.** -/
theorem pageSlot_first (hrun : Run (placedStep m n) s ps u) (hv : pml4Entry v ≠ 510)
    (hflags : ∀ p ∈ ps, p.flags % 2 = 1) (habsent : s.pageSlot m n v % 2 = 0) :
    u.pageSlot m n v = ((firstFor m ps v).map fun p =>
      pageValue m p.physical p.virtual p.flags).getD (s.pageSlot m n v) := by
  -- a page that is mapped stays mapped, so only the first placement for it counts
  induction hrun with
  | start => rfl
  | @extend before t t' p _ hstep ih =>
    have hplaced : Placed m t t' n p := hstep
    have hbefore := ih fun p hp => hflags p (List.mem_append_left _ hp)
    unfold firstFor at hbefore ⊢
    rw [List.find?_append]
    cases hfirst : before.find? (fun p => p.covers m v) with
    | some q =>
      -- it is mapped already
      rw [hfirst] at hbefore
      have hq : q.flags % 2 = 1 :=
        hflags q (List.mem_append_left _ (List.mem_of_find?_eq_some hfirst))
      have hpresent : t.pageSlot m n v % 2 = 1 := by
        rw [hbefore]
        exact pageValue_present _ _ hq
      have hkept : t'.pageSlot m n v = t.pageSlot m n v :=
        hplaced.present (tablePath_pathTo (pageDepth_le m) hv) hpresent
      rw [hkept, hbefore]
      rfl
    | none =>
      rw [hfirst] at hbefore
      have hbefore : t.pageSlot m n v = s.pageSlot m n v := hbefore
      cases hcovers : p.covers m v with
      | true =>
        rw [hplaced.pageSlot_here hcovers (hbefore ▸ habsent)]
        simp [hcovers]
      | false =>
        rw [hplaced.pageSlot_other hv hcovers, hbefore]
        simp [hcovers]

end Slots

/-! ## Which bytes are where -/

/-- The bytes that the copy of a page is written to. -/
def Placement.Writes (p : Placement) (x : Nat) : Prop :=
  ∃ source count, p.copy = some (source, count) ∧ p.physical ≤ x ∧ x < p.physical + count

/-- The bytes that a page is made of: its copy, the source of its copy, and its frame. -/
def Placement.Uses (p : Placement) (m : PageMode) (x : Nat) : Prop :=
  p.Writes x ∨
    (∃ source count, p.copy = some (source, count) ∧ ∃ i < count, x = physOf m source + i) ∨
    p.physical ≤ x ∧ x < p.physical + pageSizeInBytes m

/-- Neither page's copy is written to bytes of the other one. -/
def Placement.Apart (m : PageMode) (p q : Placement) : Prop :=
  ∀ x, ¬ (p.Writes x ∧ q.Uses m x) ∧ ¬ (q.Writes x ∧ p.Uses m x)

instance (m : PageMode) : Std.Symm (Placement.Apart m) := ⟨fun _ _ h x => ⟨(h x).2, (h x).1⟩⟩

/-- No page's copy is written to the bytes of another one, or to its own source. -/
structure CopiesApart (m : PageMode) (ps : List Placement) : Prop where
  self  : ∀ p ∈ ps, p.CopyApart m
  other : ps.Pairwise (Placement.Apart m)

section Bytes

variable {m : PageMode} {s u : Vm} {n : Nat} {ps : List Placement}

theorem byteAfter_other {p : Placement} {x : Nat} (hx : ¬ p.Writes x) :
    p.byteAfter m s x = s.byte x := by
  unfold Placement.byteAfter
  cases hcopy : p.copy with
  | none => rfl
  | some copy =>
    obtain ⟨source, count⟩ := copy
    exact if_neg fun hin => hx ⟨source, count, hcopy, hin⟩

theorem outside_of_run (hrun : Run (placedStep m n) s ps u) {f : Nat} (hf : OutsideTables s n f) :
    OutsideTables u n f :=
  hrun.inv (fun u => OutsideTables u n f) hf fun ht (hstep : Placed m _ _ n _) => hstep.tables f ht

/-- **The bytes after the loop**: a copy is what its source was, and everything else is as
it was. -/
theorem bytes_of_run (hrun : Run (placedStep m n) s ps u) (hapart : CopiesApart m ps)
    (hout : ∀ p ∈ ps, ∀ x, p.Uses m x → OutsideTables s n (x / 4096)) :
    (∀ x, OutsideTables s n (x / 4096) → (∀ p ∈ ps, ¬ p.Writes x) → u.byte x = s.byte x) ∧
    ∀ p ∈ ps, ∀ source count, p.copy = some (source, count) → ∀ i < count,
      u.byte (p.physical + i) = s.byte (physOf m source + i) := by
  -- each page copies from bytes that no page before it has written
  induction hrun with
  | start => exact ⟨fun _ _ _ => rfl, fun p hp => absurd hp List.not_mem_nil⟩
  | @extend before t t' p hbefore hstep ih =>
    have hplaced : Placed m t t' n p := hstep
    obtain ⟨hself, hother⟩ := hapart
    obtain ⟨hothers, -, hlast⟩ := List.pairwise_append.mp hother
    have hp : p ∈ before ++ [p] := List.mem_append_right _ (List.mem_singleton_self p)
    obtain ⟨hsame, hcopies⟩ := ih
      ⟨fun q hq => hself q (List.mem_append_left _ hq), hothers⟩
      fun q hq => hout q (List.mem_append_left _ hq)
    have hbyte : ∀ x, OutsideTables s n (x / 4096) → t'.byte x = p.byteAfter m t x := fun x hx =>
      hplaced.copied (hself p hp) x (outside_of_run hbefore hx)
    refine ⟨fun x hx hwrites => ?_, fun q hq source count hcopy i hi => ?_⟩
    · rw [hbyte x hx, byteAfter_other (hwrites p hp)]
      exact hsame x hx fun q hq => hwrites q (List.mem_append_left _ hq)
    · have hwritten : q.Writes (q.physical + i) := ⟨source, count, hcopy, by omega, by omega⟩
      rw [hbyte _ (hout q hq _ (Or.inl hwritten))]
      rcases List.mem_append.mp hq with hold | hnew
      · -- this copy is not touched any more
        rw [byteAfter_other fun hw =>
          (hlast q hold p (List.mem_singleton_self p) _).2 ⟨hw, Or.inl hwritten⟩]
        exact hcopies q hold source count hcopy i hi
      · -- its source has not been touched yet
        obtain rfl := List.mem_singleton.mp hnew
        have hsource : q.Uses m (physOf m source + i) :=
          Or.inr (Or.inl ⟨source, count, hcopy, i, hi, rfl⟩)
        rw [Placement.byteAfter, hcopy]
        dsimp only
        rw [if_pos (by omega), Nat.add_sub_cancel_left]
        exact hsame _ (hout q hq _ hsource) fun o ho hw =>
          (hlast o ho q (List.mem_singleton_self q) _).1 ⟨hw, hsource⟩

end Bytes

/-! ## What an address is translated to -/

section Translate

variable {m : PageMode} {s : Vm} {n v : Nat}

theorem taskPage_of_slot (hok : RootOk m s n) (hv : pml4Entry v ≠ 510)
    (hpresent : s.pageSlot m n v % 2 = 1) (hhuge : m = .large → s.pageSlot m n v / 128 % 2 = 1) :
    TaskPage m s n v where
  limit := hok.below.limit
  there := by
    cases hdesc : descend hwTable s.entry n (pathTo v (pageDepth m)) with
    | none =>
      rw [Vm.pageSlot, Vm.hwSlot, slot_of_none hdesc] at hpresent
      exact absurd hpresent (by decide)
    | some t => rfl
  tables := fun d hd t ht =>
    hok.below.tables t ⟨_, tablePath_pathTo (hd.trans (pageDepth_le m)) hv, ht⟩
  present := hpresent
  huge := hhuge

/-- Where the slot of its page is absent, an address is not translated. -/
theorem translate_absent (hok : RootOk .large s n) (hv : pml4Entry v ≠ 510)
    (habsent : s.pageSlot .large n v % 2 = 0) : translate s n v = none := by
  -- from the page's table back to the root
  have hwalk : ∀ k d, d + k = 2 → walkFrom s n v d = none := by
    intro k
    induction k with
    | zero =>
      intro d hd
      obtain rfl : d = 2 := hd
      exact walkFrom_absent (by decide) habsent
    | succ k ih =>
      intro d hd
      by_cases hslot : s.hwSlot n (pathTo v d) (indexAt v d) % 2 = 0
      · exact walkFrom_absent (by omega) hslot
      · have hpath : TablePath (pageDepth .large) (pathTo v d ++ [indexAt v d]) :=
          tablePath_pathTo (d := d + 1) (show d + 1 ≤ 2 by omega) hv
        obtain ⟨hlink, -⟩ := hok.owned.links _ _ hpath (by omega)
        obtain ⟨u, hu⟩ := Option.isSome_iff_exists.mp hlink
        rw [walkFrom_link (by omega) hu, ih (d + 1) (by omega), Option.map_none]
  exact hwalk 2 0 rfl

theorem pageFlags_lt (phdr : Elf64Phdr) : pageFlags phdr < 2 ^ 3 := by
  have hflags : elfFlagsToMemoryFlags phdr.pFlags < 2 ^ 3 := by
    have := Nat.and_le_right (n := phdr.pFlags) (m := 0b10)
    unfold elfFlagsToMemoryFlags
    omega
  exact Nat.or_lt_two_pow (Nat.or_lt_two_pow (by decide) hflags) (by decide)

theorem hwFrame_pageFlags (phdr : Elf64Phdr) : hwFrame (pageFlags phdr) = 0 := by
  have := pageFlags_lt phdr
  unfold hwFrame
  omega

end Translate

/-! ## The stack -/

/-- The page of the first thread's stack, in a 2 MiB build. -/
def stackPage (s : Vm) : Placement :=
  ⟨vmKernelMemoryPadding .large, (newPagetable s).1, stackFlags, none⟩

section Stack

variable {s s' : Vm} {n : Nat}

theorem createThreadStack_inv {root : Option Nat}
    (hrun : createThreadStack .large root s = .ok s') :
    (stackPage s).exec .large root (newPagetable s).2 = .ok s' := by
  have hpages : getNumberOfPagesFromSize .large threadDefaultStackSize = 1 := by decide
  unfold createThreadStack at hrun
  rw [hpages] at hrun
  obtain ⟨s₁, hstep, hnil⟩ := bind_inv hrun
  cases hnil
  dsimp only at hstep
  rw [Nat.zero_mul, Nat.add_zero] at hstep
  exact hstep

theorem newPagetable_same (s : Vm) : (newPagetable s).2.memorySizeInBytes = s.memorySizeInBytes ∧
    (newPagetable s).2.freeTables <:+ s.freeTables ∧ (newPagetable s).2.memory = s.memory := by
  rw [newPagetable_headD]
  exact ⟨rfl, List.tail_suffix _, rfl⟩

/-- **The stack** is one more page. -/
theorem placed_stack (hok : RootOk .large s n)
    (hframes : FramesFor (newPagetable s).2 n (vmKernelMemoryPadding .large) 2)
    (hrun : createThreadStack .large (tablePtr .large n) s = .ok s') :
    Placed .large (newPagetable s).2 s' n (stackPage s) := by
  obtain ⟨hsize, hfree, hmemory⟩ := newPagetable_same s
  have hentry : (newPagetable s).2.entry = s.entry := by
    funext t j
    unfold Vm.entry
    rw [hmemory]
  have hok' : RootOk .large (newPagetable s).2 n :=
    hok.same hsize hfree fun t _ j => by rw [hentry]
  have hslot : pml4Entry (vmKernelMemoryPadding .large) ≠ 510 := by decide
  refine placed_of_exec hok' hslot hframes (fun f hf => ?_) (createThreadStack_inv hrun)
  obtain ⟨source, count, hcopy, -⟩ := hf
  cases hcopy

end Stack

/-! ## A loaded program -/

/-- Where a page takes the byte of an address from. -/
def Placement.sourceOf (p : Placement) (m : PageMode) (v : Nat) : Nat :=
  match p.copy with
  | none => p.physical + v % pageSizeInBytes m
  | some (source, count) =>
    if v % pageSizeInBytes m < count then physOf m source + v % pageSizeInBytes m
    else p.physical + v % pageSizeInBytes m

/-- The state in which an image is loaded: tables in order, frames for the task, and the
pages that the headers ask for outside slot 510, in frames of 2 MiB, with all their bytes
apart from tables and free frames and their copies apart from everything else. -/
structure ElfOk (r elfHeader : Nat) (s : Loader) : Prop where
  root    : RootOk .large s.vm r
  supply  : TaskSupply .large s.vm
  image   : ImageOk .large s r elfHeader
  slot    : ∀ p ∈ s.placements .large elfHeader, pml4Entry p.virtual ≠ 510
  frames  : ∀ p ∈ s.placements .large elfHeader, p.physical % 2 ^ 21 = 0 ∧ p.physical < 2 ^ 52
  outside : ∀ p ∈ s.placements .large elfHeader, ∀ x, p.Uses .large x →
    OutsideTables s.vm r (x / 4096)
  apart   : CopiesApart .large (s.placements .large elfHeader)

/-- There is a frame for every table that the pages and the stack of the new task need. -/
def TableFrames (r elfHeader root : Nat) (s : Loader) : Prop :=
  ∀ vm, createTaskSpace .large s.vm r = .ok (root, vm) →
    FramesSuffice .large (root / 4096) vm (s.placements .large elfHeader) ∧
    ∀ u, (s.placements .large elfHeader).foldlM
        (Placement.exec .large (tablePtr .large (root / 4096))) vm = .ok u →
      FramesFor (newPagetable u).2 (root / 4096) (vmKernelMemoryPadding .large) 2

theorem sourceOf_uses (p : Placement) (m : PageMode) (v : Nat) : p.Uses m (p.sourceOf m v) := by
  have hoffset : v % pageSizeInBytes m < pageSizeInBytes m := Nat.mod_lt _ (pageSizeInBytes_pos m)
  have hframe : p.Uses m (p.physical + v % pageSizeInBytes m) :=
    Or.inr (Or.inr ⟨Nat.le_add_right _ _, by omega⟩)
  unfold Placement.sourceOf
  cases hcopy : p.copy with
  | none => exact hframe
  | some copy =>
    obtain ⟨source, count⟩ := copy
    dsimp only
    split_ifs with hcount
    · exact Or.inr (Or.inl ⟨source, count, hcopy, _, hcount, rfl⟩)
    · exact hframe

section Load

variable {r elfHeader root : Nat} {s s' : Loader}

/-- The bytes of a page that is first at its place, after the loop. -/
theorem byte_of_first {m : PageMode} {t u : Vm} {n v : Nat} {ps : List Placement} {p : Placement}
    (hrun : Run (placedStep m n) t ps u) (hapart : CopiesApart m ps)
    (hout : ∀ p ∈ ps, ∀ x, p.Uses m x → OutsideTables t n (x / 4096)) (hp : p ∈ ps) :
    u.byte (p.physical + v % pageSizeInBytes m) = t.byte (p.sourceOf m v) := by
  obtain ⟨hsame, hcopies⟩ := bytes_of_run hrun hapart hout
  have hoffset : v % pageSizeInBytes m < pageSizeInBytes m := Nat.mod_lt _ (pageSizeInBytes_pos m)
  have hframe : p.Uses m (p.physical + v % pageSizeInBytes m) :=
    Or.inr (Or.inr ⟨Nat.le_add_right _ _, by omega⟩)
  -- only the page's own copy can be written to its frame
  have hkept : ¬ p.Writes (p.physical + v % pageSizeInBytes m) →
      u.byte (p.physical + v % pageSizeInBytes m) =
        t.byte (p.physical + v % pageSizeInBytes m) := by
    intro hown
    refine hsame _ (hout p hp _ hframe) fun q hq hw => ?_
    by_cases hqp : q = p
    · exact hown (hqp ▸ hw)
    · exact (hapart.other.forall hq hp hqp _).1 ⟨hw, hframe⟩
  unfold Placement.sourceOf
  cases hcopy : p.copy with
  | none =>
    refine hkept ?_
    rintro ⟨source, count, hsome, -⟩
    cases hcopy.symm.trans hsome
  | some copy =>
    obtain ⟨source, count⟩ := copy
    dsimp only
    split_ifs with hcount
    · exact hcopies p hp source count hcopy _ hcount
    · refine hkept ?_
      rintro ⟨source', count', hsome, -, hlt⟩
      cases hcopy.symm.trans hsome
      omega

/-- What `create_task_from_elf` has done: the task is created with its root in frame `n`, then
come the pages, and last the stack. -/
structure ElfLoaded (r elfHeader n : Nat) (s s' : Loader) (vm u : Vm) : Prop where
  created : TaskCreated s.vm vm r n
  pages   : Run (placedStep .large n) vm (s.placements .large elfHeader) u
  stack   : Placed .large (newPagetable u).2 s'.vm n (stackPage u)

theorem createTaskFromElf_loaded (hok : ElfOk r elfHeader s)
    (hframes : TableFrames r elfHeader root s)
    (hrun : createTaskFromElf .large r (some elfHeader) s = .ok (root, s')) :
    ∃ n vm u, root = 4096 * n ∧ ElfLoaded r elfHeader n s s' vm u := by
  unfold createTaskFromElf at hrun
  obtain ⟨⟨root₁, vm⟩, hcreate, hrun⟩ := bind_inv hrun
  obtain ⟨s₁, hload, hrun⟩ := bind_inv hrun
  obtain ⟨vm', hstack, hrun⟩ := bind_inv hrun
  cases hrun
  have hr := hok.root.tables.not_free ⟨[], tablePath_nil 3, rfl⟩
  obtain ⟨n, vm₂, hcreate', htask⟩ := createTaskSpace_spec hok.root.freeFrames hr hok.supply
  cases hcreate.symm.trans hcreate'
  obtain ⟨hpages, hrest⟩ := hframes vm hcreate
  rw [Nat.mul_div_cancel_left n (by decide)] at hpages hrest
  have hnew := htask.task hok.root
  have hptr : hhdmGetVariable .large vm (4096 * n) = tablePtr .large n :=
    hhdmGetVariable_table (hnew.below.tables n ⟨[], tablePath_nil 3, rfl⟩)
  rw [hptr] at hload hstack
  have hplace := htask.placements hok.image
  obtain ⟨hfold, hplaced, hloading⟩ := loadPhdrs_run (s := { s with vm := vm }) hnew
    (htask.image hok.root hok.image) (by rw [hplace]; exact hok.slot) (by rw [hplace]; exact hpages)
    hload
  rw [hplace] at hfold hplaced
  exact ⟨n, vm, s₁.vm, rfl, htask, hplaced,
    placed_stack hloading.root (hrest s₁.vm hfold) hstack⟩

variable {n v : Nat} {vm u : Vm} {p : Placement}

/-- The slot of an address of the lower half, before the stack is mapped. -/
theorem ElfLoaded.pageSlot (h : ElfLoaded r elfHeader n s s' vm u) (hok : ElfOk r elfHeader s)
    (hlow : (pml4Entry v).val < 256) :
    (newPagetable u).2.pageSlot .large n v =
      ((firstFor .large (s.placements .large elfHeader) v).map fun p =>
        pageValue .large p.physical p.virtual p.flags).getD 0 := by
  have hv : pml4Entry v ≠ 510 := fun e => absurd (e ▸ hlow) (by decide)
  have hempty : vm.pageSlot .large n v = 0 := by
    have htop := topOf_pathTo v (pageDepth .large)
    have hslot := h.created.slot_eq hok.root (p := pathTo v (pageDepth .large))
      (i := indexAt v (pageDepth .large)) (by rw [length_pathTo]; decide) (by rw [htop]; exact hv)
    rwa [htop, if_pos hlow] at hslot
  have hfirst := pageSlot_first h.pages hv placements_present (by rw [hempty])
  rw [hempty] at hfirst
  rw [← hfirst]
  unfold Vm.pageSlot Vm.hwSlot Vm.entry
  rw [(newPagetable_same u).2.2]

/-- The bytes of a page that is first at its place. -/
theorem ElfLoaded.byte (h : ElfLoaded r elfHeader n s s' vm u) (hok : ElfOk r elfHeader s)
    (hp : p ∈ s.placements .large elfHeader) (v : Nat) :
    s'.vm.byte (p.physical + v % pageSizeInBytes .large) = s.vm.byte (p.sourceOf .large v) := by
  obtain ⟨-, hsuffix, hmemory⟩ := newPagetable_same u
  have hout : ∀ p ∈ s.placements .large elfHeader, ∀ x, p.Uses .large x →
      OutsideTables vm n (x / 4096) := fun p hp x hx =>
    h.created.outside hok.root (hok.outside p hp x hx)
  have hframe : p.Uses .large (p.physical + v % pageSizeInBytes .large) :=
    Or.inr (Or.inr ⟨Nat.le_add_right _ _,
      Nat.add_lt_add_left (Nat.mod_lt _ (pageSizeInBytes_pos .large)) _⟩)
  have hstill : OutsideTables (newPagetable u).2 n
      ((p.physical + v % pageSizeInBytes .large) / 4096) := by
    obtain ⟨htable, hfree⟩ := outside_of_run h.pages (hout p hp _ hframe)
    refine ⟨fun ht => htable ?_, fun hin => hfree (hsuffix.subset hin)⟩
    unfold Vm.entry at ht ⊢
    rwa [hmemory] at ht
  calc s'.vm.byte (p.physical + v % pageSizeInBytes .large)
      = (newPagetable u).2.byte (p.physical + v % pageSizeInBytes .large) :=
        h.stack.copied (fun _ _ h => by cases h) _ hstill
    _ = u.byte (p.physical + v % pageSizeInBytes .large) := by
        unfold Vm.byte
        rw [hmemory]
    _ = vm.byte (p.sourceOf .large v) := byte_of_first h.pages hok.apart hout hp
    _ = s.vm.byte (p.sourceOf .large v) :=
        byte_congr (h.created.frame _ (hok.outside p hp _ (sourceOf_uses p .large v)).2)

/-- **What the program finds at an address of its lower half.** -/
theorem elf_provides (hok : ElfOk r elfHeader s) (hframes : TableFrames r elfHeader root s)
    (hrun : createTaskFromElf .large r (some elfHeader) s = .ok (root, s'))
    (hlow : (pml4Entry v).val < 256) :
    (∀ p, firstFor .large (s.placements .large elfHeader) v = some p →
      physicalOf s'.vm (root / 4096) v = some (p.physical + v % pageSizeInBytes .large) ∧
      s'.vm.byte (p.physical + v % pageSizeInBytes .large) = s.vm.byte (p.sourceOf .large v)) ∧
    (firstFor .large (s.placements .large elfHeader) v = none →
      ¬ SamePage .large v (vmKernelMemoryPadding .large) →
      physicalOf s'.vm (root / 4096) v = none) := by
  obtain ⟨n, vm, u, rfl, h⟩ := createTaskFromElf_loaded hok hframes hrun
  rw [Nat.mul_div_cancel_left n (by decide)]
  have hv : pml4Entry v ≠ 510 := fun e => absurd (e ▸ hlow) (by decide)
  have hslot := h.pageSlot hok hlow
  refine ⟨fun p hp => ?_, fun hnone hstackPage => ?_⟩
  · rw [hp, Option.map_some, Option.getD_some] at hslot
    have hmem := List.mem_of_find?_eq_some hp
    have hpresent : (newPagetable u).2.pageSlot .large n v % 2 = 1 := by
      rw [hslot]
      exact pageValue_present _ _ (placements_present p hmem)
    -- the stack finds the page there and leaves it
    have hkept : s'.vm.pageSlot .large n v = (newPagetable u).2.pageSlot .large n v :=
      h.stack.present (tablePath_pathTo (pageDepth_le .large) hv) hpresent
    have hpage : TaskPage .large s'.vm n v := by
      refine taskPage_of_slot h.stack.root hv (hkept ▸ hpresent) fun _ => ?_
      rw [hkept, hslot]
      exact pageValue_huge _ _ _
    have hphysical := hpage.physicalOf_eq
    rw [hkept, hslot] at hphysical
    obtain ⟨haligned, hbelow⟩ := hok.frames p hmem
    obtain ⟨phdr, hflags⟩ := placements_flags p hmem
    refine ⟨hphysical.trans (congrArg some ?_), h.byte hok hmem v⟩
    exact pageByte_pageValue haligned hbelow (hflags ▸ hwFrame_pageFlags phdr) v
  · rw [hnone] at hslot
    have hcovers : (stackPage u).covers .large v = false := by
      rw [← Bool.not_eq_true, covers_iff]
      exact hstackPage
    have habsent : s'.vm.pageSlot .large n v % 2 = 0 := by
      rw [h.stack.pageSlot_other hv hcovers, hslot]
      rfl
    rw [physicalOf, translate_absent h.stack.root hv habsent, Option.map_none]

end Load

/-! ## Segments -/

/-- What a program expects `k` bytes into a segment: a byte of its file, or zero after it. -/
def expectedByte (s : Vm) (elfHeader : Nat) (phdr : Elf64Phdr) (k : Nat) : Nat :=
  if k < phdr.pFilesz then s.byte (physOf .large elfHeader + phdr.pOffset + k) else 0

/-- Every address of a `PT_LOAD` segment is translated to a byte that is as expected. -/
def LoadedFaithfully (s s' : Vm) (elfHeader n : Nat) : Prop :=
  ∀ phdr ∈ s.programHeaders .large elfHeader, phdr.pType = ptLoad → ∀ k < phdr.pMemsz,
    ∃ x, physicalOf s' n (phdr.pVaddr + k) = some x ∧ s'.byte x = expectedByte s elfHeader phdr k

/-- Every address of a `PT_LOAD` segment is in some page, and the first such page takes the
byte from where the expected one is. -/
def SegmentsProvided (s : Loader) (elfHeader : Nat) : Prop :=
  ∀ phdr ∈ s.vm.programHeaders .large elfHeader, phdr.pType = ptLoad → ∀ k < phdr.pMemsz,
    ∃ p, firstFor .large (s.placements .large elfHeader) (phdr.pVaddr + k) = some p ∧
      s.vm.byte (p.sourceOf .large (phdr.pVaddr + k)) = expectedByte s.vm elfHeader phdr k

/-- **When a program is loaded faithfully**: exactly if, before the call, the pages that its
headers ask for provide the bytes of its segments. Only an address that is in no page but in
that of the stack could hold the right byte by chance. -/
theorem elf_loads_faithfully (r elfHeader root : Nat) (s s' : Loader) (hok : ElfOk r elfHeader s)
    (hframes : TableFrames r elfHeader root s)
    (hlow : ∀ phdr ∈ s.vm.programHeaders .large elfHeader, phdr.pType = ptLoad →
      phdr.pVaddr + phdr.pMemsz ≤ 2 ^ 47)
    (hrun : createTaskFromElf .large r (some elfHeader) s = .ok (root, s')) :
    (SegmentsProvided s elfHeader → LoadedFaithfully s.vm s'.vm elfHeader (root / 4096)) ∧
    ((∀ phdr ∈ s.vm.programHeaders .large elfHeader, phdr.pType = ptLoad → ∀ k < phdr.pMemsz,
        firstFor .large (s.placements .large elfHeader) (phdr.pVaddr + k) = none →
        ¬ SamePage .large (phdr.pVaddr + k) (vmKernelMemoryPadding .large)) →
      LoadedFaithfully s.vm s'.vm elfHeader (root / 4096) → SegmentsProvided s elfHeader) := by
  have hlower : ∀ phdr ∈ s.vm.programHeaders .large elfHeader, phdr.pType = ptLoad →
      ∀ k < phdr.pMemsz, (pml4Entry (phdr.pVaddr + k)).val < 256 := by
    intro phdr hphdr htype k hk
    have hlt : phdr.pVaddr + k < 2 ^ 47 := by
      have := hlow phdr hphdr htype
      omega
    exact (pml4Entry_lt (Or.inl hlt)).mpr hlt
  constructor
  · intro hsegments phdr hphdr htype k hk
    obtain ⟨p, hfirst, hbyte⟩ := hsegments phdr hphdr htype k hk
    obtain ⟨hphysical, hfound⟩ :=
      (elf_provides hok hframes hrun (hlower phdr hphdr htype k hk)).1 p hfirst
    exact ⟨_, hphysical, hfound.trans hbyte⟩
  · intro hstack hloaded phdr hphdr htype k hk
    obtain ⟨x, hx, hbyte⟩ := hloaded phdr hphdr htype k hk
    obtain ⟨hsome, hnone⟩ := elf_provides hok hframes hrun (hlower phdr hphdr htype k hk)
    cases hfirst : firstFor .large (s.placements .large elfHeader) (phdr.pVaddr + k) with
    | none =>
      -- then it would not be mapped at all
      rw [hnone hfirst (hstack phdr hphdr htype k hk hfirst)] at hx
      cases hx
    | some p =>
      obtain ⟨hphysical, hfound⟩ := hsome p hfirst
      obtain rfl := Option.some.inj (hphysical.symm.trans hx)
      exact ⟨p, rfl, hfound.symm.trans hbyte⟩

/-! ## The image of one page -/

/-- The program header of `imageSpace vaddr`. -/
def elfSegment (vaddr : Nat) : Elf64Phdr := ⟨ptLoad, 6, 0, vaddr, 0, 120, 120, 0x200000⟩

instance (s : Vm) (r va d : Nat) : Decidable (FramesFor s r va d) := by
  unfold FramesFor
  infer_instance

theorem imageSpace_supply (vaddr : Nat) : TaskSupply .large (imageSpace vaddr) := by
  have hlen : pageDepth .large + 2 ≤ kernelSpace.freeTables.length := by decide
  refine ⟨hlen, fun root hroot => ?_⟩
  cases hroot
  -- the new root's frame is empty
  have hempty : ∀ i : Fin 512, (imageSpace vaddr).entry 2 i = 0 := by
    intro i
    have hi := i.isLt
    have hkernel : kernelSpace.entry 2 i = 0 :=
      (recursiveSpace_entry 2 i).trans (if_neg fun h => absurd h.1 (by decide))
    rw [← hkernel]
    show ((elfWords vaddr).lookup (4096 * 2 + 8 * i.val)).getD _ = _
    rw [elfWords_lookup (by omega), Option.getD_none]
    rfl
  exact congrArg (· % 2) (hempty _)

theorem imageSpace_elfOk {vaddr : Nat} {p : Placement} (hasks : AsksFor vaddr p)
    (hphysical : p.physical = 0x200000) : ElfOk 1 elfPointer ⟨imageSpace vaddr, []⟩ := by
  have hheader : ∀ f, (imageSpace vaddr).HeaderFrame .large elfPointer f → f = 0x200 :=
    fun _ hf => hasks.headerFrame hf
  obtain ⟨-, -, hplaces, hcopy, h510⟩ := hasks
  have hplace : ∀ q ∈ Loader.placements ⟨imageSpace vaddr, []⟩ .large elfPointer, q = p := by
    intro q hq
    rwa [hplaces, List.mem_singleton] at hq
  have hwrites : ∀ x, ¬ p.Writes x := by
    rintro x ⟨source, count, hsome, -⟩
    cases hcopy.symm.trans hsome
  refine ⟨imageSpace_rootOk vaddr, imageSpace_supply vaddr, ⟨fun f hf => ?_, fun q hq f hf => ?_⟩,
    fun q hq => ?_, fun q hq => ?_, fun q hq x hx => ?_, ⟨fun q hq source count hsome => ?_, ?_⟩⟩
  · rw [hheader f hf]
    exact imageSpace_outside vaddr (by decide)
  · rw [hplace q hq] at hf
    obtain ⟨source, count, hsome, -⟩ := hf
    cases hcopy.symm.trans hsome
  · rw [hplace q hq]
    exact h510
  · rw [hplace q hq, hphysical]
    decide
  · rw [hplace q hq] at hx
    refine imageSpace_outside vaddr ?_
    rcases hx with hx | ⟨source, count, hsome, -⟩ | ⟨hle, -⟩
    · exact absurd hx (hwrites x)
    · cases hcopy.symm.trans hsome
    · omega
  · rw [hplace q hq] at hsome
    cases hcopy.symm.trans hsome
  · rw [hplaces]
    exact List.pairwise_singleton _ _

/-- Whether there are frames for the tables is a matter of computation. -/
theorem imageSpace_tableFrames {vaddr : Nat} {p : Placement} (hasks : AsksFor vaddr p)
    (hcheck : ∃ root vm, createTaskSpace .large (imageSpace vaddr) 1 = .ok (root, vm) ∧
      2 ≤ vm.freeTables.length ∧ ∃ u, p.exec .large (tablePtr .large 2) vm = .ok u ∧
        FramesFor (newPagetable u).2 2 (vmKernelMemoryPadding .large) 2) :
    TableFrames 1 elfPointer 0x2000 ⟨imageSpace vaddr, []⟩ := by
  obtain ⟨-, -, hplaces, -⟩ := hasks
  obtain ⟨root, vm₁, hcreate₁, hlen, u₁, hexec₁, hstack⟩ := hcheck
  intro vm hcreate
  cases hcreate₁.symm.trans hcreate
  rw [hplaces]
  refine ⟨⟨fun e _ _ => (Nat.sub_le 2 e).trans hlen, fun _ _ => trivial⟩, fun u hfold => ?_⟩
  rw [List.foldlM_cons] at hfold
  obtain ⟨u₂, hexec, hfold⟩ := bind_inv hfold
  cases hfold
  cases hexec₁.symm.trans hexec
  exact hstack

/-- An image whose segment begins at a page of 2 MiB. -/
theorem elf_loads_faithfully_aligned :
    ∃ s', createTaskFromElf .large 1 (some elfPointer) ⟨imageSpace 0x400000, []⟩ =
      .ok (0x2000, s') ∧
      (imageSpace 0x400000).programHeaders .large elfPointer = [elfSegment 0x400000] ∧
      LoadedFaithfully (imageSpace 0x400000) s'.vm elfPointer 2 := by
  have hasks : AsksFor 0x400000 ⟨0x400000, 0x200000, 7, none⟩ := by decide +kernel
  have hframes := imageSpace_tableFrames hasks (by decide +kernel)
  obtain ⟨s', hrun, -⟩ : ∃ s', createTaskFromElf .large 1 (some elfPointer)
    ⟨imageSpace 0x400000, []⟩ = .ok (0x2000, s') ∧ True := by decide +kernel
  have hheaders : (imageSpace 0x400000).programHeaders .large elfPointer =
      [elfSegment 0x400000] := by
    decide +kernel
  refine ⟨s', hrun, hheaders, (elf_loads_faithfully 1 elfPointer 0x2000 _ s'
    (imageSpace_elfOk hasks rfl) hframes ?_ hrun).1 ?_⟩
  · intro phdr hphdr _
    rw [hheaders, List.mem_singleton] at hphdr
    rw [hphdr]
    decide
  · intro phdr hphdr _ k hk
    rw [hheaders, List.mem_singleton] at hphdr
    subst hphdr
    have hk : k < 120 := hk
    refine ⟨⟨0x400000, 0x200000, 7, none⟩, ?_, ?_⟩
    · obtain ⟨-, -, hplaces, -⟩ := hasks
      rw [hplaces, firstFor, List.find?_cons_of_pos]
      refine decide_eq_true ?_
      show (0x400000 + k) % 2 ^ 48 / 0x200000 = 0x400000 % 2 ^ 48 / 0x200000
      omega
    · -- both are byte `k` of the image
      show (imageSpace 0x400000).byte (0x200000 + (0x400000 + k) % 0x200000) =
        if k < 120 then (imageSpace 0x400000).byte (physOf .large elfPointer + 0 + k) else 0
      have hpointer : physOf .large elfPointer = 0x200000 := physOf_elfPointer 0
      rw [if_pos hk, hpointer]
      congr 1
      omega

/-- **A segment that is not where it should be.** Its address is rounded up to the next page of
2 MiB, so that nothing is mapped where it begins. -/
theorem elf_segment_misplaced :
    ElfOk 1 elfPointer ⟨imageSpace 0x400040, []⟩ ∧
    TableFrames 1 elfPointer 0x2000 ⟨imageSpace 0x400040, []⟩ ∧
    parseSectionHeader .large (imageSpace 0x400040) elfPointer .elf = .ok true ∧
    (imageSpace 0x400040).programHeaders .large elfPointer = [elfSegment 0x400040] ∧
    ∃ s', createTaskFromElf .large 1 (some elfPointer) ⟨imageSpace 0x400040, []⟩ =
      .ok (0x2000, s') ∧
      physicalOf s'.vm 2 0x400040 = none ∧
      ¬ LoadedFaithfully (imageSpace 0x400040) s'.vm elfPointer 2 := by
  have hasks : AsksFor 0x400040 ⟨0x600000, 0x200000, 7, none⟩ := by decide +kernel
  have hframes := imageSpace_tableFrames hasks (by decide +kernel)
  obtain ⟨s', hrun, hnone⟩ : ∃ s', createTaskFromElf .large 1 (some elfPointer)
    ⟨imageSpace 0x400040, []⟩ = .ok (0x2000, s') ∧ physicalOf s'.vm 2 0x400040 = none := by
    decide +kernel
  have hheaders : (imageSpace 0x400040).programHeaders .large elfPointer =
      [elfSegment 0x400040] := by
    decide +kernel
  refine ⟨imageSpace_elfOk hasks rfl, hframes, by decide +kernel, hheaders, s', hrun, hnone,
    fun hloaded => ?_⟩
  obtain ⟨x, hx, -⟩ := hloaded (elfSegment 0x400040)
    (by rw [hheaders]; exact List.mem_singleton_self _)
    rfl 0 (by decide)
  cases hnone.symm.trans hx

end Dreamos64

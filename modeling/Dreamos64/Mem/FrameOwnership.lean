import Dreamos64.Lib.Run
import Dreamos64.Mem.PmmSpec

/-!
# Dreamos64 — who owns a physical frame

A client system around the memory manager: callers allocate and reserve frames
and give back what they hold. `FrameState` puts next to the bitmap the
allocations that are outstanding; nothing in the kernel keeps such a list, it is
what the bitmap stands for.

* `Exclusive`          — every frame held is marked in use, and held once;
* `carefulStep_exclusive` — a call keeps this, provided an area that
  `pmm_alloc_area` finds is not `Spanned`;
* `frames_exclusive`   — so the allocations of a run of such calls are disjoint,
  and each takes only frames that were free;
* `frames_shared`      — a run after `pmm_setup` in which one is not.
-/

namespace Dreamos64

open Machine

/-- A call of the memory manager. `owner` is the index of the outstanding
allocation that gives frames back. -/
inductive PmmCall where
  | allocFrame
  | allocArea (size : Nat)
  | reserveArea (startingAddress size : Nat)
  | freeFrame (owner address : Nat)
  | freeArea (owner startingAddress size : Nat)
  deriving DecidableEq, Repr

/-- The bitmap, and the frames of each outstanding allocation. -/
structure FrameState where
  bitmap : Bitmap
  held   : List (List Nat)
  deriving DecidableEq, Repr

/-- The frames of `[startingAddress, startingAddress + size)`, as
`pmm_reserve_area` and `pmm_free_area` count them. -/
def areaOf (m : PageMode) (startingAddress size : Nat) : List Nat :=
  List.range' (startingAddress / pageSizeInBytes m) (areaFrames m size)

/-- An owner gives up some of its frames. -/
def giveUp (owner : Nat) (frames : List Nat) (held : List (List Nat)) : List (List Nat) :=
  held.modify owner (·.filter (· ∉ frames))

/-- Frames are only given back by an owner that holds them. -/
def permitted (m : PageMode) (s : FrameState) : PmmCall → Bool
  | .freeFrame owner address =>
    (s.held.getD owner []).contains (address / pageSizeInBytes m)
  | .freeArea owner startingAddress size =>
    (areaOf m startingAddress size).all (s.held.getD owner []).contains
  | _ => true

section System

-- `mmap_entries` and `count_physical_reserved`, which `pmm_free_area` reads
variable (m : PageMode) (entries : List MmapEntry) (countPhysicalReserved : Nat)

/-- One call, and who holds what afterwards. A NULL result gives the caller
nothing; a reservation holds the frames it newly marked. -/
def pmmExec (fuel : Nat) (s : FrameState) : PmmCall → Exec FrameState
  | .allocFrame => do
    let (address, b) ← pmmAllocFrame m fuel s.bitmap
    let held := if address = 0 then s.held else s.held ++ [[address / pageSizeInBytes m]]
    .ok { bitmap := b, held := held }
  | .allocArea size => do
    let (address, b) ← pmmAllocArea m fuel size s.bitmap
    let frames := List.range' (address / pageSizeInBytes m) (getNumberOfPagesFromSize m size)
    let held := if address = 0 then s.held else s.held ++ [frames]
    .ok { bitmap := b, held := held }
  | .reserveArea startingAddress size => do
    let b ← pmmReserveArea m startingAddress size s.bitmap
    let marked := (areaOf m startingAddress size).filter fun f =>
      !BitRows.test s.bitmap.memoryMap f && BitRows.test b.memoryMap f
    .ok { bitmap := b, held := s.held ++ [marked] }
  | .freeFrame owner address => do
    let b ← pmmFreeFrame m address s.bitmap
    .ok { bitmap := b, held := giveUp owner [address / pageSizeInBytes m] s.held }
  | .freeArea owner startingAddress size => do
    let b ← pmmFreeArea m entries countPhysicalReserved startingAddress size s.bitmap
    .ok { bitmap := b, held := giveUp owner (areaOf m startingAddress size) s.held }

/-- A permitted call that returns. -/
def pmmStep (s : FrameState) (c : PmmCall) (s' : FrameState) : Prop :=
  permitted m s c = true ∧
    ∃ fuel, pmmExec m entries countPhysicalReserved fuel s c = .ok s'

/-- The run of frames that the search for an area settles on crosses no row that
it skipped. -/
def Unspanned (b : Bitmap) (size : Nat) : Prop :=
  ∀ fuel start : Nat, pmmCheckFrameAvailability b = true →
    bitmapRequestFrames fuel (getNumberOfPagesFromSize m size) b = .ok (start : Nat) →
    ¬ Spanned b start (getNumberOfPagesFromSize m size)

/-- The calls that do what they are for: an area is found without a gap, and an
area given back has one frame at most (`pmm_free_area` clears only its first) or
is one that `pmm_free_area` refuses. -/
def Careful (s : FrameState) : PmmCall → Prop
  | .allocArea size => Unspanned m s.bitmap size
  | .freeArea _ startingAddress size =>
    areaFrames m size ≤ 1 ∨ isReservedStart entries countPhysicalReserved startingAddress = true
  | _ => True

def carefulStep (s : FrameState) (c : PmmCall) (s' : FrameState) : Prop :=
  Careful m entries countPhysicalReserved s c ∧ pmmStep m entries countPhysicalReserved s c s'

end System

/-! ## The invariant -/

/-- Every frame held is marked in use, and no frame is held twice. -/
structure Exclusive (s : FrameState) : Prop where
  sized  : Sized s.bitmap
  marked : ∀ f ∈ s.held.flatten, f ∈ s.bitmap.used
  once   : s.held.flatten.Nodup

/-- Giving up frames only removes frames. -/
theorem giveUp_sublist (owner : Nat) (frames : List Nat) (held : List (List Nat)) :
    (giveUp owner frames held).flatten.Sublist held.flatten := by
  unfold giveUp
  induction held generalizing owner with
  | nil => simp
  | cons a held ih =>
    cases owner with
    | zero => exact (List.filter_sublist).append (List.Sublist.refl _)
    | succ owner => exact (List.Sublist.refl a).append (ih owner)

/-- What an owner gives up is held by nobody afterwards, if it was held once. -/
theorem giveUp_not_mem {owner : Nat} {frames : List Nat} {held : List (List Nat)}
    (honce : held.flatten.Nodup) (hsub : ∀ f ∈ frames, f ∈ held.getD owner []) :
    ∀ f ∈ (giveUp owner frames held).flatten, f ∉ frames := by
  unfold giveUp
  induction held generalizing owner with
  | nil => simp
  | cons a held ih =>
    rw [List.flatten_cons, List.nodup_append] at honce
    obtain ⟨-, honce, hdisj⟩ := honce
    intro f hf hin
    cases owner with
    | zero =>
      rcases List.mem_append.mp hf with hf | hf
      · have hkept := (List.mem_filter.mp hf).2
        exact of_decide_eq_true hkept hin
      · exact hdisj f (hsub f hin) f hf rfl
    | succ owner =>
      rcases List.mem_append.mp hf with hf | hf
      · -- another owner's frame is in the tail
        have htail : f ∈ held.flatten := by
          have hget := hsub f hin
          rw [List.getD_cons_succ, List.getD_eq_getElem?_getD] at hget
          cases hg : held[owner]? with
          | none => simp [hg] at hget
          | some l =>
            rw [hg] at hget
            exact List.mem_flatten.mpr ⟨l, List.mem_of_getElem? hg, hget⟩
        exact hdisj f hf f htail rfl
      · exact ih honce hsub f hf hin

/-! ## What a call amounts to -/

/-- The abstract system: frames that were free are taken, an owner gives up
frames without effect, or gives up one frame that becomes free. -/
inductive Effect (s s' : FrameState) : Prop
  | take (l : List Nat) (hnodup : l.Nodup) (hfree : ∀ f ∈ l, f ∉ s.bitmap.used)
      (hheld : s'.held = s.held ∨ s'.held = s.held ++ [l])
      (hb : Becomes s.bitmap s'.bitmap (s.bitmap.used ∪ l.toFinset)
        ((s.bitmap.usedFrames + l.length) % 2 ^ 32))
  | refuse (owner : Nat) (l : List Nat) (hheld : s'.held = giveUp owner l s.held)
      (hb : s'.bitmap = s.bitmap)
  | free (owner f : Nat) (howner : f ∈ s.held.getD owner [])
      (hheld : s'.held = giveUp owner [f] s.held)
      (hb : Becomes s.bitmap s'.bitmap (s.bitmap.used.erase f)
        ((s.bitmap.usedFrames + 2 ^ 32 - 1) % 2 ^ 32))

section Effects

variable {m : PageMode} {entries : List MmapEntry} {countPhysicalReserved fuel : Nat}
  {s s' : FrameState}

/-- A call that fails takes nothing. -/
theorem effect_nothing (hs : Sized s.bitmap) : Effect s s := by
  refine .take [] List.nodup_nil (by simp) (Or.inl rfl) ⟨by simp, ?_, .refl _⟩
  rw [List.length_nil, Nat.add_zero, Nat.mod_eq_of_lt hs.counter]

theorem allocFrame_effect (hs : Sized s.bitmap)
    (h : pmmExec m entries countPhysicalReserved fuel s .allocFrame = .ok s') : Effect s s' := by
  obtain ⟨⟨a, b⟩, halloc, h⟩ := bind_inv h
  cases h
  rcases pmmAllocFrame_spec hs halloc with ⟨rfl, rfl⟩ | ⟨f, hpos, hfree, rfl, hb⟩
  · exact effect_nothing hs
  · have hP := pageSizeInBytes_pos m
    have hne : f * pageSizeInBytes m ≠ 0 := (Nat.mul_pos hpos hP).ne'
    have hunion : s.bitmap.used ∪ [f].toFinset = insert f s.bitmap.used := by
      ext g
      simp
    refine .take [f] (List.nodup_singleton f) (by simpa using hfree) (Or.inr ?_) (hunion ▸ hb)
    simp only [hne, if_false, Nat.mul_div_cancel _ hP]

theorem allocArea_effect (hs : Sized s.bitmap) {size : Nat} (hspan : Unspanned m s.bitmap size)
    (h : pmmExec m entries countPhysicalReserved fuel s (.allocArea size) = .ok s') :
    Effect s s' := by
  obtain ⟨⟨a, b⟩, halloc, h⟩ := bind_inv h
  cases h
  rcases pmmAllocArea_spec hs halloc with ⟨rfl, rfl⟩ | ⟨start, hfound, hb⟩
  · exact effect_nothing hs
  unfold Unspanned at hspan
  generalize getNumberOfPagesFromSize m size = pages at *
  have hframes : (List.range' start pages).toFinset = Finset.Ico start (start + pages) :=
    List.toFinset_range'_1 start pages
  rw [← hframes] at hb
  refine .take (List.range' start pages) List.nodup_range' ?_ ?_ (by simpa using hb)
  · intro f hf
    obtain ⟨hlo, hhi⟩ := List.mem_range'_1.mp hf
    obtain ⟨-, havail, hreq, hclear | hbad⟩ := hfound (by omega)
    · exact hclear f hlo hhi
    · exact absurd hbad (hspan fuel start havail hreq)
  · dsimp only
    split_ifs with hzero
    · exact Or.inl rfl
    · rcases Nat.eq_zero_or_pos pages with rfl | hpos
      · exact Or.inr rfl
      · rw [(hfound hpos).1, Nat.mul_div_cancel _ (pageSizeInBytes_pos m)]
        exact Or.inr rfl

theorem reserveArea_effect (hs : Sized s.bitmap) {startingAddress size : Nat}
    (h : pmmExec m entries countPhysicalReserved fuel s (.reserveArea startingAddress size) =
      .ok s') : Effect s s' := by
  obtain ⟨b, hres, h⟩ := bind_inv h
  cases h
  obtain ⟨k, hk, hclear, -, hb⟩ := reserveBits_spec hs.counter hres
  generalize hl : (areaOf m startingAddress size).filter (fun f =>
    !BitRows.test s.bitmap.memoryMap f && BitRows.test b.memoryMap f) = l
  have hmem : ∀ f, f ∈ l ↔ f ∈ areaOf m startingAddress size ∧ f ∉ s.bitmap.used ∧ f ∈ b.used := by
    intro f
    rw [← hl, List.mem_filter, mem_used, mem_used]
    simp
  have hnodup : l.Nodup := hl ▸ List.Nodup.filter _ List.nodup_range'
  -- exactly the frames up to the first one in use are newly marked
  have hframes : l.toFinset = Finset.Ico (startingAddress / pageSizeInBytes m)
      (startingAddress / pageSizeInBytes m + k) := by
    ext f
    rw [List.mem_toFinset, hmem, hb.used, Finset.mem_union, Finset.mem_Ico]
    constructor
    · rintro ⟨-, hfree, hin | hin⟩
      · exact absurd hin hfree
      · exact hin
    · rintro ⟨hlo, hhi⟩
      exact ⟨List.mem_range'_1.mpr ⟨hlo, by omega⟩, hclear f hlo hhi, Or.inr ⟨hlo, hhi⟩⟩
  have hlength : l.length = k := by
    rw [← List.toFinset_card_of_nodup hnodup, hframes, Nat.card_Ico]
    omega
  refine .take l hnodup (fun f hf => ((hmem f).mp hf).2.1) (Or.inr rfl) ?_
  rw [hframes, hlength]
  exact hb

theorem freeFrame_effect {owner address : Nat} (howner : permitted m s (.freeFrame owner address))
    (h : pmmExec m entries countPhysicalReserved fuel s (.freeFrame owner address) = .ok s') :
    Effect s s' := by
  obtain ⟨b, hfree, h⟩ := bind_inv h
  cases h
  obtain ⟨b₁, hbit, hfree⟩ := bind_inv hfree
  cases hfree
  exact .free owner _ (List.contains_iff_mem.mp howner) rfl (bitmapFreeBit_spec hbit).dropUsed

theorem freeArea_effect {owner startingAddress size : Nat}
    (howner : permitted m s (.freeArea owner startingAddress size))
    (hcare : areaFrames m size ≤ 1 ∨
      isReservedStart entries countPhysicalReserved startingAddress = true)
    (h : pmmExec m entries countPhysicalReserved fuel s (.freeArea owner startingAddress size) =
      .ok s') : Effect s s' := by
  obtain ⟨b, hfree, h⟩ := bind_inv h
  cases h
  unfold pmmFreeArea at hfree
  split_ifs at hfree with hreserved
  · cases hfree
    exact .refuse owner _ rfl rfl
  · have hle := hcare.resolve_right hreserved
    have howner : (areaOf m startingAddress size).all (s.held.getD owner []).contains = true :=
      howner
    unfold areaOf at howner ⊢
    rcases Nat.le_one_iff_eq_zero_or_eq_one.mp hle with hn | hn
    · rw [hn] at hfree
      cases hfree
      exact .refuse owner _ rfl rfl
    · -- the one frame of the area
      rw [hn] at hfree howner ⊢
      obtain ⟨b₁, hbit, hfree⟩ := bind_inv hfree
      cases hfree
      have hin := List.all_eq_true.mp howner (startingAddress / pageSizeInBytes m) (by simp)
      exact .free owner _ (List.contains_iff_mem.mp hin) rfl (bitmapFreeBit_spec hbit).dropUsed

/-- **A careful call does what it is for.** -/
theorem carefulStep_effect {c : PmmCall} (hs : Sized s.bitmap)
    (h : carefulStep m entries countPhysicalReserved s c s') : Effect s s' := by
  obtain ⟨hcare, hperm, fuel, h⟩ := h
  cases c with
  | allocFrame => exact allocFrame_effect hs h
  | allocArea size => exact allocArea_effect hs hcare h
  | reserveArea startingAddress size => exact reserveArea_effect hs h
  | freeFrame owner address => exact freeFrame_effect hperm h
  | freeArea owner startingAddress size => exact freeArea_effect hperm hcare h

theorem Effect.sized (he : Effect s s') (hs : Sized s.bitmap) : Sized s'.bitmap := by
  cases he with
  | take l _ _ _ hb => exact hb.sized hs (Nat.mod_lt _ (by decide))
  | refuse owner l _ hb => exact hb ▸ hs
  | free owner f _ _ hb => exact hb.sized hs (Nat.mod_lt _ (by decide))

/-- The abstract system keeps the ownership invariant. -/
theorem Effect.exclusive (he : Effect s s') (hs : Exclusive s) : Exclusive s' := by
  refine ⟨he.sized hs.sized, ?_, ?_⟩
  · intro g hg
    cases he with
    | take l _ _ hheld hb =>
      rw [hb.used, Finset.mem_union, List.mem_toFinset]
      rcases hheld with hheld | hheld
      · exact Or.inl (hs.marked g (hheld ▸ hg))
      · rw [hheld, List.flatten_append, List.flatten_singleton, List.mem_append] at hg
        exact hg.imp_left (hs.marked g)
    | refuse owner l hheld hb =>
      rw [hheld] at hg
      exact hb ▸ hs.marked g ((giveUp_sublist owner l s.held).subset hg)
    | free owner f howner hheld hb =>
      rw [hheld] at hg
      have hgf := giveUp_not_mem hs.once (by simpa using howner) g hg
      rw [hb.used, Finset.mem_erase]
      exact ⟨by simpa using hgf, hs.marked g ((giveUp_sublist owner [f] s.held).subset hg)⟩
  · cases he with
    | take l hnodup hfree hheld hb =>
      rcases hheld with hheld | hheld
      · exact hheld ▸ hs.once
      · rw [hheld, List.flatten_append, List.flatten_singleton, List.nodup_append]
        refine ⟨hs.once, hnodup, fun f hf g hg hfg => ?_⟩
        exact hfree g hg (hfg ▸ hs.marked f hf)
    | refuse owner l hheld hb => exact hheld ▸ hs.once.sublist (giveUp_sublist owner l s.held)
    | free owner f howner hheld hb =>
      exact hheld ▸ hs.once.sublist (giveUp_sublist owner [f] s.held)

theorem carefulRun_exclusive {b : Bitmap} {calls : List PmmCall} (hb : Sized b)
    (hrun : Run (carefulStep m entries countPhysicalReserved) { bitmap := b, held := [] } calls s) :
    Exclusive s :=
  hrun.inv Exclusive ⟨hb, by simp, by simp⟩ fun hs hstep =>
    (carefulStep_effect hs.sized hstep).exclusive hs

end Effects

/-! ## Runs after `pmm_setup` -/

/-- **Frame exclusivity.** After `pmm_setup`, in every run whose areas are found
without a gap, the outstanding allocations are pairwise disjoint, and whatever
is allocated next was free: a single frame always, an area if it is again found
without a gap. -/
theorem frames_exclusive (m : PageMode) (kernelPhysicalEnd tables : Nat) (boot s₀ : Pmm)
    (calls : List PmmCall) (s : FrameState)
    (hsetup : pmmSetup m kernelPhysicalEnd tables boot = .ok s₀)
    (hrun : Run (carefulStep m s₀.mmap.mmapEntries s₀.countPhysicalReserved)
      { bitmap := s₀.bitmap, held := [] } calls s) :
    s.held.Pairwise List.Disjoint ∧
    (∀ fuel a b', pmmAllocFrame m fuel s.bitmap = .ok (a, b') → a ≠ 0 →
      a / pageSizeInBytes m ∉ s.bitmap.used) ∧
    (∀ fuel size a b', pmmAllocArea m fuel size s.bitmap = .ok (a, b') → a ≠ 0 →
      Unspanned m s.bitmap size →
      ∀ f ∈ List.range' (a / pageSizeInBytes m) (getNumberOfPagesFromSize m size),
        f ∉ s.bitmap.used) := by
  have hs := carefulRun_exclusive (pmmSetup_sized hsetup) hrun
  refine ⟨(List.nodup_flatten.mp hs.once).2, ?_, ?_⟩
  · intro fuel a b' halloc hne
    rcases pmmAllocFrame_spec hs.sized halloc with ⟨rfl, -⟩ | ⟨f, -, hfree, rfl, -⟩
    · exact absurd rfl hne
    · rw [Nat.mul_div_cancel _ (pageSizeInBytes_pos m)]
      exact hfree
  · intro fuel size a b' halloc hne hspan f hf
    rcases pmmAllocArea_spec hs.sized halloc with ⟨rfl, -⟩ | ⟨start, hfound, -⟩
    · exact absurd rfl hne
    obtain ⟨hlo, hhi⟩ := List.mem_range'_1.mp hf
    obtain ⟨rfl, havail, hreq, hclear | hbad⟩ := hfound (by omega)
    · rw [Nat.mul_div_cancel _ (pageSizeInBytes_pos m)] at hlo hhi
      exact hclear f hlo hhi
    · exact absurd hbad (hspan fuel start havail hreq)

/-- A machine with 512 MiB, as a boot loader describes it. -/
def exampleBoot : Pmm :=
  bootPmm
    [{ addr := 0, len := 0x9fc00, type := 1 }, { addr := 0x9fc00, len := 0x400, type := 2 },
      { addr := 0xf0000, len := 0x10000, type := 2 },
      { addr := 0x100000, len := 0x1fee0000, type := 1 },
      { addr := 0x1ffe0000, len := 0x20000, type := 2 }]
    { multibootTagStart := 0x9500, multibootTagEnd := 0xa000, modules := [] } 0x7fb80

/-- What `pmm_setup` makes of it, for a kernel that ends at 2 MiB: the first
twelve frames are in use. -/
def exampleSetup : Pmm :=
  { exampleBoot with
    bitmap := { memoryMap := [0xfff#64, 0#64, 0#64, 0#64, 0#64], numberOfEntries := 5
                bitmapSize := 256, usedFrames := 12, memoryMapPhysAddr := 0 }
    countPhysicalReserved := 2
    anonPhysicalMemoryLoc := 0x1202000
    pmmInitialized := true }

theorem pmmSetup_exampleBoot : pmmSetup .large 0x200000 2 exampleBoot = .ok exampleSetup := by
  decide +kernel

theorem unspanned_exampleSetup : Unspanned .large exampleSetup.bitmap (3 * 0x200000) := by
  intro fuel start _ hreq
  have hfirst : bitmapRequestFrames 1 (getNumberOfPagesFromSize .large (3 * 0x200000))
      exampleSetup.bitmap = .ok ((12 : Nat) : Int) := by decide +kernel
  obtain rfl : start = 12 := Int.ofNat.inj (loop_det hreq hfirst)
  rintro (⟨row, hrow, -⟩ | hlimit)
  · have hmem := List.mem_of_getElem? hrow
    revert hmem
    decide
  · revert hlimit
    decide

/-- A bitmap of `exampleSetup`'s shape, and who holds what. -/
def exampleState (row0 : BitVec 64) (usedFrames : Nat) (held : List (List Nat)) : FrameState where
  bitmap := { exampleSetup.bitmap with
    memoryMap := [row0, 0#64, 0#64, 0#64, 0#64], usedFrames := usedFrames }
  held := held

theorem frames_exclusive_exampleBoot :
    Run (carefulStep .large exampleSetup.mmap.mmapEntries 2) (exampleState 0xfff#64 12 [])
        [.allocArea (3 * 0x200000), .allocFrame, .freeFrame 0 (13 * 0x200000)]
        (exampleState 0xdfff#64 15 [[12, 14], [15]]) ∧
      (exampleState 0xdfff#64 15 [[12, 14], [15]]).held.Pairwise List.Disjoint := by
  have h₁ : carefulStep .large exampleSetup.mmap.mmapEntries 2 (exampleState 0xfff#64 12 [])
      (.allocArea (3 * 0x200000)) (exampleState 0x7fff#64 15 [[12, 13, 14]]) :=
    ⟨unspanned_exampleSetup, rfl, 1, by decide +kernel⟩
  have h₂ : carefulStep .large exampleSetup.mmap.mmapEntries 2
      (exampleState 0x7fff#64 15 [[12, 13, 14]]) .allocFrame
      (exampleState 0xffff#64 16 [[12, 13, 14], [15]]) :=
    ⟨trivial, rfl, 1, by decide +kernel⟩
  have h₃ : carefulStep .large exampleSetup.mmap.mmapEntries 2
      (exampleState 0xffff#64 16 [[12, 13, 14], [15]]) (.freeFrame 0 (13 * 0x200000))
      (exampleState 0xdfff#64 15 [[12, 14], [15]]) :=
    ⟨trivial, by decide +kernel, 1, by decide +kernel⟩
  have hrun := Run.extend (Run.extend (Run.extend Run.start h₁) h₂) h₃
  exact ⟨hrun, (frames_exclusive .large 0x200000 2 exampleBoot exampleSetup _ _
    pmmSetup_exampleBoot hrun).1⟩

/-! ## A frame with two owners -/

/-- What is computed of the state after permitted calls. -/
theorem exists_pmmRun {m : PageMode} {entries : List MmapEntry} {countPhysicalReserved : Nat}
    {s : FrameState} {calls : List PmmCall} {P : FrameState → Prop} (fuel : Nat)
    (h : ∃ t, calls.foldlM (fun s c => if permitted m s c then
      pmmExec m entries countPhysicalReserved fuel s c else .error .halted) s = .ok t ∧ P t) :
    ∃ t, Run (pmmStep m entries countPhysicalReserved) s calls t ∧ P t := by
  refine Run.exists_run (fun s c t hstep => ?_) h
  split_ifs at hstep with hperm
  exact ⟨hperm, fuel, hstep⟩

/-- **A frame with two owners.** An area takes frames 12 to 123, which makes row 1
equal to `BITMAP_ENTRY_FULL`. Its owner gives frames 62 and 63 back. A search for
three frames counts these two, skips row 1 and completes the count with frame
128; the area returned is 62 to 64, and frame 64 is still held. -/
theorem frames_shared :
    pmmSetup .large 0x200000 2 exampleBoot = .ok exampleSetup ∧
    ∃ s, Run (pmmStep .large exampleSetup.mmap.mmapEntries exampleSetup.countPhysicalReserved)
        { bitmap := exampleSetup.bitmap, held := [] }
        [.allocArea (112 * 0x200000), .freeFrame 0 (62 * 0x200000),
          .freeFrame 0 (63 * 0x200000), .allocArea (3 * 0x200000)] s ∧
      s.held = [List.range' 12 50 ++ List.range' 64 60, [62, 63, 64]] ∧
      ¬ s.held.Pairwise List.Disjoint := by
  refine ⟨pmmSetup_exampleBoot, (exists_pmmRun 3 (P := fun s => s.held =
    [List.range' 12 50 ++ List.range' 64 60, [62, 63, 64]]) (by decide +kernel)).imp
    fun s hs => ⟨hs.1, hs.2, fun hdisj => ?_⟩⟩
  rw [hs.2] at hdisj
  have hboth := (List.pairwise_cons.mp hdisj).1 [62, 63, 64] (by simp)
  exact hboth (List.mem_append_right _ (List.mem_range'_1.mpr (by decide : 64 ≤ 64 ∧ 64 < 64 + 60)))
    (by simp : 64 ∈ [62, 63, 64])

end Dreamos64

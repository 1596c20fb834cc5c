import Dreamos64.Arch.TaskPage
import Dreamos64.Sched.Elf

/-!
# Dreamos64 — the pages of an ELF image

Which pages `create_task_from_elf` maps, and where, is a matter of the headers that lie
in memory when its loop begins: no table, area or frame that the loop writes to is one
of theirs (`ImageOk`).

* `Placed`        — what one page of the list `placements` does to the tables of the task's root;
* `run_loading`   — what is left of tables, frames and headers after any of them;
* `loadPhdrs_run` — so the loop works through that list.
-/

namespace Dreamos64

open Machine TableTree

/-! ## The headers in memory -/

def Vm.phdrEntries (s : Vm) (m : PageMode) (elfHeader : Nat) : Nat :=
  s.field (physOf m (elfHeader + 56)) 2

/-- The pointer `phdr_list`. -/
def Vm.phdrListAt (s : Vm) (m : PageMode) (elfHeader : Nat) : Nat :=
  (elfHeader + s.field (physOf m (elfHeader + 32)) 8) % 2 ^ 64

/-- Where `phdr_list[i]` lies. -/
def Vm.phdrAt (s : Vm) (m : PageMode) (elfHeader i : Nat) : Nat :=
  physOf m (s.phdrListAt m elfHeader + sizeofElf64Phdr * i)

def Vm.programHeaders (s : Vm) (m : PageMode) (elfHeader : Nat) : List Elf64Phdr :=
  (List.range (s.phdrEntries m elfHeader)).map fun i => s.phdr (s.phdrAt m elfHeader i)

/-- The bytes of the headers that the loader reads: `e_phoff`, `e_phnum` and the program
headers. -/
def Vm.HeaderByte (s : Vm) (m : PageMode) (elfHeader a : Nat) : Prop :=
  (∃ k < 8, a = physOf m (elfHeader + 32) + k) ∨ (∃ k < 2, a = physOf m (elfHeader + 56) + k) ∨
    ∃ i < s.phdrEntries m elfHeader, ∃ k < sizeofElf64Phdr, a = s.phdrAt m elfHeader i + k

/-- The pages that the headers ask for, in the order in which the loader maps them. -/
def Loader.placements (s : Loader) (m : PageMode) (elfHeader : Nat) : List Placement :=
  (placePhdrs m elfHeader (s.vm.programHeaders m elfHeader) s.freeAreas).1

theorem loadField_inv {m : PageMode} {s : Vm} {pointer n v : Nat}
    (h : loadField m s pointer n = .ok v) : v = s.field (physOf m pointer) n := by
  obtain ⟨a, ha, hv⟩ := bind_inv h
  cases hv
  rw [(physAt_inv ha).2]

theorem phdr_congr {s s' : Vm} {a : Nat}
    (h : ∀ k < sizeofElf64Phdr, s'.byte (a + k) = s.byte (a + k)) : s'.phdr a = s.phdr a := by
  have hfield : ∀ d n, d + n ≤ sizeofElf64Phdr → s'.field (a + d) n = s.field (a + d) n := by
    intro d n hd
    refine field_congr fun k hk => ?_
    rw [Nat.add_assoc]
    exact h (d + k) (by omega)
  have hfirst := hfield 0 4 (by decide)
  rw [Nat.add_zero] at hfirst
  unfold Vm.phdr
  rw [hfirst, hfield 4 4 (by decide), hfield 8 8 (by decide), hfield 16 8 (by decide),
    hfield 24 8 (by decide), hfield 32 8 (by decide), hfield 40 8 (by decide),
    hfield 48 8 (by decide)]

/-- Two memories with the same headers ask for the same pages. -/
theorem headers_congr {m : PageMode} {s s' : Vm} {elfHeader : Nat}
    (h : ∀ a, s.HeaderByte m elfHeader a → s'.byte a = s.byte a) :
    s'.HeaderByte m elfHeader = s.HeaderByte m elfHeader ∧
      s'.phdrListAt m elfHeader = s.phdrListAt m elfHeader ∧
      s'.programHeaders m elfHeader = s.programHeaders m elfHeader := by
  have hentries : s'.phdrEntries m elfHeader = s.phdrEntries m elfHeader :=
    field_congr fun k hk => h _ (Or.inr (Or.inl ⟨k, hk, rfl⟩))
  have hlist : s'.phdrListAt m elfHeader = s.phdrListAt m elfHeader := by
    unfold Vm.phdrListAt
    rw [field_congr fun k hk => h _ (Or.inl ⟨k, hk, rfl⟩)]
  have hat : s'.phdrAt m elfHeader = s.phdrAt m elfHeader := by
    funext i
    unfold Vm.phdrAt
    rw [hlist]
  refine ⟨?_, hlist, ?_⟩
  · unfold Vm.HeaderByte
    rw [hentries, hat]
  · unfold Vm.programHeaders
    rw [hentries, hat]
    refine List.map_congr_left fun i hi => phdr_congr fun k hk => ?_
    exact h _ (Or.inr (Or.inr ⟨i, List.mem_range.mp hi, k, hk, rfl⟩))

/-- Every page is mapped with the flags of some header. -/
theorem placePage_flags (m : PageMode) (phdr : Elf64Phdr) (offsetAddress vaddrAddress : Nat)
    (areas : List Nat) :
    (placePage m phdr offsetAddress vaddrAddress areas).1.flags = pageFlags phdr := by
  unfold placePage
  split_ifs
  · rfl
  · rfl

theorem placePages_forall {Q : Placement → Prop}
    {page : Nat → Nat → List Nat → Placement × List Nat} (next : Nat → Nat)
    (hpage : ∀ offsetAddress vaddrAddress areas, Q (page offsetAddress vaddrAddress areas).1)
    (count offsetAddress vaddrAddress : Nat) (areas : List Nat) :
    ∀ p ∈ (placePages page next count offsetAddress vaddrAddress areas).1, Q p := by
  induction count generalizing offsetAddress vaddrAddress areas with
  | zero => exact fun p hp => absurd hp List.not_mem_nil
  | succ count ih =>
    intro p hp
    rcases List.mem_cons.mp hp with rfl | hp
    · exact hpage offsetAddress vaddrAddress areas
    · exact ih _ _ _ p hp

theorem placePhdrs_flags (m : PageMode) (elfHeader : Nat) (phdrs : List Elf64Phdr)
    (areas : List Nat) :
    ∀ p ∈ (placePhdrs m elfHeader phdrs areas).1, ∃ phdr, p.flags = pageFlags phdr := by
  induction phdrs generalizing areas with
  | nil => exact fun p hp => absurd hp List.not_mem_nil
  | cons phdr phdrs ih =>
    intro p hp
    rcases List.mem_append.mp hp with hp | hp
    · exact placePages_forall (Q := fun p => ∃ phdr, p.flags = pageFlags phdr) _
        (fun o v a => ⟨phdr, placePage_flags m phdr o v a⟩) _ _ _ _ p hp
    · exact ih _ p hp

theorem placements_flags {m : PageMode} {s : Loader} {elfHeader : Nat} :
    ∀ p ∈ s.placements m elfHeader, ∃ phdr, p.flags = pageFlags phdr :=
  placePhdrs_flags m elfHeader (s.vm.programHeaders m elfHeader) s.freeAreas

theorem placements_present {m : PageMode} {s : Loader} {elfHeader : Nat} :
    ∀ p ∈ s.placements m elfHeader, p.flags % 2 = 1 := by
  intro p hp
  obtain ⟨phdr, hflags⟩ := placements_flags p hp
  rw [hflags]
  exact or_presentBit_mod _

/-! ## One page -/

/-- The frames that a page's copy is written to. -/
def Placement.CopiesTo (p : Placement) (f : Nat) : Prop :=
  ∃ source count, p.copy = some (source, count) ∧ ∃ i < count, (p.physical + i) / 4096 = f

/-- Frames that are no table of the root and will not become one. -/
def OutsideTables (s : Vm) (n f : Nat) : Prop :=
  ¬ IsTable hwTable s.entry n (TablePath 3) f ∧ 4096 * f ∉ s.freeTables

/-- The bytes of the copy and those of its source are apart. -/
def Placement.CopyApart (p : Placement) (m : PageMode) : Prop :=
  ∀ source count, p.copy = some (source, count) →
    ∀ i < count, ∀ j < count, p.physical + i ≠ physOf m source + j

/-- What a byte is after the copy. -/
def Placement.byteAfter (p : Placement) (m : PageMode) (s : Vm) (x : Nat) : Nat :=
  match p.copy with
  | none => s.byte x
  | some (source, count) =>
    if p.physical ≤ x ∧ x < p.physical + count then s.byte (physOf m source + (x - p.physical))
    else s.byte x

/-- What one page does: a copy outside the tables, and a call of the mapper. -/
structure Placed (m : PageMode) (s s' : Vm) (n : Nat) (p : Placement) : Prop where
  root    : RootOk m s' n
  size    : s'.memorySizeInBytes = s.memorySizeInBytes
  supply  : s'.freeTables <:+ s.freeTables
  tables  : ∀ f, OutsideTables s n f → OutsideTables s' n f
  frame   : ∀ f, OutsideTables s n f → ¬ p.CopiesTo f → ∀ j, s'.entry f j = s.entry f j
  copied  : p.CopyApart m → ∀ x, OutsideTables s n (x / 4096) → s'.byte x = p.byteAfter m s x
  mapped  : PageMapped m s s' n p.virtual
    (if s.pageSlot m n p.virtual % 2 = 0 then pageValue m p.physical p.virtual p.flags
      else s.pageSlot m n p.virtual)

section Page

variable {m : PageMode} {s s' : Vm} {n : Nat} {p : Placement}

/-- The copy, and the call of the mapper after it. -/
theorem exec_inv {root : Option Nat} (hrun : p.exec m root s = .ok s') :
    ∃ s₁ ret, mapPhysToVirtAddrHh m s₁ p.physical p.virtual p.flags root = .ok (ret, s') ∧
      s₁.memorySizeInBytes = s.memorySizeInBytes ∧ s₁.freeTables = s.freeTables ∧
      (∀ f, ¬ p.CopiesTo f → ∀ j, s₁.entry f j = s.entry f j) ∧
      (p.CopyApart m → ∀ x, s₁.byte x = p.byteAfter m s x) := by
  unfold Placement.exec at hrun
  cases hcopy : p.copy with
  -- without a copy the file's own frame is mapped in place
  | none =>
    rw [hcopy] at hrun
    dsimp only at hrun
    rw [ok_bind] at hrun
    obtain ⟨⟨ret, s₂⟩, hmap, hrun⟩ := bind_inv hrun
    cases hrun
    refine ⟨s, ret, hmap, rfl, rfl, fun _ _ _ => rfl, fun _ x => ?_⟩
    rw [Placement.byteAfter, hcopy]
  | some copy =>
    obtain ⟨source, count⟩ := copy
    rw [hcopy] at hrun
    obtain ⟨s₁, hmemcpy, hrun⟩ := bind_inv hrun
    obtain ⟨⟨ret, s₂⟩, hmap, hrun⟩ := bind_inv hrun
    cases hrun
    -- the copy goes through the direct map
    have hdest : ∀ v, hhdmGetVariable m s p.physical = some v →
        v = p.physical + higherHalfDirectMapBase m := by
      intro v hv
      unfold hhdmGetVariable at hv
      split_ifs at hv
      exact (Option.some.inj hv).symm
    obtain ⟨hsize, hfree, -, hentry⟩ := memcpy_frame hdest hmemcpy
    refine ⟨s₁, ret, hmap, hsize, hfree, fun f hf => hentry f fun i hi heq => hf ?_, ?_⟩
    · exact ⟨source, count, hcopy, i, hi, heq⟩
    · intro hapart x
      rw [Placement.byteAfter, hcopy]
      exact memcpy_bytes hdest (hapart source count hcopy) hmemcpy x

/-- **One page of the loader**, outside slot 510 and with frames for its tables. -/
theorem placed_of_exec (hok : RootOk m s n) (hva : pml4Entry p.virtual ≠ 510)
    (hframes : FramesFor s n p.virtual (pageDepth m))
    (hcopy : ∀ f, p.CopiesTo f → OutsideTables s n f)
    (hrun : p.exec m (tablePtr m n) s = .ok s') : Placed m s s' n p := by
  obtain ⟨s₁, ret', hrun, hsize, hfree, hentry, hcopied⟩ := exec_inv hrun
  -- the copy changes no table
  have hsame : ∀ t, IsTable hwTable s.entry n (TablePath 3) t → ∀ j, s₁.entry t j = s.entry t j :=
    fun t ht => hentry t fun hc => (hcopy t hc).1 ht
  have hslot : ∀ q j, TablePath 3 q → s₁.hwSlot n q j = s.hwSlot n q j :=
    fun q j hq => slot_same (tablePath_closed 3) hsame hq
  have htable : ∀ t, IsTable hwTable s₁.entry n (TablePath 3) t →
      IsTable hwTable s.entry n (TablePath 3) t := by
    rintro t ⟨q, hq, ht⟩
    exact ⟨q, hq, descend_same (tablePath_closed 3) hsame hq ▸ ht⟩
  have hok₁ : RootOk m s₁ n := hok.same hsize (hfree ▸ List.suffix_rfl) hsame
  have hpath : ∀ d ≤ pageDepth m, TablePath 3 (pathTo p.virtual d) := fun d hd =>
    tablePath_pathTo (hd.trans (pageDepth_le m)) hva
  have hframes₁ : FramesFor s₁ n p.virtual (pageDepth m) := by
    intro e he habsent
    rw [hslot _ _ (hpath e he.le)] at habsent
    rw [hfree]
    exact hframes e he habsent
  obtain ⟨s₂, ret, -, hmap, hstep⟩ := hok₁.map p.physical p.flags hva hframes₁
  cases hmap.symm.trans hrun
  have hmapped := hstep.mapped
  have hpage : s₁.pageSlot m n p.virtual = s.pageSlot m n p.virtual := hslot _ _ (hpath _ le_rfl)
  rw [hpage] at hmapped
  refine ⟨hok₁.step hstep, hstep.confined.size.trans hsize, hfree ▸ hstep.confined.supply,
    fun f hf => ⟨fun ht => ?_, fun hmem => ?_⟩, fun f hf hc j => ?_,
    fun hapart x hx => ?_, ⟨hmapped.leaf, hmapped.there, fun q j hq hne => ?_⟩⟩
  · rcases hstep.confined.tables f ht with hold | hnew
    · exact hf.1 (htable f hold)
    · exact hf.2 (hfree ▸ hnew)
  · exact hf.2 (hfree ▸ hstep.confined.supply.subset hmem)
  · rw [hstep.confined.frame f (fun ht => hf.1 (htable f ht)) (hfree ▸ hf.2) j, hentry f hc j]
  · -- the mapper writes to tables only
    rw [byte_congr (hstep.confined.frame _ (fun ht => hx.1 (htable _ ht)) (hfree ▸ hx.2))]
    exact hcopied hapart x
  · rw [← hslot q j hq]
    exact hmapped.slots q j hq hne

/-- A slot that is present stays. -/
theorem Placed.present (h : Placed m s s' n p) {q : List (Fin 512)} {j : Fin 512}
    (hq : TablePath 3 q) (hpresent : s.hwSlot n q j % 2 = 1) :
    s'.hwSlot n q j = s.hwSlot n q j :=
  h.mapped.present hq hpresent

/-- Afterwards the page is mapped, by this call or an earlier one. -/
theorem Placed.pageSlot_present (h : Placed m s s' n p) (hflags : p.flags % 2 = 1) :
    s'.pageSlot m n p.virtual % 2 = 1 := by
  have hleaf : s'.pageSlot m n p.virtual = _ := h.mapped.leaf
  rw [hleaf]
  split_ifs with hpage
  · exact pageValue_present _ _ hflags
  · omega

end Page

/-! ## All pages -/

def placedStep (m : PageMode) (n : Nat) (s : Vm) (p : Placement) (s' : Vm) : Prop :=
  Placed m s s' n p

/-- Every table that one of the pages needs gets a frame. -/
def FramesSuffice (m : PageMode) (n : Nat) : Vm → List Placement → Prop
  | _, [] => True
  | s, p :: ps => FramesFor s n p.virtual (pageDepth m) ∧
      ∀ s', p.exec m (tablePtr m n) s = .ok s' → FramesSuffice m n s' ps

/-- The page is not in slot 510, and its copy goes to frames that are neither tables nor
among the frames `Fixed`. -/
structure PageOk (s : Vm) (n : Nat) (Fixed : Nat → Prop) (p : Placement) : Prop where
  slot : pml4Entry p.virtual ≠ 510
  copy : ∀ f, p.CopiesTo f → OutsideTables s n f ∧ ¬ Fixed f

/-- What is left of the state `s` while the loader is at work. -/
structure Loading (m : PageMode) (s u : Vm) (n : Nat) (Fixed : Nat → Prop) : Prop where
  root   : RootOk m u n
  tables : ∀ f, OutsideTables s n f → OutsideTables u n f
  fixed  : ∀ f, OutsideTables s n f → Fixed f → ∀ j, u.entry f j = s.entry f j

section Pages

variable {m : PageMode} {s u u' : Vm} {n : Nat} {Fixed : Nat → Prop}

theorem Loading.step {p : Placement} (h : Loading m s u n Fixed) (hp : PageOk s n Fixed p)
    (hstep : Placed m u u' n p) : Loading m s u' n Fixed where
  root := hstep.root
  tables := fun f hf => hstep.tables f (h.tables f hf)
  fixed := fun f hf hfixed j => by
    rw [hstep.frame f (h.tables f hf) (fun hc => (hp.copy f hc).2 hfixed) j, h.fixed f hf hfixed j]

/-- **The pages one after the other.** -/
theorem run_loading {before ps : List Placement} (hbefore : Run (placedStep m n) s before u)
    (h : Loading m s u n Fixed) (hps : ∀ p ∈ ps, PageOk s n Fixed p)
    (hframes : FramesSuffice m n u ps)
    (hrun : ps.foldlM (Placement.exec m (tablePtr m n)) u = .ok u') :
    Run (placedStep m n) s (before ++ ps) u' ∧ Loading m s u' n Fixed := by
  -- `Loading` is what the pages before have kept: the root, the supply and the headers
  induction ps generalizing u before with
  | nil =>
    cases hrun
    rw [List.append_nil]
    exact ⟨hbefore, h⟩
  | cons p ps ih =>
    obtain ⟨hfirst, hrest⟩ := hframes
    rw [List.foldlM_cons] at hrun
    obtain ⟨u₁, hexec, hrun⟩ := bind_inv hrun
    have hp := hps p List.mem_cons_self
    have hplaced : Placed m u u₁ n p := placed_of_exec h.root hp.slot hfirst
      (fun f hf => h.tables f (hp.copy f hf).1) hexec
    have hnext := ih (hbefore.extend hplaced) (h.step hp hplaced)
      (fun q hq => hps q (List.mem_cons_of_mem p hq)) (hrest u₁ hexec) hrun
    rwa [List.append_assoc] at hnext

theorem FramesSuffice.append {ps qs : List Placement} (h : FramesSuffice m n s (ps ++ qs)) :
    FramesSuffice m n s ps ∧ ∀ s', ps.foldlM (Placement.exec m (tablePtr m n)) s = .ok s' →
      FramesSuffice m n s' qs := by
  induction ps generalizing s with
  | nil =>
    refine ⟨trivial, fun s' hs' => ?_⟩
    cases hs'
    exact h
  | cons p ps ih =>
    refine ⟨⟨h.1, fun s' hs' => (ih (h.2 s' hs')).1⟩, fun s' hs' => ?_⟩
    rw [List.foldlM_cons] at hs'
    obtain ⟨s₁, hexec, hs'⟩ := bind_inv hs'
    exact (ih (h.2 s₁ hexec)).2 s' hs'

end Pages

/-! ## The loop over the headers -/

/-- The frames of the headers. -/
def Vm.HeaderFrame (s : Vm) (m : PageMode) (elfHeader f : Nat) : Prop :=
  ∃ a, s.HeaderByte m elfHeader a ∧ a / 4096 = f

/-- The headers and the areas for copies are apart from each other, from the tables of
the root and from the frames for new tables. -/
structure ImageOk (m : PageMode) (s : Loader) (n elfHeader : Nat) : Prop where
  headers : ∀ f, s.vm.HeaderFrame m elfHeader f → OutsideTables s.vm n f
  copies  : ∀ p ∈ s.placements m elfHeader, ∀ f, p.CopiesTo f →
    OutsideTables s.vm n f ∧ ¬ s.vm.HeaderFrame m elfHeader f

section Headers

variable {m : PageMode} {s s' : Loader} {n elfHeader : Nat}

/-- A header is read as it was when the loop began. -/
theorem Loading.phdr_eq {u : Vm} (h : Loading m s.vm u n (s.vm.HeaderFrame m elfHeader))
    (himage : ImageOk m s n elfHeader) {i : Nat} (hi : i < s.vm.phdrEntries m elfHeader) :
    u.phdr (s.vm.phdrAt m elfHeader i) = s.vm.phdr (s.vm.phdrAt m elfHeader i) := by
  refine phdr_congr fun k hk => byte_congr ?_
  have hframe : s.vm.HeaderFrame m elfHeader ((s.vm.phdrAt m elfHeader i + k) / 4096) :=
    ⟨_, Or.inr (Or.inr ⟨i, hi, k, hk, rfl⟩), rfl⟩
  exact h.fixed _ (himage.headers _ hframe) hframe

/-- The body of the loop, for some of the headers. -/
theorem foldlM_phdrs {u : Vm} {before : List Placement} {areas is : List Nat} {list : Nat}
    (hlist : list = s.vm.phdrListAt m elfHeader) (hbase : higherHalfDirectMapBase m ≤ list)
    (himage : ImageOk m s n elfHeader) (his : ∀ i ∈ is, i < s.vm.phdrEntries m elfHeader)
    (hbefore : Run (placedStep m n) s.vm before u)
    (h : Loading m s.vm u n (s.vm.HeaderFrame m elfHeader)) {placed : List Placement × List Nat}
    (hplaced : placed = placePhdrs m elfHeader
      (is.map fun i => s.vm.phdr (s.vm.phdrAt m elfHeader i)) areas)
    (hps : ∀ p ∈ placed.1, PageOk s.vm n (s.vm.HeaderFrame m elfHeader) p)
    (hframes : FramesSuffice m n u placed.1) :
    is.foldlM (fun s i => do
      let a ← physAt m (list + sizeofElf64Phdr * i)
      loadPhdr m (tablePtr m n) elfHeader (s.vm.phdr a) s) ⟨u, areas⟩ = (do
        let vm ← placed.1.foldlM (Placement.exec m (tablePtr m n)) u
        .ok ⟨vm, placed.2⟩) := by
  -- the headers are read from memory as it is now, which `headers_congr` says is what it was
  induction is generalizing u before areas placed with
  | nil =>
    subst hplaced
    rfl
  | cons i is ih =>
    have hat : physAt m (list + sizeofElf64Phdr * i) = .ok (s.vm.phdrAt m elfHeader i) := by
      rw [physAt, if_pos (by omega), hlist]
      rfl
    -- the header has not changed, so its pages are the next ones of the list
    rw [List.foldlM_cons, hat, ok_bind, h.phdr_eq himage (his i List.mem_cons_self), loadPhdr_eq]
    rw [List.map_cons, placePhdrs] at hplaced
    dsimp only at hplaced
    subst hplaced
    obtain ⟨hfirst, hrest⟩ := hframes.append
    dsimp only
    rw [List.foldlM_append]
    cases hpages : (placePhdr m elfHeader (s.vm.phdr (s.vm.phdrAt m elfHeader i)) areas).1.foldlM
        (Placement.exec m (tablePtr m n)) u with
    | error e => rfl
    | ok u₁ =>
      obtain ⟨hbefore₁, h₁⟩ := run_loading hbefore h
        (fun p hp => hps p (List.mem_append_left _ hp)) hfirst hpages
      rw [ok_bind, ok_bind, ok_bind]
      exact ih (fun i hi => his i (List.mem_cons_of_mem _ hi)) hbefore₁ h₁ rfl
        (fun p hp => hps p (List.mem_append_right _ hp)) (hrest u₁ hpages)

/-- **The loader works through its list of pages**: if it returns, this was a run of the
mapper. -/
theorem loadPhdrs_run (hok : RootOk m s.vm n) (himage : ImageOk m s n elfHeader)
    (hslot : ∀ p ∈ s.placements m elfHeader, pml4Entry p.virtual ≠ 510)
    (hframes : FramesSuffice m n s.vm (s.placements m elfHeader))
    (hrun : loadPhdrs m (tablePtr m n) elfHeader s = .ok s') :
    (s.placements m elfHeader).foldlM (Placement.exec m (tablePtr m n)) s.vm = .ok s'.vm ∧
      Run (placedStep m n) s.vm (s.placements m elfHeader) s'.vm ∧
      Loading m s.vm s'.vm n (s.vm.HeaderFrame m elfHeader) := by
  have hstart : Run (placedStep m n) s.vm [] s.vm := Run.start
  have hbegin : Loading m s.vm s.vm n (s.vm.HeaderFrame m elfHeader) :=
    ⟨hok, fun _ hf => hf, fun _ _ _ _ => rfl⟩
  suffices hfold : (s.placements m elfHeader).foldlM (Placement.exec m (tablePtr m n)) s.vm =
      .ok s'.vm from ⟨hfold, run_loading hstart hbegin
        (fun p hp => ⟨hslot p hp, himage.copies p hp⟩) hframes hfold⟩
  unfold loadPhdrs at hrun
  obtain ⟨entries, hentries, hrun⟩ := bind_inv hrun
  obtain ⟨list, hlist, hrun⟩ := bind_inv hrun
  obtain ⟨phoff, hphoff, hlist⟩ := bind_inv hlist
  cases hlist
  rw [loadField_inv hphoff, loadField_inv hentries] at hrun
  by_cases hbase : higherHalfDirectMapBase m ≤ s.vm.phdrListAt m elfHeader
  · have heq := foldlM_phdrs rfl hbase himage (fun i hi => List.mem_range.mp hi) hstart hbegin rfl
      (fun p hp => ⟨hslot p hp, himage.copies p hp⟩) hframes
    obtain ⟨vm, hfold, hvm⟩ := bind_inv (heq.symm.trans hrun)
    cases hvm
    exact hfold
  · -- then there are no headers to be read
    cases hcount : s.vm.phdrEntries m elfHeader with
    | zero =>
      have hempty : s.vm.field (physOf m (elfHeader + 56)) 2 = 0 := hcount
      rw [hempty] at hrun
      cases hrun
      unfold Loader.placements Vm.programHeaders
      rw [hcount]
      rfl
    | succ count =>
      have hfirst : s.vm.field (physOf m (elfHeader + 56)) 2 = count + 1 := hcount
      rw [hfirst, List.range_succ_eq_map, List.foldlM_cons] at hrun
      obtain ⟨t, hbody, -⟩ := bind_inv hrun
      obtain ⟨a, ha, -⟩ := bind_inv hbody
      unfold physAt at ha
      rw [Nat.mul_zero, Nat.add_zero] at ha
      rw [if_neg (by exact hbase)] at ha
      cases ha

end Headers

end Dreamos64

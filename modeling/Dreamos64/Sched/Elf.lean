import Dreamos64.Mem.Bytes
import Dreamos64.Sched.CreateTask

/-!
# Dreamos64 — tasks from ELF images

`parse_section_header` and `elf_flags_to_memory_flags` of `elf.c`, and
`create_task_from_elf` of `task.c`. The image lies in memory; the code holds a
pointer to it into the direct map.

For every program header, whatever its type, the loader maps `mem_pages` pages from
`align_value_to_page(p_vaddr)` on. A page is mapped in place if its source is
aligned; otherwise `p_memsz` bytes are copied to an area of their own, for every page
anew. Source and address then advance by `p_align`. Which pages are mapped where is a
matter of the headers alone: `placePhdrs` lists them, and `loadPhdr_eq` says that the
loader works through the list of each header.
-/

namespace Dreamos64

open Machine

/-! ## `elf.h` -/

inductive ExecutableLoaderType where
  | elf
  deriving DecidableEq, Repr

def elfclass64 : Nat := 2
def elfdata2lsb : Nat := 1
def evCurrent : Nat := 1
def elfMachine : Nat := 62
def ptLoad : Nat := 1

structure Elf64Phdr where
  pType   : Nat
  pFlags  : Nat
  pOffset : Nat
  pVaddr  : Nat
  pPaddr  : Nat
  pFilesz : Nat
  pMemsz  : Nat
  pAlign  : Nat
  deriving DecidableEq, Repr

def sizeofElf64Phdr : Nat := 56

/-- A field of `n` bytes behind a pointer. -/
def loadField (m : PageMode) (s : Vm) (pointer n : Nat) : Exec Nat := do
  let a ← physAt m pointer
  .ok (s.field a n)

/-- `parse_section_header`. The magic number is only logged. -/
def parseSectionHeader (m : PageMode) (s : Vm) (elfStart : Nat) : ExecutableLoaderType → Exec Bool
  | .elf => do
    let eiClass ← loadField m s (elfStart + 4) 1
    if eiClass ≠ elfclass64 then .ok false
    else
      let eiData ← loadField m s (elfStart + 5) 1
      if eiData ≠ elfdata2lsb then .ok false
      else
        let eiVersion ← loadField m s (elfStart + 6) 1
        if eiVersion ≠ evCurrent then .ok false
        else
          let eMachine ← loadField m s (elfStart + 18) 2
          if eMachine ≠ elfMachine then .ok false else .ok true

/-- `elf_flags_to_memory_flags`. -/
def elfFlagsToMemoryFlags (flags : Nat) : Nat := flags &&& 0b10

/-- The program header at a physical address. -/
def Vm.phdr (s : Vm) (a : Nat) : Elf64Phdr where
  pType   := s.field a 4
  pFlags  := s.field (a + 4) 4
  pOffset := s.field (a + 8) 8
  pVaddr  := s.field (a + 16) 8
  pPaddr  := s.field (a + 24) 8
  pFilesz := s.field (a + 32) 8
  pMemsz  := s.field (a + 40) 8
  pAlign  := s.field (a + 48) 8

/-! ## The loader -/

/-- Memory, and what `pmm_alloc_area` will return, in order; then 0. -/
structure Loader where
  vm        : Vm
  freeAreas : List Nat

/-- `pmm_alloc_area`. -/
def Loader.allocArea (s : Loader) : Nat × Loader :=
  (s.freeAreas.headD 0, { s with freeAreas := s.freeAreas.tail })

/-- `hhdm_get_phys_address`. -/
def hhdmGetPhysAddress (m : PageMode) (hhdmAddress : Nat) : Nat :=
  (hhdmAddress + 2 ^ 64 - higherHalfDirectMapBase m) % 2 ^ 64

/-- The flags that a header's pages are mapped with. -/
def pageFlags (phdr : Elf64Phdr) : Nat :=
  vmmFlagsUserLevel ||| elfFlagsToMemoryFlags phdr.pFlags ||| vmmFlagsPresent

/-- One page of a program header. -/
def loadPage (m : PageMode) (root : Option Nat) (phdr : Elf64Phdr)
    (offsetAddress vaddrAddress : Nat) (s : Loader) : Exec Loader :=
  -- a segment that does not start on a page is copied, `p_memsz` bytes of it for every page
  if !isAddressAligned (hhdmGetPhysAddress m offsetAddress) (pageSizeInBytes m) then do
    let (physAddress, s) := s.allocArea
    let newVirtAddr := hhdmGetVariable m s.vm physAddress
    let vm ← memcpy m s.vm newVirtAddr offsetAddress phdr.pMemsz
    let (_, vm) ← mapPhysToVirtAddrHh m vm physAddress vaddrAddress (pageFlags phdr) root
    .ok { s with vm := vm }
  else do
    -- the file's own frame becomes the page
    let (_, vm) ← mapPhysToVirtAddrHh m s.vm (hhdmGetPhysAddress m offsetAddress) vaddrAddress
      (pageFlags phdr) root
    .ok { s with vm := vm }

/-- `mem_pages`, an `Elf64_Half`. -/
def memPages (m : PageMode) (phdr : Elf64Phdr) : Nat :=
  getNumberOfPagesFromSize m phdr.pMemsz % 2 ^ 16

/-- `offset_address += p_align`, and likewise for `vaddr_address`. -/
def advance (phdr : Elf64Phdr) (address : Nat) : Nat := (address + phdr.pAlign) % 2 ^ 64

/-- The loop over a header's pages, with its two addresses: `load` does one page and
`next` takes an address to the next page. -/
def loadPages (load : Nat → Nat → Loader → Exec Loader) (next : Nat → Nat) :
    Nat → Nat → Nat → Loader → Exec Loader
  | 0, _, _, s => .ok s
  | count + 1, offsetAddress, vaddrAddress, s => do
    let s ← load offsetAddress vaddrAddress s
    loadPages load next count (next offsetAddress) (next vaddrAddress) s

/-- The pages of one program header. -/
def loadPhdr (m : PageMode) (root : Option Nat) (elfHeader : Nat) (phdr : Elf64Phdr) :
    Loader → Exec Loader :=
  loadPages (loadPage m root phdr) (advance phdr) (memPages m phdr)
    ((elfHeader + phdr.pOffset) % 2 ^ 64) (alignValueToPage m phdr.pVaddr)

/-- `phdr_list`, as `elf_header` gives it. -/
def phdrList (m : PageMode) (s : Vm) (elfHeader : Nat) : Exec Nat := do
  let phoff ← loadField m s (elfHeader + 32) 8
  .ok ((elfHeader + phoff) % 2 ^ 64)

/-- The loop over the program headers. -/
def loadPhdrs (m : PageMode) (root : Option Nat) (elfHeader : Nat) (s : Loader) : Exec Loader := do
  let phdrEntries ← loadField m s.vm (elfHeader + 56) 2
  let list ← phdrList m s.vm elfHeader
  (List.range phdrEntries).foldlM (fun s i => do
    -- each header is read when its turn comes: the pages before may have been written over it
    let a ← physAt m (list + sizeofElf64Phdr * i)
    loadPhdr m root elfHeader (s.vm.phdr a) s) s

/-- The flags of the stack that `create_thread` has `vmm_alloc` map. -/
def stackFlags : Nat :=
  vmParseFlags (vmmFlagsPresent ||| vmmFlagsWriteEnable ||| vmmFlagsStack ||| vmmFlagsUserLevel) |||
    vmmFlagsPresent ||| vmmFlagsWriteEnable

/-- The stack of a task's first thread, at the start of its space. -/
def createThreadStack (m : PageMode) (root : Option Nat) (s : Vm) : Exec Vm :=
  (List.range (getNumberOfPagesFromSize m threadDefaultStackSize)).foldlM (fun s i => do
    -- the frame is not looked at, as in `mapPages`
    let (frame, s) := newPagetable s
    let (_, s) ← mapPhysToVirtAddrHh m s frame
      (vmKernelMemoryPadding m + i * pageSizeInBytes m) stackFlags root
    .ok s) s

/-- `create_task_from_elf`: `vm_root_page_table`, and memory after it. -/
def createTaskFromElf (m : PageMode) (r : Nat) (elfHeader : Option Nat) (s : Loader) :
    Exec (Nat × Loader) := do
  let (vmRootPageTable, vm) ← createTaskSpace m s.vm r
  match elfHeader with
  | none => .ok (vmRootPageTable, { s with vm := vm })
  | some elfHeader =>
    -- the loader writes through the task's own root
    let root := hhdmGetVariable m vm vmRootPageTable
    let s ← loadPhdrs m root elfHeader { s with vm := vm }
    let vm ← createThreadStack m root s.vm
    .ok (vmRootPageTable, { s with vm := vm })

/-! ## The pages, by the headers -/

/-- A page to be mapped, with the pointer and the number of bytes that are copied to
its frame before. -/
structure Placement where
  virtual  : Nat
  physical : Nat
  flags    : Nat
  copy     : Option (Nat × Nat)
  deriving DecidableEq, Repr

def Placement.exec (m : PageMode) (root : Option Nat) (s : Vm) (p : Placement) : Exec Vm := do
  let s ← match p.copy with
    | none => .ok s
    | some (source, count) => memcpy m s (hhdmGetVariable m s p.physical) source count
  let (_, s) ← mapPhysToVirtAddrHh m s p.physical p.virtual p.flags root
  .ok s

/-- Where one page goes, and the areas that are left. -/
def placePage (m : PageMode) (phdr : Elf64Phdr) (offsetAddress vaddrAddress : Nat)
    (areas : List Nat) : Placement × List Nat :=
  if isAddressAligned (hhdmGetPhysAddress m offsetAddress) (pageSizeInBytes m) then
    (⟨vaddrAddress, hhdmGetPhysAddress m offsetAddress, pageFlags phdr, none⟩, areas)
  else
    (⟨vaddrAddress, areas.headD 0, pageFlags phdr, some (offsetAddress, phdr.pMemsz)⟩, areas.tail)

/-- Where the pages of one header go: `loadPages` with what `page` says of each page. -/
def placePages (page : Nat → Nat → List Nat → Placement × List Nat) (next : Nat → Nat) :
    Nat → Nat → Nat → List Nat → List Placement × List Nat
  | 0, _, _, areas => ([], areas)
  | count + 1, offsetAddress, vaddrAddress, areas =>
    let (first, areas) := page offsetAddress vaddrAddress areas
    let (pages, areas) := placePages page next count (next offsetAddress) (next vaddrAddress) areas
    (first :: pages, areas)

def placePhdr (m : PageMode) (elfHeader : Nat) (phdr : Elf64Phdr) (areas : List Nat) :
    List Placement × List Nat :=
  placePages (placePage m phdr) (advance phdr) (memPages m phdr)
    ((elfHeader + phdr.pOffset) % 2 ^ 64) (alignValueToPage m phdr.pVaddr) areas

/-- The pages of all headers, in the loader's order. -/
def placePhdrs (m : PageMode) (elfHeader : Nat) :
    List Elf64Phdr → List Nat → List Placement × List Nat
  | [], areas => ([], areas)
  | phdr :: phdrs, areas =>
    let (pages, areas) := placePhdr m elfHeader phdr areas
    let (rest, areas) := placePhdrs m elfHeader phdrs areas
    (pages ++ rest, areas)

section Pages

variable {m : PageMode} {root : Option Nat} {phdr : Elf64Phdr}

theorem loadPage_eq (offsetAddress vaddrAddress : Nat) (s : Loader) :
    loadPage m root phdr offsetAddress vaddrAddress s = (do
      let vm ← (placePage m phdr offsetAddress vaddrAddress s.freeAreas).1.exec m root s.vm
      .ok ⟨vm, (placePage m phdr offsetAddress vaddrAddress s.freeAreas).2⟩) := by
  unfold loadPage placePage
  generalize hhdmGetPhysAddress m offsetAddress = offsetPhys
  by_cases haligned : isAddressAligned offsetPhys (pageSizeInBytes m) = true
  · rw [haligned]
    simp only [Placement.exec, bind_assoc, ok_bind, Bool.not_true, Bool.false_eq_true, if_false,
      if_true]
  · rw [Bool.not_eq_true] at haligned
    rw [haligned]
    simp only [Placement.exec, Loader.allocArea, bind_assoc, ok_bind, Bool.not_false,
      Bool.false_eq_true, if_false, if_true]

theorem loadPages_eq {load : Nat → Nat → Loader → Exec Loader}
    {page : Nat → Nat → List Nat → Placement × List Nat} {exec : Vm → Placement → Exec Vm}
    (next : Nat → Nat)
    (hload : ∀ offsetAddress vaddrAddress s, load offsetAddress vaddrAddress s = (do
      let vm ← exec s.vm (page offsetAddress vaddrAddress s.freeAreas).1
      .ok ⟨vm, (page offsetAddress vaddrAddress s.freeAreas).2⟩))
    (count offsetAddress vaddrAddress : Nat) (s : Loader) :
    loadPages load next count offsetAddress vaddrAddress s = (do
      let vm ← (placePages page next count offsetAddress vaddrAddress
        s.freeAreas).1.foldlM exec s.vm
      .ok ⟨vm, (placePages page next count offsetAddress vaddrAddress s.freeAreas).2⟩) := by
  -- the first page, then the others with both addresses moved on
  induction count generalizing offsetAddress vaddrAddress s with
  | zero => rfl
  | succ count ih =>
    rw [loadPages, hload, placePages]
    obtain ⟨first, areas⟩ := page offsetAddress vaddrAddress s.freeAreas
    dsimp only
    rw [List.foldlM_cons]
    cases exec s.vm first with
    | error e => rfl
    | ok vm =>
      rw [ok_bind, ok_bind, ok_bind, ih]

theorem loadPhdr_eq (elfHeader : Nat) (s : Loader) :
    loadPhdr m root elfHeader phdr s = (do
      let vm ← (placePhdr m elfHeader phdr s.freeAreas).1.foldlM (Placement.exec m root) s.vm
      .ok ⟨vm, (placePhdr m elfHeader phdr s.freeAreas).2⟩) :=
  loadPages_eq (advance phdr) loadPage_eq (memPages m phdr) _ _ s

end Pages

end Dreamos64

import Dreamos64.Arch.TaskPage
import Dreamos64.Fs.Vfs
import Dreamos64.Input.ReadQueue

/-!
# Dreamos64 — `sys_read`

A read of the keyboard for a task. The address of its buffer is translated once, to an
address in the direct map, and the keyboard's handler stores the bytes from there on.
The translation is `vm_walk_table`'s, which leaves out the offset in the page.

* `sysRead_eq` — what a call adds to the queue, for a buffer that is mapped.
* `sys_read_in_place` — the bytes of a read go to where its buffer is exactly if the
  buffer starts where its page's entry points, and its pages follow each other in
  physical memory; or if the call gives up before it reads.
-/

namespace Dreamos64

open Machine TableTree

/-! ## The call -/

/-- `vm_copy_from_different_space`. -/
def vmCopyFromDifferentSpace (m : PageMode) (vm : Vm) (virtualAddress : Nat)
    (rootTableHhdm : Option Nat) : Exec (Option Nat) := do
  let walkedAddress ← vmWalkTable m vm virtualAddress rootTableHhdm
  .ok walkedAddress.pte

/-- A call returns, or waits until its operation has got all bytes. -/
inductive ReadCall where
  | returned (result : Int)
  | waiting
  deriving DecidableEq, Repr

/-- `sys_read_keyboard` up to its wait, with the address of the operation that `kmalloc`
gave. -/
def sysReadKeyboard (m : PageMode) (vm : Vm) (rootTableHhdm : Option Nat)
    (newPendingOperation buffer nbytes : Nat) (s : Input) : Exec (ReadCall × Input) := do
  let bufferVirtual ← vmCopyFromDifferentSpace m vm buffer rootTableHhdm
  match bufferVirtual with
  | none => .ok (.returned 0, s)
  | some bufferVirtual =>
    -- without bytes to read there is no operation, and the wait is over at once
    if 0 < nbytes then
      let s ← ps2KeyboardAddOperation newPendingOperation
        (s.setOp newPendingOperation (newOperation nbytes bufferVirtual))
      .ok (.waiting, s)
    else .ok (.waiting, s)

/-- `sys_read`. -/
def sysRead (m : PageMode) (vm : Vm) (rootTableHhdm : Option Nat) (newPendingOperation : Nat)
    (fildes : Int) (buf nbytes : Nat) (s : Input) : Exec (ReadCall × Input) :=
  if 0 ≤ fildes ∧ fildes < openedfilesMax then
    -- the other descriptors are not read from
    if fildes = 0 then sysReadKeyboard m vm rootTableHhdm newPendingOperation buf nbytes s
    else .ok (.returned 0, s)
  else .ok (.returned (-1), s)

section Call

variable {m : PageMode} {vm : Vm} {r buf n : Nat}

/-- The frame that `vm_walk_table` takes from the entry of an address. -/
def walkedFrame (m : PageMode) (vm : Vm) (r va : Nat) : Nat :=
  vm.pageSlot m r va &&& vmPageTableBaseAddressMask

/-- A call adds the read, or finds that the buffer's frame is not memory. -/
theorem sysRead_eq (env : KeyboardEnv) (op : Nat) (s : Input) (hpage : TaskPage m vm r buf)
    (hn : 0 < n) :
    sysRead m vm (tablePtr m r) op 0 buf n s =
      if walkedFrame m vm r buf < vm.memorySizeInBytes then
        (s.exec env (.addOperation op n (walkedFrame m vm r buf + higherHalfDirectMapBase m))).map
          fun u => (ReadCall.waiting, u)
      else .ok (.returned 0, s) := by
  unfold sysRead
  rw [if_pos (by decide), if_pos rfl]
  unfold sysReadKeyboard vmCopyFromDifferentSpace
  -- the walk succeeds on a page of the task, so what is left is `hhdm_get_variable`
  rw [hpage.vmWalkTable_eq, ok_bind, ok_bind]
  show (match hhdmGetVariable m vm (walkedFrame m vm r buf) with
    | none => _
    | some _ => _) = _
  unfold hhdmGetVariable
  by_cases hmemory : walkedFrame m vm r buf < vm.memorySizeInBytes
  · rw [if_pos hmemory, if_pos hmemory]
    dsimp only
    rw [if_pos hn]
    show _ = (ps2KeyboardAddOperation op _).map _
    cases ps2KeyboardAddOperation op (s.setOp op (newOperation n
      (walkedFrame m vm r buf + higherHalfDirectMapBase m))) with
    | error e => rfl
    | ok u => rfl
  · rw [if_neg hmemory, if_neg hmemory]

end Call

/-! ## Where the bytes belong -/

/-- The address in the direct map of the byte that an address of the task stands for. -/
def userByte (m : PageMode) (vm : Vm) (r address : Nat) : Nat :=
  (higherHalfDirectMapBase m + (physicalOf vm r address).getD 0) % 2 ^ 64

/-- The bytes of a read, with the addresses that the task's tables give for them. -/
def userStores (m : PageMode) (vm : Vm) (r buf : Nat) (received : List UInt8) :
    List (Nat × UInt8) :=
  received.zipIdx.map fun (b, i) => (userByte m vm r (buf + i), b)

/-- What holds after the inputs `after`, of a read that was asked for after `before`:
`received` is what it got, each byte in its place in the task's buffer. -/
structure StoredInPlace (m : PageMode) (vm : Vm) (r buf n : Nat) (env : KeyboardEnv)
    (start : Input) (before : List KeyInput) (u : Input) (after : List KeyInput) (t : Input)
    (earlier : List Read) (received : List UInt8) (later : List Read) : Prop where
  asked  : earlier.map Read.request = addedReads before
  added  : later.map Read.request = addedReads after
  atMost : received.length ≤ n
  /-- what the reads got are the keys pressed while the queue was not empty -/
  keys   : earlier.flatMap Read.received ++ received ++ later.flatMap Read.received =
    keysQueued env start before ++ keysQueued env u after
  /-- the other reads' bytes are where they asked for them, and nothing else is written -/
  memory : t.memory = (earlier.flatMap Read.stores ++ userStores m vm r buf received ++
    later.flatMap Read.stores).foldl storeByte start.memory

/-- A read of `n` bytes to `buf` by the task with its root in frame `r` gets its bytes
where `buf` is, whatever is read and pressed before and after. -/
def ReadsInPlace (m : PageMode) (vm : Vm) (r buf n : Nat) : Prop :=
  ∀ (env : KeyboardEnv) (start : Input) (op : Nat) (before after : List KeyInput),
    start.Enabled → start.opHead = none → NewReads (before ++ after) →
    op ∉ (addedReads (before ++ after)).map Read.op →
    ∃ s, before.foldlM (Input.exec env) start = .ok s ∧
      (0 < n → ∃ call, sysRead m vm (tablePtr m r) op 0 buf n s = .ok call) ∧
      ∀ call u, sysRead m vm (tablePtr m r) op 0 buf n s = .ok (call, u) →
        ∃ t earlier received later, after.foldlM (Input.exec env) u = .ok t ∧
          StoredInPlace m vm r buf n env start before u after t earlier received later

/-- The buffer starts where the entry of its page points, as `vm_walk_table` reads it:
bits 40 to 51 of the address are clear, and the buffer's offset in the page is in the
entry. No entry that the kernel writes has an offset for its page. -/
def StartsFrame (m : PageMode) (value buf : Nat) : Prop :=
  value / 2 ^ 40 % 2 ^ 12 = 0 ∧
    buf % pageSizeInBytes m = 4096 * (value / 4096 % (pageSizeInBytes m / 4096))

instance (m : PageMode) (value buf : Nat) : Decidable (StartsFrame m value buf) :=
  inferInstanceAs (Decidable (_ ∧ _))

theorem pageByte_eq_mask_iff (m : PageMode) (value buf : Nat) :
    pageByte (39 - 9 * pageDepth m) value buf = value &&& vmPageTableBaseAddressMask ↔
      StartsFrame m value buf := by
  rw [and_mask]
  unfold StartsFrame pageByte
  cases m with
  | large =>
    show 2 ^ 21 * (value / 2 ^ 21 % 2 ^ 31) + buf % 2 ^ 21 = _ ↔
      _ ∧ buf % 2 ^ 21 = 4096 * (value / 4096 % 512)
    omega
  | small =>
    show 2 ^ 12 * (value / 2 ^ 12 % 2 ^ 40) + buf % 2 ^ 12 = _ ↔
      _ ∧ buf % 2 ^ 12 = 4096 * (value / 4096 % 1)
    omega

theorem pageByte_lt (m : PageMode) (value address : Nat) :
    pageByte (39 - 9 * pageDepth m) value address < 2 ^ 52 := by
  unfold pageByte
  cases m with
  | large =>
    show 2 ^ 21 * (value / 2 ^ 21 % 2 ^ 31) + address % 2 ^ 21 < 2 ^ 52
    omega
  | small =>
    show 2 ^ 12 * (value / 2 ^ 12 % 2 ^ 40) + address % 2 ^ 12 < 2 ^ 52
    omega

/-! ## Runs with a read in them -/

section Runs

variable {env : KeyboardEnv} {m : PageMode} {vm : Vm} {r op buf n : Nat}

theorem addedReads_append (before after : List KeyInput) :
    addedReads (before ++ after) = addedReads before ++ addedReads after := by
  induction before with
  | nil => rfl
  | cons i before ih =>
    rw [List.cons_append, addedReads_cons, ih, addedReads_cons i before, List.append_assoc]

theorem keysQueued_append {before : List KeyInput} (after : List KeyInput) {s t : Input}
    (hrun : before.foldlM (Input.exec env) s = .ok t) :
    keysQueued env s (before ++ after) = keysQueued env s before ++ keysQueued env t after := by
  induction before generalizing s with
  | nil =>
    cases hrun
    rfl
  | cons i before ih =>
    rw [List.foldlM_cons] at hrun
    obtain ⟨u, hu, hrun⟩ := bind_inv hrun
    rw [List.cons_append, keysQueued, keysQueued, hu]
    dsimp only
    rw [ih hrun, List.append_assoc]

/-- A run in three parts, from an empty queue. -/
theorem run_parts (env : KeyboardEnv) {start : Input} {before : List KeyInput}
    (request : List KeyInput) {after : List KeyInput}
    (henabled : start.Enabled) (hempty : start.opHead = none)
    (hnew : NewReads (before ++ (request ++ after))) :
    ∃ (s u t : Input) (reads : List Read), before.foldlM (Input.exec env) start = .ok s ∧
      request.foldlM (Input.exec env) s = .ok u ∧ after.foldlM (Input.exec env) u = .ok t ∧
      reads.map Read.request = addedReads before ++ (addedReads request ++ addedReads after) ∧
      reads.flatMap Read.received =
        keysQueued env start before ++ (keysQueued env s request ++ keysQueued env u after) ∧
      (∀ r ∈ reads, r.received.length ≤ r.length) ∧
      t.memory = (reads.flatMap Read.stores).foldl storeByte start.memory := by
  obtain ⟨t, done, pending, hrun, hqueued, -, hrequests, hreceived⟩ :=
    run_queued env (Queued.of_empty hempty) henabled hnew.nodup hnew.length
  rw [List.foldlM_append] at hrun
  obtain ⟨s, hs, hrun⟩ := bind_inv hrun
  rw [List.foldlM_append] at hrun
  obtain ⟨u, hu, ht⟩ := bind_inv hrun
  refine ⟨s, u, t, done ++ pending, hs, hu, ht, ?_, ?_, hqueued.atMost, hqueued.memory⟩
  · rw [hrequests, addedReads_append, addedReads_append]
    rfl
  · rw [hreceived, keysQueued_append _ hs, keysQueued_append _ hu]
    rfl

theorem Read.stores_eq_userStores {me : Read}
    (h : ∀ i < me.received.length,
      (me.bufferVirtual + i) % 2 ^ 64 = userByte m vm r (buf + i)) :
    me.stores = userStores m vm r buf me.received := by
  unfold Read.stores userStores
  refine List.map_congr_left fun x hx => ?_
  obtain ⟨-, hi, -⟩ := List.mem_zipIdx hx
  show ((me.bufferVirtual + x.2) % 2 ^ 64, x.1) = (userByte m vm r (buf + x.2), x.1)
  rw [h x.2 (by omega)]

/-- A call that adds nothing reads nothing. -/
theorem readsInPlace_of_skipped
    (hskip : ∀ op s call u, sysRead m vm (tablePtr m r) op 0 buf n s = .ok (call, u) → u = s)
    (hreturns : ∀ op s, 0 < n → ∃ call, sysRead m vm (tablePtr m r) op 0 buf n s = .ok call) :
    ReadsInPlace m vm r buf n := by
  intro env start op before after henabled hempty hnew _
  obtain ⟨s, u, t, reads, hs, hu, ht, hrequests, hreceived, -, hmemory⟩ :=
    run_parts env [] henabled hempty hnew
  cases hu
  refine ⟨s, hs, hreturns op s, fun call u hcall => ?_⟩
  obtain rfl := hskip op s call u hcall
  obtain ⟨earlier, later, rfl, hearlier, hlater⟩ := List.map_eq_append_iff.mp hrequests
  refine ⟨t, earlier, [], later, ht, hearlier, hlater, Nat.zero_le n, ?_, ?_⟩
  · rw [List.append_nil, ← List.flatMap_append, hreceived]
    rfl
  · rw [hmemory, List.flatMap_append]
    simp [userStores]

/-- A read to an address from which the bytes follow each other as they do in the
buffer. -/
theorem readsInPlace_of_linear {bufferVirtual : Nat} (hn : 0 < n)
    (hread : ∀ env op s, sysRead m vm (tablePtr m r) op 0 buf n s =
      (s.exec env (.addOperation op n bufferVirtual)).map fun u => (ReadCall.waiting, u))
    (hlinear : ∀ i < n, (bufferVirtual + i) % 2 ^ 64 = userByte m vm r (buf + i)) :
    ReadsInPlace m vm r buf n := by
  intro env start op before after henabled hempty hnew hop
  have hnew' : NewReads (before ++ ([.addOperation op n bufferVirtual] ++ after)) := by
    obtain ⟨hnodup, hlength⟩ := hnew
    rw [addedReads_append] at hnodup hlength hop
    constructor
    · rw [addedReads_append, addedReads_append]
      show ((addedReads before ++ ⟨op, n, bufferVirtual, []⟩ :: addedReads after).map Read.op).Nodup
      rw [List.map_append, List.map_cons, List.nodup_middle, ← List.map_append]
      exact List.nodup_cons.mpr ⟨hop, hnodup⟩
    · rw [addedReads_append, addedReads_append]
      intro read hmem
      rcases List.mem_append.mp hmem with hmem | hmem
      · exact hlength read (List.mem_append_left _ hmem)
      · rcases List.mem_cons.mp hmem with rfl | hmem
        · exact hn
        · exact hlength read (List.mem_append_right _ hmem)
  obtain ⟨s, u, t, reads, hs, hu, ht, hrequests, hreceived, hmost, hmemory⟩ :=
    run_parts env _ henabled hempty hnew'
  have hadd : s.exec env (.addOperation op n bufferVirtual) = .ok u := by
    rw [List.foldlM_cons] at hu
    obtain ⟨u', hu', hnil⟩ := bind_inv hu
    cases hnil
    exact hu'
  have hcall : sysRead m vm (tablePtr m r) op 0 buf n s = .ok (.waiting, u) := by
    rw [hread env, hadd]
    rfl
  refine ⟨s, hs, fun _ => ⟨_, hcall⟩, fun call u' hcall' => ?_⟩
  obtain ⟨rfl, rfl⟩ : ReadCall.waiting = call ∧ u = u' := by
    rw [hcall] at hcall'
    cases hcall'
    exact ⟨rfl, rfl⟩
  -- the read of the call is the one between those before it and those after it
  obtain ⟨earlier, rest, rfl, hearlier, hrest⟩ := List.map_eq_append_iff.mp hrequests
  obtain ⟨me, later, rfl, hme, hlater⟩ := List.map_eq_cons_iff.mp hrest
  have hlen : me.received.length ≤ n := by
    have h := hmost me (by simp)
    have hlength : me.length = n := congrArg Read.length hme
    rwa [hlength] at h
  have hstores : me.stores = userStores m vm r buf me.received := by
    have hbuffer : me.bufferVirtual = bufferVirtual := congrArg Read.bufferVirtual hme
    refine Read.stores_eq_userStores fun i hi => ?_
    rw [hbuffer]
    exact hlinear i (by omega)
  refine ⟨t, earlier, me.received, later, ht, hearlier, hlater, hlen, ?_, ?_⟩
  · have hnone : keysQueued env s [.addOperation op n bufferVirtual] = [] := by
      rw [keysQueued, hadd]
      rfl
    rw [List.flatMap_append, List.flatMap_cons, hnone, List.nil_append] at hreceived
    rw [List.append_assoc, hreceived]
  · rw [hmemory, List.flatMap_append, List.flatMap_cons, hstores, List.append_assoc]

/-! ## One key that can be told from the others -/

/-- A queue whose reads lack bytes is not empty. -/
theorem Queued.head_isSome {memory₀ : Nat → UInt8} {s : Input} {done pending : List Read}
    (hq : Queued memory₀ s done pending)
    (hroom : ((done ++ pending).flatMap Read.received).length <
      ((done ++ pending).map Read.length).sum) :
    s.opHead.isSome = true := by
  rw [hq.head_eq]
  cases pending with
  | cons first rest => rfl
  | nil =>
    have hlengths : done.map Read.length = done.map fun r => r.received.length :=
      List.map_congr_left fun r hr => (hq.complete r hr).symm
    rw [List.append_nil, hlengths, List.length_flatMap] at hroom
    exact absurd hroom (Nat.lt_irrefl _)

theorem addedReads_interrupts (scancodes : List UInt8) :
    addedReads (scancodes.map .interrupt) = [] := by
  induction scancodes with
  | nil => rfl
  | cons scancode scancodes ih => exact ih

theorem map_length_request (reads : List Read) :
    (reads.map Read.request).map Read.length = reads.map Read.length := by
  rw [List.map_map]
  rfl

/-- While there is room, every key that is pressed is read. -/
theorem keysQueued_interrupts {memory₀ : Nat → UInt8} {s : Input} {done pending : List Read}
    {scancodes : List UInt8} {char : UInt8 → UInt8} (hq : Queued memory₀ s done pending)
    (henabled : s.Enabled)
    (hroom : ((done ++ pending).flatMap Read.received).length + scancodes.length ≤
      ((done ++ pending).map Read.length).sum)
    (hkeys : ∀ scancode ∈ scancodes, ∀ s,
      (keyPress env scancode s).map env.kgetch = some (char scancode)) :
    keysQueued env s (scancodes.map .interrupt) = scancodes.map char := by
  -- as long as some read is not full there is a head to take the key
  induction scancodes generalizing s done pending with
  | nil => rfl
  | cons scancode scancodes ih =>
    rw [List.length_cons] at hroom
    have hhead := hq.head_isSome (by omega)
    obtain ⟨t, done', pending', hexec, hstep⟩ :=
      hq.step env henabled (i := .interrupt scancode) fun _ h => (nomatch h)
    have hkey : queuedKey env s (.interrupt scancode) = [char scancode] := by
      have h := hkeys scancode List.mem_cons_self s
      unfold queuedKey
      dsimp only
      rw [if_pos hhead, ← Option.toList_map, h]
      rfl
    have hlengths : (done' ++ pending').map Read.length = (done ++ pending).map Read.length := by
      rw [← map_length_request, hstep.requests, List.map_append, map_length_request]
      exact List.append_nil _
    have hrest := ih hstep.queued hstep.enabled
      (by rw [hlengths, hstep.received, hkey, List.length_append, List.length_singleton]; omega)
      fun scancode' hmem => hkeys scancode' (List.mem_cons_of_mem _ hmem)
    rw [List.map_cons, List.map_cons, keysQueued, hkey, hexec]
    dsimp only
    rw [hrest]
    rfl

/-- The key `S` gives 1, every other key 0. -/
def markedKeys : KeyboardEnv := ⟨fun key => if key.code = 0x1F then 1 else 0, fun _ => 0, twoLines⟩

/-- The character that `markedKeys` gives for a scancode of `A` or `S`. -/
def markedChar (scancode : UInt8) : UInt8 := if scancode = 0x1F then 1 else 0

/-- `A` pressed `i` times and then `S`. -/
def markedPresses (i : Nat) : List UInt8 := List.replicate i 0x1E ++ [0x1F]

theorem keyPress_marked {i : Nat} : ∀ scancode ∈ markedPresses i, ∀ s,
    (keyPress markedKeys scancode s).map markedKeys.kgetch = some (markedChar scancode) := by
  intro scancode hmem s
  rcases List.mem_append.mp hmem with hmem | hmem
  · rw [List.eq_of_mem_replicate hmem]
    rfl
  · rw [List.mem_singleton.mp hmem]
    rfl

theorem foldl_storeByte_zero (stores : List (Nat × UInt8)) (h : ∀ store ∈ stores, store.2 = 0) :
    stores.foldl storeByte (fun _ => 0) = fun _ => 0 := by
  induction stores with
  | nil => rfl
  | cons store stores ih =>
    rw [List.foldl_cons]
    have hstore : storeByte (fun _ => 0) store = fun _ => 0 := by
      unfold storeByte
      rw [h store List.mem_cons_self]
      exact Function.update_eq_self _ _
    rw [hstore]
    exact ih fun store' hmem => h store' (List.mem_cons_of_mem _ hmem)

/-- The last of these presses is the only byte that is not 0. -/
theorem foldl_storeByte_marked (address : Nat → Nat) (i : Nat) :
    (((markedPresses i).map markedChar).zipIdx.map fun (b, j) => (address j, b)).foldl storeByte
      (fun _ => 0) = Function.update (fun _ => 0) (address i) 1 := by
  have hpresses : (markedPresses i).map markedChar = List.replicate i 0 ++ [1] := by
    unfold markedPresses
    rw [List.map_append, List.map_replicate]
    rfl
  rw [hpresses, List.zipIdx_append, List.map_append, List.foldl_append, foldl_storeByte_zero]
  · rw [List.length_replicate, Nat.zero_add]
    rfl
  · intro store hmem
    obtain ⟨x, hx, rfl⟩ := List.mem_map.mp hmem
    have hmem' : x.1 ∈ List.replicate i (0 : UInt8) := List.fst_mem_of_mem_zipIdx hx
    exact List.eq_of_mem_replicate hmem'

/-- A key that can be told from those before it shows where its byte goes. -/
theorem linear_of_readsInPlace {bufferVirtual : Nat} (hplace : ReadsInPlace m vm r buf n)
    (hread : ∀ env op s, sysRead m vm (tablePtr m r) op 0 buf n s =
      (s.exec env (.addOperation op n bufferVirtual)).map fun u => (ReadCall.waiting, u))
    {i : Nat} (hi : i < n) : (bufferVirtual + i) % 2 ^ 64 = userByte m vm r (buf + i) := by
  obtain ⟨after, hafter⟩ : ∃ after, after = (markedPresses i).map KeyInput.interrupt := ⟨_, rfl⟩
  have hadded : addedReads after = [] := hafter ▸ addedReads_interrupts _
  have henabled : idleInput.Enabled := .inl rfl
  obtain ⟨u, hu, hq, hkeyboard⟩ := (Queued.of_empty (s := idleInput) rfl).add markedKeys
    bufferVirtual (show 0 ∉ ([] : List Nat) from List.not_mem_nil)
      (Nat.lt_of_le_of_lt (Nat.zero_le i) hi)
  have huenabled : u.Enabled := by
    unfold Input.Enabled
    rw [hkeyboard]
    exact henabled
  have hkeys : keysQueued markedKeys u after = (markedPresses i).map markedChar := by
    rw [hafter]
    refine keysQueued_interrupts hq huenabled ?_ keyPress_marked
    simp only [markedPresses, List.length_append, List.length_replicate, List.length_singleton]
    show 0 + (i + 1) ≤ n + 0
    omega
  -- where the bytes went
  have hlength : ∀ r ∈ addedReads after, 1 ≤ r.length := by
    rw [hadded]
    exact fun _ h => (nomatch h)
  obtain ⟨t, done, pending, ht, hqueued, -, hrequests, hreceived⟩ :=
    run_queued markedKeys hq huenabled (by rw [hadded]; simp) hlength
  obtain ⟨me, hme, hreads⟩ : ∃ me : Read, me.request = ⟨0, n, bufferVirtual, []⟩ ∧
      done ++ pending = [me] := by
    rw [hadded, List.append_nil] at hrequests
    obtain ⟨me, rest, hcons, hme, hrest⟩ := List.map_eq_cons_iff.mp hrequests
    exact ⟨me, hme, by rw [hcons, List.map_eq_nil_iff.mp hrest]⟩
  have hgot : me.received = (markedPresses i).map markedChar := by
    rw [hreads, hkeys] at hreceived
    simpa using hreceived
  have hwent : t.memory = Function.update (fun _ => 0) ((bufferVirtual + i) % 2 ^ 64) 1 := by
    have hbuffer : me.bufferVirtual = bufferVirtual := congrArg Read.bufferVirtual hme
    rw [hqueued.memory, hreads, List.flatMap_singleton]
    unfold Read.stores
    rw [hgot, hbuffer]
    exact foldl_storeByte_marked (fun j => (bufferVirtual + j) % 2 ^ 64) i
  -- where they belong
  have hbelong : t.memory = Function.update (fun _ => 0) (userByte m vm r (buf + i)) 1 := by
    obtain ⟨s, hs, -, hcalls⟩ := hplace markedKeys idleInput 0 [] after henabled rfl
      ⟨by rw [List.nil_append, hadded]; simp, hlength⟩
      (by rw [List.nil_append, hadded]; exact List.not_mem_nil)
    cases hs
    obtain ⟨t', earlier, received, later, ht', hstored⟩ := hcalls .waiting u
      (by rw [hread markedKeys, hu]; rfl)
    obtain rfl : t = t' := by
      rw [ht] at ht'
      exact Except.ok.inj ht'
    have hearlier : earlier = [] := List.map_eq_nil_iff.mp hstored.asked
    have hlater : later = [] := List.map_eq_nil_iff.mp (hstored.added.trans hadded)
    have hreceived' : received = (markedPresses i).map markedChar := by
      have h := hstored.keys
      rw [hearlier, hlater, hkeys] at h
      simpa [keysQueued] using h
    rw [hstored.memory, hearlier, hlater, hreceived']
    simp only [List.flatMap_nil, List.nil_append, List.append_nil]
    exact foldl_storeByte_marked (fun j => userByte m vm r (buf + j)) i
  by_contra hne
  have hat := congrFun (hwent.symm.trans hbelong) ((bufferVirtual + i) % 2 ^ 64)
  rw [Function.update_self, Function.update_of_ne hne] at hat
  exact absurd hat (by decide)

/-! ## The reads that are in place -/

/-- A call for no bytes adds nothing. -/
theorem sysRead_zero {s u : Input} {call : ReadCall}
    (h : sysRead m vm (tablePtr m r) op 0 buf 0 s = .ok (call, u)) : u = s := by
  unfold sysRead at h
  rw [if_pos (by decide), if_pos rfl] at h
  obtain ⟨bufferVirtual, -, h⟩ := bind_inv h
  cases bufferVirtual with
  | none =>
    cases h
    rfl
  | some bufferVirtual =>
    dsimp only at h
    rw [if_neg (Nat.lt_irrefl 0)] at h
    cases h
    rfl

/-- Two addresses of the direct map are the same if the physical ones are. -/
theorem linear_iff {frame i : Nat} (hpage : TaskPage m vm r (buf + i)) (hframe : frame < 2 ^ 40)
    (hi : i < 2 ^ 47) :
    (frame + higherHalfDirectMapBase m + i) % 2 ^ 64 = userByte m vm r (buf + i) ↔
      physicalOf vm r (buf + i) = some (frame + i) := by
  have hlt := pageByte_lt m (vm.pageSlot m r (buf + i)) (buf + i)
  unfold userByte
  rw [hpage.physicalOf_eq, Option.getD_some, Option.some.injEq]
  generalize pageByte (39 - 9 * pageDepth m) (vm.pageSlot m r (buf + i)) (buf + i) = p at hlt
  generalize higherHalfDirectMapBase m = base
  omega

/-- **`SYS_READ`.** The bytes of a read go to where the task's buffer is, if it starts
where its page's entry points and is one piece of physical memory, and in no other case
in which something is read. -/
theorem sys_read_in_place (huser : buf + n ≤ 2 ^ 47)
    (hmapped : ∀ i < n, TaskPage m vm r (buf + i)) :
    ReadsInPlace m vm r buf n ↔
      n = 0 ∨ vm.memorySizeInBytes ≤ walkedFrame m vm r buf ∨
        StartsFrame m (vm.pageSlot m r buf) buf ∧
          ∀ i < n, physicalOf vm r (buf + i) = (physicalOf vm r buf).map (· + i) := by
  rcases Nat.eq_zero_or_pos n with rfl | hn
  · refine ⟨fun _ => .inl rfl,
      fun _ => readsInPlace_of_skipped (fun op s call u => sysRead_zero) ?_⟩
    exact fun _ _ h => absurd h (Nat.lt_irrefl 0)
  have hpage : TaskPage m vm r buf := hmapped 0 hn
  have hread := fun env op s => sysRead_eq env op s hpage hn
  by_cases hmemory : walkedFrame m vm r buf < vm.memorySizeInBytes
  · simp only [if_pos hmemory] at hread
    have hframe : walkedFrame m vm r buf < 2 ^ 40 := Nat.lt_of_lt_of_le hmemory hpage.limit
    have hlinear : (∀ i < n, (walkedFrame m vm r buf + higherHalfDirectMapBase m + i) % 2 ^ 64 =
        userByte m vm r (buf + i)) ↔
        ∀ i < n, physicalOf vm r (buf + i) = some (walkedFrame m vm r buf + i) := by
      refine forall_congr' fun i => forall_congr' fun hi => ?_
      exact linear_iff (hmapped i hi) hframe (by omega)
    have hstarts : StartsFrame m (vm.pageSlot m r buf) buf ↔
        physicalOf vm r buf = some (walkedFrame m vm r buf) := by
      rw [hpage.physicalOf_eq, Option.some.injEq]
      exact (pageByte_eq_mask_iff m _ _).symm
    constructor
    · intro hplace
      have hall := hlinear.mp fun i hi => linear_of_readsInPlace hplace hread hi
      have hfirst : physicalOf vm r buf = some (walkedFrame m vm r buf) := hall 0 hn
      refine .inr (.inr ⟨hstarts.mpr hfirst, fun i hi => ?_⟩)
      rw [hall i hi, hfirst, Option.map_some]
    · intro hcond
      obtain ⟨hstart, hpieces⟩ := (hcond.resolve_left (Nat.ne_of_gt hn)).resolve_left
        (Nat.not_le_of_lt hmemory)
      refine readsInPlace_of_linear hn hread (hlinear.mpr fun i hi => ?_)
      rw [hpieces i hi, hstarts.mp hstart, Option.map_some]
  · -- the frame is not memory: the call returns 0
    simp only [if_neg hmemory] at hread
    refine ⟨fun _ => .inr (.inl (Nat.le_of_not_lt hmemory)), fun _ => ?_⟩
    refine readsInPlace_of_skipped (fun op s call u h => ?_) fun op s _ =>
      ⟨_, hread markedKeys op s⟩
    rw [hread markedKeys op s] at h
    cases h
    rfl

end Runs

/-! ## A task with one page -/

/-- A task with its first 2 MiB in the frame at 4 MiB, behind the tables in frames 1, 2
and 3. -/
def readerSpace : Vm where
  memory := fun a =>
    if a = 0x1000 then 0x2007 else if a = 0x2000 then 0x3007 else if a = 0x3000 then 0x400087 else 0
  memorySizeInBytes := 2 ^ 30
  freeTables := []
  hhdmPageRootAddress := none

theorem readerSpace_page {a : Nat} (ha : a < 32) : TaskPage .large readerSpace 1 a := by
  have hpath : ∀ a < 32, ∀ d ≤ 2,
      descend hwTable readerSpace.entry 1 (pathTo a d) = some (d + 1) := by decide +kernel
  have hslot : ∀ a < 32, readerSpace.pageSlot .large 1 a = 0x400087 := by decide +kernel
  constructor
  case limit => decide
  case there =>
    show (descend hwTable readerSpace.entry 1 (pathTo a 2)).isSome = true
    rw [hpath a ha 2 (Nat.le_refl 2)]
    rfl
  case tables =>
    intro d hd n hn
    rw [hpath a ha d hd] at hn
    cases hn
    have hd' : d ≤ 2 := hd
    show 4096 * (d + 1) < 2 ^ 30
    omega
  case present => rw [hslot a ha]
  case huge => intro _; rw [hslot a ha]

theorem sys_read_in_place_readerSpace :
    physicalOf readerSpace 1 1 = some 0x400001 ∧ ReadsInPlace .large readerSpace 1 0 2 := by
  refine ⟨by decide +kernel, (sys_read_in_place (by decide) fun i hi => ?_).mpr ?_⟩
  · exact readerSpace_page (by omega)
  · refine .inr (.inr ⟨by decide +kernel, ?_⟩)
    decide +kernel

/-- A buffer that does not start a page is read to the start of it. -/
theorem sys_read_elsewhere :
    TaskPage .large readerSpace 1 0x10 ∧ physicalOf readerSpace 1 0x10 = some 0x400010 ∧
      ¬ ReadsInPlace .large readerSpace 1 0x10 1 := by
  have hpage : TaskPage .large readerSpace 1 0x10 := readerSpace_page (by decide)
  refine ⟨hpage, by decide +kernel, fun hplace => ?_⟩
  have hmemory : walkedFrame .large readerSpace 1 0x10 < readerSpace.memorySizeInBytes := by
    decide +kernel
  have hread := fun env op s => sysRead_eq env op s hpage Nat.zero_lt_one
  simp only [if_pos hmemory] at hread
  have hlinear := linear_of_readsInPlace hplace hread (i := 0) (by decide)
  have hsame := (linear_iff (i := 0) hpage (by decide +kernel) (by decide)).mp hlinear
  exact absurd hsame (by decide +kernel)

end Dreamos64

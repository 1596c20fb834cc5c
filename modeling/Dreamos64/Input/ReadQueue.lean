import Dreamos64.Input.Keyboard
import Dreamos64.Lib.Links
import Dreamos64.Lib.Run

/-!
# Dreamos64 — keyboard reads, first in first out

The queue of pending reads over runs of added reads and keyboard interrupts, in any
order. What the reads got so far is kept beside the state, as a list of `Read`s in the
order they were added. The state of the queue is told from that list (`Queued`): the
reads that are complete come first, at most one after them has got something, and the
queue links those that are not complete.

* `Queued.add`, `Queued.deliver` — what an added read and a pressed key do to the list.
* `exec_reads_fifo` — in every run the bytes that the reads got, put one after the
  other, are the keys pressed while the queue was not empty; each read is marked as done
  exactly when it has got all its bytes, and never gets more.
* `keyboard_reads_fifo` — so it is in every run of the handler, exactly if its echo stays on
  the screen and its messages fit the buffer of the log.
-/

namespace Dreamos64

open Machine Links

/-- A step of the system: a read is added, or a scancode comes in. -/
inductive KeyInput where
  | addOperation (op length bufferVirtual : Nat)
  | interrupt (scancode : UInt8)
  deriving DecidableEq, Repr

/-- A read with the bytes it has got. -/
structure Read where
  op            : Nat
  length        : Nat
  bufferVirtual : Nat
  received      : List UInt8
  deriving DecidableEq, Repr

/-- The bytes of a read, with the addresses they go to. -/
def Read.stores (r : Read) : List (Nat × UInt8) :=
  r.received.zipIdx.map fun (b, i) => ((r.bufferVirtual + i) % 2 ^ 64, b)

def storeByte (memory : Nat → UInt8) (store : Nat × UInt8) : Nat → UInt8 :=
  Function.update memory store.1 store.2

section Queue

variable (env : KeyboardEnv)

/-- A step, where echo and messages do no harm. -/
def Input.exec (s : Input) : KeyInput → Exec Input
  | .addOperation op length bufferVirtual =>
    ps2KeyboardAddOperation op (s.setOp op (newOperation length bufferVirtual))
  | .interrupt scancode => .ok (takeScancode env scancode s)

/-- A step of the system. -/
def Input.serve (s : Input) : KeyInput → Exec Input
  | .addOperation op length bufferVirtual =>
    ps2KeyboardAddOperation op (s.setOp op (newOperation length bufferVirtual))
  | .interrupt scancode => handleKeyboardInterrupt env scancode s

/-- The step does no harm. -/
def Input.Allows (s : Input) : KeyInput → Prop
  | .addOperation _ _ _ => True
  | .interrupt scancode => s.Served env scancode

/-- The character of a key that is pressed while the queue is not empty. -/
def queuedKey (s : Input) : KeyInput → List UInt8
  | .addOperation _ _ _ => []
  | .interrupt scancode =>
    if s.opHead.isSome then (keyPress env scancode s).toList.map env.kgetch else []

/-- The characters of all keys that are pressed while the queue is not empty. -/
def keysQueued : Input → List KeyInput → List UInt8
  | _, [] => []
  | s, i :: inputs =>
    queuedKey env s i ++
      match s.exec env i with
      | .ok t => keysQueued t inputs
      | .error _ => []

/-- The reads that are added, with nothing received. -/
def addedReads : List KeyInput → List Read
  | [] => []
  | .addOperation op length bufferVirtual :: inputs =>
    ⟨op, length, bufferVirtual, []⟩ :: addedReads inputs
  | .interrupt _ :: inputs => addedReads inputs

/-- Every added read is new, and asks for something. -/
structure NewReads (inputs : List KeyInput) : Prop where
  nodup  : ((addedReads inputs).map Read.op).Nodup
  length : ∀ r ∈ addedReads inputs, 1 ≤ r.length

/-! ## The reads and the state -/

/-- The operation of a read, linked to `next`. -/
def Read.operation (r : Read) (next : Option Nat) : PendingOperation :=
  ⟨r.length, r.bufferVirtual, r.received.length, decide (r.received.length = r.length), next⟩

/-- The state holds the reads `done`, which are complete, and then `pending`; the bytes
they have got went to memory `memory₀`. -/
structure Queued (memory₀ : Nat → UInt8) (s : Input) (done pending : List Read) : Prop where
  nodup    : ((done ++ pending).map Read.op).Nodup
  ops      : ∀ r ∈ done ++ pending, s.ops r.op = r.operation (s.ops r.op).next
  complete : ∀ r ∈ done, r.received.length = r.length
  short    : ∀ r ∈ pending, r.received.length < r.length
  empty    : ∀ r ∈ pending.tail, r.received = []
  chain    : Chain (fun op => (s.ops op).next) s.opHead (pending.map Read.op)
  tail     : pending ≠ [] → s.opTail = (pending.map Read.op).getLast?
  memory   : s.memory = ((done ++ pending).flatMap Read.stores).foldl storeByte memory₀

variable {env} {memory₀ : Nat → UInt8} {s : Input} {done pending : List Read}

@[simp] theorem setOp_self (s : Input) (op : Nat) (o : PendingOperation) :
    (s.setOp op o).ops op = o := Function.update_self _ _ _

@[simp] theorem setOp_of_ne (s : Input) {op op' : Nat} (o : PendingOperation) (h : op' ≠ op) :
    (s.setOp op o).ops op' = s.ops op' := Function.update_of_ne h _ _

/-- The queue is empty exactly if no read is pending. -/
theorem Queued.head_eq (hq : Queued memory₀ s done pending) :
    s.opHead = (pending.map Read.op).head? :=
  hq.chain.head_eq

/-- An empty queue holds no reads. -/
theorem Queued.of_empty (hempty : s.opHead = none) : Queued s.memory s [] [] :=
  ⟨List.nodup_nil, fun _ h => (nomatch h), fun _ h => (nomatch h), fun _ h => (nomatch h),
    fun _ h => (nomatch h), hempty, fun h => absurd rfl h, rfl⟩

theorem Queued.atMost (hq : Queued memory₀ s done pending) :
    ∀ r ∈ done ++ pending, r.received.length ≤ r.length := by
  intro r hr
  rcases List.mem_append.mp hr with hr | hr
  · exact Nat.le_of_eq (hq.complete r hr)
  · exact Nat.le_of_lt (hq.short r hr)

/-! ## Adding a read -/

/-- A state that differs by a new operation at the end of the chain holds one more read. -/
theorem Queued.extend (hq : Queued memory₀ s done pending) {t : Input}
    {op length bufferVirtual : Nat}
    (hnew : op ∉ (done ++ pending).map Read.op) (hlength : 1 ≤ length)
    (hops : ∀ r ∈ done ++ pending, ∃ next, t.ops r.op = { s.ops r.op with next := next })
    (hop : t.ops op = newOperation length bufferVirtual)
    (hchain : Chain (fun op => (t.ops op).next) t.opHead (pending.map Read.op ++ [op]))
    (htail : t.opTail = some op) (hmemory : t.memory = s.memory) :
    Queued memory₀ t done (pending ++ [⟨op, length, bufferVirtual, []⟩]) := by
  have hmem : ∀ r ∈ done ++ (pending ++ [(⟨op, length, bufferVirtual, []⟩ : Read)]),
      r ∈ done ++ pending ∨ r = ⟨op, length, bufferVirtual, []⟩ := by
    intro r hr
    rw [← List.append_assoc] at hr
    exact (List.mem_append.mp hr).imp_right List.mem_singleton.mp
  constructor
  case nodup =>
    rw [← List.append_assoc, List.map_append]
    refine List.nodup_append'.mpr ⟨hq.nodup, List.nodup_singleton _, ?_⟩
    intro op' hop' hnew'
    obtain rfl : op' = op := List.mem_singleton.mp hnew'
    exact hnew hop'
  case ops =>
    intro r hr
    rcases hmem r hr with hr | rfl
    · obtain ⟨next, hnext⟩ := hops r hr
      rw [hnext, hq.ops r hr]
      rfl
    -- a request of at least one byte is not complete when it is made
    · show t.ops op = _
      rw [hop]
      have hne : ¬ (0 : Nat) = length := by omega
      simp [newOperation, Read.operation, hne]
  case complete => exact hq.complete
  case short =>
    intro r hr
    rcases List.mem_append.mp hr with hr | hr
    · exact hq.short r hr
    · rw [List.mem_singleton.mp hr]
      exact hlength
  case empty =>
    intro r hr
    cases pending with
    | nil => cases hr
    | cons first rest =>
      rcases List.mem_append.mp hr with hr | hr
      · exact hq.empty r hr
      · rw [List.mem_singleton.mp hr]
  case chain =>
    rw [List.map_append]
    exact hchain
  case tail =>
    intro _
    rw [List.map_append, htail]
    exact List.getLast?_concat.symm
  case memory =>
    -- a request that has got no key has stored nothing
    have hnone : [(⟨op, length, bufferVirtual, []⟩ : Read)].flatMap Read.stores = [] := rfl
    rw [hmemory, hq.memory, ← List.append_assoc]
    conv_rhs => rw [List.flatMap_append, hnone, List.append_nil]

theorem addOperation_empty (newOp : Nat) (h : s.opHead = none) :
    ps2KeyboardAddOperation newOp s =
      .ok { s with opHead := some newOp, opTail := some newOp } := by
  unfold ps2KeyboardAddOperation
  rw [h]

theorem addOperation_linked {head tail : Nat} (newOp : Nat) (hhead : s.opHead = some head)
    (htail : s.opTail = some tail) :
    ps2KeyboardAddOperation newOp s =
      .ok { s.setOp tail { s.ops tail with next := some newOp } with opTail := some newOp } := by
  unfold ps2KeyboardAddOperation
  rw [hhead, htail]

/-- An added read goes behind the pending ones, with nothing received. -/
theorem Queued.add (hq : Queued memory₀ s done pending) (env : KeyboardEnv) {op length : Nat}
    (bufferVirtual : Nat) (hnew : op ∉ (done ++ pending).map Read.op)
    (hlength : 1 ≤ length) :
    ∃ t, s.exec env (.addOperation op length bufferVirtual) = .ok t ∧
      Queued memory₀ t done (pending ++ [⟨op, length, bufferVirtual, []⟩]) ∧
      t.keyboard = s.keyboard := by
  have hne : ∀ r ∈ done ++ pending, r.op ≠ op := fun r hr heq =>
    hnew (heq ▸ List.mem_map_of_mem hr)
  obtain ⟨u, hu⟩ : ∃ u, u = s.setOp op (newOperation length bufferVirtual) := ⟨_, rfl⟩
  have hexec : s.exec env (.addOperation op length bufferVirtual) =
      ps2KeyboardAddOperation op u := by rw [hu]; rfl
  have hself : u.ops op = newOperation length bufferVirtual := by rw [hu, setOp_self]
  have hother : ∀ {op'}, op' ≠ op → u.ops op' = s.ops op' := fun h => by
    rw [hu, setOp_of_ne s _ h]
  have hhead : u.opHead = s.opHead := by rw [hu]; rfl
  have htail : u.opTail = s.opTail := by rw [hu]; rfl
  have hmemory : u.memory = s.memory := by rw [hu]; rfl
  have hkeyboard : u.keyboard = s.keyboard := by rw [hu]; rfl
  rcases List.eq_nil_or_concat' pending with rfl | ⟨front, last, rfl⟩
  · -- the queue is empty, and the read its head and its tail
    rw [hexec, addOperation_empty op (hhead.trans hq.chain)]
    refine ⟨_, rfl, hq.extend hnew hlength (fun r hr => ⟨_, hother (hne r hr)⟩) hself ⟨rfl, ?_⟩ rfl
      hmemory, hkeyboard⟩
    show (u.ops op).next = none
    rw [hself]
    rfl
  · -- the last read is linked to the new one
    have hlastne : last.op ≠ op := hne last (by simp)
    have hchain := hq.chain
    rw [List.map_append] at hchain
    obtain ⟨first, rest, hfirst⟩ := List.exists_cons_of_ne_nil
      (show (front ++ [last]).map Read.op ≠ [] by simp)
    have hsome : u.opHead = some first := by
      rw [hhead, hq.head_eq, hfirst]
      rfl
    have hlast : u.opTail = some last.op := by
      rw [htail, hq.tail (by simp), List.map_append]
      exact List.getLast?_concat
    rw [hexec, addOperation_linked op hsome hlast]
    obtain ⟨o, ho⟩ : ∃ o, o = { u.ops last.op with next := some op } := ⟨_, rfl⟩
    rw [← ho]
    have hkept : ∀ {op'}, op' ≠ last.op → op' ≠ op → (u.setOp last.op o).ops op' = s.ops op' :=
      fun h h' => by rw [setOp_of_ne u _ h, hother h']
    have hopself : (u.setOp last.op o).ops op = newOperation length bufferVirtual := by
      rw [setOp_of_ne u _ hlastne.symm, hself]
    refine ⟨_, rfl, hq.extend hnew hlength (fun r hr => ?_) hopself ?_ rfl hmemory, hkeyboard⟩
    · by_cases hr' : r.op = last.op
      · refine ⟨some op, ?_⟩
        show (u.setOp last.op o).ops r.op = _
        rw [hr', setOp_self, ho, hother hlastne]
      · exact ⟨_, hkept hr' (hne r hr)⟩
    · show Chain _ u.opHead _
      rw [hhead, List.map_append, List.append_assoc]
      refine hchain.insert (y := op) ?_ ?_ ?_ fun z hz hz' => ?_
      · rw [List.map_append, List.mem_append, not_or, List.map_append] at hnew
        exact hnew.2
      · show ((u.setOp last.op o).ops last.op).next = some op
        rw [setOp_self, ho]
      · show ((u.setOp last.op o).ops op).next = (s.ops last.op).next
        rw [hopself]
        have hend : (s.ops last.op).next = ([] : List Nat).head? := hchain.next_eq
        exact hend.symm
      · show ((u.setOp last.op o).ops z).next = (s.ops z).next
        rw [hkept hz hz']

/-! ## Delivering a character -/

/-- A read that gets one byte more. -/
def Read.push (r : Read) (readChar : UInt8) : Read :=
  { r with received := r.received ++ [readChar] }

theorem Read.stores_push (r : Read) (readChar : UInt8) :
    (r.push readChar).stores =
      r.stores ++ [((r.bufferVirtual + r.received.length) % 2 ^ 64, readChar)] := by
  unfold Read.stores Read.push
  rw [List.zipIdx_append, List.map_append]
  simp

/-- What a delivered character changes: the read `op` that was at the head of the queue,
one byte of memory, and nothing of the other reads or of the keyboard. -/
structure Delivers (s : Input) (op : Nat) (readChar : UInt8) (t : Input) : Prop where
  served   : t.ops op = { s.ops op with
    nbytes := (s.ops op).nbytes + 1
    read := decide ((s.ops op).nbytes + 1 = (s.ops op).length) }
  others   : ∀ op', op' ≠ op → t.ops op' = s.ops op'
  head     : t.opHead =
    if (s.ops op).nbytes + 1 = (s.ops op).length then (s.ops op).next else some op
  tail     : t.opTail = s.opTail
  memory   : t.memory = storeByte s.memory
    (((s.ops op).bufferVirtual + (s.ops op).nbytes) % 2 ^ 64, readChar)
  keyboard : t.keyboard = s.keyboard

theorem deliverChar_delivers {op : Nat} (readChar : UInt8) (hhead : s.opHead = some op)
    (hread : (s.ops op).read = false) (hroom : (s.ops op).nbytes < (s.ops op).length) :
    Delivers s op readChar (deliverChar env readChar s) := by
  unfold deliverChar storeChar
  rw [hhead]
  dsimp only
  rw [if_neg (by rw [hread]; decide), if_pos hroom]
  have hself : ∀ o, ({ s.setOp op o with
      memory := Function.update s.memory (((s.ops op).bufferVirtual + (s.ops op).nbytes) % 2 ^ 64)
        readChar
      console := fbPutchar env.fb readChar 0xe58749 0x000000 s.console } : Input).ops op = o :=
    fun o => setOp_self s op o
  rw [hself]
  dsimp only
  split
  · next hlast =>
    refine ⟨?_, fun op' hne => ?_, (if_pos hlast).symm, rfl, rfl, rfl⟩
    · rw [decide_eq_true hlast]
      exact setOp_self _ op _
    · exact (setOp_of_ne _ _ hne).trans (setOp_of_ne _ _ hne)
  · next hlast =>
    refine ⟨?_, fun op' hne => setOp_of_ne _ _ hne, ?_, rfl, rfl, rfl⟩
    · rw [decide_eq_false hlast, ← hread]
      exact setOp_self _ op _
    · rw [if_neg hlast]
      exact hhead

section Delivered

variable {t : Input} {r : Read} {rest : List Read} {readChar : UInt8}

variable (hq : Queued memory₀ s done (r :: rest))

include hq

/-- The other reads are not the one at the head. -/
theorem Queued.op_ne {r' : Read}
    (hr' : r' ∈ done ++ rest) : r'.op ≠ r.op := by
  intro heq
  have h := hq.nodup
  rw [List.map_append, List.map_cons, List.nodup_middle, ← List.map_append] at h
  exact (List.nodup_cons.mp h).1 (heq ▸ List.mem_map_of_mem hr')

variable (hdelivers : Delivers s r.op readChar t)

include hdelivers

/-- The head's operation is that of the read with the byte. -/
theorem Queued.served :
    t.ops r.op = (r.push readChar).operation (s.ops r.op).next := by
  rw [hdelivers.served]
  unfold Read.operation
  rw [show (r.push readChar).received.length = r.received.length + 1 from List.length_append,
    hq.ops r (by simp)]
  rfl

theorem Queued.delivered_ops :
    ∀ r' ∈ done ++ r.push readChar :: rest, t.ops r'.op = r'.operation (t.ops r'.op).next := by
  intro r' hr'
  rcases List.mem_append.mp hr' with hr' | hr'
  · rw [hdelivers.others _ (hq.op_ne (List.mem_append_left _ hr'))]
    exact hq.ops r' (List.mem_append_left _ hr')
  · rcases List.mem_cons.mp hr' with rfl | hr'
    · show t.ops r.op = (r.push readChar).operation (t.ops r.op).next
      rw [hq.served hdelivers]
      rfl
    · rw [hdelivers.others _ (hq.op_ne (List.mem_append_right _ hr'))]
      exact hq.ops r' (by simp [hr'])

/-- The byte is the last one stored: the reads behind the head have got nothing. -/
theorem Queued.delivered_memory :
    t.memory = ((done ++ r.push readChar :: rest).flatMap Read.stores).foldl storeByte memory₀ := by
  have hrest : rest.flatMap Read.stores = [] := by
    rw [List.flatMap_eq_nil_iff]
    intro r' hr'
    unfold Read.stores
    rw [hq.empty r' hr']
    rfl
  have h := hq.memory
  rw [List.flatMap_append, List.flatMap_cons, hrest, List.append_nil] at h ⊢
  rw [hdelivers.memory, h, Read.stores_push, ← List.append_assoc, hq.ops r (by simp)]
  conv_rhs => rw [List.foldl_append]
  rfl

/-- The queue behind the head is linked as it was. -/
theorem Queued.delivered_chain :
    Chain (fun op => (t.ops op).next) (s.ops r.op).next (rest.map Read.op) := by
  obtain ⟨-, hchain⟩ := hq.chain
  refine Chain.congr hchain fun op hmem => ?_
  obtain ⟨r', hr', rfl⟩ := List.mem_map.mp hmem
  rw [hdelivers.others _ (hq.op_ne (List.mem_append_right _ hr'))]

/-- A head that has all its bytes leaves the queue. -/
theorem Queued.delivered_last (hnodup : ((done ++ r.push readChar :: rest).map Read.op).Nodup)
    (hfull : (r.push readChar).received.length = r.length)
    (hhead : t.opHead = (s.ops r.op).next) :
    Queued memory₀ t (done ++ [r.push readChar]) rest := by
  have happend : done ++ [r.push readChar] ++ rest = done ++ r.push readChar :: rest := by simp
  constructor
  case nodup => rw [happend]; exact hnodup
  case ops => rw [happend]; exact hq.delivered_ops hdelivers
  case complete =>
    intro r' hr'
    rcases List.mem_append.mp hr' with hr' | hr'
    · exact hq.complete r' hr'
    · rw [List.mem_singleton.mp hr']
      exact hfull
  case short => exact fun r' hr' => hq.short r' (List.mem_cons_of_mem _ hr')
  case empty => exact fun r' hr' => hq.empty r' (List.mem_of_mem_tail hr')
  case chain =>
    rw [hhead]
    exact hq.delivered_chain hdelivers
  case tail =>
    intro hne
    rw [hdelivers.tail, hq.tail (by simp), List.map_cons]
    obtain ⟨r', rest', rfl⟩ := List.exists_cons_of_ne_nil hne
    rfl
  case memory => rw [happend]; exact hq.delivered_memory hdelivers

/-- A head that waits for more stays where it is. -/
theorem Queued.delivered_more (hnodup : ((done ++ r.push readChar :: rest).map Read.op).Nodup)
    (hmore : (r.push readChar).received.length < r.length) (hhead : t.opHead = some r.op) :
    Queued memory₀ t done (r.push readChar :: rest) := by
  constructor
  case nodup => exact hnodup
  case ops => exact hq.delivered_ops hdelivers
  case complete => exact hq.complete
  case short =>
    intro r' hr'
    rcases List.mem_cons.mp hr' with rfl | hr'
    · exact hmore
    · exact hq.short r' (List.mem_cons_of_mem _ hr')
  case empty => exact hq.empty
  case chain =>
    rw [hhead]
    refine ⟨rfl, ?_⟩
    show Chain _ (t.ops r.op).next _
    rw [hdelivers.served]
    exact hq.delivered_chain hdelivers
  case tail =>
    intro _
    rw [hdelivers.tail, hq.tail (by simp)]
    rfl
  case memory => exact hq.delivered_memory hdelivers

omit hdelivers in
/-- The head of the queue gets the character, and leaves the queue if that was its last. -/
theorem Queued.deliver (env : KeyboardEnv)
    (readChar : UInt8) :
    Delivers s r.op readChar (deliverChar env readChar s) ∧
      ∃ done' pending', done' ++ pending' = done ++ r.push readChar :: rest ∧
        Queued memory₀ (deliverChar env readChar s) done' pending' := by
  have hop := hq.ops r (by simp)
  have hlt : r.received.length < r.length := hq.short r (by simp)
  have hdelivers : Delivers s r.op readChar (deliverChar env readChar s) := by
    refine deliverChar_delivers readChar hq.head_eq ?_ ?_
    · rw [hop]
      exact decide_eq_false (Nat.ne_of_lt hlt)
    · rw [hop]
      exact hlt
  refine ⟨hdelivers, ?_⟩
  have hpush : (r.push readChar).received.length = r.received.length + 1 :=
    List.length_append
  have hlast : ((s.ops r.op).nbytes + 1 = (s.ops r.op).length) ↔
      (r.push readChar).received.length = r.length := by
    rw [hpush, hop]
    rfl
  have hnodup : ((done ++ r.push readChar :: rest).map Read.op).Nodup := by
    have h := hq.nodup
    rw [List.map_append, List.map_cons] at h ⊢
    exact h
  have hhead := hdelivers.head
  by_cases hfull : (r.push readChar).received.length = r.length
  · rw [if_pos (hlast.mpr hfull)] at hhead
    exact ⟨done ++ [r.push readChar], rest, by simp,
      hq.delivered_last hdelivers hnodup hfull hhead⟩
  · rw [if_neg fun h => hfull (hlast.mp h)] at hhead
    exact ⟨done, r.push readChar :: rest, rfl,
      hq.delivered_more hdelivers hnodup (by omega) hhead⟩

end Delivered

/-! ## Interrupts -/

theorem translate_settings (env : KeyboardEnv) (scancode : UInt8) (k : Keyboard) :
    (k.translate env scancode).2.translationEnabled = k.translationEnabled ∧
      (k.translate env scancode).2.scancodeSet = k.scancodeSet := by
  unfold Keyboard.translate
  split
  · exact ⟨rfl, rfl⟩
  · dsimp only
    generalize (if scancode &&& keyReleaseMask = 0 then scancode
      else scancode &&& ~~~keyReleaseMask) = readScancode
    split
    · cases modifierOf k.extendedRead readScancode with
      | none => exact ⟨rfl, rfl⟩
      | some modifier => exact ⟨rfl, rfl⟩
    · exact ⟨rfl, rfl⟩

/-- An interrupt is a change of the keyboard's own state, and then the character of the
key that was pressed, if one was. -/
theorem interrupt_cases (env : KeyboardEnv) (scancode : UInt8) (henabled : s.Enabled) :
    ∃ k, Input.Enabled { s with keyboard := k } ∧
      takeScancode env scancode s =
        match keyPress env scancode s with
        | some key => deliverChar env (env.kgetch key) { s with keyboard := k }
        | none => { s with keyboard := k } := by
  obtain ⟨htranslation, hset⟩ := translate_settings env scancode s.keyboard
  have henabled' : (s.keyboard.translate env scancode).2.translationEnabled ∨
      (s.keyboard.translate env scancode).2.scancodeSet = 1 := by
    rw [htranslation, hset]
    exact henabled
  unfold Input.Enabled at henabled
  unfold takeScancode keyPress
  rw [if_pos henabled]
  dsimp only
  by_cases hext : scancode = extendedScancode
  · have hreleased : ¬ scancode &&& keyReleaseMask = 0 := by
      rw [hext]
      decide
    rw [if_pos hext, if_neg hreleased]
    refine ⟨_, ?_, rfl⟩
    exact henabled'
  · rw [if_neg hext]
    by_cases hpressed : scancode &&& keyReleaseMask = 0
    · rw [if_pos hpressed, if_pos hpressed, decide_eq_true hpressed]
      refine ⟨_, ?_, rfl⟩
      exact henabled'
    · rw [if_neg hpressed, if_neg hpressed]
      refine ⟨_, ?_, rfl⟩
      exact henabled'

theorem Queued.keyboard (hq : Queued memory₀ s done pending) (k : Keyboard) :
    Queued memory₀ { s with keyboard := k } done pending :=
  ⟨hq.nodup, hq.ops, hq.complete, hq.short, hq.empty, hq.chain, hq.tail, hq.memory⟩

/-! ## Runs -/

/-- What a read asked for. -/
def Read.request (r : Read) : Read := { r with received := [] }

/-- One step: the reads stay, an added one is new, and what they got grows by the
character of a key pressed while the queue is not empty. -/
structure ReadsStep (memory₀ : Nat → UInt8) (env : KeyboardEnv) (s : Input) (reads : List Read)
    (i : KeyInput) (t : Input) (done' pending' : List Read) : Prop where
  queued   : Queued memory₀ t done' pending'
  enabled  : t.Enabled
  requests : (done' ++ pending').map Read.request = reads.map Read.request ++ addedReads [i]
  received : (done' ++ pending').flatMap Read.received =
    reads.flatMap Read.received ++ queuedKey env s i

theorem Queued.step (env : KeyboardEnv) (hq : Queued memory₀ s done pending) (henabled : s.Enabled)
    {i : KeyInput}
    (hnew : ∀ r ∈ addedReads [i], r.op ∉ (done ++ pending).map Read.op ∧ 1 ≤ r.length) :
    ∃ t done' pending', s.exec env i = .ok t ∧
      ReadsStep memory₀ env s (done ++ pending) i t done' pending' := by
  cases i with
  | addOperation op length bufferVirtual =>
    obtain ⟨hop, hlength⟩ := hnew ⟨op, length, bufferVirtual, []⟩ (List.mem_singleton_self _)
    obtain ⟨t, hexec, hqueued, hkeyboard⟩ := hq.add env bufferVirtual hop hlength
    refine ⟨t, done, _, hexec, hqueued, ?_, ?_, ?_⟩
    · unfold Input.Enabled
      rw [hkeyboard]
      exact henabled
    · rw [← List.append_assoc, List.map_append]
      rfl
    · rw [← List.append_assoc, List.flatMap_append]
      rfl
  | interrupt scancode =>
    obtain ⟨k, hk, hhandle⟩ := interrupt_cases env scancode henabled
    have hqk := hq.keyboard k
    refine ⟨takeScancode env scancode s, ?_⟩
    cases hpress : keyPress env scancode s with
    | none =>
      rw [hpress] at hhandle
      dsimp only at hhandle
      refine ⟨done, pending, rfl, hhandle ▸ hqk, hhandle ▸ hk, (List.append_nil _).symm, ?_⟩
      unfold queuedKey
      dsimp only
      rw [hpress]
      simp
    | some key =>
      rw [hpress] at hhandle
      dsimp only at hhandle
      cases pending with
      | nil =>
        -- no read is waiting
        have hnone : s.opHead = none := hq.chain
        have hidle : deliverChar env (env.kgetch key) { s with keyboard := k } =
            { s with keyboard := k } := by
          unfold deliverChar
          rw [show ({ s with keyboard := k } : Input).opHead = none from hnone]
        rw [hidle] at hhandle
        refine ⟨done, [], rfl, hhandle ▸ hqk, hhandle ▸ hk, (List.append_nil _).symm, ?_⟩
        unfold queuedKey
        rw [hnone]
        simp
      | cons r rest =>
        have hsome : s.opHead = some r.op := hq.head_eq
        obtain ⟨hdelivers, done', pending', happend, hqueued⟩ :=
          hqk.deliver env (env.kgetch key)
        refine ⟨done', pending', rfl, hhandle ▸ hqueued, ?_, ?_, ?_⟩
        · rw [hhandle]
          unfold Input.Enabled
          rw [hdelivers.keyboard]
          exact hk
        · rw [happend]
          simp [Read.push, Read.request, addedReads]
        · have hrest : rest.flatMap Read.received = [] :=
            List.flatMap_eq_nil_iff.mpr fun r' hr' => hq.empty r' hr'
          unfold queuedKey
          dsimp only
          rw [happend, hpress, hsome]
          simp [Read.push, hrest]

theorem addedReads_cons (i : KeyInput) (inputs : List KeyInput) :
    addedReads (i :: inputs) = addedReads [i] ++ addedReads inputs := by
  cases i with
  | addOperation op length bufferVirtual => rfl
  | interrupt scancode => rfl

theorem map_op_request (reads : List Read) :
    (reads.map Read.request).map Read.op = reads.map Read.op := by
  rw [List.map_map]
  rfl

/-- A run from a state that holds reads, to one that holds these and the added ones. -/
theorem run_queued (env : KeyboardEnv) {inputs : List KeyInput} (hq : Queued memory₀ s done pending)
    (henabled : s.Enabled)
    (hnodup : ((done ++ pending).map Read.op ++ (addedReads inputs).map Read.op).Nodup)
    (hlength : ∀ r ∈ addedReads inputs, 1 ≤ r.length) :
    ∃ t done' pending', inputs.foldlM (Input.exec env) s = .ok t ∧
      Queued memory₀ t done' pending' ∧ t.Enabled ∧
      (done' ++ pending').map Read.request =
        (done ++ pending).map Read.request ++ addedReads inputs ∧
      (done' ++ pending').flatMap Read.received =
        (done ++ pending).flatMap Read.received ++ keysQueued env s inputs := by
  induction inputs generalizing s done pending with
  | nil =>
    exact ⟨s, done, pending, rfl, hq, henabled, (List.append_nil _).symm, (List.append_nil _).symm⟩
  | cons i inputs ih =>
    rw [addedReads_cons] at hnodup hlength
    -- the request of this input is none of those before
    have hnew : ∀ r ∈ addedReads [i], r.op ∉ (done ++ pending).map Read.op ∧ 1 ≤ r.length := by
      intro r hr
      refine ⟨fun hop => ?_, hlength r (List.mem_append_left _ hr)⟩
      refine (List.nodup_append'.mp hnodup).2.2 hop ?_
      exact List.mem_map_of_mem (List.mem_append_left _ hr)
    obtain ⟨u, done₁, pending₁, hexec, hstep⟩ := hq.step env henabled hnew
    -- the requests after it are those before and its own
    have hops : (done₁ ++ pending₁).map Read.op =
        (done ++ pending).map Read.op ++ (addedReads [i]).map Read.op := by
      rw [← map_op_request, hstep.requests, List.map_append, map_op_request]
    obtain ⟨t, done', pending', hrun, hqueued, htenabled, hrequests, hreceived⟩ :=
      ih hstep.queued hstep.enabled
        (by rw [hops, List.append_assoc, ← List.map_append]; exact hnodup)
        (fun r hr => hlength r (List.mem_append_right _ hr))
    refine ⟨t, done', pending', ?_, hqueued, htenabled, ?_, ?_⟩
    · rw [List.foldlM_cons, hexec]
      exact hrun
    · rw [hrequests, hstep.requests, addedReads_cons i inputs, List.append_assoc]
    · rw [hreceived, hstep.received, keysQueued, hexec, List.append_assoc]

/-- What holds after the inputs of a run, of the reads `reads` with what they have got. -/
structure FifoReads (env : KeyboardEnv) (s : Input) (inputs : List KeyInput) (t : Input)
    (reads : List Read) : Prop where
  /-- the reads are those added, in that order -/
  requests : reads.map Read.request = addedReads inputs
  /-- what they got, one after the other, are the keys pressed while the queue was not
  empty -/
  received : reads.flatMap Read.received = keysQueued env s inputs
  /-- nothing goes to a read before those ahead of it are complete -/
  ordered  : reads.Pairwise fun r r' => r.received.length < r.length → r'.received = []
  nbytes   : ∀ r ∈ reads, (t.ops r.op).nbytes = r.received.length
  atMost   : ∀ r ∈ reads, r.received.length ≤ r.length
  read     : ∀ r ∈ reads, (t.ops r.op).read = true ↔ r.received.length = r.length
  /-- the bytes are in memory, each where it belongs -/
  memory   : t.memory = (reads.flatMap Read.stores).foldl storeByte s.memory
  /-- a key pressed now would go to the oldest read that is not complete, and to no other -/
  next     : ∀ r, reads.find? (fun r => r.received.length < r.length) = some r →
    ∀ scancode key, keyPress env scancode t = some key →
      ∃ u, t.exec env (.interrupt scancode) = .ok u ∧
        (u.ops r.op).nbytes = r.received.length + 1 ∧
        u.memory = storeByte t.memory
          ((r.bufferVirtual + r.received.length) % 2 ^ 64, env.kgetch key) ∧
        ∀ op, op ≠ r.op → u.ops op = t.ops op

theorem Queued.ordered (hq : Queued memory₀ s done pending) :
    (done ++ pending).Pairwise fun r r' => r.received.length < r.length → r'.received = [] := by
  refine List.pairwise_append.mpr ⟨?_, ?_, fun r hr r' hr' hlt => ?_⟩
  · refine List.Pairwise.imp_of_mem (R := fun _ _ => True) (fun {r r'} hr _ _ hlt => ?_)
      (List.pairwise_of_forall fun _ _ => trivial)
    exact absurd (hq.complete r hr) (Nat.ne_of_lt hlt)
  · cases pending with
    | nil => exact List.Pairwise.nil
    | cons r rest =>
      refine List.pairwise_cons.mpr ⟨fun r' hr' _ => hq.empty r' hr', ?_⟩
      refine List.Pairwise.imp_of_mem (R := fun _ _ => True) (fun {_ r'} _ hr' _ _ => ?_)
        (List.pairwise_of_forall fun _ _ => trivial)
      exact hq.empty r' hr'
  · exact absurd (hq.complete r hr) (Nat.ne_of_lt hlt)

theorem Queued.find_pending (hq : Queued memory₀ s done pending) :
    (done ++ pending).find? (fun r => r.received.length < r.length) = pending.head? := by
  have hdone : done.find? (fun r => r.received.length < r.length) = none := by
    rw [List.find?_eq_none]
    intro r hr
    have := hq.complete r hr
    simp only [decide_eq_true_eq]
    omega
  rw [List.find?_append, hdone, Option.none_or]
  cases pending with
  | nil => rfl
  | cons r rest =>
    have := hq.short r List.mem_cons_self
    rw [List.find?_cons_of_pos (by simpa using this)]
    rfl

/-- As long as echo and messages do no harm: from an empty queue, whatever is added and whatever
keys come in, the reads get the keys in order, the first read all of its bytes, then the second,
none of them lost and none delivered twice. -/
theorem exec_reads_fifo (env : KeyboardEnv) {inputs : List KeyInput} (henabled : s.Enabled)
    (hempty : s.opHead = none) (hnew : NewReads inputs) :
    ∃ t reads, inputs.foldlM (Input.exec env) s = .ok t ∧ FifoReads env s inputs t reads := by
  obtain ⟨t, done, pending, hrun, hqueued, htenabled, hrequests, hreceived⟩ :=
    run_queued env (Queued.of_empty hempty) henabled hnew.nodup hnew.length
  refine ⟨t, done ++ pending, hrun, hrequests, hreceived, hqueued.ordered, ?_, hqueued.atMost, ?_,
    hqueued.memory, ?_⟩
  · intro r hr
    rw [hqueued.ops r hr]
    rfl
  · intro r hr
    rw [hqueued.ops r hr]
    exact decide_eq_true_iff
  -- the next key goes to the first request that is not complete, the head of the queue
  · intro r hfind scancode key hpress
    rw [hqueued.find_pending] at hfind
    obtain ⟨rest, rfl⟩ : ∃ rest, pending = r :: rest := by
      cases pending with
      | nil => cases hfind
      | cons r' rest =>
        injection hfind with hfind
        exact ⟨rest, by rw [hfind]⟩
    obtain ⟨k, -, hhandle⟩ := interrupt_cases env scancode htenabled
    rw [hpress] at hhandle
    obtain ⟨hdelivers, -⟩ := (hqueued.keyboard k).deliver env (env.kgetch key)
    have hop := hqueued.ops r (by simp)
    refine ⟨takeScancode env scancode t, rfl, ?_⟩
    rw [hhandle]
    dsimp only
    refine ⟨?_, ?_, hdelivers.others⟩
    · rw [hdelivers.served]
      show (t.ops r.op).nbytes + 1 = _
      rw [hop]
      rfl
    · rw [hdelivers.memory]
      show storeByte t.memory (((t.ops r.op).bufferVirtual + (t.ops r.op).nbytes) % 2 ^ 64, _) = _
      rw [hop]
      rfl

theorem Input.serve_allowed (env : KeyboardEnv) (s : Input) (i : KeyInput) (h : s.Allows env i) :
    s.serve env i = s.exec env i := by
  cases i with
  | addOperation op length bufferVirtual => rfl
  | interrupt scancode => exact if_pos h

theorem Input.allows_of_serve (env : KeyboardEnv) (s : Input) (i : KeyInput) (t : Input)
    (h : s.serve env i = .ok t) : s.Allows env i := by
  cases i with
  | addOperation op length bufferVirtual => trivial
  | interrupt scancode =>
    have hhandle : handleKeyboardInterrupt env scancode s = .ok t := h
    unfold handleKeyboardInterrupt at hhandle
    split_ifs at hhandle with hserved
    exact hserved

/-- A run goes on as long as each character that is handed over is shown on the screen, and the
message about each read that is complete fits. -/
theorem serve_run_iff (env : KeyboardEnv) {s t : Input} {inputs : List KeyInput} :
    inputs.foldlM (Input.serve env) s = .ok t ↔ inputs.foldlM (Input.exec env) s = .ok t ∧
      ∀ before scancode u, before ++ [.interrupt scancode] <+: inputs →
        before.foldlM (Input.exec env) s = .ok u → u.Served env scancode := by
  rw [foldlM_guarded_iff (Input.serve_allowed env) (Input.allows_of_serve env)]
  refine and_congr_right fun _ => ⟨fun h before scancode u => h before (.interrupt scancode) u, ?_⟩
  intro h before i u hprefix hu
  cases i with
  | addOperation op length bufferVirtual => trivial
  | interrupt scancode => exact h before scancode u hprefix hu

/-- **Keyboard reads.** From an empty queue, whatever is added and whatever keys come in, the reads
get the keys in order exactly if each character that is handed over is shown on the screen, and
the message about each read that is complete fits the buffer of the log. -/
theorem keyboard_reads_fifo (env : KeyboardEnv) {s : Input} {inputs : List KeyInput}
    (henabled : s.Enabled) (hempty : s.opHead = none) (hnew : NewReads inputs) :
    (∃ t reads, inputs.foldlM (Input.serve env) s = .ok t ∧ FifoReads env s inputs t reads) ↔
      ∀ before scancode u, before ++ [.interrupt scancode] <+: inputs →
        before.foldlM (Input.exec env) s = .ok u → u.Served env scancode := by
  constructor
  · rintro ⟨t, reads, hrun, -⟩
    exact ((serve_run_iff env).mp hrun).2
  · intro hserved
    obtain ⟨t, reads, hrun, hfifo⟩ := exec_reads_fifo env henabled hempty hnew
    exact ⟨t, reads, (serve_run_iff env).mpr ⟨hrun, hserved⟩, hfifo⟩

end Queue

def idleInput : Input where
  keyboard := ⟨fun _ => ⟨0, false, 0⟩, 0, 0, false, true, 2⟩
  ops := fun _ => ⟨0, 0, 0, false, none⟩
  opHead := none
  opTail := none
  memory := fun _ => 0
  console := blankConsole

/-- A read of two bytes and one of one byte, with three keys and a release between them. -/
def twoReads : List KeyInput :=
  [.addOperation 100 2 0x1000, .interrupt 0x1E, .addOperation 200 1 0x2000, .interrupt 0x9E,
    .interrupt 0x30, .interrupt 0x1F]

theorem keyboard_reads_fifo_twoReads :
    keysQueued codeKeys idleInput twoReads = [0x1E, 0x30, 0x1F] ∧
      ∃ t reads, twoReads.foldlM (Input.serve codeKeys) idleInput = .ok t ∧
        FifoReads codeKeys idleInput twoReads t reads := by
  obtain ⟨t, hrun, -⟩ : ∃ t, twoReads.foldlM (Input.serve codeKeys) idleInput = .ok t ∧ True := by
    decide +kernel
  exact ⟨by decide +kernel, (keyboard_reads_fifo (s := idleInput) codeKeys (.inl rfl) rfl
    ⟨by decide, by decide⟩).mpr ((serve_run_iff codeKeys).mp hrun).2⟩

/-- With no NUL behind the buffer of a read of one byte, its message does not fit; and after two
newlines on a screen of two lines, the next character is drawn below the screen. -/
theorem keyboard_reads_overrun :
    (∃ u, [.addOperation 100 1 0x1000].foldlM (Input.serve codeKeys)
        { idleInput with memory := fun _ => 97 } = .ok u ∧
      u.serve codeKeys (.interrupt 0x1E) = .error .outOfBounds) ∧
    ∃ u, [.addOperation 100 3 0x1000, .interrupt 10, .interrupt 10].foldlM (Input.serve codeKeys)
        idleInput = .ok u ∧
      u.serve codeKeys (.interrupt 0x1E) = .error .outOfBounds := by
  decide +kernel

end Dreamos64

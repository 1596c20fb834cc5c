import Dreamos64.Input.Keyboard
import Mathlib.Data.List.Induction

/-!
# Dreamos64 — the modifiers that are held

A keyboard sends bytes; a byte other than the prefix `E0` is the make or the break of a key,
which is known by its code and by whether the prefix came before it. `translate` keeps a bit
for each modifier in `current_modifiers`.

It looks at the prefix for `ctrl` and `alt`, and not for the other modifiers. So two kinds of
events are taken for a key that they do not belong to: the shifts with a prefix, which
keyboards send around other extended keys, and the codes of the GUI keys without one.

* `keyEvents`             — the events in a sequence of bytes;
* `translate_held`        — what one byte does to the bits;
* `feed_held`             — the bits after any sequence of bytes;
* `modifiers_tracked_iff` — the sequences in which every bit follows its own key.
-/

namespace Dreamos64

/-! ## Events -/

/-- The make or the break of a key. -/
structure KeyEvent where
  extended : Bool
  code     : UInt8
  make     : Bool
  deriving DecidableEq, Repr

/-- What a key is known by. -/
def KeyEvent.key (e : KeyEvent) : Bool × UInt8 := (e.extended, e.code)

/-- The event of a byte that is not the prefix. -/
def keyEvent (extended : Bool) (b : UInt8) : KeyEvent where
  extended := extended
  code := b &&& ~~~keyReleaseMask
  make := b &&& keyReleaseMask = 0

/-- The events of a sequence of bytes. A prefix belongs to the byte after it. -/
def keyEvents (extended : Bool) : List UInt8 → List KeyEvent
  | [] => []
  | b :: bytes =>
    if b = extendedScancode then keyEvents true bytes
    else keyEvent extended b :: keyEvents false bytes

/-- Whether the last byte was a prefix. -/
def extendedAfter (extended : Bool) (bytes : List UInt8) : Bool :=
  bytes.foldl (fun _ b => decide (b = extendedScancode)) extended

theorem keyEvents_append (extended : Bool) (l l' : List UInt8) :
    keyEvents extended (l ++ l') =
      keyEvents extended l ++ keyEvents (extendedAfter extended l) l' := by
  induction l generalizing extended with
  | nil => rfl
  | cons b l ih =>
    rw [List.cons_append, keyEvents, keyEvents, ih, ih]
    show _ = _ ++ keyEvents (extendedAfter (decide (b = extendedScancode)) l) l'
    by_cases hb : b = extendedScancode
    · rw [if_pos hb, if_pos hb, decide_eq_true hb]
    · rw [if_neg hb, if_neg hb, decide_eq_false hb, List.cons_append]

theorem keyEvents_append_prefix (extended : Bool) (bytes : List UInt8) :
    keyEvents extended (bytes ++ [extendedScancode]) = keyEvents extended bytes := by
  rw [keyEvents_append, keyEvents, if_pos rfl]
  exact List.append_nil _

theorem keyEvents_append_event (extended : Bool) (bytes : List UInt8) {b : UInt8}
    (hb : b ≠ extendedScancode) :
    keyEvents extended (bytes ++ [b]) =
      keyEvents extended bytes ++ [keyEvent (extendedAfter extended bytes) b] := by
  rw [keyEvents_append, keyEvents, if_neg hb]
  rfl

/-- Every event ends with a byte. -/
theorem keyEvents_split {extended : Bool} {bytes : List UInt8} {before after : List KeyEvent}
    {e : KeyEvent} (h : keyEvents extended bytes = before ++ e :: after) :
    ∃ l b, l ++ [b] <+: bytes ∧ b ≠ extendedScancode ∧ keyEvents extended l = before ∧
      e = keyEvent (extendedAfter extended l) b := by
  induction bytes generalizing extended before with
  | nil => exact absurd h.symm (List.append_ne_nil_of_right_ne_nil _ (List.cons_ne_nil _ _))
  | cons c bytes ih =>
    unfold keyEvents at h
    by_cases hc : c = extendedScancode
    -- a prefix: the event is one of the bytes behind it
    · rw [if_pos hc] at h
      obtain ⟨l, b, hprefix, hb, hbefore, he⟩ := ih h
      refine ⟨c :: l, b, List.cons_prefix_cons.mpr ⟨rfl, hprefix⟩, hb, ?_, ?_⟩
      · rw [keyEvents, if_pos hc, hbefore]
      · rw [he, extendedAfter, extendedAfter, List.foldl_cons, decide_eq_true hc]
    · rw [if_neg hc] at h
      cases before with
      | nil =>
        rw [List.nil_append, List.cons.injEq] at h
        exact ⟨[], c, List.cons_prefix_cons.mpr ⟨rfl, List.nil_prefix⟩, hc, rfl, h.1.symm⟩
      | cons first before =>
        rw [List.cons_append, List.cons.injEq] at h
        obtain ⟨l, b, hprefix, hb, hbefore, he⟩ := ih h.2
        refine ⟨c :: l, b, List.cons_prefix_cons.mpr ⟨rfl, hprefix⟩, hb, ?_, ?_⟩
        · rw [keyEvents, if_neg hc, hbefore, h.1]
        · rw [he, extendedAfter, extendedAfter, List.foldl_cons, decide_eq_false hc]

/-! ## Keys -/

/-- The physical key of a modifier. -/
def KeyModifiers.key : KeyModifiers → Bool × UInt8
  | .leftShift => (false, 0x2A)
  | .rightShift => (false, 0x36)
  | .leftAlt => (false, 0x38)
  | .rightAlt => (true, 0x38)
  | .leftCtrl => (false, 0x1D)
  | .rightCtrl => (true, 0x1D)
  | .leftGui => (true, 0x5B)
  | .rightGui => (true, 0x5C)

/-- The other key with the same code, where `translate` does not tell the two apart. -/
def KeyModifiers.mistaken : KeyModifiers → Option (Bool × UInt8)
  | .leftShift => some (true, 0x2A)
  | .rightShift => some (true, 0x36)
  | .leftGui => some (false, 0x5B)
  | .rightGui => some (false, 0x5C)
  | _ => none

/-- Whether the last event of the key of `m` was a make. -/
def lastMake (m : KeyModifiers) (events : List KeyEvent) : Bool :=
  ((events.filter fun e => e.key = m.key).getLast?.map KeyEvent.make).getD false

theorem lastMake_append_own {m : KeyModifiers} (events : List KeyEvent) {e : KeyEvent}
    (he : e.key = m.key) : lastMake m (events ++ [e]) = e.make := by
  have hfilter : [e].filter (fun e => decide (e.key = m.key)) = [e] :=
    List.filter_cons_of_pos (decide_eq_true he)
  rw [lastMake, List.filter_append, hfilter, List.getLast?_concat]
  rfl

theorem lastMake_append_other {m : KeyModifiers} (events : List KeyEvent) {e : KeyEvent}
    (he : e.key ≠ m.key) : lastMake m (events ++ [e]) = lastMake m events := by
  have hfilter : [e].filter (fun e => decide (e.key = m.key)) = [] :=
    List.filter_cons_of_neg fun h => he (of_decide_eq_true h)
  rw [lastMake, List.filter_append, hfilter, List.append_nil]
  rfl

theorem mistaken_code {m : KeyModifiers} {key : Bool × UInt8} (h : m.mistaken = some key) :
    key.2 = m.key.2 ∧ key.1 ≠ m.key.1 := by
  cases m <;> cases h <;> decide

/-- The events that `translate` takes for the key of a modifier. -/
theorem modifierOf_iff (m : KeyModifiers) (e : KeyEvent) :
    modifierOf e.extended e.code = some m ↔ e.key = m.key ∨ m.mistaken = some e.key := by
  obtain ⟨extended, code, make⟩ := e
  show modifierOf extended code = some m ↔
    (extended, code) = m.key ∨ m.mistaken = some (extended, code)
  constructor
  · intro h
    unfold modifierOf at h
    split at h
    · next hcode =>
      obtain rfl : code = 0x1D := UInt8.toNat_inj.mp hcode
      cases extended <;> cases h <;> decide
    · next hcode =>
      obtain rfl : code = 0x38 := UInt8.toNat_inj.mp hcode
      cases extended <;> cases h <;> decide
    · next hcode =>
      obtain rfl : code = 0x5B := UInt8.toNat_inj.mp hcode
      cases extended <;> cases h <;> decide
    · next hcode =>
      obtain rfl : code = 0x5C := UInt8.toNat_inj.mp hcode
      cases extended <;> cases h <;> decide
    · next hcode =>
      obtain rfl : code = 0x2A := UInt8.toNat_inj.mp hcode
      cases extended <;> cases h <;> decide
    · next hcode =>
      obtain rfl : code = 0x36 := UInt8.toNat_inj.mp hcode
      cases extended <;> cases h <;> decide
    · cases h
  · rintro (h | h)
    · cases m <;> cases h <;> decide
    · cases m <;> cases h <;> decide

/-! ## Bits -/

/-- The position of a modifier's bit. -/
def KeyModifiers.index : KeyModifiers → Nat
  | .leftShift => 0
  | .rightShift => 1
  | .leftAlt => 2
  | .rightAlt => 3
  | .leftCtrl => 4
  | .rightCtrl => 5
  | .leftGui => 6
  | .rightGui => 7

theorem KeyModifiers.toBitVec_bit (m : KeyModifiers) :
    m.bit.toBitVec = BitVec.twoPow 8 m.index := by
  cases m <;> rfl

theorem KeyModifiers.index_lt (m : KeyModifiers) : m.index < 8 := by
  cases m <;> decide

theorem KeyModifiers.index_inj {m m' : KeyModifiers} : m.index = m'.index ↔ m = m' := by
  constructor
  · intro h
    cases m <;> cases m' <;> first | rfl | cases h
  · exact congrArg KeyModifiers.index

theorem KeyModifiers.exists_index {i : Nat} (hi : i < 8) : ∃ m : KeyModifiers, m.index = i := by
  match i, hi with
  | 0, _ => exact ⟨.leftShift, rfl⟩
  | 1, _ => exact ⟨.rightShift, rfl⟩
  | 2, _ => exact ⟨.leftAlt, rfl⟩
  | 3, _ => exact ⟨.rightAlt, rfl⟩
  | 4, _ => exact ⟨.leftCtrl, rfl⟩
  | 5, _ => exact ⟨.rightCtrl, rfl⟩
  | 6, _ => exact ⟨.leftGui, rfl⟩
  | 7, _ => exact ⟨.rightGui, rfl⟩

/-- The bit of `m` is set. -/
def Held (modifiers : UInt8) (m : KeyModifiers) : Prop := modifiers &&& m.bit ≠ 0

theorem held_iff (modifiers : UInt8) (m : KeyModifiers) :
    Held modifiers m ↔ modifiers.toBitVec.getLsbD m.index = true := by
  unfold Held
  rw [← UInt8.toBitVec_inj.ne, UInt8.toBitVec_and, m.toBitVec_bit, BitVec.and_twoPow]
  split_ifs with hbit
  · refine iff_of_true (fun h => ?_) hbit
    have hzero := congrArg (fun x => x.getLsbD m.index) h
    simp [m.index_lt] at hzero
  · exact iff_of_false (fun h => h rfl) hbit

/-- There is a bit for every modifier, and there are no others. -/
theorem modifiers_ext {a b : UInt8} (h : ∀ m, Held a m ↔ Held b m) : a = b := by
  rw [← UInt8.toBitVec_inj]
  refine BitVec.eq_of_getLsbD_eq fun i hi => ?_
  obtain ⟨m, rfl⟩ := KeyModifiers.exists_index hi
  have hm := h m
  rw [held_iff, held_iff] at hm
  exact Bool.eq_iff_iff.mpr hm

/-- `update_modifiers` sets the bit of its modifier, and no other. -/
theorem updateModifiers_held (modifier m : KeyModifiers) (isPressed : Bool) (k : Keyboard) :
    Held (updateModifiers modifier isPressed k).currentModifiers m ↔
      if modifier = m then isPressed = true else Held k.currentModifiers m := by
  unfold updateModifiers
  rw [held_iff, held_iff]
  have hlt := m.index_lt
  cases isPressed with
  | true =>
    rw [if_pos rfl, UInt8.toBitVec_or, BitVec.getLsbD_or, modifier.toBitVec_bit,
      BitVec.getLsbD_twoPow]
    by_cases heq : modifier = m
    · simp [heq, hlt]
    · simp [heq, KeyModifiers.index_inj]
  | false =>
    rw [if_neg Bool.false_ne_true, UInt8.toBitVec_and, UInt8.toBitVec_not, BitVec.getLsbD_and,
      BitVec.getLsbD_not, modifier.toBitVec_bit, BitVec.getLsbD_twoPow]
    by_cases heq : modifier = m
    · simp [heq, hlt]
    · simp [heq, hlt, KeyModifiers.index_inj]

/-! ## Runs -/

/-- The keyboard after some bytes. -/
def Keyboard.feed (env : KeyboardEnv) (bytes : List UInt8) (k : Keyboard) : Keyboard :=
  bytes.foldl (fun k b => (k.translate env b).2) k

section Run

variable (env : KeyboardEnv)

theorem translate_prefix (k : Keyboard) :
    k.translate env extendedScancode = (extendedScancode, { k with extendedRead := true }) :=
  if_pos rfl

/-- A make is the code itself. -/
theorem make_code {b : UInt8} (h : b &&& keyReleaseMask = 0) : b &&& ~~~keyReleaseMask = b := by
  rw [← UInt8.toBitVec_inj] at h ⊢
  rw [UInt8.toBitVec_and, UInt8.toBitVec_not]
  rw [UInt8.toBitVec_and] at h
  refine BitVec.eq_of_getLsbD_eq fun i hi => ?_
  have hbit := congrArg (fun x => x.getLsbD i) h
  simp only [BitVec.getLsbD_and, UInt8.toBitVec_zero, BitVec.getLsbD_zero] at hbit
  rw [BitVec.getLsbD_and, BitVec.getLsbD_not, decide_eq_true hi, Bool.true_and]
  revert hbit
  cases b.toBitVec.getLsbD i <;> cases keyReleaseMask.toBitVec.getLsbD i <;> decide

/-- The codes of the modifiers are all below the limit. -/
theorem modifierOf_beyond (extended : Bool) {code : UInt8} (h : ¬ code < 0x60) :
    modifierOf extended code = none := by
  rw [UInt8.lt_iff_toNat_lt, show (0x60 : UInt8).toNat = 0x60 from rfl] at h
  unfold modifierOf
  split
  all_goals first
    | rfl
    | omega

/-- **One byte** sets the bit of the modifier that it is taken for, and no other. -/
theorem translate_held (k : Keyboard) {b : UInt8} (hb : b ≠ extendedScancode) (m : KeyModifiers) :
    Held (k.translate env b).2.currentModifiers m ↔
      if modifierOf k.extendedRead (keyEvent k.extendedRead b).code = some m
      then (keyEvent k.extendedRead b).make = true else Held k.currentModifiers m := by
  unfold Keyboard.translate
  rw [if_neg hb]
  have hcode : (if b &&& keyReleaseMask = 0 then b else b &&& ~~~keyReleaseMask) =
      b &&& ~~~keyReleaseMask := by
    split_ifs with hmake
    · exact (make_code hmake).symm
    · rfl
  dsimp only
  rw [hcode]
  unfold keyEvent
  dsimp only
  by_cases hlow : b &&& ~~~keyReleaseMask < 0x60
  · rw [if_pos hlow]
    dsimp only
    cases modifierOf k.extendedRead (b &&& ~~~keyReleaseMask) with
    | none => exact Iff.rfl
    | some modifier =>
      simp only [Option.some_inj]
      exact updateModifiers_held modifier m _ k
  · rw [if_neg hlow, modifierOf_beyond _ hlow]
    exact Iff.rfl

theorem translate_extendedRead (k : Keyboard) (b : UInt8) :
    (k.translate env b).2.extendedRead = decide (b = extendedScancode) := by
  unfold Keyboard.translate
  by_cases hb : b = extendedScancode
  · rw [if_pos hb, decide_eq_true hb]
  · rw [if_neg hb, decide_eq_false hb]
    dsimp only
    split_ifs <;> rfl

theorem feed_append (k : Keyboard) (bytes : List UInt8) (b : UInt8) :
    k.feed env (bytes ++ [b]) = ((k.feed env bytes).translate env b).2 := by
  rw [Keyboard.feed, List.foldl_append]
  rfl

theorem feed_extendedRead (k : Keyboard) (bytes : List UInt8) :
    (k.feed env bytes).extendedRead = extendedAfter k.extendedRead bytes := by
  unfold Keyboard.feed extendedAfter
  induction bytes generalizing k with
  | nil => rfl
  | cons b bytes ih =>
    rw [List.foldl_cons, List.foldl_cons, ih, translate_extendedRead]

/-- **The bits** after some bytes and one more, told from those before it. -/
theorem feed_held (k : Keyboard) (bytes : List UInt8) {b : UInt8} (hb : b ≠ extendedScancode)
    {e : KeyEvent} (he : e = keyEvent (extendedAfter k.extendedRead bytes) b) (m : KeyModifiers) :
    Held (k.feed env (bytes ++ [b])).currentModifiers m ↔
      if e.key = m.key ∨ m.mistaken = some e.key then e.make = true
      else Held (k.feed env bytes).currentModifiers m := by
  rw [feed_append, translate_held env _ hb, feed_extendedRead]
  subst he
  simp only [← modifierOf_iff]
  rfl

theorem feed_append_prefix (k : Keyboard) (bytes : List UInt8) :
    (k.feed env (bytes ++ [extendedScancode])).currentModifiers =
      (k.feed env bytes).currentModifiers := by
  rw [feed_append, translate_prefix]

end Run

/-! ## Tracking -/

/-- In every state that the bytes lead through, the bit of a modifier is set if the last event
of its own key was a make; and an event of any other key changes no bit. -/
structure TracksModifiers (env : KeyboardEnv) (k : Keyboard) (bytes : List UInt8) : Prop where
  held   : ∀ l, l <+: bytes → ∀ m,
    Held (k.feed env l).currentModifiers m ↔ lastMake m (keyEvents false l) = true
  others : ∀ l b e, l ++ [b] <+: bytes → keyEvents false (l ++ [b]) = keyEvents false l ++ [e] →
    (∀ m : KeyModifiers, e.key ≠ m.key) →
      (k.feed env (l ++ [b])).currentModifiers = (k.feed env l).currentModifiers

/-- Every event that `translate` mistakes for one of a modifier's key says what the last event
of that key has said already. -/
def StrayAgree (events : List KeyEvent) : Prop :=
  ∀ (m : KeyModifiers) before e after, events = before ++ e :: after →
    m.mistaken = some e.key → e.make = lastMake m before

section Tracks

variable {env : KeyboardEnv} {k : Keyboard} {bytes : List UInt8}

theorem StrayAgree.left {events events' : List KeyEvent} (h : StrayAgree (events ++ events')) :
    StrayAgree events := by
  intro m before e after hsplit
  refine h m before e (after ++ events') ?_
  rw [hsplit, List.append_assoc, List.cons_append]

/-- With strays that agree, the bits follow the keys. -/
theorem held_of_strayAgree (hmods : k.currentModifiers = 0) (hext : k.extendedRead = false)
    (h : StrayAgree (keyEvents false bytes)) (m : KeyModifiers) :
    Held (k.feed env bytes).currentModifiers m ↔ lastMake m (keyEvents false bytes) = true := by
  -- on the bytes, from the last one
  induction bytes using List.reverseRecOn with
  | nil =>
    show Held k.currentModifiers m ↔ false = true
    rw [hmods]
    exact iff_of_false (fun h => h (UInt8.zero_and)) Bool.false_ne_true
  | append_singleton bytes b ih =>
    by_cases hb : b = extendedScancode
    · rw [hb, feed_append_prefix, keyEvents_append_prefix]
      rw [hb, keyEvents_append_prefix] at h
      exact ih h
    · have hevent := keyEvents_append_event false bytes hb
      rw [hevent] at h ⊢
      rw [feed_held env k bytes hb rfl, hext]
      generalize keyEvent (extendedAfter false bytes) b = e at h ⊢
      by_cases hown : e.key = m.key
      · rw [if_pos (Or.inl hown), lastMake_append_own _ hown]
      · rw [lastMake_append_other _ hown]
        by_cases hstray : m.mistaken = some e.key
        · rw [if_pos (Or.inr hstray), h m _ e [] rfl hstray]
        · rw [if_neg (not_or.mpr ⟨hown, hstray⟩)]
          exact ih h.left

theorem TracksModifiers.of_strayAgree (hmods : k.currentModifiers = 0)
    (hext : k.extendedRead = false) (h : StrayAgree (keyEvents false bytes)) :
    TracksModifiers env k bytes := by
  have hheld : ∀ l, l <+: bytes → ∀ m,
      Held (k.feed env l).currentModifiers m ↔ lastMake m (keyEvents false l) = true := by
    rintro l ⟨rest, rfl⟩ m
    rw [keyEvents_append] at h
    exact held_of_strayAgree hmods hext h.left m
  refine ⟨hheld, fun l b e hprefix hevent hother => ?_⟩
  refine modifiers_ext fun m => ?_
  rw [hheld _ hprefix, hheld l ((List.prefix_append l [b]).trans hprefix), hevent,
    lastMake_append_other _ (hother m)]

theorem TracksModifiers.strayAgree (hext : k.extendedRead = false)
    (h : TracksModifiers env k bytes) : StrayAgree (keyEvents false bytes) := by
  intro m before e after hsplit hstray
  obtain ⟨l, b, hprefix, hb, rfl, he⟩ := keyEvents_split hsplit
  have hother : e.key ≠ m.key := fun hown => (mistaken_code hstray).2 (congrArg Prod.fst hown)
  have hheld := h.held _ hprefix m
  -- the bit is what the stray event says, and should be what the key said before
  rw [feed_held env k l hb (e := e) (by rw [he, hext]), if_pos (Or.inr hstray),
    keyEvents_append_event false l hb, ← he, lastMake_append_other _ hother] at hheld
  exact Bool.eq_iff_iff.mpr hheld

end Tracks

/-- **Every bit follows its own key** through a sequence of bytes, unless an event that only
looks like one of the key says otherwise. -/
theorem modifiers_tracked_iff (env : KeyboardEnv) {k : Keyboard} (hmods : k.currentModifiers = 0)
    (hext : k.extendedRead = false) (bytes : List UInt8) :
    TracksModifiers env k bytes ↔ StrayAgree (keyEvents false bytes) :=
  ⟨TracksModifiers.strayAgree hext, TracksModifiers.of_strayAgree hmods hext⟩

/-- A keyboard on which no key has been pressed yet. -/
def freshKeyboard : Keyboard where
  keyboardBuffer := fun _ => ⟨0, false, 0⟩
  bufPosition := 0
  currentModifiers := 0
  extendedRead := false
  translationEnabled := true
  scancodeSet := 1

/-- Left shift held for an `a`, and the right `ctrl` with its prefix. -/
theorem modifiers_tracked_plain :
    TracksModifiers codeKeys freshKeyboard [0x2A, 0x1E, 0x9E, 0xAA, 0xE0, 0x1D] := by
  refine (modifiers_tracked_iff codeKeys rfl rfl _).mpr ?_
  intro m before e after hsplit hstray
  have hmem : e ∈ keyEvents false [0x2A, 0x1E, 0x9E, 0xAA, 0xE0, 0x1D] := by
    rw [hsplit]
    exact List.mem_append_right before List.mem_cons_self
  -- none of these is a shift with a prefix or a GUI key without one
  have hnone : ∀ m : KeyModifiers, ∀ e ∈ keyEvents false [0x2A, 0x1E, 0x9E, 0xAA, 0xE0, 0x1D],
      m.mistaken ≠ some e.key := by
    intro m
    cases m <;> decide
  exact absurd hstray (hnone m e hmem)

/-- The shift that a keyboard sends before an extended key, with no key held. -/
theorem modifiers_fake_shift :
    Held (freshKeyboard.feed codeKeys [0xE0, 0x2A]).currentModifiers .leftShift ∧
      ¬ TracksModifiers codeKeys freshKeyboard [0xE0, 0x2A] := by
  have hheld : Held (freshKeyboard.feed codeKeys [0xE0, 0x2A]).currentModifiers .leftShift := by
    unfold Held
    decide
  refine ⟨hheld, fun h => ?_⟩
  exact absurd ((h.held _ (List.prefix_refl _) .leftShift).mp hheld) (by decide)

end Dreamos64

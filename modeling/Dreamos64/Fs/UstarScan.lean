import Dreamos64.Fs.Ustar

/-!
# Dreamos64 — scanning an archive

The loops of `ustar_seek` and `ustar_find`, on any memory. Both walk from header to header
(`nextItem`) until they come to a zero block or to the name that is looked for (`ScanEnds`).
A zero block is looked at until it was counted twice, so that no header is ever looked at with
one counted: where the two loops differ, they do the same.

* `ustarSeek_eq`, `ustarFind_eq` — what the loops give, by the first header that ends the walk;
* `ustar_find_agrees`            — `ustar_find` finds what `ustar_seek` finds, and its result is
  the number of entries before it exactly if that is below `2 ^ 32` and the name can be logged;
* `ustar_scan_terminates_iff`    — the scan of a finite archive moves forward and ends exactly
  if all sizes that it comes to are in range, and a name that is found can be logged.
-/

namespace Dreamos64

open Machine

section Scan

variable (mem : Memory) (filename : CString)

/-- Where the next header is. -/
def nextItem (tarItem : Int) : Int := tarItem + itemStep (itemFilesize mem tarItem)

/-- A zero block, or the name that is looked for. -/
def ScanEnds (tarItem : Int) : Prop :=
  ustarIsZeroed mem tarItem = true ∨ strcmp filename (mem.ptr tarItem) = 0

instance (tarItem : Int) : Decidable (ScanEnds mem filename tarItem) :=
  inferInstanceAs (Decidable (_ ∨ _))

/-- The scan from `tarRoot` comes to the header `item` and goes on. -/
def PassedOver (tarRoot item : Int) : Prop :=
  ∃ n, (nextItem mem)^[n] tarRoot = item ∧
    ∀ m ≤ n, ¬ ScanEnds mem filename ((nextItem mem)^[m] tarRoot)

/-- `n` entries precede the header `item` in the archive: the walk comes to it after `n` headers,
for the first time, and none of these is a zero block. -/
structure Preceded (tarRoot item : Int) (n : Nat) : Prop where
  first   : FirstStop (nextItem mem) (· = item) tarRoot n
  entries : ∀ m < n, ustarIsZeroed mem ((nextItem mem)^[m] tarRoot) = false

/-! ## The two loops -/

/-- What `ustar_seek` does with a header that does not end the scan. -/
def seekNext (s : Nat × Int) : Nat × Int := (s.1, nextItem mem s.2)

/-- What `ustar_find` does with one. -/
def findNext (s : FindState) : FindState := ⟨(s.counter + 1) % 2 ^ 32, 0, nextItem mem s.tarItem⟩

variable {mem filename} {tarRoot : Int} {n fuel : Nat}

theorem seekNext_iterate (n : Nat) (item : Int) :
    (seekNext mem)^[n] (0, item) = (0, (nextItem mem)^[n] item) := by
  induction n with
  | zero => rfl
  | succ n ih => rw [Function.iterate_succ_apply', ih, seekNext, Function.iterate_succ_apply']

theorem findNext_iterate (n : Nat) (item : Int) :
    (findNext mem)^[n] ⟨0, 0, item⟩ = ⟨n % 2 ^ 32, 0, (nextItem mem)^[n] item⟩ := by
  induction n with
  | zero => rfl
  | succ n ih =>
    have hcounter : (n % 2 ^ 32 + 1) % 2 ^ 32 = (n + 1) % 2 ^ 32 := by omega
    rw [Function.iterate_succ_apply', ih, findNext, Function.iterate_succ_apply', hcounter]

/-- The walk of `ustar_seek` goes on at an entry with another name, no zero block counted. -/
theorem ustarSeekBody_next (s : Nat × Int) (h : ¬ (s.1 ≠ 0 ∨ ScanEnds mem filename s.2)) :
    ustarSeekBody mem filename s = .ok (.next (seekNext mem s)) := by
  obtain ⟨hzero, hends⟩ := not_or.mp h
  obtain ⟨hitem, hname⟩ := not_or.mp hends
  have hcount : s.1 < 2 := by omega
  unfold ustarSeekBody
  dsimp only
  rw [if_pos hcount, if_neg hitem, if_neg hname]
  rfl

theorem ustarSeekBody_zero {nZeroItems : Nat} {tarItem : Int} (hcount : nZeroItems < 2)
    (hitem : ustarIsZeroed mem tarItem = true) :
    ustarSeekBody mem filename (nZeroItems, tarItem) = .ok (.next (nZeroItems + 1, tarItem)) := by
  unfold ustarSeekBody
  dsimp only
  rw [if_pos hcount, if_pos hitem]

theorem ustarSeekBody_found {tarItem : Int} (hitem : ¬ ustarIsZeroed mem tarItem = true)
    (hname : strcmp filename (mem.ptr tarItem) = 0) :
    ustarSeekBody mem filename (0, tarItem) = .ok (.done (some tarItem)) := by
  unfold ustarSeekBody
  dsimp only
  rw [if_pos (by decide), if_neg hitem, if_pos hname]

theorem ustarFindBody_next (s : FindState)
    (h : ¬ (s.nZeroItems ≠ 0 ∨ ScanEnds mem filename s.tarItem)) :
    ustarFindBody mem filename s = .ok (.next (findNext mem s)) := by
  obtain ⟨hzero, hends⟩ := not_or.mp h
  obtain ⟨hitem, hname⟩ := not_or.mp hends
  have hcount : s.nZeroItems < 2 := by omega
  unfold ustarFindBody
  dsimp only
  rw [if_pos hcount, if_neg hitem, if_neg hname]
  rfl

theorem ustarFindBody_zero {counter nZeroItems : Nat} {tarItem : Int} (hcount : nZeroItems < 2)
    (hitem : ustarIsZeroed mem tarItem = true) :
    ustarFindBody mem filename ⟨counter, nZeroItems, tarItem⟩ =
      .ok (.next ⟨(counter + 1) % 2 ^ 32, nZeroItems + 1, tarItem⟩) := by
  unfold ustarFindBody
  dsimp only
  rw [if_pos hcount, if_pos hitem]

theorem ustarFindBody_found (counter : Nat) {tarItem : Int}
    (hitem : ¬ ustarIsZeroed mem tarItem = true)
    (hname : strcmp filename (mem.ptr tarItem) = 0) :
    ustarFindBody mem filename ⟨counter, 0, tarItem⟩ =
      (loglinef .verbose (foundMessage filename.strlen) >>= fun _ =>
        .ok (.done (counter, some tarItem))) := by
  -- the name that is logged is the one that was looked for
  have hmessage : loglinef .verbose (foundMessage (loggedLength (mem.ptr tarItem))) = _ :=
    loglinef_string ((strcmp_zero _ _).mp hname)
  rw [filename.length_chars] at hmessage
  unfold ustarFindBody
  dsimp only
  rw [if_pos (by decide), if_neg hitem, if_pos hname, hmessage]
  rfl

/-- The states that `ustar_seek` passes do not end it. -/
theorem seek_goes_on {m : Nat} (h : ¬ ScanEnds mem filename ((nextItem mem)^[m] tarRoot)) :
    ¬ (((seekNext mem)^[m] (0, tarRoot)).1 ≠ 0 ∨
      ScanEnds mem filename ((seekNext mem)^[m] (0, tarRoot)).2) := by
  rw [seekNext_iterate]
  exact not_or.mpr ⟨fun hne => hne rfl, h⟩

theorem find_goes_on {m : Nat} (h : ¬ ScanEnds mem filename ((nextItem mem)^[m] tarRoot)) :
    ¬ (((findNext mem)^[m] ⟨0, 0, tarRoot⟩).nZeroItems ≠ 0 ∨
      ScanEnds mem filename ((findNext mem)^[m] ⟨0, 0, tarRoot⟩).tarItem) := by
  rw [findNext_iterate]
  exact not_or.mpr ⟨fun hne => hne rfl, h⟩

/-- **`ustar_seek`** gives the header that ends the walk, unless it is a zero block. -/
theorem ustarSeek_eq (h : FirstStop (nextItem mem) (ScanEnds mem filename) tarRoot n) :
    ustarSeek (n + 3) mem filename tarRoot =
      .ok (if ustarIsZeroed mem ((nextItem mem)^[n] tarRoot) then none
        else some ((nextItem mem)^[n] tarRoot)) := by
  have hwalk : ustarSeek (n + 3) mem filename tarRoot = _ :=
    loop_walk ustarSeekBody_next fun m hm => seek_goes_on (h.before m hm)
  have hends := h.stops
  rw [hwalk, seekNext_iterate]
  generalize (nextItem mem)^[n] tarRoot = item at hends ⊢
  split_ifs with hitem
  · -- the zero block is counted twice
    rw [loop_next (ustarSeekBody_zero (by decide) hitem),
      loop_next (ustarSeekBody_zero (by decide) hitem)]
    rfl
  -- a header that ends the walk and is no zero block has the name
  · exact loop_done (ustarSeekBody_found hitem (hends.resolve_left hitem))

/-- Where `ustar_find` gets: the counter has been increased once for each header passed. -/
theorem ustarFind_walk (h : FirstStop (nextItem mem) (ScanEnds mem filename) tarRoot n)
    (fuel : Nat) :
    ustarFind (n + fuel) mem filename tarRoot =
      loop (ustarFindBody mem filename) fuel ⟨n % 2 ^ 32, 0, (nextItem mem)^[n] tarRoot⟩ := by
  rw [← findNext_iterate]
  exact loop_walk ustarFindBody_next fun m hm => find_goes_on (h.before m hm)

/-- **`ustar_find`** gives the same header, and the number of turns before it, if the message
that it was found fits. -/
theorem ustarFind_eq (h : FirstStop (nextItem mem) (ScanEnds mem filename) tarRoot n)
    (hfits : ¬ ustarIsZeroed mem ((nextItem mem)^[n] tarRoot) = true →
      foundMessage filename.strlen < formatBufferLen) :
    ustarFind (n + 3) mem filename tarRoot =
      .ok (if ustarIsZeroed mem ((nextItem mem)^[n] tarRoot) then (-1, none)
        else (((n % 2 ^ 32 : Nat) : Int), some ((nextItem mem)^[n] tarRoot))) := by
  have hends := h.stops
  rw [ustarFind_walk h]
  generalize (nextItem mem)^[n] tarRoot = item at hends hfits ⊢
  split_ifs with hitem
  · rw [loop_next (ustarFindBody_zero (by decide) hitem),
      loop_next (ustarFindBody_zero (by decide) hitem)]
    rfl
  · have hbody := ustarFindBody_found (n % 2 ^ 32) hitem (hends.resolve_left hitem)
    rw [loglinef_fits (hfits hitem), ok_bind] at hbody
    exact loop_done hbody

/-- Where `ustar_find` returned, the message was not too long. -/
theorem ustarFind_fits {r : Int × Option Int}
    (h : FirstStop (nextItem mem) (ScanEnds mem filename) tarRoot n)
    (hitem : ¬ ustarIsZeroed mem ((nextItem mem)^[n] tarRoot) = true)
    (hfind : ustarFind fuel mem filename tarRoot = .ok r) :
    foundMessage filename.strlen < formatBufferLen := by
  have hmore : ustarFind (n + (fuel + 1)) mem filename tarRoot = .ok r :=
    loop_mono (by omega) hfind
  have hbody := ustarFindBody_found (n % 2 ^ 32) hitem (h.stops.resolve_left hitem)
  rw [ustarFind_walk h, loop_succ, hbody] at hmore
  cases hlog : loglinef .verbose (foundMessage filename.strlen) with
  | error e =>
    rw [hlog] at hmore
    cases hmore
  | ok => exact loglinef_inv hlog

/-- A scan that returned has come to the end of its walk. -/
theorem ustarSeek_stops {r : Option Int} (h : ustarSeek fuel mem filename tarRoot = .ok r) :
    ∃ n, FirstStop (nextItem mem) (ScanEnds mem filename) tarRoot n := by
  refine FirstStop.of_exists ?_
  -- otherwise the loop would go on for any fuel
  by_contra hnone
  have hforever := loop_walk_forever (s := (0, tarRoot)) ustarSeekBody_next
    (fun m => seek_goes_on fun hm => hnone ⟨m, hm⟩) fuel
  unfold ustarSeek at h
  rw [hforever] at h
  cases h

/-- Two results of `ustar_seek` are the same, whatever the fuel was. -/
theorem ustarSeek_result {r : Option Int}
    (hstop : FirstStop (nextItem mem) (ScanEnds mem filename) tarRoot n)
    (h : ustarSeek fuel mem filename tarRoot = .ok r) :
    r = if ustarIsZeroed mem ((nextItem mem)^[n] tarRoot) then none
      else some ((nextItem mem)^[n] tarRoot) :=
  loop_det h (ustarSeek_eq hstop)

/-- What `ustar_seek` found has the name. -/
theorem ustarSeek_found {item : Int} (h : ustarSeek fuel mem filename tarRoot = .ok (some item)) :
    strcmp filename (mem.ptr item) = 0 := by
  obtain ⟨n, hstop⟩ := ustarSeek_stops h
  have hresult := ustarSeek_result hstop h
  split_ifs at hresult with hzero
  cases hresult
  exact hstop.stops.resolve_left hzero

/-! ## Both find the same -/

/-- The header that the scan finds is preceded by those it passed. -/
theorem preceded_of_stop (h : FirstStop (nextItem mem) (ScanEnds mem filename) tarRoot n) :
    Preceded mem tarRoot ((nextItem mem)^[n] tarRoot) n where
  first := {
    stops := rfl
    before := fun m hm heq => h.before m hm (heq ▸ h.stops) }
  entries := fun m hm => eq_false_of_ne_true fun hzero => h.before m hm (.inl hzero)

/-- **The two searches agree.** `ustar_find` stores what `ustar_seek` returns, and returns the
number of entries before it, exactly if the message that it was found fits the buffer of the log,
and the counter did not wrap. -/
theorem ustar_find_agrees {mem : Memory} {filename : CString} {tarRoot : Int} {fuel : Nat}
    {found : Option Int} (hends : ustarSeek fuel mem filename tarRoot = .ok found) :
    (∃ fuel result, ustarFind fuel mem filename tarRoot = .ok (result, found) ∧
        ∀ item, found = some item → ∃ n : Nat, Preceded mem tarRoot item n ∧ result = n) ↔
      ∀ item, found = some item → foundMessage filename.strlen < formatBufferLen ∧
        ∀ n, Preceded mem tarRoot item n → n < 2 ^ 32 := by
  obtain ⟨n, hstop⟩ := ustarSeek_stops hends
  have hfound := ustarSeek_result hstop hends
  have hpreceded := preceded_of_stop hstop
  split_ifs at hfound with hitem
  · -- absent: there is nothing to count
    subst hfound
    have hfind := ustarFind_eq hstop fun h => absurd hitem h
    rw [if_pos hitem] at hfind
    exact iff_of_true ⟨_, _, hfind, fun item hnone => nomatch hnone⟩
      fun item hnone => nomatch hnone
  · subst hfound
    constructor
    · rintro ⟨fuel', result, hresult, hcount⟩ item hsome
      cases hsome
      have hfits := ustarFind_fits hstop hitem hresult
      have hfind := ustarFind_eq hstop fun _ => hfits
      rw [if_neg hitem] at hfind
      refine ⟨hfits, fun k hk => ?_⟩
      obtain ⟨j, hj, heq⟩ := hcount _ rfl
      -- the number of entries before it is unique, and the counter is below `2 ^ 32`
      have hsame := hk.first.unique hj.first
      have hvalue := (Prod.mk.inj (loop_det hresult hfind)).1
      omega
    · intro hsmall
      obtain ⟨hfits, hcount⟩ := hsmall _ rfl
      have hfind := ustarFind_eq hstop fun _ => hfits
      rw [if_neg hitem] at hfind
      refine ⟨_, _, hfind, fun item hsome => ?_⟩
      cases hsome
      exact ⟨n, hpreceded, by rw [Nat.mod_eq_of_lt (hcount n hpreceded)]⟩

/-- Where the archives of the examples begin. -/
def exampleRoot : Nat := 0x1000

/-- An archive of one entry, with a few bytes of its header and its data; zeros elsewhere. -/
def oneEntry (name : List UInt8) (fileMode : UInt8) (fileSize data : List UInt8) : Memory :=
  fun a =>
  let offset := a - exampleRoot
  if offset < 0 then 0
  else if offset < 100 then name.getD offset.toNat 0
  else if offset = 100 then fileMode
  else if 124 ≤ offset ∧ offset < 136 then fileSize.getD (offset - 124).toNat 0
  else if offset = 156 then '0'.toNat.toUInt8
  else if 512 ≤ offset then data.getD (offset - 512).toNat 0
  else 0

/-- Nothing follows the data. -/
theorem oneEntry_top {name fileSize data : List UInt8} {fileMode : UInt8} {a : Int}
    (ha : (exampleRoot : Int) + 512 + data.length ≤ a) :
    oneEntry name fileMode fileSize data a = 0 := by
  unfold oneEntry
  dsimp only
  rw [if_neg (by omega), if_neg (by omega), if_neg (by omega), if_neg (by omega),
    if_neg (by omega), if_pos (by omega)]
  exact List.getD_eq_default _ _ (by omega)

/-- A size field of zeros. -/
def noSize : List UInt8 := List.replicate 11 48

/-- The first entry has none before it. -/
theorem ustar_find_first_entry :
    let mem := oneEntry [97] 0 noSize []
    ustarSeek 1 mem (.ofBytes [97]) exampleRoot = .ok (some exampleRoot) ∧
      ∃ fuel result, ustarFind fuel mem (.ofBytes [97]) exampleRoot =
          .ok (result, some exampleRoot) ∧
        ∀ item, some (exampleRoot : Int) = some item →
          ∃ n : Nat, Preceded mem exampleRoot item n ∧ result = n := by
  intro mem
  have hseek : ustarSeek 1 mem (.ofBytes [97]) exampleRoot = .ok (some exampleRoot) := by
    decide +kernel
  refine ⟨hseek, (ustar_find_agrees hseek).mpr fun item hitem =>
    ⟨by decide +kernel, fun n hn => ?_⟩⟩
  cases hitem
  rw [hn.first.unique (.zero rfl)]
  decide

/-- `2 ^ 32` empty files named `a`, and then one named `b`. -/
def manyEntries : Memory := fun a =>
  let offset := a - exampleRoot
  if offset % 512 = 0 then
    if offset < 0 then 0 else if offset < 2 ^ 41 then 97 else if offset = 2 ^ 41 then 98 else 0
  else if 124 ≤ offset % 512 ∧ offset % 512 < 135 then 48
  else 0

theorem octalValue_zeros {number : CharPtr} {n : Nat} (h : ∀ i < n, number i = 48) :
    octalValue number n = 0 := by
  induction n with
  | zero => rfl
  | succ n ih =>
    have hdigit : charValue 48 = 0x30 := by decide
    rw [octalValue_succ, ih fun i hi => h i (by omega), h n (by omega), hdigit, Int.sub_self]
    rfl

theorem manyEntries_next (k : Int) :
    nextItem manyEntries (exampleRoot + 512 * k) = exampleRoot + 512 * (k + 1) := by
  have hsize : itemFilesize manyEntries (exampleRoot + 512 * k) = 0 := by
    unfold itemFilesize
    rw [octasciiToDec_eq, octalValue_zeros (n := ustarFilesizeSize - 1) fun i hi => ?_]
    · rfl
    · have hi' : i < 11 := hi
      have hoffset : fileSizeOffset = 124 := rfl
      unfold Memory.ptr manyEntries
      dsimp only
      rw [if_neg (by omega), if_pos (by omega)]
  have hstep : itemStep 0 = 512 := by decide
  unfold nextItem
  rw [hsize, hstep]
  omega

theorem manyEntries_item (n : Nat) :
    (nextItem manyEntries)^[n] exampleRoot = exampleRoot + 512 * n := by
  induction n with
  | zero => rfl
  | succ n ih => rw [Function.iterate_succ_apply', ih, manyEntries_next, Int.natCast_succ]

/-- The file after `2 ^ 32` others is found, and the number of entries before it is said to be
0. -/
theorem ustar_find_counter_wraps :
    ∃ fuel, ustarSeek fuel manyEntries (.ofBytes [98]) exampleRoot =
        .ok (some (exampleRoot + 2 ^ 41)) ∧
      ustarFind fuel manyEntries (.ofBytes [98]) exampleRoot =
        .ok (0, some (exampleRoot + 2 ^ 41)) ∧
      Preceded manyEntries exampleRoot (exampleRoot + 2 ^ 41) (2 ^ 32) := by
  have hchars : (CString.ofBytes [98]).chars = [98] := by decide +kernel
  have hlast : (nextItem manyEntries)^[2 ^ 32] exampleRoot = exampleRoot + 2 ^ 41 :=
    manyEntries_item (2 ^ 32)
  have hnonzero : ¬ ustarIsZeroed manyEntries (exampleRoot + 2 ^ 41) = true := fun hzero => by
    have hbyte := (ustarIsZeroed_iff _ _).mp hzero 0 (by decide)
    exact absurd hbyte (by decide)
  have hstop : FirstStop (nextItem manyEntries) (ScanEnds manyEntries (.ofBytes [98]))
      exampleRoot (2 ^ 32) := by
    constructor
    · rw [hlast]
      refine .inr ((strcmp_zero _ _).mpr ?_)
      rw [hchars]
      exact .cons (by decide) (by decide) ((reads_nil _).mpr (by decide))
    · intro m hm
      rw [manyEntries_item]
      -- the first character is an `a`
      have hfirst : manyEntries (exampleRoot + 512 * m) = 97 := by
        unfold manyEntries
        dsimp only
        rw [if_pos (by omega), if_neg (by omega), if_pos (by omega)]
      rintro (hzero | hname)
      · have hbyte := (ustarIsZeroed_iff _ _).mp hzero 0 (by decide)
        rw [Int.natCast_zero, Int.add_zero, hfirst] at hbyte
        exact absurd hbyte (by decide)
      · rw [strcmp_zero, hchars] at hname
        have hbyte := (hname.char 0 98 rfl).1
        unfold Memory.ptr at hbyte
        rw [Int.natCast_zero, Int.add_zero, hfirst] at hbyte
        exact absurd hbyte (by decide)
  have hpreceded := preceded_of_stop hstop
  have hseek := ustarSeek_eq hstop
  have hfind := ustarFind_eq hstop fun _ => by decide +kernel
  rw [hlast] at hpreceded hseek hfind
  rw [if_neg hnonzero] at hseek hfind
  exact ⟨_, hseek, hfind, hpreceded⟩

/-! ## Termination -/

theorem itemFilesize_bounds (mem : Memory) (item : Int) :
    -2 ^ 31 ≤ itemFilesize mem item ∧ itemFilesize mem item < 2 ^ 31 := by
  unfold itemFilesize
  rw [octasciiToDec_eq]
  exact toInt32_bounds _

/-- A header is followed by one further on if its size is in range. -/
theorem lt_nextItem_iff (mem : Memory) (item : Int) :
    item < nextItem mem item ↔
      -1022 ≤ itemFilesize mem item ∧ itemFilesize mem item ≤ 2 ^ 31 - 1024 := by
  obtain ⟨hlow, hhigh⟩ := itemFilesize_bounds mem item
  rw [← itemStep_pos_iff hlow hhigh]
  unfold nextItem
  omega

/-- The scan from `tarRoot` comes to a header with the name. -/
def Finds (mem : Memory) (filename : CString) (tarRoot : Int) : Prop :=
  ∃ n, FirstStop (nextItem mem) (ScanEnds mem filename) tarRoot n ∧
    ustarIsZeroed mem ((nextItem mem)^[n] tarRoot) = false

/-- **Termination.** On a finite archive both scans end, and move forward with every step that
does not end them, exactly if all sizes that they come to, read as an `int`, are at most
`2 ^ 31 - 1024`, and not so far below zero that they are rounded to less than no block; and a
name that is found is not too long for the message of `ustar_find`. -/
theorem ustar_scan_terminates_iff {mem : Memory} {top : Int} (htop : ∀ a, top ≤ a → mem a = 0)
    (filename : CString) (tarRoot : Int) :
    ((∃ fuel found, ustarSeek fuel mem filename tarRoot = .ok found) ∧
      (∃ fuel found, ustarFind fuel mem filename tarRoot = .ok found) ∧
      ∀ item, PassedOver mem filename tarRoot item → item < nextItem mem item) ↔
    (∀ item, PassedOver mem filename tarRoot item →
        -1022 ≤ itemFilesize mem item ∧ itemFilesize mem item ≤ 2 ^ 31 - 1024) ∧
      (Finds mem filename tarRoot → foundMessage filename.strlen < formatBufferLen) := by
  simp only [← lt_nextItem_iff]
  constructor
  · rintro ⟨-, ⟨fuel, found, hfind⟩, hforward⟩
    refine ⟨hforward, ?_⟩
    rintro ⟨n, hstop, hitem⟩
    exact ustarFind_fits hstop (Bool.not_eq_true _ ▸ hitem) hfind
  rintro ⟨hforward, hfits⟩
  -- behind the archive there are only zero blocks
  have hzero : ∀ item, top ≤ item → ScanEnds mem filename item := fun item hitem =>
    .inl ((ustarIsZeroed_iff _ _).mpr fun i _ => htop _ (by omega))
  obtain ⟨n, hstop⟩ : ∃ n, FirstStop (nextItem mem) (ScanEnds mem filename) tarRoot n := by
    -- the address of the header is what grows
    refine FirstStop.of_progress id top hzero fun m hm => ?_
    rw [Function.iterate_succ_apply']
    exact hforward _ ⟨m, rfl, hm⟩
  have hfind := ustarFind_eq hstop fun hitem => hfits ⟨n, hstop, eq_false_of_ne_true hitem⟩
  exact ⟨⟨_, _, ustarSeek_eq hstop⟩, ⟨_, _, hfind⟩, hforward⟩

/-- The archive with one empty file is scanned to its end. -/
theorem ustar_scan_terminates_one_entry :
    let mem := oneEntry [97] 0 noSize []
    (∀ a, (exampleRoot : Int) + 512 ≤ a → mem a = 0) ∧
      (∃ fuel found, ustarSeek fuel mem (.ofBytes [98]) exampleRoot = .ok found) ∧
      (∃ fuel found, ustarFind fuel mem (.ofBytes [98]) exampleRoot = .ok found) ∧
      ∀ item, PassedOver mem (.ofBytes [98]) exampleRoot item → item < nextItem mem item := by
  intro mem
  have htop : ∀ a, (exampleRoot : Int) + 512 ≤ a → mem a = 0 := fun a ha =>
    oneEntry_top (Int.le_trans (Int.le_of_eq (Int.add_zero _)) ha)
  refine ⟨htop, (ustar_scan_terminates_iff htop (.ofBytes [98]) exampleRoot).mpr
    ⟨?_, fun _ => by decide +kernel⟩⟩
  rintro item ⟨n, rfl, hn⟩
  cases n with
  | zero => decide +kernel
  | succ n =>
    -- the second block is a zero block
    have hends : ScanEnds mem (.ofBytes [98]) ((nextItem mem)^[1] exampleRoot) := by
      decide +kernel
    exact absurd hends (hn 1 (by omega))

/-- The octal digits of `2 ^ 32 - 1024`. -/
def stuckSize : List UInt8 := "37777776000".toList.map fun c => c.toNat.toUInt8

/-- The header of a file of `2 ^ 32 - 1024` bytes is followed by itself, and the scans for any
other file do not end. -/
theorem ustar_scan_runs_forever :
    let mem := oneEntry [97] 0 stuckSize []
    (∀ a, (exampleRoot : Int) + 512 ≤ a → mem a = 0) ∧
      nextItem mem exampleRoot = exampleRoot ∧
      (∀ fuel, ustarSeek fuel mem (.ofBytes [98]) exampleRoot = .error .outOfFuel) ∧
      ∀ fuel, ustarFind fuel mem (.ofBytes [98]) exampleRoot = .error .outOfFuel := by
  intro mem
  have hnext : nextItem mem exampleRoot = exampleRoot := by decide +kernel
  have hgoes : ¬ ScanEnds mem (.ofBytes [98]) exampleRoot := by decide +kernel
  have hnever : ∀ m, ¬ ScanEnds mem (.ofBytes [98]) ((nextItem mem)^[m] exampleRoot) := by
    intro m
    rwa [Function.iterate_fixed hnext]
  exact ⟨fun a ha => oneEntry_top (Int.le_trans (Int.le_of_eq (Int.add_zero _)) ha), hnext,
    fun fuel => loop_walk_forever ustarSeekBody_next (fun m => seek_goes_on (hnever m)) fuel,
    fun fuel => loop_walk_forever ustarFindBody_next (fun m => find_goes_on (hnever m)) fuel⟩

end Scan

end Dreamos64

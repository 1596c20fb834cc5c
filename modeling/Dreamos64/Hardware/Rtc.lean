import Dreamos64.Lib.Run

/-!
# Dreamos64 — the real time clock

`rtc.c`. The clock is what its registers present to each read, so that an update may fall between
any two of them. `read_rtc_time` reads six registers in a pass, pass after pass, until its loop
leaves, and converts the values of the last pass.

* `rtc_passes_returned`   — when the loop leaves, the last pass differs from all before it;
* `rtc_obtained_twice_iff` — so the values it converts were obtained twice in a row only by a clock
  for which it does not return: one that presents the same values in all passes.
-/

namespace Dreamos64

open Machine

/-! ## Registers -/

inductive RtcRegister where
  | seconds
  | minutes
  | hours
  | dayOfMonth
  | month
  | year
  | statusRegisterA
  | statusRegisterB
  deriving DecidableEq, Repr

/-- The value that each register presents to the read number `n`. -/
abbrev Rtc := Nat → RtcRegister → UInt8

section Reading

variable (rtc : Rtc)

/-- `read_rtc_register`; `n` reads were made before. -/
def readRtcRegister (r : RtcRegister) (n : Nat) : UInt8 × Nat := (rtc n r, n + 1)

/-- `is_rtc_updating`. -/
def isRtcUpdating (n : Nat) : Bool × Nat :=
  let (statusRegisterA, n) := readRtcRegister rtc .statusRegisterA n
  (statusRegisterA &&& 0x80 != 0, n)

/-- `while (is_rtc_updating());` -/
def waitRtc (fuel n : Nat) : Exec Nat :=
  loop (fun n =>
    let (updating, n) := isRtcUpdating rtc n
    .ok (if updating then .next n else .done n)) fuel n

/-- The six values of a pass. -/
structure RtcFields where
  seconds    : UInt8
  minutes    : UInt8
  hours      : UInt8
  year       : UInt8
  dayofmonth : UInt8
  month      : UInt8
  deriving DecidableEq, Repr

/-- The reads of a pass, in the order of the source. -/
def readPass (n : Nat) : RtcFields × Nat :=
  let (seconds, n) := readRtcRegister rtc .seconds n
  let (minutes, n) := readRtcRegister rtc .minutes n
  let (hours, n) := readRtcRegister rtc .hours n
  let (year, n) := readRtcRegister rtc .year n
  let (dayofmonth, n) := readRtcRegister rtc .dayOfMonth n
  let (month, n) := readRtcRegister rtc .month n
  (⟨seconds, minutes, hours, year, dayofmonth, month⟩, n)

/-- The variables of `read_rtc_time`: the values read last, and the number of reads. `passes` is a
record of all passes so far, in order. -/
structure RtcReading where
  now    : RtcFields
  passes : List RtcFields
  reads  : Nat

/-- One turn of the loop of `read_rtc_time`, which goes on as long as the values are the same. -/
def readPassBody (fuel : Nat) (s : RtcReading) : Exec (LoopStep RtcReading RtcReading) := do
  let last := s.now
  let n ← waitRtc rtc fuel s.reads
  let (now, n) := readPass rtc n
  let s := ⟨now, s.passes ++ [now], n⟩
  .ok (if last = now then .next s else .done s)

/-- `read_rtc_time` up to the end of the loop: `rtc_register_statusB`, and what was read. -/
def readRtcPasses (fuel : Nat) : Exec (UInt8 × RtcReading) := do
  let n ← waitRtc rtc fuel 0
  let (statusB, n) := readRtcRegister rtc .statusRegisterB n
  let (now, n) := readPass rtc n
  let s ← loop (readPassBody rtc fuel) fuel ⟨now, [now], n⟩
  .ok (statusB, s)

end Reading

/-! ## Conversion -/

def daysPerMonth : List Nat := [31, 28, 31, 30, 31, 30, 31, 31, 30, 31, 30, 31]

def baseCentury : Nat := 2000

/-- `convert_bcd_to_binary`, as it is assigned to a `uint8_t`. -/
def convertBcdToBinary (value : UInt8) : UInt8 := (value / 16) * 10 + (value &&& 0x0f)

/-- The values in binary. -/
def RtcFields.binary (isBinary : Bool) (f : RtcFields) : RtcFields :=
  if isBinary then f
  else
    { hours := convertBcdToBinary f.hours
      seconds := convertBcdToBinary f.seconds
      minutes := convertBcdToBinary f.minutes
      year := convertBcdToBinary f.year
      month := convertBcdToBinary f.month
      dayofmonth := convertBcdToBinary f.dayofmonth }

/-- The days of the months before `month`; there is no check that it is at most 12. -/
def daysBefore (month : UInt8) : Exec Nat :=
  (List.range (month.toNat - 1)).foldlM (fun daysCurrentYear i =>
    match daysPerMonth[i]? with
    | some days => .ok (daysCurrentYear + days)
    | none => .error .outOfBounds) 0

/-- The hour; the flag of an afternoon hour is looked at after the conversion to binary. -/
def rtcHours (is24hours : Bool) (hours : UInt8) : UInt8 :=
  if !is24hours && (hours &&& 0x80 != 0) then ((hours &&& 0x7f) + 12) % 24 else hours

/-- `read_rtc_time` after its loop. The sums are of type `uint64_t`, and far from its end. -/
def rtcTime (statusB : UInt8) (f : RtcFields) : Exec Nat := do
  let is24hours := statusB &&& 0x02 != 0
  let isBinary := statusB &&& 0x04 != 0
  let f := f.binary isBinary
  let yearsSinceEpoch := (baseCentury + f.year.toNat) - 1970
  let leapYears := yearsSinceEpoch / 4 + if yearsSinceEpoch % 4 > 1 then 1 else 0
  let daysCurrentYear ← daysBefore f.month
  let daysCurrentYear := daysCurrentYear + f.dayofmonth.toNat
  let hours := rtcHours is24hours f.hours
  let daysSinceEpoch := yearsSinceEpoch * 365 - 1
  let unixTimeOfDay := hours.toNat * 3600 + f.minutes.toNat * 60 + f.seconds.toNat
  .ok (daysSinceEpoch * 86400 + leapYears * 86400 + daysCurrentYear * 86400 + unixTimeOfDay)

/-- `read_rtc_time`. -/
def readRtcTime (fuel : Nat) (rtc : Rtc) : Exec Nat := do
  let (statusB, s) ← readRtcPasses rtc fuel
  rtcTime statusB s.now

/-! ## What a clock presents -/

section Clock

variable (rtc : Rtc)

/-- The update that read `n` may fall into has ended at read `m`. -/
structure UpdateEnds (n m : Nat) : Prop where
  le      : n ≤ m
  during  : ∀ k, n ≤ k → k < m → rtc k .statusRegisterA &&& 0x80 ≠ 0
  ended   : rtc m .statusRegisterA &&& 0x80 = 0

/-- The values that the registers present to six reads from `n` on. -/
def fieldsAt (n : Nat) : RtcFields :=
  ⟨rtc n .seconds, rtc (n + 1) .minutes, rtc (n + 2) .hours, rtc (n + 3) .year,
    rtc (n + 4) .dayOfMonth, rtc (n + 5) .month⟩

/-- What the clock presents to a pass that waits from read `n` on. -/
def PassAt (n : Nat) (p : RtcFields) (n' : Nat) : Prop :=
  ∃ m, UpdateEnds rtc n m ∧ p = fieldsAt rtc (m + 1) ∧ n' = m + 7

/-- What it presents at first: status register B, and a pass. -/
def FirstPass (statusB : UInt8) (p : RtcFields) (n' : Nat) : Prop :=
  ∃ m, UpdateEnds rtc 0 m ∧ statusB = rtc (m + 1) .statusRegisterB ∧ p = fieldsAt rtc (m + 2) ∧
    n' = m + 8

/-- All passes have the values of the first one. -/
def Steady : Prop :=
  ∀ statusB first n, FirstPass rtc statusB first n →
    ∀ ps n', Run (PassAt rtc) n ps n' → ∀ p ∈ ps, p = first

variable {rtc} {fuel n m : Nat} {s : RtcReading}

theorem waitRtc_succ (fuel n : Nat) : waitRtc rtc (fuel + 1) n =
    if rtc n .statusRegisterA &&& 0x80 = 0 then .ok (n + 1) else waitRtc rtc fuel (n + 1) := by
  have hread : isRtcUpdating rtc n = (rtc n .statusRegisterA &&& 0x80 != 0, n + 1) := rfl
  unfold waitRtc
  split_ifs with hover
  · refine loop_done ?_
    rw [hread, hover]
    rfl
  · refine loop_next ?_
    rw [hread]
    simp [hover]

/-- The waiting loop ends with the update. -/
theorem waitRtc_eq (h : UpdateEnds rtc n m) (hfuel : m - n < fuel) :
    waitRtc rtc fuel n = .ok (m + 1) := by
  -- on the reads that are left until the update has ended
  induction fuel generalizing n with
  | zero => omega
  | succ fuel ih =>
    rw [waitRtc_succ]
    rcases Nat.lt_or_eq_of_le h.le with hlt | rfl
    · have hnext : UpdateEnds rtc (n + 1) m :=
        ⟨hlt, fun k hk hkm => h.during k (by omega) hkm, h.ended⟩
      rw [if_neg (h.during n (Nat.le_refl n) hlt)]
      exact ih hnext (by omega)
    · rw [if_pos h.ended]

theorem waitRtc_ok {r : Nat} (h : waitRtc rtc fuel n = .ok r) :
    ∃ m, UpdateEnds rtc n m ∧ r = m + 1 := by
  induction fuel generalizing n with
  | zero => cases h
  | succ fuel ih =>
    rw [waitRtc_succ] at h
    split_ifs at h with hover
    · injection h with h
      exact ⟨n, ⟨Nat.le_refl n, fun k hk hkn => absurd hkn (by omega), hover⟩, h.symm⟩
    · obtain ⟨m, hm, rfl⟩ := ih h
      have hle := hm.le
      refine ⟨m, ⟨by omega, fun k hk hkm => ?_, hm.ended⟩, rfl⟩
      rcases Nat.lt_or_eq_of_le hk with hlt | rfl
      · exact hm.during k hlt hkm
      · exact hover

/-- What a turn does with a pass: it goes on if the values are those of the pass before. -/
def RtcReading.turn (s : RtcReading) (p : RtcFields) (n' : Nat) : LoopStep RtcReading RtcReading :=
  if s.now = p then .next ⟨p, s.passes ++ [p], n'⟩ else .done ⟨p, s.passes ++ [p], n'⟩

/-- With enough fuel a turn does what the clock presents. -/
theorem readPassBody_eq {p : RtcFields} {n' : Nat} (h : PassAt rtc s.reads p n') :
    ∃ k, ∀ fuel ≥ k, readPassBody rtc fuel s = .ok (s.turn p n') := by
  obtain ⟨m, hm, rfl, rfl⟩ := h
  refine ⟨m - s.reads + 1, fun fuel hfuel => ?_⟩
  unfold readPassBody
  rw [waitRtc_eq hm (by omega)]
  rfl

theorem readPassBody_ok {step : LoopStep RtcReading RtcReading}
    (h : readPassBody rtc fuel s = .ok step) :
    ∃ p n', PassAt rtc s.reads p n' ∧ step = s.turn p n' := by
  obtain ⟨r, hwait, hstep⟩ := bind_inv h
  obtain ⟨m, hm, rfl⟩ := waitRtc_ok hwait
  injection hstep with hstep
  exact ⟨_, _, ⟨m, hm, rfl, rfl⟩, hstep.symm⟩

/-! ## What was read when the loop leaves -/

/-- So far all passes had the same values. -/
structure ReadSame (rtc : Rtc) (n : Nat) (first : RtcFields) (s : RtcReading) : Prop where
  now    : s.now = first
  passes : ∃ k, s.passes = List.replicate (k + 1) first ∧
    Run (PassAt rtc) n (List.replicate k first) s.reads

/-- Only the last pass had other values. -/
structure ReadOther (rtc : Rtc) (n : Nat) (first : RtcFields) (s : RtcReading) : Prop where
  now    : s.now ≠ first
  passes : ∃ k, s.passes = List.replicate (k + 1) first ++ [s.now] ∧
    Run (PassAt rtc) n (List.replicate k first ++ [s.now]) s.reads

section Turn

variable {first p : RtcFields} {n' : Nat} {t : RtcReading}

theorem ReadSame.next (h : ReadSame rtc n first s) (hpass : PassAt rtc s.reads p n')
    (hturn : .next t = s.turn p n') : ReadSame rtc n first t := by
  obtain ⟨rfl, k, hpasses, hrun⟩ := h
  unfold RtcReading.turn at hturn
  split_ifs at hturn with hp
  cases hturn
  refine ⟨hp.symm, k + 1, ?_, ?_⟩
  · show s.passes ++ [p] = _
    rw [hpasses, ← hp, ← List.replicate_succ']
  · rw [List.replicate_succ']
    exact hrun.extend (hp ▸ hpass)

theorem ReadSame.done (h : ReadSame rtc n first s) (hpass : PassAt rtc s.reads p n')
    (hturn : .done t = s.turn p n') : ReadOther rtc n first t := by
  obtain ⟨rfl, k, hpasses, hrun⟩ := h
  unfold RtcReading.turn at hturn
  split_ifs at hturn with hp
  cases hturn
  refine ⟨fun heq => hp heq.symm, k, ?_, hrun.extend hpass⟩
  show s.passes ++ [p] = _
  rw [hpasses]

end Turn

/-- **The loop leaves with a pass that differs from all before.** -/
theorem rtc_passes_returned {statusB : UInt8} (h : readRtcPasses rtc fuel = .ok (statusB, s)) :
    ∃ first n, FirstPass rtc statusB first n ∧ ReadOther rtc n first s := by
  obtain ⟨r, hwait, h⟩ := bind_inv h
  obtain ⟨m, hm, rfl⟩ := waitRtc_ok hwait
  obtain ⟨s', hloop, h⟩ := bind_inv h
  cases h
  refine ⟨fieldsAt rtc (m + 2), m + 8, ⟨m, hm, rfl, rfl, rfl⟩, ?_⟩
  refine loop_inv (ReadSame rtc (m + 8) (fieldsAt rtc (m + 2))) _ ?_ ?_ ⟨rfl, 0, rfl, Run.start⟩
    hloop
  · intro t t' hsame hbody
    obtain ⟨p, n', hpass, hstep⟩ := readPassBody_ok hbody
    exact hsame.next hpass hstep
  · intro t t' hsame hbody
    obtain ⟨p, n', hpass, hstep⟩ := readPassBody_ok hbody
    exact hsame.done hpass hstep

/-- The values that are converted were read in two passes, one right after the other. -/
def ObtainedTwice (s : RtcReading) : Prop := [s.now, s.now] <:+: s.passes

/-- They were read in one pass only. -/
theorem ReadOther.not_obtainedTwice {first : RtcFields} (h : ReadOther rtc n first s) :
    ¬ ObtainedTwice s := by
  intro htwice
  obtain ⟨hnow, k, hpasses, -⟩ := h
  have hcount := htwice.sublist.count_le s.now
  have hzero : List.count s.now (List.replicate (k + 1) first) = 0 :=
    List.count_eq_zero.mpr fun hmem => hnow (List.eq_of_mem_replicate hmem)
  rw [hpasses, List.count_append, hzero] at hcount
  simp at hcount

/-! ## When the loop leaves -/

section Progress

/-- With enough fuel the loop comes from `s` to `t`. -/
def Comes (rtc : Rtc) (s t : RtcReading) : Prop :=
  ∃ j k, ∀ fuel ≥ k, ∀ more,
    loop (readPassBody rtc fuel) (j + more) s = loop (readPassBody rtc fuel) more t

/-- With enough fuel the loop leaves. -/
def Leaves (rtc : Rtc) (s : RtcReading) : Prop :=
  ∃ k, ∀ fuel ≥ k, ∃ t, loop (readPassBody rtc fuel) fuel s = .ok t

variable {t : RtcReading} {p : RtcFields} {n' : Nat}

theorem Comes.refl (s : RtcReading) : Comes rtc s s :=
  ⟨0, 0, fun fuel _ more => by rw [Nat.zero_add]⟩

theorem Comes.next (h : Comes rtc s t) (hpass : PassAt rtc t.reads p n') (hp : t.now = p) :
    Comes rtc s ⟨p, t.passes ++ [p], n'⟩ := by
  obtain ⟨j, k, hloop⟩ := h
  obtain ⟨k', hbody⟩ := readPassBody_eq hpass
  refine ⟨j + 1, max k k', fun fuel hfuel more => ?_⟩
  have hturn := hbody fuel (by omega)
  rw [RtcReading.turn, if_pos hp] at hturn
  rw [Nat.add_assoc, Nat.add_comm 1, hloop fuel (by omega), loop_next hturn]

theorem Comes.leaves (h : Comes rtc s t) (hpass : PassAt rtc t.reads p n') (hp : t.now ≠ p) :
    Leaves rtc s := by
  obtain ⟨j, k, hloop⟩ := h
  obtain ⟨k', hbody⟩ := readPassBody_eq hpass
  refine ⟨max (max k k') (j + 1), fun fuel hfuel => ?_⟩
  have hturn := hbody fuel (by omega)
  rw [RtcReading.turn, if_neg hp] at hturn
  obtain ⟨more, rfl⟩ : ∃ more, fuel = j + (more + 1) := ⟨fuel - j - 1, by omega⟩
  exact ⟨_, (hloop _ (by omega) (more + 1)).trans (loop_done hturn)⟩

/-- Along the passes that the clock presents the loop goes on as long as they are the same. -/
theorem comes_or_leaves (first : RtcFields) {ps : List RtcFields}
    (hrun : Run (PassAt rtc) n ps n') :
    ((∀ p ∈ ps, p = first) ∧ ∃ passes, Comes rtc ⟨first, [first], n⟩ ⟨first, passes, n'⟩) ∨
      Leaves rtc ⟨first, [first], n⟩ := by
  refine hrun.trace (fun ps n' => ((∀ p ∈ ps, p = first) ∧
    ∃ passes, Comes rtc ⟨first, [first], n⟩ ⟨first, passes, n'⟩) ∨ _) ?_ ?_
  · exact Or.inl ⟨fun p hp => absurd hp List.not_mem_nil, [first], Comes.refl _⟩
  · rintro ps t u p - (⟨hsame, passes, hcomes⟩ | hleaves) hpass
    · by_cases hp : first = p
      · subst hp
        refine Or.inl ⟨fun q hq => ?_, _, hcomes.next hpass rfl⟩
        rcases List.mem_append.mp hq with hq | hq
        · exact hsame q hq
        · exact List.mem_singleton.mp hq
      · exact Or.inr (hcomes.leaves hpass hp)
    · exact Or.inr hleaves

/-- A loop that leaves makes the function return. -/
theorem Leaves.returns {statusB : UInt8} {first : RtcFields}
    (hfirst : FirstPass rtc statusB first n) (h : Leaves rtc ⟨first, [first], n⟩) :
    ∃ fuel s, readRtcPasses rtc fuel = .ok (statusB, s) := by
  obtain ⟨m, hm, rfl, rfl, rfl⟩ := hfirst
  obtain ⟨k, hloop⟩ := h
  obtain ⟨s, hs⟩ := hloop (max k (m + 1)) (Nat.le_max_left _ _)
  refine ⟨max k (m + 1), s, ?_⟩
  unfold readRtcPasses
  rw [waitRtc_eq hm (by omega), ok_bind]
  refine Eq.trans (congrArg (· >>= _) ?_) (ok_bind s _)
  exact hs

end Progress

end Clock

/-- **The values that `read_rtc_time` converts were obtained twice in a row** only if the clock is
one for which it does not return. -/
theorem rtc_obtained_twice_iff (rtc : Rtc) :
    (∀ fuel statusB s, readRtcPasses rtc fuel = .ok (statusB, s) → ObtainedTwice s) ↔
      Steady rtc := by
  constructor
  · intro htwice statusB first n hfirst ps n' hrun
    rcases comes_or_leaves first hrun with ⟨hsame, -⟩ | hleaves
    · exact hsame
    · obtain ⟨fuel, s, hreturns⟩ := hleaves.returns hfirst
      obtain ⟨first', n'', -, hother⟩ := rtc_passes_returned hreturns
      exact absurd (htwice fuel statusB s hreturns) hother.not_obtainedTwice
  · intro hsteady fuel statusB s hreturns
    -- the last pass is one that the clock presents
    obtain ⟨first, n, hfirst, hnow, k, -, hrun⟩ := rtc_passes_returned hreturns
    have hlast : s.now ∈ List.replicate k first ++ [s.now] :=
      List.mem_append_right _ (List.mem_singleton.mpr rfl)
    exact absurd (hsteady statusB first n hfirst _ _ hrun s.now hlast) hnow

/-- A clock that goes from 12:59:59 to 13:00:00 in the second pass, after the seconds were read. -/
def tornClock : Rtc := fun n r =>
  match r with
  | .seconds => if n < 10 then 59 else 0
  | .minutes => if n < 10 then 59 else 0
  | .hours => if n < 10 then 12 else 13
  | .dayOfMonth => 1
  | .month => 1
  | .year => 26
  | .statusRegisterA => 0
  | .statusRegisterB => 6

/-- The time is read as 13:00:59, in one pass. -/
theorem rtc_torn_time :
    ∃ s, readRtcPasses tornClock 2 = .ok (6, s) ∧ s.now = ⟨59, 0, 13, 26, 1, 1⟩ ∧
      s.passes = [⟨59, 59, 12, 26, 1, 1⟩, ⟨59, 0, 13, 26, 1, 1⟩] ∧ ¬ ObtainedTwice s := by
  refine ⟨⟨⟨59, 0, 13, 26, 1, 1⟩, [⟨59, 59, 12, 26, 1, 1⟩, ⟨59, 0, 13, 26, 1, 1⟩], 15⟩, rfl, rfl,
    rfl, ?_⟩
  unfold ObtainedTwice
  decide

end Dreamos64

import Dreamos64.Lib.RunScan
import Dreamos64.Lib.Visits
import Dreamos64.Mem.PmmSpec

/-!
# Dreamos64 — the searches of the bitmap

Both searches go over the rows with a `uint16_t` and leave out a row that equals
`BITMAP_ENTRY_FULL`. What they look at on the first way over the rows is one sequence of
columns (`seenColumns`), and looking for `n` frames is a scan of that sequence for a run.

* `bitmapRequestFrame_eq` — looking for a frame is looking for a run of one;
* `requestFrames_first_pass` — what the search comes to in `2 ^ 16` turns;
* `frame_search_ends` — the searches end, with no row looked at twice, exactly if there are
  fewer than `2 ^ 16` rows or there is a run to be found on the first way over them.
-/

namespace Dreamos64

open Machine RunScan

/-- The columns that a search looks at in a row: none in one that it skips. -/
def seenRow (bits : BitVec 64) : List Bool :=
  if bits = bitmapEntryFull then [] else (List.range bitmapRowBits).map (columnFree bits)

/-- The columns of the rows before the row counter wraps. -/
def seenColumns (b : Bitmap) : List Bool := (b.memoryMap.take (2 ^ 16)).flatMap seenRow

section Scan

variable {b : Bitmap} {n row : Nat} {bits : BitVec 64} {s : FrameSearch}

/-- The column loop is a scan: it leaves with a frame, or with the counter of the scan. -/
theorem scanColumns_runFrom (row : Nat) (bits : BitVec 64) (columns : List Nat) (hn : n < 2 ^ 64)
    (hs : s.adjacentsFound < n) :
    (runFrom n (columns.map (columnFree bits)) s.adjacentsFound = none ∧
      ∃ frame, scanColumns n row bits columns s = .done frame) ∨
    ∃ s', runFrom n (columns.map (columnFree bits)) s.adjacentsFound = some s'.adjacentsFound ∧
      scanColumns n row bits columns s = .next s' := by
  -- column by column, with the same counter on both sides
  induction columns generalizing s with
  | nil => exact .inr ⟨s, rfl, rfl⟩
  | cons column columns ih =>
    rw [List.map_cons]
    by_cases hcol : columnFree bits column = true
    · rw [hcol, scanColumns_free hcol (by omega), runFrom]
      split_ifs with hlast
      · exact .inl ⟨rfl, _, rfl⟩
      · exact ih (s := s.advance row column) (show s.adjacentsFound + 1 < n by omega)
    · rw [Bool.eq_false_iff.mpr hcol, scanColumns, if_neg hcol, runFrom]
      exact ih (s := { s with adjacentsFound := 0 }) (show 0 < n by omega)

/-- So is a turn of the row loop. -/
theorem requestFramesBody_runFrom (hn : n < 2 ^ 64) (hrow : row < b.numberOfEntries)
    (hbits : b.memoryMap[row]? = some bits) (hs : s.adjacentsFound < n) :
    (runFrom n (seenRow bits) s.adjacentsFound = none ∧
      ∃ frame, requestFramesBody b n (row, s) = .ok (.done frame)) ∨
    ∃ s', runFrom n (seenRow bits) s.adjacentsFound = some s'.adjacentsFound ∧
      requestFramesBody b n (row, s) = .ok (.next (nextRow row, s')) := by
  unfold requestFramesBody seenRow
  simp only [if_pos hrow, hbits]
  by_cases hfull : bits = bitmapEntryFull
  · -- a skipped row has no columns, and the counter stays
    rw [if_pos hfull, if_neg (not_not.mpr hfull)]
    exact .inr ⟨s, rfl, rfl⟩
  · rw [if_neg hfull, if_pos hfull]
    rcases scanColumns_runFrom row bits (List.range bitmapRowBits) hn hs with
      ⟨hnone, frame, hscan⟩ | ⟨s', hsome, hscan⟩
    · exact .inl ⟨hnone, frame, by rw [hscan]⟩
    · exact .inr ⟨s', hsome, by rw [hscan]⟩

/-- **What the search comes to in `k` turns**, before the row counter wraps: it has passed
the last row, or found a run. -/
theorem requestFrames_first_pass (hn : n < 2 ^ 64) (hlen : b.memoryMap.length = b.numberOfEntries)
    (k : Nat) (hk : row + k ≤ 2 ^ 16) (hrow : row ≤ b.numberOfEntries) (hs : s.adjacentsFound < n) :
    (∃ frame, loop (requestFramesBody b n) k (row, s) = .ok frame) ↔
      b.numberOfEntries < row + k ∨
        runFrom n (((b.memoryMap.drop row).take k).flatMap seenRow) s.adjacentsFound = none := by
  -- a turn is a row, and below `2 ^ 16` the row counter does not wrap
  induction k generalizing row s with
  | zero =>
    -- no turn, no result
    refine iff_of_false ?_ ?_
    · rintro ⟨frame, hloop⟩
      cases hloop
    · rintro (hlt | hnone)
      · omega
      · cases hnone
  | succ k ih =>
    by_cases hlast : row = b.numberOfEntries
    · -- behind the last row the search gives up
      refine iff_of_true ⟨-1, loop_done ?_⟩ (.inl (by omega))
      unfold requestFramesBody
      exact if_neg (by omega)
    · have hin : row < b.memoryMap.length := by omega
      have hbits : b.memoryMap[row]? = some b.memoryMap[row] := List.getElem?_eq_getElem hin
      have hseen : ((b.memoryMap.drop row).take (k + 1)).flatMap seenRow =
          seenRow b.memoryMap[row] ++ ((b.memoryMap.drop (row + 1)).take k).flatMap seenRow := by
        rw [List.drop_eq_getElem_cons hin, List.take_succ_cons, List.flatMap_cons]
      rw [hseen, runFrom_append]
      rcases requestFramesBody_runFrom hn (by omega) hbits hs with
        ⟨hnone, frame, hbody⟩ | ⟨s', hsome, hbody⟩
      · rw [hnone]
        exact iff_of_true ⟨frame, loop_done hbody⟩ (.inr rfl)
      · rw [hsome, loop_next hbody, Option.bind_some]
        have hs' := runFrom_lt hs hsome
        have hnext := ih (show row + 1 + k ≤ 2 ^ 16 by omega) (by omega) hs'
        rw [show row + (k + 1) = row + 1 + k by omega, ← hnext]
        -- when the counter wraps there is no turn left
        by_cases hwrap : row + 1 = 2 ^ 16
        · obtain rfl : k = 0 := by omega
          exact iff_of_false (fun ⟨_, h⟩ => nomatch h) (fun ⟨_, h⟩ => nomatch h)
        · rw [nextRow, Nat.mod_eq_of_lt (by omega)]

/-- A row in which a search for one frame looks finds its first free column. -/
theorem scanColumns_one (hs : s.adjacentsFound = 0) (columns : List Nat) :
    scanColumns 1 row bits columns s =
      match columns.find? (columnFree bits) with
      | some column => .done (row * bitmapRowBits + column : Nat)
      | none => .next s := by
  induction columns generalizing s with
  | nil => rfl
  | cons column columns ih =>
    by_cases hcol : columnFree bits column = true
    · rw [scanColumns_free hcol (by omega), if_pos (by omega), List.find?_cons_of_pos hcol]
      simp only [FrameSearch.start, FrameSearch.advance, if_pos hs]
    · have hzero : { s with adjacentsFound := 0 } = s := by
        rw [← hs]
      rw [scanColumns, if_neg hcol, List.find?_cons_of_neg hcol, hzero]
      exact ih hs

/-- **Looking for a frame is looking for a run of one.** -/
theorem requestFrame_eq (fuel : Nat) (hs : s.adjacentsFound = 0) :
    loop (requestFrameBody b) fuel row = loop (requestFramesBody b 1) fuel (row, s) := by
  -- the counter is 0 at the start of every row, since a run of one ends the search
  induction fuel generalizing row with
  | zero => rfl
  | succ fuel ih =>
    rw [loop_succ, loop_succ]
    unfold requestFrameBody requestFramesBody
    by_cases hrow : row < b.numberOfEntries
    · simp only [if_pos hrow]
      cases hbits : b.memoryMap[row]? with
      | none => rfl
      | some bits =>
        simp only
        by_cases hfull : bits = bitmapEntryFull
        · simp only [if_neg (not_not.mpr hfull)]
          exact ih
        · simp only [if_pos hfull]
          rw [scanColumns_one hs]
          cases hfind : (List.range bitmapRowBits).find? (columnFree bits) with
          | none => exact ih
          | some column => rfl
    · simp only [if_neg hrow]

theorem bitmapRequestFrame_eq (fuel : Nat) (b : Bitmap) :
    bitmapRequestFrame fuel b = bitmapRequestFrames fuel 1 b :=
  requestFrame_eq fuel rfl

end Scan

/-! ## Termination -/

/-- Both searches return, and neither comes to a row twice. -/
structure SearchesEnd (b : Bitmap) (n : Nat) : Prop where
  frame  : ∃ fuel frame, bitmapRequestFrame fuel b = .ok frame ∧
    (visits (requestFrameBody b) fuel 0).Nodup
  frames : ∃ fuel frame, bitmapRequestFrames fuel n b = .ok frame ∧
    ((visits (requestFramesBody b n) fuel (0, ⟨0, 0, 0⟩)).map Prod.fst).Nodup

section Termination

variable {b : Bitmap} {n : Nat}

theorem requestFrameBody_next {row row' : Nat} (h : requestFrameBody b row = .ok (.next row')) :
    row' = (row + 1) % 2 ^ 16 := by
  unfold requestFrameBody at h
  split_ifs at h
  · split at h
    · cases h
    · split_ifs at h
      · split at h <;> cases h
        rfl
      · cases h
        rfl
  · cases h

theorem requestFramesBody_next {rs rs' : Nat × FrameSearch}
    (h : requestFramesBody b n rs = .ok (.next rs')) : rs'.1 = (rs.1 + 1) % 2 ^ 16 := by
  obtain ⟨row, s⟩ := rs
  unfold requestFramesBody at h
  dsimp only at h
  split_ifs at h
  · split at h
    · cases h
    · split_ifs at h
      · split at h <;> cases h
        rfl
      · cases h
        rfl
  · cases h

/-- The search for `n` frames, from its start. -/
theorem requestFrames_returns_iff (hn : n < 2 ^ 64) (hpos : 1 ≤ n)
    (hlen : b.memoryMap.length = b.numberOfEntries) :
    (∃ frame, bitmapRequestFrames (2 ^ 16) n b = .ok frame) ↔
      b.numberOfEntries < 2 ^ 16 ∨ HasRun n (seenColumns b) := by
  have hpass := requestFrames_first_pass hn hlen (2 ^ 16) (s := ⟨0, 0, 0⟩)
    (show 0 + 2 ^ 16 ≤ 2 ^ 16 by omega) (Nat.zero_le _) hpos
  have hscan := runFrom_eq_none_iff (n := n) (c := 0) (l := seenColumns b) hpos
  rw [List.drop_zero, Nat.zero_add] at hpass
  rw [List.replicate_zero, List.nil_append] at hscan
  rw [← hscan]
  exact hpass

/-- The search for `n` frames comes to no row twice. -/
theorem requestFrames_ends_iff (hn : n < 2 ^ 64) (hpos : 1 ≤ n)
    (hlen : b.memoryMap.length = b.numberOfEntries) :
    (∃ fuel frame, bitmapRequestFrames fuel n b = .ok frame ∧
      ((visits (requestFramesBody b n) fuel (0, ⟨0, 0, 0⟩)).map Prod.fst).Nodup) ↔
      b.numberOfEntries < 2 ^ 16 ∨ HasRun n (seenColumns b) := by
  have hreturns := requestFrames_returns_iff hn hpos hlen
  unfold bitmapRequestFrames at hreturns ⊢
  rw [← hreturns]
  exact ends_once_iff (requestFramesBody b n) Prod.fst (fun _ _ => requestFramesBody_next)
    (by decide) rfl

/-- Neither does the search for one. -/
theorem requestFrame_ends_iff (hlen : b.memoryMap.length = b.numberOfEntries) :
    (∃ fuel frame, bitmapRequestFrame fuel b = .ok frame ∧
      (visits (requestFrameBody b) fuel 0).Nodup) ↔
      b.numberOfEntries < 2 ^ 16 ∨ HasRun 1 (seenColumns b) := by
  rw [← requestFrames_returns_iff (by decide) (Nat.le_refl 1) hlen]
  simp only [← bitmapRequestFrame_eq]
  have hends := ends_once_iff (requestFrameBody b) id (s := 0)
    (fun _ _ => requestFrameBody_next) (by decide) rfl
  simp only [List.map_id] at hends
  exact hends

/-- **The searches end**, with every row looked at once at most, exactly if the row counter
does not wrap, or a run is found before it does. -/
theorem frame_search_ends (b : Bitmap) (n : Nat) (hn : 1 ≤ n) (hsize : n < 2 ^ 64)
    (hlen : b.memoryMap.length = b.numberOfEntries) :
    SearchesEnd b n ↔ b.numberOfEntries < 2 ^ 16 ∨ HasRun n (seenColumns b) := by
  constructor
  · intro hends
    exact (requestFrames_ends_iff hsize hn hlen).mp hends.frames
  · intro hcond
    -- where there are `n` free columns in a row there is one
    have hone := hcond.imp_right fun hrun => hrun.mono hn
    exact ⟨(requestFrame_ends_iff hlen).mpr hone, (requestFrames_ends_iff hsize hn hlen).mpr hcond⟩

/-- Three frames in use, and room for two more. -/
theorem frame_search_ends_small : SearchesEnd ⟨[7#64], 1, 5, 3, 0⟩ 2 :=
  (frame_search_ends ⟨[7#64], 1, 5, 3, 0⟩ 2 (by decide) (by decide) rfl).mpr (.inl (by decide))

/-- A row without a free column. -/
theorem not_mem_seenRow_ones : true ∉ seenRow (~~~0#64) := by decide

/-- 16 GiB of 4 KiB frames, all of them in use: 65536 rows, and the search goes on for
ever. -/
theorem frame_search_endless :
    entriesFor .small (4194239 * 4096) = 65536 ∧
      ∀ n, 1 ≤ n → n < 2 ^ 64 →
        ¬ SearchesEnd ⟨List.replicate 65536 (~~~0#64), 65536, 4194240, 4194240, 0⟩ n := by
  refine ⟨by decide, fun n hn hsize hends => ?_⟩
  rcases (requestFrames_ends_iff hsize hn List.length_replicate).mp hends.frames with hfew | hrun
  · exact absurd hfew (by decide)
  · -- no row has a free column
    obtain ⟨bits, hbits, hfree⟩ := List.mem_flatMap.mp (hasRun_one.mp (hrun.mono hn))
    rw [List.eq_of_mem_replicate (List.mem_of_mem_take hbits)] at hfree
    exact not_mem_seenRow_ones hfree

end Termination

end Dreamos64

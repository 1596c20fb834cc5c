import Dreamos64.Fs.UstarScan

/-!
# Dreamos64 — archives and their files

What an archive is, apart from the code that reads it: a list of entries, each with a name and
data, laid out in memory one after the other with a header and padding, and a zero block at the
end (`ArchiveAt`). The padding and the other fields of the headers are arbitrary.

* `HeaderAt.nextItem_eq`  — the scan goes from the header of an entry to that of the next;
* `HeaderAt.strcmp_short`, `HeaderAt.strcmp_full` — when a name is taken for that of an entry;
* `ustar_seek_finds`      — a file is found by its name, if the names leave room for a NUL;
* `ustar_seek_full_name`  — a name that fills its field is found exactly if the mode field, which
  follows, starts with a NUL;
* `ustar_read_file`       — a file is read right exactly if no more than its size is asked for and
  no NUL is among that.
-/

namespace Dreamos64

open Machine

/-- An entry of an archive. -/
structure ArchiveEntry where
  name        : List UInt8
  data        : List UInt8
  name_ne     : name ≠ []
  name_chars  : ∀ c ∈ name, c ≠ 0
  name_length : name.length ≤ ustarFilenameSize
  data_length : data.length < 2 ^ 30

/-- The bytes that an entry takes: a header, and its data in whole blocks. -/
def ArchiveEntry.span (e : ArchiveEntry) : Nat := ((e.data.length + 511) / 512 + 1) * 512

/-- There is the header of an entry at `a`, with its data after it. A name that does not fill its
field ends with a NUL, and the size is written with eleven octal digits. -/
structure HeaderAt (mem : Memory) (a : Int) (e : ArchiveEntry) : Prop where
  name : ∀ i < e.name.length, e.name[i]? = some (mem (a + (i : Nat)))
  nul  : e.name.length < ustarFilenameSize → mem (a + e.name.length) = 0
  size : ∀ i < 11, (mem (a + fileSizeOffset + (i : Nat))).toNat =
    48 + e.data.length / 8 ^ (10 - i) % 8
  data : ∀ i < e.data.length, e.data[i]? = some (mem (a + headerSize + (i : Nat)))

/-- The memory from `a` on is an archive with these entries; it ends with a zero block. -/
def ArchiveAt (mem : Memory) : Int → List ArchiveEntry → Prop
  | a, [] => ∀ i < headerSize, mem (a + (i : Nat)) = 0
  | a, e :: entries => HeaderAt mem a e ∧ ArchiveAt mem (a + e.span) entries

/-- Where the next header is, after some entries from `a` on. -/
def address : Int → List ArchiveEntry → Int
  | a, [] => a
  | a, e :: entries => address (a + e.span) entries

/-- The header found is that of the first entry with a name, or none if there is no such entry. -/
def FirstNamed (tarRoot : Int) (entries : List ArchiveEntry) (name : List UInt8)
    (found : Option Int) : Prop :=
  (∃ before e after, entries = before ++ e :: after ∧ e.name = name ∧
      (∀ e' ∈ before, e'.name ≠ name) ∧ found = some (address tarRoot before)) ∨
    ((∀ e ∈ entries, e.name ≠ name) ∧ found = none)

/-! ## One header -/

section Header

variable {mem : Memory} {a : Int} {e : ArchiveEntry} {filename : CString}

section

variable (h : HeaderAt mem a e)

include h

/-- The first digits are those of the size without its last ones. -/
theorem HeaderAt.octalValue_eq {n : Nat} (hn : n ≤ 11) :
    octalValue (mem.ptr (a + fileSizeOffset)) n = (e.data.length / 8 ^ (11 - n) : Nat) := by
  -- on the digits read so far: what is left of the size when the others are cut off
  induction n with
  | zero =>
    have hlength := e.data_length
    have hzero : e.data.length / 8 ^ 11 = 0 := Nat.div_eq_of_lt (by omega)
    rw [Nat.sub_zero, hzero]
    rfl
  | succ n ih =>
    have hdigit := charValue_digit (h.size n hn) (Nat.mod_lt _ (by decide))
    have hexp : 11 - n = 10 - n + 1 := by omega
    have hsub : 11 - (n + 1) = 10 - n := by omega
    rw [octalValue_succ, ih (by omega), Memory.ptr, hdigit, hexp, hsub, Nat.pow_succ,
      ← Nat.div_div_eq_div_mul]
    generalize e.data.length / 8 ^ (10 - n) = digits
    omega

/-- The size is read right. -/
theorem HeaderAt.itemFilesize_eq : itemFilesize mem a = e.data.length := by
  have hlength := e.data_length
  have hvalue := h.octalValue_eq (Nat.le_refl 11)
  rw [Nat.sub_self, Nat.pow_zero, Nat.div_one] at hvalue
  unfold itemFilesize
  rw [octasciiToDec_eq]
  exact (congrArg toInt32 hvalue).trans (toInt32_eq (by omega) (by omega))

/-- The scan goes on with the next entry. -/
theorem HeaderAt.nextItem_eq : nextItem mem a = a + e.span := by
  unfold nextItem ArchiveEntry.span
  rw [h.itemFilesize_eq, itemStep_natCast e.data_length]
  rfl

/-- A header is no zero block, since the name is not empty. -/
theorem HeaderAt.not_zeroed : ¬ ustarIsZeroed mem a = true := by
  intro hzero
  have hpos : 0 < e.name.length := List.length_pos_of_ne_nil e.name_ne
  have hfirst := h.name 0 hpos
  rw [(ustarIsZeroed_iff mem a).mp hzero 0 (by decide)] at hfirst
  exact e.name_chars 0 (List.mem_of_getElem? hfirst) rfl

/-- The name is read as a string if a NUL follows it. -/
theorem HeaderAt.reads_name (hnul : mem (a + e.name.length) = 0) :
    Reads (mem.ptr a) e.name where
  char := fun i c hi => by
    have hname := h.name i (List.getElem?_eq_some_iff.mp hi).1
    rw [hi] at hname
    exact ⟨(Option.some_inj.mp hname).symm, e.name_chars c (List.mem_of_getElem? hi)⟩
  nul := hnul

/-- A name with a NUL in its field is compared right. -/
theorem HeaderAt.strcmp_short (hlength : e.name.length < ustarFilenameSize) :
    strcmp filename (mem.ptr a) = 0 ↔ e.name = filename.chars := by
  have hreads := h.reads_name (h.nul hlength)
  rw [strcmp_zero]
  exact ⟨fun hsame => hreads.unique hsame, fun hname => hname ▸ hreads⟩

/-- A name that fills its field is compared with the mode field too. -/
theorem HeaderAt.strcmp_full (hfilename : filename.strlen = ustarFilenameSize) :
    strcmp filename (mem.ptr a) = 0 ↔
      e.name = filename.chars ∧ mem (a + fileModeOffset) = 0 := by
  have hchars : filename.chars.length = ustarFilenameSize := filename.length_chars.trans hfilename
  rcases Nat.lt_or_eq_of_le e.name_length with hshort | hfull
  · -- a shorter name is another one
    rw [h.strcmp_short hshort]
    exact ⟨fun hname => absurd (hname ▸ hchars) (Nat.ne_of_lt hshort), fun hboth => hboth.1⟩
  · rw [strcmp_zero]
    constructor
    -- the hundred characters are those of the field, and the NUL is the byte after it
    · intro hreads
      have hmode := hreads.nul
      rw [hchars] at hmode
      have hname : e.name = filename.chars := by
        refine List.ext_getElem? fun i => ?_
        rcases Nat.lt_or_ge i ustarFilenameSize with hi | hi
        · have hin : i < filename.chars.length := by omega
          have hchar := hreads.char i _ (List.getElem?_eq_getElem hin)
          rw [h.name i (by omega), List.getElem?_eq_getElem hin, ← hchar.1]
          rfl
        · rw [List.getElem?_eq_none (by omega), List.getElem?_eq_none (by omega)]
      exact ⟨hname, hmode⟩
    · rintro ⟨hname, hmode⟩
      have hnul : mem (a + e.name.length) = 0 := by
        rw [hfull]
        exact hmode
      exact hname ▸ h.reads_name hnul

end

end Header

/-! ## The scan of an archive -/

section Archive

variable {mem : Memory} {tarRoot : Int} {before entries after : List ArchiveEntry}
  {e : ArchiveEntry} {filename : CString}

section

variable (h : ArchiveAt mem tarRoot (before ++ entries))

include h

/-- What follows some entries is an archive. -/
theorem ArchiveAt.rest : ArchiveAt mem (address tarRoot before) entries := by
  induction before generalizing tarRoot with
  | nil => exact h
  | cons e before ih => exact ih h.2

/-- The walk comes to the header after some entries. -/
theorem ArchiveAt.item : (nextItem mem)^[before.length] tarRoot = address tarRoot before := by
  induction before generalizing tarRoot with
  | nil => rfl
  | cons e before ih =>
    rw [List.length_cons, Function.iterate_succ_apply, h.1.nextItem_eq]
    exact ih h.2

/-- It does not stop at entries whose names are not taken for the one looked for. -/
theorem ArchiveAt.firstStop
    (hother : ∀ e ∈ before, ∀ a, HeaderAt mem a e → ¬ strcmp filename (mem.ptr a) = 0)
    (hstop : ScanEnds mem filename (address tarRoot before)) :
    FirstStop (nextItem mem) (ScanEnds mem filename) tarRoot before.length := by
  -- on the entries before the one where the scan stops
  induction before generalizing tarRoot with
  | nil => exact .zero hstop
  | cons e before ih =>
    have hgo : ¬ ScanEnds mem filename tarRoot :=
      not_or.mpr ⟨h.1.not_zeroed, hother e List.mem_cons_self tarRoot h.1⟩
    refine .cons hgo ?_
    rw [h.1.nextItem_eq]
    exact ih h.2 (fun e' he' => hother e' (List.mem_cons_of_mem _ he')) hstop

end

/-- An entry is found if its name is taken for the one looked for, and no name before it is. -/
theorem ArchiveAt.seek_found (h : ArchiveAt mem tarRoot (before ++ e :: after))
    (hother : ∀ e ∈ before, ∀ a, HeaderAt mem a e → ¬ strcmp filename (mem.ptr a) = 0)
    (hname : strcmp filename (mem.ptr (address tarRoot before)) = 0) :
    ustarSeek (before.length + 3) mem filename tarRoot = .ok (some (address tarRoot before)) := by
  have hseek := ustarSeek_eq (h.firstStop hother (.inr hname))
  rwa [h.item, if_neg h.rest.1.not_zeroed] at hseek

/-- Nothing is found if no name is taken for the one looked for. -/
theorem ArchiveAt.seek_none (h : ArchiveAt mem tarRoot entries)
    (hother : ∀ e ∈ entries, ∀ a, HeaderAt mem a e → ¬ strcmp filename (mem.ptr a) = 0) :
    ustarSeek (entries.length + 3) mem filename tarRoot = .ok none := by
  have hall : ArchiveAt mem tarRoot (entries ++ []) := by rwa [List.append_nil]
  have hend := (ustarIsZeroed_iff mem _).mpr hall.rest
  have hseek := ustarSeek_eq (hall.firstStop hother (.inl hend))
  rwa [hall.item, if_pos hend] at hseek

/-- **Archive lookup.** In an archive whose names leave room for a NUL, `ustar_seek` finds the
first entry with the name, whatever the files contain. -/
theorem ustar_seek_finds {mem : Memory} {tarRoot : Int} {entries : List ArchiveEntry}
    (harchive : ArchiveAt mem tarRoot entries)
    (hnames : ∀ e ∈ entries, e.name.length < ustarFilenameSize) (filename : CString) :
    ∃ fuel found, ustarSeek fuel mem filename tarRoot = .ok found ∧
      FirstNamed tarRoot entries filename.chars found := by
  have hother : ∀ e ∈ entries, e.name ≠ filename.chars →
      ∀ a, HeaderAt mem a e → ¬ strcmp filename (mem.ptr a) = 0 := fun e he hne a ha hname =>
    hne ((ha.strcmp_short (hnames e he)).mp hname)
  -- `find?` gives the first entry with the name, and the entries before it
  cases hfind : entries.find? fun e => e.name = filename.chars with
  | none =>
    rw [List.find?_eq_none] at hfind
    have hnone : ∀ e ∈ entries, e.name ≠ filename.chars := fun e he => by
      simpa using hfind e he
    exact ⟨_, none, harchive.seek_none fun e he => hother e he (hnone e he), .inr ⟨hnone, rfl⟩⟩
  | some e =>
    rw [List.find?_eq_some_iff_append] at hfind
    obtain ⟨hname, before, after, rfl, hbefore⟩ := hfind
    have hfirst : ∀ e' ∈ before, e'.name ≠ filename.chars := fun e' he' => by
      simpa using hbefore e' he'
    have hheader := harchive.rest.1
    have hshort := hnames e (List.mem_append_right _ List.mem_cons_self)
    have hsame : e.name = filename.chars := of_decide_eq_true hname
    refine ⟨_, _, harchive.seek_found ?_ ((hheader.strcmp_short hshort).mpr hsame),
      .inl ⟨before, e, after, rfl, hsame, hfirst, rfl⟩⟩
    exact fun e' he' => hother e' (List.mem_append_left _ he') (hfirst e' he')

/-- An element of a list with one more at its end is in the list, or is the last one. -/
theorem split_last {α : Type} {l before after : List α} {x y : α}
    (h : l ++ [x] = before ++ y :: after) : y ∈ l ∨ before = l := by
  rcases List.append_eq_append_iff.mp h with ⟨between, hbefore, hlast⟩ | ⟨between, hl, hrest⟩
  · cases between with
    | nil => exact .inr (hbefore.trans (List.append_nil l))
    -- a list of one element has no room for two
    | cons z between =>
      have hlength := congrArg List.length hlast
      simp at hlength
  · cases between with
    | nil => exact .inr (hl.trans (List.append_nil before)).symm
    | cons z between =>
      cases hrest
      exact .inl (hl ▸ List.mem_append_right _ List.mem_cons_self)

/-- **Full-length names.** For a name of 100 characters, `ustar_seek` returns the first entry
with it exactly if the mode field of that entry starts with a NUL; and exactly then all
comparisons up to there are decided by the name fields alone. -/
theorem ustar_seek_full_name {mem : Memory} {tarRoot : Int} {before after : List ArchiveEntry}
    {e : ArchiveEntry} (harchive : ArchiveAt mem tarRoot (before ++ e :: after))
    {filename : CString} (hfilename : filename.strlen = ustarFilenameSize)
    (hname : e.name = filename.chars) (hfirst : ∀ e' ∈ before, e'.name ≠ filename.chars) :
    ((∃ fuel, ustarSeek fuel mem filename tarRoot = .ok (some (address tarRoot before))) ↔
        mem (address tarRoot before + fileModeOffset) = 0) ∧
      ((∀ before' e' after', before ++ [e] = before' ++ e' :: after' →
          (strcmp filename (mem.ptr (address tarRoot before')) = 0 ↔ e'.name = filename.chars)) ↔
        mem (address tarRoot before + fileModeOffset) = 0) := by
  have hheader := harchive.rest.1
  have hcompare := hheader.strcmp_full hfilename
  rw [and_iff_right hname] at hcompare
  have hother : ∀ e' ∈ before, ∀ a, HeaderAt mem a e' → ¬ strcmp filename (mem.ptr a) = 0 :=
    fun e' he' a ha hsame => hfirst e' he' ((ha.strcmp_full hfilename).mp hsame).1
  refine ⟨⟨?_, ?_⟩, ⟨?_, ?_⟩⟩
  · rintro ⟨fuel, hseek⟩
    exact hcompare.mp (ustarSeek_found hseek)
  · exact fun hmode => ⟨_, harchive.seek_found hother (hcompare.mpr hmode)⟩
  · exact fun hall => hcompare.mp ((hall before e [] rfl).mpr hname)
  · intro hmode before' e' after' hsplit
    have hall : ArchiveAt mem tarRoot (before' ++ e' :: (after' ++ after)) := by
      rwa [← List.cons_append, ← List.append_assoc, ← hsplit, List.append_assoc]
    rw [hall.rest.1.strcmp_full hfilename, and_iff_left_iff_imp]
    -- an entry with the name can only be the last one
    intro hsame
    rcases split_last hsplit with hmem | hlast
    · exact absurd hsame (hfirst e' hmem)
    · rwa [hlast]

/-- An entry with a short name and a few bytes. -/
def shortEntry : ArchiveEntry :=
  ⟨[97], [120, 121, 122], by decide, by simp, by decide, by decide⟩

/-- The archive with it. -/
def shortArchive : Memory := oneEntry [97] 48 (List.replicate 10 48 ++ [51]) [120, 121, 122]

/-- An archive of the examples has one entry, if its header does. -/
theorem oneEntry_archiveAt {name fileSize data : List UInt8} {fileMode : UInt8} {e : ArchiveEntry}
    (h : HeaderAt (oneEntry name fileMode fileSize data) exampleRoot e)
    (hdata : data.length = e.data.length) :
    ArchiveAt (oneEntry name fileMode fileSize data) exampleRoot ([] ++ e :: []) := by
  refine ⟨h, fun i _ => oneEntry_top ?_⟩
  -- the last block of the data is the last one that is not zero
  have hspan : 512 + e.data.length ≤ e.span := by
    unfold ArchiveEntry.span
    omega
  omega

theorem shortArchive_archiveAt : ArchiveAt shortArchive exampleRoot [shortEntry] :=
  oneEntry_archiveAt
    ⟨by decide +kernel, by decide +kernel, by decide +kernel, by decide +kernel⟩ rfl

/-- An empty file. -/
def emptyEntry : ArchiveEntry := ⟨[98], [], by decide, by simp, by decide, by decide⟩

/-- The archive with an empty file after the other one. -/
def longerArchive : Memory := fun a =>
  if a < exampleRoot + 1024 then shortArchive a else oneEntry [98] 48 noSize [] (a - 1024)

theorem longerArchive_archiveAt :
    ArchiveAt longerArchive exampleRoot [shortEntry, emptyEntry] :=
  ⟨⟨by decide +kernel, by decide +kernel, by decide +kernel, by decide +kernel⟩,
    ⟨by decide +kernel, by decide +kernel, by decide +kernel, by decide +kernel⟩,
    fun i _ => by
      have hspan : (exampleRoot : Int) + shortEntry.span + emptyEntry.span = exampleRoot + 1536 :=
        by decide
      unfold longerArchive
      rw [hspan, if_neg (by omega)]
      exact oneEntry_top (by rw [List.length_nil]; omega)⟩

/-- The second of two files is found behind the first. -/
theorem ustar_seek_finds_short :
    ArchiveAt longerArchive exampleRoot [shortEntry, emptyEntry] ∧
      ∃ fuel found, ustarSeek fuel longerArchive (.ofBytes [98]) exampleRoot = .ok found ∧
        FirstNamed exampleRoot [shortEntry, emptyEntry] (CString.ofBytes [98]).chars found :=
  ⟨longerArchive_archiveAt, ustar_seek_finds longerArchive_archiveAt (by decide) _⟩

/-- An entry whose name fills its field. -/
def fullEntry : ArchiveEntry :=
  ⟨List.replicate 100 97, [], by decide, by simp, by decide, by decide⟩

/-- The archive with it, and with a first byte of the mode. -/
def fullArchive (fileMode : UInt8) : Memory := oneEntry (List.replicate 100 97) fileMode noSize []

def fullFilename : CString := .ofBytes (List.replicate 100 97)

theorem fullArchive_archiveAt {fileMode : UInt8} (h : fileMode = 0 ∨ fileMode = 48) :
    ArchiveAt (fullArchive fileMode) exampleRoot ([] ++ fullEntry :: []) := by
  refine oneEntry_archiveAt ?_ rfl
  rcases h with rfl | rfl
  · exact ⟨by decide +kernel, by decide +kernel, by decide +kernel, by decide +kernel⟩
  · exact ⟨by decide +kernel, by decide +kernel, by decide +kernel, by decide +kernel⟩

theorem fullFilename_strlen : fullFilename.strlen = ustarFilenameSize := by decide +kernel

theorem fullFilename_chars : fullEntry.name = fullFilename.chars := by decide +kernel

/-- With a NUL in the mode field the entry is found. -/
theorem ustar_seek_full_name_nul :
    ArchiveAt (fullArchive 0) exampleRoot [fullEntry] ∧ fullEntry.name = fullFilename.chars ∧
      ∃ fuel, ustarSeek fuel (fullArchive 0) fullFilename exampleRoot = .ok (some exampleRoot) :=
  ⟨fullArchive_archiveAt (.inl rfl), fullFilename_chars,
    (ustar_seek_full_name (fullArchive_archiveAt (.inl rfl)) fullFilename_strlen
      fullFilename_chars fun _ he => absurd he List.not_mem_nil).1.mpr (by decide +kernel)⟩

/-- With a mode that begins with a digit, as modes do, it is not. -/
theorem ustar_seek_full_name_missed :
    ArchiveAt (fullArchive 48) exampleRoot [fullEntry] ∧ fullEntry.name = fullFilename.chars ∧
      ustarSeek 4 (fullArchive 48) fullFilename exampleRoot = .ok none :=
  ⟨fullArchive_archiveAt (.inr rfl), fullFilename_chars, by decide +kernel⟩

end Archive

/-! ## Reading a file -/

/-- What is written when the first `k` bytes of a file are copied to a buffer. -/
def copied (buf : Int) (data : List UInt8) (k : Nat) : List (Int × UInt8) :=
  (data.take k).mapIdx fun i c => (buf + (i : Nat), c)

/-- `ustar_read` returns how many bytes of the file were asked for and exist, and writes these,
and nothing else. -/
def ReadsFile (mem : Memory) (vnode : Vnode) (data : List UInt8) (buf : Int) (nbytes : Nat) :
    Prop :=
  ∃ fuel, ustarRead fuel mem vnode buf nbytes =
    .ok (((min nbytes data.length : Nat) : Int), copied buf data nbytes)

section Read

variable {mem : Memory} {start buf : Int} {data : List UInt8} {nbytes k fuel : Nat} {c : UInt8}

theorem copied_succ (buf : Int) (hc : data[k]? = some c) :
    copied buf data (k + 1) = copied buf data k ++ [(buf + k, c)] := by
  have hlt : k < data.length := (List.getElem?_eq_some_iff.mp hc).1
  unfold copied
  rw [List.take_add_one, hc, Option.toList_some, List.mapIdx_concat, List.length_take,
    Nat.min_eq_left (Nat.le_of_lt hlt)]

theorem length_copied (buf : Int) (data : List UInt8) (k : Nat) :
    (copied buf data k).length = min k data.length := by
  rw [copied, List.length_mapIdx, List.length_take]

/-- A turn writes one byte, unless as many as were asked for have been written. -/
theorem ustarReadBody_grows {s : ReadState} {out : LoopStep ReadState (Int × List (Int × UInt8))}
    (h : ustarReadBody start buf nbytes s = .ok out) :
    (s.i % 2 ^ 64 < nbytes ∧
      match out with
      | .next t => t.stores.length = s.stores.length + 1
      | .done r => r.2.length = s.stores.length + 1) ∨
    (¬ s.i % 2 ^ 64 < nbytes ∧ out = .done (s.i, s.stores)) := by
  unfold ustarReadBody at h
  dsimp only at h
  split_ifs at h with hmore hnul
  · cases h
    exact .inl ⟨hmore, List.length_append⟩
  · cases h
    exact .inl ⟨hmore, List.length_append⟩
  · cases h
    exact .inr ⟨hmore, rfl⟩

section Loop

variable (hdata : ∀ i < data.length, data[i]? = some (mem (start + (i : Nat))))
  (hlength : data.length < 2 ^ 30)
  (hapart : ∀ i < nbytes, ∀ j < data.length, buf + (i : Nat) ≠ start + (j : Nat))

include hdata hlength hapart

/-- One turn, at a byte of the file. -/
theorem ustarReadBody_byte (stores : List (Int × UInt8)) (hk : k < nbytes)
    (hc : data[k]? = some c) :
    ustarReadBody start buf nbytes ⟨mem, k, stores⟩ =
      .ok (if c = 0 then .done (k, stores ++ [(buf + k, c)])
        else .next ⟨Function.update mem (buf + k) c, (k + 1 : Nat), stores ++ [(buf + k, c)]⟩) := by
  have hlt : k < data.length := (List.getElem?_eq_some_iff.mp hc).1
  have hbyte : mem (start + k) = c := by
    have hread := hdata k hlt
    rw [hc] at hread
    exact (Option.some_inj.mp hread).symm
  have hindex : ((k : Int) % 2 ^ 64) < nbytes := by omega
  have hnext : toInt32 ((k : Int) + 1) = (k + 1 : Nat) := toInt32_eq (by omega) (by omega)
  unfold ustarReadBody
  dsimp only
  rw [if_pos hindex, hbyte, Function.update_of_ne (hapart k hk k hlt).symm, hbyte, hnext]
  split_ifs <;> rfl

/-- The first turns copy what is no NUL, and leave the file as it is. -/
theorem ustarRead_turns (hk : k ≤ nbytes) (hk' : k ≤ data.length) (hchars : 0 ∉ data.take k) :
    ∃ mem' : Memory, (∀ i < data.length, data[i]? = some (mem' (start + (i : Nat)))) ∧
      ∀ fuel, loop (ustarReadBody start buf nbytes) (k + fuel) ⟨mem, 0, []⟩ =
        loop (ustarReadBody start buf nbytes) fuel ⟨mem', k, copied buf data k⟩ := by
  -- on the bytes copied; the file stays as it is, since the buffer is elsewhere
  induction k with
  | zero => exact ⟨mem, hdata, fun fuel => by rw [Nat.zero_add]; rfl⟩
  | succ k ih =>
    have hc : data[k]? = some data[k] := List.getElem?_eq_getElem hk'
    rw [List.take_add_one, hc, Option.toList_some, List.mem_append, List.mem_singleton, not_or]
      at hchars
    obtain ⟨mem', hdata', hturns⟩ := ih (by omega) (by omega) hchars.1
    have hbody := ustarReadBody_byte hdata' hlength hapart (copied buf data k) hk hc
    rw [if_neg (Ne.symm hchars.2), ← copied_succ buf hc] at hbody
    refine ⟨Function.update mem' (buf + k) data[k], fun i hi => ?_, fun fuel => ?_⟩
    · -- the byte is written elsewhere
      rw [Function.update_of_ne (hapart k hk i hi).symm]
      exact hdata' i hi
    · rw [Nat.add_right_comm, Nat.add_assoc, hturns, loop_next hbody]

/-- The loop ends at the first NUL, so a result that is right has met none. -/
theorem ustarRead_no_nul {stores : List (Int × UInt8)}
    (hread : loop (ustarReadBody start buf nbytes) fuel ⟨mem, 0, []⟩ =
      .ok (((min nbytes data.length : Nat) : Int), stores)) : 0 ∉ data.take nbytes := by
  intro hmem
  obtain ⟨before, after, hsplit, hbefore⟩ := List.eq_append_cons_of_mem hmem
  have hfirst := congrArg List.length hsplit
  rw [List.length_take, List.length_append, List.length_cons] at hfirst
  have hnul : data[before.length]? = some 0 := by
    rw [← List.getElem?_take_of_lt (by omega : before.length < nbytes), hsplit,
      List.getElem?_append_right (Nat.le_refl _), Nat.sub_self]
    rfl
  have htake : data.take before.length = before := by
    have hprefix := congrArg (List.take before.length) hsplit
    rwa [List.take_take, List.take_left, Nat.min_eq_left (by omega)] at hprefix
  obtain ⟨mem', hdata', hturns⟩ := ustarRead_turns hdata hlength hapart
    (by omega : before.length ≤ nbytes) (by omega) (by rwa [htake])
  have hbody := ustarReadBody_byte hdata' hlength hapart (copied buf data before.length)
    (by omega) hnul
  rw [if_pos rfl] at hbody
  have hresult := (Prod.mk.inj (loop_det hread ((hturns 1).trans (loop_done hbody)))).1
  omega

/-- If more is asked for than a file without a NUL has, more is written. -/
theorem ustarRead_overruns {r : Int × List (Int × UInt8)} (hlt : data.length < nbytes)
    (hchars : 0 ∉ data)
    (hread : loop (ustarReadBody start buf nbytes) fuel ⟨mem, 0, []⟩ = .ok r) :
    data.length < r.2.length := by
  obtain ⟨mem', -, hturns⟩ := ustarRead_turns hdata hlength hapart (Nat.le_of_lt hlt)
    (Nat.le_refl _) (by rwa [List.take_length])
  have hmore := loop_mono (Nat.le_add_left fuel data.length) hread
  rw [hturns] at hmore
  -- from the end of the file on: nothing more was written so far, or too much
  refine loop_inv
    (fun s : ReadState => (s.i = data.length ∧ s.stores.length = data.length) ∨
      data.length < s.stores.length)
    (fun r => data.length < r.2.length) (fun s t hs hnext => ?_) (fun s r hs hdone => ?_)
    (.inl ⟨rfl, (length_copied _ _ _).trans (Nat.min_self _)⟩) hmore
  · rcases ustarReadBody_grows hnext with ⟨-, hlonger⟩ | ⟨-, hdone⟩
    · dsimp only at hlonger
      omega
    · cases hdone
  · rcases ustarReadBody_grows hdone with ⟨-, hlonger⟩ | ⟨hend, hsame⟩
    · dsimp only at hlonger
      omega
    · cases hsame
      -- at the end of the file there was more to write
      refine hs.resolve_left fun hstart => hend ?_
      rw [hstart.1]
      omega

/-- A file is copied right exactly if no more than its size is asked for, and the loop meets no
NUL. -/
theorem ustarRead_copies_iff :
    (∃ fuel, loop (ustarReadBody start buf nbytes) fuel ⟨mem, 0, []⟩ =
        .ok (((min nbytes data.length : Nat) : Int), copied buf data nbytes)) ↔
      nbytes ≤ data.length ∧ 0 ∉ data.take nbytes := by
  constructor
  · rintro ⟨fuel, hread⟩
    have hchars := ustarRead_no_nul hdata hlength hapart hread
    refine ⟨?_, hchars⟩
    by_contra hlt
    rw [List.take_of_length_le (by omega)] at hchars
    have hwritten := ustarRead_overruns hdata hlength hapart (by omega) hchars hread
    rw [length_copied] at hwritten
    omega
  · rintro ⟨hle, hchars⟩
    obtain ⟨mem', -, hturns⟩ := ustarRead_turns hdata hlength hapart (Nat.le_refl nbytes) hle hchars
    -- as many as were asked for: the condition of the loop fails
    have hend : ustarReadBody start buf nbytes ⟨mem', nbytes, copied buf data nbytes⟩ =
        .ok (.done ((nbytes : Int), copied buf data nbytes)) := by
      unfold ustarReadBody
      dsimp only
      rw [if_neg (by omega)]
    refine ⟨nbytes + 1, ?_⟩
    rw [hturns, loop_done hend, Nat.min_eq_left hle]

end Loop

/-! ## Files of an archive -/

theorem le_address (tarRoot : Int) (before : List ArchiveEntry) :
    tarRoot ≤ address tarRoot before := by
  induction before generalizing tarRoot with
  | nil => exact Int.le_refl _
  | cons e before ih =>
    have hnext := ih (tarRoot + e.span)
    rw [address]
    omega

/-- What `ustar_seek` finds in an archive is the header of one of its entries. -/
theorem ArchiveAt.found_entry {tarRoot item : Int} {entries : List ArchiveEntry}
    {filename : CString} (h : ArchiveAt mem tarRoot entries)
    (hseek : ustarSeek fuel mem filename tarRoot = .ok (some item)) :
    ∃ before e after, entries = before ++ e :: after ∧ item = address tarRoot before := by
  obtain ⟨n, hstop⟩ := ustarSeek_stops hseek
  have hresult := ustarSeek_result hstop hseek
  split_ifs at hresult with hzero
  cases hresult
  have hall : ArchiveAt mem tarRoot (entries ++ []) := by rwa [List.append_nil]
  have hend := (ustarIsZeroed_iff mem _).mpr hall.rest
  rw [← hall.item] at hend
  -- the scan does not get past the zero block
  rcases Nat.lt_trichotomy n entries.length with hlt | rfl | hgt
  · obtain ⟨before, e, after, rfl, rfl⟩ :
        ∃ before e after, entries = before ++ e :: after ∧ n = before.length := by
      refine ⟨entries.take n, entries[n], entries.drop (n + 1), ?_, ?_⟩
      · rw [List.getElem_cons_drop, List.take_append_drop]
      · rw [List.length_take, Nat.min_eq_left (Nat.le_of_lt hlt)]
    exact ⟨before, e, after, rfl, h.item⟩
  · exact absurd hend hzero
  · exact absurd (.inl hend) (hstop.before _ hgt)

theorem ustarLookup_inv {rootItem : Int} {path : CString} {vnode opened : Vnode}
    (h : ustarLookup fuel mem rootItem path vnode = .ok (0, opened)) :
    ∃ item, ustarSeek fuel mem path rootItem = .ok (some item) ∧
      opened.vData = some item.toNat ∧ opened.size = itemFilesize mem item := by
  unfold ustarLookup at h
  obtain ⟨-, -, h⟩ := bind_inv h
  obtain ⟨found, hseek, h⟩ := bind_inv h
  cases found with
  | none => cases h
  | some item =>
    have hvnode := (Prod.mk.inj (Except.ok.inj h)).2
    subst hvnode
    exact ⟨item, hseek, rfl, by dsimp only⟩

/-- **Reading files.** A file of an archive that `ustar_lookup` has opened is read right exactly
if no more than its size is asked for, and there is no NUL in what is asked for. The buffer may
be anywhere but over the file. -/
theorem ustar_read_file {mem : Memory} {rootItem : Nat} {entries : List ArchiveEntry}
    (harchive : ArchiveAt mem rootItem entries) {fuel : Nat} {path : CString}
    {vnode opened : Vnode} (hlookup : ustarLookup fuel mem rootItem path vnode = .ok (0, opened)) :
    ∃ before e after, entries = before ++ e :: after ∧
      opened.vData = some (address rootItem before).toNat ∧ opened.size = e.data.length ∧
      ∀ (buf : Int) (nbytes : Nat),
        (∀ i < nbytes, ∀ j < e.data.length,
          buf + (i : Nat) ≠ address rootItem before + headerSize + (j : Nat)) →
        (ReadsFile mem opened e.data buf nbytes ↔
          nbytes ≤ e.data.length ∧ 0 ∉ e.data.take nbytes) := by
  obtain ⟨item, hseek, hvnode, hsize⟩ := ustarLookup_inv hlookup
  obtain ⟨before, e, after, rfl, rfl⟩ := harchive.found_entry hseek
  have hheader := harchive.rest.1
  refine ⟨before, e, after, rfl, hvnode, hsize.trans hheader.itemFilesize_eq,
    fun buf nbytes hapart => ?_⟩
  -- the vnode keeps the address of the header as a number
  have haddress : Int.ofNat (address rootItem before).toNat = address rootItem before :=
    Int.toNat_of_nonneg (Int.le_trans (Int.natCast_nonneg _) (le_address rootItem before))
  unfold ReadsFile ustarRead ustarGetFileStart
  rw [hvnode, Option.map_some, Option.map_some, haddress]
  exact ustarRead_copies_iff hheader.data e.data_length hapart

/-- The vnode of the only file of an archive of the examples. -/
def openedVnode : Vnode := ⟨3, 0, .regularFile, none, some exampleRoot⟩

/-- Two of three bytes are read right. -/
theorem ustar_read_file_two_bytes :
    ∃ opened, ustarLookup 1 shortArchive exampleRoot (.ofBytes [97]) ⟨0, 0, .none, none, none⟩ =
        .ok (0, opened) ∧ ReadsFile shortArchive opened shortEntry.data 0x8000 2 := by
  have hlookup : ustarLookup 1 shortArchive exampleRoot (.ofBytes [97])
      ⟨0, 0, .none, none, none⟩ = .ok (0, openedVnode) := by decide +kernel
  obtain ⟨before, e, after, hsplit, -, -, hreads⟩ := ustar_read_file shortArchive_archiveAt hlookup
  rcases List.singleton_eq_append_iff.mp hsplit with ⟨rfl, he⟩ | ⟨-, hnil⟩
  case inr => cases hnil
  cases he
  refine ⟨openedVnode, hlookup, (hreads 0x8000 2 fun i hi j hj => ?_).mpr (by decide)⟩
  have hj' : j < 3 := hj
  have hroot : address exampleRoot [] = 0x1000 := rfl
  have hheader : headerSize = 512 := rfl
  omega

/-- The archive with a file that has a NUL in it. -/
def nulArchive : Memory := oneEntry [97] 48 (List.replicate 10 48 ++ [51]) [120, 0, 122]

def nulEntry : ArchiveEntry := ⟨[97], [120, 0, 122], by decide, by simp, by decide, by decide⟩

/-- Of a file with a NUL, only what is before it is returned; and more than a file has is
written. -/
theorem ustar_read_stops_at_nul :
    (ArchiveAt nulArchive exampleRoot [nulEntry] ∧
        ustarLookup 1 nulArchive exampleRoot (.ofBytes [97]) ⟨0, 0, .none, none, none⟩ =
          .ok (0, openedVnode) ∧
        ustarRead 4 nulArchive openedVnode 0x8000 3 = .ok (1, [(0x8000, 120), (0x8001, 0)])) ∧
      ArchiveAt shortArchive exampleRoot [shortEntry] ∧
        ustarRead 8 shortArchive openedVnode 0x8000 8 =
          .ok (3, [(0x8000, 120), (0x8001, 121), (0x8002, 122), (0x8003, 0)]) :=
  ⟨⟨oneEntry_archiveAt
        ⟨by decide +kernel, by decide +kernel, by decide +kernel, by decide +kernel⟩ rfl,
      by decide +kernel, by decide +kernel⟩,
    shortArchive_archiveAt, by decide +kernel⟩

end Read

end Dreamos64

import Rpcsx.Lib.Records

/-!
# Trophy progress

`TROPUSRLoader` of `TROPUSR.cpp`, which keeps the progress of the trophies in a file of tables. Loading
follows the offsets in the headers of the tables; saving writes the headers as they were loaded and the two
known tables behind them. The file is saved well exactly when the offsets are those (`reloads_iff_placed`).
-/

namespace Rpcsx.Loader

open Lib List Option

/-! ## The loader -/

abbrev TROPUSRHeader := Record 48

abbrev TROPUSRTableHeader := Record 32

abbrev TROPUSREntry4 := Record 96

abbrev TROPUSREntry6 := Record 112

def tropusrMagic : Nat := 0x818f54ad

def TROPUSRHeader.magic (h : TROPUSRHeader) : Nat := h.field 0 4

def TROPUSRHeader.tablesCount (h : TROPUSRHeader) : Nat := h.field 8 4

namespace TROPUSRTableHeader

def type (h : TROPUSRTableHeader) : Nat := h.field 0 4

def entriesCount (h : TROPUSRTableHeader) : Nat := h.field 12 4

def offset (h : TROPUSRTableHeader) : Nat := h.field 16 8

end TROPUSRTableHeader

structure Tables where
  table4 : List TROPUSREntry4 := []
  table6 : List TROPUSREntry6 := []
  deriving DecidableEq

structure TROPUSRLoader extends Tables where
  header : TROPUSRHeader
  tableHeaders : List TROPUSRTableHeader
  deriving DecidableEq

/-- `seek`, whose argument is an `s64`: a negative one is refused and the position stays. -/
def seek (pos offset : Nat) : Nat := if offset < 2 ^ 63 then offset else pos

def loadHeader (file : List UInt8) : Option TROPUSRHeader :=
  match readRecords 48 1 file with
  | some [header] => if TROPUSRHeader.magic header = tropusrMagic then some header else none
  | _ => none

def loadTableHeaders (file : List UInt8) (header : TROPUSRHeader) : Option (List TROPUSRTableHeader) :=
  readRecords 32 header.tablesCount (file.drop 0x30)

/-- `LoadTables`, from the table headers that are left, the position in the file and the tables so far. -/
def loadTables (file : List UInt8) : List TROPUSRTableHeader → Nat → Tables → Option Tables
  | [], _, tables => some tables
  | h :: hs, pos, tables =>
    let pos := seek pos h.offset
    if h.type = 4 then do
      let table4 ← readRecords 96 h.entriesCount (file.drop pos)
      loadTables file hs (pos + 96 * h.entriesCount) { tables with table4 := table4 }
    else if h.type = 6 then do
      let table6 ← readRecords 112 h.entriesCount (file.drop pos)
      loadTables file hs (pos + 112 * h.entriesCount) { tables with table6 := table6 }
    else loadTables file hs pos tables

/-- `Load`, where there is no result if the file is discarded. -/
def TROPUSRLoader.load (file : List UInt8) : Option TROPUSRLoader := do
  let header ← loadHeader file
  let tableHeaders ← loadTableHeaders file header
  let tables ← loadTables file tableHeaders (0x30 + 32 * header.tablesCount) {}
  some { tables with header := header, tableHeaders := tableHeaders }

namespace TROPUSRLoader

def save (l : TROPUSRLoader) : List UInt8 :=
  l.header.bytes ++ tableBytes l.tableHeaders ++ tableBytes l.table4 ++ tableBytes l.table6

def setTrophy (entry : TROPUSREntry6) (state timestamp1 timestamp2 : Nat) : TROPUSREntry6 :=
  ((entry.setField 20 4 state (by decide)).setField 32 8 timestamp1 (by decide)).setField 40 8 timestamp2
    (by decide)

def unlockTrophy (l : TROPUSRLoader) (id timestamp1 timestamp2 : Nat) : TROPUSRLoader :=
  { l with table6 := l.table6.modify id (setTrophy · 1 timestamp1 timestamp2) }

def lockTrophy (l : TROPUSRLoader) (id : Nat) : TROPUSRLoader :=
  { l with table6 := l.table6.modify id (setTrophy · 0 0 0) }

end TROPUSRLoader

inductive TrophyCall
  | unlock (id timestamp1 timestamp2 : Nat)
  | lock (id : Nat)

/-- A call, which changes nothing if there is no trophy of the id. -/
def TROPUSRLoader.call (l : TROPUSRLoader) : TrophyCall → TROPUSRLoader
  | .unlock id timestamp1 timestamp2 => l.unlockTrophy id timestamp1 timestamp2
  | .lock id => l.lockTrophy id

/-! ## Where the tables are looked for -/

def TROPUSRTableHeader.tableSize (h : TROPUSRTableHeader) : Nat :=
  if h.type = 4 then 96 * h.entriesCount else if h.type = 6 then 112 * h.entriesCount else 0

def places : Nat → List TROPUSRTableHeader → List (TROPUSRTableHeader × Nat)
  | _, [] => []
  | pos, h :: hs =>
    (h, seek pos h.offset) :: places (seek pos h.offset + h.tableSize) hs

def lastOf (type : Nat) (tables : List (TROPUSRTableHeader × Nat)) : Option (TROPUSRTableHeader × Nat) :=
  (tables.filter (·.1.type = type)).getLast?

/-- All tables lie in a file of `size` bytes. -/
def Fit (size : Nat) (tables : List (TROPUSRTableHeader × Nat)) : Prop :=
  ∀ x ∈ tables, x.1.tableSize ≠ 0 → x.2 + x.1.tableSize ≤ size

/-- What is loaded for a table: what stands at its place, or nothing new without one. -/
def Yields {n : Nat} (file : List UInt8) (initial table : List (Record n)) : Option (TROPUSRTableHeader × Nat) → Prop
  | none => table = initial
  | some (h, pos) => table.length = h.entriesCount ∧ tableBytes table <+: file.drop pos

variable {n : Nat} {file : List UInt8} {last : Option (TROPUSRTableHeader × Nat)} {xs : List (TROPUSRTableHeader × Nat)}
  {x : TROPUSRTableHeader × Nat} {table : List (Record n)}

theorem Yields.length_eq (h : Yields file [] table last) : table.length = last.elim 0 (·.1.entriesCount) := by
  cases last with
  | none => exact congrArg length h
  | some x => exact h.1

theorem yields_iff (h : table.length = last.elim 0 (·.1.entriesCount)) :
    Yields file [] table last ↔ ∀ x ∈ last, tableBytes table <+: file.drop x.2 := by
  cases last with
  | none => simpa [Yields] using h
  | some x => simp [Yields, show table.length = x.1.entriesCount from h]

theorem lastOf_cons {type : Nat} :
    lastOf type (x :: xs) = (lastOf type xs).or (if x.1.type = type then some x else none) := by
  unfold lastOf
  by_cases h : x.1.type = type
  · simp only [h, filter_cons, decide_true, if_true]
    cases (xs.filter (·.1.type = type)) with
    | nil => rfl
    | cons y ys => simp [getLast?_cons]
  simp [h]

/-- A table is read if it lies in the file, and it is what is loaded if no table of its type follows. -/
theorem exists_readRecords (file : List UInt8) (initial table : List (Record n)) (x : TROPUSRTableHeader × Nat)
    (last : Option (TROPUSRTableHeader × Nat)) :
    (∃ t, readRecords n x.1.entriesCount (file.drop x.2) = some t ∧ Yields file t table last) ↔
      (n * x.1.entriesCount ≠ 0 → x.2 + n * x.1.entriesCount ≤ file.length) ∧
        Yields file initial table (last.or (some x)) := by
  have hfits : (readRecords n x.1.entriesCount (file.drop x.2)).isSome ↔
      (n * x.1.entriesCount ≠ 0 → x.2 + n * x.1.entriesCount ≤ file.length) := by
    rw [isSome_readRecords, length_drop]
    omega
  rw [← hfits]
  cases last with
  | none =>
    constructor
    · rintro ⟨t, ht, rfl⟩
      exact ⟨isSome_of_eq_some ht, readRecords_eq_some.mp ht⟩
    rintro ⟨-, h⟩
    exact ⟨table, readRecords_eq_some.mpr h, rfl⟩
  | some y =>
    constructor
    · rintro ⟨t, ht, h⟩
      exact ⟨isSome_of_eq_some ht, h⟩
    rintro ⟨hsome, h⟩
    obtain ⟨t, ht⟩ := isSome_iff_exists.mp hsome
    exact ⟨t, ht, h⟩

theorem fit_cons {size : Nat} : Fit size (x :: xs) ↔ (x.1.tableSize ≠ 0 → x.2 + x.1.tableSize ≤ size) ∧ Fit size xs :=
  forall_mem_cons

theorem loadTables_eq_some {hs : List TROPUSRTableHeader} {pos : Nat} {tables tables' : Tables} :
    loadTables file hs pos tables = some tables' ↔ Fit file.length (places pos hs) ∧
        Yields file tables.table4 tables'.table4 (lastOf 4 (places pos hs)) ∧
        Yields file tables.table6 tables'.table6 (lastOf 6 (places pos hs)) := by
  induction hs generalizing pos tables with
  | nil =>
    obtain ⟨table4, table6⟩ := tables
    obtain ⟨table4', table6'⟩ := tables'
    simp [loadTables, places, lastOf, Yields, Fit, eq_comm]
  | cons h hs ih =>
    rw [places, fit_cons, lastOf_cons, lastOf_cons, loadTables, TROPUSRTableHeader.tableSize]
    by_cases h4 : h.type = 4
    · have h6 : h.type ≠ 6 := by omega
      simp only [if_pos h4, if_neg h6, bind_eq_bind, bind_eq_some_iff, ih, or_none]
      have hread := exists_readRecords file tables.table4 tables'.table4 (h, seek pos h.offset)
        (lastOf 4 (places (seek pos h.offset + 96 * h.entriesCount) hs))
      grind
    by_cases h6 : h.type = 6
    · simp only [if_neg h4, if_pos h6, bind_eq_bind, bind_eq_some_iff, ih, or_none]
      have hread := exists_readRecords file tables.table6 tables'.table6 (h, seek pos h.offset)
        (lastOf 6 (places (seek pos h.offset + 112 * h.entriesCount) hs))
      grind
    simp only [if_neg h4, if_neg h6, ih, or_none]
    simp

/-! ## Saving and loading again -/

namespace TROPUSRLoader

def places (l : TROPUSRLoader) : List (TROPUSRTableHeader × Nat) :=
  Loader.places (0x30 + 32 * l.tableHeaders.length) l.tableHeaders

/-- Where the tables begin when they come back to back behind the headers. -/
def begin4 (l : TROPUSRLoader) : Nat := 0x30 + 32 * l.tableHeaders.length

def begin6 (l : TROPUSRLoader) : Nat := l.begin4 + 96 * l.table4.length

/-- The offsets fit tables that come back to back: every table 4 and 6 lies in the file, and the last one of each
type begins where its entries do, or where the same bytes stand. -/
structure Placed (l : TROPUSRLoader) : Prop where
  fit : Fit (l.begin6 + 112 * l.table6.length) l.places
  table4 : ∀ x ∈ lastOf 4 l.places, x.2 = l.begin4 ∨ tableBytes l.table4 <+: l.save.drop x.2
  table6 : ∀ x ∈ lastOf 6 l.places, x.2 = l.begin6 ∨ tableBytes l.table6 <+: l.save.drop x.2

/-- The file that is saved can be loaded, with the same tables 4 and 6. -/
def Reloads (l : TROPUSRLoader) : Prop :=
  ∃ l', load l.save = some l' ∧ l'.table4 = l.table4 ∧ l'.table6 = l.table6

structure Loaded (l : TROPUSRLoader) : Prop where
  magic : TROPUSRHeader.magic l.header = tropusrMagic
  length : l.tableHeaders.length = TROPUSRHeader.tablesCount l.header
  table4 : l.table4.length = (lastOf 4 l.places).elim 0 (·.1.entriesCount)
  table6 : l.table6.length = (lastOf 6 l.places).elim 0 (·.1.entriesCount)

variable {file : List UInt8}

theorem loadHeader_eq_some {header : TROPUSRHeader} : loadHeader file = some header ↔
      TROPUSRHeader.magic header = tropusrMagic ∧ readRecords 48 1 file = some [header] := by
  unfold loadHeader
  split
  case h_1 header' h =>
    rw [h, some_inj, singleton_inj]
    constructor
    · intro hsome
      obtain ⟨hmagic, heq⟩ := ite_none_right_eq_some.mp hsome
      cases heq
      exact ⟨hmagic, rfl⟩
    rintro ⟨hmagic, rfl⟩
    exact if_pos hmagic
  case h_2 h =>
    constructor
    · rintro ⟨⟩
    rintro ⟨-, hread⟩
    exact absurd hread (h header)

variable {l : TROPUSRLoader}

theorem load_eq_some : load file = some l ↔
      (TROPUSRHeader.magic l.header = tropusrMagic ∧ readRecords 48 1 file = some [l.header]) ∧
        readRecords 32 (TROPUSRHeader.tablesCount l.header) (file.drop 0x30) = some l.tableHeaders ∧
        Fit file.length l.places ∧ Yields file [] l.table4 (lastOf 4 l.places) ∧
        Yields file [] l.table6 (lastOf 6 l.places) := by
  rw [← loadHeader_eq_some]
  simp only [load, bind_eq_bind, bind_eq_some_iff, loadTableHeaders]
  constructor
  · rintro ⟨header, hheader, tableHeaders, hread, tables, htables, ⟨⟩⟩
    refine ⟨hheader, hread, ?_⟩
    rw [places, (readRecords_eq_some.mp hread).1]
    exact loadTables_eq_some.mp htables
  rintro ⟨hheader, hread, htables⟩
  refine ⟨l.header, hheader, l.tableHeaders, hread, l.toTables, ?_, rfl⟩
  rw [places, (readRecords_eq_some.mp hread).1] at htables
  exact loadTables_eq_some.mpr htables

theorem loaded_of_load (h : load file = some l) : l.Loaded := by
  obtain ⟨⟨hmagic, -⟩, hread, -, h4, h6⟩ := load_eq_some.mp h
  exact ⟨hmagic, (readRecords_eq_some.mp hread).1, h4.length_eq, h6.length_eq⟩

/-- A call changes entries of table 6 only. -/
theorem Loaded.call (h : l.Loaded) (c : TrophyCall) : (l.call c).Loaded := by
  obtain ⟨hmagic, hlength, h4, h6⟩ := h
  have hsame : (l.call c).table6.length = l.table6.length := by
    cases c <;> exact length_modify ..
  cases c <;> exact ⟨hmagic, hlength, h4, hsame.trans h6⟩

theorem Loaded.calls (h : l.Loaded) (cs : List TrophyCall) : (cs.foldl TROPUSRLoader.call l).Loaded := by
  induction cs generalizing l with
  | nil => exact h
  | cons c cs ih => exact ih (h.call c)

theorem length_save (l : TROPUSRLoader) : l.save.length = l.begin6 + 112 * l.table6.length := by
  simp only [save, length_append, length_tableBytes, l.header.length_bytes, begin6, begin4]

theorem readRecords_save_header (l : TROPUSRLoader) : readRecords 48 1 l.save = some [l.header] := by
  refine readRecords_eq_some.mpr ⟨rfl, ?_⟩
  rw [save, append_assoc, append_assoc, tableBytes, flatMap_singleton]
  exact prefix_append _ _

theorem Loaded.readRecords_save_tableHeaders (h : l.Loaded) :
    readRecords 32 (TROPUSRHeader.tablesCount l.header) (l.save.drop 0x30) = some l.tableHeaders := by
  refine readRecords_eq_some.mpr ⟨h.length, ?_⟩
  rw [save, append_assoc, append_assoc, drop_left' l.header.length_bytes]
  exact prefix_append _ _

/-- The tables stand at their places. -/
theorem prefix_drop_begin (l : TROPUSRLoader) :
    tableBytes l.table4 <+: l.save.drop l.begin4 ∧ tableBytes l.table6 <+: l.save.drop l.begin6 := by
  have h4 : (l.header.bytes ++ tableBytes l.tableHeaders).length = l.begin4 := by
    rw [length_append, length_tableBytes, l.header.length_bytes, begin4]
  have h6 : (l.header.bytes ++ tableBytes l.tableHeaders ++ tableBytes l.table4).length = l.begin6 := by
    rw [length_append, h4, length_tableBytes, begin6]
  rw [save, drop_left' h6, append_assoc, drop_left' h4]
  exact ⟨prefix_append _ _, prefix_rfl⟩

theorem placed_iff : l.Placed ↔ Fit l.save.length l.places ∧
    (∀ x ∈ lastOf 4 l.places, tableBytes l.table4 <+: l.save.drop x.2) ∧
    ∀ x ∈ lastOf 6 l.places, tableBytes l.table6 <+: l.save.drop x.2 := by
  rw [length_save]
  obtain ⟨h4, h6⟩ := l.prefix_drop_begin
  constructor
  · rintro ⟨hfit, hat4, hat6⟩
    exact ⟨hfit, fun x hx => (hat4 x hx).elim (fun heq => heq ▸ h4) id,
      fun x hx => (hat6 x hx).elim (fun heq => heq ▸ h6) id⟩
  · rintro ⟨hfit, hat4, hat6⟩
    exact ⟨hfit, fun x hx => .inr (hat4 x hx), fun x hx => .inr (hat6 x hx)⟩

/-- The headers that `Generate` makes, one for each type, place the tables. -/
theorem placed_of_generated {h4 h6 : TROPUSRTableHeader} (hheaders : l.tableHeaders = [h4, h6])
    (hpos4 : h4.offset = l.begin4) (hpos6 : h6.offset = l.begin6) (htype4 : h4.type = 4) (htype6 : h6.type = 6)
    (hcount4 : h4.entriesCount = l.table4.length) (hcount6 : h6.entriesCount = l.table6.length)
    (hlt : l.begin6 < 2 ^ 63) : l.Placed := by
  have hle : l.begin4 ≤ l.begin6 := Nat.le_add_right _ _
  have hplaces : l.places = [(h4, l.begin4), (h6, l.begin6)] := by
    simp only [places, hheaders, Loader.places, seek, hpos4, hpos6, if_pos hlt, if_pos (hle.trans_lt hlt)]
  refine placed_iff.mpr ⟨?_, ?_, ?_⟩ <;> rw [hplaces]
  · simp only [Fit, forall_mem_cons, TROPUSRTableHeader.tableSize, htype4, htype6, hcount4, hcount6, length_save, begin6]
    simp
  · simpa [lastOf, htype4, htype6] using l.prefix_drop_begin.1
  · simpa [lastOf, htype4, htype6] using l.prefix_drop_begin.2

/-- A loader reads back from its file what stands at the places of the tables. -/
theorem Loaded.reloads_iff (h : l.Loaded) : l.Reloads ↔ l.Placed := by
  constructor
  · rintro ⟨l', hload, heq4, heq6⟩
    obtain ⟨⟨-, hheader⟩, hread, hfit, h4, h6⟩ := load_eq_some.mp hload
    -- The headers are those that have been saved, so that the places are the same ones.
    rw [readRecords_save_header, some_inj, singleton_inj] at hheader
    rw [← hheader, h.readRecords_save_tableHeaders, some_inj] at hread
    have hplaces : l'.places = l.places := by rw [places, places, hread]
    rw [hplaces] at hfit
    rw [hplaces, heq4, yields_iff h.table4] at h4
    rw [hplaces, heq6, yields_iff h.table6] at h6
    exact placed_iff.mpr ⟨hfit, h4, h6⟩
  intro hplaced
  obtain ⟨hfit, h4, h6⟩ := placed_iff.mp hplaced
  refine ⟨l, load_eq_some.mpr ⟨⟨h.magic, l.readRecords_save_header⟩, ?_⟩, rfl, rfl⟩
  exact ⟨h.readRecords_save_tableHeaders, hfit, (yields_iff h.table4).mpr h4, (yields_iff h.table6).mpr h6⟩

/-- After any calls, the progress survives saving exactly when the offsets of the tables are those at which
saving puts the tables, or the bytes there happen to be the same. -/
theorem reloads_iff_placed {file : List UInt8} {l : TROPUSRLoader} (h : load file = some l) (calls : List TrophyCall) :
    (calls.foldl TROPUSRLoader.call l).Reloads ↔ (calls.foldl TROPUSRLoader.call l).Placed :=
  ((loaded_of_load h).calls calls).reloads_iff

/-- A file with one trophy, whose table 6 comes `gap` bytes behind the table headers. -/
def oneTrophy (gap : Nat) : List UInt8 :=
  beBytes 4 tropusrMagic ++ beBytes 4 0x10000 ++ beBytes 4 1 ++ replicate 36 0 ++
    (beBytes 4 6 ++ beBytes 4 0x60 ++ beBytes 4 1 ++ beBytes 4 1 ++ beBytes 8 (0x50 + gap) ++
      replicate 8 0) ++
    replicate gap 0 ++ (beBytes 4 6 ++ beBytes 4 0x60 ++ replicate 104 0)

theorem isSome_load_oneTrophy : (load (oneTrophy 0)).isSome ∧ (load (oneTrophy 16)).isSome := by decide +kernel

theorem reloads_iff_placed_oneTrophy :
    ∃ l, load (oneTrophy 0) = some l ∧ (TROPUSRLoader.call l (.unlock 0 1 2)).Reloads := by
  have hload := (some_get isSome_load_oneTrophy.1).symm
  refine ⟨_, hload, (reloads_iff_placed hload [.unlock 0 1 2]).mpr ⟨?_, ?_, ?_⟩⟩
  · unfold Fit
    decide +kernel
  · decide +kernel
  decide +kernel

/-- Saving closes the gap, and the offset then leads behind the end of the file. -/
theorem progress_lost_with_gap : ∃ l, load (oneTrophy 16) = some l ∧ ¬l.Reloads := by
  refine ⟨_, (some_get isSome_load_oneTrophy.2).symm, ?_⟩
  rintro ⟨l', h, -⟩
  have hnone : load ((load (oneTrophy 16)).get isSome_load_oneTrophy.2).save = none := by decide +kernel
  rw [hnone] at h
  cases h

end TROPUSRLoader

end Rpcsx.Loader
